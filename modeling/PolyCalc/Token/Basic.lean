import PolyCalc.Expr.Basic
import PolyCalc.Text.Quoted

/-!
# Tokens

What a text is made of once blanks are gone, and what can be wrong with it. A slash is a token
only so that it can be refused as a division. Positions are byte offsets into the text.
-/

namespace PolyCalc

/-- A lexical unit of an expression. -/
inductive Token where
  | number (value : Number)
  | name (name : String)
  | operator (op : Operator)
  | slash
  | openParen
  | closeParen
  deriving DecidableEq, Inhabited

/-- A token and the byte offset at which its lexeme begins. -/
structure PlacedToken where
  position : Nat
  token : Token
  deriving DecidableEq, Inhabited

namespace Token

def toText : Token → String
  | number n => "number " ++ n.toText
  | name x => "variable " ++ x
  | operator op => Text.singleQuote.toString ++ op.toText ++ Text.singleQuote.toString
  | slash => "'/'"
  | openParen => "'('"
  | closeParen => "')'"

end Token

/-- What could have stood where a text breaks off or goes wrong. -/
inductive Expectation where
  /-- The beginning of an operand. -/
  | operand
  /-- The end of a parenthesis. -/
  | closing
  /-- The continuation or the end of the whole text. -/
  | operatorOrEnd
  deriving DecidableEq, Inhabited

def Expectation.toText : Expectation → String
  | operand => "a number, a variable or '('"
  | closing => "')'"
  | operatorOrEnd => "an operator or the end of input"

/-- Why a text is no expression. -/
inductive ReadError where
  | invalidCharacter (found : Char) (position : Nat)
  | invalidNumber (literal : String) (position : Nat)
  | unexpectedToken (expected : Expectation) (found : Token) (position : Nat)
  | unexpectedEnd (expected : Expectation)
  | division (position : Nat)
  | tooDeep (limit position : Nat)
  | empty
  deriving DecidableEq

def ReadError.message : ReadError → String
  | invalidCharacter c p =>
      "unexpected character " ++ Text.quoteChar c ++ " at position " ++ toString p
  | invalidNumber literal p =>
      "invalid number literal " ++ Text.quote literal ++ " at position " ++ toString p
  | unexpectedToken expected found p =>
      "expected " ++ expected.toText ++ " at position " ++ toString p ++ ", found " ++
        found.toText
  | unexpectedEnd expected => "unexpected end of input, expected " ++ expected.toText
  | division p => "division is not supported (position " ++ toString p ++ ")"
  | tooDeep limit p =>
      "expression nested deeper than " ++ toString limit ++ " levels at position " ++ toString p
  | empty => "empty expression"

end PolyCalc
