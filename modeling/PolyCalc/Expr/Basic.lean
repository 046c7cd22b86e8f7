import PolyCalc.Number

/-!
# Expressions

Expression trees over numbers, variables and four operators, and the same trees as postfix
programs: operands before their operator. There is no division.
-/

namespace PolyCalc

/-- The binary operators. -/
inductive Operator where
  | add
  | sub
  | mul
  | pow
  deriving DecidableEq, Inhabited

namespace Operator

def symbol : Operator → Char
  | add => '+'
  | sub => '-'
  | mul => '*'
  | pow => '^'

def ofSymbol? : Char → Option Operator
  | '+' => some add
  | '-' => some sub
  | '*' => some mul
  | '^' => some pow
  | _ => none

def toText (op : Operator) : String := op.symbol.toString

end Operator

/-- An expression tree. -/
inductive Expr where
  | num (value : Number)
  | var (name : String)
  | binary (op : Operator) (left right : Expr)
  deriving DecidableEq, Inhabited

/-- One step of a postfix program. -/
inductive Instruction where
  | num (value : Number)
  | var (name : String)
  | apply (op : Operator)
  deriving DecidableEq, Inhabited

namespace Expr

/-- The program of a tree in front of another program. -/
def postfixOnto : Expr → List Instruction → List Instruction
  | num n, rest => .num n :: rest
  | var x, rest => .var x :: rest
  | binary op left right, rest => left.postfixOnto (right.postfixOnto (.apply op :: rest))

/-- The tree in postfix order. -/
def toPostfix (e : Expr) : List Instruction := e.postfixOnto []

/-- The tree as text with parentheses about every operation. -/
def toText : Expr → String
  | num n => n.toText
  | var x => x
  | binary op left right => "(" ++ left.toText ++ op.toText ++ right.toText ++ ")"

/-- The negation of an expression. A literal takes the sign itself; anything else is multiplied
by minus one. -/
def negated : Expr → Expr
  | num n => num (-n)
  | e => binary .mul (num (.int (-1))) e

end Expr

end PolyCalc
