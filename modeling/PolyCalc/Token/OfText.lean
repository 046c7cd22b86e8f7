import PolyCalc.Token.Basic
import PolyCalc.Text.Blank
import PolyCalc.Text.DecimalDigit

/-!
# Reading tokens

A text is cut into lexemes and blanks. At every place that is no blank the longest number is
taken, else the longest name, else a single symbol.

A number is a run of digits with at most one point, which may also stand first if a digit
follows it. With a point it is a double, without one an integer. There is no exponent notation:
`2e1` is the number `2` and the name `e1`.
-/

namespace PolyCalc.Token

open Text

/-! ## Lexemes -/

/-- The number at the front of a text, empty if there is none. -/
def numberLexeme (cs : List Char) : List Char :=
  match cs.takeWhile isDecimalDigit with
  | d :: ds =>
      match cs.drop (ds.length + 1) with
      | '.' :: rest => d :: ds ++ '.' :: rest.takeWhile isDecimalDigit
      | _ => d :: ds
  | [] =>
      match cs with
      | '.' :: rest =>
          match rest.takeWhile isDecimalDigit with
          | [] => []
          | ds => '.' :: ds
      | _ => []

/-- Names begin with a letter of ASCII or an underscore. -/
def startsName (c : Char) : Bool := c.isAlpha || c == '_'

/-- Names go on with letters and digits of ASCII and underscores. -/
def continuesName (c : Char) : Bool := c.isAlphanum || c == '_'

/-- The name at the front of a text, empty if there is none. -/
def nameLexeme : List Char → List Char
  | [] => []
  | c :: cs => if startsName c then c :: cs.takeWhile continuesName else []

/-- The token of a symbol of its own. -/
def ofSymbol? (c : Char) : Option Token :=
  if c = '/' then some .slash
  else if c = '(' then some .openParen
  else if c = ')' then some .closeParen
  else (Operator.ofSymbol? c).map .operator

/-! ## Literals -/

/-- The number that digits of ASCII stand for. -/
def natOfDigits (ds : List Char) : Nat :=
  ds.foldl (fun n d => 10 * n + (d.toNat - '0'.toNat)) 0

/-- The value of a literal. It is refused if it holds a digit beyond ASCII or if it is a double
too large to be finite. -/
def literalValue? (literal : List Char) : Option Number :=
  if literal.all fun c => c.isDigit || c == '.' then
    if literal.contains '.' then
      let fraction := (literal.dropWhile (· != '.')).drop 1
      let digits := literal.takeWhile (· != '.') ++ fraction
      let x := Binary64.ofDecimal (natOfDigits digits) fraction.length
      if x.isFinite then some (.float x) else none
    else
      some (.int (natOfDigits literal))
  else
    none

/-! ## Cutting a text -/

/-- Reads the tokens of a text from a position on. The first `skip` characters belong to a lexeme
that has been read already and are passed over. -/
def readFrom : (skip position : Nat) → List Char → Except ReadError (List PlacedToken)
  | _, _, [] => .ok []
  | skip + 1, position, c :: cs => readFrom skip (position + c.utf8Size) cs
  | 0, position, c :: cs =>
      if isBlank c then
        readFrom 0 (position + c.utf8Size) cs
      else match numberLexeme (c :: cs) with
        | l :: ls =>
            match literalValue? (l :: ls) with
            | none => .error (.invalidNumber (String.ofList (l :: ls)) position)
            | some n => do
                return ⟨position, .number n⟩ ::
                  (← readFrom ls.length (position + c.utf8Size) cs)
        | [] =>
            match nameLexeme (c :: cs) with
            | l :: ls => do
                return ⟨position, .name (String.ofList (l :: ls))⟩ ::
                  (← readFrom ls.length (position + c.utf8Size) cs)
            | [] =>
                match ofSymbol? c with
                | none => .error (.invalidCharacter c position)
                | some t => do
                    return ⟨position, t⟩ :: (← readFrom 0 (position + c.utf8Size) cs)

/-- The tokens of a text with their positions. -/
def ofText (text : String) : Except ReadError (List PlacedToken) :=
  readFrom 0 0 text.toList

end PolyCalc.Token
