import PolyCalc.Error
import PolyCalc.Token.OfText

/-!
# Leaves

A leaf that does not come from a text is checked when it is made: numbers have to be finite and
variables have to be names.
-/

namespace PolyCalc.Expr

/-- A numeric leaf, which has to be finite. -/
def ofNumber (n : Number) : Except Error Expr :=
  if n.isFinite then .ok (.num n) else .error (.notFinite n)

/-- Whether a text is a name: a letter of ASCII or an underscore, then such and digits. -/
def isName (text : String) : Bool :=
  match text.toList with
  | [] => false
  | c :: cs => Token.startsName c && cs.all Token.continuesName

/-- A variable, which has to be a name. -/
def ofName (text : String) : Except Error Expr :=
  if isName text then .ok (.var text) else .error (.notAName text)

end PolyCalc.Expr
