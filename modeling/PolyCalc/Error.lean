import PolyCalc.Refusal
import PolyCalc.Token.Basic

/-!
# Errors

Everything that can go wrong between a text and its value, by cause.
-/

namespace PolyCalc

/-- Why a list of instructions is no postfix program of one value. -/
inductive Malformation where
  /-- An operator found less than two operands. -/
  | missingOperand (op : Operator) (step : Nat)
  | nothing
  /-- More than one value is left at the end. -/
  | leftOver (count : Nat)
  deriving DecidableEq

def Malformation.message : Malformation → String
  | missingOperand op step =>
      "operator " ++ Text.singleQuote.toString ++ op.toText ++ Text.singleQuote.toString ++
        " at step " ++ toString step ++ " is missing an operand"
  | nothing => "nothing to evaluate"
  | leftOver count => toString count ++ " values left after evaluation"

/-- Why there is no value. -/
inductive Error where
  /-- A numeric leaf has to be finite. -/
  | notFinite (value : Number)
  /-- A variable has to be a name. -/
  | notAName (text : String)
  /-- The text is no expression. -/
  | unreadable (cause : ReadError)
  /-- A product or a power is not computed. -/
  | refused (cause : Refusal)
  /-- The instructions are no program. -/
  | malformed (cause : Malformation)
  deriving DecidableEq

def Error.message : Error → String
  | notFinite n => "cannot build number leaf from " ++ Text.quote n.toText
  | notAName text => "cannot build variable leaf from " ++ Text.quote text
  | unreadable e => e.message
  | refused r => "unsupported operation: " ++ r.message
  | malformed m => "malformed expression: " ++ m.message

end PolyCalc
