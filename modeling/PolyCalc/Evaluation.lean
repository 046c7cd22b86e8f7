import PolyCalc.Power
import PolyCalc.Expr.OfTokens
import PolyCalc.Error

/-!
# Evaluation

A postfix program is run on a stack of values: a leaf pushes its value, an operator takes the
right and the left operand from the stack and pushes the result. A tree is evaluated by running
its postfix program.
-/

namespace PolyCalc

/-- Applies an operator to two values. -/
def Operator.apply : Operator → Value → Value → Except Refusal Value
  | add, v, w => .ok (v.add w)
  | sub, v, w => .ok (v.sub w)
  | mul, v, w => v.mul w
  | pow, v, w => v.pow w

namespace Instruction

/-- One step on a stack, whose top is the head of the list. -/
def step (stack : List Value) (index : Nat) : Instruction → Except Error (List Value)
  | num n => .ok (.constant n :: stack)
  | var x => .ok (.var x :: stack)
  | apply op =>
      match stack with
      | right :: left :: below =>
          match op.apply left right with
          | .ok v => .ok (v :: below)
          | .error r => .error (.refused r)
      | _ => .error (.malformed (.missingOperand op index))

/-- Runs a program from a step on. -/
def run (stack : List Value) (index : Nat) : List Instruction → Except Error (List Value)
  | [] => .ok stack
  | i :: rest => do run (← i.step stack index) (index + 1) rest

/-- The value of a program, which has to leave exactly one. -/
def evaluate (program : List Instruction) : Except Error Value := do
  match ← run [] 0 program with
  | [] => .error (.malformed .nothing)
  | [v] => .ok v
  | stack => .error (.malformed (.leftOver stack.length))

end Instruction

namespace Expr

/-- The value of a tree. -/
def evaluate (e : Expr) : Except Error Value := Instruction.evaluate e.toPostfix

end Expr

/-- The value of an expression given as text. -/
def calculate (text : String) : Except Error Value :=
  match Expr.ofText text with
  | .ok e => e.evaluate
  | .error cause => .error (.unreadable cause)

/-- The answer to an expression: the text of its value, or the message of what went wrong. -/
def answer (expression : String) : Except String String :=
  match calculate expression with
  | .ok value => .ok value.toText
  | .error e => .error e.message

end PolyCalc
