import PolyCalc.Evaluation
import PolyCalc.Proofs.Outcomes

/-!
# Evaluation by recursion

A tree is evaluated by running its postfix program on a stack. Here the same is said by recursion
on the tree: `Expr.value` takes the left operand, then the right one, then the operator, and stops
at the first refusal.

The two agree because the program of a tree has the same effect in front of every program and on
every stack (`run_postfixOnto`): it pushes the value of the tree and goes on, or it is refused.
-/

namespace PolyCalc

namespace Expr

/-- The value of a tree: operands first, from left to right. -/
def value : Expr → Except Refusal Value
  | num n => .ok (.constant n)
  | var x => .ok (.var x)
  | binary op left right => do
      let v ← left.value
      let w ← right.value
      op.apply v w

def size : Expr → Nat
  | num _ => 1
  | var _ => 1
  | binary _ left right => left.size + right.size + 1

theorem value_binary_eq_ok {op : Operator} {left right : Expr} {u : Value} :
    (binary op left right).value = .ok u ↔
      ∃ v w, left.value = .ok v ∧ right.value = .ok w ∧ op.apply v w = .ok u := by
  simp only [value, bind_eq_ok]
  constructor
  · rintro ⟨v, hv, w, hw, h⟩
    exact ⟨v, w, hv, hw, h⟩
  · rintro ⟨v, w, hv, hw, h⟩
    exact ⟨v, hv, w, hw, h⟩

end Expr

namespace Instruction

theorem run_postfixOnto : ∀ (e : Expr) (stack : List Value) (step : Nat)
    (rest : List Instruction), run stack step (e.postfixOnto rest) =
      match e.value with
      | .ok v => run (v :: stack) (step + e.size) rest
      | .error r => .error (.refused r)
  | .num _, _, _, _ => rfl
  | .var _, _, _, _ => rfl
  | .binary op left right, stack, step, rest => by
      rw [Expr.postfixOnto, run_postfixOnto left, Expr.value]
      cases left.value with
      | error r => rfl
      | ok v =>
          show run (v :: stack) (step + left.size) _ = _
          rw [run_postfixOnto right]
          cases right.value with
          | error r => rfl
          | ok w =>
              show (do run (← (apply op).step (w :: v :: stack) _) _ rest) = _
              simp only [Instruction.step]
              show _ = match op.apply v w with
                | .ok u => run (u :: stack) (step + (left.size + right.size + 1)) rest
                | .error r => .error (.refused r)
              rw [← Nat.add_assoc, ← Nat.add_assoc]
              cases op.apply v w <;> rfl

end Instruction

namespace Expr

theorem evaluate_eq_value (e : Expr) : e.evaluate = e.value.mapError .refused := by
  rw [evaluate, Instruction.evaluate, toPostfix, Instruction.run_postfixOnto]
  cases e.value <;> rfl

theorem evaluate_eq_ok {e : Expr} {v : Value} : e.evaluate = .ok v ↔ e.value = .ok v := by
  rw [evaluate_eq_value]
  cases e.value <;> simp [Except.mapError]

end Expr

theorem calculate_eq_ok {text : String} {v : Value} :
    calculate text = .ok v ↔ ∃ e, Expr.ofText text = .ok e ∧ e.value = .ok v := by
  unfold calculate
  cases Expr.ofText text with
  | error cause => simp
  | ok e => simp [Expr.evaluate_eq_ok]

end PolyCalc
