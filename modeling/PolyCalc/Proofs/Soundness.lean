import PolyCalc.Proofs.Arithmetic

/-!
# Evaluation is sound

A tree over the integers can be evaluated directly at a valuation, with the operations of the
integers in place of those on values. If the tree has a value at all, the value takes the same
number at every valuation.

Powers are the one operation that the direct evaluation cannot always follow, for an exponent
could be negative or depend on the valuation. A tree that has a value has no such exponent
(`HasFixedExponents`).
-/

namespace PolyCalc

namespace Expr

/-- The number that a tree over the integers takes at a valuation. -/
def eval (ρ : String → Int) : Expr → Int
  | num n => n.integer
  | var x => ρ x
  | binary .add left right => left.eval ρ + right.eval ρ
  | binary .sub left right => left.eval ρ - right.eval ρ
  | binary .mul left right => left.eval ρ * right.eval ρ
  | binary .pow left right => left.eval ρ ^ (right.eval ρ).toNat

/-- Every exponent in the tree takes one natural number at all valuations. -/
def HasFixedExponents : Expr → Prop
  | num _ => True
  | var _ => True
  | binary op left right => left.HasFixedExponents ∧ right.HasFixedExponents ∧
      (op = .pow → ∃ n : ℕ, ∀ ρ, right.eval ρ = n)

theorem value_sound : ∀ {e : Expr} {v : Value}, e.IsIntegral → e.value = .ok v →
    e.HasFixedExponents ∧ ∀ ρ, MvPolynomial.eval ρ v.denote = e.eval ρ
  | num n, v, he, h => by
      obtain rfl := Except.ok.inj h
      refine ⟨trivial, fun ρ => ?_⟩
      rw [Value.constant, Value.denote_term, Term.denote_constant, MvPolynomial.eval_C, eval]
  | var x, v, _, h => by
      obtain rfl := Except.ok.inj h
      refine ⟨trivial, fun ρ => ?_⟩
      rw [Value.eval_denote]
      simp [Value.eval, Value.var, Value.terms, Term.eval, Term.var, Monomial.eval, Monomial.var,
        Number.one, eval]
  | binary op left right, u, he, h => by
      obtain ⟨v, w, hv, hw, h⟩ := value_binary_eq_ok.mp h
      obtain ⟨hleft, hv'⟩ := value_sound he.1 hv
      obtain ⟨hright, hw'⟩ := value_sound he.2 hw
      have hvi := he.1.value hv
      have hwi := he.2.value hw
      cases op with
      | add =>
          obtain rfl := Except.ok.inj h
          refine ⟨⟨hleft, hright, fun hop => by cases hop⟩, fun ρ => ?_⟩
          rw [Value.denote_add hvi hwi, map_add, hv', hw', eval]
      | sub =>
          obtain rfl := Except.ok.inj h
          refine ⟨⟨hleft, hright, fun hop => by cases hop⟩, fun ρ => ?_⟩
          rw [Value.denote_sub hvi hwi, map_sub, hv', hw', eval]
      | mul =>
          refine ⟨⟨hleft, hright, fun hop => by cases hop⟩, fun ρ => ?_⟩
          rw [Value.denote_mul hvi hwi h, map_mul, hv', hw', eval]
      | pow =>
          obtain ⟨n, hn, hpow⟩ := Value.denote_pow hvi hwi h
          have hexponent : ∀ ρ, right.eval ρ = n := by
            intro ρ
            rw [← hw', hn, MvPolynomial.eval_C]
          refine ⟨⟨hleft, hright, fun _ => ⟨n, hexponent⟩⟩, fun ρ => ?_⟩
          rw [hpow, map_pow, hv', eval, hexponent, Int.toNat_natCast]

/-- **Soundness of evaluation.** The value of a tree over the integers is a sum of terms with
integer coefficients that takes, at every valuation, the number that the tree takes. -/
theorem evaluate_sound {e : Expr} {v : Value} (he : e.IsIntegral) (h : e.evaluate = .ok v) :
    v.IsIntegral ∧ e.HasFixedExponents ∧ ∀ ρ, v.eval ρ = e.eval ρ := by
  have hvalue := evaluate_eq_ok.mp h
  obtain ⟨hexponents, heval⟩ := value_sound he hvalue
  refine ⟨he.value hvalue, hexponents, fun ρ => ?_⟩
  rw [← Value.eval_denote, heval]

/-- `(x + y)^2 - (x - y)^2` is `4x*y`: four terms cancel, and the value is a polynomial of one
term. -/
theorem evaluate_sound_of_cancelling :
    let sum := binary .add (var "x") (var "y")
    let difference := binary .sub (var "x") (var "y")
    let two := num (.int 2)
    let e := binary .sub (binary .pow sum two) (binary .pow difference two)
    let v := Value.poly ⟨[⟨.int 4, ⟨[("x", 1), ("y", 1)]⟩⟩]⟩
    e.IsIntegral ∧ e.evaluate = .ok v ∧
      v.IsIntegral ∧ e.HasFixedExponents ∧ ∀ ρ, v.eval ρ = e.eval ρ := by
  intro sum difference two e v
  have he : e.IsIntegral := ⟨⟨⟨trivial, trivial⟩, 2, rfl⟩, ⟨trivial, trivial⟩, 2, rfl⟩
  have hv : e.evaluate = .ok v := by rfl
  exact ⟨he, hv, evaluate_sound he hv⟩

end Expr

end PolyCalc
