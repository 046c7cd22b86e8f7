import PolyCalc.Proofs.IntegerRounding
import PolyCalc.Proofs.TermOrder

/-!
# The order of numbers

Two integers are compared exactly, and two doubles by their place in the total order. An integer and
a double are compared after the integer was rounded. Since it is rounded to a double next to it, the
answer can never be the wrong way round. It can only be lost: an integer that no double holds comes
out equal to the one double that it is rounded to (`Number.Collides`). Whatever does not collide is
ordered by its exact value, with the negative zero in front of the other zeros
(`Number.order_eq_exactOrder`).

Equality is exact, so numbers that collide are not equal. And they break the order: an integer equal
to that double stands strictly apart from the one that collides with it
(`Number.order_not_transitive`). Where no two numbers collide, as among integers and among numbers up
to `2 ^ 53`, the order is a total preorder, and so is that of terms.
-/

namespace PolyCalc

namespace Number

/-- The exact value of a finite number. -/
def value : Number → ℚ
  | .int i => i
  | .float x => Binary64.value x

def negativeZero : Number := .float (-0.0)

/-- By value, and the negative zero in front of what has its value. -/
def exactOrder (a b : Number) : Ordering :=
  (compare a.value b.value).then (compare (decide (a ≠ negativeZero)) (decide (b ≠ negativeZero)))

instance transCmp_exactOrder : Std.TransCmp exactOrder :=
  inferInstanceAs (Std.TransCmp
    (compareLex (compareOn value) (compareOn fun a => decide (a ≠ negativeZero))))

section Exact

variable {a b : Number}

theorem exactOrder_of_lt (h : a.value < b.value) : a.exactOrder b = .lt := by
  rw [exactOrder, compare_lt_iff_lt.mpr h, Ordering.lt_then]

theorem exactOrder_of_gt (h : b.value < a.value) : a.exactOrder b = .gt := by
  rw [exactOrder, compare_gt_iff_gt.mpr h, Ordering.gt_then]

theorem exactOrder_of_eq (h : a.value = b.value) : a.exactOrder b =
    compare (decide (a ≠ negativeZero)) (decide (b ≠ negativeZero)) := by
  rw [exactOrder, compare_eq_iff_eq.mpr h, Ordering.eq_then]

theorem value_eq_of_exactOrder (h : a.exactOrder b = .eq) : a.value = b.value :=
  compare_eq_iff_eq.mp (Ordering.then_eq_eq.mp h).1

end Exact

/-- One of the numbers is an integer, the other one is the double that it is rounded to, and their
values differ. -/
def Collides : Number → Number → Prop
  | .int i, .float x => x = Binary64.ofInt i ∧ Binary64.value x ≠ i
  | .float x, .int i => x = Binary64.ofInt i ∧ Binary64.value x ≠ i
  | _, _ => False

theorem collides_comm {a b : Number} : a.Collides b ↔ b.Collides a := by
  cases a <;> cases b <;> exact Iff.rfl

theorem order_swap (a b : Number) : a.order b = (b.order a).swap := by
  cases a <;> cases b <;> exact Std.OrientedOrd.eq_swap

/-! ## Equality -/

/-- Equality is exact. -/
theorem beq_iff_value_eq {a b : Number} (ha : a.isFinite = true) (hb : b.isFinite = true) :
    (a == b) = true ↔ a.value = b.value := by
  cases a with
  | int i =>
      cases b with
      | int j =>
          show (i == j) = true ↔ (i : ℚ) = j
          rw [beq_iff_eq, Int.cast_inj]
      | float x =>
          show (Binary64.toInt? x == some i) = true ↔ (i : ℚ) = Binary64.value x
          rw [beq_iff_eq, Binary64.toInt?_eq_some_iff hb, eq_comm]
  | float x =>
      cases b with
      | int j =>
          show (Binary64.toInt? x == some j) = true ↔ Binary64.value x = j
          rw [beq_iff_eq, Binary64.toInt?_eq_some_iff ha]
      | float y => exact Binary64.beq_iff_value_eq ha hb

/-! ## The order -/

theorem int_order_int (i j : Int) : (int i).order (int j) = (int i).exactOrder (int j) := by
  show compare i j = _
  rcases lt_trichotomy i j with hlt | rfl | hgt
  · have hvalue : (int i).value < (int j).value := Int.cast_lt.mpr hlt
    rw [compare_lt_iff_lt.mpr hlt, exactOrder_of_lt hvalue]
  · rw [compare_eq_iff_eq.mpr rfl]
    exact Std.ReflCmp.compare_self.symm
  · have hvalue : (int j).value < (int i).value := Int.cast_lt.mpr hgt
    rw [compare_gt_iff_gt.mpr hgt, exactOrder_of_gt hvalue]

theorem float_order_float {x y : Float} (hx : x.isFinite = true) (hy : y.isFinite = true) :
    (float x).order (float y) = (float x).exactOrder (float y) := by
  simp only [exactOrder, negativeZero, ne_eq, float.injEq]
  exact Binary64.order_eq_exact hx hy

theorem int_order_float {i : Int} {x : Float} (hx : x.isFinite = true)
    (h : ¬ (int i).Collides (float x)) : (int i).order (float x) = (int i).exactOrder (float x) := by
  obtain ⟨hbelow, habove, hat⟩ := Binary64.ofInt_faithful hx i
  have hne : Binary64.value x ≠ i → Binary64.rank x ≠ Binary64.rank (Binary64.ofInt i) :=
    fun hvalue hrank => h ⟨Binary64.rank_inj hrank, hvalue⟩
  show compare (Binary64.rank (Binary64.ofInt i)) (Binary64.rank x) = _
  rcases lt_trichotomy (float x).value (int i).value with hlt | heq | hgt
  · rw [exactOrder_of_gt hlt, compare_gt_iff_gt]
    exact (hbelow hlt).lt_of_ne (hne hlt.ne)
  · by_cases hzero : x = -0.0
    · subst hzero
      obtain rfl : i = 0 := Int.cast_eq_zero.mp heq.symm
      rw [exactOrder_of_eq heq.symm]
      decide
    · obtain rfl := (hat heq).resolve_right hzero
      rw [exactOrder_of_eq heq.symm, compare_eq_iff_eq.mpr rfl]
      simp [negativeZero, hzero]
  · rw [exactOrder_of_lt hgt, compare_lt_iff_lt]
    exact (habove hgt).lt_of_ne (hne hgt.ne').symm

/-- Numbers that do not collide are ordered by their values. -/
theorem order_eq_exactOrder {a b : Number} (ha : a.isFinite = true) (hb : b.isFinite = true)
    (h : ¬ a.Collides b) : a.order b = a.exactOrder b := by
  cases a with
  | int i =>
      cases b with
      | int j => exact int_order_int i j
      | float y => exact int_order_float hb h
  | float x =>
      cases b with
      | int j =>
          have hswapped : ¬ (int j).Collides (float x) := fun hc => h (collides_comm.mp hc)
          rw [order_swap, int_order_float ha hswapped, ← Std.OrientedCmp.eq_swap]
      | float y => exact float_order_float ha hb

/-! ## Collisions -/

theorem Collides.order {a b : Number} (h : a.Collides b) : a.order b = .eq := by
  cases a <;> cases b
  · exact h.elim
  · obtain ⟨rfl, -⟩ := h
    exact compare_eq_iff_eq.mpr rfl
  · obtain ⟨rfl, -⟩ := h
    exact compare_eq_iff_eq.mpr rfl
  · exact h.elim

theorem Collides.value_ne {a b : Number} (h : a.Collides b) : a.value ≠ b.value := by
  cases a <;> cases b
  · exact h.elim
  · exact h.2.symm
  · exact h.2
  · exact h.elim

/-- An integer that is rounded to a double of another value is beyond `2 ^ 53` and no double. -/
theorem not_value_of_ofInt {i : Int} (h : Binary64.value (Binary64.ofInt i) ≠ i) :
    2 ^ 53 < i.natAbs ∧ ∀ x : Float, x.isFinite = true → Binary64.value x ≠ i := by
  have hlarge : 2 ^ 53 < i.natAbs := by
    by_contra hle
    exact h (Binary64.value_ofInt_of_natAbs_le (Nat.le_of_not_lt hle)).2
  refine ⟨hlarge, fun x hx hvalue => ?_⟩
  rcases (Binary64.ofInt_faithful hx i).2.2 hvalue with rfl | rfl
  · exact h hvalue
  · rw [Binary64.value_negative_zero] at hvalue
    obtain rfl : i = 0 := Int.cast_eq_zero.mp hvalue.symm
    exact absurd hlarge (by decide)

section Classes

variable {P : Number → Prop}

theorem order_eq_imp_beq_iff (hP : ∀ n, P n → n.isFinite = true) :
    (∀ a b, P a → P b → a.order b = .eq → (a == b) = true) ↔
      ∀ a b, P a → P b → ¬ a.Collides b := by
  constructor
  · intro h a b ha hb hcollides
    have hbeq := h a b ha hb hcollides.order
    exact hcollides.value_ne ((beq_iff_value_eq (hP a ha) (hP b hb)).mp hbeq)
  · intro h a b ha hb horder
    rw [order_eq_exactOrder (hP a ha) (hP b hb) (h a b ha hb)] at horder
    exact (beq_iff_value_eq (hP a ha) (hP b hb)).mpr (value_eq_of_exactOrder horder)

/-- Where no two numbers collide, they are in order. -/
theorem transCmp_order (hP : ∀ n, P n → n.isFinite = true)
    (h : ∀ a b, P a → P b → ¬ a.Collides b) :
    Std.TransCmp fun a b : {n : Number // P n} => a.1.order b.1 := by
  have horder : (fun a b : {n : Number // P n} => a.1.order b.1) =
      fun a b => a.1.exactOrder b.1 := by
    funext a b
    exact order_eq_exactOrder (hP _ a.2) (hP _ b.2) (h _ _ a.2 b.2)
  rw [horder]
  exact
    { eq_swap := transCmp_exactOrder.eq_swap
      isLE_trans := transCmp_exactOrder.isLE_trans }

/-- **The order of numbers.** Two finite numbers that do not collide are ordered by value, with the
negative zero in front of the other zeros, and two that do come out equal. Collisions are all that
keeps the order from agreeing with the equality, which compares values. They need an integer beyond
`2 ^ 53` that is no double. Numbers without collisions are in a total preorder, and so are the terms
with such numbers for constants. -/
theorem order_by_value (hP : ∀ n, P n → n.isFinite = true) :
    (∀ a b, P a → P b → ((a == b) = true ↔ a.value = b.value) ∧
      (a.Collides b ∧ a.order b = .eq ∨ ¬ a.Collides b ∧ a.order b = a.exactOrder b)) ∧
    ((∀ a b, P a → P b → a.order b = .eq → (a == b) = true) ↔
      ∀ a b, P a → P b → ¬ a.Collides b) ∧
    (∀ i x, (int i).Collides (float x) → 2 ^ 53 < i.natAbs ∧
      ∀ y : Float, y.isFinite = true → Binary64.value y ≠ i) ∧
    ((∀ a b, P a → P b → ¬ a.Collides b) →
      (Std.TransCmp fun a b : {n : Number // P n} => a.1.order b.1) ∧
      Std.TransCmp fun s t : Term.WithConstants P => s.1.order t.1) := by
  refine ⟨fun a b ha hb => ⟨beq_iff_value_eq (hP a ha) (hP b hb), ?_⟩, order_eq_imp_beq_iff hP,
    ?_, fun h => ?_⟩
  · by_cases hcollides : a.Collides b
    · exact Or.inl ⟨hcollides, hcollides.order⟩
    · exact Or.inr ⟨hcollides, order_eq_exactOrder (hP a ha) (hP b hb) hcollides⟩
  · rintro i x ⟨rfl, hvalue⟩
    exact not_value_of_ofInt hvalue
  · have hnumbers := transCmp_order hP h
    exact ⟨hnumbers, Term.transCmp_order⟩

/-- All finite doubles, and the integers up to `2 ^ 53`. -/
theorem order_by_value_of_small :
    let P : Number → Prop := fun n => n.isFinite = true ∧ ∀ i, n = .int i → i.natAbs ≤ 2 ^ 53
    P (.int (2 ^ 53)) ∧ P (.float 0.5) ∧
      (∀ a b, P a → P b → a.order b = .eq → (a == b) = true) ∧
      (Std.TransCmp fun a b : {n : Number // P n} => a.1.order b.1) ∧
      Std.TransCmp fun s t : Term.WithConstants P => s.1.order t.1 := by
  intro P
  obtain ⟨-, hbeq, hlarge, hclass⟩ := order_by_value (P := P) fun n hn => hn.1
  have hnone : ∀ a b, P a → P b → ¬ a.Collides b := by
    intro a b ha hb hcollides
    cases a with
    | int i =>
        cases b with
        | int j => exact hcollides
        | float x => exact absurd (hlarge i x hcollides).1 (ha.2 i rfl).not_gt
    | float x =>
        cases b with
        | int i => exact absurd (hlarge i x hcollides).1 (hb.2 i rfl).not_gt
        | float y => exact hcollides
  refine ⟨⟨rfl, ?_⟩, ⟨rfl, nofun⟩, hbeq.mpr hnone, hclass hnone⟩
  rintro i ⟨⟩
  decide

end Classes

/-- The integer after `2 ^ 53` collides with the double `2 ^ 53`. It comes out equal to that double,
the double equal to the integer `2 ^ 53`, and the two integers apart. -/
theorem order_not_transitive :
    let a : Number := .int (2 ^ 53 + 1)
    let b : Number := .float 9007199254740992.0
    let c : Number := .int (2 ^ 53)
    b.value < a.value ∧ a.order b = .eq ∧ (a == b) = false ∧ b.order c = .eq ∧ a.order c = .gt ∧
      (Term.constant a).order (Term.constant b) = .eq ∧
      (Term.constant b).order (Term.constant c) = .eq ∧
      (Term.constant a).order (Term.constant c) = .gt := by
  intro a b c
  have hvalue : b.value = c.value :=
    (Binary64.toInt?_eq_some_iff rfl).mp (by rfl : Binary64.toInt? 9007199254740992.0 = _)
  refine ⟨?_, by rfl, by rfl, by decide, by decide, by rfl, by decide, by decide⟩
  rw [hvalue]
  exact Int.cast_lt.mpr (by decide)

end Number

end PolyCalc
