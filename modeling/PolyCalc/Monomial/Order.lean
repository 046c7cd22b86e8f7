import PolyCalc.Monomial.Basic

/-!
# The order of monomials

Terms are written in the order of their monomials: constants come last, other monomials are
compared by their lists of names and, where these agree, by their exponents. So a monomial whose
names begin the names of another one comes first, and of two powers of one variable the lower.

`order` walks the factors. The laws at the end say that it is a total order, by comparing it with
the lexicographic orders of the two lists.
-/

namespace PolyCalc.Monomial

/-- The lists of names in lexicographic order; a list comes before the ones it begins. -/
def compareNames : List (String × Nat) → List (String × Nat) → Ordering
  | [], [] => .eq
  | [], _ :: _ => .lt
  | _ :: _, [] => .gt
  | (m, _) :: as, (n, _) :: bs => (compare m n).then (compareNames as bs)

/-- The lists of exponents in lexicographic order. -/
def compareExponents : List (String × Nat) → List (String × Nat) → Ordering
  | [], [] => .eq
  | [], _ :: _ => .lt
  | _ :: _, [] => .gt
  | (_, d) :: as, (_, e) :: bs => (compare d e).then (compareExponents as bs)

/-- The order in which terms are written. -/
def order (a b : Monomial) : Ordering :=
  match a.isConstant, b.isConstant with
  | true, true => .eq
  | true, false => .gt
  | false, true => .lt
  | false, false =>
      (compareNames a.factors b.factors).then (compareExponents a.factors b.factors)

instance : Ord Monomial := ⟨order⟩

/-! ## Laws -/

def names (m : Monomial) : List String := m.factors.map Prod.fst

def exponents (m : Monomial) : List Nat := m.factors.map Prod.snd

theorem compareNames_eq_compareLex (as bs : List (String × Nat)) :
    compareNames as bs = List.compareLex compare (as.map Prod.fst) (bs.map Prod.fst) := by
  induction as generalizing bs with
  | nil => cases bs <;> rfl
  | cons a as ih =>
      cases bs with
      | nil => rfl
      | cons b bs => simp only [compareNames, List.map_cons, List.compareLex_cons_cons, ih]

theorem compareExponents_eq_compareLex (as bs : List (String × Nat)) :
    compareExponents as bs = List.compareLex compare (as.map Prod.snd) (bs.map Prod.snd) := by
  induction as generalizing bs with
  | nil => cases bs <;> rfl
  | cons a as ih =>
      cases bs with
      | nil => rfl
      | cons b bs => simp only [compareExponents, List.map_cons, List.compareLex_cons_cons, ih]

/-- The order is lexicographic in three keys: constancy, names, exponents. -/
theorem order_eq_compareLex :
    order = compareLex (compareOn isConstant)
      (compareLex (compareOn names) (compareOn exponents)) := by
  funext a b
  obtain ⟨as⟩ := a
  obtain ⟨bs⟩ := b
  cases as <;> cases bs
  · rfl
  · rfl
  · rfl
  · simp only [order, isConstant, List.isEmpty_cons, compareNames_eq_compareLex,
      compareExponents_eq_compareLex]
    rfl

instance : Std.TransCmp order := by
  rw [order_eq_compareLex]
  infer_instance

instance : Std.TransOrd Monomial := inferInstanceAs (Std.TransCmp order)

/-- A monomial is determined by its names and its exponents. -/
theorem ext_names_exponents {a b : Monomial} (hn : a.names = b.names)
    (he : a.exponents = b.exponents) : a = b := by
  obtain ⟨as⟩ := a
  obtain ⟨bs⟩ := b
  have h : as.unzip = bs.unzip := by
    simp only [List.unzip_eq_map]
    exact Prod.ext hn he
  rw [← List.zip_unzip as, ← List.zip_unzip bs, h]

instance : Std.LawfulEqCmp order where
  eq_of_compare {a b} h := by
    rw [order_eq_compareLex] at h
    simp only [compareLex_eq_eq, compareOn] at h
    exact ext_names_exponents (Std.LawfulEqOrd.eq_of_compare h.2.1)
      (Std.LawfulEqOrd.eq_of_compare h.2.2)

instance : Std.LawfulEqOrd Monomial := inferInstanceAs (Std.LawfulEqCmp order)

end PolyCalc.Monomial
