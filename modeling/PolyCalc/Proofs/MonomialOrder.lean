import PolyCalc.Proofs.Collecting

/-!
# Which monomial comes first

The order of monomials compares lists of names and then lists of exponents. Told by what the
monomials hold, one comes before another in one of four ways (`Monomial.Precedes`):

- the other one is constant, and it is not;
- its names begin those of the other one, which has more;
- neither list of names begins the other, and it holds the least variable that only one of them
  holds;
- both hold the same variables, and it has the lower exponent at the least variable at which the
  exponents differ.

That lists are sorted is what makes this the same. Two lists of which neither begins the other part
at some place, and what stands there is least among what only one of them holds
(`isLeast_symmDiff`).
-/

namespace PolyCalc

/-! ## Lists that part -/

section Lists

variable {α : Type} {xs ys zs : List α} {x y : α}

/-- Two lists of which neither begins the other have the same beginning up to the place where they
part. -/
theorem exists_parting : ∀ {xs ys : List α}, ¬ xs <+: ys → ¬ ys <+: xs →
    ∃ zs x y xs' ys', xs = zs ++ x :: xs' ∧ ys = zs ++ y :: ys' ∧ x ≠ y
  | [], ys, h, _ => absurd (List.nil_prefix) h
  | _ :: _, [], _, h => absurd (List.nil_prefix) h
  | x :: xs, y :: ys, h, h' => by
      by_cases hxy : x = y
      · subst hxy
        rw [List.cons_prefix_cons, not_and] at h h'
        obtain ⟨zs, a, b, xs', ys', rfl, rfl, hab⟩ := exists_parting (h rfl) (h' rfl)
        exact ⟨x :: zs, a, b, xs', ys', rfl, rfl, hab⟩
      · exact ⟨[], x, y, xs, ys, rfl, rfl, hxy⟩

theorem compareLex_append_left {cmp : α → α → Ordering} [Std.ReflCmp cmp] (zs xs ys : List α) :
    List.compareLex cmp (zs ++ xs) (zs ++ ys) = List.compareLex cmp xs ys := by
  induction zs with
  | nil => rfl
  | cons z zs ih =>
      have hself : cmp z z = .eq := Std.ReflCmp.compare_self
      rw [List.cons_append, List.cons_append, List.compareLex_cons_cons, hself, Ordering.eq_then,
        ih]

/-- What stands where the lists part decides. -/
theorem compareLex_of_parting {cmp : α → α → Ordering} [Std.ReflCmp cmp] (h : cmp x y ≠ .eq) :
    List.compareLex cmp (zs ++ x :: xs) (zs ++ y :: ys) = cmp x y := by
  rw [compareLex_append_left, List.compareLex_cons_cons]
  cases hcmp : cmp x y with
  | eq => exact absurd hcmp h
  | lt => rfl
  | gt => rfl

theorem compareLex_of_prefix {cmp : α → α → Ordering} [Std.ReflCmp cmp] (h : xs <+: ys)
    (hne : xs ≠ ys) : List.compareLex cmp xs ys = .lt := by
  obtain ⟨_ | ⟨y, zs⟩, rfl⟩ := h
  · exact absurd (List.append_nil xs).symm hne
  · have happend : List.compareLex cmp (xs ++ []) (xs ++ y :: zs) = .lt :=
      compareLex_append_left xs [] (y :: zs)
    rwa [List.append_nil] at happend

variable [LinearOrder α]

/-- Sorted lists that part agree on all that is less than what stands there. -/
theorem mem_append_cons_iff_of_lt {w : α} (hsorted : (zs ++ x :: xs).Pairwise (· < ·))
    (hw : w < x) : w ∈ zs ++ x :: xs ↔ w ∈ zs := by
  obtain ⟨-, hrest, -⟩ := List.pairwise_append.mp hsorted
  rw [List.mem_append, or_iff_left]
  rintro (_ | ⟨_, hmem⟩)
  · exact lt_irrefl _ hw
  · exact lt_asymm hw ((List.pairwise_cons.mp hrest).1 w hmem)

theorem isLeast_symmDiff (hxs : (zs ++ x :: xs).Pairwise (· < ·))
    (hys : (zs ++ y :: ys).Pairwise (· < ·)) (hxy : x < y) :
    IsLeast (symmDiff {w | w ∈ zs ++ x :: xs} {w | w ∈ zs ++ y :: ys}) x := by
  constructor
  · refine Or.inl ⟨List.mem_append_right zs (List.mem_cons_self ..), fun hmem => ?_⟩
    have hbefore := (mem_append_cons_iff_of_lt hys hxy).mp hmem
    exact lt_irrefl x ((List.pairwise_append.mp hxs).2.2 x hbefore x (List.mem_cons_self ..))
  · intro w hw
    by_contra hlt
    rw [not_le] at hlt
    have hiff : w ∈ zs ++ x :: xs ↔ w ∈ zs ++ y :: ys := by
      rw [mem_append_cons_iff_of_lt hxs hlt, mem_append_cons_iff_of_lt hys (hlt.trans hxy)]
    rcases hw with ⟨hmem, hnot⟩ | ⟨hmem, hnot⟩
    · exact hnot (hiff.mp hmem)
    · exact hnot (hiff.mpr hmem)

end Lists

namespace Monomial

variable {a b : Monomial} {x y : String} {fs gs hs : List (String × Nat)}

/-- The variables that occur. -/
def support (m : Monomial) : Set String := {x | x ∈ m.names}

/-- The one monomial comes before the other, told by what they hold. -/
inductive Precedes (a b : Monomial) : Prop
  | constant (ha : a.isConstant = false) (hb : b.isConstant = true)
  | begins (ha : a.isConstant = false) (hne : a.support ≠ b.support) (h : a.names <+: b.names)
  | name (hab : ¬ a.names <+: b.names) (hba : ¬ b.names <+: a.names) {x : String}
      (hx : IsLeast (symmDiff a.support b.support) x) (hmem : x ∈ a.support)
  | exponent (heq : a.support = b.support) {x : String}
      (hx : IsLeast {y | a.exponent y ≠ b.exponent y} x) (hlt : a.exponent x < b.exponent x)

/-! ## Comparing lists -/

theorem IsCanonical.pairwise_names (ha : a.IsCanonical) : a.names.Pairwise (· < ·) :=
  List.pairwise_map.mpr ha.1

theorem isConstant_eq_false_iff : a.isConstant = false ↔ a.names ≠ [] := by
  simp [isConstant, names]

theorem order_of_not_constant (ha : a.isConstant = false) (hb : b.isConstant = false) :
    order a b = (List.compareLex compare a.names b.names).then
      (List.compareLex compare a.exponents b.exponents) := by
  rw [order, ha, hb]
  simp only [compareNames_eq_compareLex, compareExponents_eq_compareLex]
  rfl

/-! ## Names -/

theorem order_eq_lt_of_begins (ha : a.isConstant = false) (hne : a.names ≠ b.names)
    (h : a.names <+: b.names) : order a b = .lt := by
  have hb : b.isConstant = false :=
    isConstant_eq_false_iff.mpr (h.ne_nil (isConstant_eq_false_iff.mp ha))
  rw [order_of_not_constant ha hb, compareLex_of_prefix h hne]
  rfl

/-- Where the names part, the lesser one is the least that only one monomial holds. -/
theorem isLeast_of_parting (ha : a.IsCanonical) (hb : b.IsCanonical) {zs xs ys : List String}
    (hxs : a.names = zs ++ x :: xs) (hys : b.names = zs ++ y :: ys) (hxy : x < y) :
    IsLeast (symmDiff a.support b.support) x ∧ x ∈ a.support ∧ order a b = .lt := by
  have hcompare : compare x y = .lt := compare_lt_iff_lt.mpr hxy
  refine ⟨?_, ?_, ?_⟩
  · have hsorted := ha.pairwise_names
    have hsorted' := hb.pairwise_names
    rw [support, support, hxs, hys]
    exact isLeast_symmDiff (hxs ▸ hsorted) (hys ▸ hsorted') hxy
  · rw [support, hxs]
    exact List.mem_append_right zs (List.mem_cons_self ..)
  · have ha' : a.isConstant = false := isConstant_eq_false_iff.mpr (by simp [hxs])
    have hb' : b.isConstant = false := isConstant_eq_false_iff.mpr (by simp [hys])
    rw [order_of_not_constant ha' hb', hxs, hys, compareLex_of_parting (by rw [hcompare]; nofun),
      hcompare]
    rfl

theorem exists_isLeast_symmDiff (ha : a.IsCanonical) (hb : b.IsCanonical)
    (hab : ¬ a.names <+: b.names) (hba : ¬ b.names <+: a.names) :
    (∃ x, IsLeast (symmDiff a.support b.support) x ∧ x ∈ a.support ∧ order a b = .lt) ∨
      ∃ x, IsLeast (symmDiff a.support b.support) x ∧ x ∈ b.support ∧ order b a = .lt := by
  obtain ⟨zs, x, y, xs, ys, hxs, hys, hne⟩ := exists_parting hab hba
  rcases lt_or_gt_of_ne hne with hlt | hlt
  · exact Or.inl ⟨x, isLeast_of_parting ha hb hxs hys hlt⟩
  · rw [symmDiff_comm]
    exact Or.inr ⟨y, isLeast_of_parting hb ha hys hxs hlt⟩

/-! ## Exponents -/

theorem names_eq_of_support_eq (ha : a.IsCanonical) (hb : b.IsCanonical)
    (h : a.support = b.support) : a.names = b.names := by
  have hirrefl : Std.Irrefl fun x y : String => x < y := ⟨lt_irrefl⟩
  have hantisymm : Std.Antisymm fun x y : String => x < y :=
    ⟨fun _ _ hlt hgt => absurd hgt hlt.asymm⟩
  exact ha.pairwise_names.eq_of_mem_iff hb.pairwise_names (Set.ext_iff.mp h)

theorem exponent_of_lt (ha : a.IsCanonical) {f : String × Nat} (hfs : a.factors = hs ++ f :: fs)
    (hy : y < f.1) : a.exponent y = toFinsupp ⟨hs⟩ y := by
  have hsorted := ha.1
  rw [hfs] at hsorted
  obtain ⟨-, hrest, -⟩ := List.pairwise_append.mp hsorted
  have hlater : ∀ g ∈ f :: fs, g.1 ≠ y := by
    refine List.forall_mem_cons.mpr ⟨hy.ne', fun g hg => ?_⟩
    exact (hy.trans ((List.pairwise_cons.mp hrest).1 g hg)).ne'
  have ha' : a = ⟨hs ++ f :: fs⟩ := congrArg Monomial.mk hfs
  rw [exponent_eq_toFinsupp ha, ha', toFinsupp_append, Finsupp.add_apply,
    toFinsupp_apply_eq_zero hlater, Nat.add_zero]

/-- Different factors with the same names part at an exponent. -/
theorem exists_parting_factors (hnames : a.names = b.names) (hne : a ≠ b) :
    ∃ hs x d e fs gs, a.factors = hs ++ (x, d) :: fs ∧ b.factors = hs ++ (x, e) :: gs ∧ d ≠ e := by
  have hlength : a.factors.length = b.factors.length := by
    simpa [names] using congrArg List.length hnames
  have hfactors : a.factors ≠ b.factors := fun h => hne (congrArg Monomial.mk h)
  obtain ⟨hs, ⟨x, d⟩, ⟨y, e⟩, fs, gs, hfs, hgs, hfg⟩ :=
    exists_parting (fun h => hfactors (h.eq_of_length hlength))
      fun h => hfactors (h.eq_of_length hlength.symm).symm
  rw [names, names, hfs, hgs, List.map_append, List.map_append] at hnames
  obtain rfl : x = y := (List.cons.inj (List.append_cancel_left hnames)).1
  exact ⟨hs, x, d, e, fs, gs, hfs, hgs, fun h => hfg (congrArg (Prod.mk x) h)⟩

theorem order_of_parting {d e : Nat} (hnames : a.names = b.names)
    (hfs : a.factors = hs ++ (x, d) :: fs) (hgs : b.factors = hs ++ (x, e) :: gs) (hne : d ≠ e) :
    order a b = compare d e := by
  have ha : a.isConstant = false := isConstant_eq_false_iff.mpr (by simp [names, hfs])
  have hb : b.isConstant = false := isConstant_eq_false_iff.mpr (by simp [names, hgs])
  have hself : List.compareLex compare b.names b.names = .eq := Std.ReflCmp.compare_self
  have hcompare : compare d e ≠ .eq := fun h => hne (compare_eq_iff_eq.mp h)
  rw [order_of_not_constant ha hb, hnames, hself, Ordering.eq_then, exponents, exponents, hfs, hgs,
    List.map_append, List.map_append, List.map_cons, List.map_cons, compareLex_of_parting hcompare]

/-- Where factors with the same names part, the exponents differ for the first time. -/
theorem exists_isLeast_exponent (ha : a.IsCanonical) (hb : b.IsCanonical)
    (heq : a.support = b.support) (hne : a ≠ b) :
    ∃ x, IsLeast {y | a.exponent y ≠ b.exponent y} x ∧
      order a b = compare (a.exponent x) (b.exponent x) := by
  have hnames := names_eq_of_support_eq ha hb heq
  obtain ⟨hs, x, d, e, fs, gs, hfs, hgs, hde⟩ := exists_parting_factors hnames hne
  have hd : a.exponent x = d := ((mem_factors_iff_exponent ha).mp (by simp [hfs])).1
  have he : b.exponent x = e := ((mem_factors_iff_exponent hb).mp (by simp [hgs])).1
  rw [← hd, ← he] at hde
  refine ⟨x, ⟨hde, fun y hy => ?_⟩, ?_⟩
  · by_contra hlt
    rw [not_le] at hlt
    exact hy ((exponent_of_lt ha hfs hlt).trans (exponent_of_lt hb hgs hlt).symm)
  · subst hd he
    exact order_of_parting hnames hfs hgs hde

/-! ## Precedence -/

theorem precedes_or_precedes (ha : a.IsCanonical) (hb : b.IsCanonical) (hne : a ≠ b) :
    a.Precedes b ∨ b.Precedes a := by
  cases ha' : a.isConstant <;> cases hb' : b.isConstant
  · by_cases heq : a.support = b.support
    · obtain ⟨x, hx, -⟩ := exists_isLeast_exponent ha hb heq hne
      rcases lt_or_gt_of_ne hx.1 with hlt | hlt
      · exact Or.inl (.exponent heq hx hlt)
      · have hset : {y | a.exponent y ≠ b.exponent y} = {y | b.exponent y ≠ a.exponent y} :=
          Set.ext fun y => ne_comm
        rw [hset] at hx
        exact Or.inr (.exponent heq.symm hx hlt)
    · by_cases hab : a.names <+: b.names
      · exact Or.inl (.begins ha' heq hab)
      by_cases hba : b.names <+: a.names
      · exact Or.inr (.begins hb' (Ne.symm heq) hba)
      rcases exists_isLeast_symmDiff ha hb hab hba with ⟨x, hx, hmem, -⟩ | ⟨x, hx, hmem, -⟩
      · exact Or.inl (.name hab hba hx hmem)
      · rw [symmDiff_comm] at hx
        exact Or.inr (.name hba hab hx hmem)
  · exact Or.inl (.constant ha' hb')
  · exact Or.inr (.constant hb' ha')
  · exact absurd (congrArg Monomial.mk
      ((List.isEmpty_iff.mp ha').trans (List.isEmpty_iff.mp hb').symm)) hne

theorem Precedes.order_eq_lt (ha : a.IsCanonical) (hb : b.IsCanonical) (h : a.Precedes b) :
    order a b = .lt := by
  cases h with
  | constant ha' hb' => rw [order, ha', hb']
  | begins ha' hne h =>
      refine order_eq_lt_of_begins ha' (fun hnames => hne ?_) h
      rw [support, support, hnames]
  | name hab hba hx hmem =>
      rcases exists_isLeast_symmDiff ha hb hab hba with ⟨-, -, -, horder⟩ | ⟨y, hy, hmem', -⟩
      · exact horder
      · obtain rfl := hx.unique hy
        rcases hx.1 with ⟨-, hnot⟩ | ⟨-, hnot⟩
        · exact absurd hmem' hnot
        · exact absurd hmem hnot
  | exponent heq hx hlt =>
      have hne : a ≠ b := fun h => hx.1 (by rw [h])
      obtain ⟨y, hy, horder⟩ := exists_isLeast_exponent ha hb heq hne
      obtain rfl := hx.unique hy
      rw [horder, compare_lt_iff_lt]
      exact hlt

theorem order_eq_lt_iff (ha : a.IsCanonical) (hb : b.IsCanonical) :
    order a b = .lt ↔ a.Precedes b := by
  refine ⟨fun h => ?_, fun h => h.order_eq_lt ha hb⟩
  have hswap : order b a = (order a b).swap := Std.OrientedCmp.eq_swap
  have hne : a ≠ b := by
    rintro rfl
    rw [h] at hswap
    cases hswap
  refine (precedes_or_precedes ha hb hne).resolve_right fun hba => ?_
  rw [h, hba.order_eq_lt hb ha] at hswap
  cases hswap

/-- **The order of monomials.** Only equal monomials are in the same place, the other way round is
the reverse, what comes before goes on to what comes after, and one monomial comes before another
exactly if it precedes it, told by what both hold. -/
theorem order_spec (ha : a.IsCanonical) (hb : b.IsCanonical) (c : Monomial) :
    (order a b = .eq ↔ a = b) ∧ order b a = (order a b).swap ∧
      (order a b = .lt → order b c = .lt → order a c = .lt) ∧ (order a b = .lt ↔ a.Precedes b) := by
  refine ⟨⟨Std.LawfulEqCmp.eq_of_compare, ?_⟩, Std.OrientedCmp.eq_swap, Std.TransCmp.lt_trans,
    order_eq_lt_iff ha hb⟩
  rintro rfl
  exact Std.ReflCmp.compare_self

/-- Names come before exponents, and the constant comes last. -/
theorem order_spec_of_products :
    let a : Monomial := ⟨[("x", 3), ("y", 1)]⟩
    let b : Monomial := ⟨[("x", 1), ("z", 1)]⟩
    a.IsCanonical ∧ b.IsCanonical ∧ order a b = .lt ∧ a.Precedes b ∧ order b a = .gt ∧
      order a one = .lt := by
  intro a b
  have ha : a.IsCanonical := by
    unfold IsCanonical
    decide
  have hb : b.IsCanonical := by
    unfold IsCanonical
    decide
  obtain ⟨-, hswap, htrans, hiff⟩ := order_spec ha hb one
  have hlt : order a b = .lt := by decide
  refine ⟨ha, hb, hlt, hiff.mp hlt, ?_, htrans hlt (by rfl)⟩
  rw [hswap, hlt]
  rfl

end Monomial

end PolyCalc
