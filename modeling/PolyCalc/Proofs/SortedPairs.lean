import PolyCalc.Proofs.Merging

/-!
# Pairs in any order

`Monomial.ofPairs` puts each pair in its place as it arrives. What comes out depends on the sums of
the exponents that are paired with each name and on nothing else (`ofPairs_eq_iff`), so the order of
the pairs does not matter, and neither does the way in which equal names are brought together.

The other way is to sort the pairs by name first, and then to go through them once and add every
pair to the one before it if both have the same name (`mergeRuns`). Sorting brings equal names next
to each other, and a sum that stops at the largest exponent comes out the same whichever way it is
added up. So this gives the same monomial (`mergeRuns_eq_factors`).
-/

namespace PolyCalc.Monomial

variable {x y : String} {d e : Nat} {ps qs rest : List (String × Nat)} {m : Monomial}

/-- The sum of the exponents that are paired with a name. -/
def pairedSum (x : String) (ps : List (String × Nat)) : Nat :=
  ((ps.filter fun p => decide (p.1 = x)).map Prod.snd).sum

theorem toFinsupp_eq_pairedSum (ps : List (String × Nat)) (x : String) :
    toFinsupp ⟨ps⟩ x = pairedSum x ps := by
  induction ps with
  | nil => rfl
  | cons p ps ih =>
      rw [toFinsupp_apply_cons, ih, pairedSum, pairedSum]
      by_cases hp : p.1 = x <;> simp [hp]

theorem pairedSum_perm (h : ps.Perm qs) (x : String) : pairedSum x ps = pairedSum x qs :=
  ((h.filter _).map _).sum_eq

theorem exponent_ofPairs_eq_pairedSum (ps : List (String × Nat)) (x : String) :
    (ofPairs ps).exponent x = min (pairedSum x ps) maxStoredExponent := by
  rw [exponent_ofPairs, toFinsupp_eq_pairedSum]

theorem ofPairs_eq_iff (hm : m.IsCanonical) :
    ofPairs ps = m ↔ ∀ x, m.exponent x = min (pairedSum x ps) maxStoredExponent := by
  constructor
  · rintro rfl x
    exact exponent_ofPairs_eq_pairedSum ps x
  · intro h
    refine ext_exponent (isCanonical_ofPairs ps) hm fun x => ?_
    rw [exponent_ofPairs_eq_pairedSum, h]

theorem ofPairs_perm (h : ps.Perm qs) : ofPairs ps = ofPairs qs :=
  (ofPairs_eq_iff (isCanonical_ofPairs qs)).mpr fun x => by
    rw [exponent_ofPairs_eq_pairedSum, pairedSum_perm h]

/-- No exponent passes the largest one that a factor can hold. -/
theorem isStorable_ofPairs (ps : List (String × Nat)) : (ofPairs ps).IsStorable := by
  rintro ⟨x, e⟩ hf
  obtain ⟨rfl, -⟩ := (mem_factors_iff_exponent (isCanonical_ofPairs ps)).mp hf
  rw [exponent_ofPairs_eq_pairedSum]
  exact Nat.min_le_right _ _

/-- In a canonical monomial every name stands once, so nothing is added up. -/
theorem ofPairs_factors (hm : m.IsCanonical) (hs : m.IsStorable) : ofPairs m.factors = m := by
  refine (ofPairs_eq_iff hm).mpr fun x => ?_
  have hsum : m.exponent x = pairedSum x m.factors :=
    (exponent_eq_toFinsupp hm x).trans (toFinsupp_eq_pairedSum m.factors x)
  rw [← hsum, Nat.min_eq_left (hs.exponent_le hm x)]

/-! ## Runs of equal names -/

/-- The factors of sorted pairs of which one is still open: it takes up the pairs that follow as
long as they have its name. -/
def mergeOnto (x : String) (e : Nat) : List (String × Nat) → List (String × Nat)
  | [] => [(x, e)]
  | (y, d) :: rest =>
      if y = x then mergeOnto x (saturatingAdd e d) rest else (x, e) :: mergeOnto y d rest

/-- The factors of sorted pairs. -/
def mergeRuns : List (String × Nat) → List (String × Nat)
  | [] => []
  | (x, e) :: rest => mergeOnto x e rest

/-- Names do not decrease. -/
def InOrder (ps : List (String × Nat)) : Prop := ps.Pairwise fun p q => p.1 ≤ q.1

theorem forall_mem_mergeOnto {P : String → Prop} (hx : P x) (hrest : ∀ p ∈ rest, P p.1) :
    ∀ f ∈ mergeOnto x e rest, P f.1 := by
  fun_induction mergeOnto x e rest with
  | case1 => exact List.forall_mem_singleton.mpr hx
  | case2 _ _ _ _ ih => exact ih hx (List.forall_mem_cons.mp hrest).2
  | case3 _ _ _ _ _ _ ih =>
      obtain ⟨hy, hrest'⟩ := List.forall_mem_cons.mp hrest
      exact List.forall_mem_cons.mpr ⟨hx, ih hy hrest'⟩

theorem pos_of_mem_mergeOnto (he : 0 < e) (hrest : ∀ p ∈ rest, 0 < p.2) :
    ∀ f ∈ mergeOnto x e rest, 0 < f.2 := by
  fun_induction mergeOnto x e rest with
  | case1 => exact List.forall_mem_singleton.mpr he
  | case2 _ _ _ _ ih =>
      obtain ⟨hd, hrest'⟩ := List.forall_mem_cons.mp hrest
      exact ih (saturatingAdd_pos hd) hrest'
  | case3 _ _ _ _ _ _ ih =>
      obtain ⟨hd, hrest'⟩ := List.forall_mem_cons.mp hrest
      exact List.forall_mem_cons.mpr ⟨he, ih hd hrest'⟩

/-- Behind a pair with another name, sorted pairs have only larger names. -/
theorem InOrder.lt_of_ne (h : InOrder ((x, e) :: (y, d) :: rest)) (hne : y ≠ x) :
    x < y ∧ ∀ p ∈ rest, x < p.1 := by
  obtain ⟨hx, hrest⟩ := List.pairwise_cons.mp h
  have hxy : x < y := lt_of_le_of_ne (hx (y, d) (List.mem_cons_self ..)) hne.symm
  exact ⟨hxy, fun p hp => hxy.trans_le ((List.pairwise_cons.mp hrest).1 p hp)⟩

/-- A pair that takes up the next one is in order before the others. -/
theorem InOrder.absorb (h : InOrder ((x, e) :: (x, d) :: rest)) (e' : Nat) :
    InOrder ((x, e') :: rest) :=
  List.pairwise_cons.mpr (List.pairwise_cons.mp h.of_cons)

theorem pairwise_mergeOnto (h : InOrder ((x, e) :: rest)) :
    (mergeOnto x e rest).Pairwise fun f g => f.1 < g.1 := by
  fun_induction mergeOnto x e rest with
  | case1 => exact List.pairwise_singleton _ _
  | case2 _ _ _ _ ih => exact ih (h.absorb _)
  | case3 _ _ _ _ _ hne ih =>
      obtain ⟨hxy, hlater⟩ := h.lt_of_ne hne
      exact List.pairwise_cons.mpr ⟨forall_mem_mergeOnto hxy hlater, ih h.of_cons⟩

/-- What is open holds the sum so far, so at the end every name has the sum of its exponents. -/
theorem toFinsupp_mergeOnto (h : InOrder ((x, e) :: rest)) (he : e ≤ maxStoredExponent)
    (hrest : ∀ p ∈ rest, p.2 ≤ maxStoredExponent) (z : String) :
    toFinsupp ⟨mergeOnto x e rest⟩ z =
      min (toFinsupp ⟨(x, e) :: rest⟩ z) maxStoredExponent := by
  fun_induction mergeOnto x e rest with
  | case1 =>
      rw [toFinsupp_apply_cons]
      have hnil : toFinsupp ⟨[]⟩ z = 0 := rfl
      rw [hnil]
      split <;> omega
  | case2 x e d rest ih =>
      rw [ih (h.absorb _) (Nat.min_le_right _ _) (List.forall_mem_cons.mp hrest).2]
      simp only [toFinsupp_apply_cons]
      split
      · simp only [saturatingAdd]
        omega
      · simp only [Nat.zero_add]
  | case3 x e y d rest hne ih =>
      obtain ⟨hd, hrest'⟩ := List.forall_mem_cons.mp hrest
      obtain ⟨hxy, hlater⟩ := h.lt_of_ne hne
      rw [toFinsupp_apply_cons, ih h.of_cons hd hrest', toFinsupp_apply_cons (x, e)]
      split
      · next hxz =>
          subst hxz
          -- the name does not come again
          have hzero : toFinsupp ⟨(y, d) :: rest⟩ x = 0 :=
            toFinsupp_apply_eq_zero (List.forall_mem_cons.mpr
              ⟨hxy.ne', fun p hp => (hlater p hp).ne'⟩)
          rw [hzero]
          omega
      · simp only [Nat.zero_add]

theorem mergeRuns_spec (h : InOrder ps) (hpos : ∀ p ∈ ps, 0 < p.2)
    (hle : ∀ p ∈ ps, p.2 ≤ maxStoredExponent) :
    IsCanonical ⟨mergeRuns ps⟩ ∧
      ∀ x, toFinsupp ⟨mergeRuns ps⟩ x = min (toFinsupp ⟨ps⟩ x) maxStoredExponent := by
  cases ps with
  | nil => exact ⟨isSupported_one.1, fun x => (Nat.min_eq_left (Nat.zero_le _)).symm⟩
  | cons p rest =>
      obtain ⟨x, e⟩ := p
      obtain ⟨he, hrest⟩ := List.forall_mem_cons.mp hpos
      obtain ⟨hle', hlerest⟩ := List.forall_mem_cons.mp hle
      exact ⟨⟨pairwise_mergeOnto h, pos_of_mem_mergeOnto he hrest⟩,
        toFinsupp_mergeOnto h hle' hlerest⟩

/-- However the pairs that are not zero have been sorted by name, merging the runs gives the factors
of the monomial. -/
theorem mergeRuns_eq_factors (hps : ∀ p ∈ ps, p.2 ≤ maxStoredExponent)
    (hperm : qs.Perm (ps.filter fun p => p.2 ≠ 0)) (hqs : InOrder qs) :
    mergeRuns qs = (ofPairs ps).factors := by
  have hmem : ∀ q ∈ qs, q ∈ ps ∧ q.2 ≠ 0 := fun q hq => by
    simpa using hperm.mem_iff.mp hq
  obtain ⟨hcanonical, hsum⟩ := mergeRuns_spec hqs
    (fun q hq => Nat.pos_of_ne_zero (hmem q hq).2) fun q hq => hps q (hmem q hq).1
  have hmerged : ofPairs ps = ⟨mergeRuns qs⟩ := by
    refine (ofPairs_eq_iff hcanonical).mpr fun x => ?_
    rw [exponent_eq_toFinsupp hcanonical, hsum, toFinsupp_eq_pairedSum, pairedSum_perm hperm,
      ← toFinsupp_eq_pairedSum, toFinsupp_filter, toFinsupp_eq_pairedSum]
  rw [hmerged]

/-- **Collecting pairs.** The monomial of any pairs of names and exponents has its names in strictly
increasing order and no exponent zero or beyond the largest one that a factor can hold. To every
name it gives the sum of the exponents that are paired with that name, or that largest one if the
sum is larger; so the order of the pairs does not matter. Its factors are also what comes out of
sorting the pairs that are not zero by name, in any way, and merging the runs of equal names. The
factors of a canonical monomial give that monomial back. -/
theorem ofPairs_collects (hps : ∀ p ∈ ps, p.2 ≤ maxStoredExponent) :
    (ofPairs ps).IsCanonical ∧ (ofPairs ps).IsStorable ∧
      (∀ x, (ofPairs ps).exponent x = min maxStoredExponent (pairedSum x ps)) ∧
      (∀ qs, qs.Perm ps → ofPairs qs = ofPairs ps) ∧
      (∀ qs, qs.Perm (ps.filter fun p => p.2 ≠ 0) → InOrder qs →
        (ofPairs ps).factors = mergeRuns qs) ∧
      ∀ m : Monomial, m.IsCanonical → m.IsStorable → ofPairs m.factors = m := by
  refine ⟨isCanonical_ofPairs ps, isStorable_ofPairs ps, fun x => ?_, fun qs => ofPairs_perm,
    fun qs hperm hqs => (mergeRuns_eq_factors hps hperm hqs).symm, fun m => ofPairs_factors⟩
  rw [exponent_ofPairs_eq_pairedSum, Nat.min_comm]

/-- Names out of order, one of them twice and beyond the largest exponent, one with exponent zero.
-/
theorem ofPairs_collects_of_repeated :
    let ps : List (String × Nat) :=
      [("z", 18446744073709551615), ("x", 1), ("z", 2), ("y", 0), ("x", 4)]
    (∀ p ∈ ps, p.2 ≤ maxStoredExponent) ∧
      (ofPairs ps).factors = [("x", 5), ("z", 18446744073709551615)] ∧
      (ofPairs ps).exponent "x" = 5 ∧ (ofPairs ps).exponent "y" = 0 ∧
      ofPairs ps.reverse = ofPairs ps := by
  intro ps
  have hps : ∀ p ∈ ps, p.2 ≤ maxStoredExponent := by decide
  obtain ⟨-, -, hexponent, hperm, hmerge, -⟩ := ofPairs_collects hps
  let qs : List (String × Nat) := [("x", 1), ("x", 4), ("z", 18446744073709551615), ("z", 2)]
  have hqs : (ofPairs ps).factors = mergeRuns qs := hmerge qs (by decide) (by
    unfold InOrder
    decide)
  refine ⟨hps, hqs, ?_, ?_, hperm _ ps.reverse_perm⟩
  · rw [hexponent]
    decide
  · rw [hexponent]
    decide

end PolyCalc.Monomial
