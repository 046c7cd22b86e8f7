import PolyCalc.Proofs.CanonicalForm

/-!
# Collecting and finding exponents

A monomial gives an exponent to every name, zero to those that it does not hold. The sum of the
exponents that a list of factors pairs with a name (`Monomial.toFinsupp`) says which one, whatever
the order of the list and however often a name occurs in it. Two operations are compared with that
sum here:

- **Finding** (`exponent_eq_toFinsupp`): in sorted factors, halving the list until the name is found
  gives the sum, since every half that is left out holds only smaller or only larger names.
- **Collecting** (`toFinsupp_ofPairs`): the monomial of arbitrary pairs is canonical and gives every
  name the sum of the exponents that are paired with it, or the largest exponent that a factor can
  hold if the sum is larger.
-/

namespace PolyCalc.Monomial

variable {x y : String} {e : Nat} {fs gs : List (String × Nat)}

theorem toFinsupp_append (fs gs : List (String × Nat)) :
    toFinsupp ⟨fs ++ gs⟩ = toFinsupp ⟨fs⟩ + toFinsupp ⟨gs⟩ := by
  simp only [toFinsupp, List.map_append, List.sum_append]

/-! ## Finding -/

/-- Halving finds the exponent in any number of steps that is enough for the length. -/
theorem search_eq_toFinsupp : ∀ {steps : Nat} {fs : List (String × Nat)},
    fs.Pairwise (fun f g => f.1 < g.1) → fs.length ≤ steps →
      search x steps fs = toFinsupp ⟨fs⟩ x
  | 0, fs, _, hlength => by
      obtain rfl := List.eq_nil_of_length_eq_zero (Nat.le_zero.mp hlength)
      rfl
  | steps + 1, fs, hfs, hlength => by
      have hsplit := List.take_append_drop (fs.length / 2) fs
      have hbelow : (fs.take (fs.length / 2)).length = fs.length / 2 := by
        rw [List.length_take]
        omega
      have habove : (fs.drop (fs.length / 2)).length = fs.length - fs.length / 2 :=
        List.length_drop
      rw [search]
      split
      · next hnil =>
          rw [hnil, List.length_nil] at habove
          obtain rfl := List.eq_nil_of_length_eq_zero (show fs.length = 0 by omega)
          rfl
      · next y e above hdrop =>
          rw [hdrop] at hsplit habove
          rw [List.length_cons] at habove
          rw [← hsplit] at hfs
          obtain ⟨hfsBelow, hfsRest, hacross⟩ := List.pairwise_append.mp hfs
          obtain ⟨hmiddle, hfsAbove⟩ := List.pairwise_cons.mp hfsRest
          have hfirst : ∀ f ∈ fs.take (fs.length / 2), f.1 < y :=
            fun f hf => hacross f hf (y, e) (List.mem_cons_self ..)
          rw [congrArg (fun l => toFinsupp ⟨l⟩ x) hsplit.symm, toFinsupp_append,
            Finsupp.add_apply, toFinsupp_apply_cons]
          split
          · next hcmp =>
              have hlt : x < y := compare_lt_iff_lt.mp hcmp
              rw [search_eq_toFinsupp hfsBelow (by omega), if_neg hlt.ne',
                toFinsupp_apply_eq_zero fun f hf => (hlt.trans (hmiddle f hf)).ne']
              rfl
          · next hcmp =>
              obtain rfl : x = y := compare_eq_iff_eq.mp hcmp
              rw [toFinsupp_apply_eq_zero fun f hf => (hfirst f hf).ne, if_pos rfl,
                toFinsupp_apply_eq_zero fun f hf => (hmiddle f hf).ne', Nat.add_zero,
                Nat.zero_add]
          · next hcmp =>
              have hlt : y < x := compare_gt_iff_gt.mp hcmp
              rw [search_eq_toFinsupp hfsAbove (by omega), if_neg hlt.ne,
                toFinsupp_apply_eq_zero fun f hf => ((hfirst f hf).trans hlt).ne, Nat.zero_add,
                Nat.zero_add]

theorem exponent_eq_toFinsupp {m : Monomial} (hm : m.IsCanonical) (x : String) :
    m.exponent x = m.toFinsupp x :=
  search_eq_toFinsupp hm.1 (Nat.le_refl _)

theorem mem_factors_iff_exponent {m : Monomial} (hm : m.IsCanonical) :
    (x, e) ∈ m.factors ↔ m.exponent x = e ∧ 0 < e := by
  rw [exponent_eq_toFinsupp hm]
  exact mem_factors_iff hm.1 hm.2

/-- A canonical monomial is determined by the exponents that it gives to names. -/
theorem ext_exponent {a b : Monomial} (ha : a.IsCanonical) (hb : b.IsCanonical)
    (h : ∀ x, a.exponent x = b.exponent x) : a = b := by
  refine (toFinsupp_inj ha hb).mp (Finsupp.ext fun x => ?_)
  rw [← exponent_eq_toFinsupp ha, ← exponent_eq_toFinsupp hb, h]

/-! ## Collecting -/

theorem forall_mem_collect {p : String → Prop} (hx : p x) (hfs : ∀ f ∈ fs, p f.1) :
    ∀ f ∈ collect x e fs, p f.1 := by
  fun_induction collect x e fs with
  | case1 => exact List.forall_mem_singleton.mpr hx
  | case2 => exact List.forall_mem_cons.mpr ⟨hx, hfs⟩
  | case3 => exact List.forall_mem_cons.mpr (List.forall_mem_cons.mp hfs)
  | case4 _ _ _ _ ih =>
      obtain ⟨hf, hrest⟩ := List.forall_mem_cons.mp hfs
      exact List.forall_mem_cons.mpr ⟨hf, ih hrest⟩

theorem pairwise_collect (hfs : fs.Pairwise fun f g => f.1 < g.1) :
    (collect x e fs).Pairwise fun f g => f.1 < g.1 := by
  fun_induction collect x e fs with
  | case1 => exact List.pairwise_singleton _ _
  | case2 y d rest hcmp =>
      have hlt : x < y := compare_lt_iff_lt.mp hcmp
      refine List.pairwise_cons.mpr ⟨List.forall_mem_cons.mpr ⟨hlt, fun f hf => ?_⟩, hfs⟩
      exact hlt.trans ((List.pairwise_cons.mp hfs).1 f hf)
  | case3 => exact List.pairwise_cons.mpr (List.pairwise_cons.mp hfs)
  | case4 y d rest hcmp ih =>
      obtain ⟨hy, hrest⟩ := List.pairwise_cons.mp hfs
      exact List.pairwise_cons.mpr
        ⟨forall_mem_collect (compare_gt_iff_gt.mp hcmp) hy, ih hrest⟩

theorem saturatingAdd_pos {a b : Nat} (hb : 0 < b) : 0 < saturatingAdd a b := by
  simp only [saturatingAdd, maxStoredExponent]
  omega

theorem pos_of_mem_collect (he : 0 < e) (hfs : ∀ f ∈ fs, 0 < f.2) :
    ∀ f ∈ collect x e fs, 0 < f.2 := by
  fun_induction collect x e fs with
  | case1 => exact List.forall_mem_singleton.mpr (saturatingAdd_pos he)
  | case2 => exact List.forall_mem_cons.mpr ⟨saturatingAdd_pos he, hfs⟩
  | case3 => exact List.forall_mem_cons.mpr ⟨saturatingAdd_pos he, (List.forall_mem_cons.mp hfs).2⟩
  | case4 _ _ _ _ ih =>
      obtain ⟨hf, hrest⟩ := List.forall_mem_cons.mp hfs
      exact List.forall_mem_cons.mpr ⟨hf, ih hrest⟩

/-- Collecting a pair changes the exponent of its name and no other one. -/
theorem toFinsupp_collect (hfs : fs.Pairwise fun f g => f.1 < g.1) (y : String) :
    toFinsupp ⟨collect x e fs⟩ y =
      if x = y then saturatingAdd (toFinsupp ⟨fs⟩ y) e else toFinsupp ⟨fs⟩ y := by
  fun_induction collect x e fs with
  | case1 => exact toFinsupp_apply_cons _ _ _
  | case2 z d rest hcmp =>
      have hlt : x < z := compare_lt_iff_lt.mp hcmp
      rw [toFinsupp_apply_cons]
      split
      · next hxy =>
          subst hxy
          have hzero : toFinsupp ⟨(z, d) :: rest⟩ x = 0 :=
            toFinsupp_apply_eq_zero (List.forall_mem_cons.mpr
              ⟨hlt.ne', fun f hf => (hlt.trans ((List.pairwise_cons.mp hfs).1 f hf)).ne'⟩)
          rw [hzero, Nat.add_zero]
      · exact Nat.zero_add _
  | case3 z d rest hcmp =>
      obtain rfl : x = z := compare_eq_iff_eq.mp hcmp
      rw [toFinsupp_apply_cons, toFinsupp_apply_cons]
      split
      · next hxy =>
          subst hxy
          rw [toFinsupp_apply_eq_zero fun f hf => ((List.pairwise_cons.mp hfs).1 f hf).ne']
          rfl
      · rfl
  | case4 z d rest hcmp ih =>
      have hlt : z < x := compare_gt_iff_gt.mp hcmp
      rw [toFinsupp_apply_cons, toFinsupp_apply_cons, ih (List.pairwise_cons.mp hfs).2]
      by_cases hzy : z = y
      · subst hzy
        rw [if_neg hlt.ne', if_neg hlt.ne']
      · rw [if_neg hzy, Nat.zero_add, Nat.zero_add]

theorem IsCanonical.collect (h : IsCanonical ⟨fs⟩) (he : 0 < e) :
    IsCanonical ⟨collect x e fs⟩ :=
  ⟨pairwise_collect h.1, pos_of_mem_collect he h.2⟩

/-- Pair after pair, the exponents of every name are added up until no more can be held. -/
theorem foldl_collect {pairs : List (String × Nat)} (hpairs : ∀ p ∈ pairs, 0 < p.2) :
    ∀ {fs : List (String × Nat)}, IsCanonical ⟨fs⟩ →
      (∀ x, toFinsupp ⟨fs⟩ x ≤ maxStoredExponent) →
      IsCanonical ⟨pairs.foldl (fun factors p => collect p.1 p.2 factors) fs⟩ ∧
        ∀ x, toFinsupp ⟨pairs.foldl (fun factors p => collect p.1 p.2 factors) fs⟩ x =
          min (toFinsupp ⟨fs⟩ x + toFinsupp ⟨pairs⟩ x) maxStoredExponent := by
  induction pairs with
  | nil =>
      intro fs hfs hle
      refine ⟨hfs, fun x => ?_⟩
      have hnil : toFinsupp ⟨[]⟩ x = 0 := rfl
      rw [List.foldl_nil, hnil, Nat.add_zero, Nat.min_eq_left (hle x)]
  | cons p pairs ih =>
      intro fs hfs hle
      obtain ⟨hp, hrest⟩ := List.forall_mem_cons.mp hpairs
      have hcollect := toFinsupp_collect (x := p.1) (e := p.2) hfs.1
      obtain ⟨hcanonical, hsum⟩ := ih hrest (hfs.collect hp) fun x => by
        rw [hcollect]
        split
        · exact Nat.min_le_right _ _
        · exact hle x
      refine ⟨hcanonical, fun x => ?_⟩
      rw [List.foldl_cons, hsum, hcollect, toFinsupp_apply_cons]
      split
      · simp only [saturatingAdd]
        omega
      · rw [Nat.zero_add]

theorem toFinsupp_filter (pairs : List (String × Nat)) :
    toFinsupp ⟨pairs.filter fun p => p.2 ≠ 0⟩ = toFinsupp ⟨pairs⟩ := by
  induction pairs with
  | nil => rfl
  | cons p pairs ih =>
      rw [List.filter_cons, toFinsupp_cons]
      split
      · rw [toFinsupp_cons, ih]
      · next hzero =>
          have hp : p.2 = 0 := by simpa using hzero
          rw [ih, hp, Finsupp.single_zero, zero_add]

theorem collected (pairs : List (String × Nat)) :
    (ofPairs pairs).IsCanonical ∧
      ∀ x, (ofPairs pairs).toFinsupp x = min (toFinsupp ⟨pairs⟩ x) maxStoredExponent := by
  have hpos : ∀ p ∈ pairs.filter (fun p => p.2 ≠ 0), 0 < p.2 := by
    intro p hp
    exact Nat.pos_of_ne_zero (by simpa using (List.mem_filter.mp hp).2)
  have hstart : IsCanonical ⟨[]⟩ := isSupported_one.1
  obtain ⟨hcanonical, hsum⟩ := foldl_collect hpos hstart fun _ => Nat.zero_le _
  refine ⟨hcanonical, fun x => ?_⟩
  have hnil : toFinsupp ⟨[]⟩ x = 0 := rfl
  rw [ofPairs, hsum, toFinsupp_filter, hnil, Nat.zero_add]

theorem isCanonical_ofPairs (pairs : List (String × Nat)) : (ofPairs pairs).IsCanonical :=
  (collected pairs).1

theorem exponent_ofPairs (pairs : List (String × Nat)) (x : String) :
    (ofPairs pairs).exponent x = min (toFinsupp ⟨pairs⟩ x) maxStoredExponent := by
  rw [exponent_eq_toFinsupp (isCanonical_ofPairs pairs)]
  exact (collected pairs).2 x

end PolyCalc.Monomial
