import PolyCalc.Proofs.CanonicalForm

/-!
# Bringing terms into normal form

`Polynomial.ofTerms` holds its sums in a tree that lists them in the order of monomials. The tree is
of no consequence. Any map will do, whatever order it lists its entries in: drop the entries that
are zero and sort the others as terms, and the normal form is what comes out
(`eq_terms_ofTerms_iff`). The order of terms looks at coefficients when it compares two constants,
but of all monomials only one is constant, so no two entries are ever compared that way.

Over the integers sums do not depend on the order of their summands either. A normal form is then
determined by the total coefficient of every monomial, and lists with the same totals have the same
normal form (`ofTerms_eq_of_totalAt`).
-/

namespace PolyCalc

/-- Terms with different monomials that stand in order stand strictly in order. -/
theorem Term.before_of_order {s t : Term} (hne : s.monomial ≠ t.monomial)
    (h : s.order t ≠ .gt) : s.Before t := by
  rw [order_of_ne hne] at h
  cases horder : s.monomial.order t.monomial with
  | lt => exact horder
  | eq => exact absurd (Std.LawfulEqCmp.eq_of_compare horder) hne
  | gt => exact absurd horder h

namespace Polynomial

/-! ## Entries in any order -/

/-- Adds a coefficient to the entry of a monomial. If there is none, it is put at the end. -/
def addEntry (m : Monomial) (c : Number) :
    List (Monomial × Number) → List (Monomial × Number)
  | [] => [(m, c)]
  | (n, d) :: rest => if m = n then (n, d + c) :: rest else (n, d) :: addEntry m c rest

/-- Takes up a term. A zero is skipped. -/
def addTerm (es : List (Monomial × Number)) (t : Term) : List (Monomial × Number) :=
  if t.coefficient.isZero then es else addEntry t.monomial t.coefficient es

/-- The sums of a list of terms by monomial, listed in the order in which the monomials arrive. -/
def tally (ts : List Term) : List (Monomial × Number) := ts.foldl addTerm []

/-- The terms of the entries that are not zero. -/
def keptTerms (es : List (Monomial × Number)) : List Term :=
  (es.filter fun e => !e.2.isZero).map fun e => ⟨e.2, e.1⟩

theorem lookup_cons_of_ne {m n : Monomial} {d : Number} {es : List (Monomial × Number)}
    (h : n ≠ m) : ((n, d) :: es).lookup m = es.lookup m := by
  have hbeq : (m == n) = false := beq_false_of_ne h.symm
  rw [List.lookup_cons, hbeq]

theorem lookup_addEntry (m : Monomial) (c : Number) (es : List (Monomial × Number))
    (n : Monomial) : (addEntry m c es).lookup n =
      if m = n then some ((es.lookup n).elim c fun d => d + c)
      else es.lookup n := by
  induction es with
  | nil =>
      rw [addEntry]
      split
      · next hmn => rw [hmn, List.lookup_cons_self]; rfl
      · next hmn => exact lookup_cons_of_ne hmn
  | cons e es ih =>
      obtain ⟨k, d⟩ := e
      rw [addEntry]
      by_cases hkn : k = n
      · subst hkn
        by_cases hmk : m = k
        · rw [if_pos hmk, if_pos hmk, List.lookup_cons_self, List.lookup_cons_self,
            Option.elim_some]
        · rw [if_neg hmk, if_neg hmk, List.lookup_cons_self, List.lookup_cons_self]
      · rw [lookup_cons_of_ne hkn, ← ih]
        by_cases hmk : m = k
        · subst hmk
          rw [if_pos rfl, lookup_cons_of_ne hkn, ih, if_neg hkn]
        · rw [if_neg hmk, lookup_cons_of_ne hkn]

theorem mem_keys_addEntry {m n : Monomial} {c : Number} {es : List (Monomial × Number)} :
    n ∈ (addEntry m c es).map Prod.fst ↔ n = m ∨ n ∈ es.map Prod.fst := by
  induction es with
  | nil => simp [addEntry]
  | cons e es ih =>
      obtain ⟨k, d⟩ := e
      unfold addEntry
      split
      · next hmk => simp [hmk]
      · next hmk => simp only [List.map_cons, List.mem_cons, ih, or_left_comm]

theorem nodup_keys_addEntry {m : Monomial} {c : Number} {es : List (Monomial × Number)}
    (h : (es.map Prod.fst).Nodup) : ((addEntry m c es).map Prod.fst).Nodup := by
  induction es with
  | nil => exact List.nodup_singleton m
  | cons e es ih =>
      obtain ⟨k, d⟩ := e
      obtain ⟨hk, hes⟩ := List.nodup_cons.mp h
      unfold addEntry
      split
      · exact h
      · next hmk =>
          refine List.nodup_cons.mpr ⟨fun hmem => ?_, ih hes⟩
          exact (mem_keys_addEntry.mp hmem).elim (fun heq => hmk heq.symm) hk

theorem nodup_keys_tally (ts : List Term) : ((tally ts).map Prod.fst).Nodup := by
  induction ts using List.reverseRecOn with
  | nil => exact List.nodup_nil
  | append_singleton ts t ih =>
      rw [tally, List.foldl_append, List.foldl_cons, List.foldl_nil, ← tally, addTerm]
      split
      · exact ih
      · exact nodup_keys_addEntry ih

theorem lookup_tally (ts : List Term) (m : Monomial) : (tally ts).lookup m = sumAt m ts := by
  refine get_foldl_eq_sumAt (fun es m => List.lookup m es) (fun _ => rfl) ?_ ts m
  intro es t m
  unfold addTerm
  cases hz : t.coefficient.isZero with
  | true => simp
  | false => simp [lookup_addEntry]

/-- Where keys do not repeat, the entries are what can be looked up. -/
theorem mem_iff_lookup {es : List (Monomial × Number)} (h : (es.map Prod.fst).Nodup)
    {m : Monomial} {c : Number} : (m, c) ∈ es ↔ es.lookup m = some c := by
  induction es with
  | nil => simp
  | cons e es ih =>
      obtain ⟨n, d⟩ := e
      obtain ⟨hn, hes⟩ := List.nodup_cons.mp h
      rw [List.mem_cons, ih hes]
      by_cases hmn : m = n
      · subst hmn
        have hrest : es.lookup m ≠ some c := fun hc =>
          hn (List.mem_map.mpr ⟨(m, c), (ih hes).mpr hc, rfl⟩)
        simp [hrest, eq_comm]
      · rw [lookup_cons_of_ne (Ne.symm hmn)]
        simp [hmn]

theorem mem_tally {ts : List Term} {m : Monomial} {c : Number} :
    (m, c) ∈ tally ts ↔ sumAt m ts = some c := by
  rw [mem_iff_lookup (nodup_keys_tally ts), lookup_tally]

/-- The entries that are not zero are the terms of the normal form. -/
theorem keptTerms_perm {ts : List Term} {es : List (Monomial × Number)}
    (h : es.Perm (tally ts)) : (keptTerms es).Perm (ofTerms ts).terms := by
  have hkeys : (es.map Prod.fst).Nodup := (h.map Prod.fst).nodup_iff.mpr (nodup_keys_tally ts)
  have hkept : (keptTerms es).Nodup := by
    refine List.Nodup.of_map Term.monomial ?_
    rw [keptTerms, List.map_map]
    exact (List.filter_sublist.map Prod.fst).nodup hkeys
  have hterms : (ofTerms ts).terms.Nodup :=
    (isNormal_ofTerms ts).distinct.imp fun hne heq => hne (congrArg Term.monomial heq)
  refine (List.perm_ext_iff_of_nodup hkept hterms).mpr fun t => ?_
  rw [mem_ofTerms, ← mem_tally, ← h.mem_iff]
  simp only [keptTerms, List.mem_map, List.mem_filter, Bool.not_eq_true']
  constructor
  · rintro ⟨e, hmem, rfl⟩
    exact hmem
  · exact fun hmem => ⟨_, hmem, rfl⟩

/-- The normal form is the one list that is sorted and has the entries that are not zero, in
whatever order the entries are listed. -/
theorem eq_terms_ofTerms_iff {ts us : List Term} {es : List (Monomial × Number)}
    (h : es.Perm (tally ts)) :
    us = (ofTerms ts).terms ↔
      us.Perm (keptTerms es) ∧ us.Pairwise fun s t => s.order t ≠ .gt := by
  have hnormal := isNormal_ofTerms ts
  constructor
  · rintro rfl
    exact ⟨(keptTerms_perm h).symm, hnormal.ascending.imp fun hlt => by simp [hlt]⟩
  · rintro ⟨hperm, hsorted⟩
    have hterms := hperm.trans (keptTerms_perm h)
    have hdistinct := hterms.symm.pairwise hnormal.distinct fun hne => hne.symm
    have hbefore : us.Pairwise Term.Before :=
      (hdistinct.and hsorted).imp fun ⟨hne, hle⟩ => Term.before_of_order hne hle
    exact hbefore.eq_of_mem_iff hnormal.before fun t => hterms.mem_iff

/-! ## Totals of integers -/

/-- The sum of all coefficients at a monomial. -/
def totalAt (m : Monomial) (ts : List Term) : Int :=
  ((ts.filter fun t => decide (t.monomial = m)).map fun t => t.coefficient.integer).sum

theorem collect_apply_eq_totalAt (ts : List Term) (m : Monomial) :
    collect ts m = totalAt m ts := by
  induction ts with
  | nil => rfl
  | cons t ts ih =>
      rw [collect_cons, Finsupp.add_apply, ih, Finsupp.single_apply, totalAt, totalAt]
      by_cases hm : t.monomial = m <;> simp [hm]

theorem totalAt_append (m : Monomial) (ss ts : List Term) :
    totalAt m (ss ++ ts) = totalAt m ss + totalAt m ts := by
  simp only [totalAt, List.filter_append, List.map_append, List.sum_append]

theorem totalAt_perm {ss ts : List Term} (h : ss.Perm ts) (m : Monomial) :
    totalAt m ss = totalAt m ts :=
  ((h.filter _).map _).sum_eq

section Integers

variable {ts : List Term} (hts : ∀ t ∈ ts, t.coefficient.IsInt)

include hts

theorem mem_ofTerms_int {i : Int} {m : Monomial} :
    (⟨.int i, m⟩ : Term) ∈ (ofTerms ts).terms ↔ totalAt m ts = i ∧ i ≠ 0 := by
  rw [mem_terms_iff (isNormal_ofTerms ts) (isInt_of_mem_ofTerms hts), collect_ofTerms hts,
    collect_apply_eq_totalAt]

theorem totalAt_ofTerms (m : Monomial) : totalAt m (ofTerms ts).terms = totalAt m ts := by
  rw [← collect_apply_eq_totalAt, collect_ofTerms hts, collect_apply_eq_totalAt]

theorem ofTerms_eq_of_totalAt {us : List Term} (hus : ∀ t ∈ us, t.coefficient.IsInt)
    (h : ∀ m, totalAt m us = totalAt m ts) : ofTerms us = ofTerms ts := by
  refine (isNormal_ofTerms us).ext_int (isNormal_ofTerms ts) (isInt_of_mem_ofTerms hus)
    (isInt_of_mem_ofTerms hts) fun i m => ?_
  rw [mem_ofTerms_int hus, mem_ofTerms_int hts, h]

theorem ofTerms_perm {us : List Term} (h : us.Perm ts) : ofTerms us = ofTerms ts :=
  ofTerms_eq_of_totalAt hts (fun t ht => hts t (h.mem_iff.mp ht)) (totalAt_perm h)

/-- A part of a list can be brought into normal form before the whole is. -/
theorem ofTerms_append {ss : List Term} (hss : ∀ t ∈ ss, t.coefficient.IsInt) :
    ofTerms ((ofTerms ss).terms ++ (ofTerms ts).terms) = ofTerms (ss ++ ts) := by
  refine ofTerms_eq_of_totalAt (fun t ht => (List.mem_append.mp ht).elim (hss t) (hts t))
    (fun t ht => (List.mem_append.mp ht).elim (isInt_of_mem_ofTerms hss t)
      (isInt_of_mem_ofTerms hts t)) fun m => ?_
  rw [totalAt_append, totalAt_append, totalAt_ofTerms hss, totalAt_ofTerms hts]

end Integers

/-- **Normalisation.** `ofTerms` brings any list of terms into normal form: the sorted list of the
sums that are not zero, whatever order a map lists its sums in. A monomial occurs with the sum of
its coefficients from left to right, zeros left out, if there is one and it is not zero. A normal
form stays as it is. Over the integers the sum is the total of all coefficients, the order of the
list does not matter, and parts of it can be brought into normal form first. -/
theorem ofTerms_normalises (ts : List Term) :
    (ofTerms ts).IsNormal ∧
      (∀ es us, es.Perm (tally ts) → (us = (ofTerms ts).terms ↔
        us.Perm (keptTerms es) ∧ us.Pairwise fun s t => s.order t ≠ .gt)) ∧
      (∀ t, t ∈ (ofTerms ts).terms ↔
        sumAt t.monomial ts = some t.coefficient ∧ t.coefficient.isZero = false) ∧
      ofTerms (ofTerms ts).terms = ofTerms ts ∧
      ((∀ t ∈ ts, t.coefficient.IsInt) →
        (∀ t, t ∈ (ofTerms ts).terms ↔
          t.coefficient = .int (totalAt t.monomial ts) ∧ totalAt t.monomial ts ≠ 0) ∧
        (∀ us, us.Perm ts → ofTerms us = ofTerms ts) ∧
        ∀ xs ys, ts = xs ++ ys →
          ofTerms ts = ofTerms ((ofTerms xs).terms ++ (ofTerms ys).terms)) := by
  refine ⟨isNormal_ofTerms ts, fun es us => eq_terms_ofTerms_iff, fun t => mem_ofTerms,
    ofTerms_terms (isNormal_ofTerms ts), fun hts => ⟨?_, fun us => ofTerms_perm hts, ?_⟩⟩
  · rintro ⟨c, m⟩
    constructor
    · intro hmem
      obtain ⟨i, rfl⟩ := isInt_of_mem_ofTerms hts _ hmem
      obtain ⟨rfl, hne⟩ := (mem_ofTerms_int hts).mp hmem
      exact ⟨rfl, hne⟩
    · intro h
      obtain ⟨rfl, hne⟩ : c = .int (totalAt m ts) ∧ totalAt m ts ≠ 0 := h
      exact (mem_ofTerms_int hts).mpr ⟨rfl, hne⟩
  · rintro xs ys rfl
    exact (ofTerms_append (fun t ht => hts t (List.mem_append_right xs ht))
      fun t ht => hts t (List.mem_append_left ys ht)).symm

/-- `2x`, `3`, `-2x`, `0y` and `5x`: the sum of `x` vanishes on the way and comes back. A map that
lists the constant first gives the same normal form. -/
theorem ofTerms_normalises_of_revived :
    let x := Monomial.var "x"
    let ts : List Term :=
      [⟨.int 2, x⟩, ⟨.int 3, .one⟩, ⟨.int (-2), x⟩, ⟨.int 0, .var "y"⟩, ⟨.int 5, x⟩]
    (∀ t ∈ ts, t.coefficient.IsInt) ∧ keptTerms (tally ts).reverse = [⟨.int 3, .one⟩, ⟨.int 5, x⟩] ∧
      (ofTerms ts).terms = [⟨.int 5, x⟩, ⟨.int 3, .one⟩] ∧ ofTerms ts.reverse = ofTerms ts := by
  intro x ts
  have hts : ∀ t ∈ ts, t.coefficient.IsInt := by
    simp [ts, Number.isInt_int]
  obtain ⟨-, hsorted, -, -, hints⟩ := ofTerms_normalises ts
  have hkept : keptTerms (tally ts).reverse = [⟨.int 3, .one⟩, ⟨.int 5, x⟩] := by rfl
  have hterms : [⟨.int 5, x⟩, ⟨.int 3, .one⟩] = (ofTerms ts).terms := by
    refine (hsorted _ _ (tally ts).reverse_perm).mpr ⟨?_, by decide⟩
    rw [hkept]
    exact List.Perm.swap _ _ _
  exact ⟨hts, hkept, hterms.symm, (hints hts).2.1 _ ts.reverse_perm⟩

end Polynomial

end PolyCalc
