import Mathlib.Data.List.Induction
import Mathlib.Data.List.Sort
import PolyCalc.Polynomial

/-!
# What a normal form holds

`Polynomial.ofTerms` collects like terms in a tree and lists the tree. Here its result is read
off without the tree: a monomial occurs in it if the coefficients found at that monomial, added
from left to right, give a sum that is not zero, and then with that sum (`mem_ofTerms`); and
monomials strictly ascend (`ofTerms_before`).

Both together determine the list, because a strictly ascending list is determined by its members.
So two normal forms with the same terms are the same one (`IsNormal.ext`), and bringing a normal
form into normal form changes nothing (`ofTerms_terms`).
-/

namespace PolyCalc

/-! ## Terms in order -/

/-- The monomial of `s` stands strictly before the one of `t`. -/
def Term.Before (s t : Term) : Prop := s.monomial.order t.monomial = .lt

namespace Term

theorem Before.ne {s t : Term} (h : s.Before t) : s.monomial ≠ t.monomial := by
  intro heq
  have hself : t.monomial.order t.monomial = .eq := Std.ReflCmp.compare_self
  rw [Before, heq, hself] at h
  cases h

instance : Std.Irrefl Before where
  irrefl _ h := h.ne rfl

instance : Std.Antisymm Before where
  antisymm s t h h' := by
    have hgt := Std.OrientedCmp.gt_of_lt h
    rw [Before, hgt] at h'
    cases h'

/-- Of two constants neither has a variable, so they share their monomial. -/
theorem monomial_eq_of_isConstant {s t : Term} (hs : s.isConstant = true)
    (ht : t.isConstant = true) : s.monomial = t.monomial := by
  obtain ⟨_, ⟨as⟩⟩ := s
  obtain ⟨_, ⟨bs⟩⟩ := t
  simp only [isConstant, Monomial.isConstant, List.isEmpty_iff] at hs ht
  rw [hs, ht]

/-- On different monomials the order of terms does not look at coefficients. -/
theorem order_of_ne {s t : Term} (h : s.monomial ≠ t.monomial) :
    s.order t = s.monomial.order t.monomial := by
  unfold order
  split
  · next hc =>
      rw [Bool.and_eq_true] at hc
      exact absurd (monomial_eq_of_isConstant hc.1 hc.2) h
  · rfl

theorem order_eq_lt_iff {s t : Term} (h : s.monomial ≠ t.monomial) :
    s.order t = .lt ↔ s.Before t := by
  rw [order_of_ne h, Before]

end Term

namespace Polynomial

/-- The normal form: no coefficient is zero, no monomial occurs twice, and every term stands
before all that come after it. -/
structure IsNormal (p : Polynomial) : Prop where
  nonzero : ∀ t ∈ p.terms, t.coefficient.isZero = false
  distinct : p.terms.Pairwise fun s t => s.monomial ≠ t.monomial
  ascending : p.terms.Pairwise fun s t => s.order t = .lt

theorem IsNormal.before {p : Polynomial} (h : p.IsNormal) : p.terms.Pairwise Term.Before :=
  (h.distinct.and h.ascending).imp fun ⟨hne, hlt⟩ => (Term.order_eq_lt_iff hne).mp hlt

theorem isNormal_of_before {p : Polynomial}
    (hnonzero : ∀ t ∈ p.terms, t.coefficient.isZero = false)
    (hbefore : p.terms.Pairwise Term.Before) : p.IsNormal where
  nonzero := hnonzero
  distinct := hbefore.imp fun h => h.ne
  ascending := hbefore.imp fun h => (Term.order_eq_lt_iff h.ne).mpr h

theorem IsNormal.of_append {ss ts : List Term} (h : IsNormal ⟨ss ++ ts⟩) : IsNormal ⟨ss⟩ :=
  isNormal_of_before (fun t ht => h.nonzero t (List.mem_append_left ts ht))
    (List.pairwise_append.mp h.before).1

theorem IsNormal.ext {p q : Polynomial} (hp : p.IsNormal) (hq : q.IsNormal)
    (h : ∀ t, t ∈ p.terms ↔ t ∈ q.terms) : p = q := by
  have hterms : p.terms = q.terms := hp.before.eq_of_mem_iff hq.before h
  obtain ⟨ss⟩ := p
  obtain ⟨ts⟩ := q
  exact congrArg Polynomial.mk hterms

/-! ## Sums at a monomial -/

/-- The coefficients at a monomial that are not zero, in the order in which they arrive. -/
def coefficientsAt (m : Monomial) (ts : List Term) : List Number :=
  (ts.filter fun t => decide (t.monomial = m) && !t.coefficient.isZero).map Term.coefficient

/-- The sum of numbers from left to right, if there are any. -/
def leftSum : List Number → Option Number
  | [] => none
  | c :: cs => some (cs.foldl (fun sum d => sum + d) c)

def sumAt (m : Monomial) (ts : List Term) : Option Number := leftSum (coefficientsAt m ts)

theorem coefficientsAt_append (m : Monomial) (ss ts : List Term) :
    coefficientsAt m (ss ++ ts) = coefficientsAt m ss ++ coefficientsAt m ts := by
  simp only [coefficientsAt, List.filter_append, List.map_append]

theorem coefficientsAt_single (m : Monomial) (t : Term) :
    coefficientsAt m [t] =
      if t.monomial = m ∧ t.coefficient.isZero = false then [t.coefficient] else [] := by
  by_cases hm : t.monomial = m <;> cases hz : t.coefficient.isZero <;>
    simp [coefficientsAt, hm, hz]

theorem coefficientsAt_cons (m : Monomial) (t : Term) (ts : List Term) :
    coefficientsAt m (t :: ts) = coefficientsAt m [t] ++ coefficientsAt m ts :=
  coefficientsAt_append m [t] ts

theorem coefficientsAt_eq_nil {m : Monomial} {ts : List Term} (h : ∀ t ∈ ts, t.monomial ≠ m) :
    coefficientsAt m ts = [] := by
  rw [coefficientsAt, List.filter_eq_nil_iff.mpr, List.map_nil]
  intro t ht
  simp [h t ht]

theorem exists_mem_of_mem_coefficientsAt {m : Monomial} {ts : List Term} {c : Number}
    (hc : c ∈ coefficientsAt m ts) : ∃ t ∈ ts, t.monomial = m ∧ t.coefficient = c := by
  simp only [coefficientsAt, List.mem_map, List.mem_filter, Bool.and_eq_true,
    decide_eq_true_eq] at hc
  obtain ⟨t, ⟨ht, hm, -⟩, hc⟩ := hc
  exact ⟨t, ht, hm, hc⟩

theorem leftSum_append_single (cs : List Number) (c : Number) :
    leftSum (cs ++ [c]) = some ((leftSum cs).elim c fun s => s + c) := by
  cases cs with
  | nil => rfl
  | cons d ds => simp only [List.cons_append, leftSum, List.foldl_append, List.foldl_cons,
      List.foldl_nil, Option.elim_some]

/-- Whatever keeps coefficients by monomial holds the sums of a list of terms after taking them
up one by one, if it skips a zero, starts with the first coefficient at a monomial and adds every
later one to what it holds there. -/
theorem get_foldl_eq_sumAt {σ : Type} (get : σ → Monomial → Option Number)
    {step : σ → Term → σ} {init : σ} (hinit : ∀ m, get init m = none)
    (hstep : ∀ s t m, get (step s t) m =
      if t.monomial = m ∧ t.coefficient.isZero = false then
        some ((get s m).elim t.coefficient fun c => c + t.coefficient)
      else get s m)
    (ts : List Term) (m : Monomial) : get (ts.foldl step init) m = sumAt m ts := by
  induction ts using List.reverseRecOn with
  | nil => rw [List.foldl_nil, hinit]; rfl
  | append_singleton ts t ih =>
      rw [List.foldl_append, List.foldl_cons, List.foldl_nil, hstep, ih, sumAt, sumAt,
        coefficientsAt_append, coefficientsAt_single]
      split
      · rw [leftSum_append_single]
      · rw [List.append_nil]

/-- The tree that `ofTerms` builds holds the sum at every monomial. -/
theorem getElem?_foldl_accumulate (ts : List Term) (m : Monomial) :
    (ts.foldl accumulate ∅)[m]? = sumAt m ts := by
  refine get_foldl_eq_sumAt (fun sums m => sums[m]?) (fun m => by simp) ?_ ts m
  intro sums t m
  unfold accumulate
  cases hz : t.coefficient.isZero with
  | true => simp
  | false =>
      rw [if_neg nofun, Std.TreeMap.getElem?_alter]
      by_cases hm : t.monomial = m
      · rw [hm, if_pos Std.ReflCmp.compare_self, if_pos ⟨rfl, rfl⟩]
        cases sums[m]? <;> rfl
      · rw [if_neg fun heq => hm (Std.LawfulEqCmp.eq_of_compare heq), if_neg fun h => hm h.1]

/-! ## The members of a normal form -/

/-- A term is in the normal form of a list if its coefficient is the sum at its monomial and that
sum is not zero. -/
theorem mem_ofTerms {ts : List Term} {t : Term} :
    t ∈ (ofTerms ts).terms ↔
      sumAt t.monomial ts = some t.coefficient ∧ t.coefficient.isZero = false := by
  simp only [ofTerms, List.mem_map, List.mem_filter, Bool.not_eq_eq_eq_not, Bool.not_true]
  constructor
  · rintro ⟨⟨m, c⟩, ⟨hmem, hz⟩, rfl⟩
    rw [Std.TreeMap.mem_toList_iff_getElem?_eq_some, getElem?_foldl_accumulate] at hmem
    exact ⟨hmem, hz⟩
  · rintro ⟨hsum, hz⟩
    refine ⟨(t.monomial, t.coefficient), ⟨?_, hz⟩, rfl⟩
    rw [Std.TreeMap.mem_toList_iff_getElem?_eq_some, getElem?_foldl_accumulate]
    exact hsum

theorem coefficientsAt_of_mem_ofTerms {ts : List Term} {t : Term} (ht : t ∈ (ofTerms ts).terms) :
    ∃ c cs, coefficientsAt t.monomial ts = c :: cs ∧
      cs.foldl (fun sum d => sum + d) c = t.coefficient := by
  have hsum := (mem_ofTerms.mp ht).1
  unfold sumAt at hsum
  cases hcs : coefficientsAt t.monomial ts with
  | nil => rw [hcs] at hsum; cases hsum
  | cons c cs =>
      rw [hcs] at hsum
      exact ⟨c, cs, rfl, Option.some.inj hsum⟩

theorem ofTerms_before (ts : List Term) : (ofTerms ts).terms.Pairwise Term.Before :=
  List.pairwise_map.mpr (Std.TreeMap.ordered_keys_toList.filter _)

theorem isNormal_ofTerms (ts : List Term) : (ofTerms ts).IsNormal :=
  isNormal_of_before (fun _ ht => (mem_ofTerms.mp ht).2) (ofTerms_before ts)

/-- Where monomials do not repeat, a sum that is not zero is the coefficient of one term. -/
theorem sumAt_eq_some_iff {ts : List Term} (hd : ts.Pairwise fun s t => s.monomial ≠ t.monomial)
    {m : Monomial} {c : Number} (hc : c.isZero = false) :
    sumAt m ts = some c ↔ (⟨c, m⟩ : Term) ∈ ts := by
  induction ts with
  | nil => simp [sumAt, coefficientsAt, leftSum]
  | cons t ts ih =>
      obtain ⟨hne, hd'⟩ := List.pairwise_cons.mp hd
      rw [sumAt, coefficientsAt_cons, coefficientsAt_single, List.mem_cons]
      by_cases hm : t.monomial = m
      · have hrest : coefficientsAt m ts = [] :=
          coefficientsAt_eq_nil fun u hu heq => hne u hu (hm.trans heq.symm)
        rw [hrest, List.append_nil, or_iff_left fun hmem => hne _ hmem hm]
        obtain ⟨d, n⟩ := t
        subst hm
        cases hz : d.isZero with
        | true =>
            rw [if_neg (by simp)]
            constructor
            · intro h
              cases h
            · intro h
              rw [(Term.mk.inj h).1, hz] at hc
              cases hc
        | false => simp [leftSum, eq_comm]
      · rw [if_neg fun h => hm h.1, List.nil_append, ← sumAt, ih hd']
        exact ⟨Or.inr, fun h => h.resolve_left fun heq => hm (heq ▸ rfl)⟩

theorem ofTerms_terms {p : Polynomial} (hp : p.IsNormal) : ofTerms p.terms = p := by
  refine (isNormal_ofTerms _).ext hp fun t => ?_
  rw [mem_ofTerms]
  constructor
  · rintro ⟨hsum, hz⟩
    exact (sumAt_eq_some_iff hp.distinct hz).mp hsum
  · intro ht
    have hz := hp.nonzero t ht
    exact ⟨(sumAt_eq_some_iff hp.distinct hz).mpr ht, hz⟩

theorem terms_ofTerm (t : Term) :
    (ofTerm t).terms = if t.coefficient.isZero then [] else [t] := by
  cases hz : t.coefficient.isZero with
  | true =>
      rw [if_pos rfl, List.eq_nil_iff_forall_not_mem]
      intro u hu
      have hsum := (mem_ofTerms.mp hu).1
      rw [sumAt, coefficientsAt_single, if_neg (by simp [hz])] at hsum
      cases hsum
  | false =>
      have hnormal : IsNormal ⟨[t]⟩ :=
        isNormal_of_before (by simpa using hz) (List.pairwise_singleton _ _)
      rw [ofTerm, ofTerms_terms hnormal, if_neg nofun]

end Polynomial

end PolyCalc
