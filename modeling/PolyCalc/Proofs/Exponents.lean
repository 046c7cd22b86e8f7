import PolyCalc.Proofs.Invariants

/-!
# The exponents that operations form

A product of monomials adds the exponents of every shared name, and a power of a monomial
multiplies all of its exponents. Nothing else touches an exponent. This file says which monomials
an operation on values multiplies and raises (`Operator.Multiplies`, `Operator.Raises`), following
the operations through rows of products and repeated products, and from there which exponents are
formed on the way (`Operator.Forms`).

Forming an exponent beyond the limit is the one reason to refuse a product. For sorted factors the
converse holds too, so a product is there exactly if all of its pairs of monomials fit
(`Value.mul_isOk_iff`). What is formed is therefore within the limit whenever the operation gives a
value (`Operator.Forms.le_of_ok`), and an exponent that is refused has been formed
(`Operator.exists_forms_of_error`).
-/

namespace PolyCalc

/-! ## Monomials -/

namespace Monomial

/-- The exponents of a name that both monomials hold add up to one within the limit. -/
def Fits (a b : Monomial) : Prop :=
  ∀ x d e, (x, d) ∈ a.factors → (x, e) ∈ b.factors → d + e ≤ maxExponent

theorem Fits.symm {a b : Monomial} (h : a.Fits b) : b.Fits a :=
  fun x d e hd he => Nat.add_comm d e ▸ h x e d he hd

theorem fits_of_isConstant {a b : Monomial} (h : a.isConstant = true) : a.Fits b := by
  obtain ⟨as⟩ := a
  obtain rfl : as = [] := List.isEmpty_iff.mp h
  intro _ _ _ hd
  cases hd

/-- Two factors of one name whose exponents add up to more than the limit. -/
def Overflow (x : String) (as bs : List (String × Nat)) : Prop :=
  ∃ d e, (x, d) ∈ as ∧ (x, e) ∈ bs ∧ maxExponent < d + e

theorem Overflow.mono {x : String} {as bs as' bs' : List (String × Nat)} (h : Overflow x as bs)
    (has : ∀ f ∈ as, f ∈ as') (hbs : ∀ f ∈ bs, f ∈ bs') : Overflow x as' bs' := by
  obtain ⟨d, e, hd, he, hlt⟩ := h
  exact ⟨d, e, has _ hd, hbs _ he, hlt⟩

theorem checkExponent_eq_error {x : String} {n : Nat} {r : Refusal} :
    checkExponent x n = .error r ↔ maxExponent < n ∧ r = .exponentTooLarge x := by
  unfold checkExponent
  split
  · next hle => simp [hle]
  · next hlt => simp [Nat.lt_of_not_le hlt, eq_comm]

/-- How merging two lists of factors stops at a name: up to there everything is merged, and the
exponents of that name add up to more than the limit. -/
inductive StopsAt (x : String) : (as bs : List (String × Nat)) → Prop
  | here {d e : Nat} (as bs : List (String × Nat)) (hlt : maxExponent < d + e) :
      StopsAt x ((x, d) :: as) ((x, e) :: bs)
  | left {a b : String × Nat} {as bs : List (String × Nat)} (hlt : a.1 < b.1)
      (rest : StopsAt x as (b :: bs)) : StopsAt x (a :: as) (b :: bs)
  | right {a b : String × Nat} {as bs : List (String × Nat)} (hlt : b.1 < a.1)
      (rest : StopsAt x (a :: as) bs) : StopsAt x (a :: as) (b :: bs)
  | shared {y : String} {d e : Nat} {as bs : List (String × Nat)} (hle : d + e ≤ maxExponent)
      (rest : StopsAt x as bs) : StopsAt x ((y, d) :: as) ((y, e) :: bs)

theorem StopsAt.overflow {x : String} {as bs : List (String × Nat)} (h : StopsAt x as bs) :
    Overflow x as bs := by
  induction h with
  | here _ _ hlt => exact ⟨_, _, List.mem_cons_self .., List.mem_cons_self .., hlt⟩
  | left _ _ ih => exact ih.mono (fun _ => List.mem_cons_of_mem _) fun _ => id
  | right _ _ ih => exact ih.mono (fun _ => id) fun _ => List.mem_cons_of_mem _
  | shared _ _ ih =>
      exact ih.mono (fun _ => List.mem_cons_of_mem _) fun _ => List.mem_cons_of_mem _

/-- Merging one factor is only refused over a shared name, by itself or in what comes after. -/
theorem stopsAt_of_mergeFactor {a : String × Nat} {as : List (String × Nat)}
    {rest : List (String × Nat) → Except Refusal (List (String × Nat))}
    (hrest : ∀ {bs r}, rest bs = .error r →
      ∃ x, r = .exponentTooLarge x ∧ StopsAt x as bs) :
    ∀ {bs r}, mergeFactor a as rest bs = .error r →
      ∃ x, r = .exponentTooLarge x ∧ StopsAt x (a :: as) bs
  | [], _, h => by cases h
  | b :: bs, r, h => by
      unfold mergeFactor at h
      split at h
      · next hcmp =>
          rcases bind_eq_error.mp h with h | ⟨_, -, h⟩
          · obtain ⟨x, rfl, hx⟩ := hrest h
            exact ⟨x, rfl, .left (compare_lt_iff_lt.mp hcmp) hx⟩
          · cases h
      · next hcmp =>
          obtain ⟨x, d⟩ := a
          obtain ⟨y, e⟩ := b
          obtain rfl : x = y := compare_eq_iff_eq.mp hcmp
          rcases bind_eq_error.mp h with h | ⟨_, hcheck, h⟩
          · obtain ⟨hlt, rfl⟩ := checkExponent_eq_error.mp h
            exact ⟨x, rfl, .here as bs hlt⟩
          · rcases bind_eq_error.mp h with h | ⟨_, -, h⟩
            · obtain ⟨z, rfl, hz⟩ := hrest h
              exact ⟨z, rfl, .shared (checkExponent_eq_ok.mp hcheck).1 hz⟩
            · cases h
      · next hcmp =>
          rcases bind_eq_error.mp h with h | ⟨_, -, h⟩
          · obtain ⟨x, rfl, hx⟩ := stopsAt_of_mergeFactor hrest h
            exact ⟨x, rfl, .right (compare_gt_iff_gt.mp hcmp) hx⟩
          · cases h

theorem stopsAt_of_mergeFactors : ∀ {as bs : List (String × Nat)} {r : Refusal},
    mergeFactors as bs = .error r → ∃ x, r = .exponentTooLarge x ∧ StopsAt x as bs
  | [], _, _, h => by cases h
  | _ :: _, _, _, h => stopsAt_of_mergeFactor (fun h' => stopsAt_of_mergeFactors h') h

theorem stopsAt_of_mul {a b : Monomial} {r : Refusal} (h : a.mul b = .error r) :
    ∃ x, r = .exponentTooLarge x ∧ StopsAt x a.factors b.factors :=
  stopsAt_of_mergeFactors (map_eq_error.mp h)

theorem mul_eq_error {a b : Monomial} {r : Refusal} (h : a.mul b = .error r) :
    ∃ x, r = .exponentTooLarge x ∧ Overflow x a.factors b.factors := by
  obtain ⟨x, hr, hx⟩ := stopsAt_of_mul h
  exact ⟨x, hr, hx.overflow⟩

/-! In sorted lists a factor whose name comes before all names of the other list shares its name
with none of them, and two first factors of one name share it with each other only. -/

theorem mem_tail_of_lt {x : String} {d e : Nat} {a b : String × Nat} {as bs : List (String × Nat)}
    (hlt : a.1 < b.1) (hbs : (b :: bs).Pairwise fun f g => f.1 < g.1) (hd : (x, d) ∈ a :: as)
    (he : (x, e) ∈ b :: bs) : (x, d) ∈ as := by
  rcases List.mem_cons.mp hd with rfl | hd
  · rcases List.mem_cons.mp he with rfl | he
    · exact absurd hlt (lt_irrefl x)
    · exact absurd (hlt.trans ((List.pairwise_cons.mp hbs).1 _ he)) (lt_irrefl x)
  · exact hd

theorem heads_or_tails {x y : String} {d e d' e' : Nat} {as bs : List (String × Nat)}
    (has : ((y, d') :: as).Pairwise fun f g => f.1 < g.1)
    (hbs : ((y, e') :: bs).Pairwise fun f g => f.1 < g.1) (hd : (x, d) ∈ (y, d') :: as)
    (he : (x, e) ∈ (y, e') :: bs) : (d = d' ∧ e = e') ∨ ((x, d) ∈ as ∧ (x, e) ∈ bs) := by
  rcases List.mem_cons.mp hd with heq | hd' <;> rcases List.mem_cons.mp he with heq' | he'
  · exact Or.inl ⟨(Prod.mk.inj heq).2, (Prod.mk.inj heq').2⟩
  · obtain ⟨rfl, -⟩ := Prod.mk.inj heq
    exact absurd rfl ((List.pairwise_cons.mp hbs).1 _ he').ne
  · obtain ⟨rfl, -⟩ := Prod.mk.inj heq'
    exact absurd rfl ((List.pairwise_cons.mp has).1 _ hd').ne
  · exact Or.inr ⟨hd', he'⟩

/-- In sorted lists no shared name is missed, so a merge has added the exponents of all of them. -/
theorem Merges.fits {as bs cs : List (String × Nat)} (h : Merges as bs cs)
    (has : as.Pairwise fun f g => f.1 < g.1) (hbs : bs.Pairwise fun f g => f.1 < g.1) :
    Fits ⟨as⟩ ⟨bs⟩ := by
  induction h with
  | leftDone => exact fun _ _ _ hd => by cases hd
  | rightDone => exact fun _ _ _ _ he => by cases he
  | left hlt _ ih =>
      exact fun x d e hd he => ih has.of_cons hbs x d e (mem_tail_of_lt hlt hbs hd he) he
  | right hlt _ ih =>
      exact fun x d e hd he => ih has hbs.of_cons x d e hd (mem_tail_of_lt hlt has he hd)
  | shared hle _ ih =>
      intro x d e hd he
      rcases heads_or_tails has hbs hd he with ⟨rfl, rfl⟩ | ⟨hd, he⟩
      · exact hle
      · exact ih has.of_cons hbs.of_cons x d e hd he

theorem mul_isOk_iff {a b : Monomial} (ha : a.IsCanonical) (hb : b.IsCanonical) :
    (∃ c, a.mul b = .ok c) ↔ a.Fits b := by
  constructor
  · rintro ⟨c, hc⟩
    exact (merges_of_mul hc).fits ha.1 hb.1
  · refine fun h => exists_eq_ok fun r hr => ?_
    obtain ⟨x, -, d, e, hd, he, hlt⟩ := mul_eq_error hr
    exact absurd (h x d e hd he) (Nat.not_le_of_lt hlt)

/-- Raising a monomial is refused over one of its exponents. -/
theorem pow_eq_error {m : Monomial} {n : Nat} {r : Refusal} (h : m.pow n = .error r) :
    n ≠ 0 ∧ ∃ x e, r = .exponentTooLarge x ∧ (x, e) ∈ m.factors ∧ maxExponent < e * n := by
  unfold pow at h
  split at h
  · cases h
  · next hn =>
      refine ⟨hn, ?_⟩
      rcases bind_eq_error.mp h with h | ⟨_, -, h⟩
      · obtain ⟨⟨x, e⟩, hmem, h⟩ := exists_mem_of_mapM_eq_error h
        rcases bind_eq_error.mp h with h | ⟨_, -, h⟩
        · obtain ⟨hlt, rfl⟩ := checkExponent_eq_error.mp h
          exact ⟨x, e, rfl, hmem, hlt⟩
        · cases h
      · cases h

end Monomial

/-! ## Products -/

namespace Polynomial

/-- Distributing a polynomial over a value multiplies each monomial of the one with each of the
other. -/
def Multiplies (p : Polynomial) (v : Value) (a b : Monomial) : Prop :=
  ∃ s ∈ p.terms, ∃ t ∈ v.terms, s.monomial = a ∧ t.monomial = b

theorem exists_mul_eq_error {p : Polynomial} {v : Value} {r : Refusal} (h : p.mul v = .error r) :
    ∃ a b, p.Multiplies v a b ∧ a.mul b = .error r := by
  rcases bind_eq_error.mp h with h | ⟨_, -, h⟩
  · obtain ⟨⟨s, t⟩, hmem, h⟩ := exists_mem_of_mapM_eq_error h
    obtain ⟨s', hs, hmem⟩ := List.mem_flatMap.mp hmem
    obtain ⟨t', ht, heq⟩ := List.mem_map.mp hmem
    obtain ⟨rfl, rfl⟩ := Prod.mk.inj heq
    rcases bind_eq_error.mp h with h | ⟨_, -, h⟩
    · exact ⟨_, _, ⟨s', hs, t', ht, rfl, rfl⟩, h⟩
    · cases h
  · cases h

theorem mul_isOk_iff {p : Polynomial} {v : Value} :
    (∃ u, p.mul v = .ok u) ↔ ∀ a b, p.Multiplies v a b → ∃ c, a.mul b = .ok c := by
  constructor
  · rintro ⟨u, hu⟩ a b ⟨s, hs, t, ht, rfl, rfl⟩
    obtain ⟨us, hus, -⟩ := mul_eq_ok.mp hu
    have hpair : (s, t) ∈ p.terms.flatMap fun s => v.terms.map fun t => (s, t) :=
      List.mem_flatMap.mpr ⟨s, hs, List.mem_map.mpr ⟨t, ht, rfl⟩⟩
    obtain ⟨x, -, hx⟩ := exists_mem_of_forall₂ (products_eq_ok.mp hus).flip hpair
    obtain ⟨m, hm, -⟩ := Term.mul_eq_ok.mp hx
    exact ⟨m, hm⟩
  · refine fun h => exists_eq_ok fun r hr => ?_
    obtain ⟨a, b, hab, herr⟩ := exists_mul_eq_error hr
    obtain ⟨c, hc⟩ := h a b hab
    rw [hc] at herr
    cases herr

/-- Expanding multiplies in rounds: what a round makes is distributed in the next one. -/
def ExpandMultiplies (p : Polynomial) : Nat → Value → Monomial → Monomial → Prop
  | 0, _, _, _ => False
  | n + 1, v, a, b => v.toPolynomial.Multiplies (.poly p) a b ∨
      ∃ u, v.toPolynomial.mul (.poly p) = .ok u ∧ p.ExpandMultiplies n u a b

theorem exists_expand_eq_error {p : Polynomial} : ∀ {n : Nat} {v : Value} {r : Refusal},
    p.expand n v = .error r → ∃ a b, p.ExpandMultiplies n v a b ∧ a.mul b = .error r
  | 0, _, _, h => by cases h
  | n + 1, v, r, h => by
      rcases bind_eq_error.mp h with h | ⟨u, hu, h⟩
      · obtain ⟨a, b, hab, herr⟩ := exists_mul_eq_error h
        exact ⟨a, b, Or.inl hab, herr⟩
      · obtain ⟨a, b, hab, herr⟩ := exists_expand_eq_error h
        exact ⟨a, b, Or.inr ⟨u, hu, hab⟩, herr⟩

theorem exists_mul_eq_ok_of_expand {p : Polynomial} : ∀ {n : Nat} {v w : Value} {a b : Monomial},
    p.expand n v = .ok w → p.ExpandMultiplies n v a b → ∃ c, a.mul b = .ok c
  | 0, _, _, _, _, _, h => h.elim
  | n + 1, v, w, a, b, hw, h => by
      obtain ⟨u, hu, hw⟩ := bind_eq_ok.mp hw
      rcases h with h | ⟨u', hu', h⟩
      · exact mul_isOk_iff.mp ⟨u, hu⟩ a b h
      · obtain rfl := Except.ok.inj (hu.symm.trans hu')
        exact exists_mul_eq_ok_of_expand hw h

end Polynomial

namespace Value

/-- The monomials that a product of values multiplies. A term on the left of a polynomial takes
part as it is normalised, any other operand as it is held. -/
def Multiplies : Value → Value → Monomial → Monomial → Prop
  | .term s, .term t, a, b => s.monomial = a ∧ t.monomial = b
  | .poly p, w, a, b => p.Multiplies w a b
  | .term s, .poly q, a, b => (Polynomial.ofTerm s).Multiplies (.poly q) a b

/-- A term of the normal form on the left meets every term that is held on the right. -/
theorem multiplies_of_mem {v w : Value} {s t : Term} (hs : s ∈ v.toPolynomial.terms)
    (ht : t ∈ w.terms) : v.Multiplies w s.monomial t.monomial := by
  cases v with
  | poly p => exact ⟨s, hs, t, ht, rfl, rfl⟩
  | term s' =>
      cases w with
      | poly q => exact ⟨s, hs, t, ht, rfl, rfl⟩
      | term t' =>
          obtain rfl := List.mem_singleton.mp (mem_terms_of_mem_toPolynomial hs)
          obtain rfl := List.mem_singleton.mp ht
          exact ⟨rfl, rfl⟩

/-- Only monomials that the operands hold are multiplied. -/
theorem Multiplies.exists_mem {v w : Value} {a b : Monomial} (h : v.Multiplies w a b) :
    (∃ s ∈ v.terms, s.monomial = a) ∧ ∃ t ∈ w.terms, t.monomial = b := by
  cases v with
  | poly p =>
      obtain ⟨s, hs, t, ht, hsa, htb⟩ := h
      exact ⟨⟨s, hs, hsa⟩, t, ht, htb⟩
  | term s =>
      cases w with
      | poly q =>
          obtain ⟨s', hs, t, ht, hsa, htb⟩ := h
          exact ⟨⟨s', mem_terms_of_mem_toPolynomial hs, hsa⟩, t, ht, htb⟩
      | term t =>
          exact ⟨⟨s, List.mem_singleton.mpr rfl, h.1⟩, t, List.mem_singleton.mpr rfl, h.2⟩

theorem exists_mul_eq_error {v w : Value} {r : Refusal} (h : v.mul w = .error r) :
    ∃ a b, v.Multiplies w a b ∧ a.mul b = .error r := by
  cases v with
  | poly p => exact Polynomial.exists_mul_eq_error h
  | term s =>
      cases w with
      | poly q => exact Polynomial.exists_mul_eq_error h
      | term t =>
          rcases bind_eq_error.mp (map_eq_error.mp h) with h | ⟨_, -, h⟩
          · exact ⟨s.monomial, t.monomial, ⟨rfl, rfl⟩, h⟩
          · cases h

theorem mul_isOk_iff {v w : Value} :
    (∃ u, v.mul w = .ok u) ↔ ∀ a b, v.Multiplies w a b → ∃ c, a.mul b = .ok c := by
  constructor
  · rintro ⟨u, hu⟩
    cases v with
    | poly p => exact Polynomial.mul_isOk_iff.mp ⟨u, hu⟩
    | term s =>
        cases w with
        | poly q => exact Polynomial.mul_isOk_iff.mp ⟨u, hu⟩
        | term t =>
            obtain ⟨x, hx, -⟩ := map_eq_ok.mp hu
            obtain ⟨m, hm, -⟩ := Term.mul_eq_ok.mp hx
            rintro a b ⟨rfl, rfl⟩
            exact ⟨m, hm⟩
  · refine fun h => exists_eq_ok fun r hr => ?_
    obtain ⟨a, b, hab, herr⟩ := exists_mul_eq_error hr
    obtain ⟨c, hc⟩ := h a b hab
    rw [hc] at herr
    cases herr

theorem mul_eq_error {v w : Value} {r : Refusal} (h : v.mul w = .error r) :
    ∃ x, r = .exponentTooLarge x := by
  obtain ⟨a, b, -, herr⟩ := exists_mul_eq_error h
  obtain ⟨x, rfl, -⟩ := Monomial.mul_eq_error herr
  exact ⟨x, rfl⟩

theorem IsSupported.toPolynomial {v : Value} (hv : v.IsSupported) :
    ∀ t ∈ v.toPolynomial.terms, t.monomial.IsSupported :=
  fun t ht => (closed_isSupported.toPolynomial (fun u hu => ⟨trivial, hv u hu⟩) t ht).2

theorem Multiplies.isSupported {v w : Value} {a b : Monomial} (h : v.Multiplies w a b)
    (hv : v.IsSupported) (hw : w.IsSupported) : a.IsSupported ∧ b.IsSupported := by
  obtain ⟨⟨s, hs, rfl⟩, t, ht, rfl⟩ := h.exists_mem
  exact ⟨hv s hs, hw t ht⟩

/-- On supported values a product is there exactly if the exponents of all pairs of monomials
that it multiplies fit. -/
theorem mul_isOk_iff_fits {v w : Value} (hv : v.IsSupported) (hw : w.IsSupported) :
    (∃ u, v.mul w = .ok u) ↔ ∀ a b, v.Multiplies w a b → a.Fits b := by
  rw [mul_isOk_iff]
  refine forall₂_congr fun a b => imp_congr_right fun hab => ?_
  obtain ⟨ha, hb⟩ := hab.isSupported hv hw
  exact Monomial.mul_isOk_iff ha.1 hb.1

end Value

/-! ## Powers -/

namespace Operator

/-- The monomials that are multiplied while an operator is applied. A power multiplies monomials
only if it is expanded, which starts from the identity. -/
inductive Multiplies : Operator → Value → Value → Monomial → Monomial → Prop
  | mul {v w : Value} {a b : Monomial} (h : v.Multiplies w a b) : Multiplies .mul v w a b
  | expand {p : Polynomial} {w : Value} {e c : Number} {n : Nat} {a b : Monomial}
      (he : w.constant? = some e) (hn : e.toExponent = .ok n) (hc : Number.one.pow e = .ok c)
      (hmany : 2 ≤ p.terms.length) (hle : n ≤ maxExpansionPower)
      (h : p.ExpandMultiplies n (.term (.constant c)) a b) : Multiplies .pow (.poly p) w a b

/-- The monomial that is raised while an operator is applied, and its exponent. Only a single term,
in either shape, is raised in closed form. -/
inductive Raises : Operator → Value → Value → Monomial → Nat → Prop
  | pow {v w : Value} {t : Term} {e : Number} {n : Nat} (ht : v.terms = [t])
      (he : w.constant? = some e) (hn : e.toExponent = .ok n) : Raises .pow v w t.monomial n

/-- The exponents that are formed while an operator is applied: sums for the names that two
multiplied monomials share, and multiples for every name of a raised one. -/
inductive Forms (op : Operator) (v w : Value) : Nat → Prop
  | sum {a b : Monomial} {x : String} {d e : Nat} (h : op.Multiplies v w a b)
      (hd : (x, d) ∈ a.factors) (he : (x, e) ∈ b.factors) : Forms op v w (d + e)
  | multiple {m : Monomial} {n : Nat} {x : String} {e : Nat} (h : op.Raises v w m n)
      (he : (x, e) ∈ m.factors) : Forms op v w (e * n)

end Operator

theorem Polynomial.ExpandMultiplies.isSupported {p : Polynomial}
    (hp : ∀ t ∈ p.terms, t.monomial.IsSupported) : ∀ {n : Nat} {v : Value} {a b : Monomial},
    v.IsSupported → p.ExpandMultiplies n v a b → a.IsSupported ∧ b.IsSupported
  | 0, _, _, _, _, h => h.elim
  | n + 1, v, a, b, hv, h => by
      have hpoly : (Value.poly p).IsSupported := hp
      rcases h with ⟨s, hs, t, ht, rfl, rfl⟩ | ⟨u, hu, h⟩
      · exact ⟨hv.toPolynomial s hs, hp t ht⟩
      · have hmeets := closed_isSupported.mulPolynomial
          (fun t ht => ⟨trivial, hv.toPolynomial t ht⟩) (fun t ht => ⟨trivial, hpoly t ht⟩) hu
        exact h.isSupported hp fun t ht => (hmeets t ht).2

theorem Number.le_of_toExponent {e : Number} {n : Nat} (h : e.toExponent = .ok n) :
    n ≤ Monomial.maxExponent := by
  unfold toExponent at h
  split at h
  · split at h
    · obtain rfl := Except.ok.inj h
      omega
    · cases h
  · cases h

namespace Operator

theorem Multiplies.isSupported {op : Operator} {v w : Value} {a b : Monomial}
    (h : op.Multiplies v w a b) (hv : v.IsSupported) (hw : w.IsSupported) :
    a.IsSupported ∧ b.IsSupported := by
  cases h with
  | mul h => exact h.isSupported hv hw
  | @expand p w e c n a b _ _ _ _ _ h =>
      have hidentity : (Value.term (.constant c)).IsSupported :=
        List.forall_mem_singleton.mpr Monomial.isSupported_one
      exact h.isSupported hv hidentity

theorem Raises.isSupported {op : Operator} {v w : Value} {m : Monomial} {n : Nat}
    (h : op.Raises v w m n) (hv : v.IsSupported) :
    m.IsSupported ∧ n ≤ Monomial.maxExponent := by
  cases h with
  | pow ht _ hn =>
      exact ⟨hv _ (ht ▸ List.mem_singleton.mpr rfl), Number.le_of_toExponent hn⟩

/-- From supported values no exponent is formed that needs more than 64 bits. -/
theorem Forms.le_maxStoredExponent {op : Operator} {v w : Value} {n : Nat} (h : op.Forms v w n)
    (hv : v.IsSupported) (hw : w.IsSupported) : n ≤ Monomial.maxStoredExponent := by
  cases h with
  | sum h hd he =>
      obtain ⟨ha, hb⟩ := h.isSupported hv hw
      have := ha.2 _ hd
      have := hb.2 _ he
      simp only [Monomial.maxExponent, Monomial.maxStoredExponent] at *
      omega
  | @multiple m n x e h he =>
      obtain ⟨hm, hn⟩ := h.isSupported hv
      calc e * n ≤ Monomial.maxExponent * Monomial.maxExponent :=
            Nat.mul_le_mul (hm.2 _ he) hn
        _ ≤ Monomial.maxStoredExponent := by decide

end Operator

/-! ## Refused exponents

What is formed and what is refused belong together: a value is only given if everything that was
formed is within the limit, and an exponent is only refused if one beyond the limit was formed. -/

namespace Number

theorem toExponent_eq_error {e : Number} {r : Refusal} (h : e.toExponent = .error r) :
    r = .exponentNotNatural e := by
  unfold toExponent at h
  split at h
  · split at h
    · cases h
    · exact (Except.error.inj h).symm
  · exact (Except.error.inj h).symm

theorem pow_eq_error {b e : Number} {r : Refusal} (h : b.pow e = .error r) :
    r = .exponentNotNatural e ∨ (∃ i n, r = .powerTooLarge i n) ∨ r = .powerOverflows b e := by
  rcases bind_eq_error.mp h with h | ⟨n, -, h⟩
  · exact Or.inl (toExponent_eq_error h)
  · refine Or.inr ?_
    split at h
    · rcases bind_eq_error.mp h with h | ⟨_, -, h⟩
      · unfold powInt at h
        split at h
        · exact Or.inl ⟨_, n, (Except.error.inj h).symm⟩
        · cases h
      · cases h
    · rcases bind_eq_error.mp h with h | ⟨_, -, h⟩
      · simp only [powFloat] at h
        split at h
        · cases h
        · exact Or.inr (Except.error.inj h).symm
      · cases h

/-- A power of numbers has no variable over which it could be refused. -/
theorem pow_ne_exponentTooLarge {b e : Number} {x : String} :
    b.pow e ≠ .error (.exponentTooLarge x) := by
  intro h
  rcases pow_eq_error h with h | ⟨_, _, h⟩ | h <;> cases h

end Number

theorem Term.exists_pow_eq_error {t : Term} {e : Number} {x : String}
    (h : t.pow e = .error (.exponentTooLarge x)) :
    ∃ n, e.toExponent = .ok n ∧ t.monomial.pow n = .error (.exponentTooLarge x) := by
  rcases bind_eq_error.mp h with h | ⟨n, hn, h⟩
  · cases Number.toExponent_eq_error h
  · refine ⟨n, hn, ?_⟩
    rcases bind_eq_error.mp h with h | ⟨_, -, h⟩
    · exact absurd h Number.pow_ne_exponentTooLarge
    · rcases bind_eq_error.mp h with h | ⟨_, -, h⟩
      · exact h
      · cases h

/-- Where a polynomial is raised, an exponent is refused in the closed form of a single term or
while it is expanded. -/
theorem Polynomial.pow_refused_cases {p : Polynomial} {e : Number} {x : String}
    (h : p.pow e = .error (.exponentTooLarge x)) :
    (∃ t, p.terms = [t] ∧ t.pow e = .error (.exponentTooLarge x)) ∨
      ∃ n c, e.toExponent = .ok n ∧ Number.one.pow e = .ok c ∧ 2 ≤ p.terms.length ∧
        n ≤ maxExpansionPower ∧
          p.expand n (.term (.constant c)) = .error (.exponentTooLarge x) := by
  rcases bind_eq_error.mp h with h | ⟨n, hn, h⟩
  · cases Number.toExponent_eq_error h
  rcases bind_eq_error.mp h with h | ⟨c, hc, h⟩
  · exact absurd h Number.pow_ne_exponentTooLarge
  split at h
  · cases h
  · next t hone =>
      rcases bind_eq_error.mp h with h | ⟨_, -, h⟩
      · exact Or.inl ⟨t, hone, h⟩
      · cases h
  · next hmany =>
      split at h
      · cases h
      · next hle =>
          exact Or.inr ⟨n, c, hn, hc, by simp [hmany], Nat.le_of_not_lt hle, h⟩

theorem Value.pow_refused_cases {v w : Value} {x : String}
    (h : v.pow w = .error (.exponentTooLarge x)) :
    ∃ e, w.constant? = some e ∧
      ((∃ t, v.terms = [t] ∧ t.pow e = .error (.exponentTooLarge x)) ∨
        ∃ p n c, v = .poly p ∧ e.toExponent = .ok n ∧ Number.one.pow e = .ok c ∧
          2 ≤ p.terms.length ∧ n ≤ maxExpansionPower ∧
          p.expand n (.term (.constant c)) = .error (.exponentTooLarge x)) := by
  cases he : w.constant? with
  | none =>
      rw [pow, he] at h
      cases h
  | some e =>
      refine ⟨e, rfl, ?_⟩
      cases v with
      | term t =>
          rw [term_pow he] at h
          exact Or.inl ⟨t, rfl, map_eq_error.mp h⟩
      | poly p =>
          rw [poly_pow he] at h
          rcases Polynomial.pow_refused_cases h with hone | ⟨n, c, hexpand⟩
          · exact Or.inl hone
          · exact Or.inr ⟨p, n, c, rfl, hexpand⟩

namespace Operator

theorem Multiplies.exists_mul_eq_ok {op : Operator} {v w u : Value} {a b : Monomial}
    (h : op.Multiplies v w a b) (hu : op.apply v w = .ok u) : ∃ c, a.mul b = .ok c := by
  cases h with
  | mul h => exact Value.mul_isOk_iff.mp ⟨u, hu⟩ a b h
  | @expand p w e c n a b he hn hc hmany hle h =>
      have hpow : (Value.poly p).pow w = .ok u := hu
      obtain ⟨e', he', ⟨_, _, ht, -⟩ | ⟨p', hp', hu⟩⟩ := Value.pow_cases hpow
      · cases ht
      · obtain rfl := Value.poly.inj hp'
        obtain rfl := Option.some.inj (he.symm.trans he')
        obtain ⟨n', c', hn', hc', hcases⟩ := Polynomial.pow_cases hu
        obtain rfl := Except.ok.inj (hn.symm.trans hn')
        obtain rfl := Except.ok.inj (hc.symm.trans hc')
        rcases hcases with ⟨hnil, -⟩ | ⟨_, _, hone, -⟩ | ⟨-, -, hu⟩
        · simp [hnil] at hmany
        · simp [hone] at hmany
        · exact Polynomial.exists_mul_eq_ok_of_expand hu h

theorem Raises.exists_pow_eq_ok {op : Operator} {v w u : Value} {m : Monomial} {n : Nat}
    (h : op.Raises v w m n) (hu : op.apply v w = .ok u) : ∃ r, m.pow n = .ok r := by
  cases h with
  | @pow v w t e n ht he hn =>
      obtain ⟨e', he', hcases⟩ := Value.pow_cases hu
      obtain rfl := Option.some.inj (he.symm.trans he')
      have hterm : ∃ x, t.pow e = .ok x := by
        rcases hcases with ⟨t', x, rfl, hx, -⟩ | ⟨p, rfl, hp⟩
        · obtain rfl := List.singleton_injective ht
          exact ⟨x, hx⟩
        · have hone : p.terms = [t] := ht
          obtain ⟨_, _, -, -, ⟨hnil, -⟩ | ⟨t', x, hone', hx, -⟩ | ⟨hmany, -⟩⟩ :=
            Polynomial.pow_cases hp
          · rw [hnil] at hone
            cases hone
          · obtain rfl := List.singleton_injective (hone.symm.trans hone')
            exact ⟨x, hx⟩
          · simp [hone] at hmany
      obtain ⟨x, hx⟩ := hterm
      obtain ⟨n', _, r, hn', -, hr, -⟩ := Term.pow_eq_ok.mp hx
      obtain rfl := Except.ok.inj (hn.symm.trans hn')
      exact ⟨r, hr⟩

/-- If there is a value, all exponents that were formed for it are within the limit. -/
theorem Forms.le_of_ok {op : Operator} {v w u : Value} {n : Nat} (h : op.Forms v w n)
    (hv : v.IsSupported) (hw : w.IsSupported) (hu : op.apply v w = .ok u) :
    n ≤ Monomial.maxExponent := by
  cases h with
  | sum h hd he =>
      obtain ⟨ha, hb⟩ := h.isSupported hv hw
      exact (Monomial.mul_isOk_iff ha.1 hb.1).mp (h.exists_mul_eq_ok hu) _ _ _ hd he
  | multiple h he =>
      obtain ⟨r, hr⟩ := h.exists_pow_eq_ok hu
      rcases Monomial.pow_eq_ok.mp hr with ⟨rfl, -⟩ | ⟨-, hle, -⟩
      · exact Nat.zero_le _
      · exact hle _ he

/-- If an exponent is refused, one beyond the limit was formed. -/
theorem exists_forms_of_error {op : Operator} {v w : Value} {x : String}
    (h : op.apply v w = .error (.exponentTooLarge x)) :
    ∃ n, op.Forms v w n ∧ Monomial.maxExponent < n := by
  have hmul : ∀ {a b}, op.Multiplies v w a b → a.mul b = .error (.exponentTooLarge x) →
      ∃ n, op.Forms v w n ∧ Monomial.maxExponent < n := by
    intro a b hab herr
    obtain ⟨y, -, d, e, hd, he, hlt⟩ := Monomial.mul_eq_error herr
    exact ⟨d + e, .sum hab hd he, hlt⟩
  cases op with
  | add => cases h
  | sub => cases h
  | mul =>
      obtain ⟨a, b, hab, herr⟩ := Value.exists_mul_eq_error h
      exact hmul (.mul hab) herr
  | pow =>
      obtain ⟨e, he, hcases⟩ := Value.pow_refused_cases h
      rcases hcases with ⟨t, ht, herr⟩ | ⟨p, n, c, rfl, hn, hc, hmany, hle, herr⟩
      · obtain ⟨n, hn, herr⟩ := Term.exists_pow_eq_error herr
        obtain ⟨-, y, d, -, hd, hlt⟩ := Monomial.pow_eq_error herr
        exact ⟨d * n, .multiple (.pow ht he hn) hd, hlt⟩
      · obtain ⟨a, b, hab, herr⟩ := Polynomial.exists_expand_eq_error herr
        exact hmul (.expand he hn hc hmany hle hab) herr

end Operator

end PolyCalc
