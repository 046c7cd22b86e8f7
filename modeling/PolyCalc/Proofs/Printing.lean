import PolyCalc.Proofs.Invariants
import PolyCalc.Proofs.Recognition
import PolyCalc.Proofs.Spelling

/-!
# Printed values are read back

What the text of a value is read as. A printed piece of text stands for a phrase of the grammar,
and the phrase has a value: `Writes phrase ts e cs v` says that the characters `cs` spell the
tokens `ts`, that these derive the tree `e`, and that `e` has the value `v`. Factors make up
monomials, a coefficient and a monomial a term, and terms a sum; each of these is one lemma, and
each asks for no more than that the smaller pieces are written.

Two pieces of the text are not what they look like. The minus of the first term belongs to its
literal, and the minus of a later term is a subtraction. And a coefficient stands before a name
without a `*`, so the number has to end there; `2e1` is twice `e1`.
-/

namespace PolyCalc

open Grammar Token

/-! ## Values of the pieces -/

namespace Monomial

theorem mergeFactors_single {f : String × Nat} : ∀ {gs : List (String × Nat)},
    (∀ g ∈ gs, g.1 < f.1) → mergeFactors gs [f] = .ok (gs ++ [f])
  | [], _ => rfl
  | g :: gs, h => by
      obtain ⟨hg, hgs⟩ := List.forall_mem_cons.mp h
      have hcompare : compare g.1 f.1 = .lt := compare_lt_iff_lt.mpr hg
      rw [mergeFactors, mergeFactor, hcompare]
      simp only [mergeFactors_single hgs]
      rfl

end Monomial

theorem Term.mul_single {i : Int} {gs : List (String × Nat)} {f : String × Nat}
    (h : ∀ g ∈ gs, g.1 < f.1) :
    Term.mul ⟨.int i, ⟨gs⟩⟩ ⟨.one, ⟨[f]⟩⟩ = .ok ⟨.int i, ⟨gs ++ [f]⟩⟩ := by
  refine mul_eq_ok.mpr ⟨⟨gs ++ [f]⟩, ?_, ?_⟩
  · rw [Monomial.mul, Monomial.mergeFactors_single h]
    rfl
  · rw [Number.one, Number.int_mul_int, Int.mul_one]

theorem Expr.value_pow_var {x : String} {k : Nat} (hpos : 0 < k) (hle : k ≤ Monomial.maxExponent) :
    (binary .pow (var x) (num (.int k))).value = .ok (.term ⟨.one, ⟨[(x, k)]⟩⟩) := by
  have hexponent : (Number.int k).toExponent = .ok k := Number.toExponent_int.mpr ⟨rfl, hle⟩
  have hone : Number.one.pow (.int k) = .ok .one :=
    Number.one_pow_int_eq_ok.mpr ⟨⟨k, hexponent⟩, rfl⟩
  have hmonomial : (Monomial.var x).pow k = .ok ⟨[(x, k)]⟩ := by
    refine Monomial.pow_eq_ok.mpr (Or.inr ⟨by omega, ?_, ?_⟩)
    · simpa [Monomial.var] using hle
    · simp [Monomial.var]
  have hterm : (Term.var x).pow (.int k) = .ok ⟨.one, ⟨[(x, k)]⟩⟩ :=
    Term.pow_eq_ok.mpr ⟨k, _, _, hexponent, hone, hmonomial, rfl⟩
  refine value_binary_eq_ok.mpr ⟨_, _, rfl, rfl, ?_⟩
  show ((Term.var x).pow (.int k)).map Value.term = _
  rw [hterm]
  rfl

/-! ## Phrases of text -/

/-- A text that is a phrase of the grammar with a value. One sign or power has to be allowed. -/
structure Writes (phrase : Phrase) (ts : List Token) (e : Expr) (cs : List Char) (v : Value) :
    Prop where
  spells : Spells continuesLexeme ts cs
  derives : ∀ n, Derives phrase (n + 1) ts e
  value : e.value = .ok v

/-- A text that is a literal, with its sign. -/
structure WritesLiteral (ts : List Token) (cs : List Char) (i : Int) : Prop where
  spells : Spells continuesNumber ts cs
  derives : ∀ n, Derives .unary (n + 1) ts (.num (.int i))

theorem writesLiteral_natCast (k : Nat) :
    WritesLiteral [.number (.int k)] (Nat.toDigits 10 k) k :=
  ⟨spells_number k, fun _ => .ofPower (.ofAtom (.number _))⟩

theorem writesLiteral_neg (k : Nat) :
    WritesLiteral [.operator .sub, .number (.int k)] ('-' :: Nat.toDigits 10 k) (-k) where
  spells := Spells.append (spells_symbol rfl) (spells_number k) fun _ _ _ _ => rfl
  derives := fun _ => .minusLiteral (.ofPower (.ofAtom (.number _)))

theorem WritesLiteral.writes {ts : List Token} {cs : List Char} {i : Int}
    (h : WritesLiteral ts cs i) : Writes .product ts (.num (.int i)) cs (.constant (.int i)) where
  spells := h.spells.mono fun _ => continuesLexeme_of_continuesNumber
  derives := fun n => .ofUnary (h.derives n)
  value := rfl

namespace Writes

variable {ts us : List Token} {e e' : Expr} {cs ds : List Char} {v w u : Value}

theorem times (h : Writes .product ts e cs v) (h' : Writes .power us e' ds w)
    (hu : v.mul w = .ok u) :
    Writes .product (ts ++ .operator .mul :: us) (.binary .mul e e') (cs ++ '*' :: ds) u where
  spells := h.spells.join h'.spells rfl rfl
  derives := fun n => .times (h.derives n) (.ofPower (h'.derives n))
  value := Expr.value_binary_eq_ok.mpr ⟨v, w, h.value, h'.value, hu⟩

/-- A literal with a factor right after it. -/
theorem juxtaposed {i : Int} (h : WritesLiteral ts cs i) (h' : Writes .power us e' ds w)
    (hbegins : BeginsFactor us) (hends : ∀ rest, Ends continuesNumber (ds ++ rest))
    (hu : (Value.constant (.int i)).mul w = .ok u) :
    Writes .product (ts ++ us) (.binary .mul (.num (.int i)) e') (cs ++ ds) u where
  spells := h.spells.append h'.spells fun rest _ => hends rest
  derives := fun n => .juxtaposed (.ofUnary (h.derives n)) (h'.derives n) hbegins
  value := Expr.value_binary_eq_ok.mpr ⟨_, w, rfl, h'.value, hu⟩

theorem plus (h : Writes .sum ts e cs v) (h' : Writes .product us e' ds w) :
    Writes .sum (ts ++ .operator .add :: us) (.binary .add e e') (cs ++ '+' :: ds)
      (v.add w) where
  spells := h.spells.join h'.spells rfl rfl
  derives := fun n => .add (h.derives n) (h'.derives n)
  value := Expr.value_binary_eq_ok.mpr ⟨v, w, h.value, h'.value, rfl⟩

theorem minus (h : Writes .sum ts e cs v) (h' : Writes .product us e' ds w) :
    Writes .sum (ts ++ .operator .sub :: us) (.binary .sub e e') (cs ++ '-' :: ds)
      (v.sub w) where
  spells := h.spells.join h'.spells rfl rfl
  derives := fun n => .sub (h.derives n) (h'.derives n)
  value := Expr.value_binary_eq_ok.mpr ⟨v, w, h.value, h'.value, rfl⟩

theorem calculate_eq_ok {text : String} (h : Writes .sum ts e text.toList v) :
    calculate text = .ok v := by
  obtain ⟨placed, hplaced, hts⟩ := h.spells.ofText_eq_ok
  have hderives : Derives .sum maxNesting (placed.map PlacedToken.token) e := by
    rw [hts]
    exact h.derives 255
  exact PolyCalc.calculate_eq_ok.mpr ⟨e, Expr.ofText_eq_ok.mpr ⟨placed, hplaced, hderives⟩, h.value⟩

end Writes

/-! ## Factors and monomials -/

theorem writes_factor {f : String × Nat} (hname : Expr.isName f.1 = true) (hpos : 0 < f.2)
    (hle : f.2 ≤ Monomial.maxExponent) : ∃ ts e, BeginsFactor ts ∧
      Writes .power ts e (Monomial.factorText f).toList (.term ⟨.one, ⟨[f]⟩⟩) := by
  obtain ⟨x, k⟩ := f
  have hspells : Spells continuesLexeme [.name x] x.toList :=
    (spells_name hname).mono fun _ => continuesLexeme_of_continuesName
  by_cases hk : k = 1
  · subst hk
    exact ⟨[.name x], .var x, trivial, hspells, fun _ => .ofAtom (.name x), rfl⟩
  · have htext : (Monomial.factorText (x, k)).toList = x.toList ++ '^' :: Nat.toDigits 10 k := by
      rw [Monomial.factorText, if_neg hk, Nat.toString_eq_repr]
      simp
    rw [htext]
    have hnumber : Spells continuesLexeme [.number (.int k)] (Nat.toDigits 10 k) :=
      (spells_number k).mono fun _ => continuesLexeme_of_continuesNumber
    exact ⟨[.name x, .operator .pow, .number (.int k)], _, trivial,
      hspells.join hnumber rfl rfl, fun _ => .pow (.name x) (.ofPower (.ofAtom (.number _))),
      Expr.value_pow_var hpos hle⟩

theorem ends_factorText {f : String × Nat} (hname : Expr.isName f.1 = true) (rest : List Char) :
    Ends continuesNumber ((Monomial.factorText f).toList ++ rest) := by
  unfold Monomial.factorText
  split
  · exact (isWord_toList hname).ends rest
  · rw [String.toList_append, String.toList_append, List.append_assoc, List.append_assoc]
    exact (isWord_toList hname).ends _

def laterFactors (fs : List (String × Nat)) : List Char :=
  fs.flatMap fun f => '*' :: (Monomial.factorText f).toList

theorem laterFactors_cons (f : String × Nat) (fs : List (String × Nat)) :
    laterFactors (f :: fs) = '*' :: ((Monomial.factorText f).toList ++ laterFactors fs) := rfl

theorem toList_toText_cons (f : String × Nat) (fs : List (String × Nat)) :
    (Monomial.toText ⟨f :: fs⟩).toList = (Monomial.factorText f).toList ++ laterFactors fs := by
  induction fs generalizing f with
  | nil => simp [Monomial.toText, laterFactors]
  | cons g fs ih =>
      have hstar : "*".toList = ['*'] := rfl
      have hrest := ih g
      rw [Monomial.toText, List.map_cons] at hrest
      rw [Monomial.toText, List.map_cons, List.map_cons, String.intercalate_cons_cons,
        String.toList_append, String.toList_append, hrest, hstar, laterFactors_cons,
        List.append_assoc, List.singleton_append]

theorem Writes.withFactors {i : Int} : ∀ {fs gs : List (String × Nat)} {ts : List Token}
    {e : Expr} {cs : List Char}, Writes .product ts e cs (.term ⟨.int i, ⟨gs⟩⟩) →
    Monomial.IsSupported ⟨gs ++ fs⟩ → Monomial.IsNamed ⟨gs ++ fs⟩ →
    ∃ ts' e', Writes .product ts' e' (cs ++ laterFactors fs) (.term ⟨.int i, ⟨gs ++ fs⟩⟩)
  | [], gs, ts, e, cs, h, _, _ => by
      rw [List.append_nil, laterFactors, List.flatMap_nil, List.append_nil]
      exact ⟨ts, e, h⟩
  | f :: fs, gs, ts, e, cs, h, hm, hn => by
      have hf : f ∈ gs ++ f :: fs := List.mem_append_right gs (List.mem_cons_self ..)
      have hlast : ∀ g ∈ gs, g.1 < f.1 := fun g hg =>
        (List.pairwise_append.mp hm.1.1).2.2 g hg f (List.mem_cons_self ..)
      obtain ⟨us, e', -, hfactor⟩ := writes_factor (hn f hf) (hm.1.2 f hf) (hm.2 f hf)
      have hmul : (Value.term ⟨.int i, ⟨gs⟩⟩).mul (.term ⟨.one, ⟨[f]⟩⟩) =
          .ok (.term ⟨.int i, ⟨gs ++ [f]⟩⟩) := by
        rw [Value.mul, Term.mul_single hlast]
        rfl
      have happend : gs ++ f :: fs = gs ++ [f] ++ fs := by simp
      rw [happend] at hm hn
      obtain ⟨ts', e'', hrest⟩ := (h.times hfactor hmul).withFactors hm hn
      rw [List.append_assoc, List.cons_append, ← laterFactors_cons] at hrest
      rw [happend]
      exact ⟨ts', e'', hrest⟩

/-- A monomial after a literal, which may be all there is. -/
theorem WritesLiteral.scaled {ts : List Token} {cs : List Char} {i : Int}
    (h : WritesLiteral ts cs i) {m : Monomial} (hm : m.IsSupported) (hn : m.IsNamed) :
    ∃ ts' e, Writes .product ts' e (cs ++ m.toText.toList) (.term ⟨.int i, m⟩) := by
  obtain ⟨_ | ⟨f, fs⟩⟩ := m
  · have htext : (Monomial.toText ⟨[]⟩).toList = [] := by simp [Monomial.toText]
    rw [htext, List.append_nil]
    exact ⟨ts, _, h.writes⟩
  · have hf : f ∈ f :: fs := List.mem_cons_self ..
    obtain ⟨us, e, hbegins, hfactor⟩ := writes_factor (hn f hf) (hm.1.2 f hf) (hm.2 f hf)
    have hmul : (Value.constant (.int i)).mul (.term ⟨.one, ⟨[f]⟩⟩) =
        .ok (.term ⟨.int i, ⟨[f]⟩⟩) := by
      have hterm : (Term.constant (.int i)).mul ⟨.one, ⟨[f]⟩⟩ = .ok ⟨.int i, ⟨[f]⟩⟩ :=
        Term.mul_single nofun
      rw [Value.constant, Value.mul, hterm]
      rfl
    have hfirst := Writes.juxtaposed h hfactor hbegins (ends_factorText (hn f hf)) hmul
    have hm' : Monomial.IsSupported ⟨[f] ++ fs⟩ := hm
    rw [toList_toText_cons, ← List.append_assoc]
    exact hfirst.withFactors hm' hn

theorem writes_monomial {m : Monomial} (hm : m.IsSupported) (hn : m.IsNamed)
    (hne : m.isConstant = false) :
    ∃ ts e, Writes .product ts e m.toText.toList (.term ⟨.one, m⟩) := by
  obtain ⟨_ | ⟨f, fs⟩⟩ := m
  · cases hne
  · have hf : f ∈ f :: fs := List.mem_cons_self ..
    obtain ⟨us, e, -, hfactor⟩ := writes_factor (hn f hf) (hm.1.2 f hf) (hm.2 f hf)
    have hfirst : Writes .product us e (Monomial.factorText f).toList (.term ⟨.int 1, ⟨[f]⟩⟩) :=
      ⟨hfactor.spells, fun n => .ofUnary (.ofPower (hfactor.derives n)), hfactor.value⟩
    have hm' : Monomial.IsSupported ⟨[f] ++ fs⟩ := hm
    rw [toList_toText_cons]
    exact hfirst.withFactors hm' hn

/-! ## Terms -/

theorem toList_toText_natCast (k : Nat) : (Number.int k).toText.toList = Nat.toDigits 10 k := by
  show (toString (k : Int)).toList = _
  rw [Int.toString_eq_repr, Int.repr_eq_if]
  simp

theorem toList_toText_neg {k : Nat} (hk : 0 < k) :
    (Number.int (-k)).toText.toList = '-' :: Nat.toDigits 10 k := by
  show (toString (-k : Int)).toList = _
  rw [Int.toString_eq_repr, Int.repr_eq_if, if_neg (by omega)]
  simp

theorem writesLiteral_toText (i : Int) : ∃ ts, WritesLiteral ts (Number.int i).toText.toList i := by
  obtain ⟨k, rfl | rfl⟩ := i.eq_nat_or_neg
  · rw [toList_toText_natCast]
    exact ⟨_, writesLiteral_natCast k⟩
  · rcases Nat.eq_zero_or_pos k with rfl | hk
    · exact ⟨_, writesLiteral_natCast 0⟩
    · rw [toList_toText_neg hk]
      exact ⟨_, writesLiteral_neg k⟩

namespace Term

/-- An integer coefficient, and a monomial whose names and exponents can be written. -/
structure IsPlain (t : Term) : Prop where
  integral : t.coefficient.IsInt
  supported : t.monomial.IsSupported
  named : t.monomial.IsNamed

/-- A coefficient other than one is written in front of the monomial. -/
theorem toText_eq_append {i : Int} {m : Monomial} (hi : i ≠ 0)
    (h : m.isConstant = false → i ≠ 1) :
    (Term.mk (.int i) m).toText = (Number.int i).toText ++ m.toText := by
  unfold toText
  rw [if_neg (by simp [hi]), if_neg]
  intro hand
  obtain ⟨hconstant, hone⟩ := Bool.and_eq_true_iff.mp hand
  have hne := h (by simpa [isConstant] using hconstant)
  simp [Number.isOne, hne] at hone

theorem IsPlain.writes {t : Term} (ht : t.IsPlain) (hz : t.coefficient.isZero = false) :
    ∃ ts e, Writes .product ts e t.toText.toList (.term t) := by
  obtain ⟨c, m⟩ := t
  obtain ⟨⟨i, rfl⟩, hm, hn⟩ := ht
  -- only a one in front of a variable is left out; a minus one is written
  by_cases hone : m.isConstant = false ∧ i = 1
  · obtain ⟨hconstant, rfl⟩ := hone
    have htext : (Term.mk (.int 1) m).toText = m.toText := by
      simp [toText, isConstant, hconstant, Number.isOne]
    rw [htext]
    exact writes_monomial hm hn hconstant
  · have hi : i ≠ 0 := by simpa using hz
    rw [toText_eq_append hi fun hconstant hi' => hone ⟨hconstant, hi'⟩, String.toList_append]
    obtain ⟨ts, h⟩ := writesLiteral_toText i
    exact h.scaled hm hn

end Term

/-! ## Sums -/

namespace Value

theorem terms_add {v : Value} {t : Term} (h : Polynomial.IsNormal ⟨v.terms ++ [t]⟩) :
    (v.add (.term t)).terms = v.terms ++ [t] := by
  rcases add_cases v (.term t) with ⟨s, u, rfl, hu, hm, -⟩ | heq
  · obtain rfl := Value.term.inj hu
    have hne := (List.pairwise_append.mp h.distinct).2.2 s (List.mem_singleton.mpr rfl) t
      (List.mem_singleton.mpr rfl)
    exact absurd hm hne
  · rw [heq]
    exact congrArg Polynomial.terms (Polynomial.ofTerms_terms h)

theorem terms_sub {v : Value} {i : Int} {m : Monomial}
    (h : Polynomial.IsNormal ⟨v.terms ++ [⟨.int (-i), m⟩]⟩) :
    (v.sub (.term ⟨.int i, m⟩)).terms = v.terms ++ [⟨.int (-i), m⟩] := by
  rcases sub_cases v (.term ⟨.int i, m⟩) with ⟨s, u, rfl, hu, hm, -⟩ | heq
  · obtain rfl := Value.term.inj hu
    have hne := (List.pairwise_append.mp h.distinct).2.2 s (List.mem_singleton.mpr rfl) _
      (List.mem_singleton.mpr rfl)
    exact absurd hm hne
  · rw [heq]
    exact congrArg Polynomial.terms (Polynomial.ofTerms_terms h)

end Value

theorem Writes.withTerm {ts : List Token} {e : Expr} {cs : List Char} {v : Value}
    (h : Writes .sum ts e cs v) {t : Term} (ht : t.IsPlain)
    (hnormal : Polynomial.IsNormal ⟨v.terms ++ [t]⟩) :
    ∃ ts' e' w, Writes .sum ts' e' (cs ++ (Polynomial.laterText t).toList) w ∧
      w.terms = v.terms ++ [t] := by
  have hz : t.coefficient.isZero = false :=
    hnormal.nonzero t (List.mem_append_right _ (List.mem_singleton.mpr rfl))
  unfold Polynomial.laterText
  split
  · obtain ⟨us, e', hterm⟩ := ht.writes hz
    rw [String.toList_append]
    exact ⟨_, _, _, h.plus hterm, Value.terms_add hnormal⟩
  · next hpositive =>
      -- the minus is read as a subtraction, so what is subtracted is the absolute value
      obtain ⟨c, m⟩ := t
      obtain ⟨⟨i, rfl⟩, hm, hn⟩ := ht
      have hi : i ≠ 0 := by simpa using hz
      have hneg : ¬0 < i := by simpa [Number.isPositive] using hpositive
      obtain ⟨k, rfl⟩ : ∃ k : Nat, i = -k := ⟨i.natAbs, by omega⟩
      obtain ⟨us, e', hterm⟩ := (writesLiteral_natCast k).scaled hm hn
      rw [Term.toText_eq_append hi (by omega), String.toList_append,
        toList_toText_neg (by omega), List.cons_append]
      exact ⟨_, _, _, h.minus hterm, Value.terms_sub hnormal⟩

/-- All later terms. The partial sums are the beginnings of the whole list. -/
theorem Writes.withTerms : ∀ {us : List Term} {ts : List Token} {e : Expr} {cs : List Char}
    {v : Value}, Writes .sum ts e cs v → (∀ u ∈ us, u.IsPlain) →
    Polynomial.IsNormal ⟨v.terms ++ us⟩ →
    ∃ ts' e' w, Writes .sum ts' e' (cs ++ us.flatMap fun u => (Polynomial.laterText u).toList) w ∧
      w.terms = v.terms ++ us
  | [], ts, e, cs, v, h, _, _ => ⟨ts, e, v, by simpa using h, by simp⟩
  | u :: us, ts, e, cs, v, h, hplain, hnormal => by
      obtain ⟨hu, hus⟩ := List.forall_mem_cons.mp hplain
      have happend : v.terms ++ u :: us = v.terms ++ [u] ++ us := by simp
      rw [happend] at hnormal
      obtain ⟨ts', e', w, hw, hterms⟩ := h.withTerm hu hnormal.of_append
      rw [← hterms] at hnormal
      obtain ⟨ts'', e'', w', hw', hterms'⟩ := hw.withTerms hus hnormal
      refine ⟨ts'', e'', w', ?_, by rw [hterms', hterms, happend]⟩
      simpa using hw'

theorem calculate_toText_polynomial {p : Polynomial} (hp : p.IsNormal)
    (hplain : ∀ t ∈ p.terms, t.IsPlain) :
    ∃ w, calculate p.toText = .ok w ∧ w.IsIntegral ∧ w.toPolynomial = p := by
  obtain ⟨_ | ⟨t, us⟩⟩ := p
  · exact ⟨.term .zero, by rfl, List.forall_mem_singleton.mpr ⟨0, rfl⟩, by rfl⟩
  · obtain ⟨ht, hus⟩ := List.forall_mem_cons.mp hplain
    obtain ⟨ts, e, hfirst⟩ := ht.writes (hp.nonzero t (List.mem_cons_self ..))
    have hsum : Writes .sum ts e t.toText.toList (.term t) :=
      ⟨hfirst.spells, fun n => .ofProduct (hfirst.derives n), hfirst.value⟩
    obtain ⟨ts', e', w, hw, hterms⟩ := hsum.withTerms hus hp
    have htext : (Polynomial.toText ⟨t :: us⟩).toList =
        t.toText.toList ++ us.flatMap fun u => (Polynomial.laterText u).toList := by
      rw [Polynomial.toText, String.toList_append, String.toList_join, List.flatMap_map]
    rw [← htext] at hw
    have hterms' : w.terms = t :: us := hterms
    have hintegral : w.IsIntegral := by
      intro u hu
      rw [hterms'] at hu
      exact (hplain u hu).integral
    refine ⟨w, hw.calculate_eq_ok, hintegral, ?_⟩
    cases w with
    | poly q => exact congrArg Polynomial.mk hterms'
    | term s =>
        show Polynomial.ofTerms (Value.terms (.term s)) = _
        rw [hterms']
        exact Polynomial.ofTerms_terms hp

end PolyCalc
