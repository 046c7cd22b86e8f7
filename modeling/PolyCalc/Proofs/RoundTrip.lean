import PolyCalc.Proofs.Printing

/-!
# Text and value

A value over the integers is printed as the normal form that it describes, whatever its shape is,
and its text is calculated back to that normal form. So printing and calculating again changes
nothing that can be seen: the value is the same one up to its shape, and its text is the same.

This holds for every value that can be written down (`Value.IsPlain`), and such are the values of
texts (`calculate_isPlain`): sums are collected, so they are in normal form; products and powers
are checked, so their exponents are within the limit; and names come from the text.
-/

namespace PolyCalc

open Grammar

/-! ## Equality -/

theorem Term.beq_iff {s t : Term} (hs : s.coefficient.IsInt) (ht : t.coefficient.IsInt) :
    (s == t) = true ↔ s = t := by
  obtain ⟨c, m⟩ := s
  obtain ⟨d, n⟩ := t
  obtain ⟨i, rfl⟩ := hs
  obtain ⟨j, rfl⟩ := ht
  show ((i == j) && decide (m = n)) = true ↔ _
  simp

theorem Polynomial.beq_terms_iff : ∀ {ss ts : List Term}, (∀ s ∈ ss, s.coefficient.IsInt) →
    (∀ t ∈ ts, t.coefficient.IsInt) → ((ss == ts) = true ↔ ss = ts)
  | [], [], _, _ => by simp
  | [], _ :: _, _, _ => by simp
  | _ :: _, [], _, _ => by simp
  | s :: ss, t :: ts, hss, hts => by
      obtain ⟨hs, hss'⟩ := List.forall_mem_cons.mp hss
      obtain ⟨ht, hts'⟩ := List.forall_mem_cons.mp hts
      rw [List.cons_beq_cons, Bool.and_eq_true, Term.beq_iff hs ht, beq_terms_iff hss' hts',
        List.cons.injEq]

namespace Value

theorem beq_iff {v w : Value} (hv : v.IsIntegral) (hw : w.IsIntegral) :
    (v == w) = true ↔ v.toPolynomial = w.toPolynomial := by
  show (v.toPolynomial.terms == w.toPolynomial.terms) = true ↔ _
  rw [Polynomial.beq_terms_iff hv.toPolynomial hw.toPolynomial]
  constructor
  · intro h
    exact congrArg Polynomial.mk h
  · intro h
    rw [h]

/-- A value is printed as its normal form, also if it is a single term. -/
theorem toText_toPolynomial {v : Value} (hv : v.IsIntegral) :
    v.toPolynomial.toText = v.toText := by
  cases v with
  | poly p => rfl
  | term t =>
      obtain ⟨c, m⟩ := t
      obtain ⟨i, rfl⟩ : c.IsInt := hv _ (List.mem_singleton.mpr rfl)
      rw [toPolynomial, Polynomial.toText, Polynomial.terms_ofTerm]
      cases hz : (Number.int i).isZero with
      | true =>
          have hi : i = 0 := by simpa using hz
          subst hi
          rfl
      | false => simp [toText]

end Value

/-! ## Values that can be written -/

/-- Integer coefficients, names and exponents that can be written, and normal form. -/
structure Value.IsPlain (v : Value) : Prop where
  normal : v.IsNormal
  terms : ∀ t ∈ v.terms, t.IsPlain

namespace Value.IsPlain

variable {v : Value}

theorem integral (hv : v.IsPlain) : v.IsIntegral := fun t ht => (hv.terms t ht).integral

theorem toPolynomial (hv : v.IsPlain) : ∀ t ∈ v.toPolynomial.terms, t.IsPlain := by
  cases v with
  | poly p => exact hv.terms
  | term t =>
      intro u hu
      rw [Value.toPolynomial, Polynomial.terms_ofTerm] at hu
      split at hu
      · cases hu
      · exact hv.terms u hu

theorem calculate_eq_ok (hv : v.IsPlain) :
    ∃ w, calculate v.toText = .ok w ∧ w.IsIntegral ∧ w.toPolynomial = v.toPolynomial := by
  rw [← toText_toPolynomial hv.integral]
  exact calculate_toText_polynomial (isNormal_toPolynomial hv.normal) hv.toPolynomial

end Value.IsPlain

/-! ## Values of texts -/

/-- All literals of a text are integers. -/
def HasIntegerLiterals (text : String) : Prop :=
  ∀ tokens, Token.ofText text = .ok tokens →
    ∀ c, Token.number c ∈ tokens.map PlacedToken.token → c.IsInt

theorem hasIntegerLiterals_of_no_point {text : String} (h : '.' ∉ text.toList) :
    HasIntegerLiterals text :=
  fun _ htokens _ hc => Token.int_of_mem_ofText htokens h hc

/-- The number meets one condition, the variable with the name the other. -/
def Token.Meets (P : Number → Prop) (Q : Monomial → Prop) : Token → Prop
  | number c => P c
  | name x => Q (.var x)
  | _ => True

/-- What holds of the tokens holds of the leaves of the tree. The only leaf that is no token is the
minus one of a sign, and a literal can take the sign itself. -/
theorem Grammar.Derives.meets {P : Number → Prop} {Q : Monomial → Prop} (hone : P .one)
    (hneg : ∀ {a}, P a → P (-a)) {phrase : Phrase} {n : Nat} {ts : List Token} {e : Expr}
    (he : Derives phrase n ts e) (hts : ∀ t ∈ ts, t.Meets P Q) : e.Meets P Q := by
  induction he with
  | number c => exact hts (.number c) (List.mem_singleton.mpr rfl)
  | name x => exact hts (.name x) (List.mem_singleton.mpr rfl)
  | ofAtom _ ih => exact ih hts
  | ofPower _ ih => exact ih hts
  | ofUnary _ ih => exact ih hts
  | ofProduct _ ih => exact ih hts
  | parens _ ih =>
      exact ih (List.forall_mem_cons.mp (List.forall_mem_append.mp hts).1).2
  | plus _ ih => exact ih (List.forall_mem_cons.mp hts).2
  | minusLiteral _ ih => exact hneg (ih (List.forall_mem_cons.mp hts).2)
  | minus _ _ ih => exact ⟨hneg hone, ih (List.forall_mem_cons.mp hts).2⟩
  | juxtaposed _ _ _ ihl ihr =>
      obtain ⟨hl, hr⟩ := List.forall_mem_append.mp hts
      exact ⟨ihl hl, ihr hr⟩
  | pow _ _ ihl ihr =>
      obtain ⟨hl, hr⟩ := List.forall_mem_append.mp hts
      exact ⟨ihl hl, ihr (List.forall_mem_cons.mp hr).2⟩
  | times _ _ ihl ihr =>
      obtain ⟨hl, hr⟩ := List.forall_mem_append.mp hts
      exact ⟨ihl hl, ihr (List.forall_mem_cons.mp hr).2⟩
  | add _ _ ihl ihr =>
      obtain ⟨hl, hr⟩ := List.forall_mem_append.mp hts
      exact ⟨ihl hl, ihr (List.forall_mem_cons.mp hr).2⟩
  | sub _ _ ihl ihr =>
      obtain ⟨hl, hr⟩ := List.forall_mem_append.mp hts
      exact ⟨ihl hl, ihr (List.forall_mem_cons.mp hr).2⟩

theorem Expr.meets_of_ofText {P : Number → Prop} {Q : Monomial → Prop} (hone : P .one)
    (hneg : ∀ {a}, P a → P (-a)) {text : String} {e : Expr} (he : ofText text = .ok e)
    (hnumbers : ∀ tokens, Token.ofText text = .ok tokens →
      ∀ c, Token.number c ∈ tokens.map PlacedToken.token → P c)
    (hnames : ∀ x, isName x = true → Q (.var x)) : e.Meets P Q := by
  obtain ⟨tokens, htokens, hderives⟩ := ofText_eq_ok.mp he
  refine hderives.meets hone hneg fun t ht => ?_
  cases t with
  | number c => exact hnumbers tokens htokens c ht
  | name x => exact hnames x (Token.isName_of_mem_ofText htokens ht)
  | _ => trivial

theorem Closed.calculate {P : Number → Prop} {Q : Monomial → Prop} (h : Closed P Q)
    {text : String} {v : Value} (hv : PolyCalc.calculate text = .ok v)
    (hnumbers : ∀ tokens, Token.ofText text = .ok tokens →
      ∀ c, Token.number c ∈ tokens.map PlacedToken.token → P c)
    (hnames : ∀ x, Expr.isName x = true → Q (.var x)) : v.Meets P Q := by
  obtain ⟨e, he, hvalue⟩ := calculate_eq_ok.mp hv
  exact h.value (Expr.meets_of_ofText h.one h.neg he hnumbers hnames) hvalue

theorem calculate_isPlain {text : String} {v : Value} (h : HasIntegerLiterals text)
    (hv : calculate text = .ok v) : v.IsPlain := by
  have hintegral := closed_isInt.calculate hv h fun _ _ => trivial
  have hnamed := closed_isNamed.calculate hv (fun _ _ _ _ => trivial) fun x hx =>
    List.forall_mem_singleton.mpr hx
  obtain ⟨e, -, hvalue⟩ := calculate_eq_ok.mp hv
  have hsupported := Expr.isSupported_value hvalue
  exact ⟨Expr.isNormal_value hvalue,
    fun t ht => ⟨(hintegral t ht).1, hsupported t ht, (hnamed t ht).2⟩⟩

/-- **Round trip.** The text of a plain value is calculated to an equal value with the same text,
and every value of a text with integer literals is plain. -/
theorem calculate_toText :
    (∀ v : Value, v.IsPlain →
      ∃ w, calculate v.toText = .ok w ∧ (w == v) = true ∧ w.toText = v.toText) ∧
    ∀ text v, HasIntegerLiterals text → calculate text = .ok v → v.IsPlain := by
  refine ⟨fun v hv => ?_, fun _ _ => calculate_isPlain⟩
  obtain ⟨w, hw, hintegral, hpolynomial⟩ := hv.calculate_eq_ok
  refine ⟨w, hw, (Value.beq_iff hintegral hv.integral).mpr hpolynomial, ?_⟩
  rw [← Value.toText_toPolynomial hintegral, hpolynomial, Value.toText_toPolynomial hv.integral]

/-- A coefficient before a name that could be an exponent, a minus at the front and one in
between. -/
theorem calculate_toText_of_polynomial :
    let v := Value.poly ⟨[⟨.int (-1), ⟨[("a", 1), ("b", 12)]⟩⟩, ⟨.int 2, ⟨[("e1", 1)]⟩⟩,
      ⟨.int (-3), ⟨[("x", 1)]⟩⟩, ⟨.int 1, ⟨[("y", 2)]⟩⟩, ⟨.int 7, .one⟩]⟩
    HasIntegerLiterals "7+y^2-3x+2e1-a*b^12" ∧ calculate "7+y^2-3x+2e1-a*b^12" = .ok v ∧
      v.IsPlain ∧ ∃ w, calculate v.toText = .ok w ∧ (w == v) = true ∧ w.toText = v.toText := by
  intro v
  have hliterals : HasIntegerLiterals "7+y^2-3x+2e1-a*b^12" :=
    hasIntegerLiterals_of_no_point (by decide)
  have hv : calculate "7+y^2-3x+2e1-a*b^12" = .ok v := by rfl
  obtain ⟨hround, hplain⟩ := calculate_toText
  have hvplain := hplain _ v hliterals hv
  exact ⟨hliterals, hv, hvplain, hround v hvplain⟩

end PolyCalc
