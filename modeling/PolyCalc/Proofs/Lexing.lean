import PolyCalc.Expr.Leaf
import PolyCalc.Proofs.Outcomes

/-!
# Characters and lexemes

Which characters begin a number, a name or a symbol and which go on with one, and what the literals
are worth that are read from digits. What has been read is passed over (`readFrom_skip`).
-/

namespace PolyCalc.Token

open Text

/-! ## Characters -/

theorem toNat_of_isDigit {c : Char} (h : c.isDigit = true) : 48 ≤ c.toNat ∧ c.toNat ≤ 57 :=
  Char.isDigit_iff_toNat.mp h

theorem toNat_of_startsName {c : Char} (h : startsName c = true) :
    58 ≤ c.toNat ∧ c.toNat ≤ 126 := by
  rcases Bool.or_eq_true_iff.mp h with hletter | hunderscore
  · rcases Bool.or_eq_true_iff.mp hletter with hupper | hlower
    · have hbounds : 65 ≤ c.toNat ∧ c.toNat ≤ 90 := of_decide_eq_true hupper
      omega
    · have hbounds := Bool.and_eq_true_iff.mp hlower
      have hlo : 97 ≤ c.toNat := of_decide_eq_true hbounds.1
      have hhi : c.toNat ≤ 122 := of_decide_eq_true hbounds.2
      omega
  · obtain rfl := eq_of_beq hunderscore
    decide

theorem isBlank_eq_false {c : Char} (hlo : 33 ≤ c.toNat) (hhi : c.toNat ≤ 126) :
    isBlank c = false := by
  have h : ∀ r ∈ blankRanges, r.2 < 33 ∨ 126 < r.1 := by decide
  rw [isBlank, inRanges, List.any_eq_false]
  intro r hr
  have hr' := h r hr
  rw [decide_eq_true_eq]
  omega

theorem isDecimalDigit_eq_isDigit {c : Char} (h : c.toNat ≤ 127) :
    isDecimalDigit c = c.isDigit := by
  have hascii : decide (127 < c.toNat) = false := decide_eq_false (by omega)
  rw [isDecimalDigit, hascii, Bool.false_and, Bool.or_false]

theorem isDecimalDigit_of_startsName {c : Char} (h : startsName c = true) :
    isDecimalDigit c = false := by
  have hc := toNat_of_startsName h
  rw [isDecimalDigit_eq_isDigit (by omega), Bool.eq_false_iff]
  intro hdigit
  have hd := toNat_of_isDigit hdigit
  omega

theorem ne_dot_of_startsName {c : Char} (h : startsName c = true) : c ≠ '.' := by
  rintro rfl
  exact absurd h (by decide)

/-! ## Lexemes -/

/-- The characters that a number before them would take. -/
def continuesNumber (c : Char) : Bool := isDecimalDigit c || c == '.'

/-- The characters that a number or a name before them would take. -/
def continuesLexeme (c : Char) : Bool := continuesNumber c || continuesName c

theorem continuesLexeme_of_continuesNumber {c : Char} (h : continuesNumber c = true) :
    continuesLexeme c = true := by
  rw [continuesLexeme, h, Bool.true_or]

theorem continuesLexeme_of_continuesName {c : Char} (h : continuesName c = true) :
    continuesLexeme c = true := by
  rw [continuesLexeme, h, Bool.or_true]

/-- No character of the class is in front of the text. -/
def Ends (p : Char → Bool) (cs : List Char) : Prop := ∀ c ∈ cs.head?, p c = false

theorem takeWhile_append_of_ends {p : Char → Bool} {l rest : List Char} (hl : ∀ c ∈ l, p c = true)
    (h : Ends p rest) : (l ++ rest).takeWhile p = l := by
  rw [List.takeWhile_append_of_pos hl]
  cases rest with
  | nil => exact List.append_nil l
  | cons c rest => rw [List.takeWhile_cons_of_neg (by simp [h c rfl]), List.append_nil]

theorem numberLexeme_eq_nil {c : Char} {rest : List Char} (hc : isDecimalDigit c = false)
    (hdot : c ≠ '.') : numberLexeme (c :: rest) = [] := by
  unfold numberLexeme
  rw [List.takeWhile_cons_of_neg (by simp [hc])]
  simp [hdot]

theorem nameLexeme_eq_nil {c : Char} {rest : List Char} (hc : startsName c = false) :
    nameLexeme (c :: rest) = [] := if_neg (by simp [hc])

theorem literalValue?_toDigits (n : Nat) :
    literalValue? (Nat.toDigits 10 n) = some (.int n) := by
  have hdigit : ∀ c ∈ Nat.toDigits 10 n, c.isDigit = true := fun c hc =>
    Nat.isDigit_of_mem_toDigits (by decide) (by decide) hc
  have hall : (Nat.toDigits 10 n).all (fun c => c.isDigit || c == '.') = true :=
    List.all_eq_true.mpr fun c hc => by rw [hdigit c hc, Bool.true_or]
  have hdot : (Nat.toDigits 10 n).contains '.' = false := by
    rw [List.contains_eq_mem, decide_eq_false_iff_not]
    intro hmem
    exact absurd (hdigit '.' hmem) (by decide)
  have hvalue : natOfDigits (Nat.toDigits 10 n) = n := by
    rw [natOfDigits, ← Nat.ofDigitChars_eq_foldl]
    exact Nat.ofDigitChars_ten_toDigits
  rw [literalValue?, if_pos hall, if_neg (by rw [hdot]; decide), hvalue]

theorem isFinite_of_literalValue? {l : List Char} {n : Number} (h : literalValue? l = some n) :
    n.isFinite = true := by
  unfold literalValue? at h
  split at h
  · split at h
    · simp only at h
      split at h
      · next hfinite =>
          obtain rfl := Option.some.inj h
          exact hfinite
      · cases h
    · obtain rfl := Option.some.inj h
      rfl
  · cases h

/-! ## Symbols -/

theorem ofSymbol?_ne_name {c : Char} {x : String} : ofSymbol? c ≠ some (.name x) := by
  unfold ofSymbol?
  split_ifs <;> simp

theorem ofSymbol?_ne_number {c : Char} {n : Number} : ofSymbol? c ≠ some (.number n) := by
  unfold ofSymbol?
  split_ifs <;> simp

theorem mem_of_ofSymbol? {c : Char} {t : Token} (ht : ofSymbol? c = some t) :
    c ∈ ['/', '(', ')', '+', '-', '*', '^'] := by
  unfold ofSymbol? at ht
  split_ifs at ht with hslash hopen hclose
  · simp [hslash]
  · simp [hopen]
  · simp [hclose]
  · obtain ⟨op, hop, -⟩ := Option.map_eq_some_iff.mp ht
    unfold Operator.ofSymbol? at hop
    split at hop <;> first | decide | cases hop

/-- A symbol is no blank and begins neither a number nor a name. -/
theorem beginsNothing_of_ofSymbol? {c : Char} {t : Token} (ht : ofSymbol? c = some t) :
    isBlank c = false ∧ isDecimalDigit c = false ∧ c ≠ '.' ∧ startsName c = false := by
  have hall : ['/', '(', ')', '+', '-', '*', '^'].all (fun d =>
      !isBlank d && !isDecimalDigit d && d != '.' && !startsName d) = true := by decide
  have hc := List.all_eq_true.mp hall c (mem_of_ofSymbol? ht)
  simp only [Bool.and_eq_true, Bool.not_eq_true', bne_iff_ne] at hc
  obtain ⟨⟨⟨hblank, hdigit⟩, hdot⟩, hstarts⟩ := hc
  exact ⟨hblank, hdigit, hdot, hstarts⟩

/-! ## Reading on -/

/-- A lexeme that has been read is passed over, and positions go on behind its last byte. -/
theorem readFrom_skip (l rest : List Char) (position : Nat) :
    readFrom l.length position (l ++ rest) = readFrom 0 (position + String.utf8Len l) rest := by
  induction l generalizing position with
  | nil => rfl
  | cons c l ih =>
      rw [List.length_cons, List.cons_append, readFrom, ih, String.utf8Len_cons,
        Nat.add_comm (String.utf8Len l), Nat.add_assoc]

end PolyCalc.Token
