import Mathlib.Data.List.Infix
import Mathlib.Data.List.TakeWhile
import PolyCalc.Proofs.Lexing

/-!
# Longest matches

Three classes of lexemes: numbers as they are written (`IsNumeral`), names (`IsWord`) and symbols
(`IsSymbol`). A token is read from a lexeme of its class (`IsReadFrom`), and this file says that it
is the longest one that there is (`readFrom_lexeme`, `read_cases`): what the reader takes from the
front of a text is in the class, and nothing in the class goes further.

In all three classes a lexeme that goes on to a longer one can be made longer by one character
(`inClass_snoc`), and that is a letter, a digit, an underscore or a point. So whether a lexeme is
the longest match depends only on the one character after it (`IsLongest.of_head`), and no blank can
make it go on.
-/

namespace PolyCalc.Token

open Text

/-! ## Classes of lexemes -/

/-- A number as it is written: digits, or digits with one point, which may stand first if a digit
follows it. -/
inductive IsNumeral : List Char → Prop
  | whole {ds : List Char} (hne : ds ≠ []) (hds : ∀ c ∈ ds, isDecimalDigit c = true) : IsNumeral ds
  | pointed {ds es : List Char} (hne : ds ≠ []) (hds : ∀ c ∈ ds, isDecimalDigit c = true)
      (hes : ∀ c ∈ es, isDecimalDigit c = true) : IsNumeral (ds ++ '.' :: es)
  | fraction {es : List Char} (hne : es ≠ []) (hes : ∀ c ∈ es, isDecimalDigit c = true) :
      IsNumeral ('.' :: es)

/-- A name: a letter of ASCII or an underscore, then such and digits. -/
inductive IsWord : List Char → Prop
  | mk {c : Char} {l : List Char} (hc : startsName c = true)
      (hl : ∀ d ∈ l, continuesName d = true) : IsWord (c :: l)

/-- A character that is a token by itself. -/
def IsSymbol (l : List Char) : Prop := ∃ c t, l = [c] ∧ ofSymbol? c = some t

/-- The class of lexemes that a token belongs to. -/
def InClass : Token → List Char → Prop
  | number _ => IsNumeral
  | name _ => IsWord
  | _ => IsSymbol

/-- The lexemes that stand for a token. -/
inductive IsReadFrom : Token → List Char → Prop
  | number {l : List Char} {n : Number} (hl : IsNumeral l) (hn : literalValue? l = some n) :
      IsReadFrom (.number n) l
  | name {l : List Char} (hl : IsWord l) : IsReadFrom (.name (String.ofList l)) l
  | symbol {c : Char} {t : Token} (ht : ofSymbol? c = some t) : IsReadFrom t [c]

/-- The lexeme is at the front of the text, and no longer lexeme of the class is. -/
structure IsLongest (P : List Char → Prop) (l cs : List Char) : Prop where
  isPrefix : l <+: cs
  inClass : P l
  length_le : ∀ l', l' <+: cs → P l' → l'.length ≤ l.length

theorem IsLongest.unique {P : List Char → Prop} {l l' cs : List Char} (h : IsLongest P l cs)
    (h' : IsLongest P l' cs) : l = l' := by
  have hle := h'.length_le l h.isPrefix h.inClass
  have hge := h.length_le l' h'.isPrefix h'.inClass
  exact (List.prefix_of_prefix_length_le h.isPrefix h'.isPrefix hle).eq_of_length
    (Nat.le_antisymm hle hge)

theorem inClass_of_ofSymbol? {c : Char} {t : Token} (ht : ofSymbol? c = some t) :
    InClass t = IsSymbol := by
  cases t with
  | number n => exact absurd ht ofSymbol?_ne_number
  | name x => exact absurd ht ofSymbol?_ne_name
  | _ => rfl

/-! ## What can follow a lexeme -/

theorem isDecimalDigit_dot : isDecimalDigit '.' = false := by decide

theorem not_mem_dot {ds : List Char} (h : ∀ c ∈ ds, isDecimalDigit c = true) : '.' ∉ ds := by
  intro hdot
  have hdigit := h '.' hdot
  rw [isDecimalDigit_dot] at hdigit
  cases hdigit

/-- Numerals without their grammar: digits and points, at least one digit and at most one point. -/
theorem isNumeral_iff {l : List Char} :
    IsNumeral l ↔ (∀ c ∈ l, isDecimalDigit c = true ∨ c = '.') ∧ l.count '.' ≤ 1 ∧
      ∃ c ∈ l, isDecimalDigit c = true := by
  constructor
  · rintro (⟨hne, hds⟩ | @⟨ds, es, hne, hds, hes⟩ | @⟨es, hne, hes⟩)
    · obtain ⟨c, hc⟩ := List.exists_mem_of_ne_nil _ hne
      refine ⟨fun d hd => Or.inl (hds d hd), ?_, c, hc, hds c hc⟩
      rw [List.count_eq_zero_of_not_mem (not_mem_dot hds)]
      exact Nat.zero_le 1
    · obtain ⟨c, hc⟩ := List.exists_mem_of_ne_nil _ hne
      refine ⟨?_, ?_, c, List.mem_append_left _ hc, hds c hc⟩
      · rw [List.forall_mem_append, List.forall_mem_cons]
        exact ⟨fun d hd => Or.inl (hds d hd), Or.inr rfl, fun d hd => Or.inl (hes d hd)⟩
      · rw [List.count_append, List.count_cons_self,
          List.count_eq_zero_of_not_mem (not_mem_dot hds),
          List.count_eq_zero_of_not_mem (not_mem_dot hes)]
    · obtain ⟨c, hc⟩ := List.exists_mem_of_ne_nil _ hne
      refine ⟨?_, ?_, c, List.mem_cons_of_mem _ hc, hes c hc⟩
      · rw [List.forall_mem_cons]
        exact ⟨Or.inr rfl, fun d hd => Or.inl (hes d hd)⟩
      · rw [List.count_cons_self, List.count_eq_zero_of_not_mem (not_mem_dot hes)]
  · rintro ⟨hall, hcount, d, hd, hdigit⟩
    have hdigits : ∀ {ds : List Char}, (∀ c ∈ ds, isDecimalDigit c = true ∨ c = '.') →
        '.' ∉ ds → ∀ c ∈ ds, isDecimalDigit c = true := fun hds hdot c hc =>
      (hds c hc).resolve_right fun heq => hdot (heq ▸ hc)
    by_cases hdot : '.' ∈ l
    · obtain ⟨ds, es, rfl⟩ := List.append_of_mem hdot
      obtain ⟨hds, hes⟩ := List.forall_mem_append.mp hall
      rw [List.count_append, List.count_cons_self] at hcount
      have hds' := hdigits hds (List.count_eq_zero.mp (by omega))
      have hes' := hdigits (List.forall_mem_cons.mp hes).2 (List.count_eq_zero.mp (by omega))
      cases ds with
      | cons c ds => exact .pointed (List.cons_ne_nil _ _) hds' hes'
      | nil =>
          refine .fraction ?_ hes'
          rintro rfl
          obtain rfl := List.mem_singleton.mp hd
          rw [isDecimalDigit_dot] at hdigit
          cases hdigit
    · exact .whole (List.ne_nil_of_mem hd) (hdigits hall hdot)

theorem ne_nil_of_inClass {t : Token} {l : List Char} (h : InClass t l) : l ≠ [] := by
  cases t with
  | number n =>
      obtain ⟨-, -, c, hc, -⟩ := isNumeral_iff.mp h
      exact List.ne_nil_of_mem hc
  | name x => cases h with | mk _ _ => exact List.cons_ne_nil _ _
  | _ =>
      obtain ⟨c, u, rfl, -⟩ := h
      exact List.cons_ne_nil c []

theorem continuesName_of_startsName {c : Char} (h : startsName c = true) :
    continuesName c = true := by
  rw [continuesName, Char.isAlphanum, Bool.or_assoc, Bool.or_comm c.isDigit, ← Bool.or_assoc]
  exact Bool.or_eq_true_iff.mpr (Or.inl h)

/-- A lexeme is a symbol, or all its characters are such that could go on with a lexeme. -/
theorem isSymbol_or_continues {t : Token} {l : List Char} (h : InClass t l) :
    IsSymbol l ∨ ∀ c ∈ l, continuesLexeme c = true := by
  cases t with
  | number n =>
      refine Or.inr fun c hc => continuesLexeme_of_continuesNumber ?_
      exact Bool.or_eq_true_iff.mpr (((isNumeral_iff.mp h).1 c hc).imp_right beq_iff_eq.mpr)
  | name x =>
      cases h with
      | mk hstarts hall =>
          refine Or.inr fun c hc => continuesLexeme_of_continuesName ?_
          rcases List.mem_cons.mp hc with rfl | hc
          · exact continuesName_of_startsName hstarts
          · exact hall c hc
  | _ => exact Or.inl h

/-- If a lexeme goes on to a longer one of its class, then it does so with its next character alone,
and that is one that can go on with a lexeme. -/
theorem inClass_snoc {t : Token} {l more : List Char} {c : Char} (h : InClass t l)
    (h' : InClass t (l ++ c :: more)) : InClass t (l ++ [c]) ∧ continuesLexeme c = true := by
  have hlong : ¬ IsSymbol (l ++ c :: more) := by
    rintro ⟨d, u, heq, -⟩
    have hlength := congrArg List.length heq
    have hl := List.length_pos_of_ne_nil (ne_nil_of_inClass h)
    rw [List.length_append, List.length_cons, List.length_singleton] at hlength
    omega
  refine ⟨?_, (isSymbol_or_continues h').resolve_left hlong c
    (List.mem_append_right l (List.mem_cons_self ..))⟩
  have hsub : (l ++ [c]).Sublist (l ++ c :: more) :=
    (List.Sublist.refl l).append (List.singleton_sublist.mpr (List.mem_cons_self ..))
  cases t with
  | number n =>
      obtain ⟨-, -, d, hd, hdigit⟩ := isNumeral_iff.mp h
      obtain ⟨hall, hcount, -⟩ := isNumeral_iff.mp h'
      exact isNumeral_iff.mpr ⟨fun d hd => hall d (hsub.subset hd),
        Nat.le_trans (hsub.count_le '.') hcount, d, List.mem_append_left _ hd, hdigit⟩
  | name x =>
      cases h with
      | mk hd _ =>
          cases h' with
          | mk _ hall =>
              exact .mk hd fun e he => hall e ((List.cons_sublist_cons.mp hsub).subset he)
  | _ => exact absurd h' hlong

/-- A longest match stays one if the text after it begins as before or with what cannot go on with
a lexeme. -/
theorem IsLongest.of_head {t : Token} {l rest rest' : List Char}
    (h : IsLongest (InClass t) l (l ++ rest))
    (hhead : ∀ c ∈ rest'.head?, c ∈ rest.head? ∨ continuesLexeme c = false) :
    IsLongest (InClass t) l (l ++ rest') where
  isPrefix := List.prefix_append l rest'
  inClass := h.inClass
  length_le := by
    intro l' hl' hclass
    by_contra hlt
    -- a longer match goes on with the first character after the lexeme
    obtain ⟨more, rfl⟩ := List.prefix_of_prefix_length_le (List.prefix_append l rest') hl'
      (Nat.le_of_lt (Nat.lt_of_not_le hlt))
    cases more with
    | nil => exact hlt (by rw [List.append_nil])
    | cons c more =>
        obtain ⟨hsnoc, hcontinues⟩ := inClass_snoc h.inClass hclass
        obtain ⟨rest₂, hrest⟩ := (List.prefix_append_right_inj l).mp hl'
        have hc : c ∈ rest'.head? := by rw [← hrest]; rfl
        rcases hhead c hc with hsame | hends
        · have hone : l ++ [c] <+: l ++ rest := by
            cases rest with
            | nil => cases hsame
            | cons d rest =>
                obtain rfl := Option.some.inj hsame
                exact (List.prefix_append_right_inj l).mpr ⟨rest, rfl⟩
          have hle := h.length_le _ hone hsnoc
          rw [List.length_append, List.length_singleton] at hle
          omega
        · rw [hends] at hcontinues
          cases hcontinues

/-! ## Blanks -/

theorem isBlank_of_isDecimalDigit {c : Char} (h : isDecimalDigit c = true) :
    isBlank c = false := by
  rw [isBlank, inRanges, List.any_eq_false]
  intro r hr
  rw [decide_eq_true_eq]
  rcases Bool.or_eq_true_iff.mp h with hascii | hother
  · have hc := toNat_of_isDigit hascii
    have hranges : ∀ r ∈ blankRanges, r.2 < 48 ∨ 57 < r.1 := by decide
    have hr' := hranges r hr
    omega
  · obtain ⟨z, hz, hzc⟩ := List.any_eq_true.mp (Bool.and_eq_true_iff.mp hother).2
    rw [decide_eq_true_eq] at hzc
    have hranges : ∀ r ∈ blankRanges, ∀ z ∈ digitZeros, r.2 < z ∨ z + 10 ≤ r.1 := by
      decide +kernel
    have hr' := hranges r hr z hz
    omega

theorem isBlank_of_continuesName {c : Char} (h : continuesName c = true) : isBlank c = false := by
  rcases Bool.or_eq_true_iff.mp h with halphanum | hunderscore
  · rcases Bool.or_eq_true_iff.mp halphanum with hletter | hdigit
    · have hbounds := toNat_of_startsName (Bool.or_eq_true_iff.mpr (Or.inl hletter))
      exact isBlank_eq_false (by omega) (by omega)
    · have hbounds := toNat_of_isDigit hdigit
      exact isBlank_eq_false (by omega) (by omega)
  · obtain rfl := eq_of_beq hunderscore
    decide

theorem isBlank_of_continuesLexeme {c : Char} (h : continuesLexeme c = true) :
    isBlank c = false := by
  rcases Bool.or_eq_true_iff.mp h with hnumber | hname
  · rcases Bool.or_eq_true_iff.mp hnumber with hdigit | hdot
    · exact isBlank_of_isDecimalDigit hdigit
    · obtain rfl := eq_of_beq hdot
      decide
  · exact isBlank_of_continuesName hname

theorem continuesLexeme_of_isBlank {c : Char} (h : isBlank c = true) :
    continuesLexeme c = false := by
  rw [Bool.eq_false_iff]
  intro hcontinues
  rw [isBlank_of_continuesLexeme hcontinues] at h
  cases h

/-- A lexeme holds no blank. -/
theorem isBlank_of_mem {t : Token} {l : List Char} (h : InClass t l) {c : Char} (hc : c ∈ l) :
    isBlank c = false := by
  rcases isSymbol_or_continues h with ⟨d, u, rfl, hu⟩ | hall
  · obtain rfl := List.mem_singleton.mp hc
    exact (beginsNothing_of_ofSymbol? hu).1
  · exact isBlank_of_continuesLexeme (hall c hc)

/-! ## What the reader takes -/

theorem prefix_takeWhile {p : Char → Bool} {l cs : List Char} (h : l <+: cs)
    (hl : ∀ c ∈ l, p c = true) : l <+: cs.takeWhile p := by
  obtain ⟨rest, rfl⟩ := h
  rw [List.takeWhile_append_of_pos hl]
  exact List.prefix_append _ _

theorem takeWhile_prefix_numberLexeme (cs : List Char) :
    cs.takeWhile isDecimalDigit <+: numberLexeme cs := by
  unfold numberLexeme
  split
  · next d ds hds =>
      rw [hds]
      split
      · exact List.prefix_append _ _
      · exact List.prefix_rfl
  · next hnil =>
      rw [hnil]
      exact List.nil_prefix

theorem numberLexeme_pointed {ds rest : List Char} (hne : ds ≠ [])
    (hds : ∀ c ∈ ds, isDecimalDigit c = true) :
    numberLexeme (ds ++ '.' :: rest) = ds ++ '.' :: rest.takeWhile isDecimalDigit := by
  have hdigits : (ds ++ '.' :: rest).takeWhile isDecimalDigit = ds :=
    takeWhile_append_of_ends hds fun c hc => by
      obtain rfl := Option.some.inj hc
      exact isDecimalDigit_dot
  unfold numberLexeme
  rw [hdigits]
  cases ds with
  | nil => exact absurd rfl hne
  | cons d ds =>
      have hdrop : (d :: ds ++ '.' :: rest).drop (ds.length + 1) = '.' :: rest := List.drop_left
      simp only [hdrop]

theorem numberLexeme_fraction {rest : List Char} (hne : rest.takeWhile isDecimalDigit ≠ []) :
    numberLexeme ('.' :: rest) = '.' :: rest.takeWhile isDecimalDigit := by
  unfold numberLexeme
  rw [List.takeWhile_cons_of_neg (by rw [isDecimalDigit_dot]; nofun)]
  cases hds : rest.takeWhile isDecimalDigit with
  | nil => exact absurd hds hne
  | cons d ds => simp only [hds]

/-- What is read as a number is at the front of the text, and it is a numeral. -/
theorem numberLexeme_spec (cs : List Char) :
    numberLexeme cs <+: cs ∧ (numberLexeme cs ≠ [] → IsNumeral (numberLexeme cs)) := by
  unfold numberLexeme
  split
  · next d ds hds =>
      have hdigits : ∀ c ∈ d :: ds, isDecimalDigit c = true := hds ▸ fun _ => List.mem_takeWhile_imp
      have hsplit : cs = d :: ds ++ cs.drop (ds.length + 1) :=
        List.prefix_append_drop (hds ▸ List.takeWhile_prefix _)
      split
      · next rest hdrop =>
          refine ⟨?_, fun _ => .pointed (List.cons_ne_nil _ _) hdigits fun _ =>
            List.mem_takeWhile_imp⟩
          rw [hsplit, hdrop]
          exact (List.prefix_append_right_inj _).mpr
            ((List.prefix_cons_inj _).mpr (List.takeWhile_prefix _))
      · exact ⟨⟨_, hsplit.symm⟩, fun _ => .whole (List.cons_ne_nil _ _) hdigits⟩
  · split
    · next rest _ =>
        split
        · exact ⟨List.nil_prefix, fun h => absurd rfl h⟩
        · next hne =>
            exact ⟨(List.prefix_cons_inj _).mpr (List.takeWhile_prefix _),
              fun _ => .fraction hne fun _ => List.mem_takeWhile_imp⟩
    · exact ⟨List.nil_prefix, fun h => absurd rfl h⟩

/-- No numeral at the front of the text is longer than what is read as a number. -/
theorem length_le_numberLexeme {l cs : List Char} (hl : IsNumeral l) (h : l <+: cs) :
    l.length ≤ (numberLexeme cs).length := by
  obtain ⟨rest, rfl⟩ := h
  cases hl with
  | whole hne hds =>
      have htake := prefix_takeWhile (List.prefix_append l rest) hds
      exact (htake.trans (takeWhile_prefix_numberLexeme _)).length_le
  | @pointed ds es hne hds hes =>
      have htake := prefix_takeWhile (List.prefix_append es rest) hes
      rw [List.append_assoc, List.cons_append, numberLexeme_pointed hne hds]
      exact ((List.prefix_append_right_inj ds).mpr
        ((List.prefix_cons_inj '.').mpr htake)).length_le
  | @fraction es hne hes =>
      have htake := prefix_takeWhile (List.prefix_append es rest) hes
      have hne' : (es ++ rest).takeWhile isDecimalDigit ≠ [] := fun hnil =>
        hne (List.prefix_nil.mp (hnil ▸ htake))
      rw [List.cons_append, numberLexeme_fraction hne']
      exact ((List.prefix_cons_inj '.').mpr htake).length_le

/-- What is read as a number is the longest numeral at the front of the text. -/
theorem isLongest_numberLexeme {cs : List Char} (h : numberLexeme cs ≠ []) :
    IsLongest IsNumeral (numberLexeme cs) cs where
  isPrefix := (numberLexeme_spec cs).1
  inClass := (numberLexeme_spec cs).2 h
  length_le _ hl hclass := length_le_numberLexeme hclass hl

theorem isWord_nameLexeme {cs : List Char} (h : nameLexeme cs ≠ []) : IsWord (nameLexeme cs) := by
  cases cs with
  | nil => exact absurd rfl h
  | cons c cs =>
      rw [nameLexeme] at h ⊢
      split at h
      · next hstarts =>
          rw [if_pos hstarts]
          exact .mk hstarts fun _ => List.mem_takeWhile_imp
      · exact absurd rfl h

theorem isPrefix_nameLexeme (cs : List Char) : nameLexeme cs <+: cs := by
  cases cs with
  | nil => exact List.prefix_rfl
  | cons c cs =>
      rw [nameLexeme]
      split
      · exact (List.prefix_cons_inj c).mpr (List.takeWhile_prefix _)
      · exact List.nil_prefix

/-- What is read as a name is the longest one at the front of the text. -/
theorem isLongest_nameLexeme {cs : List Char} (h : nameLexeme cs ≠ []) :
    IsLongest IsWord (nameLexeme cs) cs where
  isPrefix := isPrefix_nameLexeme cs
  inClass := isWord_nameLexeme h
  length_le l hl hword := by
    cases hword with
    | @mk c l hc hall =>
        cases cs with
        | nil => exact absurd (List.prefix_nil.mp hl) (List.cons_ne_nil c l)
        | cons d cs =>
            obtain ⟨rfl, htail⟩ := List.cons_prefix_cons.mp hl
            rw [nameLexeme, if_pos hc]
            exact ((List.prefix_cons_inj c).mpr (prefix_takeWhile htail hall)).length_le

theorem isLongest_symbol {c : Char} {t : Token} (ht : ofSymbol? c = some t) (cs : List Char) :
    IsLongest IsSymbol [c] (c :: cs) where
  isPrefix := ⟨cs, rfl⟩
  inClass := ⟨c, t, rfl, ht⟩
  length_le := by
    rintro _ - ⟨d, u, rfl, -⟩
    exact Nat.le_refl 1

/-! ## Reading one token -/

/-- The lexeme stands for the token and is the longest match of its class in front of the text. -/
structure Begins (t : Token) (l cs : List Char) : Prop where
  isReadFrom : IsReadFrom t l
  isLongest : IsLongest (InClass t) l cs

/-- The reader takes the longest match and goes on behind it. -/
theorem readFrom_of_begins {t : Token} {l rest : List Char} (h : Begins t l (l ++ rest))
    (position : Nat) : readFrom 0 position (l ++ rest) = (do
      return ⟨position, t⟩ :: (← readFrom 0 (position + String.utf8Len l) rest)) := by
  obtain ⟨hread, hlongest⟩ := h
  cases l with
  | nil => exact absurd rfl (ne_nil_of_inClass hlongest.inClass)
  | cons c l =>
      have hblank := isBlank_of_mem hlongest.inClass (List.mem_cons_self ..)
      -- the reader goes on behind the first character and has the rest of the lexeme to skip
      have hskip : readFrom 0 (position + String.utf8Len (c :: l)) rest =
          readFrom l.length (position + c.utf8Size) (l ++ rest) := by
        rw [readFrom_skip, String.utf8Len_cons, Nat.add_comm (String.utf8Len l), Nat.add_assoc]
      rw [hskip, List.cons_append, readFrom, if_neg (by simp [hblank]), ← List.cons_append]
      cases hread with
      | number hl hn =>
          have hle := length_le_numberLexeme hl (List.prefix_append _ rest)
          have hne : numberLexeme (c :: l ++ rest) ≠ [] := List.ne_nil_of_length_pos
            (Nat.lt_of_lt_of_le (Nat.succ_pos _) hle)
          simp only [(isLongest_numberLexeme hne).unique hlongest, hn]
      | name hl =>
          cases hl with
          | mk hc hall =>
              have hnumber : numberLexeme (c :: l ++ rest) = [] :=
                numberLexeme_eq_nil (isDecimalDigit_of_startsName hc) (ne_dot_of_startsName hc)
              have hne : nameLexeme (c :: l ++ rest) ≠ [] := by
                rw [List.cons_append, nameLexeme, if_pos hc]
                exact List.cons_ne_nil _ _
              simp only [hnumber, (isLongest_nameLexeme hne).unique hlongest]
      | symbol ht =>
          obtain ⟨-, hdigit, hdot, hstarts⟩ := beginsNothing_of_ofSymbol? ht
          simp only [List.cons_append, List.nil_append, numberLexeme_eq_nil hdigit hdot,
            nameLexeme_eq_nil hstarts, ht, List.length_nil]

theorem begins_number {l cs : List Char} {n : Number} (hl : numberLexeme cs = l) (hne : l ≠ [])
    (hn : literalValue? l = some n) : Begins (.number n) l cs := by
  subst hl
  have hlongest := isLongest_numberLexeme hne
  exact ⟨.number hlongest.inClass hn, hlongest⟩

theorem begins_name {l cs : List Char} (hl : nameLexeme cs = l) (hne : l ≠ []) :
    Begins (.name (String.ofList l)) l cs := by
  subst hl
  have hlongest := isLongest_nameLexeme hne
  exact ⟨.name hlongest.inClass, hlongest⟩

theorem begins_symbol {c : Char} {t : Token} (ht : ofSymbol? c = some t) (cs : List Char) :
    Begins t [c] (c :: cs) :=
  ⟨.symbol ht, inClass_of_ofSymbol? ht ▸ isLongest_symbol ht cs⟩

theorem Begins.of_head {t : Token} {l rest rest' : List Char} (h : Begins t l (l ++ rest))
    (hhead : ∀ c ∈ rest'.head?, c ∈ rest.head? ∨ continuesLexeme c = false) :
    Begins t l (l ++ rest') :=
  ⟨h.isReadFrom, h.isLongest.of_head hhead⟩

theorem Begins.ne_nil {t : Token} {l cs : List Char} (h : Begins t l cs) : l ≠ [] :=
  ne_nil_of_inClass h.isLongest.inClass

/-- What is read from a text without a blank in front begins with a longest match. -/
theorem exists_begins {position : Nat} {c : Char} {cs : List Char} {placed : List PlacedToken}
    (h : readFrom 0 position (c :: cs) = .ok placed) (hblank : isBlank c = false) :
    ∃ t l, Begins t l (c :: cs) := by
  rw [readFrom, if_neg (by simp [hblank])] at h
  cases hnumber : numberLexeme (c :: cs) with
  | cons l ls =>
      simp only [hnumber] at h
      cases hvalue : literalValue? (l :: ls) with
      | none =>
          simp only [hvalue] at h
          cases h
      | some n => exact ⟨_, _, begins_number hnumber (List.cons_ne_nil l ls) hvalue⟩
  | nil =>
      simp only [hnumber] at h
      cases hname : nameLexeme (c :: cs) with
      | cons l ls => exact ⟨_, _, begins_name hname (List.cons_ne_nil l ls)⟩
      | nil =>
          simp only [hname] at h
          cases hsymbol : ofSymbol? c with
          | none =>
              simp only [hsymbol] at h
              cases h
          | some t => exact ⟨t, [c], begins_symbol hsymbol cs⟩

end PolyCalc.Token
