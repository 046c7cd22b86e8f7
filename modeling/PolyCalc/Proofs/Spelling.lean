import PolyCalc.Proofs.Cuts

/-!
# Spelling tokens

Which characters are read as which tokens. A symbol is a token of its own wherever it stands, but
a number or a name goes on as long as it can. So a spelling comes with the characters that would
be taken for more of it: `Spells p ts cs` says that `cs` is read as the tokens `ts` in front of any
text that does not begin with a character of the class `p`.

A text that is read by itself spells its tokens in front of whatever cannot go on with a lexeme
(`spells_of_ofText`).
-/

namespace PolyCalc.Token

open Text

/-! ## Spellings -/

/-- The whole text is read as the tokens, from whatever position it is counted. -/
def ReadAs (ts : List Token) (cs : List Char) : Prop :=
  ∀ position, ∃ placed, readFrom 0 position cs = .ok placed ∧ placed.map PlacedToken.token = ts

/-- The characters are read as the tokens in front of any text where the class `p` ends. -/
def Spells (p : Char → Bool) (ts : List Token) (cs : List Char) : Prop :=
  ∀ (us : List Token) (rest : List Char), Ends p rest → ReadAs us rest →
    ReadAs (ts ++ us) (cs ++ rest)

theorem readAs_nil : ReadAs [] [] := fun _ => ⟨[], rfl, rfl⟩

/-- What is the longest match in front of everything that the class ends is spelled so. -/
theorem spells_of_begins {p : Char → Bool} {t : Token} {l : List Char}
    (h : ∀ rest, Ends p rest → Begins t l (l ++ rest)) : Spells p [t] l := by
  intro us rest hends hread position
  obtain ⟨placed, hplaced, rfl⟩ := hread (position + String.utf8Len l)
  refine ⟨⟨position, t⟩ :: placed, ?_, rfl⟩
  rw [readFrom_of_begins (h rest hends), hplaced]
  rfl

theorem spells_symbol {c : Char} {t : Token} (ht : ofSymbol? c = some t) :
    Spells (fun _ => false) [t] [c] :=
  spells_of_begins fun rest _ => begins_symbol ht rest

theorem numberLexeme_append {l rest : List Char} (hne : l ≠ [])
    (hl : ∀ c ∈ l, isDecimalDigit c = true)
    (h : Ends continuesNumber rest) : numberLexeme (l ++ rest) = l := by
  have hdigits : Ends isDecimalDigit rest := fun c hc => (Bool.or_eq_false_iff.mp (h c hc)).1
  unfold numberLexeme
  rw [takeWhile_append_of_ends hl hdigits]
  cases l with
  | nil => exact absurd rfl hne
  | cons d ds =>
      have hdrop : (d :: ds ++ rest).drop (ds.length + 1) = rest := List.drop_left
      simp only [hdrop]
      cases rest with
      | nil => rfl
      | cons c rest =>
          have hdot : c ≠ '.' := by
            intro heq
            have hc := h c rfl
            simp [continuesNumber, heq] at hc
          split
          · next heq => exact absurd (List.cons.inj heq).1 hdot
          · rfl

theorem spells_number (n : Nat) :
    Spells continuesNumber [.number (.int n)] (Nat.toDigits 10 n) := by
  have hdigit : ∀ c ∈ Nat.toDigits 10 n, isDecimalDigit c = true := by
    intro c hc
    rw [isDecimalDigit, Nat.isDigit_of_mem_toDigits (by decide) (by decide) hc, Bool.true_or]
  exact spells_of_begins fun rest hends =>
    begins_number (numberLexeme_append Nat.toDigits_ne_nil hdigit hends) Nat.toDigits_ne_nil
      (literalValue?_toDigits n)

theorem isWord_toList {x : String} (hx : Expr.isName x = true) : IsWord x.toList :=
  isName_ofList_iff.mp (by rwa [String.ofList_toList])

theorem nameLexeme_append {l rest : List Char} (hl : IsWord l) (h : Ends continuesName rest) :
    nameLexeme (l ++ rest) = l := by
  cases hl with
  | mk hc hl => rw [List.cons_append, nameLexeme, if_pos hc, takeWhile_append_of_ends hl h]

theorem spells_name {x : String} (hx : Expr.isName x = true) :
    Spells continuesName [.name x] x.toList := by
  have hword := isWord_toList hx
  refine spells_of_begins fun rest hends => ?_
  have hne : x.toList ≠ [] := ne_nil_of_inClass (t := .name x) hword
  have hbegins := begins_name (nameLexeme_append hword hends) hne
  rwa [String.ofList_toList] at hbegins

theorem IsWord.ends {l : List Char} (h : IsWord l) (rest : List Char) :
    Ends continuesNumber (l ++ rest) := by
  cases h with
  | mk hstarts _ =>
      intro d hd
      obtain rfl := Option.some.inj hd
      have hdot := beq_eq_false_iff_ne.mpr (ne_dot_of_startsName hstarts)
      rw [continuesNumber, isDecimalDigit_of_startsName hstarts, hdot, Bool.or_false]

namespace Spells

variable {p q : Char → Bool} {ts us : List Token} {cs ds : List Char}

theorem append (h : Spells p ts cs) (h' : Spells q us ds)
    (hends : ∀ rest, Ends q rest → Ends p (ds ++ rest)) : Spells q (ts ++ us) (cs ++ ds) := by
  intro vs rest hrest hread
  rw [List.append_assoc, List.append_assoc]
  exact h _ _ (hends rest hrest) (h' vs rest hrest hread)

theorem mono (h : Spells p ts cs) (hpq : ∀ c, p c = true → q c = true) : Spells q ts cs := by
  intro us rest hends hread
  refine h us rest (fun c hc => ?_) hread
  rw [Bool.eq_false_iff]
  intro hp
  have hq := hpq c hp
  rw [hends c hc] at hq
  cases hq

/-- A symbol ends whatever stands before it. -/
theorem join (h : Spells p ts cs) (h' : Spells q us ds) {c : Char} {t : Token}
    (ht : ofSymbol? c = some t) (hc : p c = false) : Spells q (ts ++ t :: us) (cs ++ c :: ds) := by
  have hright : Spells q ([t] ++ us) ([c] ++ ds) :=
    append (spells_symbol ht) h' fun _ _ _ _ => rfl
  refine h.append hright fun rest _ d hd => ?_
  obtain rfl := Option.some.inj hd
  exact hc

theorem ofText_eq_ok {text : String} (h : Spells p ts text.toList) :
    ∃ placed, ofText text = .ok placed ∧ placed.map PlacedToken.token = ts := by
  have hread : ReadAs (ts ++ []) (text.toList ++ []) := h [] [] nofun readAs_nil
  rw [List.append_nil, List.append_nil] at hread
  exact hread 0

end Spells

/-! ## Texts in front of more text -/

/-- A text that is cut into lexemes is cut in the same places in front of more text, if that does
not begin with what can be taken for more of a number or a name. -/
theorem IsCut.readAs {ps : List Piece} {last rest : List Char} {us : List Token}
    (h : IsCut ps last) (hends : Ends continuesLexeme rest) (hrest : ReadAs us rest) :
    ReadAs (ps.map Piece.token ++ us) (spread ps last ++ rest) := by
  induction h with
  | nil hlast =>
      intro position
      rw [spread, readFrom_gap hlast]
      exact hrest _
  | @cons p ps last hgap hbegins _ ih =>
      intro position
      have hbegins' : Begins p.token p.lexeme (p.lexeme ++ (spread ps last ++ rest)) := by
        refine hbegins.of_head fun c hc => ?_
        cases hspread : spread ps last with
        | nil =>
            rw [hspread, List.nil_append] at hc
            exact Or.inr (hends c hc)
        | cons d cs =>
            rw [hspread] at hc
            exact Or.inl hc
      obtain ⟨placed, hplaced, htokens⟩ :=
        ih (position + String.utf8Len p.gap + String.utf8Len p.lexeme)
      refine ⟨⟨position + String.utf8Len p.gap, p.token⟩ :: placed, ?_, ?_⟩
      · rw [spread, List.append_assoc, List.append_assoc, readFrom_gap hgap,
          readFrom_of_begins hbegins', hplaced]
        rfl
      · rw [List.map_cons, htokens, List.map_cons, List.cons_append]

theorem spells_of_ofText {text : String} {placed : List PlacedToken}
    (h : ofText text = .ok placed) :
    Spells continuesLexeme (placed.map PlacedToken.token) text.toList := by
  obtain ⟨ps, last, hcut, htext, rfl⟩ := exists_cut_of_ofText h
  intro us rest hends hrest
  rw [map_token_place, htext]
  exact hcut.readAs hends hrest

end PolyCalc.Token
