import PolyCalc.Proofs.LongestMatch

/-!
# Cuts

A text that is cut into tokens is gap, lexeme, gap, and so on to a last gap. The gaps are blank, and
each lexeme is the longest match in front of the text from there on (`IsCut`). Such a cut is what
the reader finds (`exists_isCut`) and all that it can find (`readFrom_spread`), and the place of a
token is the number of bytes before its lexeme (`getElem?_place`).

So every token that is read has a lexeme in the text (`exists_isReadFrom`): every name is a name
(`isName_of_mem_ofText`), every number is finite (`isFinite_of_mem_ofText`), and from a text without
a point it is an integer (`int_of_mem_ofText`).
-/

namespace PolyCalc.Token

open Text

/-! ## Cuts -/

/-- A lexeme, the gap before it and the token that it stands for. -/
structure Piece where
  gap : List Char
  lexeme : List Char
  token : Token

/-- The text of the pieces in front of a last gap. -/
def spread : List Piece → List Char → List Char
  | [], last => last
  | p :: ps, last => p.gap ++ (p.lexeme ++ spread ps last)

/-- The tokens of the pieces in a text that begins at a position. -/
def place : Nat → List Piece → List PlacedToken
  | _, [] => []
  | position, p :: ps =>
      ⟨position + String.utf8Len p.gap, p.token⟩ ::
        place (position + String.utf8Len p.gap + String.utf8Len p.lexeme) ps

def IsGap (l : List Char) : Prop := ∀ c ∈ l, isBlank c = true

instance (l : List Char) : Decidable (IsGap l) :=
  decidable_of_iff (l.all isBlank = true) List.all_eq_true

/-- The gaps are blank, and every lexeme is the longest match in front of all that follows. -/
inductive IsCut : List Piece → List Char → Prop
  | nil {last : List Char} (hlast : IsGap last) : IsCut [] last
  | cons {p : Piece} {ps : List Piece} {last : List Char} (hgap : IsGap p.gap)
      (hbegins : Begins p.token p.lexeme (p.lexeme ++ spread ps last)) (rest : IsCut ps last) :
      IsCut (p :: ps) last

theorem spread_append (ps qs : List Piece) (last : List Char) :
    spread (ps ++ qs) last = spread ps (spread qs last) := by
  induction ps with
  | nil => rfl
  | cons p ps ih => rw [List.cons_append, spread, ih, spread]

theorem spread_last (ps : List Piece) (last rest : List Char) :
    spread ps (last ++ rest) = spread ps last ++ rest := by
  induction ps with
  | nil => rfl
  | cons p ps ih => rw [spread, ih, spread, List.append_assoc, List.append_assoc]

theorem map_token_place (position : Nat) (ps : List Piece) :
    (place position ps).map PlacedToken.token = ps.map Piece.token := by
  induction ps generalizing position with
  | nil => rfl
  | cons p ps ih => rw [place, List.map_cons, List.map_cons, ih]

/-- Tokens further on are placed behind all the text before them. -/
theorem place_append (position : Nat) (ps qs : List Piece) :
    place position (ps ++ qs) =
      place position ps ++ place (position + String.utf8Len (spread ps [])) qs := by
  induction ps generalizing position with
  | nil => rfl
  | cons p ps ih =>
      rw [List.cons_append, place, ih, place, spread, String.utf8Len_append,
        String.utf8Len_append, List.cons_append, Nat.add_assoc, Nat.add_assoc, Nat.add_assoc]

theorem length_place (position : Nat) (ps : List Piece) :
    (place position ps).length = ps.length := by
  rw [← List.length_map PlacedToken.token, map_token_place, List.length_map]

/-- The place of a token in a text is the number of bytes before its lexeme. -/
theorem getElem?_place (ps : List Piece) (p : Piece) (qs : List Piece) :
    (place 0 (ps ++ p :: qs))[ps.length]? =
      some ⟨(String.ofList (spread ps p.gap)).utf8ByteSize, p.token⟩ := by
  rw [place_append, ← length_place 0 ps, List.getElem?_append_right (Nat.le_refl _), Nat.sub_self,
    String.utf8ByteSize_ofList, ← List.nil_append p.gap, spread_last, String.utf8Len_append,
    Nat.zero_add]
  rfl

/-! ## What the reader finds -/

theorem readFrom_gap {gap : List Char} (h : IsGap gap) (rest : List Char) (position : Nat) :
    readFrom 0 position (gap ++ rest) = readFrom 0 (position + String.utf8Len gap) rest := by
  induction gap generalizing position with
  | nil => rfl
  | cons c gap ih =>
      obtain ⟨hc, hgap⟩ := List.forall_mem_cons.mp h
      rw [List.cons_append, readFrom, if_pos hc, ih hgap, String.utf8Len_cons,
        Nat.add_comm (String.utf8Len gap), Nat.add_assoc]

theorem readFrom_spread {ps : List Piece} {last : List Char} (h : IsCut ps last) (position : Nat) :
    readFrom 0 position (spread ps last) = .ok (place position ps) := by
  induction h generalizing position with
  | nil hlast =>
      have hread := readFrom_gap hlast [] position
      rw [List.append_nil] at hread
      exact hread
  | cons hgap hbegins _ ih =>
      rw [spread, readFrom_gap hgap, readFrom_of_begins hbegins, ih]
      rfl

theorem exists_isCut {position : Nat} {cs : List Char} {placed : List PlacedToken}
    (h : readFrom 0 position cs = .ok placed) : ∃ ps last, IsCut ps last ∧ cs = spread ps last := by
  have hgap : IsGap (cs.takeWhile isBlank) := fun _ => List.mem_takeWhile_imp
  have hsplit : cs.takeWhile isBlank ++ cs.dropWhile isBlank = cs := List.takeWhile_append_dropWhile
  rw [← hsplit, readFrom_gap hgap] at h
  cases hcs : cs.dropWhile isBlank with
  | nil =>
      rw [hcs, List.append_nil] at hsplit
      exact ⟨[], cs, .nil (hsplit ▸ hgap), rfl⟩
  | cons c rest =>
      have hblank : isBlank c = false := by
        have hhead := List.head?_dropWhile_not isBlank cs
        rw [hcs] at hhead
        simpa using hhead
      rw [hcs] at h
      obtain ⟨t, l, hbegins⟩ := exists_begins h hblank
      obtain ⟨after, hafter⟩ := hbegins.isLongest.isPrefix
      rw [← hafter] at h hbegins
      rw [readFrom_of_begins hbegins] at h
      simp only [bind_eq_ok] at h
      obtain ⟨placed, hplaced, -⟩ := h
      have hlength : after.length < cs.length := by
        have hl := List.length_pos_of_ne_nil hbegins.ne_nil
        have hsum := congrArg List.length hsplit
        rw [hcs, ← hafter, List.length_append, List.length_append] at hsum
        omega
      obtain ⟨ps, last, hcut, rfl⟩ := exists_isCut hplaced
      refine ⟨⟨_, l, t⟩ :: ps, last, .cons hgap hbegins hcut, ?_⟩
      rw [spread, hafter, ← hcs, hsplit]
termination_by cs.length

theorem eq_place_of_ofText {text : String} {placed : List PlacedToken} {ps : List Piece}
    {last : List Char} (h : ofText text = .ok placed) (hcut : IsCut ps last)
    (htext : text.toList = spread ps last) : placed = place 0 ps := by
  rw [ofText, htext, readFrom_spread hcut] at h
  exact (Except.ok.inj h).symm

theorem exists_cut_of_ofText {text : String} {placed : List PlacedToken}
    (h : ofText text = .ok placed) :
    ∃ ps last, IsCut ps last ∧ text.toList = spread ps last ∧ placed = place 0 ps := by
  obtain ⟨ps, last, hcut, htext⟩ := exists_isCut h
  exact ⟨ps, last, hcut, htext, eq_place_of_ofText h hcut htext⟩

/-! ## What is read -/

theorem IsCut.exists_isReadFrom {ps : List Piece} {last : List Char} (h : IsCut ps last)
    {t : Token} (ht : t ∈ ps.map Piece.token) : ∃ l, IsReadFrom t l ∧ l ⊆ spread ps last := by
  induction h with
  | nil _ => cases ht
  | @cons p ps last _ hbegins _ ih =>
      rcases List.mem_cons.mp ht with rfl | ht
      · refine ⟨p.lexeme, hbegins.isReadFrom, fun c hc => ?_⟩
        exact List.mem_append_right _ (List.mem_append_left _ hc)
      · obtain ⟨l, hl, hsub⟩ := ih ht
        refine ⟨l, hl, fun c hc => ?_⟩
        exact List.mem_append_right _ (List.mem_append_right _ (hsub hc))

/-- Every token is read from a lexeme in the text. -/
theorem exists_isReadFrom {text : String} {placed : List PlacedToken}
    (h : ofText text = .ok placed) {t : Token} (ht : t ∈ placed.map PlacedToken.token) :
    ∃ l, IsReadFrom t l ∧ l ⊆ text.toList := by
  obtain ⟨ps, last, hcut, htext, rfl⟩ := exists_cut_of_ofText h
  rw [map_token_place] at ht
  rw [htext]
  exact hcut.exists_isReadFrom ht

theorem isName_ofList_iff {l : List Char} : Expr.isName (String.ofList l) = true ↔ IsWord l := by
  rw [Expr.isName, String.toList_ofList]
  constructor
  · intro h
    cases l with
    | nil => cases h
    | cons c l =>
        obtain ⟨hc, hl⟩ := Bool.and_eq_true_iff.mp h
        exact .mk hc (List.all_eq_true.mp hl)
  · rintro ⟨hc, hl⟩
    exact Bool.and_eq_true_iff.mpr ⟨hc, List.all_eq_true.mpr hl⟩

theorem isName_of_mem_ofText {text : String} {placed : List PlacedToken}
    (h : ofText text = .ok placed) {x : String}
    (hx : .name x ∈ placed.map PlacedToken.token) : Expr.isName x = true := by
  obtain ⟨l, hread, -⟩ := exists_isReadFrom h hx
  cases hread with
  | name hl => exact isName_ofList_iff.mpr hl
  | symbol hsymbol => exact absurd hsymbol ofSymbol?_ne_name

theorem exists_literal_of_mem_ofText {text : String} {placed : List PlacedToken}
    (h : ofText text = .ok placed) {n : Number}
    (hn : .number n ∈ placed.map PlacedToken.token) :
    ∃ l, literalValue? l = some n ∧ l ⊆ text.toList := by
  obtain ⟨l, hread, hsub⟩ := exists_isReadFrom h hn
  cases hread with
  | number _ hvalue => exact ⟨l, hvalue, hsub⟩
  | symbol hsymbol => exact absurd hsymbol ofSymbol?_ne_number

theorem int_of_mem_ofText {text : String} {placed : List PlacedToken}
    (h : ofText text = .ok placed) (hdot : '.' ∉ text.toList) {n : Number}
    (hn : .number n ∈ placed.map PlacedToken.token) : ∃ i, n = .int i := by
  obtain ⟨l, hvalue, hsub⟩ := exists_literal_of_mem_ofText h hn
  have hcontains : l.contains '.' = false := by
    rw [List.contains_eq_mem, decide_eq_false_iff_not]
    exact fun hmem => hdot (hsub hmem)
  rw [literalValue?, hcontains] at hvalue
  split at hvalue
  · exact ⟨_, (Option.some.inj hvalue).symm⟩
  · cases hvalue

theorem isFinite_of_mem_ofText {text : String} {placed : List PlacedToken}
    (h : ofText text = .ok placed) {n : Number}
    (hn : .number n ∈ placed.map PlacedToken.token) : n.isFinite = true := by
  obtain ⟨l, hvalue, -⟩ := exists_literal_of_mem_ofText h hn
  exact isFinite_of_literalValue? hvalue

end PolyCalc.Token
