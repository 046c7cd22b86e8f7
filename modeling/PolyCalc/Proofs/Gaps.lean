import PolyCalc.Proofs.Cuts
import PolyCalc.Proofs.Recognition

/-!
# Gaps

Other gaps between the lexemes of a text make no difference (`Regaps.isCut`), as long as a gap
between two of them does not vanish: a blank can end a lexeme no earlier than it ends anyway. So the
tokens are the same. And since the tree depends on places only through the place in a refusal
(`run_unplaced`), what is read from them is the same too.
-/

namespace PolyCalc

namespace Token

open Text

/-! ## Positions -/

theorem utf8Len_pos {l : List Char} (h : l ≠ []) : 0 < String.utf8Len l := by
  cases l with
  | nil => exact absurd rfl h
  | cons c l =>
      rw [String.utf8Len_cons]
      exact Nat.add_pos_right _ (Char.utf8Size_pos c)

/-- Every lexeme takes some bytes. -/
theorem pairwise_place {ps : List Piece} {last : List Char} (h : IsCut ps last) (position : Nat) :
    (∀ t ∈ place position ps, position ≤ t.position) ∧
      (place position ps).Pairwise (fun t u => t.position < u.position) := by
  induction h generalizing position with
  | nil _ => exact ⟨nofun, .nil⟩
  | @cons p ps last _ hbegins _ ih =>
      have hpos := utf8Len_pos hbegins.ne_nil
      obtain ⟨hle, hpairwise⟩ := ih (position + String.utf8Len p.gap + String.utf8Len p.lexeme)
      refine ⟨List.forall_mem_cons.mpr ⟨Nat.le_add_right _ _, fun t ht => ?_⟩,
        .cons (fun t ht => ?_) hpairwise⟩
      · have hrest := hle t ht
        omega
      · have hrest := hle t ht
        show position + String.utf8Len p.gap < t.position
        omega

/-! ## Other gaps -/

/-- The same lexemes with other gaps. A gap between two of them may not vanish, but the one before
the first of them may. -/
structure Regaps (ps ps' : List Piece) : Prop where
  pieces : List.Forall₂
    (fun p p' => p'.lexeme = p.lexeme ∧ p'.token = p.token ∧ IsGap p'.gap) ps ps'
  between : List.Forall₂ (fun p p' => p.gap ≠ [] → p'.gap ≠ []) ps.tail ps'.tail

theorem Regaps.map_token {ps ps' : List Piece} (h : Regaps ps ps') :
    ps'.map Piece.token = ps.map Piece.token := by
  obtain ⟨hpieces, -⟩ := h
  induction hpieces with
  | nil => rfl
  | cons hp _ ih => rw [List.map_cons, List.map_cons, ih, hp.2.1]

theorem continuesLexeme_of_isGap {l : List Char} (h : IsGap l) :
    ∀ c ∈ l.head?, continuesLexeme c = false :=
  fun c hc => continuesLexeme_of_isBlank (h c (List.mem_of_mem_head? hc))

/-- Behind a lexeme there is the same character as before, or what ends every lexeme. -/
theorem head?_spread_regapped {ps ps' : List Piece} {last last' : List Char} (hcut : IsCut ps last)
    (hpieces : List.Forall₂
      (fun p p' => p'.lexeme = p.lexeme ∧ p'.token = p.token ∧ IsGap p'.gap) ps ps')
    (hbetween : List.Forall₂ (fun p p' => p.gap ≠ [] → p'.gap ≠ []) ps ps') (hlast : IsGap last') :
    ∀ c ∈ (spread ps' last').head?,
      c ∈ (spread ps last).head? ∨ continuesLexeme c = false := by
  intro c hc
  cases hpieces with
  | nil => exact Or.inr (continuesLexeme_of_isGap hlast c hc)
  | @cons p p' ps ps' hp _ =>
      obtain ⟨hlexeme, -, hgap'⟩ := hp
      rw [spread] at hc
      by_cases hempty : p'.gap = []
      · have hold : p.gap = [] := by
          by_contra hne
          exact (List.forall₂_cons.mp hbetween).1 hne hempty
        -- both texts go on with the lexeme
        cases hcut with
        | cons _ hbegins _ =>
            obtain ⟨d, l, hl⟩ := List.exists_cons_of_ne_nil hbegins.ne_nil
            rw [hempty, hlexeme, hl] at hc
            rw [spread, hold, hl]
            exact Or.inl hc
      · obtain ⟨d, gap, hd⟩ := List.exists_cons_of_ne_nil hempty
        rw [hd] at hc hgap'
        exact Or.inr (continuesLexeme_of_isGap hgap' c hc)

theorem Regaps.isCut {ps ps' : List Piece} {last last' : List Char} (h : Regaps ps ps')
    (hcut : IsCut ps last) (hlast : IsGap last') : IsCut ps' last' := by
  obtain ⟨hpieces, hbetween⟩ := h
  induction hcut generalizing ps' with
  | nil _ =>
      cases hpieces
      exact .nil hlast
  | cons hgap hbegins hrest ih =>
      cases hpieces with
      | @cons _ p' _ ps' hp hps =>
          obtain ⟨hlexeme, htoken, hgap'⟩ := hp
          refine .cons hgap' ?_ (ih hps ?_)
          · rw [hlexeme, htoken]
            exact hbegins.of_head (head?_spread_regapped hrest hps hbetween hlast)
          · cases hbetween with
            | nil => exact .nil
            | cons _ htail => exact htail

end Token

/-! ## Refusals without their places -/

/-- The refusal with its place taken away. -/
def ReadError.unplaced : ReadError → ReadError
  | invalidCharacter c _ => invalidCharacter c 0
  | invalidNumber literal _ => invalidNumber literal 0
  | unexpectedToken expected found _ => unexpectedToken expected found 0
  | unexpectedEnd expected => unexpectedEnd expected
  | division _ => division 0
  | tooDeep limit _ => tooDeep limit 0
  | empty => empty

/-- Two computations in a row fail in the same way if both steps do. -/
theorem mapError_bind_congr {ε ε' α β : Type} {f : ε → ε'} {x y : Except ε α}
    {g h : α → Except ε β} (hxy : x.mapError f = y.mapError f)
    (hgh : ∀ a, (g a).mapError f = (h a).mapError f) :
    (x >>= g).mapError f = (y >>= h).mapError f := by
  cases x with
  | error e =>
      cases y with
      | error e' => exact congrArg Except.error (Except.error.inj hxy)
      | ok b => cases hxy
  | ok a =>
      cases y with
      | error e' => cases hxy
      | ok b =>
          obtain rfl := Except.ok.inj hxy
          exact hgh a

namespace Progress

theorem descend_unplaced (limit : Nat) (f g : Frontier) (next next' : Option Nat) :
    (descend limit f g next).mapError ReadError.unplaced =
      (descend limit f g next').mapError ReadError.unplaced := by
  unfold descend
  split <;> rfl

theorem takeOperand_unplaced (limit : Nat) (f : Frontier) (token : Token)
    (position position' : Nat) (next next' : Option Nat) :
    (takeOperand limit f ⟨position, token⟩ next).mapError ReadError.unplaced =
      (takeOperand limit f ⟨position', token⟩ next').mapError ReadError.unplaced := by
  cases token with
  | openParen => exact descend_unplaced limit f _ next next'
  | operator op =>
      cases op with
      | add => exact descend_unplaced limit f _ next next'
      | sub => exact descend_unplaced limit f _ next next'
      | mul => rfl
      | pow => rfl
  | _ => rfl

theorem takeOperator_unplaced (limit : Nat) (f : Frontier) (a : Expr) (token : Token)
    (position position' : Nat) (next next' : Option Nat) :
    (takeOperator limit f a ⟨position, token⟩ next).mapError ReadError.unplaced =
      (takeOperator limit f a ⟨position', token⟩ next').mapError ReadError.unplaced := by
  cases token with
  | name x => rfl
  | openParen => exact descend_unplaced limit (f.times a) _ next next'
  | operator op =>
      cases op with
      | pow => exact descend_unplaced limit f _ next next'
      | _ => rfl
  | closeParen =>
      obtain ⟨l, outer⟩ := f
      cases outer <;> rfl
  | number n => rfl
  | slash => rfl

/-- Where the tokens stand makes no difference but to the place of a refusal. -/
theorem run_unplaced (limit : Nat) {ts us : List PlacedToken}
    (h : ts.map PlacedToken.token = us.map PlacedToken.token) (p : Progress) :
    (p.run limit ts).mapError ReadError.unplaced =
      (p.run limit us).mapError ReadError.unplaced := by
  induction ts generalizing us p with
  | nil =>
      cases us with
      | nil => rfl
      | cons u us => cases h
  | cons t ts ih =>
      cases us with
      | nil => cases h
      | cons u us =>
          obtain ⟨position, token⟩ := t
          obtain ⟨position', token'⟩ := u
          obtain ⟨rfl, hrest⟩ := List.cons.inj h
          rw [run, run]
          refine mapError_bind_congr ?_ fun q => ih hrest q
          cases p with
          | beforeOperand f => exact takeOperand_unplaced limit f _ _ _ _ _
          | afterAtom f a => exact takeOperator_unplaced limit f a _ _ _ _ _

end Progress

theorem Expr.ofTokens_unplaced {ts us : List PlacedToken}
    (h : ts.map PlacedToken.token = us.map PlacedToken.token) :
    (ofTokens ts).mapError ReadError.unplaced = (ofTokens us).mapError ReadError.unplaced := by
  cases ts with
  | nil =>
      cases us with
      | nil => rfl
      | cons u us => cases h
  | cons t ts =>
      cases us with
      | nil => cases h
      | cons u us => exact Progress.run_unplaced maxNesting h _

namespace Token

/-- **Gaps make no difference.** A text that can be cut into tokens is gap, lexeme, gap, and so on,
where each lexeme is the longest match in front of the rest of the text. In every such cut the
tokens are placed at the bytes where their lexemes begin, one after another, and other gaps leave
the tokens as they are, as long as no gap between two of them vanishes. Then the tree is the same
too, or the refusal but for its place. -/
theorem ofText_gaps {text : String} {placed : List PlacedToken} (h : ofText text = .ok placed) :
    (∃ ps last, IsCut ps last ∧ text.toList = spread ps last) ∧
    placed.Pairwise (fun t u => t.position < u.position) ∧
    ∀ ps last, IsCut ps last → text.toList = spread ps last →
      placed.length = ps.length ∧
      (∀ xs p ys, ps = xs ++ p :: ys →
        text.toList = spread xs p.gap ++ (p.lexeme ++ spread ys last) ∧
        placed[xs.length]? = some ⟨(String.ofList (spread xs p.gap)).utf8ByteSize, p.token⟩) ∧
      ∀ ps' last' text', Regaps ps ps' → IsGap last' → text'.toList = spread ps' last' →
        (∃ placed', ofText text' = .ok placed' ∧
          placed'.map PlacedToken.token = placed.map PlacedToken.token) ∧
        (Expr.ofText text').mapError ReadError.unplaced =
          (Expr.ofText text).mapError ReadError.unplaced := by
  obtain ⟨ps, last, hcut, htext, hplaced⟩ := exists_cut_of_ofText h
  refine ⟨⟨ps, last, hcut, htext⟩, hplaced ▸ (pairwise_place hcut 0).2, ?_⟩
  intro ps last hcut htext
  obtain rfl := eq_place_of_ofText h hcut htext
  refine ⟨length_place 0 ps, ?_, ?_⟩
  · rintro xs p ys rfl
    refine ⟨?_, getElem?_place xs p ys⟩
    rw [htext, spread_append, spread, spread_last]
  · intro ps' last' text' hregaps hlast htext'
    have hread : ofText text' = .ok (place 0 ps') := by
      rw [ofText, htext', readFrom_spread (hregaps.isCut hcut hlast)]
    have htokens : (place 0 ps').map PlacedToken.token = (place 0 ps).map PlacedToken.token := by
      rw [map_token_place, map_token_place, hregaps.map_token]
    refine ⟨⟨_, hread, htokens⟩, ?_⟩
    rw [Expr.ofText, Expr.ofText, hread, h]
    exact Expr.ofTokens_unplaced htokens

/-- A point before a name, and a number before a name that begins with `e`. Both texts are refused
at the `2`, which stands where an operator has to be. -/
theorem ofText_gaps_of_neighbours :
    let one : Token := .number (.float 1.0)
    let two : Token := .number (.int 2)
    let ps : List Piece := [⟨[], ['1', '.'], one⟩, ⟨[], ['x'], .name "x"⟩, ⟨[' '], ['2'], two⟩,
      ⟨[], ['e', '1'], .name "e1"⟩]
    let ps' : List Piece := [⟨['\t'], ['1', '.'], one⟩, ⟨['\n'], ['x'], .name "x"⟩,
      ⟨['\u2003'], ['2'], two⟩, ⟨[' ', ' '], ['e', '1'], .name "e1"⟩]
    ofText "1.x 2e1" = .ok [⟨0, one⟩, ⟨2, .name "x"⟩, ⟨4, two⟩, ⟨5, .name "e1"⟩] ∧
    IsCut ps [] ∧ "1.x 2e1".toList = spread ps [] ∧
    Regaps ps ps' ∧ IsGap [' '] ∧ "\t1.\nx\u20032  e1 ".toList = spread ps' [' '] ∧
    (∃ placed', ofText "\t1.\nx\u20032  e1 " = .ok placed' ∧
      placed'.map PlacedToken.token = [one, .name "x", two, .name "e1"]) ∧
    (Expr.ofText "\t1.\nx\u20032  e1 ").mapError ReadError.unplaced =
      (Expr.ofText "1.x 2e1").mapError ReadError.unplaced := by
  intro one two ps ps'
  have hread : ofText "1.x 2e1" =
      .ok [⟨0, one⟩, ⟨2, .name "x"⟩, ⟨4, two⟩, ⟨5, .name "e1"⟩] := by decide +kernel
  have hcut : IsCut ps [] := by
    refine .cons nofun (begins_number ?_ ?_ ?_) (.cons nofun (begins_name ?_ ?_)
      (.cons ?_ (begins_number ?_ ?_ ?_) (.cons nofun (begins_name ?_ ?_)
        (.nil nofun)))) <;> decide +kernel
  have hregaps : Regaps ps ps' := by
    refine ⟨.cons ⟨rfl, rfl, ?_⟩ (.cons ⟨rfl, rfl, ?_⟩ (.cons ⟨rfl, rfl, ?_⟩
      (.cons ⟨rfl, rfl, ?_⟩ .nil))), .cons ?_ (.cons ?_ (.cons ?_ .nil))⟩ <;> decide +kernel
  have hlast : IsGap [' '] := by decide +kernel
  have htext : "1.x 2e1".toList = spread ps [] := by decide
  have htext' : "\t1.\nx\u20032  e1 ".toList = spread ps' [' '] := by decide
  obtain ⟨hplaced, hunplaced⟩ :=
    ((ofText_gaps hread).2.2 ps [] hcut htext).2.2 ps' [' '] _ hregaps hlast htext'
  exact ⟨hread, hcut, htext, hregaps, hlast, htext', hplaced, hunplaced⟩

end Token

end PolyCalc
