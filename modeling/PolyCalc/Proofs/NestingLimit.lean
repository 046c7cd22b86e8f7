import PolyCalc.Proofs.Gaps
import PolyCalc.Proofs.ViablePrefix

/-!
# Where the limit of nesting is met

A reader without a limit would go through the same steps: a limit does not change what a token does,
it only stops the reader at a token that opens a sign, a power or a parenthesis too many
(`Reaches.limited`). So a text is refused as nested too deeply exactly if the reader without a limit
gets to a token that opens one construct more than the limit, before it meets anything that cannot
be read (`run_eq_tooDeep_iff`). What has been closed again does not count, because a frontier holds
only what is open.

Told by the grammar, the text begins with tokens that go on to some expression, but to none that
stays within the limit.

The refusal points at the token after the one that opened too much, which lies behind it. If there
is none, it points at the beginning of the text (`Expr.ofText_tooDeep_at_start`).
-/

namespace PolyCalc

open Grammar

namespace Frontier

theorem depth_times_le (f : Frontier) (a : Expr) : (f.times a).depth ≤ f.depth := by
  simp only [depth, times, List.length_nil]
  omega

theorem depth_plus_le (f : Frontier) (op : Operator) (a : Expr) :
    (f.plus op a).depth ≤ f.depth := by
  simp only [depth, plus, List.length_nil]
  omega

theorem depth_outer_le (l outer : Level) (rest : List Level) :
    depth ⟨outer, rest⟩ ≤ depth ⟨l, outer :: rest⟩ := by
  simp only [depth, List.foldr_cons]
  omega

end Frontier

namespace Progress

variable {limit m n : Nat} {p q : Progress} {t : Token} {f g : Frontier}

/-- The number of open signs, powers and parentheses. -/
def depth : Progress → Nat
  | beforeOperand f => f.depth
  | afterAtom f _ => f.depth

/-- The token opens a sign, a power or a parenthesis, and `g` is what is open then. -/
inductive Deepens : Progress → Token → Frontier → Prop
  | openParen (f : Frontier) : Deepens (beforeOperand f) .openParen f.nest
  | minus (f : Frontier) : Deepens (beforeOperand f) (.operator .sub) (f.push .minus)
  | plus (f : Frontier) : Deepens (beforeOperand f) (.operator .add) (f.push .plus)
  | pow (f : Frontier) (a : Expr) :
      Deepens (afterAtom f a) (.operator .pow) (f.push (.power a))
  | juxtaposed (f : Frontier) (a : Expr) :
      Deepens (afterAtom f a) .openParen (f.times a).nest

/-- A token opens one construct at most. -/
theorem Deepens.depth_le (h : Deepens p t g) : g.depth ≤ p.depth + 1 := by
  cases h with
  | openParen => exact (Frontier.depth_nest _).le
  | minus => exact (Frontier.depth_push _ _).le
  | plus => exact (Frontier.depth_push _ _).le
  | pow => exact (Frontier.depth_push _ _).le
  | juxtaposed f a =>
      rw [Frontier.depth_nest]
      exact Nat.add_le_add_right (f.depth_times_le a) 1

/-! ## One token -/

theorem descend_eq_tooDeep {next : Option Nat} {position : Nat} (hg : g.depth = f.depth + 1)
    (h : descend limit f g next = .error (.tooDeep m position)) :
    m = limit ∧ limit < g.depth := by
  unfold descend at h
  split at h
  · cases h
  · exact ⟨(ReadError.tooDeep.inj (Except.error.inj h)).1.symm, by omega⟩

theorem descend_of_lt {next : Option Nat} (hg : g.depth = f.depth + 1) (hlt : limit < g.depth) :
    descend limit f g next = .error (.tooDeep limit (next.getD 0)) :=
  if_neg (by omega)

theorem takeOperand_eq_tooDeep {u : PlacedToken} {next : Option Nat} {position : Nat}
    (h : takeOperand limit f u next = .error (.tooDeep m position)) :
    ∃ g, Deepens (beforeOperand f) u.token g ∧ m = limit ∧ limit < g.depth := by
  obtain ⟨place, token⟩ := u
  cases token with
  | number c => cases h
  | name x => cases h
  | openParen => exact ⟨_, .openParen f, descend_eq_tooDeep f.depth_nest h⟩
  | operator op =>
      cases op with
      | add => exact ⟨_, .plus f, descend_eq_tooDeep (f.depth_push _) h⟩
      | sub => exact ⟨_, .minus f, descend_eq_tooDeep (f.depth_push _) h⟩
      | mul => cases h
      | pow => cases h
  | slash => cases h
  | closeParen => cases h

theorem take_eq_tooDeep {u : PlacedToken} {next : Option Nat} {position : Nat}
    (h : p.take limit u next = .error (.tooDeep m position)) :
    ∃ g, Deepens p u.token g ∧ m = limit ∧ limit < g.depth := by
  cases p with
  | beforeOperand f => exact takeOperand_eq_tooDeep h
  | afterAtom f a =>
      obtain ⟨place, token⟩ := u
      cases token with
      | number c => cases h
      | name x => cases h
      | openParen => exact ⟨_, .juxtaposed f a, descend_eq_tooDeep (f.times a).depth_nest h⟩
      | operator op =>
          cases op with
          | pow => exact ⟨_, .pow f a, descend_eq_tooDeep (f.depth_push _) h⟩
          | add => cases h
          | sub => cases h
          | mul => cases h
      | slash => cases h
      | closeParen =>
          obtain ⟨l, outer⟩ := f
          cases outer with
          | nil => cases h
          | cons k outer => cases h

theorem Deepens.take_eq_error {u : PlacedToken} (h : Deepens p u.token g) (hlt : limit < g.depth)
    (next : Option Nat) : p.take limit u next = .error (.tooDeep limit (next.getD 0)) := by
  obtain ⟨place, token⟩ := u
  cases h with
  | openParen f => exact descend_of_lt f.depth_nest hlt
  | minus f => exact descend_of_lt (f.depth_push _) hlt
  | plus f => exact descend_of_lt (f.depth_push _) hlt
  | pow f a => exact descend_of_lt (f.depth_push _) hlt
  | juxtaposed f a => exact descend_of_lt (f.times a).depth_nest hlt

theorem Deepens.not_takes (h : Deepens p t g) (hlt : limit < g.depth) : ¬ Takes limit p t q := by
  intro htakes
  have hok : p.take limit ⟨0, t⟩ none = .ok q := take_eq_ok.mpr htakes
  rw [h.take_eq_error hlt] at hok
  cases hok

theorem Deepens.takes (h : Deepens p t g) (hlt : p.depth < limit) :
    Takes limit p t (beforeOperand g) := by
  cases h with
  | openParen f => exact .openParen hlt
  | minus f => exact .minus hlt
  | plus f => exact .plus hlt
  | pow f a => exact .pow a hlt
  | juxtaposed f a =>
      exact .juxtaposed trivial (.openParen ((f.depth_times_le a).trans_lt hlt))

/-- A token that can be taken under one limit can be taken under any other one, unless it opens too
much there. -/
theorem Takes.limited (h : Takes n p t q) (limit : Nat) :
    Takes limit p t q ∨ ∃ g, Deepens p t g ∧ limit < g.depth := by
  have hopens : ∀ {f g : Frontier}, g.depth = f.depth + 1 → f.depth < limit ∨ limit < g.depth :=
    fun hg => by omega
  induction h with
  | number f c => exact Or.inl (.number f c)
  | name f x => exact Or.inl (.name f x)
  | @openParen f _ =>
      exact (hopens f.depth_nest).imp .openParen fun hlt => ⟨_, .openParen f, hlt⟩
  | @minus f _ => exact (hopens (f.depth_push _)).imp .minus fun hlt => ⟨_, .minus f, hlt⟩
  | @plus f _ => exact (hopens (f.depth_push _)).imp .plus fun hlt => ⟨_, .plus f, hlt⟩
  | @pow f a _ => exact (hopens (f.depth_push _)).imp (.pow a) fun hlt => ⟨_, .pow f a, hlt⟩
  | mul f a => exact Or.inl (.mul f a)
  | add f a => exact Or.inl (.add f a)
  | sub f a => exact Or.inl (.sub f a)
  | @juxtaposed f a t q hbegins _ ih =>
      refine ih.imp (.juxtaposed hbegins) ?_
      rintro ⟨g, hg, hlt⟩
      cases hg with
      | openParen => exact ⟨_, .juxtaposed f a, hlt⟩
      | minus => exact hbegins.elim
      | plus => exact hbegins.elim
  | closeParen l outer rest a => exact Or.inl (.closeParen l outer rest a)

theorem Takes.mono (h : Takes m p t q) (hmn : m ≤ n) : Takes n p t q := by
  refine (h.limited n).resolve_right ?_
  rintro ⟨g, hg, hlt⟩
  exact hg.not_takes (hmn.trans_lt hlt) h

/-- What is open stays within the limit. -/
theorem Takes.depth_le (h : Takes limit p t q) (hp : p.depth ≤ limit) : q.depth ≤ limit := by
  induction h with
  | number => exact hp
  | name => exact hp
  | @openParen f hlt => exact f.depth_nest.trans_le hlt
  | @minus f hlt => exact (f.depth_push _).trans_le hlt
  | @plus f hlt => exact (f.depth_push _).trans_le hlt
  | @pow f a hlt => exact (f.depth_push _).trans_le hlt
  | mul f a => exact (f.depth_times_le a).trans hp
  | add f a => exact (f.depth_plus_le .add a).trans hp
  | sub f a => exact (f.depth_plus_le .sub a).trans hp
  | @juxtaposed f a _ _ _ _ ih => exact ih ((f.depth_times_le a).trans hp)
  | closeParen l outer rest a => exact (Frontier.depth_outer_le l outer rest).trans hp

/-! ## Runs -/

variable {ts : List Token} {placed before after : List PlacedToken} {u : PlacedToken}

theorem Reaches.depth_le (h : Reaches limit p ts q) (hp : p.depth ≤ limit) : q.depth ≤ limit := by
  induction h with
  | nil _ => exact hp
  | cons ht _ ih => exact ih (ht.depth_le hp)

theorem Reaches.mono (h : Reaches m p ts q) (hmn : m ≤ n) : Reaches n p ts q := by
  induction h with
  | nil p => exact .nil p
  | cons ht _ ih => exact .cons (ht.mono hmn) ih

/-- Under another limit the run is the same, up to the first token that opens too much there. -/
theorem Reaches.limited (h : Reaches n p ts q) (limit : Nat) :
    Reaches limit p ts q ∨ ∃ before t after r g, ts = before ++ t :: after ∧
      Reaches limit p before r ∧ Deepens r t g ∧ limit < g.depth := by
  induction h with
  | nil p => exact Or.inl (.nil p)
  | @cons p q' _ t ts ht _ ih =>
      rcases ht.limited limit with htakes | ⟨g, hg, hlt⟩
      · refine ih.imp (.cons htakes) ?_
        rintro ⟨before, t', after, r, g, rfl, hreach, hg, hlt⟩
        exact ⟨t :: before, t', after, r, g, rfl, .cons htakes hreach, hg, hlt⟩
      · exact Or.inr ⟨[], t, ts, p, g, rfl, .nil p, hg, hlt⟩

theorem run_of_reaches (h : Reaches limit p (before.map PlacedToken.token) q) :
    p.run limit (before ++ after) = q.run limit after := by
  induction before generalizing p with
  | nil =>
      cases h with
      | nil _ => rfl
  | cons u before ih =>
      cases h with
      | cons ht hrest =>
          rw [List.cons_append, run, take_eq_ok.mpr ht]
          exact ih hrest

theorem run_of_deepens (h : Deepens p u.token g) (hlt : limit < g.depth)
    (after : List PlacedToken) : p.run limit (u :: after) =
      .error (.tooDeep limit ((after.head?.map PlacedToken.position).getD 0)) := by
  rw [run, h.take_eq_error hlt]
  rfl

theorem finish_ne_tooDeep {position : Nat} : p.finish ≠ .error (.tooDeep m position) := by
  intro h
  obtain ⟨_, h⟩ := finish_eq_error h
  cases h

/-- A run meets the limit at the first token that opens too much. -/
theorem run_eq_tooDeep_iff {position : Nat} :
    p.run limit placed = .error (.tooDeep m position) ↔
      ∃ before u after q g, placed = before ++ u :: after ∧
        Reaches limit p (before.map PlacedToken.token) q ∧ Deepens q u.token g ∧
        limit < g.depth ∧ m = limit ∧
        position = (after.head?.map PlacedToken.position).getD 0 := by
  constructor
  · intro h
    rcases run_eq_error h with ⟨before, u, after, q, next, rfl, hreach, htake⟩ | ⟨q, -, hfinish⟩
    · obtain ⟨g, hg, rfl, hlt⟩ := take_eq_tooDeep htake
      rw [run_of_reaches hreach, run_of_deepens hg hlt] at h
      have hposition := (ReadError.tooDeep.inj (Except.error.inj h)).2
      exact ⟨before, u, after, q, g, rfl, hreach, hg, hlt, rfl, hposition.symm⟩
    · exact absurd hfinish finish_ne_tooDeep
  · rintro ⟨before, u, after, q, g, rfl, hreach, hg, hlt, rfl, rfl⟩
    rw [run_of_reaches hreach, run_of_deepens hg hlt]

theorem exists_placed_split {before after : List Token}
    (h : placed.map PlacedToken.token = before ++ t :: after) :
    ∃ before' u after', placed = before' ++ u :: after' ∧
      before'.map PlacedToken.token = before ∧ u.token = t := by
  obtain ⟨before', rest, rfl, hbefore, hrest⟩ := List.map_eq_append_iff.mp h
  obtain ⟨u, after', rfl, hu, -⟩ := List.map_eq_cons_iff.mp hrest
  exact ⟨before', u, after', rfl, hbefore, hu⟩

/-- Places aside, what matters is that some token opens too much. -/
theorem run_isTooDeep_iff :
    (∃ position, p.run limit placed = .error (.tooDeep limit position)) ↔
      ∃ before t after q g, placed.map PlacedToken.token = before ++ t :: after ∧
        Reaches limit p before q ∧ Deepens q t g ∧ limit < g.depth := by
  simp only [run_eq_tooDeep_iff]
  constructor
  · rintro ⟨_, before, u, after, q, g, rfl, hreach, hg, hlt, -⟩
    exact ⟨_, u.token, _, q, g, List.map_append, hreach, hg, hlt⟩
  · rintro ⟨before, t, after, q, g, htokens, hreach, hg, hlt⟩
    obtain ⟨before', u, after', hplaced, rfl, rfl⟩ := exists_placed_split htokens
    exact ⟨_, before', u, after', q, g, hplaced, hreach, hg, hlt, trivial, rfl⟩

/-! ## Without a limit -/

/-- A reader without a limit gets through the tokens and stands there then. -/
def Scans (ts : List Token) (q : Progress) : Prop :=
  ∃ limit, Reaches limit (beforeOperand .start) ts q

/-- A reader without a limit gets through the tokens before, and then `t` opens the construct with
which `limit + 1` of them are open. -/
def Surpasses (limit : Nat) (before : List Token) (t : Token) : Prop :=
  ∃ q g, Scans before q ∧ Deepens q t g ∧ g.depth = limit + 1

theorem surpasses_of_reaches (h : Reaches limit (beforeOperand .start) ts q) (hg : Deepens q t g)
    (hlt : limit < g.depth) : Surpasses limit ts t := by
  have hq : q.depth ≤ limit := h.depth_le (Nat.zero_le limit)
  have hle := hg.depth_le
  exact ⟨q, g, ⟨limit, h⟩, hg, by omega⟩

/-- If too much is opened at all, there is a first token that does. -/
theorem Surpasses.exists_first (h : Surpasses limit ts t) (after : List Token) :
    ∃ before u rest q g, ts ++ t :: after = before ++ u :: rest ∧
      Reaches limit (beforeOperand .start) before q ∧ Deepens q u g ∧ limit < g.depth := by
  obtain ⟨q, g, ⟨n, hscans⟩, hg, hdepth⟩ := h
  rcases hscans.limited limit with hreach | ⟨before, u, rest, r, g', rfl, hreach, hg', hlt⟩
  · exact ⟨ts, t, after, q, g, rfl, hreach, hg, by omega⟩
  · exact ⟨before, u, rest ++ t :: after, r, g', by simp, hreach, hg', hlt⟩

/-- Something is open before the second construct is opened, so some token stands before. -/
theorem Surpasses.ne_nil (h : Surpasses limit ts t) (hlimit : 0 < limit) : ts ≠ [] := by
  rintro rfl
  obtain ⟨q, g, ⟨n, hscans⟩, hg, hdepth⟩ := h
  cases hscans with
  | nil _ =>
      have hle : g.depth ≤ 0 + 1 := hg.depth_le
      omega

end Progress

open Progress

/-! ## Told by the grammar -/

namespace Grammar

variable {n limit : Nat} {ts : List Token}

/-- The tokens go on to an expression in which no more than `n` constructs are open at once. -/
def GoesOn (n : Nat) (ts : List Token) : Prop := ∃ more e, Derives .sum n (ts ++ more) e

theorem goesOn_iff_reaches :
    GoesOn n ts ↔ ∃ q, Reaches n (beforeOperand .start) ts q := by
  constructor
  · rintro ⟨more, e, h⟩
    obtain ⟨q, hq, -⟩ := reaches_finish_iff_derives.mpr h
    obtain ⟨q', hq', -⟩ := hq.of_append
    exact ⟨q', hq'⟩
  · rintro ⟨q, hq⟩
    obtain ⟨more, q', e, hmore, hfinish⟩ := exists_completion n q
    exact ⟨more, e, reaches_finish_iff_derives.mp ⟨q', hq.trans hmore, hfinish⟩⟩

/-- Some beginning of the tokens goes on to an expression, but to none within the limit, exactly if
one of the tokens opens too much. -/
theorem exists_not_goesOn_iff :
    (∃ us, us <+: ts ∧ (∃ n, GoesOn n us) ∧ ¬ GoesOn limit us) ↔
      ∃ before t after q g, ts = before ++ t :: after ∧
        Reaches limit (beforeOperand .start) before q ∧ Deepens q t g ∧ limit < g.depth := by
  simp only [goesOn_iff_reaches]
  constructor
  · rintro ⟨us, ⟨rest, rfl⟩, ⟨n, q, hq⟩, hnot⟩
    rcases hq.limited limit with hreach | ⟨before, t, after, r, g, rfl, hreach, hg, hlt⟩
    · exact absurd ⟨q, hreach⟩ hnot
    · exact ⟨before, t, after ++ rest, r, g, by simp, hreach, hg, hlt⟩
  · rintro ⟨before, t, after, q, g, rfl, hreach, hg, hlt⟩
    have hq : q.depth ≤ limit := hreach.depth_le (Nat.zero_le limit)
    have hunlimited : Reaches (limit + 1) (beforeOperand .start) (before ++ [t])
        (beforeOperand g) :=
      (hreach.mono limit.le_succ).trans (hg.takes (Nat.lt_succ_of_le hq)).reaches
    refine ⟨before ++ [t], ⟨after, by simp⟩, ⟨limit + 1, _, hunlimited⟩, ?_⟩
    rintro ⟨r, hr⟩
    obtain ⟨q', hq', hlast⟩ := hr.of_append
    obtain rfl := hreach.unique hq'
    cases hlast with
    | cons htakes _ => exact hg.not_takes hlt htakes

end Grammar

/-! ## Places in the text -/

namespace Token

theorem lt_of_mem_place {ps : List Piece} {last : List Char} (h : IsCut ps last) (position : Nat) :
    ∀ t ∈ place position ps, t.position < position + String.utf8Len (spread ps last) := by
  induction h generalizing position with
  | nil _ => exact nofun
  | @cons p ps last _ hbegins _ ih =>
      have hpos := utf8Len_pos hbegins.ne_nil
      rw [spread, String.utf8Len_append, String.utf8Len_append]
      refine List.forall_mem_cons.mpr ⟨?_, fun t ht => ?_⟩
      · show position + String.utf8Len p.gap < _
        omega
      · have hrest := ih (position + String.utf8Len p.gap + String.utf8Len p.lexeme) t ht
        omega

theorem position_lt_of_mem_ofText {text : String} {placed : List PlacedToken}
    (h : ofText text = .ok placed) : ∀ t ∈ placed, t.position < text.utf8ByteSize := by
  obtain ⟨ps, last, hcut, htext, rfl⟩ := exists_cut_of_ofText h
  intro t ht
  have hlt := lt_of_mem_place hcut 0 t ht
  rwa [Nat.zero_add, ← htext, ← String.utf8ByteSize_ofList, String.ofList_toList] at hlt

theorem pairwise_position_of_ofText {text : String} {placed : List PlacedToken}
    (h : ofText text = .ok placed) :
    placed.Pairwise fun t u => t.position < u.position := by
  obtain ⟨ps, last, hcut, -, rfl⟩ := exists_cut_of_ofText h
  exact (pairwise_place hcut 0).2

end Token

namespace Expr

theorem ofText_eq_tooDeep_iff {text : String} {placed : List PlacedToken}
    (h : Token.ofText text = .ok placed) {m position : Nat} :
    ofText text = .error (.tooDeep m position) ↔
      (beforeOperand .start).run maxNesting placed = .error (.tooDeep m position) := by
  rw [ofText, h]
  cases placed with
  | nil =>
      refine iff_of_false (fun hempty => ?_) fun hrun => ?_
      · cases hempty
      · cases hrun
  | cons t ts => exact Iff.rfl

/-- **The limit of nesting.** A text that can be cut into tokens is refused as nested too deeply if
and only if the reader without a limit gets to a token that opens one construct more than may be
open at once. Told by the grammar: if and only if the tokens begin with some that go on to an
expression, but to none within the limit. The refusal belongs to the first such token; those before
it go on to an expression within the limit. It points at the next token, behind that one and in the
text, and at the beginning of the text if that token is the last one. -/
theorem ofText_tooDeep {text : String} {placed : List PlacedToken}
    (h : Token.ofText text = .ok placed) :
    ((∃ position, ofText text = .error (.tooDeep maxNesting position)) ↔
      ∃ before t after, placed.map PlacedToken.token = before ++ t :: after ∧
        Surpasses maxNesting before t) ∧
    ((∃ position, ofText text = .error (.tooDeep maxNesting position)) ↔
      ∃ ts, ts <+: placed.map PlacedToken.token ∧ (∃ n, GoesOn n ts) ∧ ¬ GoesOn maxNesting ts) ∧
    ∀ limit position, ofText text = .error (.tooDeep limit position) → limit = maxNesting ∧
      ∃ before t after, placed = before ++ t :: after ∧
        Surpasses maxNesting (before.map PlacedToken.token) t.token ∧
        GoesOn maxNesting (before.map PlacedToken.token) ∧
        ((∃ next rest, after = next :: rest ∧ position = next.position ∧
            t.position < position ∧ position < text.utf8ByteSize) ∨
          (after = [] ∧ position = 0 ∧ position < t.position)) := by
  simp only [ofText_eq_tooDeep_iff h]
  refine ⟨?_, run_isTooDeep_iff.trans exists_not_goesOn_iff.symm, ?_⟩
  · rw [run_isTooDeep_iff]
    constructor
    · rintro ⟨before, t, after, q, g, htokens, hreach, hg, hlt⟩
      exact ⟨before, t, after, htokens, surpasses_of_reaches hreach hg hlt⟩
    · rintro ⟨before, t, after, htokens, hsurpasses⟩
      obtain ⟨before', u, rest, q, g, hsplit, hfirst⟩ := hsurpasses.exists_first after
      exact ⟨before', u, rest, q, g, htokens.trans hsplit, hfirst⟩
  · intro limit position hrun
    obtain ⟨before, t, after, q, g, rfl, hreach, hg, hlt, rfl, rfl⟩ := run_eq_tooDeep_iff.mp hrun
    have hsurpasses := surpasses_of_reaches hreach hg hlt
    obtain ⟨-, hlater, hbefore⟩ :=
      List.pairwise_append.mp (Token.pairwise_position_of_ofText h)
    refine ⟨rfl, before, t, after, rfl, hsurpasses, goesOn_iff_reaches.mpr ⟨q, hreach⟩, ?_⟩
    cases after with
    | nil =>
        have hne : before ≠ [] := fun hnil =>
          hsurpasses.ne_nil (by decide) (by rw [hnil, List.map_nil])
        obtain ⟨u, us, rfl⟩ := List.exists_cons_of_ne_nil hne
        have hlt' := hbefore u (List.mem_cons_self ..) t (List.mem_cons_self ..)
        exact Or.inr ⟨rfl, rfl, Nat.zero_lt_of_lt hlt'⟩
    | cons next rest =>
        refine Or.inl ⟨next, rest, rfl, rfl, ?_, ?_⟩
        · exact (List.pairwise_cons.mp hlater).1 next (List.mem_cons_self ..)
        · exact Token.position_lt_of_mem_ofText h next (by simp)

end Expr

/-! ## Parentheses -/

/-- Open parentheses in places one after another. -/
def openParens (position n : Nat) : List PlacedToken :=
  (List.range' position n).map fun i => ⟨i, .openParen⟩

theorem openParens_succ (position n : Nat) :
    openParens position (n + 1) = openParens position n ++ [⟨position + n, .openParen⟩] := by
  rw [openParens, List.range'_1_concat, List.map_append]
  rfl

theorem map_token_openParens (position n : Nat) :
    (openParens position n).map PlacedToken.token = List.replicate n .openParen := by
  simp [openParens, Function.comp_def]

theorem Token.readFrom_openParens (n position : Nat) (rest : List Char) :
    readFrom 0 position (List.replicate n '(' ++ rest) =
      (readFrom 0 (position + n) rest).map (openParens position n ++ ·) := by
  induction n generalizing position with
  | zero =>
      show readFrom 0 position rest = (readFrom 0 position rest).map ([] ++ ·)
      cases readFrom 0 position rest <;> rfl
  | succ n ih =>
      have hstep : readFrom 0 position ('(' :: (List.replicate n '(' ++ rest)) =
          (readFrom 0 (position + 1) (List.replicate n '(' ++ rest)).map
            (⟨position, .openParen⟩ :: ·) :=
        readFrom_of_begins (begins_symbol (c := '(') rfl (List.replicate n '(' ++ rest)) position
      rw [List.replicate_succ, List.cons_append, hstep, ih, Nat.add_assoc, Nat.add_comm 1 n]
      cases readFrom 0 (position + (n + 1)) rest <;> rfl

theorem Progress.exists_reaches_openParens (n : Nat) (f : Frontier) : ∃ g : Frontier,
    g.depth = f.depth + n ∧
      Reaches (f.depth + n) (beforeOperand f) (List.replicate n .openParen) (beforeOperand g) := by
  induction n generalizing f with
  | zero => exact ⟨f, rfl, .nil _⟩
  | succ n ih =>
      obtain ⟨g, hg, hreach⟩ := ih f.nest
      rw [Frontier.depth_nest, Nat.add_assoc, Nat.add_comm 1 n] at hg hreach
      exact ⟨g, hg, .cons (.openParen (Nat.lt_add_of_pos_right n.succ_pos)) hreach⟩

/-- The last of `limit + 1` parentheses is the one too many. -/
theorem Progress.surpasses_openParens (limit : Nat) :
    Surpasses limit ((openParens 0 limit).map PlacedToken.token) .openParen := by
  obtain ⟨g, hg, hreach⟩ := exists_reaches_openParens limit .start
  rw [map_token_openParens]
  refine ⟨_, _, ⟨_, hreach⟩, .openParen g, ?_⟩
  rw [Frontier.depth_nest, hg]
  exact congrArg (· + 1) (Nat.zero_add limit)

theorem Progress.run_openParens (limit : Nat) (ts : List PlacedToken) :
    (beforeOperand .start).run limit (openParens 0 (limit + 1) ++ ts) =
      .error (.tooDeep limit ((ts.head?.map PlacedToken.position).getD 0)) := by
  obtain ⟨g, hg, hreach⟩ := exists_reaches_openParens limit .start
  have hstart : Frontier.start.depth + limit = limit := Nat.zero_add limit
  rw [hstart] at hg hreach
  rw [← map_token_openParens 0 limit] at hreach
  rw [openParens_succ, List.append_assoc, run_of_reaches hreach]
  refine run_of_deepens (.openParen g) ?_ ts
  rw [Frontier.depth_nest, hg]
  exact Nat.lt_succ_self limit

namespace Expr

/-- One parenthesis too many is refused where the next token stands. -/
theorem ofText_openParens {rest : List Char} {ts : List PlacedToken}
    (h : Token.readFrom 0 (maxNesting + 1) rest = .ok ts) :
    Token.ofText (String.ofList (List.replicate (maxNesting + 1) '(' ++ rest)) =
        .ok (openParens 0 (maxNesting + 1) ++ ts) ∧
      ofText (String.ofList (List.replicate (maxNesting + 1) '(' ++ rest)) =
        .error (.tooDeep maxNesting ((ts.head?.map PlacedToken.position).getD 0)) := by
  have htokens : Token.ofText (String.ofList (List.replicate (maxNesting + 1) '(' ++ rest)) =
      .ok (openParens 0 (maxNesting + 1) ++ ts) := by
    rw [Token.ofText, String.toList_ofList, Token.readFrom_openParens, Nat.zero_add, h]
    rfl
  exact ⟨htokens, (ofText_eq_tooDeep_iff htokens).mpr (run_openParens maxNesting ts)⟩

/-- Too many parentheses before a name. They are refused at the name, and the tokens before the
last one of them do go on to an expression. -/
theorem ofText_tooDeep_of_parens :
    ∃ text placed, Token.ofText text = .ok placed ∧
      ofText text = .error (.tooDeep maxNesting (maxNesting + 1)) ∧
      (∃ before t after, placed.map PlacedToken.token = before ++ t :: after ∧
        Surpasses maxNesting before t) ∧
      (∃ ts, ts <+: placed.map PlacedToken.token ∧ (∃ n, GoesOn n ts) ∧ ¬ GoesOn maxNesting ts) ∧
      ∃ before t next rest, placed = before ++ t :: next :: rest ∧
        GoesOn maxNesting (before.map PlacedToken.token) ∧ next.position = maxNesting + 1 := by
  have hread : Token.readFrom 0 (maxNesting + 1) ['x'] = .ok [⟨maxNesting + 1, .name "x"⟩] := rfl
  obtain ⟨htokens, herror⟩ := ofText_openParens hread
  obtain ⟨hiff, hgrammar, hplace⟩ := ofText_tooDeep htokens
  obtain ⟨-, before, t, after, hsplit, -, hgoesOn, hafter⟩ := hplace _ _ herror
  refine ⟨_, _, htokens, herror, hiff.mp ⟨_, herror⟩, hgrammar.mp ⟨_, herror⟩, ?_⟩
  rcases hafter with ⟨next, rest, rfl, hnext, -⟩ | ⟨-, hzero, -⟩
  · exact ⟨before, t, next, rest, hsplit, hgoesOn, hnext.symm⟩
  · cases hzero

/-- The last token of the text opens too much, and the refusal points at the beginning of the text,
before that token. -/
theorem ofText_tooDeep_at_start :
    let text := String.ofList (List.replicate (maxNesting + 1) '(' ++ [' '])
    ofText text = .error (.tooDeep maxNesting 0) ∧
      ∃ before t, Token.ofText text = .ok (before ++ [t]) ∧
        Surpasses maxNesting (before.map PlacedToken.token) t.token ∧
        t.position = maxNesting := by
  have hread : Token.readFrom 0 (maxNesting + 1) [' '] = .ok [] := rfl
  obtain ⟨htokens, herror⟩ := ofText_openParens hread
  refine ⟨herror, openParens 0 maxNesting, ⟨maxNesting, .openParen⟩, ?_,
    surpasses_openParens maxNesting, rfl⟩
  rw [htokens, openParens_succ, List.append_nil, Nat.zero_add]

end Expr

end PolyCalc
