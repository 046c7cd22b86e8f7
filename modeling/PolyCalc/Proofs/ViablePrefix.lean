import PolyCalc.Proofs.Recognition

/-!
# Refusals point at the first impossible token

The reader takes a token only if some text goes on from there. Whatever it has taken can be
completed (`exists_completion`): an operand, if one is awaited, and the parentheses that are open.
None of these opens anything, so the limit of nesting does not stand in the way. On the other side a
token that is refused for what it is cannot be taken at this place, and there is no other way to
read the tokens before it (`Reaches.unique`). Both together say that a refusal is at the first token
after which no text goes on (`Expr.ofText_rejects`).

A refusal that comes from the limit is different: it is about how much is open, and the token that
it points at is the one after the opening one.
-/

namespace PolyCalc

/-- The refusal is about this token, for what the token is. -/
inductive ReadError.Rejects : ReadError → PlacedToken → Prop
  | division (position : Nat) : Rejects (.division position) ⟨position, .slash⟩
  | unexpectedToken (expected : Expectation) {found : Token} (position : Nat)
      (hne : found ≠ .slash) :
      Rejects (.unexpectedToken expected found position) ⟨position, found⟩

/-- The refusal is of one of the two kinds that are about a token, and this is its place. -/
inductive ReadError.PointsAt : ReadError → Nat → Prop
  | division (position : Nat) : PointsAt (.division position) position
  | unexpectedToken (expected : Expectation) (found : Token) (position : Nat) :
      PointsAt (.unexpectedToken expected found position) position

namespace Progress

variable {limit : Nat} {p q : Progress} {r : ReadError}

/-! ## Where a run ends -/

theorem descend_eq_error {f g : Frontier} {next : Option Nat}
    (h : descend limit f g next = .error r) : ∃ position, r = .tooDeep limit position := by
  unfold descend at h
  split at h
  · cases h
  · exact ⟨_, (Except.error.inj h).symm⟩

theorem takeOperand_eq_error {f : Frontier} {t : PlacedToken} {next : Option Nat}
    (h : takeOperand limit f t next = .error r) :
    r.Rejects t ∨ ∃ position, r = .tooDeep limit position := by
  obtain ⟨position, token⟩ := t
  cases token with
  | number n => cases h
  | name x => cases h
  | openParen => exact Or.inr (descend_eq_error h)
  | operator op =>
      cases op with
      | add => exact Or.inr (descend_eq_error h)
      | sub => exact Or.inr (descend_eq_error h)
      | mul => exact Or.inl (Except.error.inj h ▸ .unexpectedToken .operand position nofun)
      | pow => exact Or.inl (Except.error.inj h ▸ .unexpectedToken .operand position nofun)
  | slash => exact Or.inl (Except.error.inj h ▸ .division position)
  | closeParen => exact Or.inl (Except.error.inj h ▸ .unexpectedToken .operand position nofun)

theorem take_eq_error {t : PlacedToken} {next : Option Nat} (h : p.take limit t next = .error r) :
    r.Rejects t ∨ ∃ position, r = .tooDeep limit position := by
  cases p with
  | beforeOperand f => exact takeOperand_eq_error h
  | afterAtom f a =>
      obtain ⟨position, token⟩ := t
      cases token with
      | number n => exact Or.inl (Except.error.inj h ▸ .unexpectedToken _ position nofun)
      | name x => cases h
      | openParen => exact Or.inr (descend_eq_error h)
      | operator op =>
          cases op with
          | pow => exact Or.inr (descend_eq_error h)
          | mul => cases h
          | add => cases h
          | sub => cases h
      | slash => exact Or.inl (Except.error.inj h ▸ .division position)
      | closeParen =>
          obtain ⟨l, outer⟩ := f
          cases outer with
          | nil => exact Or.inl (Except.error.inj h ▸ .unexpectedToken _ position nofun)
          | cons m outer => cases h

/-- A run fails at a token that cannot be taken after those before it, or after all of them. -/
theorem run_eq_error {ts : List PlacedToken} (h : p.run limit ts = .error r) :
    (∃ before t after q next, ts = before ++ t :: after ∧
      Reaches limit p (before.map PlacedToken.token) q ∧ q.take limit t next = .error r) ∨
    ∃ q, Reaches limit p (ts.map PlacedToken.token) q ∧ q.finish = .error r := by
  induction ts generalizing p with
  | nil => exact Or.inr ⟨p, .nil p, h⟩
  | cons t ts ih =>
      rcases bind_eq_error.mp h with hhere | ⟨q, hq, hrest⟩
      · exact Or.inl ⟨[], t, ts, p, _, rfl, .nil p, hhere⟩
      · have htakes := take_eq_ok.mp hq
        rcases ih hrest with
          ⟨before, u, after, q', next, rfl, hreach, herror⟩ | ⟨q', hreach, herror⟩
        · exact Or.inl ⟨t :: before, u, after, q', next, rfl, .cons htakes hreach, herror⟩
        · exact Or.inr ⟨q', .cons htakes hreach, herror⟩

/-! ## What can follow -/

theorem Takes.unique {t : Token} {q' : Progress} (h : Takes limit p t q)
    (h' : Takes limit p t q') : q = q' := by
  have htake : p.take limit ⟨0, t⟩ none = .ok q := take_eq_ok.mpr h
  have htake' : p.take limit ⟨0, t⟩ none = .ok q' := take_eq_ok.mpr h'
  exact Except.ok.inj (htake.symm.trans htake')

theorem Reaches.unique {ts : List Token} {q' : Progress} (h : Reaches limit p ts q)
    (h' : Reaches limit p ts q') : q = q' := by
  induction h with
  | nil _ => cases h' with | nil _ => rfl
  | cons ht _ ih =>
      cases h' with
      | cons ht' hrest' =>
          obtain rfl := ht.unique ht'
          exact ih hrest'

theorem Reaches.of_append {ts us : List Token} (h : Reaches limit p (ts ++ us) q) :
    ∃ q', Reaches limit p ts q' ∧ Reaches limit q' us q := by
  induction ts generalizing p with
  | nil => exact ⟨p, .nil p, h⟩
  | cons t ts ih =>
      cases h with
      | cons ht hrest =>
          obtain ⟨q', hq, hus⟩ := ih hrest
          exact ⟨q', .cons ht hq, hus⟩

theorem exists_closed (limit : Nat) (f : Frontier) (a : Expr) : ∃ q e,
    Reaches limit (afterAtom f a) (List.replicate f.outer.length .closeParen) q ∧
      q.finish = .ok e := by
  obtain ⟨l, outer⟩ := f
  induction outer generalizing l a with
  | nil => exact ⟨_, _, .nil _, rfl⟩
  | cons m rest ih =>
      obtain ⟨q, e, hreach, hfinish⟩ := ih (l.value a) m
      exact ⟨q, e, .cons (.closeParen l m rest a) hreach, hfinish⟩

/-- From everywhere the text can be brought to an end: with an operand, if one is awaited, and with
the parentheses that are open. -/
theorem exists_completion (limit : Nat) (p : Progress) :
    ∃ ts q e, Reaches limit p ts q ∧ q.finish = .ok e := by
  cases p with
  | beforeOperand f =>
      obtain ⟨q, e, hreach, hfinish⟩ := exists_closed limit f (.num (.int 0))
      exact ⟨_, q, e, .cons (.number f (.int 0)) hreach, hfinish⟩
  | afterAtom f a =>
      obtain ⟨q, e, hreach, hfinish⟩ := exists_closed limit f a
      exact ⟨_, q, e, hreach, hfinish⟩

end Progress

/-! ## Accepted lists of tokens -/

open Progress

namespace Expr

/-- A tree is read from the tokens, wherever they stand. -/
def Accepted (ts : List Token) : Prop :=
  ∃ placed e, placed.map PlacedToken.token = ts ∧ ofTokens placed = .ok e

variable {ts : List Token} {q : Progress}

theorem accepted_iff : Accepted ts ↔
    ∃ q e, Reaches maxNesting (beforeOperand .start) ts q ∧ q.finish = .ok e := by
  constructor
  · rintro ⟨placed, e, rfl, h⟩
    obtain ⟨q, hq, hfinish⟩ := reaches_finish_iff_derives.mpr (ofTokensWithin_eq_ok.mp h)
    exact ⟨q, e, hq, hfinish⟩
  · rintro ⟨q, e, hq, hfinish⟩
    obtain ⟨placed, rfl⟩ := exists_placed ts
    have hderives := reaches_finish_iff_derives.mp ⟨q, hq, hfinish⟩
    exact ⟨placed, e, rfl, ofTokensWithin_eq_ok.mpr hderives⟩

/-- What has been taken goes on to something that is accepted. -/
theorem accepted_of_reaches (h : Reaches maxNesting (beforeOperand .start) ts q) :
    ∃ more, Accepted (ts ++ more) := by
  obtain ⟨more, q', e, hmore, hfinish⟩ := exists_completion maxNesting q
  exact ⟨more, accepted_iff.mpr ⟨q', e, h.trans hmore, hfinish⟩⟩

/-- A token that cannot be taken after those before it is in no text that begins so. -/
theorem not_accepted_of_take {t : PlacedToken} {next : Option Nat} {r : ReadError}
    (h : Reaches maxNesting (beforeOperand .start) ts q)
    (hr : q.take maxNesting t next = .error r) (more : List Token) :
    ¬ Accepted (ts ++ t.token :: more) := by
  intro haccepted
  obtain ⟨q', e, hq', -⟩ := accepted_iff.mp haccepted
  obtain ⟨q'', hts, hrest⟩ := hq'.of_append
  obtain rfl := h.unique hts
  cases hrest with
  | cons htakes _ =>
      rw [take_eq_ok.mpr htakes] at hr
      cases hr

theorem not_accepted_of_finish {r : ReadError}
    (h : Reaches maxNesting (beforeOperand .start) ts q) (hr : q.finish = .error r) :
    ¬ Accepted ts := by
  intro haccepted
  obtain ⟨q', e, hq', hfinish⟩ := accepted_iff.mp haccepted
  obtain rfl := h.unique hq'
  rw [hfinish] at hr
  cases hr

end Expr

/-- A refusal that is about a token tells where it stands and what it is. -/
theorem ReadError.Rejects.found {r : ReadError} {t : PlacedToken} {position : Nat}
    (h : r.Rejects t) (hr : r.PointsAt position) :
    t.position = position ∧ (r = .division position ↔ t.token = .slash) ∧
      ∀ expected found, r = .unexpectedToken expected found position → found = t.token := by
  cases h with
  | division =>
      cases hr with
      | division => exact ⟨rfl, ⟨fun _ => rfl, fun _ => rfl⟩, nofun⟩
  | unexpectedToken _ _ hne =>
      cases hr with
      | unexpectedToken =>
          refine ⟨rfl, ⟨nofun, fun hslash => absurd hslash hne⟩, fun _ _ h => ?_⟩
          exact (ReadError.unexpectedToken.inj h).2.1.symm

theorem Progress.finish_eq_error {p : Progress} {r : ReadError} (h : p.finish = .error r) :
    ∃ expected, r = .unexpectedEnd expected := by
  cases p with
  | beforeOperand f => exact ⟨.operand, (Except.error.inj h).symm⟩
  | afterAtom f a =>
      obtain ⟨l, outer⟩ := f
      cases outer with
      | nil => cases h
      | cons m outer => exact ⟨.closing, (Except.error.inj h).symm⟩

/-- **Refusals point at the first impossible token.** If a text is refused for a token that it does
not expect or for a division, then that token stands at the place of the refusal. The tokens before
it begin some list that is accepted, and together with it they begin none. It is a division exactly
if the token is a slash. And if a text is refused because it breaks off, then its tokens are not
accepted but begin a list that is. -/
theorem Expr.ofText_rejects {text : String} {placed : List PlacedToken} {r : ReadError}
    (htokens : Token.ofText text = .ok placed) (h : Expr.ofText text = .error r) :
    (∀ position, r.PointsAt position →
      ∃ before t after, placed = before ++ t :: after ∧ t.position = position ∧
        (∃ more, Accepted (before.map PlacedToken.token ++ more)) ∧
        (∀ more, ¬ Accepted (before.map PlacedToken.token ++ t.token :: more)) ∧
        (r = .division position ↔ t.token = .slash) ∧
        ∀ expected found, r = .unexpectedToken expected found position → found = t.token) ∧
    ∀ expected, r = .unexpectedEnd expected →
      ¬ Accepted (placed.map PlacedToken.token) ∧
        ∃ more, Accepted (placed.map PlacedToken.token ++ more) := by
  have hread : ofTokens placed = .error r := by
    rw [ofText, htokens] at h
    exact h
  cases placed with
  | nil =>
      obtain rfl := Except.error.inj hread
      exact ⟨fun _ hr => (by cases hr), fun _ hr => (by cases hr)⟩
  | cons t ts =>
      rcases run_eq_error hread with
        ⟨before, u, after, q, next, hsplit, hreach, htake⟩ | ⟨q, hreach, hfinish⟩
      · rcases take_eq_error htake with hrejects | ⟨_, rfl⟩
        · refine ⟨fun position hr => ?_, ?_⟩
          · obtain ⟨hposition, hslash, hfound⟩ := hrejects.found hr
            exact ⟨before, u, after, hsplit, hposition, accepted_of_reaches hreach,
              not_accepted_of_take hreach htake, hslash, hfound⟩
          · rintro expected rfl
            cases hrejects
        · exact ⟨fun _ hr => (by cases hr), fun _ hr => (by cases hr)⟩
      · obtain ⟨expected, rfl⟩ := finish_eq_error hfinish
        refine ⟨fun _ hr => (by cases hr), fun _ _ => ?_⟩
        exact ⟨not_accepted_of_finish hreach hfinish, accepted_of_reaches hreach⟩

/-- The slash in `2(x/y` cannot stand there whatever follows, though the parenthesis is still open.
-/
theorem Expr.ofText_rejects_of_slash :
    let placed : List PlacedToken := [⟨0, .number (.int 2)⟩, ⟨1, .openParen⟩, ⟨2, .name "x"⟩,
      ⟨3, .slash⟩, ⟨4, .name "y"⟩]
    Token.ofText "2(x/y" = .ok placed ∧ Expr.ofText "2(x/y" = .error (.division 3) ∧
      ∃ before t after, placed = before ++ t :: after ∧ t.position = 3 ∧
        (∃ more, Accepted (before.map PlacedToken.token ++ more)) ∧
        (∀ more, ¬ Accepted (before.map PlacedToken.token ++ t.token :: more)) ∧
        t.token = .slash := by
  intro placed
  have htokens : Token.ofText "2(x/y" = .ok placed := by rfl
  have hread : Expr.ofText "2(x/y" = .error (.division 3) := by rfl
  obtain ⟨before, t, after, hsplit, hposition, hbefore, hafter, hslash, -⟩ :=
    (Expr.ofText_rejects htokens hread).1 3 (.division 3)
  exact ⟨htokens, hread, before, t, after, hsplit, hposition, hbefore, hafter, hslash.mp rfl⟩

end PolyCalc
