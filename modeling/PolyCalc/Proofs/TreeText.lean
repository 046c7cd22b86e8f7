import PolyCalc.Proofs.Composition
import PolyCalc.Proofs.RoundTrip
import PolyCalc.Proofs.ViablePrefix

/-!
# The text of a tree

A tree is written with parentheses about every operation, so that nothing is left to the precedence
of operators; but leaves are written bare, and the text of a negative literal begins with a minus.
Where an operand of a sum or a product or an exponent is expected, the minus becomes part of the
literal again. The base of a power is the one place where it does not, because a sign is taken of
the whole power: `(-2)^2` is written as `(-2^2)`, which is minus four.

`Expr.asRead` is the tree that a text is read as. It is the tree itself if and only if no negative
literal is raised to a power (`Expr.asRead_eq_self_iff`).

- **Tokens.** The text spells the tokens `Expr.textTokens` (`Expr.spells_textTokens`).
- **Grammar.** They derive the tree `asRead` (`Expr.derives_textTokens`).
- **Nesting.** In that derivation `Expr.textNesting` constructs are open at once, and no reader with
  less room gets through (`Expr.depth_add_textNesting_le`).
-/

namespace PolyCalc

open Grammar Token Progress

namespace Expr

/-! ## The walk that writes the text

The text does not have to be written by recursion. A walk that keeps on a stack what is still to be
written writes the same text, whatever the depth of the tree is. -/

/-- Something that is still to be written. -/
inductive TextItem where
  | tree (e : Expr)
  | operator (op : Operator)
  | close

namespace TextItem

def text : TextItem → String
  | tree e => e.toText
  | operator op => op.toText
  | close => ")"

/-- A bound on the visits that are still owed to an item of the stack. -/
def visits : TextItem → Nat
  | tree e => 3 * e.size
  | _ => 1

end TextItem

/-- Writes what is on the stack behind the text that is written already. -/
def writeText (written : String) : List TextItem → String
  | [] => written
  | .tree (num n) :: todo => writeText (written ++ n.toText) todo
  | .tree (var x) :: todo => writeText (written ++ x) todo
  | .tree (binary op left right) :: todo =>
      writeText (written ++ "(") (.tree left :: .operator op :: .tree right :: .close :: todo)
  | .operator op :: todo => writeText (written ++ op.toText) todo
  | .close :: todo => writeText (written ++ ")") todo
termination_by todo => todo.foldr (fun item owed => item.visits + owed) 0
decreasing_by
  all_goals simp only [List.foldr_cons, TextItem.visits, size]
  all_goals omega

theorem append_text_append_join (written : String) (item : TextItem) (todo : List TextItem) :
    written ++ item.text ++ String.join (todo.map TextItem.text) =
      written ++ String.join ((item :: todo).map TextItem.text) := by
  rw [List.map_cons, String.join_cons, String.append_assoc]

theorem writeText_eq (written : String) (todo : List TextItem) :
    writeText written todo = written ++ String.join (todo.map TextItem.text) := by
  fun_induction writeText written todo with
  | case1 written => rw [List.map_nil, String.join_nil, String.append_empty]
  | case2 written n todo ih => exact ih.trans (append_text_append_join written (.tree (num n)) todo)
  | case3 written x todo ih => exact ih.trans (append_text_append_join written (.tree (var x)) todo)
  | case4 written op left right todo ih =>
      rw [ih]
      simp only [List.map_cons, String.join_cons, TextItem.text, toText, String.append_assoc]
  | case5 written op todo ih => exact ih.trans (append_text_append_join written (.operator op) todo)
  | case6 written todo ih => exact ih.trans (append_text_append_join written .close todo)

/-- The walk over a tree, with nothing written yet. -/
def written (e : Expr) : String := writeText "" [.tree e]

theorem written_eq_toText (e : Expr) : e.written = e.toText := by
  rw [written, writeText_eq, List.map_cons, List.map_nil, String.join_cons, String.join_nil,
    String.append_empty, String.empty_append]
  rfl

/-! ## What is read for a tree -/

/-- An integer literal whose text begins with a minus. -/
def IsNegativeLiteral : Expr → Prop
  | num (.int i) => i < 0
  | _ => False

instance : DecidablePred IsNegativeLiteral
  | num (.int i) => inferInstanceAs (Decidable (i < 0))
  | num (.float _) => inferInstanceAs (Decidable False)
  | var _ => inferInstanceAs (Decidable False)
  | binary _ _ _ => inferInstanceAs (Decidable False)

theorem IsNegativeLiteral.exists_natCast {e : Expr} (h : e.IsNegativeLiteral) :
    ∃ k : Nat, 0 < k ∧ e = num (.int (-k)) := by
  cases e with
  | num n =>
      cases n with
      | int i =>
          have hi : i < 0 := h
          obtain ⟨k, rfl⟩ : ∃ k : Nat, i = -k := ⟨i.natAbs, by omega⟩
          exact ⟨k, by omega, rfl⟩
      | float x => exact h.elim
  | var x => exact h.elim
  | binary op left right => exact h.elim

/-- The sign of the left operand is read as a sign of the whole operation. -/
def MovesSign (op : Operator) (left : Expr) : Prop := op = .pow ∧ left.IsNegativeLiteral

instance (op : Operator) (left : Expr) : Decidable (MovesSign op left) :=
  inferInstanceAs (Decidable (_ ∧ _))

/-- The tree that the text of a tree is read as. -/
def asRead : Expr → Expr
  | num n => num n
  | var x => var x
  | binary op left right =>
      if MovesSign op left then (binary op left.negated right.asRead).negated
      else binary op left.asRead right.asRead

/-- Somewhere in the tree a negative literal is raised to a power. -/
def RaisesNegative : Expr → Prop
  | num _ => False
  | var _ => False
  | binary op left right => MovesSign op left ∨ left.RaisesNegative ∨ right.RaisesNegative

instance decidableRaisesNegative : DecidablePred RaisesNegative
  | num _ => inferInstanceAs (Decidable False)
  | var _ => inferInstanceAs (Decidable False)
  | binary op left right =>
      have := decidableRaisesNegative left
      have := decidableRaisesNegative right
      inferInstanceAs (Decidable (MovesSign op left ∨ left.RaisesNegative ∨ right.RaisesNegative))

theorem asRead_eq_self_iff {e : Expr} : e.asRead = e ↔ ¬ e.RaisesNegative := by
  induction e with
  | num n => exact iff_of_true rfl id
  | var x => exact iff_of_true rfl id
  | binary op left right ihl ihr =>
      rw [asRead, RaisesNegative]
      split
      · next hmoves =>
          refine iff_of_false (fun heq => ?_) fun h => h (Or.inl hmoves)
          -- the sign makes it a product
          have hop : Operator.mul = op := (binary.inj heq).1
          rw [hmoves.1] at hop
          cases hop
      · next hstays =>
          rw [binary.injEq, ihl, ihr, not_or, not_or]
          simp only [hstays, true_and, not_false_eq_true]

theorem IsNegativeLiteral.of_asRead {e : Expr} (h : e.asRead.IsNegativeLiteral) :
    e.IsNegativeLiteral := by
  cases e with
  | num n => exact h
  | var x => exact h
  | binary op left right =>
      rw [asRead] at h
      split at h <;> exact h.elim

/-- What has been read once is read in the same way again. -/
theorem not_raisesNegative_asRead (e : Expr) : ¬ e.asRead.RaisesNegative := by
  induction e with
  | num n => exact id
  | var x => exact id
  | binary op left right ihl ihr =>
      rw [asRead]
      split
      · next hmoves =>
          obtain ⟨rfl, hnegative⟩ := hmoves
          obtain ⟨k, -, rfl⟩ := hnegative.exists_natCast
          rintro (⟨hop, -⟩ | hsign | ⟨-, hbase⟩ | hbase | hr)
          · cases hop
          · exact hsign
          · have hlt : - -(k : Int) < 0 := hbase
            omega
          · exact hbase
          · exact ihr hr
      · next hstays =>
          rintro (⟨hop, hnegative⟩ | hl | hr)
          · exact hstays ⟨hop, hnegative.of_asRead⟩
          · exact ihl hl
          · exact ihr hr

/-! ## Tokens -/

/-- The tokens that the text of a tree is cut into. -/
def textTokens : Expr → List Token
  | num n =>
      if (num n).IsNegativeLiteral then [.operator .sub, .number (-n)] else [.number n]
  | var x => [.name x]
  | binary op left right =>
      .openParen :: (left.textTokens ++ .operator op :: right.textTokens) ++ [.closeParen]

theorem neg_int_neg (i : Int) : -Number.int (-i) = .int i := congrArg Number.int (Int.neg_neg i)

theorem spells_literal (i : Int) :
    Spells continuesNumber (num (.int i)).textTokens (Number.int i).toText.toList := by
  unfold textTokens
  by_cases hnegative : (num (.int i)).IsNegativeLiteral
  · have hi : i < 0 := hnegative
    obtain ⟨k, rfl⟩ : ∃ k : Nat, i = -k := ⟨i.natAbs, by omega⟩
    rw [if_pos hnegative, neg_int_neg, toList_toText_neg (by omega)]
    exact (writesLiteral_neg k).spells
  · have hi : 0 ≤ i := Int.not_lt.mp hnegative
    obtain ⟨k, rfl⟩ : ∃ k : Nat, i = k := ⟨i.natAbs, by omega⟩
    rw [if_neg hnegative, toList_toText_natCast]
    exact (writesLiteral_natCast k).spells

theorem toList_toText_binary (op : Operator) (left right : Expr) :
    (binary op left right).toText.toList =
      '(' :: (left.toText.toList ++ op.symbol :: right.toText.toList) ++ [')'] := by
  simp [toText, Operator.toText]

theorem continuesLexeme_symbol (op : Operator) : continuesLexeme op.symbol = false := by
  cases op <;> rfl

theorem spells_textTokens : ∀ {e : Expr}, e.Meets Number.IsInt Monomial.IsNamed →
    Spells continuesLexeme e.textTokens e.toText.toList
  | num _, ⟨i, hi⟩ => hi ▸ (spells_literal i).mono fun _ => continuesLexeme_of_continuesNumber
  | var x, h => (spells_name (h (x, 1) (List.mem_singleton.mpr rfl))).mono fun _ =>
      continuesLexeme_of_continuesName
  | binary op left right, ⟨hl, hr⟩ => by
      have hinner := (spells_textTokens hl).join (spells_textTokens hr) (ofSymbol?_symbol op)
        (continuesLexeme_symbol op)
      rw [toList_toText_binary]
      exact hinner.parens.mono nofun

/-! ## Grammar -/

/-- Texts of trees are atoms, except for those with a sign. -/
def textPhrase (e : Expr) : Phrase := if e.IsNegativeLiteral then .unary else .atom

/-- How many constructs are open at once in the text of a tree: the parenthesis of an operation,
the power over an exponent, and the sign over a literal or over what it has moved to. -/
def textNesting : Expr → Nat
  | num n => if (num n).IsNegativeLiteral then 1 else 0
  | var _ => 0
  | binary op left right =>
      (if MovesSign op left then right.textNesting + 2
        else max left.textNesting (right.textNesting + if op = .pow then 1 else 0)) + 1

variable {e left right : Expr} {op : Operator}

theorem unary_of_textPhrase {n : Nat} {ts : List Token} {a : Expr}
    (h : Derives e.textPhrase n ts a) : Derives .unary n ts a := by
  unfold textPhrase at h
  split at h
  · exact h
  · exact .ofPower (.ofAtom h)

theorem derives_literal (n : Number) :
    Derives (num n).textPhrase (num n).textNesting (num n).textTokens (num n) := by
  unfold textPhrase textNesting textTokens
  split
  · next hnegative =>
      obtain ⟨k, -, hk⟩ := hnegative.exists_natCast
      obtain rfl := num.inj hk
      rw [neg_int_neg]
      exact (writesLiteral_neg k).derives 0
  · exact .number n

/-- The base of a power gives its sign away. -/
theorem derives_power_of_negative (hnegative : left.IsNegativeLiteral)
    (hr : Derives .unary right.textNesting right.textTokens right.asRead) :
    Derives .sum (right.textNesting + 2) (left.textTokens ++ .operator .pow :: right.textTokens)
      (binary .pow left.negated right.asRead).negated := by
  obtain ⟨k, hk, rfl⟩ := hnegative.exists_natCast
  rw [textTokens, if_pos hnegative]
  have hpower := Derives.pow (.number (-Number.int (-k))) hr
  exact .ofProduct (.ofUnary (Derives.ofPower hpower).negated)

/-- The operands of the other operators may have a sign. -/
theorem derives_operation_of_ne_pow {n : Nat} {ts us : List Token} {a b : Expr} (hop : op ≠ .pow)
    (ha : Derives .unary n ts a) (hb : Derives .unary n us b) :
    Derives .sum n (ts ++ .operator op :: us) (.binary op a b) := by
  cases op with
  | add => exact .add (.ofProduct (.ofUnary ha)) (.ofUnary hb)
  | sub => exact .sub (.ofProduct (.ofUnary ha)) (.ofUnary hb)
  | mul => exact .ofProduct (.times (.ofUnary ha) hb)
  | pow => exact absurd rfl hop

/-- What stands between the parentheses. -/
theorem derives_operation
    (hl : Derives left.textPhrase left.textNesting left.textTokens left.asRead)
    (hr : Derives right.textPhrase right.textNesting right.textTokens right.asRead) :
    Derives .sum (if MovesSign op left then right.textNesting + 2
        else max left.textNesting (right.textNesting + if op = .pow then 1 else 0))
      (left.textTokens ++ .operator op :: right.textTokens) (binary op left right).asRead := by
  have hright := unary_of_textPhrase hr
  rw [asRead]
  split
  · next hmoves =>
      obtain ⟨rfl, hnegative⟩ := hmoves
      exact derives_power_of_negative hnegative hright
  · next hstays =>
      by_cases hop : op = .pow
      · subst hop
        have hatom : left.textPhrase = .atom := if_neg fun h => hstays ⟨rfl, h⟩
        rw [hatom] at hl
        obtain ⟨n, hn⟩ : ∃ n, max left.textNesting (right.textNesting + 1) = n + 1 :=
          ⟨max left.textNesting (right.textNesting + 1) - 1, by omega⟩
        rw [if_pos rfl, hn]
        exact .ofProduct (.ofUnary (.ofPower
          (.pow (hl.mono (by omega)) (hright.mono (by omega)))))
      · rw [if_neg hop, Nat.add_zero]
        exact derives_operation_of_ne_pow hop ((unary_of_textPhrase hl).mono (Nat.le_max_left _ _))
          (hright.mono (Nat.le_max_right _ _))

theorem derives_textTokens : ∀ e : Expr, Derives e.textPhrase e.textNesting e.textTokens e.asRead
  | num n => derives_literal n
  | var x => .name x
  | binary _ left right =>
      (derives_operation left.derives_textTokens right.derives_textTokens).parens

theorem derives_sum_textTokens (e : Expr) : Derives .sum e.textNesting e.textTokens e.asRead :=
  .ofProduct (.ofUnary (unary_of_textPhrase e.derives_textTokens))

/-! ## Nesting -/

section Nesting

variable {limit : Nat} {f g : Frontier} {a : Expr} {q : Progress}

theorem reaches_openParen {ts : List Token}
    (h : Reaches limit (beforeOperand f) (.openParen :: ts) q) :
    f.depth < limit ∧ Reaches limit (beforeOperand f.nest) ts q := by
  cases h with
  | cons ht hrest =>
      cases ht with
      | openParen hlt => exact ⟨hlt, hrest⟩

theorem reaches_minus {ts : List Token}
    (h : Reaches limit (beforeOperand f) (.operator .sub :: ts) q) :
    f.depth < limit ∧ Reaches limit (beforeOperand (f.push .minus)) ts q := by
  cases h with
  | cons ht hrest =>
      cases ht with
      | minus hlt => exact ⟨hlt, hrest⟩

/-- Where an operator leads. All but powers start anew inside the parenthesis. -/
theorem takes_operator_cases (h : Takes limit (afterAtom f a) (.operator op) q) :
    (op = .pow ∧ f.depth < limit ∧ q = beforeOperand (f.push (.power a))) ∨
      ∃ g, q = beforeOperand g ∧ op ≠ .pow ∧ g.level.pending = [] ∧ g.outer = f.outer := by
  cases h with
  | pow _ hlt => exact Or.inl ⟨rfl, hlt, rfl⟩
  | mul => exact Or.inr ⟨_, rfl, nofun, rfl, rfl⟩
  | add => exact Or.inr ⟨_, rfl, nofun, rfl, rfl⟩
  | sub => exact Or.inr ⟨_, rfl, nofun, rfl, rfl⟩
  | juxtaposed hbegins _ => exact hbegins.elim

theorem depth_eq_depth_nest (hpending : g.level.pending = []) (houter : g.outer = f.nest.outer) :
    g.depth = f.nest.depth := by
  simp only [Frontier.depth, hpending, houter, Frontier.nest, Level.start]

/-- Where the text of a tree leads, if there is room for it. A sign stays open. -/
theorem reaches_textTokens_cases (hroom : f.depth + e.textNesting ≤ limit)
    (h : Reaches limit (beforeOperand f) e.textTokens q) :
    ∃ g a, q = afterAtom g a ∧ g.outer = f.outer ∧
      g.depth = f.depth + if e.IsNegativeLiteral then 1 else 0 := by
  by_cases hnegative : e.IsNegativeLiteral
  · obtain ⟨k, -, rfl⟩ := hnegative.exists_natCast
    rw [textTokens, if_pos hnegative] at h
    obtain ⟨-, hnumber⟩ := reaches_minus h
    obtain rfl := hnumber.unique (Takes.number _ _).reaches
    exact ⟨f.push .minus, _, rfl, rfl, by rw [Frontier.depth_push, if_pos hnegative]⟩
  · have hatom : e.textPhrase = .atom := if_neg hnegative
    have hread : IsRead limit e.textPhrase e.textNesting e.textTokens e.asRead :=
      e.derives_textTokens.isRead
    rw [hatom] at hread
    obtain rfl := h.unique (hread f hroom)
    exact ⟨f, _, rfl, rfl, by rw [if_neg hnegative, Nat.add_zero]⟩

/-- A reader that gets through the text of a tree has room for all that is open in it. -/
theorem depth_add_textNesting_le : ∀ {e : Expr} {f : Frontier} {q : Progress}, f.depth ≤ limit →
    Reaches limit (beforeOperand f) e.textTokens q → f.depth + e.textNesting ≤ limit
  | num n, f, q, hf, h => by
      unfold textTokens at h
      unfold textNesting
      split at h
      · next hnegative =>
          rw [if_pos hnegative]
          exact (reaches_minus h).1
      · next hnonnegative =>
          rw [if_neg hnonnegative]
          exact hf
  | var _, _, _, hf, _ => hf
  | binary op left right, f, q, hf, h => by
      obtain ⟨hlt, hrest⟩ := reaches_openParen h
      have hnest : f.nest.depth = f.depth + 1 := f.depth_nest
      obtain ⟨_, hinner, -⟩ := hrest.of_append
      obtain ⟨_, hl, _ | ⟨hop, hr⟩⟩ := hinner.of_append
      have hleft := depth_add_textNesting_le (by omega) hl
      obtain ⟨g, a, rfl, houter, hg⟩ := reaches_textTokens_cases hleft hl
      rw [textNesting]
      rcases takes_operator_cases hop with ⟨rfl, hlt', rfl⟩ | ⟨g', rfl, hne, hpending, houter'⟩
      · have hright := depth_add_textNesting_le (by rw [Frontier.depth_push]; omega) hr
        rw [Frontier.depth_push] at hright
        split
        · next hmoves =>
            rw [if_pos hmoves.2] at hg
            omega
        · next hstays =>
            rw [if_neg fun hnegative => hstays ⟨rfl, hnegative⟩] at hg
            rw [if_pos rfl]
            omega
      · have hsame := depth_eq_depth_nest hpending (houter'.trans houter)
        have hright := depth_add_textNesting_le (by omega) hr
        rw [if_neg fun hmoves => hne hmoves.1, if_neg hne]
        omega

end Nesting

/-! ## Texts -/

theorem IsIntegral.meets_names {Q : Monomial → Prop} : ∀ {e : Expr}, e.IsIntegral →
    e.Meets (fun _ => True) Q → e.Meets Number.IsInt Q
  | num _, hint, _ => hint
  | var _, _, h => h
  | binary _ _ _, hint, h => ⟨hint.1.meets_names h.1, hint.2.meets_names h.2⟩

/-- What a text with integer literals is read as can be written down. -/
theorem IsIntegral.meets_of_ofText {text : String} {e : Expr} (hint : e.IsIntegral)
    (he : ofText text = .ok e) : e.Meets Number.IsInt Monomial.IsNamed :=
  hint.meets_names (Expr.meets_of_ofText trivial (fun _ => trivial) he (fun _ _ _ _ => trivial)
    fun _ hx => List.forall_mem_singleton.mpr hx)

theorem nestsWithin_toText_iff (he : e.Meets Number.IsInt Monomial.IsNamed) {n : Nat} :
    NestsWithin n e.toText ↔ e.textNesting ≤ n := by
  obtain ⟨tokens, htokens, hts⟩ := (spells_textTokens he).ofText_eq_ok
  constructor
  · rintro ⟨tokens', e', htokens', hderives⟩
    obtain rfl := Except.ok.inj (htokens.symm.trans htokens')
    rw [hts] at hderives
    obtain ⟨q, hq, -⟩ := reaches_finish_iff_derives.mpr hderives
    have hroom : Frontier.start.depth + e.textNesting ≤ n :=
      depth_add_textNesting_le (Nat.zero_le n) hq
    rwa [show Frontier.start.depth = 0 from rfl, Nat.zero_add] at hroom
  · intro hn
    refine ⟨tokens, e.asRead, htokens, ?_⟩
    rw [hts]
    exact (derives_sum_textTokens e).mono hn

theorem ofText_toText_eq_asRead (he : e.Meets Number.IsInt Monomial.IsNamed)
    (hnests : NestsWithin maxNesting e.toText) : ofText e.toText = .ok e.asRead := by
  obtain ⟨tokens, htokens, hts⟩ := (spells_textTokens he).ofText_eq_ok
  refine ofText_eq_ok.mpr ⟨tokens, htokens, ?_⟩
  rw [hts]
  exact (derives_sum_textTokens e).mono ((nestsWithin_toText_iff he).mp hnests)

/-- **Reading the text of a tree.** The walk over the tree of a text writes the text with
parentheses. If all literals are integers, that is an expression of a nesting that can be told from
the tree, and if it does not nest too deeply, it is read as the tree `asRead`. That is the same tree
exactly if no negative literal is raised to a power, and what has been read once is read as itself
from then on. -/
theorem ofText_toText {text : String} (he : ofText text = .ok e) (hint : e.IsIntegral) :
    e.written = e.toText ∧ (∀ n, NestsWithin n e.toText ↔ e.textNesting ≤ n) ∧
      (NestsWithin maxNesting e.toText →
        ofText e.toText = .ok e.asRead ∧ (ofText e.toText = .ok e ↔ ¬ e.RaisesNegative)) ∧
      ¬ e.asRead.RaisesNegative := by
  have hmeets := hint.meets_of_ofText he
  refine ⟨e.written_eq_toText, fun n => nestsWithin_toText_iff hmeets, fun hnests => ?_,
    not_raisesNegative_asRead e⟩
  have hread := ofText_toText_eq_asRead hmeets hnests
  refine ⟨hread, ?_⟩
  rw [hread, Except.ok.injEq, asRead_eq_self_iff]

/-- Negative literals in all other places. -/
theorem ofText_toText_of_negative_literals :
    let e := binary .sub (binary .mul (num (.int (-3))) (binary .pow (var "x") (num (.int (-2)))))
      (binary .add (num (.int (-4))) (num (.int (-5))))
    ofText "-3*x^-2-(-4+-5)" = .ok e ∧ e.toText = "((-3*(x^-2))-(-4+-5))" ∧
      NestsWithin maxNesting e.toText ∧ ofText e.toText = .ok e := by
  intro e
  have he : ofText "-3*x^-2-(-4+-5)" = .ok e := by rfl
  have hint : e.IsIntegral := ⟨⟨⟨_, rfl⟩, trivial, ⟨_, rfl⟩⟩, ⟨_, rfl⟩, ⟨_, rfl⟩⟩
  obtain ⟨-, hnests, hread, -⟩ := ofText_toText he hint
  have hwithin : NestsWithin maxNesting e.toText := (hnests maxNesting).mpr (by decide)
  exact ⟨he, by rfl, hwithin, (hread hwithin).2.mpr (by decide)⟩

/-- The square of minus two has a text that is read as minus the square of two. -/
theorem ofText_toText_ne :
    let e := binary .pow (num (.int (-2))) (num (.int 2))
    (ofText "(-2)^2" = .ok e ∧ e.toText = "(-2^2)" ∧ NestsWithin maxNesting "(-2^2)" ∧
        ofText "(-2^2)" = .ok (binary .mul (num (.int (-1)))
          (binary .pow (num (.int 2)) (num (.int 2)))) ∧
        calculate "(-2)^2" = .ok (.constant (.int 4)) ∧
        calculate "(-2^2)" = .ok (.constant (.int (-4)))) ∧
      ¬ ∀ text e, ofText text = .ok e → e.IsIntegral → NestsWithin maxNesting e.toText →
        ofText e.toText = .ok e := by
  intro e
  have he : ofText "(-2)^2" = .ok e := by rfl
  have hread : ofText "(-2^2)" = .ok (binary .mul (num (.int (-1)))
      (binary .pow (num (.int 2)) (num (.int 2)))) := by rfl
  obtain ⟨tokens, htokens, hderives⟩ := Expr.ofText_eq_ok.mp hread
  have hnests : NestsWithin maxNesting "(-2^2)" := ⟨tokens, _, htokens, hderives⟩
  refine ⟨⟨he, by rfl, hnests, hread, by rfl, by rfl⟩, fun hall => ?_⟩
  have hsame := (hall _ e he ⟨⟨_, rfl⟩, ⟨_, rfl⟩⟩ hnests).symm.trans hread
  exact absurd (binary.inj (Except.ok.inj hsame)).1 (by decide)

end Expr

end PolyCalc
