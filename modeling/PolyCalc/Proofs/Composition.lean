import PolyCalc.Proofs.Recognition
import PolyCalc.Proofs.Recursion
import PolyCalc.Proofs.Spelling

/-!
# Expressions out of expressions

Two texts that are expressions can be put in parentheses and joined by an operator, and what they
mean by themselves is what they mean there. For that, the text about them must not change how they
are read, at three places:

- **Tokens.** A parenthesis cannot be taken for more of a number or a name, so what stands before it
  is cut into the tokens that it has alone (`spells_of_ofText`).
- **Grammar.** A sum in parentheses is an atom, and the operator applies to both as wholes
  (`derives_joined`).
- **Nesting.** Each parenthesis is one more construct that is open, and the exponent has the power
  open as well. So the texts need that much room below the limit.
-/

namespace PolyCalc

namespace Token

theorem spells_nil : Spells (fun _ => false) [] [] := fun _ _ _ h => h

theorem Spells.parens {ts : List Token} {cs : List Char} (h : Spells continuesLexeme ts cs) :
    Spells (fun _ => false) (.openParen :: ts ++ [.closeParen]) ('(' :: cs ++ [')']) :=
  (spells_nil.join h (c := '(') (t := .openParen) rfl rfl).join spells_nil (c := ')')
    (t := .closeParen) rfl rfl

end Token

open Grammar Token

/-! ## Two sums in parentheses -/

/-- An operator between two sums in parentheses. The second one may be an exponent, and then there
is one more construct open over it. -/
theorem derives_joined {m n k : Nat} {ts us : List Token} {a b : Expr} (op : Operator)
    (ha : Derives .sum m ts a) (hb : Derives .sum n us b) (hm : m + 1 ≤ k) (hn : n + 2 ≤ k) :
    Derives .sum k ((.openParen :: ts ++ [.closeParen]) ++
      .operator op :: (.openParen :: us ++ [.closeParen])) (.binary op a b) := by
  have hleft : Derives .atom k (.openParen :: ts ++ [.closeParen]) a := ha.parens.mono hm
  have hright : ∀ {r}, n + 1 ≤ r → Derives .unary r (.openParen :: us ++ [.closeParen]) b :=
    fun hr => .ofPower (.ofAtom (hb.parens.mono hr))
  have hsum : Derives .sum k (.openParen :: ts ++ [.closeParen]) a :=
    .ofProduct (.ofUnary (.ofPower (.ofAtom hleft)))
  cases op with
  | add => exact .add hsum (.ofUnary (hright (by omega)))
  | sub => exact .sub hsum (.ofUnary (hright (by omega)))
  | mul => exact .ofProduct (.times (.ofUnary (.ofPower (.ofAtom hleft))) (hright (by omega)))
  | pow =>
      obtain ⟨r, rfl⟩ : ∃ r, k = r + 1 := ⟨k - 1, by omega⟩
      exact .ofProduct (.ofUnary (.ofPower (.pow hleft (hright (by omega)))))

/-- The text is an expression of which no more than `n` constructs are open at once. -/
def Expr.NestsWithin (n : Nat) (text : String) : Prop :=
  ∃ tokens e, Token.ofText text = .ok tokens ∧
    Derives .sum n (tokens.map PlacedToken.token) e

theorem Expr.NestsWithin.spells {n : Nat} {text : String} {e : Expr} (h : NestsWithin n text)
    (he : ofText text = .ok e) :
    ∃ ts, Spells continuesLexeme ts text.toList ∧ Derives .sum n ts e := by
  obtain ⟨tokens, e', htokens, hderives⟩ := h
  obtain ⟨tokens', htokens', hderives'⟩ := ofText_eq_ok.mp he
  obtain rfl := Except.ok.inj (htokens.symm.trans htokens')
  obtain rfl := hderives.unique hderives'
  exact ⟨_, spells_of_ofText htokens, hderives⟩

/-- Two texts in parentheses, joined by an operator. -/
def joined (op : Operator) (s t : String) : String :=
  "(" ++ s ++ ")" ++ op.toText ++ "(" ++ t ++ ")"

theorem toList_joined (op : Operator) (s t : String) :
    (joined op s t).toList =
      ('(' :: s.toList ++ [')']) ++ op.symbol :: ('(' :: t.toList ++ [')']) := by
  simp [joined, Operator.toText]

theorem ofSymbol?_symbol (op : Operator) : ofSymbol? op.symbol = some (.operator op) := by
  cases op <;> rfl

theorem Expr.ofText_joined (op : Operator) {s t : String} {a b : Expr} {m n : Nat}
    (ha : ofText s = .ok a) (hb : ofText t = .ok b) (hs : NestsWithin m s) (ht : NestsWithin n t)
    (hm : m + 1 ≤ maxNesting) (hn : n + 2 ≤ maxNesting) :
    ofText (joined op s t) = .ok (.binary op a b) := by
  obtain ⟨ts, hts, haderives⟩ := hs.spells ha
  obtain ⟨us, hus, hbderives⟩ := ht.spells hb
  have hspells := hts.parens.join hus.parens (ofSymbol?_symbol op) rfl
  rw [← toList_joined] at hspells
  obtain ⟨placed, hplaced, htokens⟩ := hspells.ofText_eq_ok
  refine ofText_eq_ok.mpr ⟨placed, hplaced, ?_⟩
  rw [htokens]
  exact derives_joined op haderives hbderives hm hn

/-- An operator on what two operands come to. The left one can fail first, then the right one, then
the operator. -/
def Operator.applyTo (op : Operator) (x y : Except Error Value) : Except Error Value := do
  let v ← x
  let w ← y
  (op.apply v w).mapError .refused

theorem Expr.evaluate_binary (op : Operator) (a b : Expr) :
    (binary op a b).evaluate = op.applyTo a.evaluate b.evaluate := by
  simp only [evaluate_eq_value, value]
  cases a.value with
  | error r => rfl
  | ok v => cases b.value <;> rfl

theorem calculate_of_ofText {text : String} {e : Expr} (h : Expr.ofText text = .ok e) :
    calculate text = e.evaluate := by
  rw [calculate, h]

/-- **Composition of texts.** Two expressions in parentheses about an operator are read as the
operation on what they are read as, if they leave room for the parentheses and the operator below
the limit of nesting. So the value is that of the operator on their values, and what fails first
fails: the left text, then the right one, then the operator. -/
theorem calculate_joined (op : Operator) {s t : String} {a b : Expr} (ha : Expr.ofText s = .ok a)
    (hb : Expr.ofText t = .ok b) (hs : Expr.NestsWithin 255 s) (ht : Expr.NestsWithin 254 t) :
    Expr.ofText (joined op s t) = .ok (.binary op a b) ∧
      calculate (joined op s t) = op.applyTo (calculate s) (calculate t) := by
  have hread := Expr.ofText_joined op ha hb hs ht (by decide) (by decide)
  refine ⟨hread, ?_⟩
  rw [calculate_of_ofText hread, calculate_of_ofText ha, calculate_of_ofText hb,
    Expr.evaluate_binary]

/-- A text that ends with a number, one that ends with a point, and a power of both. -/
theorem calculate_joined_of_power :
    let a := Expr.binary .add (.var "x") (.num (.int 1))
    let b := Expr.num (.float 2.0)
    Expr.ofText "x+1" = .ok a ∧ Expr.ofText "2." = .ok b ∧ Expr.NestsWithin 255 "x+1" ∧
      Expr.NestsWithin 254 "2." ∧ joined .pow "x+1" "2." = "(x+1)^(2.)" ∧
      Expr.ofText "(x+1)^(2.)" = .ok (.binary .pow a b) ∧
      calculate "(x+1)^(2.)" = Operator.pow.applyTo (calculate "x+1") (calculate "2.") := by
  intro a b
  have ha : Expr.ofText "x+1" = .ok a := by rfl
  have hb : Expr.ofText "2." = .ok b := by decide +kernel
  have hx : Grammar.Derives .sum 255 [.name "x"] (.var "x") :=
    .ofProduct (.ofUnary (.ofPower (.ofAtom (.name "x"))))
  have hs : Expr.NestsWithin 255 "x+1" :=
    ⟨[⟨0, .name "x"⟩, ⟨1, .operator .add⟩, ⟨2, .number (.int 1)⟩], a, by rfl,
      .add hx (.ofUnary (.ofPower (.ofAtom (.number _))))⟩
  have ht : Expr.NestsWithin 254 "2." :=
    ⟨[⟨0, .number (.float 2.0)⟩], b, by decide +kernel,
      .ofProduct (.ofUnary (.ofPower (.ofAtom (.number _))))⟩
  have hjoined : joined .pow "x+1" "2." = "(x+1)^(2.)" := by rfl
  obtain ⟨hread, hvalue⟩ := calculate_joined .pow ha hb hs ht
  rw [hjoined] at hread hvalue
  exact ⟨ha, hb, hs, ht, hjoined, hread, hvalue⟩

end PolyCalc
