import PolyCalc.Expr.OfTokens

/-!
# The grammar

The grammar of expressions as a relation between lists of tokens and trees:

    sum     := product (('+' | '-') product)*
    product := unary ('*' unary | power that begins with a name or '(')*
    unary   := ('-' | '+') unary | power
    power   := atom ('^' unary)?
    atom    := number | name | '(' sum ')'

The loops are left recursive here, which is what makes their trees associate to the left. Nothing
in the relation says how a derivation is found; in particular no token is looked at ahead of time.

A parenthesis is open over the sum inside it, a sign over its operand and a `^` over its exponent.
Derivations are counted by how many of these may be open at once.
-/

namespace PolyCalc.Grammar

/-- The phrases that the grammar is made of. -/
inductive Phrase where
  | sum
  | product
  | unary
  | power
  | atom

/-- Whether a factor may stand here without a `*` before it. -/
def BeginsFactor : List Token → Prop
  | .name _ :: _ => True
  | .openParen :: _ => True
  | _ => False

/-- `Derives phrase n ts e`: the tokens are such a phrase with the tree `e`, by a derivation in
which no more than `n` constructs are open at once. -/
inductive Derives : Phrase → Nat → List Token → Expr → Prop
  | number {n : Nat} (c : Number) : Derives .atom n [.number c] (.num c)
  | name {n : Nat} (x : String) : Derives .atom n [.name x] (.var x)
  | parens {n : Nat} {ts : List Token} {e : Expr} (inner : Derives .sum n ts e) :
      Derives .atom (n + 1) (.openParen :: ts ++ [.closeParen]) e
  | ofAtom {n : Nat} {ts : List Token} {e : Expr} (h : Derives .atom n ts e) :
      Derives .power n ts e
  | pow {n : Nat} {ts us : List Token} {b e : Expr} (base : Derives .atom (n + 1) ts b)
      (exponent : Derives .unary n us e) :
      Derives .power (n + 1) (ts ++ .operator .pow :: us) (.binary .pow b e)
  | ofPower {n : Nat} {ts : List Token} {e : Expr} (h : Derives .power n ts e) :
      Derives .unary n ts e
  | plus {n : Nat} {ts : List Token} {e : Expr} (operand : Derives .unary n ts e) :
      Derives .unary (n + 1) (.operator .add :: ts) e
  /-- A minus becomes part of a literal, -/
  | minusLiteral {n : Nat} {ts : List Token} {c : Number}
      (operand : Derives .unary n ts (.num c)) :
      Derives .unary (n + 1) (.operator .sub :: ts) (.num (-c))
  /-- and anything else is multiplied by minus one. -/
  | minus {n : Nat} {ts : List Token} {e : Expr} (operand : Derives .unary n ts e)
      (hne : ∀ c, e ≠ .num c) :
      Derives .unary (n + 1) (.operator .sub :: ts) (.binary .mul (.num (.int (-1))) e)
  | ofUnary {n : Nat} {ts : List Token} {e : Expr} (h : Derives .unary n ts e) :
      Derives .product n ts e
  | times {n : Nat} {ts us : List Token} {l r : Expr} (left : Derives .product n ts l)
      (right : Derives .unary n us r) :
      Derives .product n (ts ++ .operator .mul :: us) (.binary .mul l r)
  | juxtaposed {n : Nat} {ts us : List Token} {l r : Expr} (left : Derives .product n ts l)
      (right : Derives .power n us r) (hbegins : BeginsFactor us) :
      Derives .product n (ts ++ us) (.binary .mul l r)
  | ofProduct {n : Nat} {ts : List Token} {e : Expr} (h : Derives .product n ts e) :
      Derives .sum n ts e
  | add {n : Nat} {ts us : List Token} {l r : Expr} (left : Derives .sum n ts l)
      (right : Derives .product n us r) :
      Derives .sum n (ts ++ .operator .add :: us) (.binary .add l r)
  | sub {n : Nat} {ts us : List Token} {l r : Expr} (left : Derives .sum n ts l)
      (right : Derives .product n us r) :
      Derives .sum n (ts ++ .operator .sub :: us) (.binary .sub l r)

theorem BeginsFactor.append {ts : List Token} (h : BeginsFactor ts) (us : List Token) :
    BeginsFactor (ts ++ us) := by
  cases ts with
  | nil => exact h.elim
  | cons t ts => cases t <;> trivial

namespace Derives

theorem negated {n : Nat} {ts : List Token} {e : Expr} (h : Derives .unary n ts e) :
    Derives .unary (n + 1) (.operator .sub :: ts) e.negated := by
  cases e with
  | num c => exact minusLiteral h
  | var x => exact minus h nofun
  | binary op left right => exact minus h nofun

theorem mono {phrase : Phrase} {m n : Nat} {ts : List Token} {e : Expr}
    (h : Derives phrase m ts e) (hmn : m ≤ n) : Derives phrase n ts e := by
  induction h generalizing n with
  | number c => exact number c
  | name x => exact name x
  | ofAtom _ ih => exact ofAtom (ih hmn)
  | ofPower _ ih => exact ofPower (ih hmn)
  | ofUnary _ ih => exact ofUnary (ih hmn)
  | ofProduct _ ih => exact ofProduct (ih hmn)
  | times _ _ ihl ihr => exact times (ihl hmn) (ihr hmn)
  | juxtaposed _ _ hbegins ihl ihr => exact juxtaposed (ihl hmn) (ihr hmn) hbegins
  | add _ _ ihl ihr => exact add (ihl hmn) (ihr hmn)
  | sub _ _ ihl ihr => exact sub (ihl hmn) (ihr hmn)
  | @parens m _ _ _ ih =>
      obtain ⟨k, rfl⟩ : ∃ k, n = k + 1 := ⟨n - 1, by omega⟩
      exact parens (ih (by omega))
  | @pow m _ _ _ _ _ _ ihb ihe =>
      obtain ⟨k, rfl⟩ : ∃ k, n = k + 1 := ⟨n - 1, by omega⟩
      exact pow (ihb hmn) (ihe (by omega))
  | @plus m _ _ _ ih =>
      obtain ⟨k, rfl⟩ : ∃ k, n = k + 1 := ⟨n - 1, by omega⟩
      exact plus (ih (by omega))
  | @minusLiteral m _ _ _ ih =>
      obtain ⟨k, rfl⟩ : ∃ k, n = k + 1 := ⟨n - 1, by omega⟩
      exact minusLiteral (ih (by omega))
  | @minus m _ _ _ hne ih =>
      obtain ⟨k, rfl⟩ : ∃ k, n = k + 1 := ⟨n - 1, by omega⟩
      exact minus (ih (by omega)) hne

end Derives

end PolyCalc.Grammar
