import PolyCalc.Token.OfText

/-!
# Reading expressions

The tree of a list of tokens, under the grammar

    expr    := product (('+' | '-') product)*
    product := unary ('*' unary | power that begins with a name or '(')*
    unary   := ('-' | '+') unary | power
    power   := atom ('^' unary)?
    atom    := number | name | '(' expr ')'

Tokens are taken one at a time. What has been read and still waits for an operand is kept in a
`Frontier`: one `Level` for the whole text and one for each open parenthesis, and in each level
the pending sum, the pending product and the pending signs and powers. So the nesting of the
input is plain to see at every moment, and a text that nests too deeply is refused at the token
that goes too far.
-/

namespace PolyCalc

/-- The most signs, powers and parentheses that may be open at once. -/
def maxNesting : Nat := 256

/-- A sign or a power that waits for its operand. -/
inductive Pending where
  | plus
  | minus
  | power (base : Expr)
  deriving DecidableEq, Inhabited

/-- The tree once the operand is there. -/
def Pending.complete (operand : Expr) : Pending → Expr
  | plus => operand
  | minus => operand.negated
  | power base => .binary .pow base operand

/-- What waits for an operand inside one parenthesis: the left sides of a sum and of a product,
and signs and powers, the innermost first. -/
structure Level where
  summand : Option (Operator × Expr)
  factor : Option Expr
  pending : List Pending
  deriving DecidableEq, Inhabited

namespace Level

/-- Nothing waits. -/
def start : Level := ⟨none, none, []⟩

/-- The signs and powers about an atom. -/
def power (l : Level) (atom : Expr) : Expr := l.pending.foldl Pending.complete atom

/-- The product that ends in an atom. -/
def product (l : Level) (atom : Expr) : Expr :=
  match l.factor with
  | none => l.power atom
  | some left => .binary .mul left (l.power atom)

/-- The sum that ends in an atom. -/
def value (l : Level) (atom : Expr) : Expr :=
  match l.summand with
  | none => l.product atom
  | some (op, left) => .binary op left (l.product atom)

end Level

/-- All that waits for an operand: the innermost level and those about it. -/
structure Frontier where
  level : Level
  outer : List Level
  deriving DecidableEq, Inhabited

namespace Frontier

def start : Frontier := ⟨.start, []⟩

/-- The number of open signs, powers and parentheses. -/
def depth (f : Frontier) : Nat :=
  f.level.pending.length + f.outer.foldr (fun l opened => l.pending.length + 1 + opened) 0

/-- Opens a sign or a power. -/
def push (f : Frontier) (p : Pending) : Frontier :=
  { f with level := { f.level with pending := p :: f.level.pending } }

/-- Opens a parenthesis. -/
def nest (f : Frontier) : Frontier := ⟨.start, f.level :: f.outer⟩

/-- Goes on to another factor. -/
def times (f : Frontier) (atom : Expr) : Frontier :=
  { f with level := ⟨f.level.summand, some (f.level.product atom), []⟩ }

/-- Goes on to another summand. -/
def plus (f : Frontier) (op : Operator) (atom : Expr) : Frontier :=
  { f with level := ⟨some (op, f.level.value atom), none, []⟩ }

end Frontier

/-- Where the reading of an expression stands: before an operand or after an atom. -/
inductive Progress where
  | beforeOperand (f : Frontier)
  | afterAtom (f : Frontier) (atom : Expr)
  deriving DecidableEq, Inhabited

namespace Progress

/-- Opens something if the limit allows it. A refusal points at the token after the opening one,
or at the start of the text if there is none. -/
def descend (limit : Nat) (before after : Frontier) (next : Option Nat) :
    Except ReadError Progress :=
  if before.depth < limit then .ok (.beforeOperand after)
  else .error (.tooDeep limit (next.getD 0))

/-- Takes a token where an operand has to begin. -/
def takeOperand (limit : Nat) (f : Frontier) (t : PlacedToken) (next : Option Nat) :
    Except ReadError Progress :=
  match t.token with
  | .number n => .ok (.afterAtom f (.num n))
  | .name x => .ok (.afterAtom f (.var x))
  | .openParen => descend limit f f.nest next
  | .operator .sub => descend limit f (f.push .minus) next
  | .operator .add => descend limit f (f.push .plus) next
  | .slash => .error (.division t.position)
  | found => .error (.unexpectedToken .operand found t.position)

/-- Takes a token after an atom. A name or a parenthesis begins another factor. -/
def takeOperator (limit : Nat) (f : Frontier) (atom : Expr) (t : PlacedToken)
    (next : Option Nat) : Except ReadError Progress :=
  match t.token with
  | .operator .pow => descend limit f (f.push (.power atom)) next
  | .operator .mul => .ok (.beforeOperand (f.times atom))
  | .operator op => .ok (.beforeOperand (f.plus op atom))
  | .name _ => takeOperand limit (f.times atom) t next
  | .openParen => takeOperand limit (f.times atom) t next
  | .slash => .error (.division t.position)
  | .closeParen =>
      match f.outer with
      | [] => .error (.unexpectedToken .operatorOrEnd .closeParen t.position)
      | l :: outer => .ok (.afterAtom ⟨l, outer⟩ (f.level.value atom))
  | .number n =>
      .error (.unexpectedToken (if f.outer.isEmpty then .operatorOrEnd else .closing)
        (.number n) t.position)

/-- Takes a token; `next` is the position of the one after it. -/
def take (limit : Nat) (p : Progress) (t : PlacedToken) (next : Option Nat) :
    Except ReadError Progress :=
  match p with
  | beforeOperand f => takeOperand limit f t next
  | afterAtom f atom => takeOperator limit f atom t next

/-- The tree, if the text may end here. -/
def finish : Progress → Except ReadError Expr
  | beforeOperand _ => .error (.unexpectedEnd .operand)
  | afterAtom f atom =>
      if f.outer.isEmpty then .ok (f.level.value atom) else .error (.unexpectedEnd .closing)

/-- Takes all tokens. -/
def run (limit : Nat) : Progress → List PlacedToken → Except ReadError Expr
  | p, [] => p.finish
  | p, t :: ts => do (← p.take limit t (ts.head?.map PlacedToken.position)).run limit ts

end Progress

namespace Expr

/-- The tree of a list of tokens in which no more than `limit` constructs are open at once. -/
def ofTokensWithin (limit : Nat) : List PlacedToken → Except ReadError Expr
  | [] => .error .empty
  | t :: ts => (Progress.beforeOperand .start).run limit (t :: ts)

/-- The tree of a list of tokens. -/
def ofTokens (tokens : List PlacedToken) : Except ReadError Expr :=
  ofTokensWithin maxNesting tokens

/-- The tree of a text. -/
def ofText (text : String) : Except ReadError Expr := do
  ofTokens (← Token.ofText text)

end Expr

end PolyCalc
