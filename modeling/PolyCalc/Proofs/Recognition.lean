import PolyCalc.Proofs.Grammar
import PolyCalc.Proofs.Outcomes

/-!
# Reading follows the grammar

The reader of expressions takes one token at a time and keeps what waits for an operand in a
frontier. A list of tokens is read exactly if the grammar derives it within the same limit, and
then the tree is the one that was derived.

- **What is derived is read** (`Derives.isRead`): by induction on the derivation, each phrase takes
  the reader from before an operand to after an atom, and what it has opened on the way completes
  that atom to the tree of the phrase. The reader is a function, so two derivations of one list of
  tokens have the same tree.
- **What is read is derived** (`Represents.takes`): a frontier is a derivation in the making. Each
  of its parts comes with the tokens that it stands for (`SumBegins`, `ProductBegins`, `Opens`),
  and every token that is taken keeps them together.

The positions of tokens matter for how a text is refused, but not for whether it is.
-/

namespace PolyCalc

open Grammar

namespace Progress

/-! ## Runs -/

/-- All that taking a token can do. A name or a parenthesis after an atom does what it does before
the next operand. -/
inductive Takes (limit : Nat) : Progress → Token → Progress → Prop
  | number (f : Frontier) (c : Number) :
      Takes limit (beforeOperand f) (.number c) (afterAtom f (.num c))
  | name (f : Frontier) (x : String) :
      Takes limit (beforeOperand f) (.name x) (afterAtom f (.var x))
  | openParen {f : Frontier} (hlt : f.depth < limit) :
      Takes limit (beforeOperand f) .openParen (beforeOperand f.nest)
  | minus {f : Frontier} (hlt : f.depth < limit) :
      Takes limit (beforeOperand f) (.operator .sub) (beforeOperand (f.push .minus))
  | plus {f : Frontier} (hlt : f.depth < limit) :
      Takes limit (beforeOperand f) (.operator .add) (beforeOperand (f.push .plus))
  | pow {f : Frontier} (a : Expr) (hlt : f.depth < limit) :
      Takes limit (afterAtom f a) (.operator .pow) (beforeOperand (f.push (.power a)))
  | mul (f : Frontier) (a : Expr) :
      Takes limit (afterAtom f a) (.operator .mul) (beforeOperand (f.times a))
  | add (f : Frontier) (a : Expr) :
      Takes limit (afterAtom f a) (.operator .add) (beforeOperand (f.plus .add a))
  | sub (f : Frontier) (a : Expr) :
      Takes limit (afterAtom f a) (.operator .sub) (beforeOperand (f.plus .sub a))
  | juxtaposed {f : Frontier} {a : Expr} {t : Token} {q : Progress} (hbegins : BeginsFactor [t])
      (h : Takes limit (beforeOperand (f.times a)) t q) : Takes limit (afterAtom f a) t q
  | closeParen (l outer : Level) (rest : List Level) (a : Expr) :
      Takes limit (afterAtom ⟨l, outer :: rest⟩ a) .closeParen
        (afterAtom ⟨outer, rest⟩ (l.value a))

theorem descend_eq_ok {limit : Nat} {f g : Frontier} {next : Option Nat} {q : Progress} :
    descend limit f g next = .ok q ↔ f.depth < limit ∧ beforeOperand g = q := by
  unfold descend
  split <;> simp [*]

theorem takeOperand_eq_ok {limit : Nat} {f : Frontier} {t : PlacedToken} {next : Option Nat}
    {q : Progress} :
    takeOperand limit f t next = .ok q ↔ Takes limit (beforeOperand f) t.token q := by
  obtain ⟨position, t⟩ := t
  unfold takeOperand
  constructor
  · intro h
    cases t with
    | number c => exact Except.ok.inj h ▸ .number f c
    | name x => exact Except.ok.inj h ▸ .name f x
    | openParen =>
        obtain ⟨hlt, rfl⟩ := descend_eq_ok.mp h
        exact .openParen hlt
    | operator op =>
        cases op with
        | sub =>
            obtain ⟨hlt, rfl⟩ := descend_eq_ok.mp h
            exact .minus hlt
        | add =>
            obtain ⟨hlt, rfl⟩ := descend_eq_ok.mp h
            exact .plus hlt
        | mul => cases h
        | pow => cases h
    | slash => cases h
    | closeParen => cases h
  · intro h
    cases h with
    | number => rfl
    | name => rfl
    | openParen hlt => exact descend_eq_ok.mpr ⟨hlt, rfl⟩
    | minus hlt => exact descend_eq_ok.mpr ⟨hlt, rfl⟩
    | plus hlt => exact descend_eq_ok.mpr ⟨hlt, rfl⟩

theorem takeOperator_eq_ok {limit : Nat} {f : Frontier} {a : Expr} {t : PlacedToken}
    {next : Option Nat} {q : Progress} :
    takeOperator limit f a t next = .ok q ↔ Takes limit (afterAtom f a) t.token q := by
  obtain ⟨position, t⟩ := t
  unfold takeOperator
  constructor
  · intro h
    cases t with
    | number c => cases h
    | name x => exact .juxtaposed trivial (takeOperand_eq_ok.mp h)
    | openParen => exact .juxtaposed trivial (takeOperand_eq_ok.mp h)
    | operator op =>
        cases op with
        | pow =>
            obtain ⟨hlt, rfl⟩ := descend_eq_ok.mp h
            exact .pow a hlt
        | mul => exact Except.ok.inj h ▸ .mul f a
        | add => exact Except.ok.inj h ▸ .add f a
        | sub => exact Except.ok.inj h ▸ .sub f a
    | slash => cases h
    | closeParen =>
        obtain ⟨l, outer⟩ := f
        cases outer with
        | nil => cases h
        | cons m outer => exact Except.ok.inj h ▸ .closeParen l m outer a
  · intro h
    cases h with
    | pow _ hlt => exact descend_eq_ok.mpr ⟨hlt, rfl⟩
    | mul => rfl
    | add => rfl
    | sub => rfl
    | closeParen => rfl
    | juxtaposed hbegins h =>
        cases t with
        | name x => exact takeOperand_eq_ok.mpr h
        | openParen => exact takeOperand_eq_ok.mpr h
        | _ => exact hbegins.elim

theorem take_eq_ok {limit : Nat} {p : Progress} {t : PlacedToken} {next : Option Nat}
    {q : Progress} : p.take limit t next = .ok q ↔ Takes limit p t.token q := by
  cases p with
  | beforeOperand f => exact takeOperand_eq_ok
  | afterAtom f a => exact takeOperator_eq_ok

inductive Reaches (limit : Nat) : Progress → List Token → Progress → Prop
  | nil (p : Progress) : Reaches limit p [] p
  | cons {p q r : Progress} {t : Token} {ts : List Token} (h : Takes limit p t q)
      (rest : Reaches limit q ts r) : Reaches limit p (t :: ts) r

theorem Takes.reaches {limit : Nat} {p q : Progress} {t : Token} (h : Takes limit p t q) :
    Reaches limit p [t] q := .cons h (.nil q)

theorem Reaches.trans {limit : Nat} {p q r : Progress} {ts us : List Token}
    (h : Reaches limit p ts q) (h' : Reaches limit q us r) : Reaches limit p (ts ++ us) r := by
  induction h with
  | nil _ => exact h'
  | cons ht _ ih => exact .cons ht (ih h')

theorem run_eq_ok {limit : Nat} {p : Progress} {ts : List PlacedToken} {e : Expr} :
    p.run limit ts = .ok e ↔
      ∃ q, Reaches limit p (ts.map PlacedToken.token) q ∧ q.finish = .ok e := by
  induction ts generalizing p with
  | nil =>
      constructor
      · intro h
        exact ⟨p, .nil p, h⟩
      · rintro ⟨_, ⟨⟩, h⟩
        exact h
  | cons t ts ih =>
      simp only [run, bind_eq_ok, take_eq_ok, ih]
      constructor
      · rintro ⟨q, hq, r, hr, h⟩
        exact ⟨r, .cons hq hr, h⟩
      · rintro ⟨r, ⟨⟩ | ⟨hq, hr⟩, h⟩
        exact ⟨_, hq, r, hr, h⟩

theorem finish_eq_ok {p : Progress} {e : Expr} :
    p.finish = .ok e ↔ ∃ l a, p = afterAtom ⟨l, []⟩ a ∧ l.value a = e := by
  cases p with
  | beforeOperand f => simp [finish]
  | afterAtom f a =>
      obtain ⟨l, outer⟩ := f
      cases outer <;> simp [finish]

theorem Reaches.juxtaposed {limit : Nat} {f : Frontier} {a : Expr} {q : Progress}
    {ts : List Token} (hbegins : BeginsFactor ts)
    (h : Reaches limit (beforeOperand (f.times a)) ts q) : Reaches limit (afterAtom f a) ts q := by
  cases h with
  | nil => exact hbegins.elim
  | @cons _ _ _ t _ ht rest =>
      have hbegins' : BeginsFactor [t] := by cases t <;> exact hbegins
      exact .cons (.juxtaposed hbegins' ht) rest

end Progress

/-! ## Depth -/

namespace Frontier

@[simp] theorem depth_push (f : Frontier) (p : Pending) : (f.push p).depth = f.depth + 1 := by
  simp only [depth, push, List.length_cons]
  omega

@[simp] theorem depth_nest (f : Frontier) : f.nest.depth = f.depth + 1 := by
  simp only [depth, nest, Level.start, List.length_nil, List.foldr_cons]
  omega

/-- The frontier with some more signs and powers, the innermost first. -/
def pushAll (f : Frontier) (ps : List Pending) : Frontier :=
  ⟨⟨f.level.summand, f.level.factor, ps ++ f.level.pending⟩, f.outer⟩

theorem pushAll_push (f : Frontier) (p : Pending) (ps : List Pending) :
    (f.push p).pushAll ps = f.pushAll (ps ++ [p]) := by
  simp only [pushAll, push, List.append_assoc, List.singleton_append]

end Frontier

/-! ## What is derived is read -/

open Progress

/-- How the reader goes through a phrase with some room left below the limit. An atom leaves the
frontier as it is. A sign or a power may stay open at the end of a phrase; what is open then
completes the last atom to the tree. -/
def IsRead (limit : Nat) : Phrase → Nat → List Token → Expr → Prop
  | .atom, n, ts, e => ∀ f : Frontier, f.depth + n ≤ limit →
      Reaches limit (beforeOperand f) ts (afterAtom f e)
  | .power, n, ts, e | .unary, n, ts, e => ∀ f : Frontier, f.depth + n ≤ limit → ∃ ps a,
      Reaches limit (beforeOperand f) ts (afterAtom (f.pushAll ps) a) ∧
        ps.foldl Pending.complete a = e
  | .product, n, ts, e => ∀ (s : Option (Operator × Expr)) (outer : List Level),
      Frontier.depth ⟨⟨s, none, []⟩, outer⟩ + n ≤ limit → ∃ l a,
        Reaches limit (beforeOperand ⟨⟨s, none, []⟩, outer⟩) ts (afterAtom ⟨l, outer⟩ a) ∧
          l.summand = s ∧ l.product a = e
  | .sum, n, ts, e => ∀ outer : List Level, Frontier.depth ⟨.start, outer⟩ + n ≤ limit → ∃ l a,
      Reaches limit (beforeOperand ⟨.start, outer⟩) ts (afterAtom ⟨l, outer⟩ a) ∧ l.value a = e

theorem IsRead.push {limit n : Nat} {t : Token} {ts : List Token} {e : Expr} {p : Pending}
    (ht : ∀ f : Frontier, f.depth < limit →
      Takes limit (beforeOperand f) t (beforeOperand (f.push p)))
    (h : IsRead limit .unary n ts e) : IsRead limit .unary (n + 1) (t :: ts) (p.complete e) := by
  intro f hf
  obtain ⟨ps, a, hreach, rfl⟩ := h (f.push p) (by rw [Frontier.depth_push]; omega)
  rw [Frontier.pushAll_push] at hreach
  exact ⟨ps ++ [p], a, .cons (ht f (by omega)) hreach, by rw [List.foldl_append]; rfl⟩

theorem IsRead.sum {limit n : Nat} {ts us : List Token} {l r : Expr} {op : Operator}
    (ht : ∀ f a, Takes limit (afterAtom f a) (.operator op) (beforeOperand (f.plus op a)))
    (hl : IsRead limit .sum n ts l) (hr : IsRead limit .product n us r) :
    IsRead limit .sum n (ts ++ .operator op :: us) (.binary op l r) := by
  intro outer hlimit
  obtain ⟨k, a, hreach, rfl⟩ := hl outer hlimit
  obtain ⟨k', b, hreach', hs, rfl⟩ := hr (some (op, k.value a)) outer hlimit
  exact ⟨k', b, hreach.trans (.cons (ht _ a) hreach'), by simp only [Level.value, hs]⟩

theorem Grammar.Derives.isRead {limit n : Nat} {phrase : Phrase} {ts : List Token} {e : Expr}
    (h : Derives phrase n ts e) : IsRead limit phrase n ts e := by
  induction h with
  | number c => exact fun f _ => (Takes.number f c).reaches
  | name x => exact fun f _ => (Takes.name f x).reaches
  | parens _ ih =>
      intro f hf
      have hnest : Frontier.depth ⟨.start, f.level :: f.outer⟩ = f.depth + 1 := f.depth_nest
      obtain ⟨l, a, hreach, rfl⟩ := ih (f.level :: f.outer) (by omega)
      exact .cons (.openParen (by omega))
        (hreach.trans (Takes.closeParen l f.level f.outer a).reaches)
  | ofAtom _ ih => exact fun f hf => ⟨[], _, ih f hf, rfl⟩
  | @pow n ts us b e _ _ ihb ihe =>
      intro f hf
      -- the base is complete before the `^` opens anything
      obtain ⟨ps, a, hreach, rfl⟩ := ihe (f.push (.power b)) (by rw [Frontier.depth_push]; omega)
      rw [Frontier.pushAll_push] at hreach
      exact ⟨ps ++ [.power b], a, (ihb f hf).trans (.cons (.pow b (by omega)) hreach),
        by rw [List.foldl_append]; rfl⟩
  | ofPower _ ih => exact ih
  | plus _ ih => exact ih.push fun _ => .plus
  | minusLiteral _ ih => exact ih.push fun _ => .minus
  | @minus _ _ e _ hne ih =>
      have hread := ih.push (p := .minus) fun _ => .minus
      cases e with
      | num c => exact absurd rfl (hne c)
      | _ => exact hread
  | ofUnary _ ih =>
      intro s outer hlimit
      obtain ⟨ps, a, hreach, rfl⟩ := ih _ hlimit
      exact ⟨_, a, hreach, rfl, by simp [Level.product, Level.power]⟩
  | times _ _ ihl ihr =>
      intro s outer hlimit
      obtain ⟨l, a, hreach, rfl, rfl⟩ := ihl s outer hlimit
      obtain ⟨ps, b, hreach', rfl⟩ := ihr (Frontier.times ⟨l, outer⟩ a) hlimit
      exact ⟨_, b, hreach.trans (.cons (.mul _ a) hreach'), rfl,
        by simp [Level.product, Level.power, Frontier.times]⟩
  | juxtaposed _ _ hbegins ihl ihr =>
      intro s outer hlimit
      obtain ⟨l, a, hreach, rfl, rfl⟩ := ihl s outer hlimit
      -- no token says that another factor begins, so its own first one does
      obtain ⟨ps, b, hreach', rfl⟩ := ihr (Frontier.times ⟨l, outer⟩ a) hlimit
      exact ⟨_, b, hreach.trans (hreach'.juxtaposed hbegins), rfl,
        by simp [Level.product, Level.power, Frontier.times]⟩
  | ofProduct _ ih =>
      intro outer hlimit
      obtain ⟨l, a, hreach, hs, rfl⟩ := ih none outer hlimit
      exact ⟨l, a, hreach, by simp only [Level.value, hs]⟩
  | add _ _ ihl ihr => exact IsRead.sum (fun f a => .add f a) ihl ihr
  | sub _ _ ihl ihr => exact IsRead.sum (fun f a => .sub f a) ihl ihr

/-! ## What is read is derived

A level stands for tokens in three runs: those of its summand, those of its factor, and those of
its signs and powers. After a factor without a `*` the operand has to be a power that begins a
factor; `juxtaposed` keeps that in mind until the operand is complete. -/

/-- The tokens up to the last `+` or `-` of a sum. -/
inductive SumBegins (n : Nat) : Option (Operator × Expr) → List Token → Prop
  | none : SumBegins n none []
  | add {ts : List Token} {l : Expr} (h : Derives .sum n ts l) :
      SumBegins n (some (.add, l)) (ts ++ [.operator .add])
  | sub {ts : List Token} {l : Expr} (h : Derives .sum n ts l) :
      SumBegins n (some (.sub, l)) (ts ++ [.operator .sub])

/-- The tokens of a product up to its last factor, and whether that factor stands without a `*`. -/
inductive ProductBegins (n : Nat) : Option Expr → (juxtaposed : Bool) → List Token → Prop
  | none : ProductBegins n none false []
  | times {ts : List Token} {l : Expr} (h : Derives .product n ts l) :
      ProductBegins n (some l) false (ts ++ [.operator .mul])
  | juxtaposed {ts : List Token} {l : Expr} (h : Derives .product n ts l) :
      ProductBegins n (some l) true ts

/-- The tokens of a factor: a power that begins a factor where there is no `*`, and a unary phrase
elsewhere. -/
def IsFactor (n : Nat) (ts : List Token) (e : Expr) : (juxtaposed : Bool) → Prop
  | false => Derives .unary n ts e
  | true => Derives .power n ts e ∧ BeginsFactor ts

/-- `Opens n j ps m k ts`: the tokens open signs and powers in a factor. `n` and `j` say what the
factor may be, `m` and `k` what the operand of the innermost one may be. -/
inductive Opens (n : Nat) (j : Bool) : List Pending → Nat → Bool → List Token → Prop
  | nil : Opens n j [] n j []
  | plus {ps : List Pending} {m : Nat} {ts : List Token} (h : Opens n j ps (m + 1) false ts) :
      Opens n j (.plus :: ps) m false (ts ++ [.operator .add])
  | minus {ps : List Pending} {m : Nat} {ts : List Token} (h : Opens n j ps (m + 1) false ts) :
      Opens n j (.minus :: ps) m false (ts ++ [.operator .sub])
  | power {ps : List Pending} {m : Nat} {k : Bool} {ts us : List Token} {b : Expr}
      (h : Opens n j ps (m + 1) k ts) (base : Derives .atom (m + 1) us b)
      (hbegins : k = true → BeginsFactor us) :
      Opens n j (.power b :: ps) m false (ts ++ us ++ [.operator .pow])

theorem isFactor_of_atom {n : Nat} {ts : List Token} {e : Expr} {j : Bool}
    (h : Derives .atom n ts e) (hbegins : j = true → BeginsFactor ts) : IsFactor n ts e j := by
  cases j with
  | false => exact .ofPower (.ofAtom h)
  | true => exact ⟨.ofAtom h, hbegins rfl⟩

theorem Opens.complete {n : Nat} {j : Bool} {ps : List Pending} {m : Nat} {k : Bool}
    {ts us : List Token} {e : Expr} (h : Opens n j ps m k ts) (he : IsFactor m us e k) :
    IsFactor n (ts ++ us) (ps.foldl Pending.complete e) j := by
  -- from the innermost sign or power outwards; each gives back the room it has taken
  induction h generalizing us e with
  | nil => exact he
  | plus _ ih =>
      rw [List.append_assoc]
      exact ih (.plus he)
  | minus _ ih =>
      rw [List.append_assoc]
      exact ih (.negated he)
  | @power _ _ k _ _ _ _ base hbegins ih =>
      rw [List.append_assoc, List.append_assoc]
      refine ih ?_
      cases k with
      | false => exact .ofPower (.pow base he)
      | true => exact ⟨.pow base he, (hbegins rfl).append _⟩

theorem Opens.length_add {n : Nat} {j : Bool} {ps : List Pending} {m : Nat} {k : Bool}
    {ts : List Token} (h : Opens n j ps m k ts) : ps.length + m = n := by
  induction h with
  | nil => simp
  | plus _ ih => rw [List.length_cons]; omega
  | minus _ ih => rw [List.length_cons]; omega
  | power _ _ _ ih => rw [List.length_cons]; omega

/-- The tokens that a level stands for; `m` and `k` say what the next operand may be. -/
inductive LevelRead (n : Nat) (l : Level) (m : Nat) (k : Bool) : List Token → Prop
  | mk {j : Bool} {ts us vs : List Token} (hsum : SumBegins n l.summand ts)
      (hproduct : ProductBegins n l.factor j us) (hopens : Opens n j l.pending m k vs) :
      LevelRead n l m k (ts ++ (us ++ vs))

theorem ProductBegins.complete {n : Nat} {l : Level} {j : Bool} {ts us : List Token} {a : Expr}
    (h : ProductBegins n l.factor j ts) (ha : IsFactor n us (l.power a) j) :
    Derives .product n (ts ++ us) (l.product a) := by
  obtain ⟨s, f, ps⟩ := l
  cases h with
  | none => exact .ofUnary ha
  | times h =>
      rw [List.append_assoc]
      exact .times h ha
  | juxtaposed h => exact .juxtaposed h ha.1 ha.2

theorem SumBegins.complete {n : Nat} {l : Level} {ts us : List Token} {a : Expr}
    (h : SumBegins n l.summand ts) (ha : Derives .product n us (l.product a)) :
    Derives .sum n (ts ++ us) (l.value a) := by
  obtain ⟨s, f, ps⟩ := l
  cases h with
  | none => exact .ofProduct ha
  | add h =>
      rw [List.append_assoc]
      exact .add h ha
  | sub h =>
      rw [List.append_assoc]
      exact .sub h ha

namespace LevelRead

variable {n m : Nat} {l : Level} {k : Bool} {ts us : List Token} {a : Expr}

theorem start (n : Nat) : LevelRead n .start n false [] := by
  show LevelRead n .start n false ([] ++ ([] ++ []))
  exact .mk .none .none .nil

theorem length_add (h : LevelRead n l m k ts) : l.pending.length + m = n := by
  obtain ⟨-, -, hopens⟩ := h
  exact hopens.length_add

theorem value (h : LevelRead n l m k ts) (ha : Derives .atom m us a)
    (hbegins : k = true → BeginsFactor us) : Derives .sum n (ts ++ us) (l.value a) := by
  obtain ⟨hsum, hproduct, hopens⟩ := h
  rw [List.append_assoc, List.append_assoc]
  exact hsum.complete (hproduct.complete (hopens.complete (isFactor_of_atom ha hbegins)))

theorem push {p : Pending} {r : Nat} {vs : List Token} (h : LevelRead n l m k ts)
    (hopens : ∀ {j ws}, Opens n j l.pending m k ws →
      Opens n j (p :: l.pending) r false (ws ++ vs)) :
    LevelRead n ⟨l.summand, l.factor, p :: l.pending⟩ r false (ts ++ vs) := by
  obtain ⟨hsum, hproduct, hpending⟩ := h
  rw [List.append_assoc, List.append_assoc]
  exact .mk hsum hproduct (hopens hpending)

/-- The product so far, as the left side of another factor. -/
theorem times {j : Bool} {vs : List Token} (h : LevelRead n l m k ts) (ha : Derives .atom m us a)
    (hbegins : k = true → BeginsFactor us)
    (hnext : ∀ ws, Derives .product n ws (l.product a) →
      ProductBegins n (some (l.product a)) j (ws ++ vs)) :
    LevelRead n ⟨l.summand, some (l.product a), []⟩ n j (ts ++ us ++ vs) := by
  obtain ⟨hsum, hproduct, hopens⟩ := h
  have hfactor := hproduct.complete (hopens.complete (isFactor_of_atom ha hbegins))
  have hlevel : LevelRead n ⟨l.summand, some (l.product a), []⟩ n j _ :=
    .mk hsum (hnext _ hfactor) .nil
  simpa only [List.append_assoc, List.append_nil] using hlevel

end LevelRead

/-- The tokens up to the last open parenthesis, and the room that is left inside it. -/
inductive OuterRead (limit : Nat) : List Level → Nat → List Token → Prop
  | nil : OuterRead limit [] limit []
  | cons {outer : List Level} {l : Level} {n m : Nat} {k : Bool} {ts us : List Token}
      (h : OuterRead limit outer n ts) (hl : LevelRead n l (m + 1) k us) :
      OuterRead limit (l :: outer) m (ts ++ us ++ [.openParen])

/-- The tokens that have been taken on the way to some progress. -/
inductive Represents (limit : Nat) : Progress → List Token → Prop
  | beforeOperand {f : Frontier} {n m : Nat} {ts us : List Token}
      (ho : OuterRead limit f.outer n ts) (hl : LevelRead n f.level m false us) :
      Represents limit (beforeOperand f) (ts ++ us)
  | afterAtom {f : Frontier} {n m : Nat} {k : Bool} {ts us vs : List Token} {a : Expr}
      (ho : OuterRead limit f.outer n ts) (hl : LevelRead n f.level m k us)
      (ha : Derives .atom m vs a) (hbegins : k = true → BeginsFactor vs) :
      Represents limit (afterAtom f a) (ts ++ us ++ vs)

/-- What is open and what may still be opened add up to the limit. -/
theorem depth_add {limit : Nat} {f : Frontier} {n m : Nat} {k : Bool} {ts us : List Token}
    (ho : OuterRead limit f.outer n ts) (hl : LevelRead n f.level m k us) :
    f.depth + m = limit := by
  have houter : ∀ {outer : List Level} {n : Nat} {ts : List Token}, OuterRead limit outer n ts →
      outer.foldr (fun l opened => l.pending.length + 1 + opened) 0 + n = limit := by
    intro outer n ts h
    induction h with
    | nil => simp
    | cons _ hl ih =>
        have hlevel := hl.length_add
        rw [List.foldr_cons]
        omega
  have hrest := houter ho
  have hlevel := hl.length_add
  unfold Frontier.depth
  omega

/-- One token where an operand has to begin. After a factor without a `*` it has to begin one. -/
theorem represents_of_takes_beforeOperand {limit : Nat} {f : Frontier} {n m : Nat} {k : Bool}
    {ts us : List Token} {t : Token} {q : Progress} (ho : OuterRead limit f.outer n ts)
    (hl : LevelRead n f.level m k us) (hk : k = true → BeginsFactor [t])
    (h : Takes limit (beforeOperand f) t q) : Represents limit q (ts ++ us ++ [t]) := by
  have hdepth := depth_add ho hl
  have hroom : f.depth < limit → ∃ r, m = r + 1 := fun hlt => ⟨m - 1, by omega⟩
  cases h with
  | number _ c => exact .afterAtom ho hl (.number c) hk
  | name _ x => exact .afterAtom ho hl (.name x) hk
  | openParen hlt =>
      obtain ⟨r, rfl⟩ := hroom hlt
      have hnested : Represents limit (beforeOperand f.nest) (_ ++ []) :=
        .beforeOperand (.cons ho hl) (.start r)
      rwa [List.append_nil] at hnested
  | minus hlt =>
      obtain ⟨r, rfl⟩ := hroom hlt
      obtain rfl : k = false := Bool.eq_false_iff.mpr fun hkt => hk hkt
      have hpushed : Represents limit (beforeOperand (f.push .minus)) _ :=
        .beforeOperand ho (hl.push .minus)
      rwa [← List.append_assoc] at hpushed
  | plus hlt =>
      obtain ⟨r, rfl⟩ := hroom hlt
      obtain rfl : k = false := Bool.eq_false_iff.mpr fun hkt => hk hkt
      have hpushed : Represents limit (beforeOperand (f.push .plus)) _ :=
        .beforeOperand ho (hl.push .plus)
      rwa [← List.append_assoc] at hpushed

/-- One token: what has been taken before and the token itself are what has been taken after. -/
theorem Represents.takes {limit : Nat} {p q : Progress} {ts : List Token} {t : Token}
    (hp : Represents limit p ts) (h : Takes limit p t q) : Represents limit q (ts ++ [t]) := by
  cases hp with
  | beforeOperand ho hl => exact represents_of_takes_beforeOperand ho hl nofun h
  | @afterAtom f n m k ts us vs a ho hl ha hbegins =>
      have hdepth := depth_add ho hl
      cases h with
      | pow _ hlt =>
          obtain ⟨r, rfl⟩ : ∃ r, m = r + 1 := ⟨m - 1, by omega⟩
          have hpushed : Represents limit (.beforeOperand (f.push (.power a))) _ :=
            .beforeOperand ho (hl.push fun hopens => by
              rw [← List.append_assoc]
              exact .power hopens ha hbegins)
          simpa only [List.append_assoc] using hpushed
      | mul =>
          have hnext : Represents limit (.beforeOperand (f.times a)) _ :=
            .beforeOperand ho (hl.times ha hbegins fun _ => .times)
          simpa only [List.append_assoc] using hnext
      | add =>
          have hnext : Represents limit (.beforeOperand (f.plus .add a)) _ :=
            .beforeOperand ho (.mk (.add (hl.value ha hbegins)) .none .nil)
          simpa only [List.append_assoc, List.append_nil] using hnext
      | sub =>
          have hnext : Represents limit (.beforeOperand (f.plus .sub a)) _ :=
            .beforeOperand ho (.mk (.sub (hl.value ha hbegins)) .none .nil)
          simpa only [List.append_assoc, List.append_nil] using hnext
      | juxtaposed hbeginsNext h =>
          have hlevel : LevelRead n (f.times a).level n true (us ++ vs ++ []) :=
            hl.times ha hbegins fun _ hfactor => by
              rw [List.append_nil]
              exact .juxtaposed hfactor
          have hnext := represents_of_takes_beforeOperand (f := f.times a) ho hlevel
            (fun _ => hbeginsNext) h
          simpa only [List.append_assoc, List.append_nil] using hnext
      | closeParen l outer rest =>
          -- the sum inside becomes an atom of the level about it
          cases ho with
          | @cons _ _ n' _ k' ts' us' ho' hl' =>
              have hatom : Derives .atom (n + 1) _ (l.value a) := .parens (hl.value ha hbegins)
              have hclosed : Represents limit (.afterAtom ⟨outer, rest⟩ (l.value a)) _ :=
                .afterAtom ho' hl' hatom fun _ => trivial
              simpa only [List.append_assoc, List.cons_append, List.nil_append] using hclosed

theorem Represents.reaches {limit : Nat} {p q : Progress} {ts us : List Token}
    (hp : Represents limit p ts) (h : Reaches limit p us q) : Represents limit q (ts ++ us) := by
  induction h generalizing ts with
  | nil _ => rwa [List.append_nil]
  | cons ht _ ih =>
      have hrest := ih (hp.takes ht)
      rwa [List.append_assoc] at hrest

/-! ## The reader and the grammar -/

theorem reaches_finish_iff_derives {limit : Nat} {ts : List Token} {e : Expr} :
    (∃ q, Reaches limit (beforeOperand .start) ts q ∧ q.finish = .ok e) ↔
      Derives .sum limit ts e := by
  constructor
  · rintro ⟨q, hq, hfinish⟩
    have hstart : Represents limit (beforeOperand .start) ([] ++ []) :=
      .beforeOperand .nil (.start limit)
    have hread := hstart.reaches hq
    obtain ⟨l, a, rfl, rfl⟩ := finish_eq_ok.mp hfinish
    rw [List.append_nil, List.nil_append] at hread
    cases hread with
    | afterAtom ho hl ha hbegins =>
        cases ho with
        | nil => exact hl.value ha hbegins
  · intro h
    have hread : IsRead limit .sum limit ts e := h.isRead
    obtain ⟨l, a, hreach, rfl⟩ := hread [] (by simp [Frontier.depth, Level.start])
    exact ⟨_, hreach, finish_eq_ok.mpr ⟨l, a, rfl, rfl⟩⟩

namespace Expr

theorem ofTokensWithin_eq_ok {limit : Nat} {ts : List PlacedToken} {e : Expr} :
    ofTokensWithin limit ts = .ok e ↔ Derives .sum limit (ts.map PlacedToken.token) e := by
  rw [← reaches_finish_iff_derives]
  cases ts with
  | nil =>
      refine ⟨nofun, ?_⟩
      rintro ⟨q, ⟨⟩, hfinish⟩
      cases hfinish
  | cons t ts => exact run_eq_ok

theorem ofText_eq_ok {text : String} {e : Expr} :
    ofText text = .ok e ↔ ∃ ts, Token.ofText text = .ok ts ∧
      Derives .sum maxNesting (ts.map PlacedToken.token) e := by
  simp only [ofText, bind_eq_ok, ofTokens, ofTokensWithin_eq_ok]

end Expr

/-- Any tokens stand somewhere. -/
theorem exists_placed (ts : List Token) :
    ∃ placed : List PlacedToken, placed.map PlacedToken.token = ts :=
  ⟨ts.map fun t => ⟨0, t⟩, by rw [List.map_map]; exact List.map_id ts⟩

/-- A list of tokens has at most one tree, whatever the limits of its derivations are. -/
theorem Grammar.Derives.unique {m n : Nat} {ts : List Token} {e e' : Expr}
    (h : Derives .sum m ts e) (h' : Derives .sum n ts e') : e = e' := by
  -- the reader needs places for its tokens
  obtain ⟨placed, rfl⟩ := exists_placed ts
  have hread := Expr.ofTokensWithin_eq_ok.mpr (h.mono (Nat.le_max_left m n))
  have hread' := Expr.ofTokensWithin_eq_ok.mpr (h'.mono (Nat.le_max_right m n))
  rw [hread] at hread'
  exact Except.ok.inj hread'

/-- **The reader accepts exactly its grammar.** A text that can be cut into tokens is read as a
tree if and only if the grammar derives that tree from its tokens with no more than `maxNesting`
constructs open at once, and no other tree can be derived from them. -/
theorem Expr.ofText_iff_derives {text : String} {tokens : List PlacedToken}
    (h : Token.ofText text = .ok tokens) :
    (∀ e, Expr.ofText text = .ok e ↔
      Derives .sum maxNesting (tokens.map PlacedToken.token) e) ∧
    ∀ m n e e', Derives .sum m (tokens.map PlacedToken.token) e →
      Derives .sum n (tokens.map PlacedToken.token) e' → e = e' := by
  refine ⟨fun e => ?_, fun _ _ _ _ he he' => he.unique he'⟩
  rw [Expr.ofText_eq_ok, h]
  simp

/-- In `2^-x^2y` the sign takes the second power and neither takes the last factor. -/
theorem Expr.ofText_iff_derives_of_signed_power :
    let minusOne := num (.int (-1))
    let power := binary .pow (var "x") (num (.int 2))
    let e := binary .mul (binary .pow (num (.int 2)) (binary .mul minusOne power)) (var "y")
    ∃ tokens, Token.ofText "2^-x^2y" = .ok tokens ∧
      Derives .sum maxNesting (tokens.map PlacedToken.token) e ∧
      ∀ n e', Derives .sum n (tokens.map PlacedToken.token) e' → e = e' := by
  intro minusOne power e
  let tokens : List PlacedToken := [⟨0, .number (.int 2)⟩, ⟨1, .operator .pow⟩,
    ⟨2, .operator .sub⟩, ⟨3, .name "x"⟩, ⟨4, .operator .pow⟩, ⟨5, .number (.int 2)⟩,
    ⟨6, .name "y"⟩]
  have htokens : Token.ofText "2^-x^2y" = .ok tokens := by rfl
  have hread : Expr.ofText "2^-x^2y" = .ok e := by rfl
  obtain ⟨hiff, hunique⟩ := Expr.ofText_iff_derives htokens
  have hderives := (hiff e).mp hread
  exact ⟨tokens, htokens, hderives, fun n e' he' => hunique _ n e e' hderives he'⟩

end PolyCalc
