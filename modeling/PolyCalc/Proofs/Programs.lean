import PolyCalc.Proofs.Cuts
import PolyCalc.Proofs.Recursion

/-!
# Programs and trees

A tree is evaluated through its postfix program, but a program can be any list of instructions.
This file says which of them are the program of a tree, and how all the others fail.

Both can be told from the number of values on the stack alone (`heightAfter`): a leaf adds one and
an operator, which takes two and gives one, removes one. If no operator lacks an operand and one
value is left, the list is the program of exactly one tree (`isProgram_iff_existsUnique`), because
a run that collects trees instead of values never forgets an instruction (`programs_build`). Any
other list is malformed, and it is reported as such unless an operator is refused on the values that
it finds (`evaluate_of_not_refuses`); an operator that lacks an operand ends the run, so only the
operators before it can be refused.
-/

namespace PolyCalc

namespace Expr

/-! ## The walk over a tree

The program of a tree does not have to be written by recursion. A walk that keeps on a stack what
is still to be visited writes the same program, whatever the depth of the tree is. -/

theorem postfixOnto_append (e : Expr) (ps qs : List Instruction) :
    e.postfixOnto (ps ++ qs) = e.postfixOnto ps ++ qs := by
  induction e generalizing ps with
  | num n => rfl
  | var x => rfl
  | binary op left right ihl ihr =>
      simp only [postfixOnto]
      rw [← List.cons_append, ihr, ihl]

theorem postfixOnto_eq_append (e : Expr) (ps : List Instruction) :
    e.postfixOnto ps = e.toPostfix ++ ps := by
  rw [toPostfix, ← postfixOnto_append, List.nil_append]

theorem toPostfix_binary (op : Operator) (left right : Expr) :
    (binary op left right).toPostfix = left.toPostfix ++ (right.toPostfix ++ [.apply op]) := by
  rw [toPostfix, postfixOnto, postfixOnto_eq_append, postfixOnto_eq_append right]

/-- A bound on the visits that are still owed to an item of the stack. -/
def visits : Expr × Bool → Nat
  | (_, true) => 1
  | (e, false) => 2 * e.size

theorem visits_pos : ∀ item : Expr × Bool, 0 < visits item
  | (_, true) => Nat.one_pos
  | (num _, false) => Nat.two_pos
  | (var _, false) => Nat.two_pos
  | (binary _ _ _, false) => Nat.mul_pos Nat.two_pos (Nat.succ_pos _)

/-- Visits what is on the stack and writes instructions behind those already written. An operation
comes up twice: at first it is put back, marked, under its operands, and then it is written. -/
def walk (written : List Instruction) : List (Expr × Bool) → List Instruction
  | [] => written
  | (num n, _) :: todo => walk (written ++ [.num n]) todo
  | (var x, _) :: todo => walk (written ++ [.var x]) todo
  | (binary op _ _, true) :: todo => walk (written ++ [.apply op]) todo
  | (binary op left right, false) :: todo =>
      walk written ((left, false) :: (right, false) :: (binary op left right, true) :: todo)
termination_by todo => todo.foldr (fun item owed => visits item + owed) 0
decreasing_by
  all_goals simp only [List.foldr_cons]
  · exact Nat.lt_add_of_pos_left (visits_pos _)
  · exact Nat.lt_add_of_pos_left (visits_pos _)
  · exact Nat.lt_add_of_pos_left (visits_pos _)
  · simp only [visits, size]
    omega

/-- What is written for an item of the stack in the end. -/
def writes : Expr × Bool → List Instruction
  | (binary op _ _, true) => [.apply op]
  | (e, _) => e.toPostfix

theorem walk_eq (written : List Instruction) (todo : List (Expr × Bool)) :
    walk written todo = written ++ todo.flatMap writes := by
  fun_induction walk written todo with
  | case1 written => rw [List.flatMap_nil, List.append_nil]
  | case2 written n marked todo ih =>
      rw [ih, List.append_assoc]
      cases marked <;> rfl
  | case3 written x marked todo ih =>
      rw [ih, List.append_assoc]
      cases marked <;> rfl
  | case4 written op left right todo ih =>
      rw [ih, List.append_assoc]
      rfl
  | case5 written op left right todo ih =>
      rw [ih]
      simp only [List.flatMap_cons, writes, toPostfix_binary, List.append_assoc]

/-- The walk over a tree, with nothing written yet. -/
def linearized (e : Expr) : List Instruction := walk [] [(e, false)]

theorem linearized_eq_toPostfix (e : Expr) : e.linearized = e.toPostfix := by
  rw [linearized, walk_eq]
  cases e <;> simp [writes]

end Expr

namespace Instruction

/-! ## Heights -/

/-- How many values a program leaves on a stack of some height, or else the first operator that
lacks an operand, and its step. -/
def heightAfter : (height index : Nat) → List Instruction → Except Malformation Nat
  | height, _, [] => .ok height
  | height, index, num _ :: rest => heightAfter (height + 1) (index + 1) rest
  | height, index, var _ :: rest => heightAfter (height + 1) (index + 1) rest
  | height + 2, index, apply _ :: rest => heightAfter (height + 1) (index + 1) rest
  | _, index, apply op :: _ => .error (.missingOperand op index)

/-- Every operator finds two operands, and exactly one value remains. -/
def IsProgram (program : List Instruction) : Prop := heightAfter 0 0 program = .ok 1

/-- What is wrong with a list of instructions that is no program. -/
def malformation? (program : List Instruction) : Option Malformation :=
  match heightAfter 0 0 program with
  | .error m => some m
  | .ok 0 => some .nothing
  | .ok 1 => none
  | .ok height => some (.leftOver height)

theorem malformation?_eq_none_iff {program : List Instruction} :
    malformation? program = none ↔ IsProgram program := by
  unfold malformation? IsProgram
  split <;> simp_all

/-! ## Trees of programs -/

/-- The run of a program that collects trees instead of values. -/
def build : (stack : List Expr) → List Instruction → Option (List Expr)
  | stack, [] => some stack
  | stack, num n :: rest => build (.num n :: stack) rest
  | stack, var x :: rest => build (.var x :: stack) rest
  | right :: left :: below, apply op :: rest => build (.binary op left right :: below) rest
  | _, apply _ :: _ => none

theorem build_postfixOnto (e : Expr) (stack : List Expr) (rest : List Instruction) :
    build stack (e.postfixOnto rest) = build (e :: stack) rest := by
  induction e generalizing stack rest with
  | num n => rfl
  | var x => rfl
  | binary op left right ihl ihr => rw [Expr.postfixOnto, ihl, ihr, build]

theorem build_toPostfix (e : Expr) : build [] e.toPostfix = some [e] :=
  build_postfixOnto e [] []

theorem toPostfix_injective {e e' : Expr} (h : e.toPostfix = e'.toPostfix) : e = e' := by
  have hbuild := build_toPostfix e
  rw [h, build_toPostfix] at hbuild
  exact (List.singleton_injective (Option.some.inj hbuild)).symm

/-- Trees can be collected as long as no operator lacks an operand. -/
theorem build_height (stack : List Expr) (index : Nat) (program : List Instruction) :
    (build stack program).map List.length =
      (heightAfter stack.length index program).toOption := by
  fun_induction build stack program generalizing index with
  | case1 stack => rfl
  | case2 stack n rest ih => exact ih (index + 1)
  | case3 stack x rest ih => exact ih (index + 1)
  | case4 right left below op rest ih => exact ih (index + 1)
  | case5 stack op rest hshort =>
      match stack with
      | [] => rfl
      | [_] => rfl
      | right :: left :: below => exact absurd rfl (hshort right left below)

/-- The programs of the trees on a stack, the one at the bottom first. -/
def programs (stack : List Expr) : List Instruction := stack.reverse.flatMap Expr.toPostfix

theorem programs_cons (e : Expr) (stack : List Expr) :
    programs (e :: stack) = programs stack ++ e.toPostfix := by
  rw [programs, List.reverse_cons, List.flatMap_append, List.flatMap_singleton, programs]

/-- The trees that are collected account for all instructions that have been run. -/
theorem programs_build {stack stack' : List Expr} {program : List Instruction}
    (h : build stack program = some stack') : programs stack' = programs stack ++ program := by
  fun_induction build stack program with
  | case1 stack =>
      obtain rfl := Option.some.inj h
      exact (List.append_nil _).symm
  | case2 stack n rest ih =>
      rw [ih h, programs_cons, List.append_assoc]
      rfl
  | case3 stack x rest ih =>
      rw [ih h, programs_cons, List.append_assoc]
      rfl
  | case4 right left below op rest ih =>
      rw [ih h]
      simp only [programs_cons, Expr.toPostfix_binary, List.append_assoc, List.singleton_append]
  | case5 => cases h

theorem isProgram_toPostfix (e : Expr) : IsProgram e.toPostfix := by
  have hheight := build_height [] 0 e.toPostfix
  rw [build_toPostfix] at hheight
  unfold IsProgram
  cases hafter : heightAfter 0 0 e.toPostfix with
  | error m =>
      rw [List.length_nil, hafter] at hheight
      cases hheight
  | ok height =>
      rw [List.length_nil, hafter] at hheight
      exact congrArg Except.ok (Option.some.inj hheight).symm

theorem exists_toPostfix_eq {program : List Instruction} (h : IsProgram program) :
    ∃ e : Expr, e.toPostfix = program := by
  have hheight := build_height [] 0 program
  rw [List.length_nil, h] at hheight
  obtain ⟨stack, hstack, hlength⟩ := Option.map_eq_some_iff.mp hheight
  obtain ⟨e, rfl⟩ := List.length_eq_one_iff.mp hlength
  have hprogram := programs_build hstack
  rw [programs_cons] at hprogram
  exact ⟨e, hprogram⟩

theorem isProgram_iff_existsUnique {program : List Instruction} :
    IsProgram program ↔ ∃! e : Expr, e.toPostfix = program := by
  constructor
  · intro h
    obtain ⟨e, rfl⟩ := exists_toPostfix_eq h
    exact ⟨e, rfl, fun _ h' => toPostfix_injective h'⟩
  · rintro ⟨e, rfl, -⟩
    exact isProgram_toPostfix e

/-! ## How a run ends -/

/-- Some operator is refused on the operands that it finds, and up to there the program runs. -/
def Refuses (stack : List Value) (index : Nat) (program : List Instruction) (r : Refusal) : Prop :=
  ∃ before op after right left below, program = before ++ apply op :: after ∧
    run stack index before = .ok (right :: left :: below) ∧ op.apply left right = .error r

theorem run_append (stack : List Value) (index : Nat) (before after : List Instruction) :
    run stack index (before ++ after) =
      run stack index before >>= fun stack' => run stack' (index + before.length) after := by
  induction before generalizing stack index with
  | nil => rfl
  | cons i before ih =>
      simp only [List.cons_append, run, List.length_cons]
      cases i.step stack index with
      | error e => rfl
      | ok stack' =>
          have hindex : index + (before.length + 1) = index + 1 + before.length := by omega
          rw [hindex]
          exact ih stack' (index + 1)

theorem Refuses.run_eq {stack : List Value} {index : Nat} {program : List Instruction}
    {r : Refusal} (h : Refuses stack index program r) :
    run stack index program = .error (.refused r) := by
  obtain ⟨before, op, after, right, left, below, rfl, hbefore, hrefused⟩ := h
  rw [run_append, hbefore]
  show (do run (← (apply op).step (right :: left :: below) _) _ after) = _
  simp only [step, hrefused]
  rfl

theorem Refuses.cons {i : Instruction} {stack stack' : List Value} {index : Nat}
    {rest : List Instruction} {r : Refusal} (hi : i.step stack index = .ok stack')
    (h : Refuses stack' (index + 1) rest r) : Refuses stack index (i :: rest) r := by
  obtain ⟨before, op, after, right, left, below, rfl, hbefore, hrefused⟩ := h
  exact ⟨i :: before, op, after, right, left, below, rfl, bind_eq_ok.mpr ⟨stack', hi, hbefore⟩,
    hrefused⟩

/-- A run ends with as many values as the heights say, or at the operator that they say lacks an
operand, unless an operator is refused before. -/
theorem run_cases (stack : List Value) (index : Nat) (program : List Instruction) :
    (∃ stack', run stack index program = .ok stack' ∧
      heightAfter stack.length index program = .ok stack'.length) ∨
    (∃ m, run stack index program = .error (.malformed m) ∧
      heightAfter stack.length index program = .error m) ∨
    ∃ r, Refuses stack index program r := by
  induction program generalizing stack index with
  | nil => exact Or.inl ⟨stack, rfl, rfl⟩
  | cons i rest ih =>
      cases i with
      | num n =>
          rcases ih (.constant n :: stack) (index + 1) with h | h | ⟨r, h⟩
          · exact Or.inl h
          · exact Or.inr (Or.inl h)
          · exact Or.inr (Or.inr ⟨r, .cons rfl h⟩)
      | var x =>
          rcases ih (.var x :: stack) (index + 1) with h | h | ⟨r, h⟩
          · exact Or.inl h
          · exact Or.inr (Or.inl h)
          · exact Or.inr (Or.inr ⟨r, .cons rfl h⟩)
      | apply op =>
          match stack with
          | [] => exact Or.inr (Or.inl ⟨_, rfl, rfl⟩)
          | [_] => exact Or.inr (Or.inl ⟨_, rfl, rfl⟩)
          | right :: left :: below =>
              cases hv : op.apply left right with
              | error r => exact Or.inr (Or.inr ⟨r, [], op, rest, right, left, below, rfl, rfl, hv⟩)
              | ok v =>
                  have hstep : (apply op).step (right :: left :: below) index =
                      .ok (v :: below) := by
                    simp only [step, hv]
                  have hrun : run (right :: left :: below) index (apply op :: rest) =
                      run (v :: below) (index + 1) rest := by
                    rw [run, hstep]
                    rfl
                  rw [hrun]
                  rcases ih (v :: below) (index + 1) with h | h | ⟨r, h⟩
                  · exact Or.inl h
                  · exact Or.inr (Or.inl h)
                  · exact Or.inr (Or.inr ⟨r, .cons hstep h⟩)

theorem Refuses.evaluate_eq {program : List Instruction} {r : Refusal}
    (h : Refuses [] 0 program r) : evaluate program = .error (.refused r) := by
  rw [evaluate, h.run_eq]
  rfl

/-- Where no operator is refused, the heights decide: there is a value exactly if nothing is wrong
with the program. -/
theorem evaluate_of_not_refuses {program : List Instruction}
    (h : ∀ r, ¬ Refuses [] 0 program r) :
    match malformation? program with
    | none => ∃ v, evaluate program = .ok v
    | some m => evaluate program = .error (.malformed m) := by
  rcases run_cases [] 0 program with ⟨stack, hrun, hheight⟩ | ⟨m, hrun, hheight⟩ | ⟨r, hr⟩
  · rw [evaluate, hrun, malformation?]
    rw [List.length_nil] at hheight
    rw [hheight]
    rcases stack with _ | ⟨v, _ | ⟨w, below⟩⟩
    · rfl
    · exact ⟨v, rfl⟩
    · rfl
  · rw [evaluate, hrun, malformation?]
    rw [List.length_nil] at hheight
    rw [hheight]
    rfl
  · exact absurd hr (h r)

end Instruction

/-! ## Leaves and texts

The leaves that are made of tokens would pass the checks of leaves that are made otherwise. So a
text is refused as an expression or in arithmetic, and in no other way. -/

theorem Expr.ofNumber_of_mem_ofText {text : String} {tokens : List PlacedToken}
    (h : Token.ofText text = .ok tokens) {n : Number}
    (hn : .number n ∈ tokens.map PlacedToken.token) : ofNumber n = .ok (.num n) :=
  if_pos (Token.isFinite_of_mem_ofText h hn)

theorem Expr.ofName_of_mem_ofText {text : String} {tokens : List PlacedToken}
    (h : Token.ofText text = .ok tokens) {x : String}
    (hx : .name x ∈ tokens.map PlacedToken.token) : ofName x = .ok (.var x) :=
  if_pos (Token.isName_of_mem_ofText h hx)

theorem Expr.evaluate_eq_error {e : Expr} {cause : Error} (h : e.evaluate = .error cause) :
    ∃ r, cause = .refused r := by
  rw [evaluate_eq_value] at h
  cases hvalue : e.value with
  | ok v =>
      rw [hvalue] at h
      cases h
  | error r =>
      rw [hvalue] at h
      exact ⟨r, (Except.error.inj h).symm⟩

theorem calculate_eq_error {text : String} {cause : Error} (h : calculate text = .error cause) :
    (∃ e, cause = .unreadable e) ∨ ∃ r, cause = .refused r := by
  unfold calculate at h
  cases hread : Expr.ofText text with
  | error e =>
      rw [hread] at h
      exact Or.inl ⟨e, (Except.error.inj h).symm⟩
  | ok e =>
      rw [hread] at h
      exact Or.inr (Expr.evaluate_eq_error h)

namespace Instruction

/-- **Postfix evaluation, over all lists of instructions.** A tree is evaluated by the program that
the walk over it writes, and its value is the one by recursion; it is never malformed. The lists in
which every operator finds two operands and one value remains are the programs of trees, each of
exactly one. Any other list fails: with the first refusal if an operator is refused on the way, and
otherwise because of what is wrong with it. For a text, tokens make leaves that need no checking,
and nothing but its reading and the arithmetic can fail. -/
theorem evaluate_exact :
    (∀ e : Expr, e.evaluate = evaluate e.linearized ∧ e.evaluate = e.value.mapError .refused ∧
      ∀ m, e.evaluate ≠ .error (.malformed m)) ∧
    (∀ program, (IsProgram program ↔ ∃! e : Expr, e.linearized = program) ∧
      ∀ e : Expr, e.linearized = program → evaluate program = e.evaluate) ∧
    (∀ program, ¬ IsProgram program →
      (∀ r, Refuses [] 0 program r → evaluate program = .error (.refused r)) ∧
      ((∀ r, ¬ Refuses [] 0 program r) → ∃ m, malformation? program = some m ∧
        evaluate program = .error (.malformed m))) ∧
    (∀ text tokens, Token.ofText text = .ok tokens →
      (∀ n, .number n ∈ tokens.map PlacedToken.token → Expr.ofNumber n = .ok (.num n)) ∧
      ∀ x, .name x ∈ tokens.map PlacedToken.token → Expr.ofName x = .ok (.var x)) ∧
    ∀ text cause, calculate text = .error cause →
      (∃ e, cause = .unreadable e) ∨ ∃ r, cause = .refused r := by
  have hwalk : ∀ e : Expr, e.evaluate = evaluate e.linearized := fun e => by
    rw [Expr.linearized_eq_toPostfix, Expr.evaluate]
  refine ⟨fun e => ⟨hwalk e, e.evaluate_eq_value, fun m h => ?_⟩, fun program => ⟨?_, ?_⟩,
    fun program hprogram => ⟨fun _ hr => hr.evaluate_eq, fun hnone => ?_⟩,
    fun _ _ h => ⟨fun _ => Expr.ofNumber_of_mem_ofText h, fun _ => Expr.ofName_of_mem_ofText h⟩,
    fun _ _ => calculate_eq_error⟩
  · obtain ⟨r, hr⟩ := Expr.evaluate_eq_error h
    cases hr
  · simp only [isProgram_iff_existsUnique, Expr.linearized_eq_toPostfix]
  · rintro e rfl
    exact (hwalk e).symm
  · have hfails := evaluate_of_not_refuses hnone
    cases hm : malformation? program with
    | none => exact absurd (malformation?_eq_none_iff.mp hm) hprogram
    | some m =>
        rw [hm] at hfails
        exact ⟨m, rfl, hfails⟩

/-- `2 -1 ^ +` is refused before its last operator lacks an operand, and `1 +` lacks one at once;
`x 2 + y *` is the program of one tree, which the walk writes. -/
theorem evaluate_exact_of_instructions :
    let refused := [num (.int 2), num (.int (-1)), apply .pow, apply .add]
    let short := [num (.int 1), apply .add]
    let complete := [var "x", num (.int 2), apply .add, var "y", apply .mul]
    let e := Expr.binary .mul (.binary .add (.var "x") (.num (.int 2))) (.var "y")
    evaluate refused = .error (.refused (.exponentNotNatural (.int (-1)))) ∧
      evaluate short = .error (.malformed (.missingOperand .add 1)) ∧
      (∃! e : Expr, e.linearized = complete) ∧ e.linearized = complete ∧
      evaluate complete = e.evaluate := by
  intro refused short complete e
  obtain ⟨-, hprogram, hother, -, -⟩ := evaluate_exact
  have hrefuses : Refuses [] 0 refused (.exponentNotNatural (.int (-1))) :=
    ⟨[num (.int 2), num (.int (-1))], .pow, [apply .add], .constant (.int (-1)),
      .constant (.int 2), [], rfl, rfl, rfl⟩
  have hshort : ∀ r, ¬ Refuses [] 0 short r := by
    intro r hr
    have hrun : run [] 0 short = .error (.malformed (.missingOperand .add 1)) := rfl
    rw [hr.run_eq] at hrun
    cases hrun
  obtain ⟨m, hm, hfails⟩ := (hother short (by unfold IsProgram; nofun)).2 hshort
  obtain rfl := Option.some.inj hm
  have hcomplete : e.linearized = complete := e.linearized_eq_toPostfix
  exact ⟨(hother refused (by unfold IsProgram; nofun)).1 _ hrefuses, hfails,
    (hprogram complete).1.mp rfl, hcomplete, (hprogram complete).2 e hcomplete⟩

end Instruction

end PolyCalc
