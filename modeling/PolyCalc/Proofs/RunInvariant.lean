import PolyCalc.Proofs.Exponents

/-!
# The operand stack of a run

Values are not only made by trees. A postfix program can be any list of instructions, and it may
fail, but up to there every value on its stack is well formed: monomials are canonical with
exponents from one to the limit, and polynomials are in normal form. Nothing is asked of the
numbers in the program, which may be doubles and overflow on the way.

One step keeps this (`Instruction.step_isWellFormed`), hence a run does, from any stack that has it
(`Instruction.run_isWellFormed`). A consequence is that exponents never leave 64 bits
(`Instruction.run_invariant`): well-formed operands form sums and multiples that are far below.
-/

namespace PolyCalc

/-- Monomials are canonical and within the limit, and a polynomial is in normal form. -/
structure Value.IsWellFormed (v : Value) : Prop where
  supported : v.IsSupported
  normal : v.IsNormal

/-- Every operator that gives a value gives a well-formed one. -/
theorem Operator.isWellFormed_apply {op : Operator} {v w u : Value} (hv : v.IsWellFormed)
    (hw : w.IsWellFormed) (h : op.apply v w = .ok u) : u.IsWellFormed where
  supported := fun t ht => (closed_isSupported.apply (fun s hs => ⟨trivial, hv.supported s hs⟩)
    (fun s hs => ⟨trivial, hw.supported s hs⟩) h t ht).2
  normal := isNormal_apply h

namespace Instruction

/-- The ways in which a step goes through: a leaf is pushed, or an operator replaces the two
topmost values, the right operand being on top. -/
theorem step_cases {i : Instruction} {stack stack' : List Value} {index : Nat}
    (h : i.step stack index = .ok stack') :
    (∃ n, i = num n ∧ stack' = .constant n :: stack) ∨
    (∃ x, i = var x ∧ stack' = .var x :: stack) ∨
    (∃ op right left below v, i = apply op ∧ stack = right :: left :: below ∧
      op.apply left right = .ok v ∧ stack' = v :: below) := by
  cases i with
  | num n => exact Or.inl ⟨n, rfl, (Except.ok.inj h).symm⟩
  | var x => exact Or.inr (Or.inl ⟨x, rfl, (Except.ok.inj h).symm⟩)
  | apply op =>
      rcases stack with _ | ⟨right, _ | ⟨left, below⟩⟩
      · cases h
      · cases h
      · refine Or.inr (Or.inr ?_)
        simp only [step] at h
        split at h
        · next v hv => exact ⟨op, right, left, below, v, rfl, rfl, hv, (Except.ok.inj h).symm⟩
        · cases h

theorem step_isWellFormed {i : Instruction} {stack stack' : List Value} {index : Nat}
    (hstack : ∀ v ∈ stack, v.IsWellFormed) (h : i.step stack index = .ok stack') :
    ∀ v ∈ stack', v.IsWellFormed := by
  rcases step_cases h with ⟨n, -, rfl⟩ | ⟨x, -, rfl⟩ | ⟨op, right, left, below, v, -, rfl, hv, rfl⟩
  · have hleaf : (Value.constant n).IsWellFormed :=
      ⟨List.forall_mem_singleton.mpr Monomial.isSupported_one, trivial⟩
    exact List.forall_mem_cons.mpr ⟨hleaf, hstack⟩
  · have hleaf : (Value.var x).IsWellFormed :=
      ⟨List.forall_mem_singleton.mpr (Monomial.isSupported_var x), trivial⟩
    exact List.forall_mem_cons.mpr ⟨hleaf, hstack⟩
  · obtain ⟨hright, hrest⟩ := List.forall_mem_cons.mp hstack
    obtain ⟨hleft, hbelow⟩ := List.forall_mem_cons.mp hrest
    exact List.forall_mem_cons.mpr ⟨Operator.isWellFormed_apply hleft hright hv, hbelow⟩

theorem run_isWellFormed : ∀ {program : List Instruction} {stack stack' : List Value}
    {index : Nat}, (∀ v ∈ stack, v.IsWellFormed) → run stack index program = .ok stack' →
    ∀ v ∈ stack', v.IsWellFormed
  | [], _, _, _, hstack, h => by
      obtain rfl := Except.ok.inj h
      exact hstack
  | _ :: _, _, _, _, hstack, h => by
      obtain ⟨_, hstep, hrun⟩ := bind_eq_ok.mp h
      exact run_isWellFormed (step_isWellFormed hstack hstep) hrun

/-- **Invariant of a run.** Whatever instructions have been run without an error, all values on
the stack are well formed, and whichever operator comes next, it forms no exponent that does not
fit into 64 bits. -/
theorem run_invariant {program : List Instruction} {stack : List Value}
    (h : run [] 0 program = .ok stack) :
    (∀ v ∈ stack, v.IsWellFormed) ∧
      ∀ right left below, stack = right :: left :: below →
        ∀ (op : Operator) (n : Nat), op.Forms left right n → n ≤ Monomial.maxStoredExponent := by
  have hstack := run_isWellFormed (fun _ hv => absurd hv List.not_mem_nil) h
  refine ⟨hstack, ?_⟩
  rintro right left below rfl op n hforms
  obtain ⟨hright, hrest⟩ := List.forall_mem_cons.mp hstack
  obtain ⟨hleft, -⟩ := List.forall_mem_cons.mp hrest
  exact hforms.le_maxStoredExponent hleft.supported hright.supported

/-- The largest double is doubled to infinity and added to `x`; `x^2` lies on top of that. -/
theorem run_invariant_of_overflow :
    let program := [var "x", num (.float (Float.ofBits 0x7fefffffffffffff)), num (.int 2),
      apply .mul, apply .add, var "x", num (.int 2), apply .pow]
    let stack := [Value.term ⟨.one, ⟨[("x", 2)]⟩⟩,
      .poly ⟨[⟨.one, .var "x"⟩, ⟨.float Binary64.posInfinity, .one⟩]⟩]
    run [] 0 program = .ok stack ∧ (∀ v ∈ stack, v.IsWellFormed) ∧
      ∀ right left below, stack = right :: left :: below →
        ∀ (op : Operator) (n : Nat), op.Forms left right n →
          n ≤ Monomial.maxStoredExponent := by
  intro program stack
  have h : run [] 0 program = .ok stack := by rfl
  exact ⟨h, run_invariant h⟩

end Instruction

end PolyCalc
