import ByteMachine.Proofs.Decoding

namespace ByteMachine

namespace Operands

theorem arity_ofFields (a : Arity) (f : Fields) : (ofFields a f).arity = a := by
  cases a <;> rfl

theorem registers_ofFields (a : Arity) (f : Fields) :
    (ofFields a f).registers
      = ([f.r1, f.r2, f.r3].map Register.mk).take a.registerCount := by
  cases a <;> rfl

end Operands

namespace Instruction

variable {op : Opcode} {ops : Operands} {i : Instruction}

/-- An operation and an operand list are parts of one instruction at most, and building it succeeds
where they are. -/
theorem ofOperands_eq_ok_iff :
    ofOperands op ops = .ok i ↔ i.opcode = op ∧ i.operands = ops := by
  constructor
  · exact of_ofOperands
  · rintro ⟨rfl, rfl⟩
    exact i.ofOperands_opcode_operands

theorem exists_ofOperands_iff : (∃ i, ofOperands op ops = .ok i) ↔ ops.arity = op.arity := by
  constructor
  · rintro ⟨i, hi⟩
    obtain ⟨rfl, rfl⟩ := of_ofOperands hi
    exact i.arity_operands
  · intro h
    obtain ⟨i, hi⟩ := exists_of_arity h
    exact ⟨i, ofOperands_eq_ok_iff.mpr hi⟩

theorem ofOperands_of_arity_ne (h : ops.arity ≠ op.arity) :
    ofOperands op ops = .error (.arityMismatch op ops.arity) := by
  unfold ofOperands
  split
  case h_17 => rfl
  all_goals exact absurd rfl h

theorem ofOperands_ofFields (op : Opcode) (f : Fields) :
    ofOperands op (Operands.ofFields op.arity f) = .ok (ofFields op f) :=
  ofOperands_eq_ok_iff.mpr ⟨opcode_ofFields op f, operands_ofFields op f⟩

theorem exists_ofFields (i : Instruction) : ∃ f, ofFields i.opcode f = i := by
  obtain ⟨f, hf⟩ := i.operands.exists_ofFields
  refine ⟨f, eq_of_operands (opcode_ofFields _ f) ?_⟩
  rw [operands_ofFields, ← arity_operands, hf]

theorem invalidRegister?_eq_some_iff {r : Register} :
    i.invalidRegister? = some r ↔ ∃ before behind, i.registers = before ++ r :: behind ∧
      registerCount ≤ r.index.toNat ∧ ∀ q ∈ before, q.index.toNat < registerCount := by
  have hinvalid : (!r.isValid) = true ↔ registerCount ≤ r.index.toNat := by
    rw [Bool.not_eq_true', ← Bool.not_eq_true, Register.isValid_iff, Nat.not_lt]
  simp only [invalidRegister?, List.find?_eq_some_iff_append, hinvalid, Bool.not_not,
    Register.isValid_iff]
  constructor
  · rintro ⟨hr, before, behind, hsplit, hbefore⟩
    exact ⟨before, behind, hsplit, hr, hbefore⟩
  · rintro ⟨before, behind, hsplit, hr, hbefore⟩
    exact ⟨hr, before, behind, hsplit, hbefore⟩

/-- When an operation and an operand list make an instruction, and which one. -/
structure MadeOf (op : Opcode) (ops : Operands) : Prop where
  accepted : (∃ i, ofOperands op ops = .ok i) ↔ ops.arity = op.arity
  refused : ops.arity ≠ op.arity → ofOperands op ops = .error (.arityMismatch op ops.arity)
  parts : ∀ i, ofOperands op ops = .ok i ↔ i.opcode = op ∧ i.operands = ops

/-- The registers of an instruction: as many of the first fields as its shape has, and the first of
them that the machine does not have. -/
structure NamesRegisters (i : Instruction) : Prop where
  count : i.registers.length = i.opcode.arity.registerCount
  fields : ∃ f, ofFields i.opcode f = i
  order : ∀ f, ofFields i.opcode f = i →
    i.registers = ([f.r1, f.r2, f.r3].map Register.mk).take i.opcode.arity.registerCount
  valid : i.invalidRegister? = none ↔ ∀ r ∈ i.registers, r.index.toNat < 8
  invalid : ∀ r, i.invalidRegister? = some r ↔
    ∃ before behind, i.registers = before ++ r :: behind ∧ 8 ≤ r.index.toNat ∧
      ∀ q ∈ before, q.index.toNat < 8

theorem madeOf (op : Opcode) (ops : Operands) : MadeOf op ops where
  accepted := exists_ofOperands_iff
  refused := ofOperands_of_arity_ne
  parts _ := ofOperands_eq_ok_iff

theorem namesRegisters (i : Instruction) : i.NamesRegisters where
  count := by rw [registers, Operands.length_registers, arity_operands]
  fields := i.exists_ofFields
  order f hf := by
    rw [registers, ← Operands.registers_ofFields, ← operands_ofFields, hf]
  valid := by simp only [invalidRegister?_eq_none_iff, Register.isValid_iff]
  invalid _ := invalidRegister?_eq_some_iff

/-- The tables of instructions agree: an operation and an operand list of its shape are the parts of
the instruction that they make, the fields of a word are read as the operands in their order, and
the registers of an instruction are its first fields. -/
theorem tables_agree (op : Opcode) (ops : Operands) (f : Fields) (i : Instruction) :
    MadeOf op ops ∧ ofOperands i.opcode i.operands = .ok i ∧
      (Operands.ofFields op.arity f).arity = op.arity ∧
      ofOperands op (Operands.ofFields op.arity f) = .ok (ofFields op f) ∧ i.NamesRegisters :=
  ⟨madeOf op ops, i.ofOperands_opcode_operands, Operands.arity_ofFields op.arity f,
    ofOperands_ofFields op f, i.namesRegisters⟩

end Instruction

end ByteMachine
