import ByteMachine.Proofs.Decoding

namespace ByteMachine

/-- The register of the low four bits, which is all of it that a word holds. -/
def Register.truncated (r : Register) : Register :=
  ⟨r.index % 16⟩

theorem Register.toNat_truncated (r : Register) : r.truncated.index.toNat = r.index.toNat % 16 :=
  UInt8.toNat_mod _ _

namespace Operands

def truncated : Operands → Operands
  | none => none
  | one a => one a.truncated
  | two a b => two a.truncated b.truncated
  | three a b c => three a.truncated b.truncated c.truncated
  | immediate a imm => immediate a.truncated imm

theorem registers_truncated (ops : Operands) :
    ops.truncated.registers = ops.registers.map Register.truncated := by
  cases ops <;> rfl

theorem packWord_truncated (code : UInt8) (ops : Operands) :
    packWord code ops.truncated = packWord code ops := by
  apply UInt16.toNat_inj.mp
  rw [toNat_packWord, toNat_packWord]
  cases ops <;> simp only [truncated, Register.toNat_truncated, Nat.mod_mod]

end Operands

namespace Instruction

/-- The instruction with every register truncated. -/
def truncated : Instruction → Instruction
  | ldr dst src => ldr dst.truncated src.truncated
  | st hi lo src => st hi.truncated lo.truncated src.truncated
  | ldi dst imm => ldi dst.truncated imm
  | ldm dst hi lo => ldm dst.truncated hi.truncated lo.truncated
  | add dst lhs rhs => add dst.truncated lhs.truncated rhs.truncated
  | sub dst lhs rhs => sub dst.truncated lhs.truncated rhs.truncated
  | mul dst lhs rhs => mul dst.truncated lhs.truncated rhs.truncated
  | div dst lhs rhs => div dst.truncated lhs.truncated rhs.truncated
  | and dst lhs rhs => and dst.truncated lhs.truncated rhs.truncated
  | or dst lhs rhs => or dst.truncated lhs.truncated rhs.truncated
  | xor dst lhs rhs => xor dst.truncated lhs.truncated rhs.truncated
  | jp hi lo => jp hi.truncated lo.truncated
  | jz hi lo => jz hi.truncated lo.truncated
  | push src => push src.truncated
  | pop dst => pop dst.truncated
  | hlt => hlt

variable {i j : Instruction}

theorem opcode_truncated (i : Instruction) : i.truncated.opcode = i.opcode := by
  cases i <;> rfl

theorem operands_truncated (i : Instruction) : i.truncated.operands = i.operands.truncated := by
  cases i <;> rfl

theorem toNat_lt_of_mem_truncated {r : Register} (h : r ∈ i.truncated.registers) :
    r.index.toNat < 16 := by
  rw [registers, operands_truncated, Operands.registers_truncated] at h
  obtain ⟨r, -, rfl⟩ := List.mem_map.mp h
  rw [Register.toNat_truncated]
  exact Nat.mod_lt _ (by decide)

theorem encode_truncated (i : Instruction) : i.truncated.encode = i.encode := by
  rw [encode, opcode_truncated, operands_truncated, Operands.packWord_truncated, encode]

/-- An instruction is read back from its word with its registers truncated. -/
theorem decode_encode (i : Instruction) : decode i.encode = .ok i.truncated := by
  have hread : ofWord i.truncated.encode = i.truncated :=
    ofWord_encode fun _ hr => toNat_lt_of_mem_truncated hr
  calc
    decode i.encode = .ok (ofWord i.encode) := decode_eq_ofWord _
    _ = .ok (ofWord i.truncated.encode) := by rw [encode_truncated]
    _ = .ok i.truncated := by rw [hread]

example : decode (add ⟨17⟩ ⟨2⟩ ⟨255⟩).encode = .ok (add ⟨1⟩ ⟨2⟩ ⟨15⟩) := rfl

theorem decode_encodeAll (is : List Instruction) :
    (encodeAll is).map decode = is.map fun i => .ok i.truncated := by
  rw [encodeAll, List.map_map]
  exact List.map_congr_left fun i _ => decode_encode i

theorem eq_of_encode_eq (hi : ∀ r ∈ i.registers, r.index.toNat < 16)
    (hj : ∀ r ∈ j.registers, r.index.toNat < 16) (h : i.encode = j.encode) : i = j := by
  calc
    i = ofWord i.encode := (ofWord_encode hi).symm
    _ = ofWord j.encode := by rw [h]
    _ = j := ofWord_encode hj

theorem encode_of_decode {w : UInt16} (h : decode w = .ok i) :
    i.encode = w &&& ~~~i.opcode.arity.unusedMask := by
  rw [decode_eq_ofWord] at h
  rw [← Except.ok.inj h]
  exact encode_ofWord w

theorem decodeStrict_encode_of_isValid (h : ∀ r ∈ i.registers, r.isValid = true) :
    decodeStrict i.encode = .ok i := by
  rw [decodeStrict_encode (toNat_lt_of_isValid h), (invalidRegister?_eq_none_iff i).mpr h]

theorem decodeStrict_eq_ok_iff (w : UInt16) (i : Instruction) :
    decodeStrict w = .ok i ↔ w = i.encode ∧ ∀ r ∈ i.registers, r.index.toNat < registerCount := by
  constructor
  · intro h
    obtain ⟨-, hvalid, hword⟩ := encode_of_decodeStrict h
    exact ⟨hword.symm, fun r hr => (Register.isValid_iff r).mp (hvalid r hr)⟩
  · rintro ⟨rfl, h⟩
    exact decodeStrict_encode_of_isValid fun r hr => (Register.isValid_iff r).mpr (h r hr)

/-- Encoding and decoding undo each other up to what a word has no room for and what an operation
has no use for. -/
theorem encode_decode_inverse :
    (∀ is : List Instruction, (encodeAll is).map decode = is.map fun i => .ok i.truncated) ∧
    (∀ i j : Instruction, (∀ r ∈ i.registers, r.index.toNat < 16) →
      (∀ r ∈ j.registers, r.index.toNat < 16) → i.encode = j.encode → i = j) ∧
    (∀ w, ∃ i, decode w = .ok i ∧ i.encode = w &&& ~~~i.opcode.arity.unusedMask) ∧
    (∀ w i, decodeStrict w = .ok i ↔
      w = i.encode ∧ ∀ r ∈ i.registers, r.index.toNat < registerCount) ∧
    (∀ i : Instruction, (∀ r ∈ i.registers, r.index.toNat < registerCount) →
      decodeStrict i.encode = .ok i) ∧
    ∀ w i, decodeStrict w = .ok i → i.encode = w := by
  refine ⟨decode_encodeAll, fun i j hi hj => eq_of_encode_eq hi hj, ?_, decodeStrict_eq_ok_iff,
    ?_, ?_⟩
  · intro w
    obtain ⟨i, hi⟩ := exists_decode w
    exact ⟨i, hi, encode_of_decode hi⟩
  · intro i h
    exact (decodeStrict_eq_ok_iff i.encode i).mpr ⟨rfl, h⟩
  · intro w i h
    exact ((decodeStrict_eq_ok_iff w i).mp h).1.symm

end Instruction

end ByteMachine
