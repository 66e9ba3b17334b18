import ByteMachine.Decoding

namespace ByteMachine

namespace Opcode

theorem code_of_ofCode? {c : UInt8} {op : Opcode} (h : ofCode? c = some op) : op.code = c := by
  have hall : ∀ n < 16, all[n]?.map code = some (UInt8.ofNat n) := by decide
  have hlt : c.toNat < 16 := (List.getElem?_eq_some_iff.mp h).1
  have hc := hall c.toNat hlt
  rw [ofCode?] at h
  rw [h, UInt8.ofNat_toNat] at hc
  exact Option.some.inj hc

theorem exists_ofCode? {c : UInt8} (h : c.toNat < 16) : ∃ op, ofCode? c = some op :=
  ⟨all[c.toNat], List.getElem?_eq_getElem h⟩

end Opcode

namespace Fields

theorem toNat_ofWord (w : UInt16) :
    (ofWord w).opcode.toNat = w.toNat / 4096 ∧ (ofWord w).r1.toNat = w.toNat / 256 % 16 ∧
      (ofWord w).r2.toNat = w.toNat / 16 % 16 ∧ (ofWord w).r3.toNat = w.toNat % 16 ∧
      (ofWord w).imm.toNat = w.toNat % 256 := by
  have hw := w.toNat_lt
  simp only [ofWord, UInt16.toNat_toUInt8, UInt16.toNat_div, UInt16.toNat_mod, UInt16.reduceToNat]
  omega

end Fields

theorem toNat_packWord (code : UInt8) (ops : Operands) :
    (packWord code ops).toNat = code.toNat % 16 * 4096 +
      match ops with
      | .none => 0
      | .one a => a.index.toNat % 16 * 256
      | .two a b => a.index.toNat % 16 * 256 + b.index.toNat % 16 * 16
      | .three a b c => a.index.toNat % 16 * 256 + b.index.toNat % 16 * 16 + c.index.toNat % 16
      | .immediate a imm => a.index.toNat % 16 * 256 + imm.toNat := by
  cases ops with
  | immediate a imm =>
    have himm := imm.toNat_lt
    simp [packWord]
    omega
  | _ =>
    simp [packWord]
    omega

/-- The operands that a shape takes out of the fields of a word, in the order of the fields. -/
def Operands.ofFields (a : Arity) (f : Fields) : Operands :=
  match a with
  | .noOperand => .none
  | .oneRegister => .one ⟨f.r1⟩
  | .twoRegisters => .two ⟨f.r1⟩ ⟨f.r2⟩
  | .threeRegisters => .three ⟨f.r1⟩ ⟨f.r2⟩ ⟨f.r3⟩
  | .registerImmediate => .immediate ⟨f.r1⟩ f.imm

theorem Operands.mem_registers_ofFields {a : Arity} {f : Fields} {r : Register}
    (h : r ∈ (ofFields a f).registers) : r = ⟨f.r1⟩ ∨ r = ⟨f.r2⟩ ∨ r = ⟨f.r3⟩ := by
  cases a with
  | noOperand => cases h
  | oneRegister => exact .inl (List.mem_singleton.mp h)
  | twoRegisters =>
    have hr : r = ⟨f.r1⟩ ∨ r = ⟨f.r2⟩ := by simpa [ofFields, registers] using h
    exact hr.imp_right Or.inl
  | threeRegisters => simpa [ofFields, registers] using h
  | registerImmediate => exact .inl (List.mem_singleton.mp h)

/-- Every operand list stands in some fields, in the order in which it is written. -/
theorem Operands.exists_ofFields (ops : Operands) : ∃ f, ofFields ops.arity f = ops := by
  cases ops with
  | none => exact ⟨⟨0, 0, 0, 0, 0⟩, rfl⟩
  | one a => exact ⟨⟨0, a.index, 0, 0, 0⟩, rfl⟩
  | two a b => exact ⟨⟨0, a.index, b.index, 0, 0⟩, rfl⟩
  | three a b c => exact ⟨⟨0, a.index, b.index, c.index, 0⟩, rfl⟩
  | immediate a imm => exact ⟨⟨0, a.index, 0, 0, imm⟩, rfl⟩

namespace Instruction

theorem exists_decode (w : UInt16) : ∃ i, decode w = .ok i := by
  have hw := w.toNat_lt
  have hcode : (Fields.ofWord w).opcode.toNat < 16 := by
    rw [(Fields.toNat_ofWord w).1]
    omega
  obtain ⟨op, hop⟩ := Opcode.exists_ofCode? hcode
  exact ⟨ofFields op (Fields.ofWord w), by simp only [decode, hop]⟩

/-- The instruction that the machine reads a word as. -/
def ofWord (w : UInt16) : Instruction :=
  match decode w with
  | .ok i => i
  | .error _ => hlt

theorem decode_eq_ofWord (w : UInt16) : decode w = .ok (ofWord w) := by
  obtain ⟨i, hi⟩ := exists_decode w
  rw [ofWord, hi]

theorem opcode_ofFields (op : Opcode) (f : Fields) : (ofFields op f).opcode = op := by
  cases op <;> rfl

theorem operands_ofFields (op : Opcode) (f : Fields) :
    (ofFields op f).operands = Operands.ofFields op.arity f := by
  cases op <;> rfl

/-- An operation and an operand list of its shape always make an instruction. -/
theorem exists_of_arity {op : Opcode} {ops : Operands} (h : ops.arity = op.arity) :
    ∃ i : Instruction, i.opcode = op ∧ i.operands = ops := by
  obtain ⟨f, hf⟩ := ops.exists_ofFields
  refine ⟨ofFields op f, opcode_ofFields op f, ?_⟩
  rw [operands_ofFields, ← h, hf]

theorem of_ofOperands {op : Opcode} {ops : Operands} {i : Instruction}
    (h : ofOperands op ops = .ok i) : i.opcode = op ∧ i.operands = ops := by
  unfold ofOperands at h
  split at h <;> cases h <;> exact ⟨rfl, rfl⟩

theorem ofWord_eq_ofFields (w : UInt16) :
    ∃ op, op.code = (Fields.ofWord w).opcode ∧ ofWord w = ofFields op (Fields.ofWord w) := by
  have h := decode_eq_ofWord w
  unfold decode at h
  cases hop : Opcode.ofCode? (Fields.ofWord w).opcode with
  | none => simp [hop] at h
  | some op =>
    simp only [hop, Except.ok.injEq] at h
    exact ⟨op, Opcode.code_of_ofCode? hop, h.symm⟩

/-- A field of a word has room for sixteen registers. -/
theorem toNat_lt_of_mem_ofWord {w : UInt16} {r : Register} (h : r ∈ (ofWord w).registers) :
    r.index.toNat < 16 := by
  obtain ⟨op, -, hi⟩ := ofWord_eq_ofFields w
  obtain ⟨-, h1, h2, h3, -⟩ := Fields.toNat_ofWord w
  rw [registers, hi, operands_ofFields] at h
  have hfield {n : UInt8} {k : Nat} (hn : n.toNat = k % 16) : n.toNat < 16 := by omega
  rcases Operands.mem_registers_ofFields h with rfl | rfl | rfl
  · exact hfield h1
  · exact hfield h2
  · exact hfield h3

end Instruction

namespace Arity

/-- The bits without meaning are the low ones, and what they hold is below this bound. -/
def unusedBound : Arity → Nat
  | noOperand => 4096
  | oneRegister => 256
  | twoRegisters => 16
  | threeRegisters => 1
  | registerImmediate => 1

theorem toNat_and_unusedMask (w : UInt16) (a : Arity) :
    (w &&& a.unusedMask).toNat = w.toNat % a.unusedBound := by
  cases a with
  | noOperand => exact Nat.and_two_pow_sub_one_eq_mod w.toNat 12
  | oneRegister => exact Nat.and_two_pow_sub_one_eq_mod w.toNat 8
  | twoRegisters => exact Nat.and_two_pow_sub_one_eq_mod w.toNat 4
  | threeRegisters => exact Nat.and_two_pow_sub_one_eq_mod w.toNat 0
  | registerImmediate => exact Nat.and_two_pow_sub_one_eq_mod w.toNat 0

end Arity

namespace Instruction

/-- The word of a decoded instruction is the word it was decoded from, without the bits that have
no meaning. -/
theorem toNat_encode_ofWord (w : UInt16) :
    (ofWord w).encode.toNat = w.toNat - w.toNat % (ofWord w).opcode.arity.unusedBound := by
  obtain ⟨op, hcode, hi⟩ := ofWord_eq_ofFields w
  obtain ⟨hf, h1, h2, h3, himm⟩ := Fields.toNat_ofWord w
  have hop : op.code.toNat = w.toNat / 4096 := by rw [hcode, hf]
  have hw := w.toNat_lt
  rw [hi, opcode_ofFields, encode, toNat_packWord, opcode_ofFields, operands_ofFields, hop]
  have htop : w.toNat / 4096 % 16 = w.toNat / 4096 := by omega
  cases op.arity <;>
    simp only [Operands.ofFields, Arity.unusedBound, h1, h2, h3, himm, htop, Nat.mod_mod,
      Nat.mod_one, Nat.sub_zero] <;>
    omega

/-- A word that the strict reading accepts is read as by the machine, its registers all exist, and
it is the word of its instruction. -/
theorem encode_of_decodeStrict {w : UInt16} {i : Instruction} (h : decodeStrict w = .ok i) :
    i = ofWord w ∧ (∀ r ∈ i.registers, r.isValid = true) ∧ i.encode = w := by
  rw [decodeStrict, decode_eq_ofWord] at h
  dsimp only at h
  cases hr : (ofWord w).invalidRegister? with
  | some r => simp [hr] at h
  | none =>
    simp only [hr] at h
    split at h
    · next hmask =>
      have hi : ofWord w = i := Except.ok.inj h
      have hmod := Arity.toNat_and_unusedMask w (ofWord w).opcode.arity
      have henc := toNat_encode_ofWord w
      rw [hmask] at hmod
      refine ⟨hi.symm, (invalidRegister?_eq_none_iff i).mp (hi ▸ hr), UInt16.toNat_inj.mp ?_⟩
      rw [← hi, henc, ← hmod]
      rfl
    · exact absurd h (by simp)

end Instruction

theorem Opcode.toNat_code_lt (op : Opcode) : op.code.toNat < 16 := by
  cases op <;> decide

theorem opcode_packWord {code : UInt8} (hcode : code.toNat < 16) (ops : Operands) :
    (Fields.ofWord (packWord code ops)).opcode = code := by
  apply UInt8.toNat_inj.mp
  rw [(Fields.toNat_ofWord _).1, toNat_packWord]
  cases ops with
  | immediate a imm =>
    have himm := imm.toNat_lt
    dsimp only
    omega
  | _ =>
    dsimp only
    omega

/-- The fields of a word hold the operands that were packed into it. -/
theorem operands_packWord (code : UInt8) {ops : Operands}
    (h : ∀ r ∈ ops.registers, r.index.toNat < 16) :
    Operands.ofFields ops.arity (Fields.ofWord (packWord code ops)) = ops := by
  obtain ⟨-, h1, h2, h3, himm⟩ := Fields.toNat_ofWord (packWord code ops)
  rw [toNat_packWord] at h1 h2 h3 himm
  generalize code.toNat % 16 = top at h1 h2 h3 himm
  have hregister {a b : UInt8} (hab : a.toNat = b.toNat) : (⟨a⟩ : Register) = ⟨b⟩ :=
    congrArg Register.mk (UInt8.toNat_inj.mp hab)
  cases ops with
  | none => rfl
  | one a =>
    have ha := h a (by simp [Operands.registers])
    simp only [Nat.mod_eq_of_lt ha] at h1
    have h1' : _ = a.index.toNat := h1.trans (by omega)
    rw [Operands.arity, Operands.ofFields, hregister h1']
  | two a b =>
    have ha := h a (by simp [Operands.registers])
    have hb := h b (by simp [Operands.registers])
    simp only [Nat.mod_eq_of_lt ha, Nat.mod_eq_of_lt hb] at h1 h2
    have h1' : _ = a.index.toNat := h1.trans (by omega)
    have h2' : _ = b.index.toNat := h2.trans (by omega)
    rw [Operands.arity, Operands.ofFields, hregister h1', hregister h2']
  | three a b c =>
    have ha := h a (by simp [Operands.registers])
    have hb := h b (by simp [Operands.registers])
    have hc := h c (by simp [Operands.registers])
    simp only [Nat.mod_eq_of_lt ha, Nat.mod_eq_of_lt hb, Nat.mod_eq_of_lt hc] at h1 h2 h3
    have h1' : _ = a.index.toNat := h1.trans (by omega)
    have h2' : _ = b.index.toNat := h2.trans (by omega)
    have h3' : _ = c.index.toNat := h3.trans (by omega)
    rw [Operands.arity, Operands.ofFields, hregister h1', hregister h2', hregister h3']
  | immediate a imm =>
    have ha := h a (by simp [Operands.registers])
    have hi := imm.toNat_lt
    simp only [Nat.mod_eq_of_lt ha] at h1 himm
    have h1' : _ = a.index.toNat := h1.trans (by omega)
    have himm' : _ = imm.toNat := himm.trans (by omega)
    rw [Operands.arity, Operands.ofFields, hregister h1', UInt8.toNat_inj.mp himm']

namespace Instruction

theorem eq_of_operands {i j : Instruction} (hop : i.opcode = j.opcode)
    (hoperands : i.operands = j.operands) : i = j := by
  have hi := ofOperands_opcode_operands i
  rw [hop, hoperands, ofOperands_opcode_operands j] at hi
  exact (Except.ok.inj hi).symm

/-- An instruction whose registers have room in their fields is read back from its word. -/
theorem ofWord_encode {i : Instruction} (h : ∀ r ∈ i.registers, r.index.toNat < 16) :
    ofWord i.encode = i := by
  have hcode : (Fields.ofWord i.encode).opcode = i.opcode.code :=
    opcode_packWord i.opcode.toNat_code_lt i.operands
  have hread : decode i.encode = .ok (ofFields i.opcode (Fields.ofWord i.encode)) := by
    simp only [decode, hcode, Opcode.ofCode?_code]
  rw [decode_eq_ofWord] at hread
  rw [Except.ok.inj hread]
  apply eq_of_operands
  · exact opcode_ofFields _ _
  · rw [operands_ofFields, ← arity_operands]
    exact operands_packWord i.opcode.code h

/-- The one instruction whose word is 0. -/
theorem encode_eq_zero_iff {i : Instruction} (h : ∀ r ∈ i.registers, r.index.toNat < 16) :
    i.encode = 0 ↔ i = ldr ⟨0⟩ ⟨0⟩ := by
  constructor
  · intro hzero
    have hread := ofWord_encode h
    rw [hzero] at hread
    exact hread.symm
  · rintro rfl
    rfl

end Instruction

/-- The bits of a word outside a mask are the word less its bits inside. -/
theorem toNat_and_not (w mask : UInt16) :
    (w &&& ~~~mask).toNat = w.toNat - (w &&& mask).toNat := by
  have hdisjoint : (w.toBitVec &&& ~~~mask.toBitVec) &&& (w.toBitVec &&& mask.toBitVec) = 0#16 := by
    ext k
    simp only [BitVec.getElem_and, BitVec.getElem_not, BitVec.getElem_zero]
    cases w.toBitVec[k] <;> cases mask.toBitVec[k] <;> rfl
  have hunion : (w.toBitVec &&& ~~~mask.toBitVec) ||| (w.toBitVec &&& mask.toBitVec)
      = w.toBitVec := by
    ext k
    simp only [BitVec.getElem_and, BitVec.getElem_or, BitVec.getElem_not]
    cases w.toBitVec[k] <;> cases mask.toBitVec[k] <;> rfl
  have hsum : (w &&& ~~~mask) + (w &&& mask) = w := by
    apply UInt16.toBitVec_inj.mp
    calc
      _ = (w.toBitVec &&& ~~~mask.toBitVec) ||| (w.toBitVec &&& mask.toBitVec) :=
        BitVec.add_eq_or_of_and_eq_zero _ _ hdisjoint
      _ = w.toBitVec := hunion
  have hnat := congrArg UInt16.toNat hsum
  have hleft : (w &&& ~~~mask).toNat ≤ w.toNat := by
    rw [UInt16.toNat_and]
    exact Nat.and_le_left
  have hright : (w &&& mask).toNat ≤ w.toNat := by
    rw [UInt16.toNat_and]
    exact Nat.and_le_left
  have hw := w.toNat_lt
  rw [UInt16.toNat_add] at hnat
  omega

namespace Instruction

/-- The word of a decoded instruction is the word it was decoded from, with the bits that have no
meaning cleared. -/
theorem encode_ofWord (w : UInt16) :
    (ofWord w).encode = w &&& ~~~(ofWord w).opcode.arity.unusedMask := by
  apply UInt16.toNat_inj.mp
  rw [toNat_encode_ofWord, toNat_and_not, Arity.toNat_and_unusedMask]

theorem encode_and_unusedMask {i : Instruction} (h : ∀ r ∈ i.registers, r.index.toNat < 16) :
    i.encode &&& i.opcode.arity.unusedMask = 0 := by
  have hcleared := encode_ofWord i.encode
  rw [ofWord_encode h] at hcleared
  rw [hcleared, UInt16.and_assoc, UInt16.not_and_self, UInt16.and_zero]

theorem decodeStrict_eq (w : UInt16) :
    decodeStrict w =
      match (ofWord w).invalidRegister? with
      | some r => .error (.invalidRegister (ofWord w).opcode r)
      | none =>
        if w &&& (ofWord w).opcode.arity.unusedMask = 0 then .ok (ofWord w)
        else .error (.unexpectedOperands (ofWord w).opcode) := by
  have hread := decode_eq_ofWord w
  cases hr : (ofWord w).invalidRegister? with
  | some r => simp only [decodeStrict, hread, hr]
  | none => simp only [decodeStrict, hread, hr]

/-- The word of an instruction has no bits without meaning, so a register that does not exist is all
that the strict reading can refuse it for. -/
theorem decodeStrict_encode {i : Instruction} (h : ∀ r ∈ i.registers, r.index.toNat < 16) :
    decodeStrict i.encode =
      match i.invalidRegister? with
      | some r => .error (.invalidRegister i.opcode r)
      | none => .ok i := by
  rw [decodeStrict_eq, ofWord_encode h, if_pos (encode_and_unusedMask h)]

theorem toNat_lt_of_isValid {i : Instruction} (h : ∀ r ∈ i.registers, r.isValid = true) :
    ∀ r ∈ i.registers, r.index.toNat < 16 := by
  intro r hr
  have hvalid := (Register.isValid_iff r).mp (h r hr)
  exact Nat.lt_trans hvalid (by decide)

/-- The ways that the strict reading takes a word. -/
inductive StrictCase (w : UInt16) : Prop
  | accepted (hs : decodeStrict w = .ok (ofWord w))
      (valid : ∀ r ∈ (ofWord w).registers, r.isValid = true)
  | refused (r : Register) (hs : decodeStrict w = .error (.invalidRegister (ofWord w).opcode r))
      (hr : (ofWord w).invalidRegister? = some r)
  | padded (hs : decodeStrict w = .error (.unexpectedOperands (ofWord w).opcode))
      (valid : ∀ r ∈ (ofWord w).registers, r.isValid = true)

theorem strictCase (w : UInt16) : StrictCase w := by
  have hs := decodeStrict_eq w
  cases hr : (ofWord w).invalidRegister? with
  | some r =>
    rw [hr] at hs
    exact .refused r hs hr
  | none =>
    have valid := (invalidRegister?_eq_none_iff (ofWord w)).mp hr
    rw [hr] at hs
    by_cases hmask : w &&& (ofWord w).opcode.arity.unusedMask = 0
    · exact .accepted (hs.trans (if_pos hmask)) valid
    · exact .padded (hs.trans (if_neg hmask)) valid

/-- With the bits that have no meaning cleared, a word whose registers exist is accepted, and as the
instruction that the lenient reading makes of it. -/
theorem decodeStrict_cleared {w : UInt16} (valid : ∀ r ∈ (ofWord w).registers, r.isValid = true) :
    decodeStrict (w &&& ~~~(ofWord w).opcode.arity.unusedMask) = .ok (ofWord w) := by
  have hstrict := decodeStrict_encode (toNat_lt_of_isValid valid)
  rw [(invalidRegister?_eq_none_iff (ofWord w)).mpr valid, encode_ofWord] at hstrict
  exact hstrict

end Instruction

end ByteMachine
