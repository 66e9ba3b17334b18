import ByteMachine.Proofs.Cycle

/-!
What the strict reading of a word tells of the machine that fetches it. A word that is accepted is
carried out as the instruction it is read as, and a register that is refused is the fault of the
step; bits without meaning do not matter to the machine. Only the word 0 is taken in a way that no
reading tells.
-/

namespace ByteMachine

namespace Instruction

/-- An instruction whose registers exist has no fault that names one that does not. -/
theorem ownFault?_ne_invalidRegister (i : Instruction) (layout : Layout) (s : State)
    (r : Register) : i.ownFault? layout s ≠ some (.invalidRegister r) := by
  intro h
  cases i with
  | div dst lhs rhs =>
    simp only [ownFault?] at h
    split at h <;> cases h
  | push src =>
    simp only [ownFault?] at h
    split at h <;> cases h
  | pop dst =>
    simp only [ownFault?] at h
    split at h <;> cases h
  | _ => cases h

theorem ofWord_of_lt {w : UInt16} (h : w < 16) : ofWord w = ldr ⟨0⟩ ⟨0⟩ := by
  have hall : ∀ n < 16, ofWord (UInt16.ofNat n) = ldr ⟨0⟩ ⟨0⟩ := by decide
  have hword := hall w.toNat (UInt16.lt_iff_toNat_lt.mp h)
  rwa [UInt16.ofNat_toNat] at hword

theorem decodeStrict_zero : decodeStrict 0 = .ok (ldr ⟨0⟩ ⟨0⟩) :=
  rfl

theorem ne_zero_of_refused {w : UInt16} {e : DecodeError} (h : decodeStrict w = .error e) :
    w ≠ 0 := by
  rintro rfl
  rw [decodeStrict_zero] at h
  cases h

theorem decodeStrict_of_lt {w : UInt16} (hpos : 0 < w) (hlt : w < 16) :
    decodeStrict w = .error (.unexpectedOperands .ldr) := by
  have hread := ofWord_of_lt hlt
  have hmask : w &&& Arity.twoRegisters.unusedMask ≠ 0 := by
    intro hzero
    have hrest := Arity.toNat_and_unusedMask w .twoRegisters
    have hpos' := UInt16.lt_iff_toNat_lt.mp hpos
    have hlt' := UInt16.lt_iff_toNat_lt.mp hlt
    rw [hzero, Arity.unusedBound] at hrest
    simp only [UInt16.reduceToNat] at hrest hpos' hlt'
    omega
  rw [decodeStrict_eq, hread]
  exact if_neg hmask

end Instruction

namespace Core

variable {c : Core}

/-- The turn in which a core carries out an instruction, as what a given word means. -/
def carryOutAs (c : Core) (i : Instruction) (word : UInt16) : Turn :=
  match i.effect c.layout c.memory c.state with
  | .error fault => c.failed c.state.pc word fault
  | .ok e => (c.apply e).continueAs e.flow c.state.pc word

theorem step_eq_carryOutAs (running : c.state.status = .running) (hpc : c.state.pc ≠ 0xFFFF)
    (hw : c.word ≠ 0) : c.step = c.carryOutAs (Instruction.ofWord c.word) c.word := by
  rw [step_eq_carryOut running hpc, carryOut, if_neg hw, Instruction.decode_eq_ofWord]
  rfl

theorem carryOutAs_of_invalidRegister {i : Instruction} {r : Register}
    (h : i.invalidRegister? = some r) (word : UInt16) :
    c.carryOutAs i word = c.failed c.state.pc word (.invalidRegister r) := by
  have heffect : i.effect c.layout c.memory c.state = .error (.invalidRegister r) := by
    rw [Instruction.effect, h]
  rw [carryOutAs, heffect]

/-- A cycle fails for want of memory, or with the fault of the instruction at the program
counter. -/
theorem fault_of_failure? {f : Failure} (h : c.failure? = some f) :
    f.fault = .endOfMemory ∨
      (Instruction.ofWord c.word).fault? c.layout c.state = some f.fault := by
  unfold failure? at h
  split at h
  · obtain rfl := Option.some.inj h
    exact .inl rfl
  split at h
  · cases h
  dsimp only at h
  split at h
  · next fault hfault =>
    obtain rfl := Option.some.inj h
    exact .inr hfault
  split at h
  · obtain rfl := Option.some.inj h
    exact .inl rfl
  · cases h

/-- Where the instruction at the program counter names only registers that exist, no step fails for
one that does not. -/
theorem fault_ne_invalidRegister (running : c.state.status = .running)
    (valid : ∀ r ∈ (Instruction.ofWord c.word).registers, r.isValid = true) {e : MachineError}
    (h : c.step.answer = .error e) (r : Register) : e.fault? ≠ some (.invalidRegister r) := by
  obtain ⟨f, hf, rfl⟩ := (step_answer_eq_error_iff running e).mp h
  intro hr
  have hfault : f.fault = .invalidRegister r := Option.some.inj hr
  rcases fault_of_failure? hf with hend | hown
  · rw [hend] at hfault
    cases hfault
  · rw [Instruction.fault?_of_valid valid, hfault] at hown
    exact Instruction.ownFault?_ne_invalidRegister _ _ _ r hown

/-- A core that loads a register from another is not halted by it. -/
theorem not_halted_of_ldr (running : c.state.status = .running) {dst src : Register}
    (hdst : dst.isValid = true) (hsrc : src.isValid = true) (word : UInt16) (reason : HaltReason) :
    (c.carryOutAs (.ldr dst src) word).core.state.status ≠ .halted reason := by
  have hfault : (Instruction.ldr dst src).fault? c.layout c.state = none := by
    apply (Instruction.fault?_eq_none_iff _ _ _).mpr
    simp [Instruction.registers, Instruction.operands, Operands.registers, Instruction.ownFault?,
      hdst, hsrc]
  have heffect := Instruction.effect_of_no_fault c.memory hfault
  have hturn : c.carryOutAs (.ldr dst src) word
      = (c.applied (.ldr dst src)).continueAs .next c.state.pc word := by
    rw [carryOutAs, heffect]
    rfl
  rw [hturn, continueAs]
  cases nextWord? c.state.pc with
  | some next =>
    change c.state.status ≠ _
    rw [running]
    intro h
    cases h
  | none =>
    intro h
    cases h

end Core

namespace Machine

/-- The answer of a turn of the core of a machine, and the machine behind it, whose trace takes the
row of the cycle. -/
def turned (m : Machine) (turn : Turn) : Except MachineError Status × Machine :=
  (turn.answer, { core := turn.core, trace := turn.row?.elim m.trace m.trace.push })

theorem step_eq_turned (m : Machine) : m.step = m.turned m.core.step :=
  rfl

theorem readInstruction?_eq_some {m : Machine} {w : UInt16}
    (h : m.readInstruction? m.state.pc = some w) : m.state.pc ≠ 0xFFFF ∧ m.core.word = w := by
  have hpc : m.state.pc ≠ 0xFFFF := by
    intro hlast
    rw [readInstruction?, hlast, Memory.readWord?_last] at h
    cases h
  rw [readInstruction?, Memory.readWord?_of_ne_last _ hpc] at h
  exact ⟨hpc, Option.some.inj h⟩

/-- A machine does with a word what the strict reading of the word tells. -/
structure FollowsReading (m : Machine) (w : UInt16) : Prop where
  accepted : ∀ i, Instruction.decodeStrict w = .ok i → w ≠ 0 →
    m.step = m.turned (m.core.carryOutAs i w) ∧
      ∀ e r, m.step.1 = .error e → e.fault? ≠ some (.invalidRegister r)
  refused : ∀ op r, Instruction.decodeStrict w = .error (.invalidRegister op r) →
    m.step = (.error (.execution m.state.pc w (Fields.ofWord w) (.invalidRegister r)),
      { m with core.state.status := .faulted (.invalidRegister r) })
  padded : ∀ op, Instruction.decodeStrict w = .error (.unexpectedOperands op) →
    ∃ i, Instruction.decodeStrict (w &&& ~~~op.arity.unusedMask) = .ok i ∧
      m.step = m.turned (m.core.carryOutAs i w)
  known : ∀ code, Instruction.decodeStrict w ≠ .error (.unknownOpcode code)
  paddedZero : 0 < w → w < 16 →
    Instruction.decodeStrict w = .error (.unexpectedOperands .ldr) ∧
      m.step = m.turned (m.core.carryOutAs (.ldr ⟨0⟩ ⟨0⟩) w) ∧
      ∀ reason, m.step.2.status ≠ .halted reason
  zero : w = 0 →
    Instruction.decodeStrict w = .ok (.ldr ⟨0⟩ ⟨0⟩) ∧ m.step.1 = .ok (.halted .zeroWord) ∧
      m.step = m.turned ((m.core.halt m.state.pc .zeroWord).completed m.state.pc 0)

/-- What a running machine does with the word that it fetches is told by the strict reading of the
word. -/
theorem followsReading {m : Machine} (running : m.status = .running) {w : UInt16}
    (fetched : m.readInstruction? m.state.pc = some w) : m.FollowsReading w := by
  obtain ⟨hpc, rfl⟩ := readInstruction?_eq_some fetched
  have hexecutes (hw : m.core.word ≠ 0) :
      m.step = m.turned (m.core.carryOutAs (Instruction.ofWord m.core.word) m.core.word) := by
    rw [step_eq_turned, Core.step_eq_carryOutAs running hpc hw]
  refine ⟨?_, ?_, ?_, ?_, ?_, ?_⟩
  · intro i hi hw
    obtain ⟨rfl, valid, -⟩ := Instruction.encode_of_decodeStrict hi
    exact ⟨hexecutes hw, fun e r he => Core.fault_ne_invalidRegister running valid he r⟩
  · intro op r hr
    have hw := Instruction.ne_zero_of_refused hr
    rcases Instruction.strictCase m.core.word with ⟨hs, -⟩ | ⟨r', hs, hr'⟩ | ⟨hs, -⟩
    · cases hs.symm.trans hr
    · cases hs.symm.trans hr
      rw [hexecutes hw, Core.carryOutAs_of_invalidRegister hr']
      rfl
    · cases hs.symm.trans hr
  · intro op hop
    have hw := Instruction.ne_zero_of_refused hop
    rcases Instruction.strictCase m.core.word with ⟨hs, -⟩ | ⟨r', hs, -⟩ | ⟨hs, valid⟩
    · cases hs.symm.trans hop
    · cases hs.symm.trans hop
    · cases hs.symm.trans hop
      exact ⟨_, Instruction.decodeStrict_cleared valid, hexecutes hw⟩
  · intro code hcode
    rcases Instruction.strictCase m.core.word with ⟨hs, -⟩ | ⟨r', hs, -⟩ | ⟨hs, -⟩
    · cases hs.symm.trans hcode
    · cases hs.symm.trans hcode
    · cases hs.symm.trans hcode
  · intro hpos hlt
    have hstrict := Instruction.decodeStrict_of_lt hpos hlt
    have hstep := hexecutes (Instruction.ne_zero_of_refused hstrict)
    rw [Instruction.ofWord_of_lt hlt] at hstep
    refine ⟨hstrict, hstep, ?_⟩
    intro reason
    rw [hstep]
    exact Core.not_halted_of_ldr running rfl rfl _ reason
  · intro hzero
    have hstep : m.step
        = m.turned ((m.core.halt m.state.pc .zeroWord).completed m.state.pc 0) := by
      rw [step_eq_turned, Core.step_of_zero_word running hpc hzero]
      rfl
    refine ⟨?_, ?_, hstep⟩
    · rw [hzero]
      exact Instruction.decodeStrict_zero
    · rw [hstep]
      rfl

/-- A word with bits set behind the two registers 0 loads register 0 from itself, and the machine
goes on. -/
theorem followsReading_of_padded_zero :
    let m : Machine := ⟨{ Core.initial .standard with
      memory := Memory.zero.write 0xFF01 0x05 }, .empty true 4⟩
    m.status = .running ∧ m.readInstruction? m.state.pc = some 0x0005 ∧ m.FollowsReading 0x0005 ∧
      m.step.1 = .ok .running ∧ m.step.2.state.pc = 0xFF02 := by
  intro m
  have hfetched : m.readInstruction? m.state.pc = some 0x0005 := by
    have hhigh : m.memory.read 0xFF00 = 0 := by
      rw [show m.memory = Memory.zero.write 0xFF01 0x05 from rfl,
        Memory.read_write_of_ne _ _ (by decide), Memory.read_zero]
    have hlow : m.memory.read 0xFF01 = 0x05 := Memory.read_write_self _ _ _
    change some (wordOfBytes (m.memory.read 0xFF00) (m.memory.read 0xFF01)) = some 0x0005
    rw [hhigh, hlow]
    rfl
  have hfollows := followsReading rfl hfetched
  have hstep := (hfollows.paddedZero (by decide) (by decide)).2.1
  refine ⟨rfl, hfetched, hfollows, ?_, ?_⟩
  · rw [hstep]
    rfl
  · rw [hstep]
    rfl

end Machine

end ByteMachine
