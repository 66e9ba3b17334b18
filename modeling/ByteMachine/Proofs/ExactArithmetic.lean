import ByteMachine.Proofs.StraightRun

/-!
Exact arithmetic. A machine whose addresses, counts and indices are exact has no result where one of
them leaves its range. It comes to the same as the machine itself in every layout, state and memory,
so that none of them wraps round or lies outside. The bytes in registers wrap by design, and do so
here.
-/

namespace ByteMachine

def difference? (a b : UInt16) : Option UInt16 :=
  if b ≤ a then some (a - b) else none

def sum? (a b : UInt16) : Option UInt16 :=
  if a.toNat + b.toNat < UInt16.size then some (a + b) else none

/-- The count of one more cycle. -/
def increment? (n : UInt64) : Option UInt64 :=
  if n.toNat + 1 < UInt64.size then some (n + 1) else none

theorem difference?_eq_some_iff {a b d : UInt16} :
    difference? a b = some d ↔ d.toNat + b.toNat = a.toNat := by
  unfold difference?
  have ha := a.toNat_lt
  split
  · next h =>
    have hle := UInt16.le_iff_toNat_le.mp h
    rw [Option.some_inj, ← UInt16.toNat_inj, UInt16.toNat_sub_of_le _ _ h]
    omega
  · next h =>
    rw [UInt16.le_iff_toNat_le] at h
    simp only [reduceCtorEq, false_iff]
    omega

theorem sum?_eq_some_iff {a b d : UInt16} :
    sum? a b = some d ↔ d.toNat = a.toNat + b.toNat := by
  unfold sum?
  have hd := d.toNat_lt
  have hsize : UInt16.size = 65536 := rfl
  split
  · next h =>
    rw [Option.some_inj, ← UInt16.toNat_inj, UInt16.toNat_add]
    omega
  · next h =>
    simp only [reduceCtorEq, false_iff]
    omega

theorem difference?_of_lt {a b : UInt16} (h : a < b) : difference? b 1 = some (b - 1) :=
  difference?_eq_some_iff.mpr (toNat_sub_one_of_lt h)

theorem sum?_of_lt {a b : UInt16} (h : a < b) : sum? a 1 = some (a + 1) :=
  sum?_eq_some_iff.mpr (toNat_add_one_of_lt h)

theorem Memory.next?_eq_sum? (address : UInt16) : next? address = sum? address 1 := by
  have hlt := address.toNat_lt
  have hsize : UInt16.size = 65536 := rfl
  have hone : (1 : UInt16).toNat = 1 := rfl
  have hlast : (0xFFFF : UInt16).toNat = 65535 := rfl
  unfold next? sum?
  by_cases h : address = 0xFFFF
  · subst h
    rfl
  · have hne : address.toNat ≠ 65535 := fun heq => h (UInt16.toNat_inj.mp (heq.trans hlast.symm))
    rw [if_neg h, if_pos (by omega)]

theorem Core.nextWord?_eq_sum? (pc : UInt16) : nextWord? pc = sum? pc 2 := by
  have hlt := pc.toNat_lt
  have hsize : UInt16.size = 65536 := rfl
  have htwo : (2 : UInt16).toNat = 2 := rfl
  have hlast : (0xFFFE : UInt16).toNat = 65534 := rfl
  unfold nextWord? sum?
  by_cases h : pc < 0xFFFE
  · have h' := UInt16.lt_iff_toNat_lt.mp h
    rw [if_pos h, if_pos (by omega)]
  · have h' := UInt16.lt_iff_toNat_lt.not.mp h
    rw [if_neg h, if_neg (by omega)]

namespace State

def register? (s : State) (r : Register) : Option UInt8 :=
  s.registers[r.index.toNat]?

def setRegister? (s : State) (r : Register) (value : UInt8) : Option State :=
  if h : r.index.toNat < registerCount then
    some { s with registers := s.registers.set r.index.toNat value h }
  else none

def address? (s : State) (hi lo : Register) : Option UInt16 := do
  return wordOfBytes (← s.register? hi) (← s.register? lo)

def setResult? (s : State) (dst : Register) (value : UInt8) : Option State := do
  let s ← s.setRegister? dst value
  return { s with flags := s.flags.ofResult value }

theorem register?_of_isValid (s : State) {r : Register} (h : r.isValid = true) :
    s.register? r = some (s.value r) := by
  have hr : r.index.toNat < registerCount := (Register.isValid_iff r).mp h
  rw [register?, value, Vector.getElem?_eq_getElem hr, Option.getD_some]

theorem setRegister?_of_isValid (s : State) {r : Register} (value : UInt8)
    (h : r.isValid = true) : s.setRegister? r value = some (s.withRegister r value) := by
  have hr : r.index.toNat < registerCount := (Register.isValid_iff r).mp h
  have hwrite := write_of_isValid s value h
  rw [write, dif_pos hr] at hwrite
  rw [setRegister?, dif_pos hr, Except.ok.inj hwrite]

theorem address?_of_isValid (s : State) {hi lo : Register} (hhi : hi.isValid = true)
    (hlo : lo.isValid = true) : s.address? hi lo = some (s.target hi lo) := by
  rw [address?, register?_of_isValid s hhi, register?_of_isValid s hlo]
  rfl

theorem setResult?_of_isValid (s : State) {dst : Register} (value : UInt8)
    (h : dst.isValid = true) : s.setResult? dst value = some (s.withResult dst value) := by
  rw [setResult?, setRegister?_of_isValid s value h]
  rfl

end State

namespace Memory

def read? (m : Memory) (index : Nat) : Option UInt8 :=
  m.bytes[index]?

def write? (m : Memory) (index : Nat) (value : UInt8) : Option Memory :=
  if h : index < memorySize then some ⟨m.bytes.set index value h⟩ else none

/-- The word at an address, or that there is none. -/
def exactReadWord? (m : Memory) (address : UInt16) : Option (Option UInt16) :=
  match sum? address 1 with
  | none => some none
  | some low => do
    return some (wordOfBytes (← m.read? address.toNat) (← m.read? low.toNat))

def exactWriteWord? (m : Memory) (address : UInt16) (word : UInt16) :
    Option (Except MachineError Memory) :=
  match sum? address 1 with
  | none => some (.error (.programOutOfBounds address 1))
  | some low => do
    let m ← m.write? address.toNat (highByte word)
    return .ok (← m.write? low.toNat (lowByte word))

theorem read?_toNat (m : Memory) (address : UInt16) :
    m.read? address.toNat = some (m.read address) :=
  Vector.getElem?_eq_getElem address.toNat_lt

theorem write?_toNat (m : Memory) (address : UInt16) (value : UInt8) :
    m.write? address.toNat value = some (m.write address value) :=
  dif_pos address.toNat_lt

theorem exactReadWord?_eq (m : Memory) (address : UInt16) :
    m.exactReadWord? address = some (m.readWord? address) := by
  rw [exactReadWord?, readWord?, next?_eq_sum?]
  cases sum? address 1 with
  | none => rfl
  | some low =>
    simp only [read?_toNat]
    rfl

theorem exactWriteWord?_eq (m : Memory) (address word : UInt16) :
    m.exactWriteWord? address word = some (m.writeWord address word) := by
  rw [exactWriteWord?, writeWord, next?_eq_sum?]
  cases sum? address 1 with
  | none => rfl
  | some low =>
    simp only [write?_toNat, Option.bind_eq_bind, Option.bind_some]
    rfl

end Memory

namespace Instruction

/-- The effect of an instruction whose registers all exist, in exact arithmetic. -/
def exactEffectOn? (i : Instruction) (layout : Layout) (memory : Memory) (s : State) :
    Option (Except Fault Effect) := do
  match i with
  | ldr dst src => return .ok (.ofState (← s.setResult? dst (← s.register? src)))
  | ldi dst imm => return .ok (.ofState (← s.setResult? dst imm))
  | ldm dst hi lo =>
    let source ← s.address? hi lo
    return .ok (.ofState (← s.setResult? dst (← memory.read? source.toNat)))
  | st hi lo src =>
    let target ← s.address? hi lo
    let value ← s.register? src
    return .ok {
      flow := .next
      state := { s with flags := s.flags.ofResult value }
      store? := some (target, value) }
  | add dst lhs rhs =>
    let a ← s.register? lhs
    let b ← s.register? rhs
    let s := { s with flags := s.flags.assign .overflow (decide (255 < a.toNat + b.toNat)) }
    return .ok (.ofState (← s.setResult? dst (a + b)))
  | sub dst lhs rhs =>
    let a ← s.register? lhs
    let b ← s.register? rhs
    let s := { s with flags := s.flags.assign .carry (decide (a < b)) }
    return .ok (.ofState (← s.setResult? dst (a - b)))
  | mul dst lhs rhs =>
    let a ← s.register? lhs
    let b ← s.register? rhs
    let s := { s with flags := s.flags.assign .overflow (decide (255 < a.toNat * b.toNat)) }
    return .ok (.ofState (← s.setResult? dst (a * b)))
  | div dst lhs rhs =>
    let a ← s.register? lhs
    let b ← s.register? rhs
    if b = 0 then return .error .divisionByZero
    return .ok (.ofState (← s.setResult? dst (a / b)))
  | and dst lhs rhs =>
    return .ok (.ofState (← s.setResult? dst ((← s.register? lhs) &&& (← s.register? rhs))))
  | or dst lhs rhs =>
    return .ok (.ofState (← s.setResult? dst ((← s.register? lhs) ||| (← s.register? rhs))))
  | xor dst lhs rhs =>
    return .ok (.ofState (← s.setResult? dst ((← s.register? lhs) ^^^ (← s.register? rhs))))
  | jp hi lo => return .ok { flow := .jump (← s.address? hi lo), state := s, store? := none }
  | jz hi lo =>
    let target ← s.address? hi lo
    return .ok {
      flow := if s.flags.isSet .zero then .jump target else .next
      state := s
      store? := none }
  | push src =>
    let value ← s.register? src
    if s.sp ≤ layout.stackBottom then return .error .stackOverflow
    let sp ← difference? s.sp 1
    return .ok { flow := .next, state := { s with sp }, store? := some (sp, value) }
  | pop dst =>
    if layout.stackTop ≤ s.sp then return .error .stackUnderflow
    let value ← memory.read? s.sp.toNat
    let s' ← s.setRegister? dst value
    let sp ← sum? s.sp 1
    return .ok (.ofState { s' with sp })
  | hlt =>
    return .ok { flow := .halt, state := { s with flags := s.flags.set .halt }, store? := none }

def exactEffect? (i : Instruction) (layout : Layout) (memory : Memory) (s : State) :
    Option (Except Fault Effect) :=
  match i.invalidRegister? with
  | some r => some (.error (.invalidRegister r))
  | none => i.exactEffectOn? layout memory s

theorem exactEffectOn?_eq (i : Instruction) (layout : Layout) (memory : Memory) (s : State)
    (h : ∀ r ∈ i.registers, r.isValid = true) :
    i.exactEffectOn? layout memory s = some (i.effectOn layout memory s) := by
  rw [effectOn_eq i layout memory s h]
  cases i with
  | div dst lhs rhs =>
    simp only [registers, operands, Operands.registers, List.forall_mem_cons] at h
    have hl := State.register?_of_isValid s h.2.1
    have hr := State.register?_of_isValid s h.2.2.1
    by_cases hz : s.value rhs = 0
    · simp only [exactEffectOn?, ownFault?, hl, hr, hz, bind, Option.bind, ↓reduceIte]
      rfl
    · have hd := State.setResult?_of_isValid s (s.value lhs / s.value rhs) h.1
      simp only [exactEffectOn?, ownFault?, outcome, hl, hr, hd, hz, bind, Option.bind, ↓reduceIte]
      rfl
  | push src =>
    simp only [registers, operands, Operands.registers, List.forall_mem_cons] at h
    have hv := State.register?_of_isValid s h.1
    by_cases hf : s.sp ≤ layout.stackBottom
    · simp only [exactEffectOn?, ownFault?, hv, hf, bind, Option.bind, ↓reduceIte]
      rfl
    · have hsp := difference?_of_lt (UInt16.not_le.mp hf)
      simp only [exactEffectOn?, ownFault?, outcome, hv, hf, hsp, bind, Option.bind, ↓reduceIte]
      rfl
  | pop dst =>
    simp only [registers, operands, Operands.registers, List.forall_mem_cons] at h
    by_cases he : layout.stackTop ≤ s.sp
    · simp only [exactEffectOn?, ownFault?, he, ↓reduceIte]
      rfl
    · have hd := State.setRegister?_of_isValid s (memory.read s.sp) h.1
      have hsp := sum?_of_lt (UInt16.not_le.mp he)
      simp only [exactEffectOn?, ownFault?, outcome, Memory.read?_toNat, hd, he, hsp, bind,
        Option.bind, ↓reduceIte]
      rfl
  | _ =>
    simp only [registers, operands, Operands.registers, List.forall_mem_cons] at h
    simp only [exactEffectOn?, ownFault?, outcome, State.register?_of_isValid,
      State.address?_of_isValid, State.setResult?_of_isValid, Memory.read?_toNat, h, bind,
      Option.bind, pure]

theorem exactEffect?_eq (i : Instruction) (layout : Layout) (memory : Memory) (s : State) :
    i.exactEffect? layout memory s = some (i.effect layout memory s) := by
  unfold exactEffect? effect
  cases hr : i.invalidRegister? with
  | some r => rfl
  | none => exact exactEffectOn?_eq i layout memory s ((invalidRegister?_eq_none_iff i).mp hr)

end Instruction

namespace Layout

/-- The check of a layout, whose stack window is one exact difference. -/
def exactValidate? (l : Layout) : Option (Except LayoutError Unit) :=
  if l.stackSize = 0 then some (.error .emptyStack)
  else if l.stackTop < l.stackSize then some (.error .stackBelowMemory)
  else do
    let bottom ← difference? l.stackTop l.stackSize
    return if bottom ≤ l.resetPc && l.resetPc < l.stackTop then .error .resetInStack else .ok ()

theorem exactValidate?_eq (l : Layout) : l.exactValidate? = some l.validate := by
  unfold exactValidate? validate
  split
  · rfl
  split
  · rfl
  · next hroom =>
    have hle : l.stackSize ≤ l.stackTop := UInt16.not_lt.mp hroom
    have hbottom : difference? l.stackTop l.stackSize = some l.stackBottom := by
      rw [difference?, stackBottom, if_pos hle, if_pos hle]
    rw [hbottom, Option.bind_eq_bind, Option.bind_some]
    rfl

end Layout

namespace Core

def exactApply? (c : Core) (e : Effect) : Option Core :=
  match e.store? with
  | none => some { c with state := e.state }
  | some (address, value) => do
    return { c with state := e.state, memory := ← c.memory.write? address.toNat value }

def exactCompleted? (c : Core) (pc word : UInt16) : Option Turn := do
  let state := { c.state with cycles := ← increment? c.state.cycles }
  return {
    answer := .ok c.state.status
    core := { c with state }
    row? := some (.ofState state pc word) }

def exactHalt (c : Core) (pc : UInt16) (reason : HaltReason) : Core :=
  { c with state := { c.state with pc := (sum? pc 2).getD pc }.halt reason }

def exactContinueAs? (c : Core) (flow : Flow) (pc word : UInt16) : Option Turn :=
  match flow with
  | .jump target => (c.goTo target).exactCompleted? pc word
  | .halt => (c.exactHalt pc .instruction).exactCompleted? pc word
  | .next =>
    match sum? pc 2 with
    | some next => (c.goTo next).exactCompleted? pc word
    | none => do
      let turn ← c.exactCompleted? pc word
      return { turn.core.failed pc word .endOfMemory with row? := turn.row? }

def exactCarryOut? (c : Core) (pc word : UInt16) : Option Turn :=
  if word = 0 then (c.exactHalt pc .zeroWord).exactCompleted? pc word
  else
    match Instruction.decode word with
    | .error _ => some (c.failed pc word (.unknownOpcode (Fields.ofWord word).opcode))
    | .ok i => do
      match ← i.exactEffect? c.layout c.memory c.state with
      | .error fault => return c.failed pc word fault
      | .ok e => (← c.exactApply? e).exactContinueAs? e.flow pc word

/-- A step in exact arithmetic. -/
def exactStep? (c : Core) : Option Turn :=
  match c.state.status with
  | .halted reason => some { answer := .ok (.halted reason), core := c, row? := none }
  | .faulted fault => some { answer := .error (.faulted fault), core := c, row? := none }
  | .running => do
    match ← c.memory.exactReadWord? c.state.pc with
    | some word => c.exactCarryOut? c.state.pc word
    | none =>
      let high ← c.memory.read? c.state.pc.toNat
      return c.failed c.state.pc (wordOfBytes high 0) .endOfMemory

variable {c : Core}

theorem exactApply?_eq (c : Core) (e : Effect) : c.exactApply? e = some (c.apply e) := by
  unfold exactApply? apply
  cases e.store? with
  | none => rfl
  | some store =>
    simp only [Memory.write?_toNat]
    rfl

theorem exactCompleted?_eq (c : Core) (h : c.state.cycles.toNat + 1 < UInt64.size)
    (pc word : UInt16) :
    c.exactCompleted? pc word = some (c.completed pc word) := by
  rw [exactCompleted?, increment?, if_pos h]
  rfl

theorem exactHalt_eq (c : Core) : c.exactHalt = c.halt := by
  funext pc reason
  rw [exactHalt, halt, nextWord?_eq_sum?]

theorem exactContinueAs?_eq (h : c.state.cycles.toNat + 1 < UInt64.size) (flow : Flow)
    (pc word : UInt16) : c.exactContinueAs? flow pc word = some (c.continueAs flow pc word) := by
  cases flow with
  | jump target => exact exactCompleted?_eq (c.goTo target) h pc word
  | halt =>
    rw [exactContinueAs?, exactHalt_eq]
    exact exactCompleted?_eq (c.halt pc .instruction) h pc word
  | next =>
    rw [exactContinueAs?, continueAs, nextWord?_eq_sum?]
    cases sum? pc 2 with
    | some next => exact exactCompleted?_eq (c.goTo next) h pc word
    | none =>
      simp only [exactCompleted?_eq c h]
      rfl

theorem exactCarryOut?_eq (h : c.state.cycles.toNat + 1 < UInt64.size) (pc word : UInt16) :
    c.exactCarryOut? pc word = some (c.carryOut pc word) := by
  unfold exactCarryOut? carryOut
  split
  · rw [exactHalt_eq]
    exact exactCompleted?_eq (c.halt pc .zeroWord) h pc word
  · cases Instruction.decode word with
    | error e => rfl
    | ok i =>
      simp only [Instruction.exactEffect?_eq]
      cases he : i.effect c.layout c.memory c.state with
      | error fault => rfl
      | ok e =>
        obtain ⟨-, rfl⟩ := Instruction.effect_eq_ok he
        have hcycles := (Instruction.outcome_frame i c.memory c.state).2.1
        have h' : (c.applied i).state.cycles.toNat + 1 < UInt64.size := by
          change (i.outcome c.memory c.state).state.cycles.toNat + 1 < UInt64.size
          rwa [hcycles]
        change (c.exactApply? (i.outcome c.memory c.state)).bind _ = _
        rw [exactApply?_eq, Option.bind_some]
        exact exactContinueAs?_eq h' _ pc word

theorem exactStep?_eq (h : c.state.cycles.toNat + 1 < UInt64.size) :
    c.exactStep? = some c.step := by
  unfold exactStep? step
  cases c.state.status with
  | halted reason => rfl
  | faulted fault => rfl
  | running =>
    simp only [Memory.exactReadWord?_eq, Memory.read?_toNat, Option.bind_eq_bind, Option.bind_some]
    cases c.memory.readWord? c.state.pc with
    | some word => exact exactCarryOut?_eq h c.state.pc word
    | none => rfl

/-- What keeps to its range in the working of a core: the window of its layout, the indices of its
memory and registers, the stack pointer, and the program counter. -/
structure InRange (c : Core) : Prop where
  layout : c.layout.exactValidate? = some c.layout.validate
  bottom : c.layout.stackBottom.toNat = c.layout.stackTop.toNat - c.layout.stackSize.toNat
  bytes : ∀ address value, c.memory.read? address.toNat = some (c.memory.read address) ∧
    c.memory.write? address.toNat value = some (c.memory.write address value)
  words : ∀ address word, c.memory.exactReadWord? address = some (c.memory.readWord? address) ∧
    c.memory.exactWriteWord? address word = some (c.memory.writeWord address word)
  effect : ∀ i : Instruction,
    i.exactEffect? c.layout c.memory c.state = some (i.effect c.layout c.memory c.state)
  registers : ∀ (i : Instruction) e, i.effect c.layout c.memory c.state = .ok e →
    ∀ r ∈ i.registers, r.index.toNat < registerCount
  push : ∀ src e, (Instruction.push src).effect c.layout c.memory c.state = .ok e →
    1 ≤ c.state.sp.toNat ∧ e.state.sp.toNat = c.state.sp.toNat - 1 ∧
      e.store? = some (e.state.sp, c.state.value src) ∧ c.layout.stackBottom ≤ e.state.sp
  pop : ∀ dst e, (Instruction.pop dst).effect c.layout c.memory c.state = .ok e →
    c.state.sp.toNat ≤ 0xFFFE ∧ e.state.sp.toNat = c.state.sp.toNat + 1 ∧
      e.state.value dst = c.memory.read c.state.sp ∧ c.state.sp < c.layout.stackTop
  stays : ∀ (i : Instruction) e, i.effect c.layout c.memory c.state = .ok e →
    (∀ src, i ≠ .push src) → (∀ dst, i ≠ .pop dst) → e.state.sp = c.state.sp
  step : c.state.cycles.toNat + 1 < UInt64.size → c.exactStep? = some c.step
  advance : (∀ target, ¬ c.Jumps target) →
    c.step.core.state.pc = c.state.pc ∨ c.step.core.state.pc.toNat = c.state.pc.toNat + 2

variable {e : Effect}

theorem push_inRange {src : Register}
    (h : (Instruction.push src).effect c.layout c.memory c.state = .ok e) :
    1 ≤ c.state.sp.toNat ∧ e.state.sp.toNat = c.state.sp.toNat - 1 ∧
      e.store? = some (e.state.sp, c.state.value src) ∧ c.layout.stackBottom ≤ e.state.sp := by
  obtain ⟨hf, rfl⟩ := Instruction.effect_eq_ok h
  have hlt := Instruction.bottom_lt_of_no_fault hf
  have hsp : (c.state.sp - 1).toNat + 1 = c.state.sp.toNat := toNat_sub_one_of_lt hlt
  rw [UInt16.lt_iff_toNat_lt] at hlt
  refine ⟨by omega, Nat.eq_sub_of_add_eq hsp, rfl, UInt16.le_iff_toNat_le.mpr ?_⟩
  change c.layout.stackBottom.toNat ≤ (c.state.sp - 1).toNat
  omega

theorem pop_inRange {dst : Register}
    (h : (Instruction.pop dst).effect c.layout c.memory c.state = .ok e) :
    c.state.sp.toNat ≤ 0xFFFE ∧ e.state.sp.toNat = c.state.sp.toNat + 1 ∧
      e.state.value dst = c.memory.read c.state.sp ∧ c.state.sp < c.layout.stackTop := by
  obtain ⟨hf, rfl⟩ := Instruction.effect_eq_ok h
  have hlt := Instruction.lt_top_of_no_fault hf
  have hdst := ((Instruction.fault?_eq_none_iff _ _ _).mp hf).1 dst (List.mem_singleton_self dst)
  refine ⟨?_, toNat_add_one_of_lt hlt, State.value_withRegister c.state _ hdst, hlt⟩
  have htop := c.layout.stackTop.toNat_lt
  rw [UInt16.lt_iff_toNat_lt] at hlt
  omega

theorem sp_of_effect {i : Instruction} (h : i.effect c.layout c.memory c.state = .ok e)
    (hpush : ∀ src, i ≠ .push src) (hpop : ∀ dst, i ≠ .pop dst) : e.state.sp = c.state.sp := by
  obtain ⟨-, rfl⟩ := Instruction.effect_eq_ok h
  cases i with
  | push src => exact absurd rfl (hpush src)
  | pop dst => exact absurd rfl (hpop dst)
  | _ => rfl

/-- No address of a core wraps round and no index of it lies outside, whatever its layout, state and
memory are. -/
theorem inRange (c : Core) : c.InRange where
  layout := c.layout.exactValidate?_eq
  bottom := c.layout.toNat_stackBottom_eq_sub
  bytes address value := ⟨c.memory.read?_toNat address, c.memory.write?_toNat address value⟩
  words address word :=
    ⟨c.memory.exactReadWord?_eq address, c.memory.exactWriteWord?_eq address word⟩
  effect i := i.exactEffect?_eq c.layout c.memory c.state
  registers i _ h r hr := by
    have hf := (Instruction.effect_eq_ok h).1
    have hvalid := ((Instruction.fault?_eq_none_iff i c.layout c.state).mp hf).1 r hr
    exact (Register.isValid_iff r).mp hvalid
  push _ _ h := push_inRange h
  pop _ _ h := pop_inRange h
  stays _ _ h := sp_of_effect h
  step h := exactStep?_eq h
  advance h := pc_of_no_jump h

end Core

end ByteMachine
