import ByteMachine.Machine.Effect

namespace ByteMachine

namespace State

/-- The value of a register. One that does not exist counts as 0. -/
def value (s : State) (r : Register) : UInt8 :=
  s.registers[r.index.toNat]?.getD 0

def target (s : State) (hi lo : Register) : UInt16 :=
  wordOfBytes (s.value hi) (s.value lo)

def withRegister (s : State) (r : Register) (value : UInt8) : State :=
  { s with registers := s.registers.setIfInBounds r.index.toNat value }

def withResult (s : State) (dst : Register) (value : UInt8) : State :=
  { s.withRegister dst value with flags := s.flags.ofResult value }

theorem read_of_isValid (s : State) {r : Register} (h : r.isValid = true) :
    s.read r = .ok (s.value r) := by
  have hr : r.index.toNat < registerCount := (Register.isValid_iff r).mp h
  have hget : s.registers[r.index.toNat]? = some s.registers[r.index.toNat] :=
    Vector.getElem?_eq_getElem hr
  simp only [read, value, hget, Option.getD_some]

theorem write_of_isValid (s : State) {r : Register} (value : UInt8) (h : r.isValid = true) :
    s.write r value = .ok (s.withRegister r value) := by
  have hr : r.index.toNat < registerCount := (Register.isValid_iff r).mp h
  have hset : s.registers.setIfInBounds r.index.toNat value
      = s.registers.set r.index.toNat value hr := by
    apply Vector.toArray_inj.mp
    simp [Array.setIfInBounds, hr]
  rw [write, dif_pos hr, withRegister, hset]

theorem address_of_isValid (s : State) {hi lo : Register} (hhi : hi.isValid = true)
    (hlo : lo.isValid = true) : s.address hi lo = .ok (s.target hi lo) := by
  rw [address, read_of_isValid s hhi, read_of_isValid s hlo]
  rfl

theorem putResult_of_isValid (s : State) {dst : Register} (value : UInt8)
    (h : dst.isValid = true) : s.putResult dst value = .ok (s.withResult dst value) := by
  rw [putResult, write_of_isValid s value h]
  rfl

theorem value_withRegister (s : State) {r : Register} (value : UInt8) (h : r.isValid = true) :
    (s.withRegister r value).value r = value := by
  have hr : r.index.toNat < registerCount := (Register.isValid_iff r).mp h
  simp [State.value, withRegister, hr]

theorem value_withRegister_of_ne (s : State) {r r' : Register} (value : UInt8) (h : r ≠ r') :
    (s.withRegister r value).value r' = s.value r' := by
  have hindex : r.index.toNat ≠ r'.index.toNat := by
    intro heq
    apply h
    cases r
    cases r'
    exact congrArg Register.mk (UInt8.toNat_inj.mp heq)
  rw [State.value, withRegister, Vector.getElem?_setIfInBounds_ne hindex, State.value]

theorem registers_eq_of_value {s s' : State} (h : ∀ r, s.value r = s'.value r) :
    s.registers = s'.registers := by
  apply Vector.ext
  intro k hk
  have hcount : registerCount = 8 := rfl
  have hindex : (UInt8.ofNat k).toNat = k := by
    rw [UInt8.toNat_ofNat']
    omega
  have hvalue := h ⟨UInt8.ofNat k⟩
  simpa only [State.value, hindex, Vector.getElem?_eq_getElem hk, Option.getD_some] using hvalue

end State

namespace Instruction

/-- The fault of an instruction whose registers all exist. -/
def ownFault? (i : Instruction) (layout : Layout) (s : State) : Option Fault :=
  match i with
  | div _ _ rhs => if s.value rhs = 0 then some .divisionByZero else none
  | push _ => if s.sp ≤ layout.stackBottom then some .stackOverflow else none
  | pop _ => if layout.stackTop ≤ s.sp then some .stackUnderflow else none
  | _ => none

/-- The first fault of an instruction: a register that does not exist comes before any other. -/
def fault? (i : Instruction) (layout : Layout) (s : State) : Option Fault :=
  match i.invalidRegister? with
  | some r => some (.invalidRegister r)
  | none => i.ownFault? layout s

/-- What an instruction does that meets no fault. -/
def outcome (i : Instruction) (memory : Memory) (s : State) : Effect :=
  match i with
  | ldr dst src => .ofState (s.withResult dst (s.value src))
  | ldi dst imm => .ofState (s.withResult dst imm)
  | ldm dst hi lo => .ofState (s.withResult dst (memory.read (s.target hi lo)))
  | st hi lo src => {
      flow := .next
      state := { s with flags := s.flags.ofResult (s.value src) }
      store? := some (s.target hi lo, s.value src) }
  | add dst lhs rhs =>
    let sum := (s.value lhs).toNat + (s.value rhs).toNat
    let s' := { s with flags := s.flags.assign .overflow (decide (255 < sum)) }
    .ofState (s'.withResult dst (s.value lhs + s.value rhs))
  | sub dst lhs rhs =>
    let s' := { s with flags := s.flags.assign .carry (decide (s.value lhs < s.value rhs)) }
    .ofState (s'.withResult dst (s.value lhs - s.value rhs))
  | mul dst lhs rhs =>
    let product := (s.value lhs).toNat * (s.value rhs).toNat
    let s' := { s with flags := s.flags.assign .overflow (decide (255 < product)) }
    .ofState (s'.withResult dst (s.value lhs * s.value rhs))
  | div dst lhs rhs => .ofState (s.withResult dst (s.value lhs / s.value rhs))
  | and dst lhs rhs => .ofState (s.withResult dst (s.value lhs &&& s.value rhs))
  | or dst lhs rhs => .ofState (s.withResult dst (s.value lhs ||| s.value rhs))
  | xor dst lhs rhs => .ofState (s.withResult dst (s.value lhs ^^^ s.value rhs))
  | jp hi lo => { flow := .jump (s.target hi lo), state := s, store? := none }
  | jz hi lo => {
      flow := if s.flags.isSet .zero then .jump (s.target hi lo) else .next
      state := s
      store? := none }
  | push src => {
      flow := .next
      state := { s with sp := s.sp - 1 }
      store? := some (s.sp - 1, s.value src) }
  | pop dst => .ofState { s.withRegister dst (memory.read s.sp) with sp := s.sp + 1 }
  | hlt => { flow := .halt, state := { s with flags := s.flags.set .halt }, store? := none }

/-- Where every register exists, they are read and written without a fault, and the faults that
remain are the instruction's own. -/
theorem effectOn_eq (i : Instruction) (layout : Layout) (memory : Memory) (s : State)
    (h : ∀ r ∈ i.registers, r.isValid = true) :
    i.effectOn layout memory s =
      match i.ownFault? layout s with
      | some fault => .error fault
      | none => .ok (i.outcome memory s) := by
  cases i with
  | div dst lhs rhs =>
    simp only [registers, operands, Operands.registers, List.forall_mem_cons] at h
    have hl := State.read_of_isValid s h.2.1
    have hr := State.read_of_isValid s h.2.2.1
    by_cases hz : s.value rhs = 0
    · simp only [effectOn, ownFault?, hl, hr, hz, bind, Except.bind, ↓reduceIte]
      rfl
    · have hd := State.putResult_of_isValid s (s.value lhs / s.value rhs) h.1
      simp only [effectOn, ownFault?, outcome, hl, hr, hd, hz, bind, Except.bind, ↓reduceIte]
      rfl
  | push src =>
    simp only [registers, operands, Operands.registers, List.forall_mem_cons] at h
    have hv := State.read_of_isValid s h.1
    by_cases hf : s.sp ≤ layout.stackBottom
    · simp only [effectOn, ownFault?, hv, hf, bind, Except.bind, ↓reduceIte]
      rfl
    · simp only [effectOn, ownFault?, outcome, hv, hf, bind, Except.bind, ↓reduceIte]
      rfl
  | pop dst =>
    simp only [registers, operands, Operands.registers, List.forall_mem_cons] at h
    by_cases he : layout.stackTop ≤ s.sp
    · simp only [effectOn, ownFault?, he, ↓reduceIte]
      rfl
    · have hd := State.write_of_isValid s (memory.read s.sp) h.1
      simp only [effectOn, ownFault?, outcome, hd, he, ↓reduceIte]
      rfl
  | _ =>
    simp only [registers, operands, Operands.registers, List.forall_mem_cons] at h
    simp only [effectOn, ownFault?, outcome, State.read_of_isValid, State.address_of_isValid,
      State.putResult_of_isValid, h, bind, Except.bind, pure, Except.pure]

theorem effect_eq (i : Instruction) (layout : Layout) (memory : Memory) (s : State) :
    i.effect layout memory s =
      match i.fault? layout s with
      | some fault => .error fault
      | none => .ok (i.outcome memory s) := by
  unfold effect fault?
  cases hr : i.invalidRegister? with
  | some r => rfl
  | none => exact effectOn_eq i layout memory s ((invalidRegister?_eq_none_iff i).mp hr)

theorem effect_of_fault? {i : Instruction} {layout : Layout} {s : State} {fault : Fault}
    (memory : Memory) (h : i.fault? layout s = some fault) :
    i.effect layout memory s = .error fault := by
  rw [effect_eq, h]

theorem effect_of_no_fault {i : Instruction} {layout : Layout} {s : State}
    (memory : Memory) (h : i.fault? layout s = none) :
    i.effect layout memory s = .ok (i.outcome memory s) := by
  rw [effect_eq, h]

theorem fault?_of_valid {i : Instruction} (h : ∀ r ∈ i.registers, r.isValid = true)
    (layout : Layout) (s : State) : i.fault? layout s = i.ownFault? layout s := by
  rw [fault?, (invalidRegister?_eq_none_iff i).mpr h]

theorem fault?_eq_none_iff (i : Instruction) (layout : Layout) (s : State) :
    i.fault? layout s = none ↔
      (∀ r ∈ i.registers, r.isValid = true) ∧ i.ownFault? layout s = none := by
  rw [← invalidRegister?_eq_none_iff]
  unfold fault?
  cases i.invalidRegister? with
  | some r => simp
  | none => simp

theorem effect_eq_ok {i : Instruction} {layout : Layout} {memory : Memory} {s : State} {e : Effect}
    (h : i.effect layout memory s = .ok e) :
    i.fault? layout s = none ∧ e = i.outcome memory s := by
  rw [effect_eq] at h
  cases hf : i.fault? layout s with
  | some fault =>
    rw [hf] at h
    cases h
  | none =>
    rw [hf] at h
    exact ⟨rfl, (Except.ok.inj h).symm⟩

theorem bottom_lt_of_no_fault {src : Register} {layout : Layout} {s : State}
    (h : (push src).fault? layout s = none) : layout.stackBottom < s.sp := by
  have hown := ((fault?_eq_none_iff _ layout s).mp h).2
  apply UInt16.not_le.mp
  intro hle
  rw [ownFault?, if_pos hle] at hown
  cases hown

theorem lt_top_of_no_fault {dst : Register} {layout : Layout} {s : State}
    (h : (pop dst).fault? layout s = none) : s.sp < layout.stackTop := by
  have hown := ((fault?_eq_none_iff _ layout s).mp h).2
  apply UInt16.not_le.mp
  intro hle
  rw [ownFault?, if_pos hle] at hown
  cases hown

theorem outcome_frame (i : Instruction) (memory : Memory) (s : State) :
    (i.outcome memory s).state.pc = s.pc ∧ (i.outcome memory s).state.cycles = s.cycles ∧
      (i.outcome memory s).state.status = s.status := by
  cases i <;> exact ⟨rfl, rfl, rfl⟩

/-- Whether control goes on to the next word behind an instruction. -/
def goesOn (i : Instruction) (s : State) : Bool :=
  match i with
  | hlt => false
  | jp _ _ => false
  | jz _ _ => !s.flags.isSet .zero
  | _ => true

theorem outcome_flow_eq_next_iff (i : Instruction) (memory : Memory) (s : State) :
    (i.outcome memory s).flow = .next ↔ i.goesOn s = true := by
  cases i with
  | jz hi lo => cases hz : s.flags.isSet .zero <;> simp [outcome, goesOn, hz]
  | _ => simp [outcome, goesOn, Effect.ofState]

end Instruction

end ByteMachine
