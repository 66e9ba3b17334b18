import ByteMachine.Proofs.StatusFlags

/-!
What each instruction computes, and all that it leaves alone. A result is told over the integers,
from the values before the instruction; the machine keeps a byte of it, and the flags say where the
byte is not all of it. With the tables of this module an instruction that meets no fault leaves one
core only.
-/

namespace ByteMachine

/-- The address that two registers give, high byte first. -/
def State.pair (s : State) (hi lo : Register) : Nat :=
  (s.value hi).toNat * 256 + (s.value lo).toNat

theorem State.toNat_target (s : State) (hi lo : Register) :
    (s.target hi lo).toNat = s.pair hi lo :=
  toNat_wordOfBytes _ _

namespace Instruction

/-- The result of an instruction that has one, over the integers and from the values before it. -/
def computed? (i : Instruction) (memory : Memory) (s : State) : Option Int :=
  match i with
  | ldr _ src => some (s.value src).toNat
  | ldi _ imm => some imm.toNat
  | ldm _ hi lo => some (memory.read (.ofNat (s.pair hi lo))).toNat
  | st _ _ src => some (s.value src).toNat
  | add _ lhs rhs => some ((s.value lhs).toNat + (s.value rhs).toNat)
  | sub _ lhs rhs => some ((s.value lhs).toNat - (s.value rhs).toNat)
  | mul _ lhs rhs => some ((s.value lhs).toNat * (s.value rhs).toNat)
  | div _ lhs rhs => some ((s.value lhs).toNat / (s.value rhs).toNat)
  | and _ lhs rhs => some ((s.value lhs).toNat &&& (s.value rhs).toNat : Nat)
  | or _ lhs rhs => some ((s.value lhs).toNat ||| (s.value rhs).toNat : Nat)
  | xor _ lhs rhs => some ((s.value lhs).toNat ^^^ (s.value rhs).toNat : Nat)
  | _ => none

/-- The register that an instruction writes, if it writes one. -/
def destination? : Instruction → Option Register
  | ldr dst _ => some dst
  | ldi dst _ => some dst
  | ldm dst _ _ => some dst
  | add dst _ _ => some dst
  | sub dst _ _ => some dst
  | mul dst _ _ => some dst
  | div dst _ _ => some dst
  | and dst _ _ => some dst
  | or dst _ _ => some dst
  | xor dst _ _ => some dst
  | pop dst => some dst
  | _ => none

/-- The number in a register behind an instruction. A result is cut to a byte. -/
def registerAfter (i : Instruction) (c : Core) (r : Register) : Int :=
  if i.destination? = some r then
    match i.computed? c.memory c.state with
    | some n => n % 256
    | none => (c.memory.read c.state.sp).toNat
  else (c.state.value r).toNat

/-- The byte at an address behind an instruction. Only a store and a push write one. -/
def byteAfter (i : Instruction) (c : Core) (address : UInt16) : UInt8 :=
  match i with
  | st hi lo src =>
    if address.toNat = c.state.pair hi lo then c.state.value src else c.memory.read address
  | push src =>
    if address.toNat + 1 = c.state.sp.toNat then c.state.value src else c.memory.read address
  | _ => c.memory.read address

/-- Whether a flag is set behind an instruction. Zero and negative tell of the byte that is kept of
a result; overflow and carry tell that the result lies above or below it. -/
def flagAfter (i : Instruction) (c : Core) (flag : Flag) : Bool :=
  match flag, i.computed? c.memory c.state with
  | .zero, some n => n % 256 = 0
  | .negative, some n => 128 ≤ n % 256
  | .overflow, some n =>
    if i.opcode = .add ∨ i.opcode = .mul then 255 < n else c.state.flags.isSet .overflow
  | .carry, some n => if i.opcode = .sub then n < 0 else c.state.flags.isSet .carry
  | .halt, _ => i = hlt || c.state.flags.isSet .halt
  | flag, none => c.state.flags.isSet flag

/-- By how much an instruction moves the stack pointer. -/
def stackMove : Instruction → Int
  | push _ => -1
  | pop _ => 1
  | _ => 0

/-- Whether an instruction jumps, and the address that it jumps to. -/
def JumpsTo (i : Instruction) (s : State) (target : UInt16) : Prop :=
  ∃ hi lo, (i = jp hi lo ∨ i = jz hi lo ∧ s.flags.isSet .zero = true) ∧
    target.toNat = s.pair hi lo

end Instruction

/-- An instruction takes a core `c` to a core `d`, from which control goes on as `flow` says. -/
structure Instruction.Takes (i : Instruction) (c : Core) (flow : Flow) (d : Core) : Prop where
  operands : ∀ r ∈ i.registers, c.state.read r = .ok (c.state.value r)
  jump : ∀ target, flow = .jump target ↔ i.JumpsTo c.state target
  halt : flow = .halt ↔ i = hlt
  registers : ∀ r : Register, ((d.state.value r).toNat : Int) = i.registerAfter c r
  memory : ∀ address, d.memory.read address = i.byteAfter c address
  flags : ∀ flag, d.state.flags.isSet flag = i.flagAfter c flag
  spare_bits : d.state.flags.bits &&& 0xE0 = c.state.flags.bits &&& 0xE0
  sp : (d.state.sp.toNat : Int) = c.state.sp.toNat + i.stackMove
  pc : d.state.pc = c.state.pc
  cycles : d.state.cycles = c.state.cycles
  status : d.state.status = c.state.status
  layout : d.layout = c.layout

namespace Instruction

variable {i : Instruction} {layout : Layout} {memory : Memory} {s : State} {n : Int}

theorem destination_mem {r : Register} (h : i.destination? = some r) : r ∈ i.registers := by
  cases i <;> simp_all [destination?, registers, operands, Operands.registers]

/-- The flags in which an instruction shows that its result is no byte, before it shows the byte. -/
def marked (i : Instruction) (n : Int) (f : Flags) : Flags :=
  match i with
  | add _ _ _ => f.assign .overflow (255 < n)
  | sub _ _ _ => f.assign .carry (n < 0)
  | mul _ _ _ => f.assign .overflow (255 < n)
  | _ => f

/-- A result is kept as a byte, which goes to the destination and is shown in the flags. -/
structure Keeps (i : Instruction) (memory : Memory) (s : State) (n : Int) (b : UInt8) : Prop where
  number : (b.toNat : Int) = n % 256
  flags : (i.outcome memory s).state.flags = (i.marked n s.flags).ofResult b
  registers : ∀ dst, i.destination? = some dst →
    (i.outcome memory s).state.registers = (s.withRegister dst b).registers

theorem toNat_emod (b : UInt8) : (b.toNat : Int) = (b.toNat : Int) % 256 := by
  have hb := b.toNat_lt
  omega

theorem Keeps.of_withResult {b : UInt8} {dst : Register} (hnumber : (b.toNat : Int) = n % 256)
    (hdst : i.destination? = some dst)
    (hstate : (i.outcome memory s).state
      = State.withResult { s with flags := i.marked n s.flags } dst b) :
    i.Keeps memory s n b where
  number := hnumber
  flags := by
    rw [hstate]
    rfl
  registers dst' hdst' := by
    obtain rfl := Option.some.inj (hdst.symm.trans hdst')
    rw [hstate]
    rfl

theorem exists_keeps (h : i.computed? memory s = some n) : ∃ b, i.Keeps memory s n b := by
  cases i with
  | ldr dst src =>
    obtain rfl := Option.some.inj h
    exact ⟨s.value src, .of_withResult (toNat_emod _) rfl rfl⟩
  | ldi dst imm =>
    obtain rfl := Option.some.inj h
    exact ⟨imm, .of_withResult (toNat_emod _) rfl rfl⟩
  | ldm dst hi lo =>
    obtain rfl := Option.some.inj h
    have htarget : UInt16.ofNat (s.pair hi lo) = s.target hi lo := by
      rw [← State.toNat_target, UInt16.ofNat_toNat]
    rw [htarget]
    exact ⟨memory.read (s.target hi lo), .of_withResult (toNat_emod _) rfl rfl⟩
  | st hi lo src =>
    obtain rfl := Option.some.inj h
    refine ⟨s.value src, toNat_emod _, rfl, ?_⟩
    intro dst hdst
    cases hdst
  | add dst lhs rhs =>
    obtain rfl := Option.some.inj h
    have hmark : decide (255 < (s.value lhs).toNat + (s.value rhs).toNat)
        = decide ((255 : Int) < (s.value lhs).toNat + (s.value rhs).toNat) := by
      apply decide_eq_decide.mpr
      omega
    refine ⟨s.value lhs + s.value rhs, .of_withResult ?_ rfl ?_⟩
    · rw [UInt8.toNat_add]
      omega
    · rw [marked, ← hmark]
      rfl
  | mul dst lhs rhs =>
    obtain rfl := Option.some.inj h
    have hmark : decide (255 < (s.value lhs).toNat * (s.value rhs).toNat)
        = decide ((255 : Int) < (s.value lhs).toNat * (s.value rhs).toNat) := by
      apply decide_eq_decide.mpr
      omega
    refine ⟨s.value lhs * s.value rhs, .of_withResult ?_ rfl ?_⟩
    · rw [UInt8.toNat_mul]
      omega
    · rw [marked, ← hmark]
      rfl
  | sub dst lhs rhs =>
    obtain rfl := Option.some.inj h
    have hl := (s.value lhs).toNat_lt
    have hr := (s.value rhs).toNat_lt
    have hmark : decide (s.value lhs < s.value rhs)
        = decide (((s.value lhs).toNat : Int) - (s.value rhs).toNat < 0) := by
      apply decide_eq_decide.mpr
      rw [UInt8.lt_iff_toNat_lt]
      omega
    refine ⟨s.value lhs - s.value rhs, .of_withResult ?_ rfl ?_⟩
    · rw [UInt8.toNat_sub]
      omega
    · rw [marked, ← hmark]
      rfl
  | div dst lhs rhs =>
    obtain rfl := Option.some.inj h
    have hnumber := toNat_emod (s.value lhs / s.value rhs)
    rw [UInt8.toNat_div] at hnumber
    refine ⟨s.value lhs / s.value rhs, .of_withResult ?_ rfl rfl⟩
    rw [UInt8.toNat_div]
    exact hnumber
  | and dst lhs rhs =>
    obtain rfl := Option.some.inj h
    refine ⟨s.value lhs &&& s.value rhs, .of_withResult ?_ rfl rfl⟩
    rw [← UInt8.toNat_and]
    exact toNat_emod _
  | or dst lhs rhs =>
    obtain rfl := Option.some.inj h
    refine ⟨s.value lhs ||| s.value rhs, .of_withResult ?_ rfl rfl⟩
    rw [← UInt8.toNat_or]
    exact toNat_emod _
  | xor dst lhs rhs =>
    obtain rfl := Option.some.inj h
    refine ⟨s.value lhs ^^^ s.value rhs, .of_withResult ?_ rfl rfl⟩
    rw [← UInt8.toNat_xor]
    exact toNat_emod _
  | _ => cases h

theorem eq_pop_of_destination {r : Register} (hdst : i.destination? = some r)
    (hn : i.computed? memory s = none) : i = pop r := by
  cases i <;> simp_all [destination?, computed?]

variable {c : Core} {r : Register}

theorem register_of_destination (hvalid : r.isValid = true) (hdst : i.destination? = some r) :
    (((i.outcome c.memory c.state).state.value r).toNat : Int) = i.registerAfter c r := by
  rw [registerAfter, if_pos hdst]
  cases hn : i.computed? c.memory c.state with
  | some n =>
    obtain ⟨b, hb⟩ := exists_keeps hn
    have hvalue : (i.outcome c.memory c.state).state.value r = b := by
      rw [State.value, hb.registers r hdst]
      exact State.value_withRegister c.state b hvalid
    rw [hvalue]
    exact hb.number
  | none =>
    obtain rfl := eq_pop_of_destination hdst hn
    have hvalue : ((pop r).outcome c.memory c.state).state.value r = c.memory.read c.state.sp :=
      State.value_withRegister c.state _ hvalid
    rw [hvalue]

theorem register_of_not_destination (hdst : i.destination? ≠ some r) :
    (((i.outcome c.memory c.state).state.value r).toNat : Int) = i.registerAfter c r := by
  have hkept : (i.outcome c.memory c.state).state.value r = c.state.value r := by
    have hother {dst : Register} (b : UInt8) (h : i.destination? = some dst) :
        (c.state.withRegister dst b).value r = c.state.value r := by
      apply State.value_withRegister_of_ne
      intro heq
      apply hdst
      rw [h, heq]
    cases i <;> first | rfl | exact hother _ rfl
  rw [registerAfter, if_neg hdst, hkept]

theorem memory_of_outcome (h : i.fault? c.layout c.state = none) (address : UInt16) :
    (c.memory.store (i.outcome c.memory c.state).store?).read address = i.byteAfter c address := by
  cases i with
  | st hi lo src =>
    have haddress : address = c.state.target hi lo ↔ address.toNat = c.state.pair hi lo := by
      rw [← UInt16.toNat_inj, State.toNat_target]
    simp only [outcome, Memory.store, Memory.read_write, byteAfter, haddress]
  | push src =>
    have hbelow := toNat_sub_one_of_lt (bottom_lt_of_no_fault h)
    have haddress : address = c.state.sp - 1 ↔ address.toNat + 1 = c.state.sp.toNat := by
      rw [← UInt16.toNat_inj]
      omega
    simp only [outcome, Memory.store, Memory.read_write, byteAfter, haddress]
  | _ => rfl

theorem sp_of_outcome (h : i.fault? c.layout c.state = none) :
    ((i.outcome c.memory c.state).state.sp.toNat : Int) = c.state.sp.toNat + i.stackMove := by
  cases i with
  | push src =>
    have hbelow := toNat_sub_one_of_lt (bottom_lt_of_no_fault h)
    have hsp : ((push src).outcome c.memory c.state).state.sp = c.state.sp - 1 := rfl
    rw [hsp, stackMove]
    omega
  | pop dst =>
    have habove := toNat_add_one_of_lt (lt_top_of_no_fault h)
    have hsp : ((pop dst).outcome c.memory c.state).state.sp = c.state.sp + 1 := rfl
    rw [hsp, stackMove]
    omega
  | _ => exact (Int.add_zero _).symm

theorem jump_of_outcome (target : UInt16) :
    (i.outcome memory s).flow = .jump target ↔ i.JumpsTo s target := by
  have haddress (hi lo : Register) : s.target hi lo = target ↔ target.toNat = s.pair hi lo := by
    rw [← UInt16.toNat_inj, State.toNat_target]
    exact eq_comm
  cases i with
  | jp hi lo => simp [outcome, JumpsTo, haddress, and_assoc]
  | jz hi lo => cases hz : s.flags.isSet .zero <;> simp [outcome, JumpsTo, haddress, hz, and_assoc]
  | _ => simp [outcome, JumpsTo, Effect.ofState]

theorem isSet_marked (n : Int) (f : Flags) (flag : Flag) :
    (i.marked n f).isSet flag =
      match flag with
      | .overflow =>
        if i.opcode = .add ∨ i.opcode = .mul then decide (255 < n) else f.isSet .overflow
      | .carry => if i.opcode = .sub then decide (n < 0) else f.isSet .carry
      | flag => f.isSet flag := by
  cases i <;> cases flag <;> simp [marked, Flags.isSet_assign, opcode]

theorem ne_hlt_of_computed (h : i.computed? memory s = some n) : i ≠ hlt := by
  rintro rfl
  cases h

theorem flags_of_outcome (flag : Flag) :
    (i.outcome c.memory c.state).state.flags.isSet flag = i.flagAfter c flag := by
  cases hn : i.computed? c.memory c.state with
  | some n =>
    obtain ⟨b, hb⟩ := exists_keeps hn
    have hnumber := hb.number
    rw [hb.flags, Flags.isSet_ofResult]
    cases flag with
    | zero =>
      simp only [flagAfter, hn]
      apply decide_eq_decide.mpr
      omega
    | negative =>
      simp only [flagAfter, hn]
      apply decide_eq_decide.mpr
      omega
    | overflow => simp only [isSet_marked, flagAfter, hn]
    | carry => simp only [isSet_marked, flagAfter, hn]
    | halt => simp [isSet_marked, flagAfter, ne_hlt_of_computed hn]
  | none =>
    cases i with
    | hlt =>
      have hset := c.state.flags.isSet_set .halt flag
      cases flag <;> simp_all [outcome, flagAfter]
    | jp hi lo => cases flag <;> simp [outcome, flagAfter, hn]
    | jz hi lo => cases flag <;> simp [outcome, flagAfter, hn]
    | push src => cases flag <;> simp [outcome, flagAfter, hn]
    | pop dst => cases flag <;> simp [outcome, flagAfter, hn, Effect.ofState, State.withRegister]
    | _ => cases hn

theorem spare_bits_of_outcome :
    (i.outcome memory s).state.flags.bits &&& 0xE0 = s.flags.bits &&& 0xE0 := by
  have hkept : (i.outcome memory s).state.flags.upper &&& 0xE0 = s.flags.upper &&& 0xE0 := by
    by_cases hi : i = hlt
    · have hupper : (hlt.outcome memory s).state.flags.upper = s.flags.upper ||| 0x10 :=
        Flags.upper_set_halt s.flags
      rw [hi, hupper, Flags.or_and]
      exact UInt8.or_zero
    · rw [outcome_upper hi]
  calc (i.outcome memory s).state.flags.bits &&& 0xE0
    _ = (i.outcome memory s).state.flags.upper &&& 0xE0 := Flags.spare_bits _
    _ = s.flags.upper &&& 0xE0 := hkept
    _ = s.flags.bits &&& 0xE0 := (Flags.spare_bits s.flags).symm

/-- What an instruction takes a core to is told by the core and the instruction alone. -/
theorem Takes.unique {flow flow' : Flow} {d d' : Core} (h : i.Takes c flow d)
    (h' : i.Takes c flow' d') : flow = flow' ∧ d = d' := by
  have hflow : flow = flow' := by
    cases flow with
    | jump target => exact ((h'.jump target).mpr ((h.jump target).mp rfl)).symm
    | halt => exact (h'.halt.mpr (h.halt.mp rfl)).symm
    | next =>
      cases flow' with
      | next => rfl
      | jump target => exact (h.jump target).mpr ((h'.jump target).mp rfl)
      | halt => exact h.halt.mpr (h'.halt.mp rfl)
  have hregisters : d.state.registers = d'.state.registers := by
    apply State.registers_eq_of_value
    intro r
    apply UInt8.toNat_inj.mp
    exact Int.ofNat_inj.mp ((h.registers r).trans (h'.registers r).symm)
  have hflags : d.state.flags = d'.state.flags := by
    apply Flags.ext_isSet
    · intro flag
      exact (h.flags flag).trans (h'.flags flag).symm
    · exact h.spare_bits.trans h'.spare_bits.symm
  have hsp : d.state.sp = d'.state.sp := by
    apply UInt16.toNat_inj.mp
    exact Int.ofNat_inj.mp (h.sp.trans h'.sp.symm)
  have hmemory : d.memory = d'.memory := by
    apply Memory.ext_read
    intro address
    exact (h.memory address).trans (h'.memory address).symm
  have hpc := h.pc.trans h'.pc.symm
  have hcycles := h.cycles.trans h'.cycles.symm
  have hstatus := h.status.trans h'.status.symm
  have hlayout := h.layout.trans h'.layout.symm
  refine ⟨hflow, ?_⟩
  obtain ⟨layout, ⟨registers, pc, sp, flags, cycles, status⟩, memory⟩ := d
  obtain ⟨layout', ⟨registers', pc', sp', flags', cycles', status'⟩, memory'⟩ := d'
  simp only at hregisters hflags hsp hmemory hpc hcycles hstatus hlayout
  rw [hregisters, hflags, hsp, hmemory, hpc, hcycles, hstatus, hlayout]

end Instruction

namespace Core

/-- An instruction that meets no fault takes a core to the one that the tables tell of, and to no
other. -/
theorem takes_of_effect {i : Instruction} {c : Core} {e : Effect}
    (h : i.effect c.layout c.memory c.state = .ok e) :
    i.Takes c e.flow (c.apply e) ∧
      ∀ flow d, i.Takes c flow d → flow = e.flow ∧ d = c.apply e := by
  obtain ⟨hf, rfl⟩ := Instruction.effect_eq_ok h
  have hvalid := ((Instruction.fault?_eq_none_iff i c.layout c.state).mp hf).1
  obtain ⟨hpc, hcycles, hstatus⟩ := Instruction.outcome_frame i c.memory c.state
  have htakes : i.Takes c (i.outcome c.memory c.state).flow
      (c.apply (i.outcome c.memory c.state)) := {
    operands := fun r hr => State.read_of_isValid c.state (hvalid r hr)
    jump := Instruction.jump_of_outcome
    halt := Instruction.outcome_flow_eq_halt_iff i c.memory c.state
    registers := by
      intro r
      by_cases hdst : i.destination? = some r
      · exact Instruction.register_of_destination (hvalid r (Instruction.destination_mem hdst)) hdst
      · exact Instruction.register_of_not_destination hdst
    memory := Instruction.memory_of_outcome hf
    flags := Instruction.flags_of_outcome
    spare_bits := Instruction.spare_bits_of_outcome
    sp := Instruction.sp_of_outcome hf
    pc := hpc
    cycles := hcycles
    status := hstatus
    layout := rfl }
  refine ⟨htakes, ?_⟩
  intro flow d hd
  exact hd.unique htakes

/-- A register with 200 in it, added to itself in place: 144 is kept, which is negative, and the
overflow shows. A carry that was set before stays. -/
theorem takes_of_register_doubled_in_place :
    let i := Instruction.add ⟨0⟩ ⟨0⟩ ⟨0⟩
    let s : State := { State.initial .standard with
      registers := #v[200, 0, 0, 0, 0, 0, 0, 0], flags := ⟨1⟩ }
    let c : Core := { Core.initial .standard with state := s }
    ∃ e, i.effect c.layout c.memory c.state = .ok e ∧ i.Takes c e.flow (c.apply e) ∧
      (c.apply e).state.value ⟨0⟩ = 144 ∧
      Flag.all.map (c.apply e).state.flags.isSet = [true, false, true, true, false] := by
  intro i s c
  have he : i.effect c.layout c.memory c.state = .ok (i.outcome c.memory c.state) := rfl
  obtain ⟨htakes, -⟩ := takes_of_effect he
  have hregister : i.registerAfter c ⟨0⟩ = 144 := by decide
  have hflags : Flag.all.map (i.flagAfter c) = [true, false, true, true, false] := by decide
  refine ⟨_, he, htakes, ?_, ?_⟩
  · apply UInt8.toNat_inj.mp
    exact Int.ofNat_inj.mp ((htakes.registers ⟨0⟩).trans hregister)
  · rw [← hflags]
    exact List.map_congr_left fun flag _ => htakes.flags flag

end Core

end ByteMachine
