import ByteMachine.Proofs.Cycle
import ByteMachine.Proofs.Image
import ByteMachine.Proofs.Run

/-!
Lists of instructions that are run as they stand, without words in memory. A machine that is to run
their words goes through the same states and gives the same answers, as long as control stays among
them and nothing is written over them.
-/

namespace ByteMachine

/-- Instructions and the address that the first of them belongs at. -/
structure Routine where
  base : UInt16
  code : List Instruction

namespace Routine

def program (p : Routine) : Program where
  base := p.base
  code := Instruction.encodeAll p.code

/-- The addresses that the words of a routine take. -/
def Covers (p : Routine) (address : UInt16) : Prop :=
  p.base.toNat ≤ address.toNat ∧ address.toNat < p.base.toNat + 2 * p.code.length

instance (p : Routine) (address : UInt16) : Decidable (p.Covers address) :=
  inferInstanceAs (Decidable (_ ∧ _))

/-- The instruction that belongs at an address. -/
def at? (p : Routine) (address : UInt16) : Option Instruction :=
  let offset := (address - p.base).toNat
  if offset % 2 = 0 then p.code[offset / 2]? else none

/-- The turn in which a running core takes up an instruction. -/
def takeUp (c : Core) (i : Instruction) : Turn :=
  if i = .ldr ⟨0⟩ ⟨0⟩ then (c.halt c.state.pc .zeroWord).completed c.state.pc 0
  else
    match i.effect c.layout c.memory c.state with
    | .error fault => c.failed c.state.pc i.encode fault
    | .ok e => (c.apply e).continueAs e.flow c.state.pc i.encode

/-- One step through a routine. Outside of it there is none. -/
def step? (p : Routine) (c : Core) : Option Turn :=
  match c.state.status with
  | .halted reason => some { answer := .ok (.halted reason), core := c, row? := none }
  | .faulted fault => some { answer := .error (.faulted fault), core := c, row? := none }
  | .running => (p.at? c.state.pc).map (takeUp c)

/-- The answers to a number of steps through a routine, and the core behind them. -/
def run? (p : Routine) (c : Core) : Nat → Option (List (Except MachineError Status) × Core)
  | 0 => some ([], c)
  | n + 1 => do
    let (answers, d) ← p.run? c n
    let turn ← p.step? d
    return (answers ++ [turn.answer], turn.core)

/-- The core that starts on a routine, with the words of the routine in its memory as data. -/
def start (p : Routine) (layout : Layout) : Core where
  layout
  state := { State.initial layout with pc := p.base }
  memory := Memory.zero.putWords p.base p.program.code

/-- The next step of a core takes an instruction of the routine, if it takes one, and writes no byte
over the routine. -/
structure StaysIn (p : Routine) (c : Core) : Prop where
  fetches : c.state.status = .running →
    ∃ k < p.code.length, c.state.pc = p.program.addressOf k
  stores : ∀ hi lo src, c.executed? = some (.st hi lo src) → ¬ p.Covers (c.state.target hi lo)
  pushes : ∀ src, c.executed? = some (.push src) → ¬ p.Covers (c.state.sp - 1)

/-- A routine that has room between its base and the end of memory, and whose registers have room in
the fields of a word. -/
structure Encodable (p : Routine) : Prop where
  fits : p.base.toNat + 2 * p.code.length ≤ memorySize
  registers : ∀ i ∈ p.code, ∀ r ∈ i.registers, r.index.toNat < 16

/-- Memory has the words of a routine where they belong. -/
def StandsIn (p : Routine) (memory : Memory) : Prop :=
  ∀ k (hk : k < p.code.length),
    memory.wordAt (p.program.addressOf k) = p.code[k].encode

theorem length_program (p : Routine) : p.program.code.length = p.code.length :=
  List.length_map _

variable {p : Routine} {c : Core}

theorem Encodable.fits_program (hp : p.Encodable) : Program.Fits p.program.base p.program.code := by
  apply Program.fits_iff.mpr
  rw [length_program]
  exact hp.fits

theorem toNat_addressOf (hp : p.Encodable) {k : Nat} (hk : k < p.code.length) :
    (p.program.addressOf k).toNat = p.base.toNat + 2 * k := by
  apply Program.toNat_addressOf hp.fits_program
  rwa [length_program]

theorem addressOf_lt_last (hp : p.Encodable) {k : Nat} (hk : k < p.code.length) :
    p.program.addressOf k < 0xFFFF := by
  apply Program.addressOf_lt_last hp.fits_program
  rwa [length_program]

theorem at?_addressOf (hp : p.Encodable) {k : Nat} (hk : k < p.code.length) :
    p.at? (p.program.addressOf k) = some p.code[k] := by
  have haddress := toNat_addressOf hp hk
  have hle : p.base ≤ p.program.addressOf k := by
    rw [UInt16.le_iff_toNat_le]
    omega
  have hoffset : (p.program.addressOf k - p.base).toNat = 2 * k := by
    rw [UInt16.toNat_sub_of_le _ _ hle]
    omega
  have heven : 2 * k % 2 = 0 := Nat.mul_mod_right 2 k
  have hindex : 2 * k / 2 = k := Nat.mul_div_cancel_left k Nat.two_pos
  simp only [at?, hoffset, heven, hindex, if_true]
  exact List.getElem?_eq_getElem hk

theorem standsIn_start (hp : p.Encodable) (layout : Layout) :
    p.StandsIn (p.start layout).memory := by
  intro k hk
  have hroom : p.program.code.length * 2 ≤ memorySize :=
    Nat.le_trans (Nat.le_add_left _ _) hp.fits_program
  have hk' : k < p.program.code.length := by
    rw [length_program]
    exact hk
  have hword := Memory.wordAt_putWords Memory.zero hroom p.base hk'
  have hcode : p.program.code[k] = p.code[k].encode := List.getElem_map _
  rw [hcode] at hword
  exact hword

/-- A byte written beside a routine leaves it as it stands. -/
theorem StandsIn.write {memory : Memory} (h : p.StandsIn memory) (hp : p.Encodable)
    {address : UInt16} (value : UInt8) (ha : ¬ p.Covers address) :
    p.StandsIn (memory.write address value) := by
  intro k hk
  have haddress := toNat_addressOf hp hk
  have hhigh : address ≠ p.program.addressOf k := by
    rintro rfl
    exact ha ⟨by omega, by omega⟩
  have hlow : address ≠ p.program.addressOf k + 1 := by
    rintro rfl
    have hnext := toNat_add_one_of_lt (addressOf_lt_last hp hk)
    exact ha ⟨by omega, by omega⟩
  rw [Memory.wordAt_write_of_ne memory value hhigh hlow]
  exact h k hk

theorem pc_ne_last (hp : p.Encodable) {k : Nat} (hk : k < p.code.length)
    (hpc : c.state.pc = p.program.addressOf k) : c.state.pc ≠ 0xFFFF := by
  rw [hpc]
  exact UInt16.ne_of_lt (addressOf_lt_last hp hk)

theorem StandsIn.word (h : p.StandsIn c.memory) {k : Nat} (hk : k < p.code.length)
    (hpc : c.state.pc = p.program.addressOf k) : c.word = p.code[k].encode := by
  rw [Core.word, hpc]
  exact h k hk

theorem StandsIn.executed? (h : p.StandsIn c.memory) (hp : p.Encodable)
    (running : c.state.status = .running) {k : Nat} (hk : k < p.code.length)
    (hpc : c.state.pc = p.program.addressOf k) (hzero : p.code[k] ≠ .ldr ⟨0⟩ ⟨0⟩)
    (hfault : p.code[k].fault? c.layout c.state = none) : c.executed? = some p.code[k] := by
  have hregisters := hp.registers _ (List.getElem_mem hk)
  have hlast := pc_ne_last hp hk hpc
  have hword : c.word ≠ 0 := by
    rw [h.word hk hpc]
    exact mt (Instruction.encode_eq_zero_iff hregisters).mp hzero
  have hcurrent : c.current? = some p.code[k] := by
    rw [Core.current?, if_pos ⟨running, hlast, hword⟩, h.word hk hpc,
      Instruction.ofWord_encode hregisters]
  exact Core.executed?_eq_some.mpr ⟨hcurrent, hfault⟩

/-- A core at an instruction of a routine that stands in its memory stays in the routine, unless the
instruction writes a byte over it. -/
theorem StandsIn.staysIn (h : p.StandsIn c.memory) (hp : p.Encodable) {k : Nat}
    (hk : k < p.code.length) (hpc : c.state.pc = p.program.addressOf k)
    (hspare : ∀ address value, (p.code[k].outcome c.memory c.state).store? = some (address, value) →
      ¬ p.Covers address) : p.StaysIn c := by
  have hexecuted {i : Instruction} (hx : c.executed? = some i) : i = p.code[k] := by
    obtain ⟨-, -, -, hi⟩ := Core.current?_eq_some (Core.executed?_eq_some.mp hx).1
    rw [hi, h.word hk hpc, Instruction.ofWord_encode (hp.registers _ (List.getElem_mem hk))]
  refine ⟨fun _ => ⟨k, hk, hpc⟩, ?_, ?_⟩
  · intro hi lo src hx
    rw [← hexecuted hx] at hspare
    exact hspare _ _ rfl
  · intro src hx
    rw [← hexecuted hx] at hspare
    exact hspare _ _ rfl

theorem StandsIn.step (h : p.StandsIn c.memory) (hp : p.Encodable) (hc : p.StaysIn c) :
    p.StandsIn c.step.core.memory := by
  cases hx : c.executed? with
  | none =>
    rw [(Core.sameData_step_of_not_executed hx).memory]
    exact h
  | some i =>
    rw [(Core.sameData_step_of_executed hx).memory]
    cases i with
    | st hi lo src => exact h.write hp _ (hc.stores hi lo src hx)
    | push src => exact h.write hp _ (hc.pushes src hx)
    | _ => exact h

/-- The word of an instruction is carried out as the instruction. -/
theorem carryOut_encode {i : Instruction} (h : ∀ r ∈ i.registers, r.index.toNat < 16) (c : Core) :
    c.carryOut c.state.pc i.encode = takeUp c i := by
  have hzero := Instruction.encode_eq_zero_iff h
  have hread : Instruction.decode i.encode = .ok i := by
    rw [Instruction.decode_eq_ofWord, Instruction.ofWord_encode h]
  by_cases hi : i = .ldr ⟨0⟩ ⟨0⟩
  · rw [Core.carryOut, takeUp, if_pos (hzero.mpr hi), if_pos hi, hzero.mpr hi]
  · rw [Core.carryOut, takeUp, if_neg (mt hzero.mp hi), if_neg hi]
    cases heffect : i.effect c.layout c.memory c.state with
    | error fault => simp only [hread, heffect]
    | ok e => simp only [hread, heffect]

theorem step?_of_running (hp : p.Encodable) (running : c.state.status = .running) {k : Nat}
    (hk : k < p.code.length) (hpc : c.state.pc = p.program.addressOf k) :
    p.step? c = some (takeUp c p.code[k]) := by
  have hat : p.at? c.state.pc = some p.code[k] := by
    rw [hpc]
    exact at?_addressOf hp hk
  simp only [step?, running, hat, Option.map_some]

/-- Where the words of a routine stand, a step is a step through the routine. -/
theorem step?_eq (h : p.StandsIn c.memory) (hp : p.Encodable)
    (hfetch : c.state.status = .running →
      ∃ k < p.code.length, c.state.pc = p.program.addressOf k) : p.step? c = some c.step := by
  cases hstatus : c.state.status with
  | halted reason => simp only [step?, hstatus, Core.step_of_halted c hstatus]
  | faulted fault => simp only [step?, hstatus, Core.step_of_faulted c hstatus]
  | running =>
    obtain ⟨k, hk, hpc⟩ := hfetch hstatus
    have hregisters := hp.registers _ (List.getElem_mem hk)
    rw [step?_of_running hp hstatus hk hpc,
      Core.step_eq_carryOut hstatus (pc_ne_last hp hk hpc), h.word hk hpc,
      carryOut_encode hregisters]

end Routine

namespace Machine

/-- What the first steps of a machine answer. -/
def answers (m : Machine) (n : Nat) : List (Except MachineError Status) :=
  (List.range n).map fun k => (m.after k).step.1

theorem answers_succ (m : Machine) (n : Nat) :
    m.answers (n + 1) = m.answers n ++ [(m.after n).step.1] := by
  rw [answers, List.range_succ, List.map_append]
  rfl

theorem standsIn_after {p : Routine} (hp : p.Encodable) {m : Machine}
    (h : p.StandsIn m.core.memory) {n : Nat} (hstays : ∀ k < n, p.StaysIn (m.after k).core) :
    p.StandsIn (m.after n).core.memory := by
  -- The induction is on the steps: what the first of them leave standing, the next one keeps.
  induction n with
  | zero => exact h
  | succ n ih =>
    have hbefore := ih fun k hk => hstays k (by omega)
    exact hbefore.step hp (hstays n (by omega))

theorem run?_eq_after {p : Routine} (hp : p.Encodable) {m : Machine}
    (h : p.StandsIn m.core.memory) {n : Nat} (hstays : ∀ k < n, p.StaysIn (m.after k).core) :
    p.run? m.core n = some (m.answers n, (m.after n).core) := by
  induction n with
  | zero => rfl
  | succ n ih =>
    have hbefore := ih fun k hk => hstays k (by omega)
    have hstands := standsIn_after hp h fun k hk => hstays k (Nat.lt_succ_of_lt hk)
    have hstep := Routine.step?_eq hstands hp (hstays n (by omega)).fetches
    rw [Routine.run?, hbefore, answers_succ, answer_step]
    simp only [Option.bind_eq_bind, Option.bind_some, hstep]
    rfl

theorem exists_withProgram {p : Routine} (hp : p.Encodable) {layout : Layout}
    (hvalid : layout.validate = .ok ()) (tracing : Bool) (traceLimit : Nat) :
    ∃ m, withProgram p.program layout tracing traceLimit = .ok m ∧ m.core = p.start layout :=
  ⟨_, withProgram_of_fits hp.fits_program hvalid tracing traceLimit, rfl⟩

/-- A machine made for the words of a routine goes through the routine itself. As long as every
instruction is taken from the routine and nothing is written over its words, the steps give the
answers of the routine and leave its state and memory. -/
theorem runs_routine {p : Routine} (hp : p.Encodable) {layout : Layout}
    (hvalid : layout.validate = .ok ()) (tracing : Bool) (traceLimit : Nat) :
    ∃ m, withProgram p.program layout tracing traceLimit = .ok m ∧ m.core = p.start layout ∧
      ∀ n, (∀ k < n, p.StaysIn (m.after k).core) →
        p.run? (p.start layout) n = some (m.answers n, (m.after n).core) := by
  obtain ⟨m, hm, hcore⟩ := exists_withProgram hp hvalid tracing traceLimit
  have hstands : p.StandsIn m.core.memory := by
    rw [hcore]
    exact Routine.standsIn_start hp layout
  refine ⟨m, hm, hcore, ?_⟩
  intro n hstays
  rw [← hcore]
  exact run?_eq_after hp hstands hstays

/-- A push and a halt in the last two words of memory. -/
theorem runs_routine_to_last_word :
    let p : Routine := ⟨0xFFFC, [.push ⟨0⟩, .hlt]⟩
    ∃ m, withProgram p.program .standard true 4 = .ok m ∧
      m.answers 2 = [.ok .running, .ok (.halted .instruction)] ∧
      p.run? (p.start .standard) 2 = some (m.answers 2, (m.after 2).core) := by
  intro p
  have hp : p.Encodable := ⟨by decide, by decide⟩
  have hvalid : Layout.standard.validate = .ok () := rfl
  obtain ⟨m, hm, hcore, hrun⟩ := runs_routine hp hvalid true 4
  have hstands : p.StandsIn m.core.memory := by
    rw [hcore]
    exact Routine.standsIn_start hp .standard
  have hrunning : m.core.state.status = .running := by
    rw [hcore]
    rfl
  have hpc : m.core.state.pc = p.program.addressOf 0 := by
    rw [hcore]
    rfl
  have hfault : (Instruction.push ⟨0⟩).fault? m.core.layout m.core.state = none := by
    rw [hcore]
    decide
  have hsp : m.core.state.sp = 0xFF := by
    rw [hcore]
    rfl
  have hfirst : p.StaysIn m.core := by
    refine hstands.staysIn hp (by decide) hpc ?_
    rintro address value ⟨rfl, rfl⟩
    rw [hsp]
    decide
  have hpush := hstands.executed? hp hrunning (by decide) hpc (by decide) hfault
  have hnext : Core.nextWord? m.core.state.pc = some (p.program.addressOf 1) := by
    rw [hpc]
    rfl
  have hstep := Core.step_of_goesOn hpush rfl hnext
  have hbehind : (m.after 1).core.state.pc = p.program.addressOf 1 ∧
      (m.after 1).core.state.status = .running := by
    rw [core_after_succ, after, hstep]
    exact ⟨rfl, hrunning⟩
  have hstands₁ : p.StandsIn (m.after 1).core.memory := hstands.step hp hfirst
  have hsecond : p.StaysIn (m.after 1).core := by
    refine hstands₁.staysIn hp (by decide) hbehind.1 ?_
    intro address value hstore
    exact nomatch hstore
  have hhlt := hstands₁.executed? hp hbehind.2 (by decide) hbehind.1 (by decide) rfl
  have hstays : ∀ k < 2, p.StaysIn (m.after k).core := by
    intro k hk
    obtain rfl | rfl : k = 0 ∨ k = 1 := by omega
    · exact hfirst
    · exact hsecond
  have hanswers : m.answers 2 = [.ok .running, .ok (.halted .instruction)] := by
    rw [answers_succ, answers_succ, answer_step, answer_step, after, hstep,
      Core.step_of_executed hhlt, ← hrunning]
    rfl
  exact ⟨m, hm, hanswers, hrun 2 hstays⟩

end Machine

end ByteMachine
