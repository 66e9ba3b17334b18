import ByteMachine.Proofs.InPlace
import ByteMachine.Proofs.Memory

namespace ByteMachine

namespace Core

/-- The word at the program counter, counted round the end of memory. -/
def word (c : Core) : UInt16 :=
  c.memory.wordAt c.state.pc

/-- The instruction that the next step takes up, if it takes one up. -/
def current? (c : Core) : Option Instruction :=
  if c.state.status = .running ∧ c.state.pc ≠ 0xFFFF ∧ c.word ≠ 0 then
    some (Instruction.ofWord c.word)
  else none

/-- The instruction that the next step carries out: the one taken up, if it meets no fault. -/
def executed? (c : Core) : Option Instruction :=
  c.current?.filter fun i => (i.fault? c.layout c.state).isNone

def applied (c : Core) (i : Instruction) : Core :=
  c.apply (i.outcome c.memory c.state)

theorem current?_eq_some {c : Core} {i : Instruction} (h : c.current? = some i) :
    c.state.status = .running ∧ c.state.pc ≠ 0xFFFF ∧ c.word ≠ 0 ∧
      i = Instruction.ofWord c.word := by
  unfold current? at h
  split at h
  · next hc => exact ⟨hc.1, hc.2.1, hc.2.2, (Option.some.inj h).symm⟩
  · exact absurd h (by simp)

theorem executed?_eq_some {c : Core} {i : Instruction} :
    c.executed? = some i ↔ c.current? = some i ∧ i.fault? c.layout c.state = none := by
  simp [executed?, Option.filter_eq_some_iff]

theorem valid_of_executed {c : Core} {i : Instruction} (h : c.executed? = some i) :
    ∀ r ∈ i.registers, r.isValid = true :=
  ((Instruction.fault?_eq_none_iff _ _ _).mp (executed?_eq_some.mp h).2).1

theorem step_at_last {c : Core} (running : c.state.status = .running) (hpc : c.state.pc = 0xFFFF) :
    c.step = c.failed c.state.pc (wordOfBytes (c.memory.read c.state.pc) 0) .endOfMemory := by
  simp only [step, running, hpc, Memory.readWord?_last]

theorem step_eq_carryOut {c : Core} (running : c.state.status = .running)
    (hpc : c.state.pc ≠ 0xFFFF) : c.step = c.carryOut c.state.pc c.word := by
  simp only [step, running, Memory.readWord?_of_ne_last c.memory hpc, word]

theorem step_of_zero_word {c : Core} (running : c.state.status = .running)
    (hpc : c.state.pc ≠ 0xFFFF) (hw : c.word = 0) :
    c.step = (c.halt c.state.pc .zeroWord).completed c.state.pc 0 := by
  rw [step_eq_carryOut running hpc, carryOut, if_pos hw, hw]

theorem step_of_fault {c : Core} {i : Instruction} {fault : Fault} (hi : c.current? = some i)
    (hf : i.fault? c.layout c.state = some fault) : c.step = c.failed c.state.pc c.word fault := by
  obtain ⟨running, hpc, hw, rfl⟩ := current?_eq_some hi
  rw [step_eq_carryOut running hpc, carryOut, if_neg hw, Instruction.decode_eq_ofWord]
  simp only [Instruction.effect_of_fault? c.memory hf]

theorem step_of_executed {c : Core} {i : Instruction} (h : c.executed? = some i) :
    c.step = (c.applied i).continueAs (i.outcome c.memory c.state).flow c.state.pc c.word := by
  obtain ⟨hi, hf⟩ := executed?_eq_some.mp h
  obtain ⟨running, hpc, hw, rfl⟩ := current?_eq_some hi
  rw [step_eq_carryOut running hpc, carryOut, if_neg hw, Instruction.decode_eq_ofWord]
  simp only [Instruction.effect_of_no_fault c.memory hf, applied]

/-- A running core that carries out no instruction fails as it is, or it stops at the word 0. -/
theorem step_of_not_executed {c : Core} (running : c.state.status = .running)
    (h : c.executed? = none) :
    (∃ word fault, c.step = c.failed c.state.pc word fault) ∨
      c.step = (c.halt c.state.pc .zeroWord).completed c.state.pc 0 := by
  by_cases hpc : c.state.pc = 0xFFFF
  · exact .inl ⟨_, _, step_at_last running hpc⟩
  by_cases hw : c.word = 0
  · exact .inr (step_of_zero_word running hpc hw)
  have hi : c.current? = some (Instruction.ofWord c.word) := if_pos ⟨running, hpc, hw⟩
  cases hf : (Instruction.ofWord c.word).fault? c.layout c.state with
  | none => exact absurd (h.symm.trans (executed?_eq_some.mpr ⟨hi, hf⟩)) (by simp)
  | some fault => exact .inl ⟨_, fault, step_of_fault hi hf⟩

structure SameData (c d : Core) : Prop where
  layout : d.layout = c.layout
  memory : d.memory = c.memory
  registers : d.state.registers = c.state.registers
  sp : d.state.sp = c.state.sp

theorem sameData_continueAs (c : Core) (flow : Flow) (pc word : UInt16) :
    SameData c (c.continueAs flow pc word).core := by
  cases flow with
  | jump target => exact ⟨rfl, rfl, rfl, rfl⟩
  | halt => exact ⟨rfl, rfl, rfl, rfl⟩
  | next =>
    unfold continueAs
    cases nextWord? pc with
    | none => exact ⟨rfl, rfl, rfl, rfl⟩
    | some next => exact ⟨rfl, rfl, rfl, rfl⟩

theorem sameData_step_of_executed {c : Core} {i : Instruction} (h : c.executed? = some i) :
    SameData (c.applied i) c.step.core := by
  rw [step_of_executed h]
  exact sameData_continueAs _ _ _ _

theorem sameData_step_of_not_executed {c : Core} (h : c.executed? = none) :
    SameData c c.step.core := by
  cases running : c.state.status with
  | halted reason =>
    rw [step_of_halted c running]
    exact ⟨rfl, rfl, rfl, rfl⟩
  | faulted fault =>
    rw [step_of_faulted c running]
    exact ⟨rfl, rfl, rfl, rfl⟩
  | running =>
    rcases step_of_not_executed running h with ⟨word, fault, hs⟩ | hs
    · rw [hs]
      exact ⟨rfl, rfl, rfl, rfl⟩
    · rw [hs]
      exact ⟨rfl, rfl, rfl, rfl⟩

theorem layout_step (c : Core) : c.step.core.layout = c.layout := by
  cases hx : c.executed? with
  | none => exact (sameData_step_of_not_executed hx).layout
  | some i => exact (sameData_step_of_executed hx).layout

theorem nextWord?_eq_none_iff {pc : UInt16} (h : pc ≠ 0xFFFF) :
    nextWord? pc = none ↔ pc = 0xFFFE := by
  have hpc : pc.toNat ≠ 65535 := fun e => h (UInt16.toNat_inj.mp e)
  have hlt := pc.toNat_lt
  simp only [nextWord?, ite_eq_right_iff, reduceCtorEq, imp_false, UInt16.lt_iff_toNat_lt,
    ← UInt16.toNat_inj, UInt16.reduceToNat]
  omega

theorem continueAs_of_goesOn_last (c : Core) (i : Instruction) (pc word : UInt16)
    (hpc : pc ≠ 0xFFFF) (h : pc = 0xFFFE ∧ i.goesOn c.state = true) :
    (c.applied i).continueAs (i.outcome c.memory c.state).flow pc word
      = (c.applied i).ranOut pc word := by
  have hflow := (Instruction.outcome_flow_eq_next_iff i c.memory c.state).mpr h.2
  simp only [continueAs, hflow, (nextWord?_eq_none_iff hpc).mpr h.1]

theorem continueAs_of_not_goesOn_last (c : Core) (i : Instruction) (pc word : UInt16)
    (hpc : pc ≠ 0xFFFF) (h : ¬ (pc = 0xFFFE ∧ i.goesOn c.state = true)) :
    ∃ status, ((c.applied i).continueAs (i.outcome c.memory c.state).flow pc word).answer
      = .ok status := by
  cases hflow : (i.outcome c.memory c.state).flow with
  | jump target => exact ⟨_, rfl⟩
  | halt => exact ⟨_, rfl⟩
  | next =>
    have hon := (Instruction.outcome_flow_eq_next_iff i c.memory c.state).mp hflow
    cases hnext : nextWord? pc with
    | none => exact absurd ⟨(nextWord?_eq_none_iff hpc).mp hnext, hon⟩ h
    | some next =>
      refine ⟨(((c.applied i).goTo next).completed pc word).core.state.status, ?_⟩
      simp only [continueAs, hnext, completed]
      rfl

theorem step_of_goesOn {c : Core} {i : Instruction} (hx : c.executed? = some i)
    (hon : i.goesOn c.state = true) {next : UInt16} (hnext : nextWord? c.state.pc = some next) :
    c.step = ((c.applied i).goTo next).completed c.state.pc c.word := by
  have hflow := (Instruction.outcome_flow_eq_next_iff i c.memory c.state).mpr hon
  rw [step_of_executed hx, hflow]
  simp only [continueAs, hnext]

end Core

/-- How a cycle fails: the word and the fault that it reports, and whether its instruction has been
carried out by then. -/
structure Failure where
  word : UInt16
  fault : Fault
  late : Bool

namespace Core

/-- How the next cycle of a running core fails, if it does. The tests stand in order: the first that
a core fails decides. -/
def failure? (c : Core) : Option Failure :=
  if c.state.pc = 0xFFFF then
    some ⟨(c.memory.read 0xFFFF).toUInt16 <<< 8, .endOfMemory, false⟩
  else if c.word = 0 then none
  else
    let i := Instruction.ofWord c.word
    match i.fault? c.layout c.state with
    | some fault => some ⟨c.word, fault, false⟩
    | none =>
      if c.state.pc = 0xFFFE ∧ i.goesOn c.state = true then some ⟨c.word, .endOfMemory, true⟩
      else none

/-- The ways that a running core steps. -/
inductive StepCase (c : Core) : Prop
  | early (word : UInt16) (fault : Fault) (hf : c.failure? = some ⟨word, fault, false⟩)
      (hs : c.step = c.failed c.state.pc word fault)
  | late (i : Instruction) (hi : c.executed? = some i)
      (hf : c.failure? = some ⟨c.word, .endOfMemory, true⟩)
      (hs : c.step = (c.applied i).ranOut c.state.pc c.word)
  | answers (status : Status) (hf : c.failure? = none) (hs : c.step.answer = .ok status)

theorem stepCase {c : Core} (running : c.state.status = .running) : StepCase c := by
  by_cases hpc : c.state.pc = 0xFFFF
  · refine .early _ .endOfMemory (by rw [failure?, if_pos hpc]) ?_
    rw [step_at_last running hpc, wordOfBytes_zero, hpc]
  by_cases hw : c.word = 0
  · exact .answers _ (by rw [failure?, if_neg hpc, if_pos hw])
      (by rw [step_of_zero_word running hpc hw]; rfl)
  have hi : c.current? = some (Instruction.ofWord c.word) := by
    rw [current?, if_pos ⟨running, hpc, hw⟩]
  have hdef : c.failure? =
      match (Instruction.ofWord c.word).fault? c.layout c.state with
      | some fault => some ⟨c.word, fault, false⟩
      | none =>
        if c.state.pc = 0xFFFE ∧ (Instruction.ofWord c.word).goesOn c.state = true then
          some ⟨c.word, .endOfMemory, true⟩
        else none := by
    rw [failure?, if_neg hpc, if_neg hw]
  cases hf : (Instruction.ofWord c.word).fault? c.layout c.state with
  | some fault => exact .early c.word fault (by rw [hdef, hf]) (step_of_fault hi hf)
  | none =>
    have hx := executed?_eq_some.mpr ⟨hi, hf⟩
    have hs := step_of_executed hx
    by_cases hlast : c.state.pc = 0xFFFE ∧ (Instruction.ofWord c.word).goesOn c.state = true
    · rw [continueAs_of_goesOn_last c _ _ _ hpc hlast] at hs
      exact .late _ hx (by rw [hdef, hf]; exact if_pos hlast) hs
    · obtain ⟨status, ha⟩ := continueAs_of_not_goesOn_last c _ c.state.pc c.word hpc hlast
      exact .answers status (by rw [hdef, hf]; exact if_neg hlast) (by rw [hs, ha])

theorem step_answer_eq_error_iff {c : Core} (running : c.state.status = .running)
    (e : MachineError) :
    c.step.answer = .error e ↔ ∃ f, c.failure? = some f ∧
      e = .execution c.state.pc f.word (Fields.ofWord f.word) f.fault := by
  have hfailed (f : Failure) (hf : c.failure? = some f)
      (hs : c.step.answer = .error (.execution c.state.pc f.word (Fields.ofWord f.word) f.fault)) :
      c.step.answer = .error e ↔ ∃ f, c.failure? = some f ∧
        e = .execution c.state.pc f.word (Fields.ofWord f.word) f.fault := by
    rw [hs]
    refine ⟨fun h => ⟨f, hf, (Except.error.inj h).symm⟩, ?_⟩
    rintro ⟨f', hf', rfl⟩
    rw [Option.some.inj (hf.symm.trans hf')]
  rcases stepCase running with ⟨word, fault, hf, hs⟩ | ⟨i, hi, hf, hs⟩ | ⟨status, hf, hs⟩
  · exact hfailed _ hf (by rw [hs]; rfl)
  · exact hfailed _ hf (by rw [hs]; rfl)
  · rw [hs, hf]
    simp

theorem step_of_early_failure {c : Core} (running : c.state.status = .running) {f : Failure}
    (hf : c.failure? = some f) (early : f.late = false) :
    c.step = c.failed c.state.pc f.word f.fault := by
  rcases stepCase running with ⟨word, fault, hf', hs⟩ | ⟨i, hi, hf', hs⟩ | ⟨status, hf', hs⟩
  · obtain rfl := Option.some.inj (hf.symm.trans hf')
    exact hs
  · obtain rfl := Option.some.inj (hf.symm.trans hf')
    exact absurd early (by simp)
  · exact absurd (hf.symm.trans hf') (by simp)

theorem step_of_late_failure {c : Core} (running : c.state.status = .running) {f : Failure}
    (hf : c.failure? = some f) (late : f.late = true) :
    f = ⟨c.word, .endOfMemory, true⟩ ∧ c.executed? = some (Instruction.ofWord c.word) ∧
      c.step = (c.applied (Instruction.ofWord c.word)).ranOut c.state.pc c.word := by
  rcases stepCase running with ⟨word, fault, hf', hs⟩ | ⟨i, hi, hf', hs⟩ | ⟨status, hf', hs⟩
  · obtain rfl := Option.some.inj (hf.symm.trans hf')
    exact absurd late (by simp)
  · obtain ⟨-, -, -, rfl⟩ := current?_eq_some (executed?_eq_some.mp hi).1
    exact ⟨Option.some.inj (hf.symm.trans hf'), hi, hs⟩
  · exact absurd (hf.symm.trans hf') (by simp)

/-- A cycle that is answered has been completed, with the machine still running or halted by its
instruction. -/
theorem continueAs_of_answer {c : Core} {flow : Flow} {pc word : UInt16} {status : Status}
    (h : (c.continueAs flow pc word).answer = .ok status) :
    ∃ d : Core, c.continueAs flow pc word = d.completed pc word ∧ d.state.cycles = c.state.cycles ∧
      (d.state.status = c.state.status ∨ d.state.status = .halted .instruction) := by
  cases flow with
  | jump target => exact ⟨c.goTo target, rfl, rfl, .inl rfl⟩
  | halt => exact ⟨c.halt pc .instruction, rfl, rfl, .inr rfl⟩
  | next =>
    unfold continueAs at h ⊢
    cases hnext : nextWord? pc with
    | some next => exact ⟨c.goTo next, rfl, rfl, .inl rfl⟩
    | none =>
      rw [hnext] at h
      exact absurd h (by simp [ranOut, failed])

/-- A running core that answers a step has completed one more cycle, and it runs on or has halted.
-/
theorem step_of_answer {c : Core} (running : c.state.status = .running) {status : Status}
    (h : c.step.answer = .ok status) :
    c.step.core.state.cycles = c.state.cycles + 1 ∧ c.step.core.state.status = status ∧
      (status = .running ∨ ∃ reason, status = .halted reason) := by
  have hcompleted (d : Core) (pc word : UInt16) (hd : c.step = d.completed pc word)
      (hcycles : d.state.cycles = c.state.cycles)
      (hstatus : d.state.status = .running ∨ ∃ reason, d.state.status = .halted reason) :
      c.step.core.state.cycles = c.state.cycles + 1 ∧ c.step.core.state.status = status ∧
        (status = .running ∨ ∃ reason, status = .halted reason) := by
    rw [hd] at h ⊢
    obtain rfl : d.state.status = status := Except.ok.inj h
    refine ⟨?_, rfl, hstatus⟩
    rw [← hcycles]
    rfl
  by_cases hpc : c.state.pc = 0xFFFF
  · rw [step_at_last running hpc] at h
    exact absurd h (by simp [failed])
  by_cases hw : c.word = 0
  · exact hcompleted _ _ _ (step_of_zero_word running hpc hw) rfl (.inr ⟨_, rfl⟩)
  have hi : c.current? = some (Instruction.ofWord c.word) := if_pos ⟨running, hpc, hw⟩
  cases hf : (Instruction.ofWord c.word).fault? c.layout c.state with
  | some fault =>
    rw [step_of_fault hi hf] at h
    exact absurd h (by simp [failed])
  | none =>
    have hs := step_of_executed (executed?_eq_some.mpr ⟨hi, hf⟩)
    obtain ⟨-, hcycles, hstatus⟩ :=
      Instruction.outcome_frame (Instruction.ofWord c.word) c.memory c.state
    rw [hs] at h
    obtain ⟨d, hd, hdcycles, hdstatus⟩ := continueAs_of_answer h
    refine hcompleted d _ _ (hs.trans hd) (hdcycles.trans hcycles) ?_
    rcases hdstatus with hsame | hhalt
    · exact .inl (hsame.trans (hstatus.trans running))
    · exact .inr ⟨_, hhalt⟩

theorem core_ranOut (c : Core) (i : Instruction) (word : UInt16) :
    ((c.applied i).ranOut c.state.pc word).core = {
      layout := c.layout
      state := { (i.outcome c.memory c.state).state with
        pc := c.state.pc
        cycles := c.state.cycles + 1
        status := .faulted .endOfMemory }
      memory := c.memory.store (i.outcome c.memory c.state).store? } := by
  obtain ⟨hpc, hcycles, -⟩ := Instruction.outcome_frame i c.memory c.state
  rw [← hpc, ← hcycles]
  rfl

end Core

namespace Machine

/-- The step of a running machine fails exactly if a test of the cycle does, with the fault of the
first such test. The machine is then as before but for its status; at the last word, behind which
there is no other, the instruction has had its effect and the cycle counts. It comes to the same
where the instruction and the step change the machine itself, one access after the other: before a
fault of the instruction nothing has been changed. -/
theorem step_fails_exactly (m : Machine) (running : m.status = .running) :
    (∀ e, m.step.1 = .error e ↔ ∃ f, m.core.failure? = some f ∧
      e = .execution m.state.pc f.word (Fields.ofWord f.word) f.fault) ∧
    (∀ f, m.core.failure? = some f → f.late = false →
      m.step.2 = { m with core.state.status := .faulted f.fault }) ∧
    (∀ f, m.core.failure? = some f → f.late = true →
      ∃ e, (Instruction.ofWord f.word).effect m.layout m.memory m.state = .ok e ∧
        m.step.2.core = {
          layout := m.layout
          state := { e.state with
            pc := m.state.pc
            cycles := m.state.cycles + 1
            status := .faulted f.fault }
          memory := m.memory.store e.store? } ∧
        m.step.2.trace = m.trace.push (.ofState m.step.2.state m.state.pc f.word) ∧
        m.step.2.trace.rows =
          if m.trace.enabled then
            (m.trace.rows ++ [TraceRow.ofState m.step.2.state m.state.pc f.word]).drop
              (m.trace.rows.length + 1 - m.trace.limit)
          else m.trace.rows) ∧
    (∀ i : Instruction, (Work.carryOut i).perform m.device =
      match i.effect m.layout m.memory m.state with
      | .error fault => (.error fault, m.device)
      | .ok e => (.ok e.flow, { m.device with core := m.core.apply e })) ∧
    Work.step.perform m.device = (m.step.1, m.step.2.device) := by
  have hstep : m.step = (m.core.step.answer,
      { core := m.core.step.core, trace := m.core.step.row?.elim m.trace m.trace.push }) := rfl
  have hinstruction (i : Instruction) := Work.perform_carryOut i m.device
  refine ⟨fun e => Core.step_answer_eq_error_iff running e, ?_, ?_, hinstruction,
    Work.perform_step m⟩
  · intro f hf early
    rw [hstep, Core.step_of_early_failure running hf early]
    rfl
  · intro f hf late
    obtain ⟨rfl, hi, hs⟩ := Core.step_of_late_failure running hf late
    have htrace : m.step.2.trace
        = m.trace.push (.ofState m.step.2.state m.state.pc m.core.word) := by
      rw [hstep, hs]
      rfl
    have hfault := (Core.executed?_eq_some.mp hi).2
    refine ⟨_, Instruction.effect_of_no_fault m.memory hfault, ?_, htrace, ?_⟩
    · rw [hstep, hs]
      exact Core.core_ranOut m.core _ m.core.word
    · rw [htrace, Trace.rows_push_eq]

/-- The instruction `ldi r3, #7` at the last word: r3 is loaded, the cycle counts, and the step
fails. -/
theorem step_fails_behind_last_word :
    let m : Machine := ⟨{ Core.initial .standard with
      state.pc := 0xFFFE
      memory := (Memory.zero.write 0xFFFE 0xD3).write 0xFFFF 0x07 }, .empty true 4⟩
    m.step.1 = .error (.execution 0xFFFE 0xD307 ⟨13, 3, 0, 7, 7⟩ .endOfMemory) ∧
      m.step.2.state.registers = #v[0, 0, 0, 7, 0, 0, 0, 0] ∧ m.step.2.state.cycles = 1 ∧
      m.step.2.state.pc = 0xFFFE ∧ m.step.2.trace.rows.length = 1 := by
  intro m
  have hword : m.core.word = 0xD307 := by
    have hhi : m.memory.read 0xFFFE = 0xD3 := by
      rw [show m.memory = (Memory.zero.write 0xFFFE 0xD3).write 0xFFFF 0x07 from rfl,
        Memory.read_write_of_ne _ _ (by decide), Memory.read_write_self]
    have hlo : m.memory.read 0xFFFF = 0x07 := Memory.read_write_self _ _ _
    show wordOfBytes (m.memory.read 0xFFFE) (m.memory.read 0xFFFF) = 0xD307
    rw [hhi, hlo]
    rfl
  have hf : m.core.failure? = some ⟨0xD307, .endOfMemory, true⟩ := by
    rw [Core.failure?, hword]
    rfl
  obtain ⟨hanswer, -, hlate, -, -⟩ := step_fails_exactly m rfl
  obtain ⟨e, he, hcore, -, hrows⟩ := hlate _ hf rfl
  obtain rfl : _ = e := Except.ok.inj he
  refine ⟨(hanswer _).mpr ⟨_, hf, rfl⟩, ?_, ?_, ?_, ?_⟩
  · rw [Machine.state, hcore]
    rfl
  · rw [Machine.state, hcore]
    rfl
  · rw [Machine.state, hcore]
    rfl
  · rw [hrows]
    rfl

end Machine

end ByteMachine
