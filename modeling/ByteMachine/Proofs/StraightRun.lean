import ByteMachine.Proofs.Budget
import ByteMachine.Proofs.Computation
import ByteMachine.Proofs.LatestCycles

/-!
Runs without jumps. A step that takes no jump moves control to the next word or stops the machine,
so the program counter only rises, and the end of memory bounds the run: it completes no more cycles
than there are words from where it starts. What the run writes on its way does not matter.
-/

namespace ByteMachine

namespace Core

variable {c : Core} {target : UInt16}

/-- The next step takes a jump to a target: it carries out an instruction that jumps there. -/
def Jumps (c : Core) (target : UInt16) : Prop :=
  ∃ i, c.executed? = some i ∧ i.JumpsTo c.state target

theorem toNat_of_nextWord? {pc next : UInt16} (h : nextWord? pc = some next) :
    next.toNat = pc.toNat + 2 := by
  unfold nextWord? at h
  split at h
  · next hlt =>
    obtain rfl := Option.some.inj h
    have hpc := UInt16.lt_iff_toNat_lt.mp hlt
    simp only [UInt16.reduceToNat] at hpc
    simp only [UInt16.toNat_add, UInt16.reduceToNat]
    omega
  · cases h

theorem pc_of_jumps (h : c.Jumps target) : c.step.core.state.pc = target := by
  obtain ⟨i, hx, hjump⟩ := h
  rw [step_of_executed hx, (Instruction.jump_of_outcome target).mpr hjump]
  rfl

/-- Behind a halt control stands at the next word, or stays where there is none. -/
theorem pc_halt (c : Core) (pc : UInt16) (reason : HaltReason) :
    (c.halt pc reason).state.pc = pc ∨ (c.halt pc reason).state.pc.toNat = pc.toNat + 2 := by
  change (nextWord? pc).getD pc = pc ∨ ((nextWord? pc).getD pc).toNat = pc.toNat + 2
  cases hnext : nextWord? pc with
  | none => exact .inl rfl
  | some next => exact .inr (toNat_of_nextWord? hnext)

/-- How control fares in the step of a running core. -/
inductive ControlCase (c : Core) : Prop
  | jumps (target : UInt16) (hj : c.Jumps target)
  | goesOn (hs : c.step.core.state.status = .running)
      (hpc : c.step.core.state.pc.toNat = c.state.pc.toNat + 2)
  | stops (hs : c.step.core.state.status ≠ .running)
      (hpc : c.step.core.state.pc = c.state.pc ∨
        c.step.core.state.pc.toNat = c.state.pc.toNat + 2)

theorem controlCase (running : c.state.status = .running) : ControlCase c := by
  cases hx : c.executed? with
  | none =>
    rcases step_of_not_executed running hx with ⟨word, fault, hs⟩ | hs
    · refine .stops ?_ (.inl ?_)
      · rw [hs]
        intro h
        cases h
      · rw [hs]
        rfl
    · refine .stops ?_ ?_
      · rw [hs]
        intro h
        cases h
      · rw [hs]
        exact c.pc_halt c.state.pc .zeroWord
  | some i =>
    have hs := step_of_executed hx
    obtain ⟨hpc, -, hstatus⟩ := Instruction.outcome_frame i c.memory c.state
    cases hflow : (i.outcome c.memory c.state).flow with
    | jump target => exact .jumps target ⟨i, hx, (Instruction.jump_of_outcome target).mp hflow⟩
    | halt =>
      rw [hflow] at hs
      refine .stops ?_ ?_
      · rw [hs]
        intro h
        cases h
      · rw [hs]
        exact (c.applied i).pc_halt c.state.pc .instruction
    | next =>
      rw [hflow, continueAs] at hs
      cases hnext : nextWord? c.state.pc with
      | some next =>
        rw [hnext] at hs
        refine .goesOn ?_ ?_
        · rw [hs]
          exact hstatus.trans running
        · rw [hs]
          exact toNat_of_nextWord? hnext
      | none =>
        rw [hnext] at hs
        refine .stops ?_ (.inl ?_)
        · rw [hs]
          intro h
          cases h
        · rw [hs]
          exact hpc

/-- Where a step takes no jump, the program counter stays or moves to the next word. -/
theorem pc_of_no_jump (h : ∀ target, ¬ c.Jumps target) :
    c.step.core.state.pc = c.state.pc ∨ c.step.core.state.pc.toNat = c.state.pc.toNat + 2 := by
  cases hstatus : c.state.status with
  | halted reason =>
    rw [step_of_halted c hstatus]
    exact .inl rfl
  | faulted fault =>
    rw [step_of_faulted c hstatus]
    exact .inl rfl
  | running =>
    rcases controlCase hstatus with ⟨target, hj⟩ | ⟨-, hpc⟩ | ⟨-, hpc⟩
    · exact absurd hj (h target)
    · exact .inr hpc
    · exact hpc

theorem jumps_of_pc_lt (h : c.step.core.state.pc < c.state.pc) :
    c.Jumps c.step.core.state.pc := by
  rw [UInt16.lt_iff_toNat_lt] at h
  by_cases hj : ∃ target, c.Jumps target
  · obtain ⟨target, hj⟩ := hj
    rw [pc_of_jumps hj]
    exact hj
  · rcases pc_of_no_jump fun target hjump => hj ⟨target, hjump⟩ with hpc | hpc
    · rw [hpc] at h
      omega
    · omega

end Core

/-- A cycle is completed only where there is a word, and none starts at the last address. -/
theorem Cycle.toNat_pc_lt {k : Cycle} (h : k.before.cycle? = some k) :
    k.before.state.pc.toNat < 65535 := by
  have hfetched := (genuine h).fetched
  have hne : k.before.state.pc.toNat ≠ 65535 := by
    intro heq
    have hlast : k.row.pc = 0xFFFF := UInt16.toNat_inj.mp heq
    rw [hlast, Memory.readWord?_last] at hfetched
    cases hfetched
  have hlt := k.before.state.pc.toNat_lt
  omega

namespace Machine

variable {m : Machine} {n : Nat}

/-- None of the first steps of a machine takes a jump. -/
def Straight (m : Machine) (n : Nat) : Prop :=
  ∀ k < n, ∀ target, ¬ (m.after k).core.Jumps target

/-- How many words there are from the program counter to the end of memory. -/
def wordsAhead (m : Machine) : Nat :=
  (memorySize - m.state.pc.toNat) / 2

theorem Straight.of_le (h : m.Straight n) {k : Nat} (hk : k ≤ n) : m.Straight k :=
  fun j hj => h j (Nat.lt_of_lt_of_le hj hk)

theorem running_of_running_succ (h : (m.after (n + 1)).status = .running) :
    (m.after n).status = .running := by
  by_cases running : (m.after n).status = .running
  · exact running
  · have hsame : m.after (n + 1) = m.after n := step_of_stopped running
    rwa [hsame] at h

/-- A machine that still runs behind steps without a jump has gone from word to word. -/
theorem Straight.toNat_pc (h : m.Straight n) (running : (m.after n).status = .running) :
    (m.after n).state.pc.toNat = m.state.pc.toNat + 2 * n := by
  induction n with
  | zero => rfl
  | succ n ih =>
    have before := running_of_running_succ running
    have hpc := ih (h.of_le (Nat.le_succ n)) before
    rcases Core.controlCase before with ⟨target, hj⟩ | ⟨-, hnext⟩ | ⟨hs, -⟩
    · exact absurd hj (h n (Nat.lt_succ_self n) target)
    · have hnext' : (m.after (n + 1)).state.pc.toNat = (m.after n).state.pc.toNat + 2 := hnext
      omega
    · exact absurd running hs

theorem length_cyclesWithin_le (m : Machine) (n : Nat) : (m.cyclesWithin n).length ≤ n := by
  have hle := List.length_filterMap_le (fun k => (m.after k).core.cycle?) (List.range n)
  rwa [List.length_range] at hle

theorem Straight.length_cyclesWithin (h : m.Straight n) :
    (m.cyclesWithin n).length ≤ m.wordsAhead := by
  induction n with
  | zero => exact Nat.zero_le _
  | succ n ih =>
    have hbefore := ih (h.of_le (Nat.le_succ n))
    rw [cyclesWithin_succ, List.length_append]
    rcases (m.after n).core.cycleCase with ⟨hk, -, -⟩ | ⟨running, hk, -, -⟩
    · rw [hk]
      exact hbefore
    · have hpc := (h.of_le (Nat.le_succ n)).toNat_pc running
      have hword := @Cycle.toNat_pc_lt ⟨_, _⟩ hk
      have hlength := m.length_cyclesWithin_le n
      have hsize : memorySize = 65536 := rfl
      change (m.after n).state.pc.toNat < 65535 at hword
      rw [hk, Option.toList_some, List.length_singleton, wordsAhead]
      omega

/-- Behind steps without a jump a machine runs for no longer than there are words ahead. -/
theorem Straight.stopped (h : m.Straight n) (hn : m.wordsAhead < n) :
    (m.after n).status ≠ .running := by
  intro running
  have hpc := h.toNat_pc running
  have hlt := (m.after n).state.pc.toNat_lt
  have hsize : memorySize = 65536 := rfl
  rw [wordsAhead] at hn
  omega

/-- A run that has come to its own end: the machine has halted and the answer says so, or it has
faulted and the answer is an error. -/
def IsOver (result : Except MachineError RunResult × Machine) : Prop :=
  (∃ r reason, result.1 = .ok r ∧ r.status = .halted reason ∧ result.2.status = .halted reason) ∨
    ∃ e fault, result.1 = .error e ∧ result.2.status = .faulted fault

variable {budget : UInt64}

/-- A budget larger than the words ahead is not used up by a run without jumps. -/
theorem Straight.advance_eq (h : m.Straight (m.wordsAhead + 1)) (hb : m.wordsAhead < budget.toNat) :
    m.advance budget.toNat = m.advance (m.wordsAhead + 1) := by
  obtain ⟨rest, hrest⟩ := Nat.exists_eq_add_of_le (Nat.succ_le_of_lt hb)
  have hsnd := m.advance_snd (m.wordsAhead + 1)
  rw [hrest, Nat.succ_eq_add_one, advance_add]
  cases hadvance : m.advance (m.wordsAhead + 1) with
  | mk answer m' =>
    cases answer with
    | error e => rfl
    | ok u =>
      rw [hadvance] at hsnd
      obtain rfl : m' = m.after (m.wordsAhead + 1) := hsnd
      exact advance_of_stopped (h.stopped (Nat.lt_succ_self _)) rest

theorem Straight.execute_snd (h : m.Straight (m.wordsAhead + 1))
    (hb : m.wordsAhead < budget.toNat) : (m.execute budget).2 = m.after (m.wordsAhead + 1) := by
  rw [Machine.execute_snd, h.advance_eq hb, advance_snd]

theorem Straight.isOver_execute (h : m.Straight (m.wordsAhead + 1)) (running : m.status = .running)
    (hb : m.wordsAhead < budget.toNat) : IsOver (m.execute budget) := by
  have hstopped := h.stopped (Nat.lt_succ_self _)
  rw [← h.execute_snd hb] at hstopped
  have hnot : ∀ fault, m.status ≠ .faulted fault := by simp [running]
  obtain ⟨n, -, ⟨-, -, hx⟩ | ⟨-, hrunning, e, he, hx⟩⟩ := execute_cases hnot budget
  · rcases running_or_halted_of_execute hx with hrunning | ⟨reason, hhalted⟩
    · rw [hx] at hstopped
      exact absurd hrunning hstopped
    · rw [hx]
      exact .inl ⟨_, reason, rfl, hhalted, hhalted⟩
  · obtain ⟨fault, hfault⟩ := Core.faulted_of_step_error hrunning he
    rw [hx]
    exact .inr ⟨e, fault, rfl, hfault⟩

/-- What holds of the steps of a machine as long as they take no jump, and of the program counter at
all of them. -/
structure EndsWithoutJump (m : Machine) : Prop where
  onward : ∀ n, m.Straight n → (m.after n).status = .running →
    (m.after n).state.pc.toNat = m.state.pc.toNat + 2 * n ∧ m.state.pc.toNat + 2 * n ≤ 0xFFFF
  cycles : ∀ n, m.Straight n → (m.cyclesWithin n).length ≤ (memorySize - m.state.pc.toNat) / 2
  counted : ∀ n, (m.after n).state.cycles
    = m.state.cycles + UInt64.ofNat (m.cyclesWithin n).length
  stopped : ∀ n, m.Straight n → (memorySize - m.state.pc.toNat) / 2 < n →
    (∃ reason, (m.after n).status = .halted reason) ∨ ∃ fault, (m.after n).status = .faulted fault
  jumps : ∀ n target, (m.after n).core.Jumps target → (m.after (n + 1)).state.pc = target
  rises : ∀ n, (∀ target, ¬ (m.after n).core.Jumps target) →
    (m.after (n + 1)).state.pc = (m.after n).state.pc ∨
      (m.after (n + 1)).state.pc.toNat = (m.after n).state.pc.toNat + 2
  falls : ∀ n, (m.after (n + 1)).state.pc < (m.after n).state.pc →
    (m.after n).core.Jumps (m.after (n + 1)).state.pc
  returns : m.Straight (m.wordsAhead + 1) →
    IsOver m.run ∧ m.run.2 = m.after (m.wordsAhead + 1) ∧
      ∀ budget : UInt64, m.wordsAhead < budget.toNat → m.execute budget = m.run

theorem halted_or_faulted (h : m.status ≠ .running) :
    (∃ reason, m.status = .halted reason) ∨ ∃ fault, m.status = .faulted fault := by
  cases hstatus : m.status with
  | running => exact absurd hstatus h
  | halted reason => exact .inl ⟨reason, rfl⟩
  | faulted fault => exact .inr ⟨fault, rfl⟩

theorem wordsAhead_lt_unbounded (m : Machine) : m.wordsAhead < unbounded.toNat := by
  have hsize : memorySize = 65536 := rfl
  have hunbounded : unbounded.toNat = 18446744073709551615 := rfl
  rw [wordsAhead]
  omega

/-- A running machine that takes no jump goes from word to word and stops where memory ends, at the
latest; and only a jump takes control to a lower address. -/
theorem endsWithoutJump {m : Machine} (running : m.status = .running) : m.EndsWithoutJump where
  onward n h hn := by
    have hpc := h.toNat_pc hn
    have hlt := (m.after n).state.pc.toNat_lt
    omega
  cycles _ h := h.length_cyclesWithin
  counted := m.cycles_after
  stopped _ h hn := halted_or_faulted (h.stopped hn)
  jumps _ _ h := Core.pc_of_jumps h
  rises _ h := Core.pc_of_no_jump h
  falls _ h := Core.jumps_of_pc_lt h
  returns h := by
    have hrun := m.wordsAhead_lt_unbounded
    refine ⟨h.isOver_execute running hrun, h.execute_snd hrun, ?_⟩
    intro budget hb
    have hnot : ∀ fault, m.status ≠ .faulted fault := by simp [running]
    rw [run, execute_of_not_faulted hnot, execute_of_not_faulted hnot, h.advance_eq hb,
      h.advance_eq hrun]

/-- The instruction `ldi r3, #7` at the odd address before the last word: control goes on to the
last address, where there is no word, and the run is over behind one cycle. -/
theorem endsWithoutJump_at_last_address :
    let m : Machine := ⟨{ Core.initial .standard with
      state.pc := 0xFFFD
      memory := (Memory.zero.write 0xFFFD 0xD3).write 0xFFFE 0x07 }, .empty false 16⟩
    m.status = .running ∧ m.EndsWithoutJump ∧ m.Straight 2 ∧ (m.after 1).state.pc = 0xFFFF ∧
      (m.cyclesWithin 2).length ≤ 1 ∧ IsOver m.run ∧ m.run.2 = m.after 2 := by
  intro m
  have hends : m.EndsWithoutJump := endsWithoutJump rfl
  have hx : m.core.executed? = some (.ldi ⟨3⟩ 7) := by
    have hword : m.core.word = 0xD307 := by
      change wordOfBytes (m.core.memory.read 0xFFFD) (m.core.memory.read 0xFFFE) = 0xD307
      simp (disch := decide) only [m, Memory.read_write_self, Memory.read_write_of_ne]
      rfl
    rw [Core.executed?, Core.current?, hword]
    rfl
  have hfirst : (m.after 1).state.pc = 0xFFFF := by
    have hs := Core.step_of_goesOn hx rfl rfl
    rw [state, core_after_succ, after, hs]
    rfl
  have hstraight : m.Straight 2 := by
    intro k hk target hjump
    obtain ⟨i, hi, hjump⟩ := hjump
    rcases Nat.le_one_iff_eq_zero_or_eq_one.mp (Nat.le_of_lt_succ hk) with rfl | rfl
    · obtain rfl := Option.some.inj (hx.symm.trans hi)
      obtain ⟨hi, lo, heq | ⟨heq, -⟩, -⟩ := hjump
      · cases heq
      · cases heq
    · rw [state] at hfirst
      exact (Core.current?_eq_some (Core.executed?_eq_some.mp hi).1).2.1 hfirst
  have hahead : m.wordsAhead = 1 := by
    have hpc : m.state.pc.toNat = 65533 := rfl
    have hsize : memorySize = 65536 := rfl
    unfold wordsAhead
    omega
  have hcycles := hends.cycles 2 hstraight
  change (m.cyclesWithin 2).length ≤ m.wordsAhead at hcycles
  have hreturns := hends.returns
  rw [hahead] at hcycles hreturns
  obtain ⟨hover, hrun, -⟩ := hreturns hstraight
  exact ⟨rfl, hends, hstraight, hfirst, hcycles, hover, hrun⟩

end Machine

end ByteMachine
