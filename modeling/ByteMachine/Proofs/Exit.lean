import ByteMachine.Proofs.Cycle
import ByteMachine.Proofs.Run

namespace ByteMachine

namespace Instruction

theorem outcome_flow_eq_halt_iff (i : Instruction) (memory : Memory) (s : State) :
    (i.outcome memory s).flow = .halt ↔ i = hlt := by
  cases i with
  | jz hi lo => cases hz : s.flags.isSet .zero <;> simp [outcome, hz]
  | _ => simp [outcome, Effect.ofState]

end Instruction

namespace Core

variable {c : Core}

/-- How the step of a running core ends. It fails before it has had an effect; it meets the word 0
or the instruction that halts it; control goes to a target behind its instruction, to the next word
or by a jump; or there is no word behind the instruction to go on with. -/
inductive Exit (c : Core) : Prop
  | failed (f : Failure) (hf : c.failure? = some f)
      (hs : c.step = c.failed c.state.pc f.word f.fault)
  | zeroWord (hs : c.step = (c.halt c.state.pc .zeroWord).completed c.state.pc c.word)
  | halted
      (hs : c.step
        = ((c.applied .hlt).halt c.state.pc .instruction).completed c.state.pc c.word)
  | moved (i : Instruction) (target : UInt16) (hi : i ≠ .hlt)
      (hs : c.step = ((c.applied i).goTo target).completed c.state.pc c.word)
  | ranOut (i : Instruction) (hi : i ≠ .hlt)
      (hs : c.step = (c.applied i).ranOut c.state.pc c.word)

theorem exit (running : c.state.status = .running) : Exit c := by
  by_cases hpc : c.state.pc = 0xFFFF
  · have hf : c.failure? = some ⟨(c.memory.read 0xFFFF).toUInt16 <<< 8, .endOfMemory, false⟩ := by
      rw [failure?, if_pos hpc]
    exact .failed _ hf (step_of_early_failure running hf rfl)
  by_cases hw : c.word = 0
  · have hs := step_of_zero_word running hpc hw
    rw [← hw] at hs
    exact .zeroWord hs
  have hi : c.current? = some (Instruction.ofWord c.word) := if_pos ⟨running, hpc, hw⟩
  cases hfault : (Instruction.ofWord c.word).fault? c.layout c.state with
  | some fault =>
    have hf : c.failure? = some ⟨c.word, fault, false⟩ := by
      simp only [failure?, if_neg hpc, if_neg hw, hfault]
    exact .failed _ hf (step_of_fault hi hfault)
  | none =>
    have hs := step_of_executed (executed?_eq_some.mpr ⟨hi, hfault⟩)
    generalize Instruction.ofWord c.word = i at hs
    cases hflow : (i.outcome c.memory c.state).flow with
    | halt =>
      rw [hflow] at hs
      obtain rfl := (i.outcome_flow_eq_halt_iff c.memory c.state).mp hflow
      exact .halted hs
    | jump target =>
      have hne : i ≠ .hlt := by
        rintro rfl
        cases hflow
      rw [hflow] at hs
      exact .moved i target hne hs
    | next =>
      have hne : i ≠ .hlt := by
        rintro rfl
        cases hflow
      rw [hflow, continueAs] at hs
      cases hnext : nextWord? c.state.pc with
      | some next =>
        rw [hnext] at hs
        exact .moved i next hne hs
      | none =>
        rw [hnext] at hs
        exact .ranOut i hne hs

/-- A running core whose step fails has faulted by it. -/
theorem faulted_of_step_error {e : MachineError} (running : c.state.status = .running)
    (h : c.step.answer = .error e) : ∃ fault, c.step.core.state.status = .faulted fault := by
  rcases exit running with ⟨f, -, hs⟩ | hs | hs | ⟨i, target, -, hs⟩ | ⟨i, -, hs⟩
  · rw [hs]
    exact ⟨f.fault, rfl⟩
  · rw [hs] at h
    cases h
  · rw [hs] at h
    cases h
  · rw [hs] at h
    cases h
  · rw [hs]
    exact ⟨.endOfMemory, rfl⟩

end Core

namespace Machine

/-- The steps behind the end of a run do nothing, so it leaves what all the steps of its budget
leave. -/
theorem advance_snd (m : Machine) (budget : Nat) : (m.advance budget).2 = m.after budget := by
  induction budget generalizing m with
  | zero => rfl
  | succ budget ih =>
    rw [after_succ]
    by_cases running : m.status = .running
    · cases hs : m.step.1 with
      | ok status => rw [advance_of_answer running hs, ih]
      | error e =>
        obtain ⟨fault, hfault⟩ : ∃ fault, m.step.2.status = .faulted fault :=
          Core.faulted_of_step_error running hs
        rw [advance_of_error running hs, after_of_stopped (by simp [hfault])]
    · rw [advance_of_stopped running, step_of_stopped running, after_of_stopped running]

end Machine

end ByteMachine
