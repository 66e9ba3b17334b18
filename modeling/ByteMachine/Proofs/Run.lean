import ByteMachine.Machine

namespace ByteMachine.Machine

/-- The machine after a number of steps, whether they succeed or not. -/
def after (m : Machine) : Nat → Machine
  | 0 => m
  | n + 1 => (m.after n).step.2

theorem answer_step (m : Machine) : m.step.1 = m.core.step.answer :=
  rfl

theorem core_step (m : Machine) : m.step.2.core = m.core.step.core :=
  rfl

theorem trace_step (m : Machine) :
    m.step.2.trace = m.core.step.row?.elim m.trace m.trace.push :=
  rfl

theorem core_after_succ (m : Machine) (n : Nat) :
    (m.after (n + 1)).core = (m.after n).core.step.core :=
  rfl

theorem after_add (m : Machine) (a b : Nat) : m.after (a + b) = (m.after a).after b := by
  induction b with
  | zero => rfl
  | succ b ih => exact congrArg (fun m' : Machine => m'.step.2) ih

theorem after_succ (m : Machine) (n : Nat) : m.after (n + 1) = m.step.2.after n := by
  rw [Nat.add_comm, after_add]
  rfl

theorem after_preserves {P : Machine → Prop} (hstep : ∀ m, P m → P m.step.2) {m : Machine}
    (h : P m) (n : Nat) : P (m.after n) := by
  induction n with
  | zero => exact h
  | succ n ih => exact hstep _ ih

theorem step_of_halted {m : Machine} {reason : HaltReason} (h : m.status = .halted reason) :
    m.step = (.ok (.halted reason), m) := by
  have hs : m.core.step = { answer := .ok (.halted reason), core := m.core, row? := none } :=
    Core.step_of_halted m.core h
  simp only [step, hs]
  rfl

theorem step_of_faulted {m : Machine} {fault : Fault} (h : m.status = .faulted fault) :
    m.step = (.error (.faulted fault), m) := by
  have hs : m.core.step = { answer := .error (.faulted fault), core := m.core, row? := none } :=
    Core.step_of_faulted m.core h
  simp only [step, hs]
  rfl

theorem step_of_stopped {m : Machine} (h : m.status ≠ .running) : m.step.2 = m := by
  cases hstatus : m.status with
  | running => exact absurd hstatus h
  | halted reason => rw [step_of_halted hstatus]
  | faulted fault => rw [step_of_faulted hstatus]

theorem after_of_stopped {m : Machine} (h : m.status ≠ .running) (n : Nat) : m.after n = m := by
  induction n with
  | zero => rfl
  | succ n ih => rw [after_succ, step_of_stopped h, ih]

theorem advance_of_stopped {m : Machine} (h : m.status ≠ .running) (budget : Nat) :
    m.advance budget = (.ok (), m) := by
  have hstopped : m.status.isRunning = false := by
    cases hstatus : m.status with
    | running => exact absurd hstatus h
    | halted reason => rfl
    | faulted fault => rfl
  cases budget with
  | zero => rfl
  | succ budget => simp [advance, hstopped]

theorem advance_of_answer {m : Machine} {status : Status} (running : m.status = .running)
    (hs : m.step.1 = .ok status) (budget : Nat) :
    m.advance (budget + 1) = m.step.2.advance budget := by
  have hrunning : m.status.isRunning = true := by rw [running]; rfl
  have hstep : m.step = (.ok status, m.step.2) := Prod.ext hs rfl
  rw [advance, if_pos hrunning, hstep]

theorem advance_of_error {m : Machine} {e : MachineError} (running : m.status = .running)
    (hs : m.step.1 = .error e) (budget : Nat) : m.advance (budget + 1) = (.error e, m.step.2) := by
  have hrunning : m.status.isRunning = true := by rw [running]; rfl
  have hstep : m.step = (.error e, m.step.2) := Prod.ext hs rfl
  rw [advance, if_pos hrunning, hstep]

theorem advance_preserves {P : Machine → Prop} (hstep : ∀ m, P m → P m.step.2) {m : Machine}
    (h : P m) (budget : Nat) : P (m.advance budget).2 := by
  induction budget generalizing m with
  | zero => exact h
  | succ budget ih =>
    by_cases running : m.status = .running
    · cases hs : m.step.1 with
      | ok status =>
        rw [advance_of_answer running hs]
        exact ih (hstep m h)
      | error e =>
        rw [advance_of_error running hs]
        exact hstep m h
    · rw [advance_of_stopped running]
      exact h

theorem execute_of_faulted {m : Machine} {fault : Fault} (h : m.status = .faulted fault)
    (budget : UInt64) : m.execute budget = (.error (.faulted fault), m) := by
  simp only [execute, h]

theorem execute_of_not_faulted {m : Machine} (h : ∀ fault, m.status ≠ .faulted fault)
    (budget : UInt64) :
    m.execute budget =
      match m.advance budget.toNat with
      | (.ok (), m') => (.ok ⟨m'.state.cycles - m.state.cycles, m'.status⟩, m')
      | (.error e, m') => (.error e, m') := by
  cases hadvance : m.advance budget.toNat with
  | mk answer m' =>
    cases hstatus : m.status with
    | faulted fault => exact absurd hstatus (h fault)
    | running => cases answer <;> simp only [execute, hstatus, hadvance]
    | halted reason => cases answer <;> simp only [execute, hstatus, hadvance]

/-- A run with a budget leaves the machine that its steps lead to. -/
theorem execute_snd (m : Machine) (budget : UInt64) :
    (m.execute budget).2 = (m.advance budget.toNat).2 := by
  by_cases hm : ∀ fault, m.status ≠ .faulted fault
  · rw [execute_of_not_faulted hm]
    cases m.advance budget.toNat with
    | mk answer m' => cases answer <;> rfl
  · obtain ⟨fault, hfault⟩ : ∃ fault, m.status = .faulted fault := by simpa using hm
    rw [execute_of_faulted hfault, advance_of_stopped (by simp [hfault])]

end ByteMachine.Machine
