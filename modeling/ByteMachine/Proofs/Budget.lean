import ByteMachine.Proofs.Cycle
import ByteMachine.Proofs.Run
import Mathlib.Algebra.Group.Nat.Defs

namespace ByteMachine.Machine

theorem step_of_answer {m : Machine} {status : Status} (running : m.status = .running)
    (h : m.step.1 = .ok status) :
    m.step.2.state.cycles = m.state.cycles + 1 ∧ m.step.2.status = status ∧
      (status = .running ∨ ∃ reason, status = .halted reason) :=
  Core.step_of_answer running h

/-- The first steps of a run are each taken by a running machine, and none of them fails. -/
def Completes (m : Machine) (n : Nat) : Prop :=
  ∀ k < n, (m.after k).status = .running ∧ ∃ status, (m.after k).step.1 = .ok status

theorem completes_zero (m : Machine) : m.Completes 0 := by
  intro k hk
  omega

theorem Completes.succ {m : Machine} {n : Nat} {status : Status} (running : m.status = .running)
    (hs : m.step.1 = .ok status) (h : m.step.2.Completes n) : m.Completes (n + 1) := by
  intro k hk
  cases k with
  | zero => exact ⟨running, status, hs⟩
  | succ k =>
    rw [after_succ]
    exact h k (by omega)

/-- Each of the steps counts one cycle. -/
theorem Completes.cycles {m : Machine} {n : Nat} (h : m.Completes n) :
    (m.after n).state.cycles = m.state.cycles + UInt64.ofNat n := by
  induction n with
  | zero => simp [after]
  | succ n ih =>
    obtain ⟨running, status, hs⟩ := h n (by omega)
    have hbefore := ih fun k hk => h k (by omega)
    have hstep : (m.after (n + 1)).state.cycles = (m.after n).state.cycles + 1 :=
      (step_of_answer running hs).1
    rw [hstep, hbefore, UInt64.add_assoc, UInt64.ofNat_add]
    rfl

/-- A machine that has not faulted runs on or has halted behind steps that do not fail. -/
theorem Completes.running_or_halted {m : Machine} {n : Nat} (h : m.Completes n)
    (hm : ∀ fault, m.status ≠ .faulted fault) :
    (m.after n).status = .running ∨ ∃ reason, (m.after n).status = .halted reason := by
  cases n with
  | zero =>
    cases hstatus : m.status with
    | running => exact .inl hstatus
    | halted reason => exact .inr ⟨reason, hstatus⟩
    | faulted fault => exact absurd hstatus (hm fault)
  | succ n =>
    obtain ⟨running, status, hs⟩ := h n (by omega)
    obtain ⟨-, hstatus, hkind⟩ := step_of_answer running hs
    rcases hkind with rfl | ⟨reason, rfl⟩
    · exact .inl hstatus
    · exact .inr ⟨reason, hstatus⟩

/-- How the steps of a run come to an end: the budget is spent or the machine has stopped, or a step
fails before that. -/
inductive Ends (m : Machine) (budget : Nat) : Except MachineError Unit × Machine → Prop
  | stopped (n : Nat) (hn : n ≤ budget) (hc : m.Completes n)
      (hstop : n = budget ∨ (m.after n).status ≠ .running) : Ends m budget (.ok (), m.after n)
  | failed (n : Nat) (e : MachineError) (hn : n < budget) (hc : m.Completes n)
      (running : (m.after n).status = .running) (he : (m.after n).step.1 = .error e) :
      Ends m budget (.error e, m.after (n + 1))

theorem Ends.of_step {m : Machine} {budget : Nat} {status : Status}
    {result : Except MachineError Unit × Machine} (running : m.status = .running)
    (hs : m.step.1 = .ok status) (h : Ends m.step.2 budget result) :
    Ends m (budget + 1) result := by
  cases h with
  | stopped n hn hc hstop =>
    rw [← after_succ] at hstop ⊢
    refine .stopped (n + 1) (by omega) (hc.succ running hs) ?_
    rcases hstop with hspent | hstatus
    · exact .inl (by omega)
    · exact .inr hstatus
  | failed n e hn hc hrunning he =>
    rw [← after_succ] at hrunning he ⊢
    exact .failed (n + 1) e (by omega) (hc.succ running hs) hrunning he

theorem ends_advance (m : Machine) (budget : Nat) : Ends m budget (m.advance budget) := by
  -- The induction is on the budget; the run behind its first step is that of the machine it leaves.
  induction budget generalizing m with
  | zero => exact .stopped 0 (Nat.le_refl 0) m.completes_zero (.inl rfl)
  | succ budget ih =>
    by_cases running : m.status = .running
    · cases hs : m.step.1 with
      | ok status =>
        rw [advance_of_answer running hs]
        exact (ih m.step.2).of_step running hs
      | error e =>
        rw [advance_of_error running hs]
        exact .failed 0 e (Nat.succ_pos budget) m.completes_zero running hs
    · rw [advance_of_stopped running]
      exact .stopped 0 (Nat.zero_le _) m.completes_zero (.inr running)

/-- How a run with a budget ends on a machine that has not faulted. -/
theorem execute_cases {m : Machine} (h : ∀ fault, m.status ≠ .faulted fault) (budget : UInt64) :
    ∃ n, m.Completes n ∧
      ((n ≤ budget.toNat ∧ (n = budget.toNat ∨ (m.after n).status ≠ .running) ∧
          m.execute budget = (.ok ⟨UInt64.ofNat n, (m.after n).status⟩, m.after n)) ∨
        (n < budget.toNat ∧ (m.after n).status = .running ∧
          ∃ e, (m.after n).step.1 = .error e ∧
            m.execute budget = (.error e, m.after (n + 1)))) := by
  have hexecute := execute_of_not_faulted h budget
  have hends := ends_advance m budget.toNat
  generalize m.advance budget.toNat = result at hexecute hends
  cases hends with
  | stopped n hn hc hstop =>
    refine ⟨n, hc, .inl ⟨hn, hstop, ?_⟩⟩
    rw [hexecute]
    dsimp only
    rw [hc.cycles, UInt64.add_comm, UInt64.add_sub_cancel]
  | failed n e hn hc running he => exact ⟨n, hc, .inr ⟨hn, running, e, he, hexecute⟩⟩

/-- Spends a further budget where a run has come to. Behind a failure nothing is spent. -/
def resume (budget : Nat) : Except MachineError Unit × Machine → Except MachineError Unit × Machine
  | (.ok (), m) => m.advance budget
  | (.error e, m) => (.error e, m)

theorem advance_add (m : Machine) (a b : Nat) : m.advance (a + b) = resume b (m.advance a) := by
  induction a generalizing m with
  | zero =>
    rw [Nat.zero_add]
    rfl
  | succ a ih =>
    rw [Nat.add_right_comm]
    by_cases running : m.status = .running
    · cases hs : m.step.1 with
      | ok status =>
        rw [advance_of_answer running hs, advance_of_answer running hs]
        exact ih m.step.2
      | error e =>
        rw [advance_of_error running hs, advance_of_error running hs]
        rfl
    · rw [advance_of_stopped running, advance_of_stopped running]
      exact (advance_of_stopped running b).symm

theorem not_faulted_of_execute {m m' : Machine} {budget : UInt64} {r : RunResult}
    (h : m.execute budget = (.ok r, m')) : ∀ fault, m.status ≠ .faulted fault := by
  intro fault hfault
  rw [execute_of_faulted hfault] at h
  exact absurd h (by simp)

theorem advance_of_execute_ok {m m' : Machine} {budget : UInt64} {r : RunResult}
    (h : m.execute budget = (.ok r, m')) :
    m.advance budget.toNat = (.ok (), m') ∧
      r = ⟨m'.state.cycles - m.state.cycles, m'.status⟩ := by
  rw [execute_of_not_faulted (not_faulted_of_execute h)] at h
  cases hadvance : m.advance budget.toNat with
  | mk answer m₁ =>
    cases answer with
    | error e => simp [hadvance] at h
    | ok u =>
      simp only [hadvance, Prod.mk.injEq, Except.ok.injEq] at h
      obtain ⟨rfl, rfl⟩ := h
      exact ⟨rfl, rfl⟩

theorem advance_of_execute_error {m m' : Machine} {budget : UInt64} {e : MachineError}
    (hm : ∀ fault, m.status ≠ .faulted fault) (h : m.execute budget = (.error e, m')) :
    m.advance budget.toNat = (.error e, m') := by
  rw [execute_of_not_faulted hm] at h
  cases hadvance : m.advance budget.toNat with
  | mk answer m₁ =>
    cases answer with
    | ok u => simp [hadvance] at h
    | error e₁ =>
      simp only [hadvance, Prod.mk.injEq, Except.error.injEq] at h
      obtain ⟨rfl, rfl⟩ := h
      rfl

/-- A run that succeeds has completed its cycles, up to the end of the budget or to where the
machine has stopped. -/
theorem cases_of_execute_ok {m m' : Machine} {budget : UInt64} {r : RunResult}
    (h : m.execute budget = (.ok r, m')) :
    ∃ n, m.Completes n ∧ n ≤ budget.toNat ∧ (n = budget.toNat ∨ m'.status ≠ .running) ∧
      m' = m.after n ∧ r = ⟨UInt64.ofNat n, m'.status⟩ := by
  obtain ⟨n, hc, ⟨hn, hstop, hx⟩ | ⟨-, -, e, -, hx⟩⟩ :=
    execute_cases (not_faulted_of_execute h) budget
  · obtain ⟨hr, rfl⟩ := Prod.mk.inj (h.symm.trans hx)
    exact ⟨n, hc, hn, hstop, rfl, Except.ok.inj hr⟩
  · exact absurd (h.symm.trans hx) (by simp)

theorem running_or_halted_of_execute {m m' : Machine} {budget : UInt64} {r : RunResult}
    (h : m.execute budget = (.ok r, m')) :
    m'.status = .running ∨ ∃ reason, m'.status = .halted reason := by
  obtain ⟨n, hc, -, -, rfl, -⟩ := cases_of_execute_ok h
  exact hc.running_or_halted (not_faulted_of_execute h)

theorem toNat_add_of_room {a b : UInt64} (h : a.toNat + b.toNat < 2 ^ 64) :
    (a + b).toNat = a.toNat + b.toNat := by
  rw [UInt64.toNat_add, Nat.mod_eq_of_lt h]

/-- A run with a budget is its steps: up to one that fails, to where the machine has stopped, or to
the end of the budget. Where none fails, its cycles are the steps and what the counter grows by, and
they are fewer than the budget only on a machine that has halted. -/
structure RunsBySteps (m : Machine) (budget : UInt64) : Prop where
  refused : ∀ fault, m.status = .faulted fault → m.execute budget = (.error (.faulted fault), m)
  steps : (∀ fault, m.status ≠ .faulted fault) → ∃ n, m.Completes n ∧
    ((n ≤ budget.toNat ∧ (n = budget.toNat ∨ (m.after n).status ≠ .running) ∧
        m.execute budget = (.ok ⟨UInt64.ofNat n, (m.after n).status⟩, m.after n)) ∨
      (n < budget.toNat ∧ (m.after n).status = .running ∧
        ∃ e, (m.after n).step.1 = .error e ∧ m.execute budget = (.error e, m.after (n + 1))))
  within : ∀ r m', m.execute budget = (.ok r, m') → r.cycles ≤ budget
  counted : ∀ r m', m.execute budget = (.ok r, m') → m'.state.cycles = m.state.cycles + r.cycles
  grown : ∀ r m', m.execute budget = (.ok r, m') →
    m.state.cycles.toNat + r.cycles.toNat < 2 ^ 64 →
    m'.state.cycles.toNat = m.state.cycles.toNat + r.cycles.toNat
  halted : ∀ r m', m.execute budget = (.ok r, m') → r.cycles < budget →
    ∃ reason, m'.status = .halted reason

theorem runsBySteps (m : Machine) (budget : UInt64) : m.RunsBySteps budget := by
  have hcounted : ∀ r m', m.execute budget = (.ok r, m') →
      m'.state.cycles = m.state.cycles + r.cycles := by
    intro r m' h
    obtain ⟨n, hc, -, -, rfl, rfl⟩ := cases_of_execute_ok h
    exact hc.cycles
  have hsteps {r : RunResult} {m' : Machine} (h : m.execute budget = (.ok r, m')) :
      r.cycles.toNat ≤ budget.toNat ∧ (r.cycles.toNat = budget.toNat ∨ m'.status ≠ .running) := by
    obtain ⟨n, -, hn, hstop, -, rfl⟩ := cases_of_execute_ok h
    have hcycles : (UInt64.ofNat n).toNat = n :=
      UInt64.toNat_ofNat_of_lt (Nat.lt_of_le_of_lt hn budget.toNat_lt)
    rw [hcycles]
    exact ⟨hn, hstop⟩
  refine ⟨fun fault h => execute_of_faulted h budget, fun h => execute_cases h budget, ?_, hcounted,
    ?_, ?_⟩
  · intro r m' h
    exact UInt64.le_iff_toNat_le.mpr (hsteps h).1
  · intro r m' h room
    rw [hcounted r m' h]
    exact toNat_add_of_room room
  · intro r m' h hlt
    rw [UInt64.lt_iff_toNat_lt] at hlt
    have hstopped : m'.status ≠ .running := by
      rcases (hsteps h).2 with hspent | hstopped
      · omega
      · exact hstopped
    rcases running_or_halted_of_execute h with running | hhalted
    · exact absurd running hstopped
    · exact hhalted

/-- Two budgets spent one behind the other come to what their sum comes to, in the answer and in the
machine, whether both runs succeed or one of them fails; and each run is its steps. -/
theorem budgets_add (m : Machine) (a b : UInt64) (room : a.toNat + b.toNat < 2 ^ 64) :
    (∀ r₁ m₁, m.execute a = (.ok r₁, m₁) →
      (∀ r₂ m₂, m₁.execute b = (.ok r₂, m₂) →
        ∃ r, m.execute (a + b) = (.ok r, m₂) ∧
          r.cycles.toNat = r₁.cycles.toNat + r₂.cycles.toNat ∧ r.status = r₂.status) ∧
      ∀ e m₂, m₁.execute b = (.error e, m₂) → m.execute (a + b) = (.error e, m₂)) ∧
    (∀ e m₁, m.execute a = (.error e, m₁) → m.execute (a + b) = (.error e, m₁)) ∧
    m.RunsBySteps a := by
  have hadd : m.advance (a + b).toNat = resume b.toNat (m.advance a.toNat) := by
    rw [toNat_add_of_room room, advance_add]
  refine ⟨?_, ?_, runsBySteps m a⟩
  · intro r₁ m₁ h₁
    have hsum := execute_of_not_faulted (not_faulted_of_execute h₁) (a + b)
    rw [hadd, (advance_of_execute_ok h₁).1, resume] at hsum
    constructor
    · intro r₂ m₂ h₂
      obtain ⟨hb, hr₂⟩ := advance_of_execute_ok h₂
      have hle₁ := UInt64.le_iff_toNat_le.mp ((runsBySteps m a).within r₁ m₁ h₁)
      have hle₂ := UInt64.le_iff_toNat_le.mp ((runsBySteps m₁ b).within r₂ m₂ h₂)
      have hgrown : m₂.state.cycles - m.state.cycles = r₁.cycles + r₂.cycles := by
        rw [(runsBySteps m₁ b).counted r₂ m₂ h₂, (runsBySteps m a).counted r₁ m₁ h₁]
        rw [UInt64.add_assoc, UInt64.add_comm, UInt64.add_sub_cancel]
      rw [hb] at hsum
      refine ⟨_, hsum, ?_, by rw [hr₂]⟩
      show (m₂.state.cycles - m.state.cycles).toNat = _
      rw [hgrown]
      exact toNat_add_of_room (Nat.lt_of_le_of_lt (Nat.add_le_add hle₁ hle₂) room)
    · intro e m₂ h₂
      have hm₁ : ∀ fault, m₁.status ≠ .faulted fault := by
        intro fault hfault
        have hkind := running_or_halted_of_execute h₁
        simp [hfault] at hkind
      rw [advance_of_execute_error hm₁ h₂] at hsum
      exact hsum
  · intro e m₁ h₁
    by_cases hm : ∀ fault, m.status ≠ .faulted fault
    · have hsum := execute_of_not_faulted hm (a + b)
      rw [hadd, advance_of_execute_error hm h₁] at hsum
      exact hsum
    · obtain ⟨fault, hfault⟩ : ∃ fault, m.status = .faulted fault := by simpa using hm
      rw [execute_of_faulted hfault] at h₁ ⊢
      exact h₁

/-- The program `ldi r3, #7` in front of a zero word: a budget of 1 ends behind the load, a budget
of 2 behind that ends with the halt, and a budget of 3 comes to the same. -/
theorem budgets_add_behind_load :
    let m : Machine := ⟨{ Core.initial .standard with
      memory := (Memory.zero.write 0xFF00 0xD3).write 0xFF01 0x07 }, .empty false 16⟩
    ∃ r m', m.execute (1 + 2) = (.ok r, m') ∧ r.cycles.toNat = 2 ∧
      r.status = .halted .zeroWord := by
  intro m
  have hx : m.core.executed? = some (.ldi ⟨3⟩ 7) := by
    have hword : m.core.word = 0xD307 := by
      change wordOfBytes (m.core.memory.read 0xFF00) (m.core.memory.read 0xFF01) = 0xD307
      simp (disch := decide) only [m, Memory.read_write_self, Memory.read_write_of_ne]
      rfl
    rw [Core.executed?, Core.current?, hword]
    rfl
  have hfirst : m.core.step = ((m.core.applied (.ldi ⟨3⟩ 7)).goTo 0xFF02).completed
      m.core.state.pc m.core.word := Core.step_of_goesOn hx rfl rfl
  have hload : m.step.1 = .ok .running := by
    rw [answer_step, hfirst]
    rfl
  have hcore : m.step.2.core = (((m.core.applied (.ldi ⟨3⟩ 7)).goTo 0xFF02).completed
      m.core.state.pc m.core.word).core := by
    rw [core_step, hfirst]
  have hstate : m.step.2.core.state.pc = 0xFF02 ∧ m.step.2.core.state.status = .running ∧
      m.step.2.core.memory = m.core.memory := by
    rw [hcore]
    exact ⟨rfl, rfl, rfl⟩
  have hzero : m.step.2.core.word = 0 := by
    rw [Core.word, hstate.1, hstate.2.2]
    change wordOfBytes (m.core.memory.read 0xFF02) (m.core.memory.read 0xFF03) = 0
    simp (disch := decide) only [m, Memory.read_write_of_ne, Memory.read_zero]
    rfl
  have hhalt : m.step.2.step.1 = .ok (.halted .zeroWord) := by
    rw [answer_step, Core.step_of_zero_word hstate.2.1 (by rw [hstate.1]; decide) hzero]
    rfl
  have hstatus : m.status = .running := rfl
  obtain ⟨hcycles₁, hstatus₁, -⟩ := step_of_answer hstatus hload
  obtain ⟨hcycles₂, hstatus₂, -⟩ := step_of_answer hstatus₁ hhalt
  have h₁ : m.execute 1 = (.ok ⟨1, .running⟩, m.step.2) := by
    have hadvance : m.advance (0 + 1) = (.ok (), m.step.2) := advance_of_answer hstatus hload 0
    rw [execute_of_not_faulted (by simp [hstatus]), show (1 : UInt64).toNat = 0 + 1 from rfl,
      hadvance]
    dsimp only
    rw [hcycles₁, hstatus₁, UInt64.add_comm, UInt64.add_sub_cancel]
  have h₂ : m.step.2.execute 2 = (.ok ⟨1, .halted .zeroWord⟩, m.step.2.step.2) := by
    have hadvance : m.step.2.advance (1 + 1) = (.ok (), m.step.2.step.2) := by
      rw [advance_of_answer hstatus₁ hhalt, advance_of_stopped (by simp [hstatus₂])]
    rw [execute_of_not_faulted (by simp [hstatus₁]), show (2 : UInt64).toNat = 1 + 1 from rfl,
      hadvance]
    dsimp only
    rw [hcycles₂, hstatus₂, UInt64.add_comm, UInt64.add_sub_cancel]
  obtain ⟨r, hr, hsum, hhalted⟩ := ((budgets_add m 1 2 (by decide)).1 _ _ h₁).1 _ _ h₂
  exact ⟨r, _, hr, hsum, hhalted⟩

end ByteMachine.Machine
