import ByteMachine.Proofs.FlagBits
import ByteMachine.Proofs.Replay
import ByteMachine.Proofs.Verdict

namespace ByteMachine

/-- The faults that a word can raise. A field has room for eight registers that the machine does not
have, and for no operation without a meaning. -/
def Fault.CanArise : Fault → Prop
  | .invalidRegister r => 8 ≤ r.index.toNat ∧ r.index.toNat ≤ 15
  | .unknownOpcode _ => False
  | _ => True

namespace Instruction

theorem outcome_upper {i : Instruction} (hi : i ≠ hlt) (memory : Memory) (s : State) :
    (i.outcome memory s).state.flags.upper = s.flags.upper := by
  have hoverflow : Flag.overflow ≠ .halt := by decide
  have hcarry : Flag.carry ≠ .halt := by decide
  cases i with
  | hlt => exact absurd rfl hi
  | push src => rfl
  | pop dst => rfl
  | jp hi lo => rfl
  | jz hi lo => rfl
  | add dst lhs rhs => exact (Flags.upper_ofResult _ _).trans (Flags.upper_assign _ hoverflow _)
  | sub dst lhs rhs => exact (Flags.upper_ofResult _ _).trans (Flags.upper_assign _ hcarry _)
  | mul dst lhs rhs => exact (Flags.upper_ofResult _ _).trans (Flags.upper_assign _ hoverflow _)
  | _ => exact Flags.upper_ofResult _ _

theorem canArise_of_ownFault? {i : Instruction} {layout : Layout} {s : State} {fault : Fault}
    (h : i.ownFault? layout s = some fault) : fault.CanArise := by
  cases i with
  | div dst lhs rhs =>
    simp only [ownFault?] at h
    split at h <;> cases h
    trivial
  | push src =>
    simp only [ownFault?] at h
    split at h <;> cases h
    trivial
  | pop dst =>
    simp only [ownFault?] at h
    split at h <;> cases h
    trivial
  | _ => cases h

theorem canArise_of_fault? {w : UInt16} {layout : Layout} {s : State} {fault : Fault}
    (h : (ofWord w).fault? layout s = some fault) : fault.CanArise := by
  unfold fault? at h
  cases hr : (ofWord w).invalidRegister? with
  | some r =>
    rw [hr] at h
    obtain rfl := Option.some.inj h
    have hlt := toNat_lt_of_mem_ofWord (List.mem_of_find?_eq_some hr)
    have hinvalid : 8 ≤ r.index.toNat := by
      have hnot := List.find?_some hr
      rw [← Nat.not_lt, ← Register.isValid_iff]
      simpa using hnot
    exact ⟨hinvalid, Nat.le_of_lt_succ hlt⟩
  | none =>
    rw [hr] at h
    exact canArise_of_ownFault? h

end Instruction

namespace Core

/-- A core whose flags show whether it has halted, and whose fault is one that can arise. -/
structure ShowsStatus (c : Core) : Prop where
  upper : c.state.flags.upper = if c.state.status.isHalted then 0x10 else 0
  arises : ∀ fault, c.state.status = .faulted fault → fault.CanArise

variable {c : Core}

theorem canArise_of_failure? {f : Failure} (h : c.failure? = some f) : f.fault.CanArise := by
  rcases fault_of_failure? h with hend | hown
  · rw [hend]
    trivial
  · exact Instruction.canArise_of_fault? hown

theorem ShowsStatus.of_halted {reason : HaltReason} (hstatus : c.state.status = .halted reason)
    (hflags : c.state.flags.upper = 0x10) : c.ShowsStatus := by
  refine ⟨?_, ?_⟩
  · rw [hstatus, hflags]
    rfl
  · intro fault hfault
    cases hstatus.symm.trans hfault

theorem showsStatus_initial (layout : Layout) : (initial layout).ShowsStatus := by
  refine ⟨?_, ?_⟩
  · change Flags.none.upper = 0
    decide
  · intro fault hfault
    cases hfault

theorem ShowsStatus.upper_of_running (h : c.ShowsStatus) (running : c.state.status = .running) :
    c.state.flags.upper = 0 := by
  have hupper := h.upper
  rw [running] at hupper
  exact hupper

theorem ShowsStatus.step (h : c.ShowsStatus) : c.step.core.ShowsStatus := by
  cases hstatus : c.state.status with
  | halted reason =>
    rw [step_of_halted c hstatus]
    exact h
  | faulted fault =>
    rw [step_of_faulted c hstatus]
    exact h
  | running =>
    have hupper := h.upper_of_running hstatus
    rcases exit hstatus with ⟨f, hf, hs⟩ | hs | hs | ⟨i, target, hi, hs⟩ | ⟨i, hi, hs⟩
    · rw [hs]
      refine ⟨hupper, ?_⟩
      intro fault hfault
      obtain rfl := Status.faulted.inj hfault
      exact canArise_of_failure? hf
    · rw [hs]
      apply ShowsStatus.of_halted rfl
      change (c.state.flags.set .halt).upper = 0x10
      rw [Flags.upper_set_halt, hupper]
      rfl
    · rw [hs]
      apply ShowsStatus.of_halted rfl
      change ((c.state.flags.set .halt).set .halt).upper = 0x10
      rw [Flags.upper_set_halt, Flags.upper_set_halt, hupper]
      rfl
    · have hkept := Instruction.outcome_upper hi c.memory c.state
      have hrunning := (Instruction.outcome_frame i c.memory c.state).2.2
      rw [hs]
      refine ⟨?_, ?_⟩
      · change (i.outcome c.memory c.state).state.flags.upper
          = if (i.outcome c.memory c.state).state.status.isHalted then 0x10 else 0
        rw [hkept, hrunning, hupper, hstatus]
        rfl
      · intro fault hfault
        cases (hrunning.trans hstatus).symm.trans hfault
    · have hkept := Instruction.outcome_upper hi c.memory c.state
      rw [hs]
      refine ⟨hkept.trans hupper, ?_⟩
      intro fault hfault
      obtain rfl := Status.faulted.inj hfault
      trivial

end Core

namespace Machine

theorem showsStatus_kept : Kept Core.ShowsStatus where
  new layout _ := Core.showsStatus_initial layout
  reset c _ := Core.showsStatus_initial c.layout
  accessed c d h hc := by
    refine ⟨?_, ?_⟩
    · rw [hc.flags, hc.status]
      exact h.upper
    · rw [hc.status]
      exact h.arises
  step _ h := h.step

theorem execute_of_halted {m : Machine} {reason : HaltReason} (h : m.status = .halted reason)
    (budget : UInt64) : m.execute budget = (.ok ⟨0, .halted reason⟩, m) := by
  rw [execute_of_not_faulted (by simp [h]), advance_of_stopped (by simp [h])]
  dsimp only
  rw [UInt64.sub_self, h]

theorem status_perform_of_stopped {m : Machine} (h : m.status ≠ .running) {op : Operation}
    (hop : op.restarts = false) : (m.perform op).2.status = m.status := by
  have hchange := m.change_perform op
  generalize (m.perform op).2 = m' at hchange
  cases hchange with
  | stepped => rw [after_of_stopped h]
  | accessed _ c hc => exact hc.status
  | taken => rfl
  | reset => cases hop
  | resetWithPc pc => cases hop
  | restored s => cases hop

theorem status_performAll_of_stopped {m : Machine} (h : m.status ≠ .running)
    {ops : List Operation} (hops : ∀ op ∈ ops, op.restarts = false) :
    (m.performAll ops).2.status = m.status := by
  induction ops generalizing m with
  | nil => rfl
  | cons op ops ih =>
    have hstatus := status_perform_of_stopped h (hops op List.mem_cons_self)
    have hrest := ih (m := (m.perform op).2) (by rwa [hstatus])
      fun op' hmem => hops op' (List.mem_cons_of_mem op hmem)
    exact hrest.trans hstatus

/-- What the status of a machine says of its flags and of what can still be done to it. -/
structure StatusRules (m : Machine) : Prop where
  halt_flag : m.isFlagSet .halt = true ↔ ∃ reason, m.status = .halted reason
  spare_bits : m.state.flags.bits &&& 0xE0 = 0
  known_opcode : ∀ code, m.status ≠ .faulted (.unknownOpcode code)
  missing_register : ∀ r, m.status = .faulted (.invalidRegister r) →
    8 ≤ r.index.toNat ∧ r.index.toNat ≤ 15
  halted : ∀ reason, m.status = .halted reason →
    m.step = (.ok (.halted reason), m) ∧
      (∀ budget, m.execute budget = (.ok ⟨0, .halted reason⟩, m)) ∧
      m.run = (.ok ⟨0, .halted reason⟩, m)
  faulted : ∀ fault, m.status = .faulted fault →
    m.step = (.error (.faulted fault), m) ∧
      (∀ budget, m.execute budget = (.error (.faulted fault), m)) ∧
      m.run = (.error (.faulted fault), m)
  stopped : m.status ≠ .running → ∀ ops : List Operation, (∀ op ∈ ops, op.restarts = false) →
    (m.performAll ops).2.status = m.status
  reset_as_new : new m.layout m.trace.enabled m.trace.limit = .ok m.reset
  reset_as_any_new : ∀ tracing traceLimit, ∃ n, new m.layout tracing traceLimit = .ok n ∧
    m.reset.state = n.state ∧ m.reset.memory = n.memory ∧ m.reset.trace.rows = n.trace.rows

theorem new_of_validate {layout : Layout} (h : layout.validate = .ok ()) (tracing : Bool)
    (traceLimit : Nat) :
    new layout tracing traceLimit = .ok ⟨.initial layout, .empty tracing traceLimit⟩ := by
  rw [new, (Core.checkLayout_eq_ok_iff layout).mpr h]
  rfl

theorem isHalted_eq_true_iff (status : Status) :
    status.isHalted = true ↔ ∃ reason, status = .halted reason := by
  cases status with
  | running => simp [Status.isHalted]
  | halted reason => simp [Status.isHalted]
  | faulted fault => simp [Status.isHalted]

/-- The status of a reachable machine and its flags tell the same, a machine that has stopped does
nothing more and stays stopped, and a reset makes a machine as new. -/
theorem statusRules_of_reachable {m : Machine} (h : Reachable m) : m.StatusRules := by
  have hshows : m.core.ShowsStatus := h.kept showsStatus_kept
  have hupper : m.state.flags.upper = if m.status.isHalted then 0x10 else 0 := hshows.upper
  have hvalid : m.layout.validate = .ok () := h.inWindow.valid
  refine {
    halt_flag := ?_
    spare_bits := ?_
    known_opcode := fun code hcode => hshows.arises _ hcode
    missing_register := fun r hr => hshows.arises _ hr
    halted := fun reason hm => ⟨step_of_halted hm, execute_of_halted hm, execute_of_halted hm _⟩
    faulted := fun fault hm => ⟨step_of_faulted hm, execute_of_faulted hm, execute_of_faulted hm _⟩
    stopped := fun hm ops hops => status_performAll_of_stopped hm hops
    reset_as_new := new_of_validate hvalid _ _
    reset_as_any_new := ?_ }
  · rw [← isHalted_eq_true_iff, isFlagSet, Flags.isSet_halt, hupper]
    cases m.status.isHalted <;> decide
  · rw [Flags.spare_bits, hupper]
    cases m.status.isHalted <;> decide
  · intro tracing traceLimit
    refine ⟨_, new_of_validate hvalid tracing traceLimit, rfl, rfl, ?_⟩
    exact (Trace.rows_clear m.trace).trans (Trace.rows_empty tracing traceLimit).symm

/-- The word `0xB900` pushes register 9, which there is not. The machine that met it refuses to run
from elsewhere too, and to run for no cycles. -/
theorem statusRules_of_missing_register :
    let loaded : Machine := writeMemory ⟨.initial .standard, .empty true 4⟩ 0xFF00 0xB9
    let m := loaded.step.2
    let ops : List Operation := [.setPc 0, .writeRegister 9 1, .execute 0]
    Reachable m ∧ m.StatusRules ∧ m.status = .faulted (.invalidRegister ⟨9⟩) ∧
      (m.performAll ops).2.status = .faulted (.invalidRegister ⟨9⟩) := by
  intro loaded m ops
  have hnew : new .standard true 4 = .ok ⟨.initial .standard, .empty true 4⟩ := rfl
  have hm : Reachable m :=
    ((Reachable.new hnew).perform (.writeMemory 0xFF00 0xB9) (fun _ hop => by cases hop)).perform
      .step (fun _ hop => by cases hop)
  have hword : loaded.core.word = 0xB900 := by
    change wordOfBytes (loaded.core.memory.read 0xFF00) (loaded.core.memory.read 0xFF01) = 0xB900
    have hmemory : loaded.core.memory = Memory.zero.write 0xFF00 0xB9 := rfl
    rw [hmemory, Memory.read_write_self, Memory.read_write_of_ne _ _ (by decide), Memory.read_zero]
    rfl
  have hf : loaded.core.failure? = some ⟨0xB900, .invalidRegister ⟨9⟩, false⟩ := by
    rw [Core.failure?, hword]
    rfl
  have hs := Core.step_of_early_failure (c := loaded.core) rfl hf rfl
  have hstatus : m.status = .faulted (.invalidRegister ⟨9⟩) := by
    rw [status, core_step, hs]
    rfl
  have hrules := statusRules_of_reachable hm
  have hops : ∀ op ∈ ops, op.restarts = false := by simp [ops, Operation.restarts]
  refine ⟨hm, hrules, hstatus, ?_⟩
  rw [hrules.stopped (by simp [hstatus]) ops hops, hstatus]

end Machine

end ByteMachine
