import ByteMachine.Proofs.StackWindow

namespace ByteMachine

/-- Whether an operation answers with the trace. -/
def Operation.asksForTrace : Operation → Bool
  | trace => true
  | takeTrace => true
  | _ => false

namespace Machine

/-- Carries out operations in order: their answers, and the machine behind the last. -/
def performAll (m : Machine) : List Operation → List (Except MachineError Reply) × Machine
  | [] => ([], m)
  | op :: ops =>
    let next := m.perform op
    let rest := next.2.performAll ops
    (next.1 :: rest.1, rest.2)

/-- Two outcomes of an operation that differ at most in the trace of the machine. -/
def SameButTrace {α : Type} (x y : Except MachineError α × Machine) : Prop :=
  x.1 = y.1 ∧ x.2.core = y.2.core

variable {m n : Machine}

theorem step_sameButTrace (h : m.core = n.core) : SameButTrace m.step n.step := by
  constructor
  · rw [answer_step, answer_step, h]
  · rw [core_step, core_step, h]

theorem advance_sameButTrace (h : m.core = n.core) (budget : Nat) :
    SameButTrace (m.advance budget) (n.advance budget) := by
  induction budget generalizing m n with
  | zero => exact ⟨rfl, h⟩
  | succ budget ih =>
    obtain ⟨hanswer, hcore⟩ := step_sameButTrace h
    have hstatus : m.status = n.status := congrArg (fun c : Core => c.state.status) h
    by_cases running : m.status = .running
    · have running' : n.status = .running := hstatus.symm.trans running
      cases hs : m.step.1 with
      | ok status =>
        rw [advance_of_answer running hs, advance_of_answer running' (hanswer.symm.trans hs)]
        exact ih hcore
      | error e =>
        rw [advance_of_error running hs, advance_of_error running' (hanswer.symm.trans hs)]
        exact ⟨rfl, hcore⟩
    · have running' : n.status ≠ .running := by rwa [← hstatus]
      rw [advance_of_stopped running, advance_of_stopped running']
      exact ⟨rfl, h⟩

theorem execute_sameButTrace (h : m.core = n.core) (budget : UInt64) :
    SameButTrace (m.execute budget) (n.execute budget) := by
  have hstatus : m.status = n.status := congrArg (fun c : Core => c.state.status) h
  by_cases hfaulted : ∀ fault, m.status ≠ .faulted fault
  · have hadvance := advance_sameButTrace h budget.toNat
    rw [execute_of_not_faulted hfaulted, execute_of_not_faulted (hstatus ▸ hfaulted)]
    generalize m.advance budget.toNat = x at hadvance
    generalize n.advance budget.toNat = y at hadvance
    obtain ⟨answer, m'⟩ := x
    obtain ⟨answer', n'⟩ := y
    obtain ⟨rfl, hcore⟩ : answer = answer' ∧ m'.core = n'.core := hadvance
    cases answer with
    | error e => exact ⟨rfl, hcore⟩
    | ok u =>
      have hresult : (⟨m'.state.cycles - m.state.cycles, m'.status⟩ : RunResult)
          = ⟨n'.state.cycles - n.state.cycles, n'.status⟩ := by
        simp only [state, status, h, hcore]
      exact ⟨congrArg Except.ok hresult, hcore⟩
  · obtain ⟨fault, hfault⟩ : ∃ fault, m.status = .faulted fault := by simpa using hfaulted
    rw [execute_of_faulted hfault, execute_of_faulted (hstatus.symm.trans hfault)]
    exact ⟨rfl, h⟩

theorem SameButTrace.map {α β : Type} {x y : Except MachineError α × Machine}
    (h : SameButTrace x y) (f : α → β) : SameButTrace (f <$> x.1, x.2) (f <$> y.1, y.2) :=
  ⟨congrArg (f <$> ·) h.1, h.2⟩

theorem settle_sameButTrace (h : m.core = n.core) {x y : Except MachineError Machine}
    (hxy : x.map core = y.map core) : SameButTrace (m.settle x) (n.settle y) := by
  cases x with
  | error e =>
    cases y with
    | error e' => exact ⟨congrArg Except.error (Except.error.inj hxy), h⟩
    | ok n' => exact absurd hxy (by simp [Except.map])
  | ok m' =>
    cases y with
    | error e => exact absurd hxy (by simp [Except.map])
    | ok n' => exact ⟨rfl, Except.ok.inj hxy⟩

theorem load_core (h : m.core = n.core) (base : UInt16) (words : List UInt16) :
    (m.load base words).map core = (n.load base words).map core := by
  unfold load
  rw [h]
  cases n.core.memory.load base words with
  | ok memory => rfl
  | error e => rfl

theorem writeInstruction_core (h : m.core = n.core) (address word : UInt16) :
    (m.writeInstruction address word).map core = (n.writeInstruction address word).map core := by
  unfold writeInstruction
  rw [h]
  cases n.core.memory.writeWord address word with
  | ok memory => rfl
  | error e => rfl

theorem writeRegister_core (h : m.core = n.core) (index : Nat) (value : UInt8) :
    (m.writeRegister index value).map core = (n.writeRegister index value).map core := by
  unfold writeRegister
  rw [h]
  split
  · rfl
  · rfl

theorem restore_core (s : Snapshot) : (m.restore s).map core = (n.restore s).map core := by
  unfold restore
  cases Core.ofSnapshot s with
  | ok c => rfl
  | error e => rfl

/-- An operation that does not ask for the trace answers alike on machines with one core, and leaves
them with one core again. -/
theorem perform_sameButTrace (h : m.core = n.core) {op : Operation}
    (hop : op.asksForTrace = false) : SameButTrace (m.perform op) (n.perform op) := by
  cases op with
  | load base words => exact settle_sameButTrace h (load_core h base words)
  | loadProgram p => exact settle_sameButTrace h (load_core h p.base p.code)
  | writeInstruction address word =>
    exact settle_sameButTrace h (writeInstruction_core h address word)
  | writeRegister index value => exact settle_sameButTrace h (writeRegister_core h index value)
  | restore s => exact settle_sameButTrace h (restore_core s)
  | step => exact (step_sameButTrace h).map Reply.status
  | execute budget => exact (execute_sameButTrace h budget).map Reply.result
  | run => exact (execute_sameButTrace h unbounded).map Reply.result
  | trace => exact absurd hop (by simp [Operation.asksForTrace])
  | takeTrace => exact absurd hop (by simp [Operation.asksForTrace])
  | _ =>
    obtain ⟨c, t⟩ := m
    obtain ⟨d, t'⟩ := n
    obtain rfl : c = d := h
    exact ⟨rfl, rfl⟩

theorem performAll_sameButTrace (h : m.core = n.core) {ops : List Operation}
    (hops : ∀ op ∈ ops, op.asksForTrace = false) :
    (m.performAll ops).1 = (n.performAll ops).1 ∧
      (m.performAll ops).2.core = (n.performAll ops).2.core := by
  induction ops generalizing m n with
  | nil => exact ⟨rfl, h⟩
  | cons op ops ih =>
    obtain ⟨hanswer, hcore⟩ := perform_sameButTrace h (hops op List.mem_cons_self)
    obtain ⟨hanswers, hlast⟩ := ih hcore fun op' hmem => hops op' (List.mem_cons_of_mem op hmem)
    refine ⟨?_, hlast⟩
    simp only [performAll, hanswer, hanswers]

/-- A machine goes on from a copy of another as that other machine does: the copy is accepted, it is
what a copy of the machine is from then on, no trace is left, and any operations that do not ask for
the trace have the same answers and lead to the same layout, state and memory on both. -/
theorem restored_replays {m : Machine} (hm : Reachable m) {s : Snapshot} (hs : m.CopiedAs s)
    (m' : Machine) :
    ∃ r, m'.restore s = .ok r ∧ r.snapshot = s ∧ r.trace.rows = [] ∧
      ∀ ops : List Operation, (∀ op ∈ ops, op.asksForTrace = false) →
        (r.performAll ops).1 = (m.performAll ops).1 ∧
          (r.performAll ops).2.state = (m.performAll ops).2.state ∧
          (r.performAll ops).2.memory = (m.performAll ops).2.memory ∧
          (r.performAll ops).2.layout = (m.performAll ops).2.layout := by
  obtain rfl := hs.eq_snapshot
  refine ⟨_, restore_snapshot m' hm.inWindow.valid, rfl, Trace.rows_clear m'.trace, ?_⟩
  intro ops hops
  have hcore : ({ core := m.core, trace := m'.trace.clear } : Machine).core = m.core := rfl
  obtain ⟨hanswers, hlast⟩ := performAll_sameButTrace hcore hops
  exact ⟨hanswers, congrArg Core.state hlast, congrArg Core.memory hlast,
    congrArg Core.layout hlast⟩

/-- A machine of one layout stepped over a zero word, read back from its bytes into a machine of
another layout: both answer a further step, a reset and a step behind that alike. -/
theorem restored_replays_from_bytes :
    let m : Machine := (Machine.step ⟨.initial .standard, .empty true 4⟩).2
    let m' : Machine := ⟨.initial ⟨0x0200, 0x0100, 0x10⟩, .empty false 0⟩
    let ops : List Operation := [.step, .reset, .writeRegister 9 1, .step, .snapshot]
    ∃ s r, Snapshot.ofBytes m.snapshot.toBytes = .ok s ∧ m'.restore s = .ok r ∧
      (r.performAll ops).1 = (m.performAll ops).1 := by
  intro m m' ops
  have hm : Reachable m := by
    have hnew : Machine.new .standard true 4 = .ok ⟨.initial .standard, .empty true 4⟩ := rfl
    exact (Reachable.new hnew).perform .step (fun _ hop => by cases hop)
  have hread := m.ofBytes_snapshot
  obtain ⟨r, hr, -, -, hreplay⟩ := restored_replays hm (.read m.snapshot hread) m'
  have hops : ∀ op ∈ ops, op.asksForTrace = false := by
    simp [ops, Operation.asksForTrace]
  exact ⟨m.snapshot, r, hread, hr, (hreplay ops hops).1⟩

end Machine

end ByteMachine
