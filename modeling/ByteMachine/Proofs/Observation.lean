import ByteMachine.Proofs.Replay

namespace ByteMachine

/-- Operations without those that ask for the trace. -/
def Operation.plain (ops : List Operation) : List Operation :=
  ops.filter fun op => !op.asksForTrace

namespace Operation

theorem plain_cons_of_asks {op : Operation} (h : op.asksForTrace = true) (ops : List Operation) :
    plain (op :: ops) = plain ops :=
  List.filter_cons_of_neg (by simp [h])

theorem plain_cons_of_plain {op : Operation} (h : op.asksForTrace = false)
    (ops : List Operation) : plain (op :: ops) = op :: plain ops :=
  List.filter_cons_of_pos (by simp [h])

end Operation

namespace Machine

/-- What a run shows of its machine: the answers to all operations but those that ask for the trace,
each with the core behind it. -/
def transcript (m : Machine) : List Operation → List (Except MachineError Reply × Core)
  | [] => []
  | op :: ops =>
    let next := m.perform op
    if op.asksForTrace then next.2.transcript ops
    else (next.1, next.2.core) :: next.2.transcript ops

/-- Two machines of which all but the traces is the same. -/
structure Agrees (m n : Machine) : Prop where
  state : m.state = n.state
  memory : m.memory = n.memory
  layout : m.layout = n.layout

variable {m n : Machine}

theorem agrees_iff : m.Agrees n ↔ m.core = n.core := by
  constructor
  · intro h
    obtain ⟨⟨layout, state, memory⟩, t⟩ := m
    obtain ⟨⟨layout', state', memory'⟩, t'⟩ := n
    obtain rfl : state = state' := h.state
    obtain rfl : memory = memory' := h.memory
    obtain rfl : layout = layout' := h.layout
    rfl
  · intro h
    exact ⟨congrArg Core.state h, congrArg Core.memory h, congrArg Core.layout h⟩

/-- The trace can be asked for at any time, and nothing but the trace changes by it. -/
theorem perform_of_asks {op : Operation} (h : op.asksForTrace = true) (m : Machine) :
    (m.perform op).1 = .ok (.rows m.trace.rows) ∧ (m.perform op).2.core = m.core := by
  cases op with
  | trace => exact ⟨rfl, rfl⟩
  | takeTrace => exact ⟨rfl, rfl⟩
  | _ => cases h

theorem transcript_cons_of_asks {op : Operation} (h : op.asksForTrace = true)
    (ops : List Operation) : m.transcript (op :: ops) = (m.perform op).2.transcript ops := by
  rw [transcript, if_pos h]

theorem transcript_cons_of_plain {op : Operation} (h : op.asksForTrace = false)
    (ops : List Operation) :
    m.transcript (op :: ops)
      = ((m.perform op).1, (m.perform op).2.core) :: (m.perform op).2.transcript ops := by
  rw [transcript, if_neg (by simp [h])]

/-- A run shows the same and leads to the same core as the run of another machine of that core in
which the trace is never asked for. -/
theorem transcript_plain (h : m.core = n.core) (ops : List Operation) :
    m.transcript ops = n.transcript (Operation.plain ops) ∧
      (m.performAll ops).2.core = (n.performAll (Operation.plain ops)).2.core := by
  -- The induction is on the operations of the first machine; one core is what it keeps.
  induction ops generalizing m n with
  | nil => exact ⟨rfl, h⟩
  | cons op ops ih =>
    cases hop : op.asksForTrace with
    | true =>
      have hcore := (perform_of_asks hop m).2.trans h
      rw [Operation.plain_cons_of_asks hop, transcript_cons_of_asks hop]
      exact ih hcore
    | false =>
      obtain ⟨hanswer, hcore⟩ := perform_sameButTrace h hop
      obtain ⟨hshown, hlast⟩ := ih hcore
      rw [Operation.plain_cons_of_plain hop, transcript_cons_of_plain hop,
        transcript_cons_of_plain hop, hanswer, hcore, hshown]
      exact ⟨rfl, hlast⟩

theorem agrees_of_plain_eq (h : m.Agrees n) {ops ops' : List Operation}
    (hops : Operation.plain ops = Operation.plain ops') :
    (m.performAll ops).2.Agrees (n.performAll ops').2 := by
  have hlast := (transcript_plain (agrees_iff.mp h) ops).2
  have hlast' := (transcript_plain (rfl : n.core = n.core) ops').2
  rw [hops] at hlast
  exact agrees_iff.mpr (hlast.trans hlast'.symm)

/-- Runs of machines that are changed in place, where a step counts its cycle and takes its row
before it answers, come to the same in machines that differ only in their traces. -/
theorem Agrees.performAlike (h : m.Agrees n) (budget : UInt64) :
    ((Work.execute budget).perform m.device).1 = ((Work.execute budget).perform n.device).1 ∧
      ((Work.execute budget).perform m.device).2.core
        = ((Work.execute budget).perform n.device).2.core := by
  rw [Work.perform_execute, Work.perform_execute]
  exact execute_sameButTrace (agrees_iff.mp h) budget

/-- Machines that agree on state, memory and layout, and that are asked for the same but for their
traces, answer each operation alike, and agree whenever they have carried out as much of it. So do
they where a run changes them in place, the trace with the rest. -/
theorem observation_changes_nothing (h : m.Agrees n) {ops ops' : List Operation}
    (hops : Operation.plain ops = Operation.plain ops') :
    m.transcript ops = n.transcript ops' ∧
      ∀ done done', done <+: ops → done' <+: ops' →
        Operation.plain done = Operation.plain done' →
          (m.performAll done).2.Agrees (n.performAll done').2 ∧
          ∀ budget, ((Work.execute budget).perform (m.performAll done).2.device).1
              = ((Work.execute budget).perform (n.performAll done').2.device).1 ∧
            ((Work.execute budget).perform (m.performAll done).2.device).2.core
              = ((Work.execute budget).perform (n.performAll done').2.device).2.core := by
  have hshown := (transcript_plain (agrees_iff.mp h) ops).1
  have hshown' := (transcript_plain (rfl : n.core = n.core) ops').1
  rw [hops] at hshown
  refine ⟨hshown.trans hshown'.symm, ?_⟩
  intro done done' _ _ hdone
  have hagrees := agrees_of_plain_eq h hdone
  exact ⟨hagrees, hagrees.performAlike⟩

/-- A machine that takes rows and holds one already, and a machine that takes none: what they answer
does not tell them apart. -/
theorem observation_changes_nothing_on_blank_machine :
    let row : TraceRow := .ofState (.initial .standard) 0 0
    let m : Machine := ⟨.initial .standard, (Trace.empty true 4).push row⟩
    let n : Machine := ⟨.initial .standard, .empty false 0⟩
    let ops : List Operation := [.step, .takeTrace, .execute 0, .snapshot]
    let ops' : List Operation := [.trace, .step, .execute 0, .trace, .snapshot, .takeTrace]
    m.trace.rows ≠ n.trace.rows ∧ m.transcript ops = n.transcript ops' ∧
      (m.performAll ops).2.Agrees (n.performAll ops').2 := by
  intro row m n ops ops'
  have hrows : m.trace.rows = [row] := rfl
  have hagrees : m.Agrees n := ⟨rfl, rfl, rfl⟩
  have hops : Operation.plain ops = Operation.plain ops' := rfl
  obtain ⟨hshown, hstays⟩ := observation_changes_nothing hagrees hops
  refine ⟨?_, hshown, (hstays ops ops' List.prefix_rfl List.prefix_rfl hops).1⟩
  rw [hrows]
  exact List.cons_ne_nil row []

end Machine

end ByteMachine
