import ByteMachine.Proofs.StatusFlags
import Mathlib.Data.List.Chain

/-!
What a trace shows. A step of a running machine completes one cycle, unless it fails before its
instruction has had an effect; the counter of the machine tells which. The trace holds the rows of
the latest cycles completed since it was last emptied, whatever was done to the machine meanwhile.
-/

namespace ByteMachine

/-- A completed cycle: the core that went into it and the core that it left. -/
structure Cycle where
  before : Core
  after : Core

/-- The row that shows a cycle: the address and the word that it fetched, and the state it left. -/
def Cycle.row (k : Cycle) : TraceRow where
  cycle := k.after.state.cycles
  pc := k.before.state.pc
  word := k.before.word
  registers := k.after.state.registers
  sp := k.after.state.sp
  flags := k.after.state.flags

namespace Trace

/-- A trace that holds the latest of some rows holds the latest of them and one more behind it. -/
theorem rows_push_of_latest {t : Trace} {rows : List TraceRow} (he : t.enabled = true)
    (h : t.rows = rows.drop (rows.length - t.limit)) (row : TraceRow) :
    (t.push row).rows = (rows ++ [row]).drop ((rows ++ [row]).length - t.limit) := by
  have hle : rows.length - t.limit ≤ rows.length := Nat.sub_le _ _
  have hdrop : rows.length - t.limit + (rows.length - (rows.length - t.limit) + 1 - t.limit)
      = (rows ++ [row]).length - t.limit := by
    rw [List.length_append, List.length_singleton]
    omega
  rw [rows_push_eq, if_pos he, h, List.length_drop, ← List.drop_append_of_le_length hle,
    List.drop_drop, hdrop]

end Trace

namespace Core

variable {c : Core}

/-- The cycle that the next step completes. The counter tells whether it completes one. -/
def cycle? (c : Core) : Option Cycle :=
  if c.step.core.state.cycles = c.state.cycles then none else some ⟨c, c.step.core⟩

/-- A step completes no cycle and has no row, or it completes one and its row shows it. -/
inductive CycleCase (c : Core) : Prop
  | idle (hk : c.cycle? = none) (hrow : c.step.row? = none)
      (hcycles : c.step.core.state.cycles = c.state.cycles)
  | completed (running : c.state.status = .running) (hk : c.cycle? = some ⟨c, c.step.core⟩)
      (hrow : c.step.row? = some (Cycle.row ⟨c, c.step.core⟩))
      (hcycles : c.step.core.state.cycles = c.state.cycles + 1)

theorem CycleCase.of_idle (hrow : c.step.row? = none)
    (hcycles : c.step.core.state.cycles = c.state.cycles) : CycleCase c :=
  .idle (if_pos hcycles) hrow hcycles

theorem CycleCase.of_completed (running : c.state.status = .running)
    (hrow : c.step.row? = some (Cycle.row ⟨c, c.step.core⟩))
    (hcycles : c.step.core.state.cycles = c.state.cycles + 1) : CycleCase c := by
  have hne : c.step.core.state.cycles ≠ c.state.cycles := by
    rw [hcycles]
    simp
  exact .completed running (if_neg hne) hrow hcycles

theorem cycleCase (c : Core) : CycleCase c := by
  cases hstatus : c.state.status with
  | halted reason =>
    have hs := step_of_halted c hstatus
    exact .of_idle (by rw [hs]) (by rw [hs])
  | faulted fault =>
    have hs := step_of_faulted c hstatus
    exact .of_idle (by rw [hs]) (by rw [hs])
  | running =>
    rcases exit hstatus with ⟨f, -, hs⟩ | hs | hs | ⟨i, target, -, hs⟩ | ⟨i, -, hs⟩
    · exact .of_idle (by rw [hs]; rfl) (by rw [hs]; rfl)
    · exact .of_completed hstatus (by rw [hs]; rfl) (by rw [hs]; rfl)
    · exact .of_completed hstatus (by rw [hs]; rfl) (by rw [hs]; rfl)
    · have hcycles := (Instruction.outcome_frame i c.memory c.state).2.1
      refine .of_completed hstatus (by rw [hs]; rfl) ?_
      rw [hs, ← hcycles]
      rfl
    · have hcycles := (Instruction.outcome_frame i c.memory c.state).2.1
      refine .of_completed hstatus (by rw [hs]; rfl) ?_
      rw [hs, ← hcycles]
      rfl

/-- Only a failure before any effect keeps the step of a running core from counting. -/
theorem failure_of_cycles_eq (running : c.state.status = .running)
    (h : c.step.core.state.cycles = c.state.cycles) :
    ∃ f, c.failure? = some f ∧ f.late = false := by
  rcases stepCase running with ⟨word, fault, hf, -⟩ | ⟨i, -, -, hs⟩ | ⟨status, -, hs⟩
  · exact ⟨_, hf, rfl⟩
  · have hcycles : ((c.applied i).ranOut c.state.pc c.word).core.state.cycles
        = c.state.cycles + 1 :=
      congrArg (· + 1) (Instruction.outcome_frame i c.memory c.state).2.1
    rw [hs, hcycles] at h
    exact absurd h (by simp)
  · rw [(step_of_answer running hs).1] at h
    exact absurd h (by simp)

theorem halt_flag_of_step (running : c.state.status = .running) {reason : HaltReason}
    (h : c.step.core.state.status = .halted reason) :
    c.step.core.state.flags.isSet .halt = true := by
  rcases exit running with ⟨f, -, hs⟩ | hs | hs | ⟨i, target, -, hs⟩ | ⟨i, -, hs⟩
  · rw [hs] at h
    cases h
  · rw [hs]
    exact c.state.flags.isSet_set_halt
  · rw [hs]
    exact (c.applied .hlt).state.flags.isSet_set_halt
  · have hrunning := (Instruction.outcome_frame i c.memory c.state).2.2
    rw [hs] at h
    cases (hrunning.trans running).symm.trans h
  · rw [hs] at h
    cases h

end Core

/-- What a row says of its cycle is so: the core that went into the cycle was running, the word was
the one at its program counter, and the rest is what its step left. -/
structure Cycle.Genuine (k : Cycle) : Prop where
  running : k.before.state.status = .running
  fetched : k.before.memory.readWord? k.row.pc = some k.row.word
  left : k.after = k.before.step.core
  counted : k.row.cycle = k.before.state.cycles + 1
  halted : ∀ reason, k.after.state.status = .halted reason → k.row.flags.isSet .halt = true

theorem Cycle.genuine {k : Cycle} (h : k.before.cycle? = some k) : k.Genuine := by
  rcases k.before.cycleCase with ⟨hk, -, -⟩ | ⟨running, hk, -, hcycles⟩
  · cases hk.symm.trans h
  · have hpc : k.before.state.pc ≠ 0xFFFF := by
      intro hlast
      rw [Core.step_at_last running hlast] at hcycles
      exact absurd hcycles (by simp [Core.failed, State.fail])
    have hleft : k.after = k.before.step.core :=
      congrArg Cycle.after (Option.some.inj (h.symm.trans hk))
    refine ⟨running, ?_, hleft, ?_, ?_⟩
    · exact Memory.readWord?_of_ne_last k.before.memory hpc
    · rw [row, hleft]
      exact hcycles
    · intro reason hreason
      rw [hleft] at hreason
      rw [row, hleft]
      exact Core.halt_flag_of_step running hreason

namespace Machine

/-- The cycles that a machine completes in a number of steps. -/
def cyclesWithin (m : Machine) (n : Nat) : List Cycle :=
  (List.range n).filterMap fun k => (m.after k).core.cycle?

/-- The cycles that a machine completes in an operation. -/
def completedBy (m : Machine) (op : Operation) : List Cycle :=
  m.cyclesWithin op.steps

/-- The cycles that a machine has completed behind some operations since its trace was last emptied,
where `past` are those that it had completed before the operations. -/
def cyclesSince (m : Machine) (past : List Cycle) : List Operation → List Cycle
  | [] => past
  | op :: ops =>
    (m.perform op).2.cyclesSince (if m.emptiesTrace op then [] else past ++ m.completedBy op) ops

theorem cyclesWithin_zero (m : Machine) : m.cyclesWithin 0 = [] :=
  rfl

theorem cyclesWithin_succ (m : Machine) (n : Nat) :
    m.cyclesWithin (n + 1) = m.cyclesWithin n ++ (m.after n).core.cycle?.toList := by
  rw [cyclesWithin, List.range_succ, List.filterMap_append]
  cases hk : (m.after n).core.cycle? with
  | none => simp [cyclesWithin, hk]
  | some k => simp [cyclesWithin, hk]

theorem completedBy_step (m : Machine) : m.completedBy .step = m.core.cycle?.toList :=
  m.cyclesWithin_succ 0

/-- What a machine and its trace say of the cycles completed since the trace was last emptied. -/
structure Records (tracing : Bool) (limit : Nat) (m : Machine) (past : List Cycle) : Prop where
  enabled : m.trace.enabled = tracing
  limited : m.trace.limit = limit
  rows : m.trace.rows = if tracing then (past.map Cycle.row).drop (past.length - limit) else []
  consecutive : past.IsChain fun k k' => k'.after.state.cycles = k.after.state.cycles + 1
  newest : ∀ k ∈ past.getLast?, k.after.state.cycles = m.state.cycles
  completed : ∀ k ∈ past, k.before.cycle? = some k

variable {tracing : Bool} {limit : Nat} {m : Machine} {past : List Cycle}

theorem records_of_rows_eq_nil (henabled : m.trace.enabled = tracing)
    (hlimit : m.trace.limit = limit) (hrows : m.trace.rows = []) : Records tracing limit m [] where
  enabled := henabled
  limited := hlimit
  rows := by
    rw [hrows]
    cases tracing <;> simp
  consecutive := .nil
  newest := by simp
  completed := by simp

/-- Whatever else becomes of it, a machine whose trace is emptied records nothing. -/
theorem Records.cleared (h : Records tracing limit m past) (c : Core) :
    Records tracing limit { core := c, trace := m.trace.clear } [] :=
  records_of_rows_eq_nil h.enabled h.limited (Trace.rows_clear m.trace)

theorem Records.accessed (h : Records tracing limit m past) {c : Core}
    (hc : Core.Accessed m.core c) : Records tracing limit { m with core := c } past where
  enabled := h.enabled
  limited := h.limited
  rows := h.rows
  consecutive := h.consecutive
  newest k hk := (h.newest k hk).trans hc.cycles.symm
  completed := h.completed

/-- A trace that takes rows takes that of the next cycle, and any other takes none. -/
theorem Records.rows_push (h : Records tracing limit m past) (k : Cycle) :
    (m.trace.push k.row).rows =
      if tracing then ((past ++ [k]).map Cycle.row).drop ((past ++ [k]).length - limit)
      else [] := by
  have hrows := h.rows
  cases htracing : tracing with
  | false =>
    have hoff := h.enabled.trans htracing
    rw [htracing] at hrows
    rw [Trace.push_of_disabled _ _ hoff, hrows]
    rfl
  | true =>
    have hon := h.enabled.trans htracing
    have hlatest : m.trace.rows
        = (past.map Cycle.row).drop ((past.map Cycle.row).length - m.trace.limit) := by
      rw [hrows, htracing, if_pos rfl, h.limited, List.length_map]
    rw [Trace.rows_push_of_latest hon hlatest, h.limited, if_pos rfl, List.map_append,
      List.length_append, List.length_append, List.length_map]
    rfl

theorem Records.idle (h : Records tracing limit m past) (hrow : m.core.step.row? = none)
    (hcycles : m.core.step.core.state.cycles = m.core.state.cycles) :
    Records tracing limit m.step.2 past := by
  have htrace : m.step.2.trace = m.trace := by
    rw [trace_step, hrow, Option.elim_none]
  refine ⟨?_, ?_, ?_, h.consecutive, ?_, h.completed⟩
  · rw [htrace, h.enabled]
  · rw [htrace, h.limited]
  · rw [htrace, h.rows]
  · intro k hlast
    exact (h.newest k hlast).trans hcycles.symm

theorem Records.cycle (h : Records tracing limit m past)
    (hk : m.core.cycle? = some ⟨m.core, m.core.step.core⟩)
    (hrow : m.core.step.row? = some (Cycle.row ⟨m.core, m.core.step.core⟩))
    (hcycles : m.core.step.core.state.cycles = m.core.state.cycles + 1) :
    Records tracing limit m.step.2 (past ++ [⟨m.core, m.core.step.core⟩]) := by
  have htrace : m.step.2.trace = m.trace.push (Cycle.row ⟨m.core, m.core.step.core⟩) := by
    rw [trace_step, hrow, Option.elim_some]
  obtain ⟨henabled, hlimit⟩ := m.trace.settings_push (Cycle.row ⟨m.core, m.core.step.core⟩)
  refine ⟨?_, ?_, ?_, ?_, ?_, ?_⟩
  · rw [htrace, henabled, h.enabled]
  · rw [htrace, hlimit, h.limited]
  · rw [htrace, h.rows_push]
  · apply List.isChain_append.mpr
    refine ⟨h.consecutive, .singleton _, ?_⟩
    intro k hlast k' hk'
    obtain rfl : _ = k' := Option.some.inj hk'
    rw [h.newest k hlast]
    exact hcycles
  · intro k hlast
    rw [List.getLast?_append_of_ne_nil _ (by simp)] at hlast
    obtain rfl : _ = k := Option.some.inj hlast
    rfl
  · intro k hmem
    rcases List.mem_append.mp hmem with hpast | hnew
    · exact h.completed k hpast
    · obtain rfl := List.mem_singleton.mp hnew
      exact hk

theorem Records.step (h : Records tracing limit m past) :
    Records tracing limit m.step.2 (past ++ m.core.cycle?.toList) := by
  rcases m.core.cycleCase with ⟨hk, hrow, hcycles⟩ | ⟨running, hk, hrow, hcycles⟩
  · rw [hk, Option.toList_none, List.append_nil]
    exact h.idle hrow hcycles
  · rw [hk, Option.toList_some]
    exact h.cycle hk hrow hcycles

theorem Records.after (h : Records tracing limit m past) (n : Nat) :
    Records tracing limit (m.after n) (past ++ m.cyclesWithin n) := by
  induction n with
  | zero =>
    rw [cyclesWithin_zero, List.append_nil]
    exact h
  | succ n ih =>
    rw [cyclesWithin_succ, ← List.append_assoc]
    exact ih.step

theorem Records.perform (h : Records tracing limit m past) (op : Operation) :
    Records tracing limit (m.perform op).2
      (if m.emptiesTrace op then [] else past ++ m.completedBy op) := by
  -- Steps record their cycles, access from outside moves neither counter nor trace, and all else
  -- empties the trace.
  have hchange := m.change_perform op
  generalize (m.perform op).2 = m' at hchange
  cases hchange with
  | stepped _ _ htrace =>
    rw [htrace]
    exact h.after op.steps
  | accessed _ c hc hsteps htrace =>
    rw [htrace, completedBy, hsteps, cyclesWithin_zero, List.append_nil]
    exact h.accessed hc
  | taken => exact h.cleared m.core
  | reset => exact h.cleared _
  | resetWithPc pc => exact h.cleared _
  | restored s c hs =>
    have htrace : m.emptiesTrace (.restore s) = true := by
      rw [emptiesTrace, restore, hs]
      rfl
    rw [htrace]
    exact h.cleared c

theorem Records.performAll (h : Records tracing limit m past) (ops : List Operation) :
    Records tracing limit (m.performAll ops).2 (m.cyclesSince past ops) := by
  induction ops generalizing m past with
  | nil => exact h
  | cons op ops ih => exact ih (h.perform op)

theorem cyclesSince_execute (m : Machine) (past : List Cycle) (budget : UInt64)
    (ops : List Operation) :
    m.cyclesSince past (.execute budget :: ops)
      = (m.execute budget).2.cyclesSince (past ++ m.cyclesWithin budget.toNat) ops :=
  rfl

theorem cyclesSince_takeTrace (m : Machine) (past : List Cycle) (ops : List Operation) :
    m.cyclesSince past (.takeTrace :: ops) = m.takeTrace.2.cyclesSince [] ops :=
  rfl

/-- The counter of a machine counts the cycles that it completes. -/
theorem cycles_after (m : Machine) (n : Nat) :
    (m.after n).state.cycles = m.state.cycles + UInt64.ofNat (m.cyclesWithin n).length := by
  induction n with
  | zero => exact (UInt64.add_zero _).symm
  | succ n ih =>
    rw [cyclesWithin_succ, List.length_append, UInt64.ofNat_add, ← UInt64.add_assoc, ← ih]
    rcases (m.after n).core.cycleCase with ⟨hk, -, hcycles⟩ | ⟨-, hk, -, hcycles⟩
    · rw [hk]
      exact hcycles.trans (UInt64.add_zero _).symm
    · rw [hk]
      exact hcycles

theorem cycles_perform {op : Operation} (hop : m.emptiesTrace op = false) :
    (m.perform op).2.state.cycles
      = m.state.cycles + UInt64.ofNat (m.completedBy op).length := by
  have hchange := m.change_perform op
  generalize (m.perform op).2 = m' at hchange
  cases hchange with
  | stepped => exact m.cycles_after op.steps
  | accessed _ c hc hsteps =>
    rw [completedBy, hsteps]
    exact hc.cycles.trans (UInt64.add_zero _).symm
  | taken => cases hop
  | reset => cases hop
  | resetWithPc pc => cases hop
  | restored s c hs =>
    rw [emptiesTrace, restore, hs] at hop
    cases hop

/-- A new machine of a layout, or one made with a program. -/
inductive Made (layout : Layout) (tracing : Bool) (traceLimit : Nat) : Machine → Prop
  | new {m : Machine} (h : Machine.new layout tracing traceLimit = .ok m) :
      Made layout tracing traceLimit m
  | withProgram {p : Program} {m : Machine}
      (h : Machine.withProgram p layout tracing traceLimit = .ok m) :
      Made layout tracing traceLimit m

theorem records_of_made {layout : Layout} (h : Made layout tracing limit m) :
    Records tracing limit m [] := by
  cases h with
  | new h =>
    obtain ⟨-, rfl⟩ := new_eq_ok h
    exact records_of_rows_eq_nil rfl rfl (Trace.rows_empty tracing limit)
  | withProgram h =>
    obtain ⟨-, c, -, rfl⟩ := withProgram_eq_ok h
    exact records_of_rows_eq_nil rfl rfl (Trace.rows_empty tracing limit)

/-- What the trace of a machine shows of the cycles completed since it was last emptied, and what
the next step adds to both. Where the trace is a queue of rows in a machine that is changed in
place, a step and a run come to the same. -/
structure TraceRules (tracing : Bool) (limit : Nat) (m : Machine) (past : List Cycle) : Prop where
  latest : tracing = true → m.trace.rows = (past.map Cycle.row).drop (past.length - limit)
  length : tracing = true → m.trace.rows.length = min past.length limit
  consecutive : m.trace.rows.IsChain fun r r' => r'.cycle = r.cycle + 1
  newest : ∀ r ∈ m.trace.rows.getLast?, r.cycle = m.state.cycles
  genuine : ∀ k ∈ past, k.Genuine
  empty : tracing = false ∨ limit = 0 → m.trace.rows = []
  stopped : m.status ≠ .running → m.completedBy .step = [] ∧ m.step.2.trace = m.trace
  failed : m.status = .running → ∀ f, m.core.failure? = some f → f.late = false →
    m.completedBy .step = [] ∧ m.step.2.trace = m.trace
  completes : m.status = .running → (∀ f, m.core.failure? = some f → f.late = true) →
    m.completedBy .step = [⟨m.core, m.step.2.core⟩] ∧
      m.step.2.trace.rows =
        if tracing then
          (m.trace.rows ++ [Cycle.row ⟨m.core, m.step.2.core⟩]).drop
            (m.trace.rows.length + 1 - limit)
        else []
  ranOut : m.status = .running → ∀ f, m.core.failure? = some f → f.late = true →
    f.fault = .endOfMemory ∧ m.step.2.status = .faulted .endOfMemory
  counted : ∀ op, m.emptiesTrace op = false → (m.perform op).2.state.cycles
    = m.state.cycles + UInt64.ofNat (m.completedBy op).length
  steppedInPlace : Work.step.perform m.device = (m.step.1, m.step.2.device)
  runInPlace : ∀ budget, (Work.execute budget).perform m.device
    = ((m.execute budget).1, (m.execute budget).2.device)

theorem Records.rows_eq_nil (h : Records tracing limit m past)
    (hnone : tracing = false ∨ limit = 0) : m.trace.rows = [] := by
  rw [h.rows]
  rcases hnone with rfl | rfl
  · rfl
  · simp

theorem Records.consecutive_rows (h : Records tracing limit m past) :
    m.trace.rows.IsChain fun r r' => r'.cycle = r.cycle + 1 := by
  rw [h.rows]
  split
  · exact ((List.isChain_map Cycle.row).mpr h.consecutive).drop _
  · exact .nil

theorem Records.newest_row (h : Records tracing limit m past) :
    ∀ r ∈ m.trace.rows.getLast?, r.cycle = m.state.cycles := by
  intro r hr
  rw [h.rows] at hr
  split at hr
  · rw [List.getLast?_drop] at hr
    split at hr
    · cases hr
    · rw [List.getLast?_map] at hr
      obtain ⟨k, hk, rfl⟩ := Option.map_eq_some_iff.mp hr
      exact h.newest k hk
  · cases hr

theorem completedBy_step_of_stopped (h : m.status ≠ .running) :
    m.completedBy .step = [] ∧ m.step.2.trace = m.trace := by
  have hidle : m.core.cycle? = none := by
    rw [Core.cycle?, ← core_step, step_of_stopped h]
    exact if_pos rfl
  rw [completedBy_step, hidle, step_of_stopped h]
  exact ⟨rfl, rfl⟩

theorem completedBy_step_of_failed (running : m.status = .running) {f : Failure}
    (hf : m.core.failure? = some f) (early : f.late = false) :
    m.completedBy .step = [] ∧ m.step.2.trace = m.trace := by
  have hs := Core.step_of_early_failure running hf early
  have hidle : m.core.cycle? = none := by
    rw [Core.cycle?, hs]
    exact if_pos rfl
  rw [completedBy_step, hidle, trace_step, hs]
  exact ⟨rfl, rfl⟩

/-- A step that does not fail before its instruction has had an effect completes a cycle. -/
theorem completedBy_step_of_completes (running : m.status = .running)
    (hf : ∀ f, m.core.failure? = some f → f.late = true) :
    m.completedBy .step = [⟨m.core, m.step.2.core⟩] ∧
      m.step.2.trace = m.trace.push (Cycle.row ⟨m.core, m.step.2.core⟩) := by
  rcases m.core.cycleCase with ⟨-, -, hcycles⟩ | ⟨-, hk, hrow, -⟩
  · obtain ⟨f, hfail, early⟩ := Core.failure_of_cycles_eq running hcycles
    cases early.symm.trans (hf f hfail)
  · rw [completedBy_step, hk, trace_step, hrow]
    exact ⟨rfl, rfl⟩

theorem Records.traceRules (h : Records tracing limit m past) :
    TraceRules tracing limit m past where
  latest htracing := by rw [h.rows, if_pos htracing]
  length htracing := by
    rw [h.rows, if_pos htracing, List.length_drop, List.length_map]
    omega
  consecutive := h.consecutive_rows
  newest := h.newest_row
  genuine k hk := Cycle.genuine (h.completed k hk)
  empty hnone := h.rows_eq_nil hnone
  stopped hm := completedBy_step_of_stopped hm
  failed running _ hf early := completedBy_step_of_failed running hf early
  completes running hf := by
    obtain ⟨hcompleted, htrace⟩ := completedBy_step_of_completes running hf
    refine ⟨hcompleted, ?_⟩
    rw [htrace, Trace.rows_push_eq, h.enabled, h.limited]
    cases htracing : tracing with
    | true => rfl
    | false => exact h.rows_eq_nil (.inl htracing)
  ranOut running _ hf late := by
    obtain ⟨rfl, -, hs⟩ := Core.step_of_late_failure running hf late
    refine ⟨rfl, ?_⟩
    rw [status, core_step, hs]
    rfl
  counted _ hop := cycles_perform hop
  steppedInPlace := Work.perform_step m
  runInPlace := Work.perform_execute m

/-- Whatever is done to a machine, its trace shows the latest of the cycles that it has completed
since the trace was last emptied, as far as the limit allows. -/
theorem traceRules_of_made {layout : Layout} {traceLimit : Nat} {m : Machine}
    (h : Made layout tracing traceLimit m) (ops : List Operation) :
    TraceRules tracing traceLimit (m.performAll ops).2 (m.cyclesSince [] ops) :=
  ((records_of_made h).performAll ops).traceRules

end Machine

namespace Core

/-- A core that jumps from the address 0 to itself, by `jp r0, r0`, behind some cycles. -/
def spinning (cycles : UInt64) : Core where
  layout := .standard
  state := { State.initial .standard with pc := 0, cycles }
  memory := Memory.zero.write 0 0x60

theorem word_spinning (cycles : UInt64) : (spinning cycles).word = 0x6000 := by
  have hhi : (Memory.zero.write 0 0x60).read 0 = 0x60 := Memory.read_write_self _ _ _
  have hlo : (Memory.zero.write 0 0x60).read 1 = 0 := by
    rw [Memory.read_write_of_ne _ _ (by decide), Memory.read_zero]
  change wordOfBytes ((Memory.zero.write 0 0x60).read 0) ((Memory.zero.write 0 0x60).read 1) = _
  rw [hhi, hlo]
  rfl

theorem step_spinning (cycles : UInt64) :
    (spinning cycles).step = (spinning cycles).completed 0 0x6000 := by
  have hword := word_spinning cycles
  have hjump : (spinning cycles).executed? = some (.jp ⟨0⟩ ⟨0⟩) := by
    have hpc : (0 : UInt16) ≠ 0xFFFF := by decide
    have hcode : (spinning cycles).word ≠ 0 := by
      rw [hword]
      decide
    rw [executed?, current?, if_pos ⟨rfl, hpc, hcode⟩, hword]
    rfl
  have houtcome : (Instruction.jp ⟨0⟩ ⟨0⟩).outcome (spinning cycles).memory (spinning cycles).state
      = { state := (spinning cycles).state, store? := none, flow := .jump 0 } := by
    have hvalue : (spinning cycles).state.value ⟨0⟩ = 0 := rfl
    have htarget : (spinning cycles).state.target ⟨0⟩ ⟨0⟩ = 0 := by
      rw [State.target, hvalue, wordOfBytes_zero]
      rfl
    rw [Instruction.outcome, htarget]
  rw [step_of_executed hjump, hword, applied, houtcome]
  rfl

end Core

/-- One round of a core that jumps to itself. -/
def Cycle.spin (cycles : UInt64) : Cycle where
  before := .spinning cycles
  after := .spinning (cycles + 1)

namespace Machine

theorem core_after_spinning {m : Machine} {cycles : UInt64} (h : m.core = .spinning cycles)
    (n : Nat) : (m.after n).core = .spinning (cycles + UInt64.ofNat n) := by
  induction n with
  | zero =>
    have hnone : cycles + UInt64.ofNat 0 = cycles := UInt64.add_zero cycles
    rw [hnone]
    exact h
  | succ n ih =>
    rw [core_after_succ, ih, Core.step_spinning, UInt64.ofNat_add, ← UInt64.add_assoc]
    rfl

theorem cyclesWithin_of_spinning {m : Machine} {cycles : UInt64} (h : m.core = .spinning cycles)
    (n : Nat) :
    m.cyclesWithin n = (List.range n).map fun k => .spin (cycles + UInt64.ofNat k) := by
  rw [cyclesWithin, ← List.filterMap_eq_map]
  apply List.filterMap_congr
  intro k _
  have hne : cycles + UInt64.ofNat k + 1 ≠ cycles + UInt64.ofNat k := by simp
  rw [core_after_spinning h, Core.cycle?, Core.step_spinning]
  exact if_neg hne

theorem core_execute_of_spinning {m : Machine} {cycles : UInt64} (h : m.core = .spinning cycles)
    (budget : UInt64) : (m.execute budget).2.core = .spinning (cycles + budget) := by
  rw [execute_snd, advance_snd, core_after_spinning h, UInt64.ofNat_toNat]

theorem cyclesSince_of_spinning {m : Machine} {cycles : UInt64} (h : m.core = .spinning cycles)
    (budget : UInt64) :
    m.cyclesSince [] [.execute budget]
      = (List.range budget.toNat).map fun k => .spin (cycles + UInt64.ofNat k) := by
  rw [cyclesSince_execute, cyclesWithin_of_spinning h, List.nil_append, cyclesSince]

theorem cyclesSince_takeTrace_of_spinning {m : Machine} {cycles : UInt64}
    (h : m.core = .spinning cycles) (before budget : UInt64) :
    m.cyclesSince [] [.execute before, .takeTrace, .execute budget]
      = (List.range budget.toNat).map fun k => .spin (cycles + before + UInt64.ofNat k) := by
  have htaken : (m.execute before).2.takeTrace.2.core = .spinning (cycles + before) :=
    core_execute_of_spinning h before
  rw [cyclesSince_execute, cyclesSince_takeTrace, cyclesSince_of_spinning htaken]

/-- A machine that completes three cycles under a limit of two rows, gives its trace away and
completes three more: of those its trace has the latest two. -/
theorem traceRules_of_spinning_machine :
    let m : Machine := ⟨.initial .standard, .empty true 2⟩
    let start : List Operation := [.writeMemory 0 0x60, .setPc 0, .execute 3]
    let ops : List Operation := start ++ [.takeTrace, .execute 3]
    let row (cycle : UInt64) : TraceRow := ⟨cycle, 0, 0x6000, Vector.replicate 8 0, 0x00FF, .none⟩
    Made .standard true 2 m ∧
      TraceRules true 2 (m.performAll start).2 (m.cyclesSince [] start) ∧
      TraceRules true 2 (m.performAll ops).2 (m.cyclesSince [] ops) ∧
      m.cyclesSince [] start = [.spin 0, .spin 1, .spin 2] ∧
      (m.performAll start).2.trace.rows = [row 2, row 3] ∧
      m.cyclesSince [] ops = [.spin 3, .spin 4, .spin 5] ∧
      (m.performAll ops).2.trace.rows = [row 5, row 6] := by
  intro m start ops row
  have hmade : Made .standard true 2 m := .new rfl
  have hstart := traceRules_of_made hmade start
  have hrules := traceRules_of_made hmade ops
  have hrow (cycles : UInt64) : (Cycle.spin cycles).row = row (cycles + 1) := by
    rw [Cycle.row, Cycle.spin, Core.word_spinning]
    rfl
  have hlead (rest : List Operation) : m.cyclesSince [] (.writeMemory 0 0x60 :: .setPc 0 :: rest)
      = ((m.writeMemory 0 0x60).setPc 0).cyclesSince [] rest := rfl
  have hfirst : ((m.writeMemory 0 0x60).setPc 0).core = .spinning 0 := rfl
  have hthree : m.cyclesSince [] start = [.spin 0, .spin 1, .spin 2] :=
    (hlead _).trans (cyclesSince_of_spinning hfirst 3)
  have hmore : m.cyclesSince [] ops = [.spin 3, .spin 4, .spin 5] :=
    (hlead _).trans (cyclesSince_takeTrace_of_spinning hfirst 3 3)
  refine ⟨hmade, hstart, hrules, hthree, ?_, hmore, ?_⟩
  · rw [hstart.latest rfl, hthree]
    exact congrArg₂ (fun r r' => [r, r']) (hrow 1) (hrow 2)
  · rw [hrules.latest rfl, hmore]
    exact congrArg₂ (fun r r' => [r, r']) (hrow 4) (hrow 5)

end Machine

end ByteMachine
