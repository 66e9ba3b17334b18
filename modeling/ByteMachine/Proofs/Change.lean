import ByteMachine.Proofs.Exit
import ByteMachine.Proofs.Operation
import ByteMachine.Proofs.SnapshotBytes

/-!
What an operation does to a machine, told once for all of them: it takes steps, or it reaches into
memory, registers and the program counter from outside, or it empties the trace. So what each of
these keeps is kept by all that can be done to a machine.
-/

namespace ByteMachine

theorem exists_of_bind_eq_ok {ε α β : Type} {x : Except ε α} {f : α → Except ε β} {b : β}
    (h : (x >>= f) = .ok b) : ∃ a, x = .ok a ∧ f a = .ok b := by
  cases x with
  | error e => exact absurd h (by simp [bind, Except.bind])
  | ok a => exact ⟨a, rfl, h⟩

namespace Operation

/-- How many steps an operation takes, if the machine does not stop before that. -/
def steps : Operation → Nat
  | step => 1
  | execute budget => budget.toNat
  | run => Machine.unbounded.toNat
  | _ => 0

/-- Whether an operation makes a machine what it was at its start or what another was. -/
def restarts : Operation → Bool
  | reset => true
  | resetWithPc _ => true
  | restore _ => true
  | _ => false

end Operation

namespace Core

/-- What access from outside leaves as it is: all but memory, registers and the program counter. -/
structure Accessed (c d : Core) : Prop where
  layout : d.layout = c.layout
  sp : d.state.sp = c.state.sp
  flags : d.state.flags = c.state.flags
  cycles : d.state.cycles = c.state.cycles
  status : d.state.status = c.state.status

theorem Accessed.refl (c : Core) : Accessed c c :=
  ⟨rfl, rfl, rfl, rfl, rfl⟩

theorem Accessed.trans {c d e : Core} (h : Accessed c d) (h' : Accessed d e) : Accessed c e where
  layout := h'.layout.trans h.layout
  sp := h'.sp.trans h.sp
  flags := h'.flags.trans h.flags
  cycles := h'.cycles.trans h.cycles
  status := h'.status.trans h.status

theorem Accessed.memory (c : Core) (memory : Memory) : Accessed c { c with memory } :=
  ⟨rfl, rfl, rfl, rfl, rfl⟩

theorem Accessed.registers (c : Core) (registers : Vector UInt8 registerCount) :
    Accessed c { c with state.registers := registers } :=
  ⟨rfl, rfl, rfl, rfl, rfl⟩

theorem Accessed.goTo (c : Core) (target : UInt16) : Accessed c (c.goTo target) :=
  ⟨rfl, rfl, rfl, rfl, rfl⟩

theorem checkLayout_eq_ok_iff (layout : Layout) :
    checkLayout layout = .ok () ↔ layout.validate = .ok () := by
  unfold checkLayout
  cases layout.validate with
  | error e => exact ⟨nofun, nofun⟩
  | ok u => exact ⟨fun _ => rfl, fun _ => rfl⟩

theorem eq_of_ofSnapshot {c d : Core} (h : ofSnapshot c.snapshot = .ok d) : d = c := by
  obtain ⟨-, -, h⟩ := exists_of_bind_eq_ok h
  obtain ⟨memory, hmemory, h⟩ := exists_of_bind_eq_ok h
  have hsize : c.memory.bytes.toArray.size = memorySize := c.memory.bytes.size_toArray
  have hm : Memory.ofBytes c.snapshot.memory = .ok c.memory := dif_pos hsize
  obtain rfl := Except.ok.inj (hm.symm.trans hmemory)
  exact (Except.ok.inj h).symm

end Core

namespace Machine

theorem new_eq_ok {layout : Layout} {tracing : Bool} {traceLimit : Nat} {m : Machine}
    (h : new layout tracing traceLimit = .ok m) :
    layout.validate = .ok () ∧ m = ⟨.initial layout, .empty tracing traceLimit⟩ := by
  obtain ⟨_, hcheck, h⟩ := exists_of_bind_eq_ok h
  exact ⟨(Core.checkLayout_eq_ok_iff layout).mp hcheck, (Except.ok.inj h).symm⟩

/-- Whether an operation empties the trace. A snapshot that is refused does not. -/
def emptiesTrace (m : Machine) : Operation → Bool
  | .reset => true
  | .resetWithPc _ => true
  | .takeTrace => true
  | .restore s => (m.restore s).isOk
  | _ => false

/-- The ways in which an operation changes a machine. -/
inductive Change (m : Machine) : Operation → Machine → Prop
  | stepped (op : Operation) (hop : op.restarts = false) (htrace : m.emptiesTrace op = false) :
      Change m op (m.after op.steps)
  | accessed (op : Operation) (c : Core) (hc : Core.Accessed m.core c) (hop : op.steps = 0)
      (htrace : m.emptiesTrace op = false) : Change m op { m with core := c }
  | taken : Change m .takeTrace { m with trace := m.trace.clear }
  | reset : Change m .reset (m.resetWithPc m.layout.resetPc)
  | resetWithPc (pc : UInt16) : Change m (.resetWithPc pc) (m.resetWithPc pc)
  | restored (s : Snapshot) (c : Core) (hs : Core.ofSnapshot s = .ok c) :
      Change m (.restore s) { core := c, trace := m.trace.clear }

theorem accessed_of_load {m m' : Machine} {base : UInt16} {words : List UInt16}
    (h : m.load base words = .ok m') :
    ∃ c, Core.Accessed m.core c ∧ m' = { m with core := c } := by
  unfold load at h
  cases hl : m.core.memory.load base words with
  | error e => simp [hl] at h
  | ok memory =>
    rw [hl] at h
    exact ⟨_, .memory m.core memory, (Except.ok.inj h).symm⟩

theorem accessed_of_writeInstruction {m m' : Machine} {address word : UInt16}
    (h : m.writeInstruction address word = .ok m') :
    ∃ c, Core.Accessed m.core c ∧ m' = { m with core := c } := by
  unfold writeInstruction at h
  cases hl : m.core.memory.writeWord address word with
  | error e => simp [hl] at h
  | ok memory =>
    rw [hl] at h
    exact ⟨_, .memory m.core memory, (Except.ok.inj h).symm⟩

theorem accessed_of_writeRegister {m m' : Machine} {index : Nat} {value : UInt8}
    (h : m.writeRegister index value = .ok m') :
    ∃ c, Core.Accessed m.core c ∧ m' = { m with core := c } := by
  unfold writeRegister at h
  split at h
  · next hi =>
    exact ⟨_, .registers m.core (m.core.state.registers.set index value hi),
      (Except.ok.inj h).symm⟩
  · exact absurd h (by simp)

/-- A machine made with a program is a new one that has been reached into. -/
theorem withProgram_eq_ok {p : Program} {layout : Layout} {tracing : Bool} {traceLimit : Nat}
    {m : Machine} (h : withProgram p layout tracing traceLimit = .ok m) :
    layout.validate = .ok () ∧
      ∃ c, Core.Accessed (.initial layout) c ∧ m = ⟨c, .empty tracing traceLimit⟩ := by
  obtain ⟨m₀, hnew, h⟩ := exists_of_bind_eq_ok h
  obtain ⟨m₁, hload, h⟩ := exists_of_bind_eq_ok h
  obtain rfl := Except.ok.inj h
  obtain ⟨hvalid, rfl⟩ := new_eq_ok hnew
  obtain ⟨c, hc, rfl⟩ := accessed_of_load hload
  exact ⟨hvalid, _, hc.trans (.goTo c p.base), rfl⟩

/-- A request that is refused changes nothing. -/
theorem change_settle {m : Machine} {op : Operation} {r : Except MachineError Machine}
    (hr : ∀ m', r = .ok m' → ∃ c, Core.Accessed m.core c ∧ m' = { m with core := c })
    (hop : op.steps = 0) (htrace : m.emptiesTrace op = false) : Change m op (m.settle r).2 := by
  cases r with
  | error e => exact .accessed op m.core (.refl m.core) hop htrace
  | ok m' =>
    obtain ⟨c, hc, rfl⟩ := hr m' rfl
    exact .accessed op c hc hop htrace

theorem change_perform (m : Machine) (op : Operation) : Change m op (m.perform op).2 := by
  cases op with
  | load base words => exact change_settle (fun _ h => accessed_of_load h) rfl rfl
  | loadProgram p => exact change_settle (fun _ h => accessed_of_load h) rfl rfl
  | writeInstruction address word =>
    exact change_settle (fun _ h => accessed_of_writeInstruction h) rfl rfl
  | writeRegister index value =>
    exact change_settle (fun _ h => accessed_of_writeRegister h) rfl rfl
  | writeMemory address value => exact .accessed _ _ (.memory m.core _) rfl rfl
  | setPc pc => exact .accessed _ _ (.goTo m.core pc) rfl rfl
  | step => exact .stepped .step rfl rfl
  | execute budget =>
    have hafter : (m.execute budget).2 = m.after budget.toNat := by rw [execute_snd, advance_snd]
    change Change m _ (m.execute budget).2
    rw [hafter]
    exact .stepped (.execute budget) rfl rfl
  | run =>
    have hafter : m.run.2 = m.after unbounded.toNat := by rw [run, execute_snd, advance_snd]
    change Change m _ m.run.2
    rw [hafter]
    exact .stepped .run rfl rfl
  | reset => exact .reset
  | resetWithPc pc => exact .resetWithPc pc
  | takeTrace => exact .taken
  | restore s =>
    cases hs : Core.ofSnapshot s with
    | ok c =>
      have hrestore : m.restore s = .ok { core := c, trace := m.trace.clear } := by
        rw [restore, hs]
        rfl
      change Change m _ (m.settle (m.restore s)).2
      rw [hrestore]
      exact .restored s c hs
    | error e =>
      have hrestore : m.restore s = .error e := by
        rw [restore, hs]
        rfl
      have htrace : m.emptiesTrace (.restore s) = false := by
        rw [emptiesTrace, hrestore]
        rfl
      change Change m _ (m.settle (m.restore s)).2
      rw [hrestore]
      exact .accessed _ m.core (.refl m.core) rfl htrace
  | _ => exact .stepped _ rfl rfl

theorem ofBytes_snapshot (m : Machine) : Snapshot.ofBytes m.snapshot.toBytes = .ok m.snapshot := by
  apply Snapshot.ofBytes_toBytes
  have hsize : m.snapshot.memory.size = memorySize := m.core.memory.bytes.size_toArray
  rw [hsize]
  decide

theorem CopiedAs.eq_snapshot {m : Machine} {s : Snapshot} (h : m.CopiedAs s) : s = m.snapshot := by
  cases h with
  | taken => rfl
  | read s h => exact (Except.ok.inj (m.ofBytes_snapshot.symm.trans h)).symm

/-- What holds of every new core and is kept by all that changes one. -/
structure Kept (P : Core → Prop) : Prop where
  new : ∀ layout, layout.validate = .ok () → P (.initial layout)
  reset : ∀ c, P c → P (.initial c.layout)
  accessed : ∀ c d, P c → Core.Accessed c d → P d
  step : ∀ c, P c → P c.step.core

variable {P : Core → Prop}

theorem Kept.after (hP : Kept P) {m : Machine} (h : P m.core) (n : Nat) : P (m.after n).core :=
  after_preserves (P := fun m => P m.core) (fun m hm => hP.step m.core hm) h n

theorem Kept.resetWithPc (hP : Kept P) {m : Machine} (h : P m.core) (pc : UInt16) :
    P (m.resetWithPc pc).core :=
  hP.accessed _ _ (hP.reset m.core h) (.goTo _ pc)

/-- What every operation keeps holds of the reachable machines. -/
theorem Reachable.kept (hP : Kept P) {m : Machine} (h : Reachable m) : P m.core := by
  -- The induction is on the operations made. A restored core was one of a reachable machine.
  induction h with
  | new h =>
    obtain ⟨hvalid, rfl⟩ := new_eq_ok h
    exact hP.new _ hvalid
  | withProgram h =>
    obtain ⟨hvalid, c, hc, rfl⟩ := withProgram_eq_ok h
    exact hP.accessed _ _ (hP.new _ hvalid) hc
  | @perform m _ op hop ih =>
    have hchange := m.change_perform op
    generalize (m.perform op).2 = m' at hchange
    cases hchange with
    | stepped => exact hP.after ih op.steps
    | accessed _ c hc => exact hP.accessed _ _ ih hc
    | taken => exact ih
    | reset => exact hP.resetWithPc ih _
    | resetWithPc pc => exact hP.resetWithPc ih pc
    | restored s => exact absurd rfl (hop s)
  | @restore m source s _ _ hs ih ihsource =>
    obtain rfl := hs.eq_snapshot
    have hchange := m.change_perform (.restore source.snapshot)
    generalize (m.perform (.restore source.snapshot)).2 = m' at hchange
    cases hchange with
    | stepped _ hop => cases hop
    | accessed _ c hc => exact hP.accessed _ _ ih hc
    | restored _ c hc =>
      obtain rfl := Core.eq_of_ofSnapshot hc
      exact ihsource

end Machine

end ByteMachine
