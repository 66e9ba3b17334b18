import ByteMachine.Proofs.Change

/-!
The stack pointer of a machine stays within the stack window of its layout, whatever is done to the
machine. So a push writes and a pop reads inside the window, and a machine can always be put back
where a copy of it was taken.
-/

namespace ByteMachine

namespace Layout

theorem validate_eq_ok_iff (l : Layout) :
    l.validate = .ok () ↔
      l.stackSize ≠ 0 ∧ l.stackSize ≤ l.stackTop ∧ l.inStack l.resetPc = false := by
  unfold validate
  by_cases hsize : l.stackSize = 0
  · simp [hsize]
  by_cases hroom : l.stackTop < l.stackSize
  · have hnle : ¬ l.stackSize ≤ l.stackTop := UInt16.not_le.mpr hroom
    simp [hsize, hroom, hnle]
  have hle : l.stackSize ≤ l.stackTop := UInt16.not_lt.mp hroom
  cases hin : l.inStack l.resetPc <;> simp [hsize, hroom, hle]

/-- The bottom of the stack is a difference of numbers, with 0 in place of what is less. -/
theorem toNat_stackBottom_eq_sub (l : Layout) :
    l.stackBottom.toNat = l.stackTop.toNat - l.stackSize.toNat := by
  unfold stackBottom
  split
  · next hle => exact UInt16.toNat_sub_of_le _ _ hle
  · next hle =>
    have hlt := UInt16.lt_iff_toNat_lt.mp (UInt16.not_le.mp hle)
    have hzero : (0 : UInt16).toNat = 0 := rfl
    omega

theorem toNat_stackBottom {l : Layout} (h : l.validate = .ok ()) :
    l.stackBottom.toNat + l.stackSize.toNat = l.stackTop.toNat := by
  obtain ⟨-, hle, -⟩ := l.validate_eq_ok_iff.mp h
  rw [toNat_stackBottom_eq_sub]
  exact Nat.sub_add_cancel (UInt16.le_iff_toNat_le.mp hle)

theorem inStack_iff (l : Layout) (address : UInt16) :
    l.inStack address = true ↔ l.stackBottom ≤ address ∧ address < l.stackTop := by
  simp [inStack]

end Layout

namespace Core

/-- A core with a usable layout, whose stack pointer lies in the stack window or at its top. -/
structure InWindow (c : Core) : Prop where
  valid : c.layout.validate = .ok ()
  bottom_le : c.layout.stackBottom ≤ c.state.sp
  le_top : c.state.sp ≤ c.layout.stackTop

theorem InWindow.of_sameData {c d : Core} (hw : c.InWindow) (h : SameData c d) : d.InWindow := by
  refine ⟨?_, ?_, ?_⟩
  · rw [h.layout]
    exact hw.valid
  · rw [h.layout, h.sp]
    exact hw.bottom_le
  · rw [h.layout, h.sp]
    exact hw.le_top

theorem bottom_lt_of_push {c : Core} {src : Register} (h : c.executed? = some (.push src)) :
    c.layout.stackBottom < c.state.sp :=
  Instruction.bottom_lt_of_no_fault (executed?_eq_some.mp h).2

theorem lt_top_of_pop {c : Core} {dst : Register} (h : c.executed? = some (.pop dst)) :
    c.state.sp < c.layout.stackTop :=
  Instruction.lt_top_of_no_fault (executed?_eq_some.mp h).2

theorem value_step_pop {c : Core} {dst : Register} (h : c.executed? = some (.pop dst)) :
    c.step.core.state.value dst = c.memory.read c.state.sp := by
  have hdst := valid_of_executed h dst (List.mem_singleton_self dst)
  rw [State.value, (sameData_step_of_executed h).registers]
  exact State.value_withRegister c.state _ hdst

theorem InWindow.applied {c : Core} (hw : c.InWindow) {i : Instruction}
    (h : c.executed? = some i) : (c.applied i).InWindow := by
  have hb := UInt16.le_iff_toNat_le.mp hw.bottom_le
  have ht := UInt16.le_iff_toNat_le.mp hw.le_top
  cases i with
  | push src =>
    have hlt := bottom_lt_of_push h
    have hn := toNat_sub_one_of_lt hlt
    rw [UInt16.lt_iff_toNat_lt] at hlt
    refine ⟨hw.valid, UInt16.le_iff_toNat_le.mpr ?_, UInt16.le_iff_toNat_le.mpr ?_⟩
    · change c.layout.stackBottom.toNat ≤ (c.state.sp - 1).toNat
      omega
    · change (c.state.sp - 1).toNat ≤ c.layout.stackTop.toNat
      omega
  | pop dst =>
    have hlt := lt_top_of_pop h
    have hn := toNat_add_one_of_lt hlt
    rw [UInt16.lt_iff_toNat_lt] at hlt
    refine ⟨hw.valid, UInt16.le_iff_toNat_le.mpr ?_, UInt16.le_iff_toNat_le.mpr ?_⟩
    · change c.layout.stackBottom.toNat ≤ (c.state.sp + 1).toNat
      omega
    · change (c.state.sp + 1).toNat ≤ c.layout.stackTop.toNat
      omega
  | _ => exact ⟨hw.valid, hw.bottom_le, hw.le_top⟩

theorem InWindow.step {c : Core} (hw : c.InWindow) : c.step.core.InWindow := by
  cases hx : c.executed? with
  | none => exact hw.of_sameData (sameData_step_of_not_executed hx)
  | some i => exact (hw.applied hx).of_sameData (sameData_step_of_executed hx)

theorem inWindow_initial {layout : Layout} (h : layout.validate = .ok ()) :
    (initial layout).InWindow := by
  have hbottom := Layout.toNat_stackBottom h
  refine ⟨h, ?_, UInt16.le_refl _⟩
  change layout.stackBottom ≤ layout.stackTop
  rw [UInt16.le_iff_toNat_le]
  omega

theorem ofSnapshot_snapshot {c : Core} (h : c.layout.validate = .ok ()) :
    ofSnapshot c.snapshot = .ok c := by
  have hcheck : checkLayout c.layout = .ok () := (checkLayout_eq_ok_iff _).mpr h
  have hsize : c.memory.bytes.toArray.size = memorySize := c.memory.bytes.size_toArray
  rw [ofSnapshot, snapshot, hcheck]
  simp only [Memory.ofBytes, hsize, ↓reduceDIte]
  rfl

end Core

namespace Machine

theorem inWindow_kept : Kept Core.InWindow where
  new _ hvalid := Core.inWindow_initial hvalid
  reset _ hw := Core.inWindow_initial hw.valid
  accessed c d hw hc := by
    refine ⟨?_, ?_, ?_⟩
    · rw [hc.layout]
      exact hw.valid
    · rw [hc.layout, hc.sp]
      exact hw.bottom_le
    · rw [hc.layout, hc.sp]
      exact hw.le_top
  step _ hw := hw.step

theorem restore_snapshot (m : Machine) {source : Machine}
    (h : source.layout.validate = .ok ()) :
    m.restore source.snapshot = .ok { core := source.core, trace := m.trace.clear } := by
  have hcore : Core.ofSnapshot source.snapshot = .ok source.core := Core.ofSnapshot_snapshot h
  rw [restore, hcore]
  rfl

theorem Reachable.inWindow {m : Machine} (h : Reachable m) : m.core.InWindow :=
  h.kept inWindow_kept

/-- What holds of the stack of a machine. -/
structure StackWindow (m : Machine) : Prop where
  layout_valid : m.layout.validate = .ok ()
  reset_outside : m.layout.inStack m.layout.resetPc = false
  memory_size : m.snapshot.memory.size = memorySize
  bottom_le : m.layout.stackBottom ≤ m.state.sp
  le_top : m.state.sp ≤ m.layout.stackTop
  push_inside : ∀ src, m.core.executed? = some (.push src) →
    m.layout.inStack (m.state.sp - 1) = true ∧
      m.step.2.memory = m.memory.write (m.state.sp - 1) (m.state.value src)
  pop_inside : ∀ dst, m.core.executed? = some (.pop dst) →
    m.layout.inStack m.state.sp = true ∧ m.step.2.state.value dst = m.memory.read m.state.sp
  bytes_read : Snapshot.ofBytes m.snapshot.toBytes = .ok m.snapshot
  restores : ∀ (m' : Machine) s, m.CopiedAs s →
    m'.restore s = .ok { core := m.core, trace := m'.trace.clear }

theorem push_inside {m : Machine} (hw : m.core.InWindow) {src : Register}
    (h : m.core.executed? = some (.push src)) :
    m.layout.inStack (m.state.sp - 1) = true ∧
      m.step.2.memory = m.memory.write (m.state.sp - 1) (m.state.value src) := by
  have hlt : m.layout.stackBottom < m.state.sp := Core.bottom_lt_of_push h
  have hn := toNat_sub_one_of_lt hlt
  rw [UInt16.lt_iff_toNat_lt] at hlt
  have htop : m.state.sp.toNat ≤ m.layout.stackTop.toNat := UInt16.le_iff_toNat_le.mp hw.le_top
  refine ⟨(Layout.inStack_iff _ _).mpr ⟨?_, ?_⟩, (Core.sameData_step_of_executed h).memory⟩
  · rw [UInt16.le_iff_toNat_le]
    omega
  · rw [UInt16.lt_iff_toNat_lt]
    omega

theorem pop_inside {m : Machine} (hw : m.core.InWindow) {dst : Register}
    (h : m.core.executed? = some (.pop dst)) :
    m.layout.inStack m.state.sp = true ∧ m.step.2.state.value dst = m.memory.read m.state.sp := by
  have hin := (Layout.inStack_iff _ _).mpr ⟨hw.bottom_le, Core.lt_top_of_pop h⟩
  exact ⟨hin, Core.value_step_pop h⟩

/-- The stack pointer of a reachable machine lies in the stack window, at every step of a run. -/
theorem stackWindow_of_reachable {m : Machine} (h : Reachable m) (n : Nat) :
    StackWindow (m.advance n).2 := by
  have hw := (h.advance n).inWindow
  generalize (m.advance n).2 = m at hw
  exact {
    layout_valid := hw.valid
    reset_outside := ((Layout.validate_eq_ok_iff _).mp hw.valid).2.2
    memory_size := m.core.memory.bytes.size_toArray
    bottom_le := hw.bottom_le
    le_top := hw.le_top
    push_inside := fun _ hx => push_inside hw hx
    pop_inside := fun _ hx => pop_inside hw hx
    bytes_read := ofBytes_snapshot m
    restores := fun m' s hs => by
      rw [hs.eq_snapshot]
      exact restore_snapshot m' hw.valid }

/-- A machine that was stepped and then put back where a copy of it was taken. -/
theorem stackWindow_of_restored :
    let m : Machine := ⟨.initial .standard, .empty false 16⟩
    let m' := ((m.perform .step).2.perform (.restore m.snapshot)).2
    Reachable m' ∧ StackWindow (m'.advance 3).2 := by
  intro m m'
  have hm : Reachable m := by
    have hnew : Machine.new .standard false 16 = .ok m := rfl
    exact .new hnew
  have hstep : Reachable (m.perform .step).2 := hm.perform .step (fun _ hop => by cases hop)
  have hm' : Reachable m' := hstep.restore hm .taken
  exact ⟨hm', stackWindow_of_reachable hm' 3⟩

end Machine

end ByteMachine
