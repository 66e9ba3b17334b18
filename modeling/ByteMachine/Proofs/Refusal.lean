import ByteMachine.Proofs.ProgramBytes
import ByteMachine.Proofs.Replay

namespace ByteMachine

/-- A change of a machine, step by step. Where a step fails, what the steps before it did stays. -/
abbrev Update := ExceptT MachineError (StateM Machine) Unit

namespace Update

/-- Makes a change: the answer to it, and the machine that it leaves. -/
def perform (u : Update) (m : Machine) : Except MachineError Reply × Machine :=
  ((u.run.run m).1.map fun _ => .done, (u.run.run m).2)

def put (address : UInt16) (value : UInt8) : Update :=
  modify fun m => m.writeMemory address value

/-- Puts a word at twice its number from a base, byte by byte. -/
def place (base : UInt16) (placed : UInt16 × Nat) : Update := do
  put (.ofNat (base.toNat + 2 * placed.2)) (highByte placed.1)
  put (.ofNat (base.toNat + 2 * placed.2 + 1)) (lowByte placed.1)

def load (base : UInt16) (words : List UInt16) : Update :=
  if memorySize < base.toNat + 2 * words.length then
    throw (.programOutOfBounds base words.length)
  else forM words.zipIdx (place base)

def writeInstruction (address word : UInt16) : Update := do
  let some low := Memory.next? address | throw (.programOutOfBounds address 1)
  put address (highByte word)
  put low (lowByte word)

def writeRegister (index : Nat) (value : UInt8) : Update :=
  if h : index < registerCount then
    modify fun m => { m with core := { m.core with state :=
      { m.state with registers := m.state.registers.set index value h } } }
  else throw (.invalidRegister index)

/-- Replaces the parts of a machine in turn. Both checks of the snapshot come before the first. -/
def restore (s : Snapshot) : Update := do
  Core.checkLayout s.layout
  let memory ← Memory.ofBytes s.memory
  modify fun m => { m with core := { m.core with layout := s.layout } }
  modify fun m => { m with core := { m.core with state := s.state } }
  modify fun m => { m with core := { m.core with memory } }
  modify fun m => { m with trace := m.trace.clear }

end Update

namespace Operation

/-- The change that an operation asks for, if it is one that a machine may refuse. -/
def update? : Operation → Option Update
  | load base words => some (.load base words)
  | loadProgram p => some (.load p.base p.code)
  | writeInstruction address word => some (.writeInstruction address word)
  | writeRegister index value => some (.writeRegister index value)
  | restore s => some (.restore s)
  | _ => none

/-- Whether an operation asks for a change that a machine may refuse. -/
def isRequest (op : Operation) : Bool :=
  op.update?.isSome

/-- Why words are refused at a base, if they are. -/
def overrun? (base : UInt16) (words : List UInt16) : Option MachineError :=
  if memorySize < base.toNat + 2 * words.length then some (.programOutOfBounds base words.length)
  else none

/-- Why a request is refused, if it is. -/
def refusal? : Operation → Option MachineError
  | load base words => overrun? base words
  | loadProgram p => overrun? p.base p.code
  | writeInstruction address _ =>
    if address = 0xFFFF then some (.programOutOfBounds address 1) else none
  | writeRegister index _ => if registerCount ≤ index then some (.invalidRegister index) else none
  | restore s =>
    match s.layout.validate with
    | .error e => some (.spec (.invalidLayout e))
    | .ok () => if s.memory.size = memorySize then none else some (.snapshotSize s.memory.size)
  | _ => none

/-- The operations that are not refused. -/
def granted (ops : List Operation) : List Operation :=
  ops.filter fun op => op.refusal?.isNone

end Operation

theorem exists_error_iff {ε α : Type} (result : Except ε α) :
    (∃ e, result = .error e) ↔ ¬ ∃ a, result = .ok a := by
  cases result with
  | error e => simp
  | ok a => simp

namespace Machine

variable {m m' : Machine} {op : Operation} {e : MachineError}

theorem writeInstruction_at_last (m : Machine) (word : UInt16) :
    m.writeInstruction 0xFFFF word = .error (.programOutOfBounds 0xFFFF 1) :=
  rfl

theorem lt_last_of_ne {address : UInt16} (h : address ≠ 0xFFFF) : address < 0xFFFF := by
  have hlast : (0xFFFF : UInt16).toNat = 65535 := rfl
  have hne : address.toNat ≠ 65535 := fun heq => h (UInt16.toNat_inj.mp heq)
  have hlt := address.toNat_lt
  rw [UInt16.lt_iff_toNat_lt]
  omega

theorem lt_last_of_writeInstruction {address word : UInt16}
    (h : m.writeInstruction address word = .ok m') : address < 0xFFFF := by
  apply lt_last_of_ne
  rintro rfl
  rw [m.writeInstruction_at_last word] at h
  cases h

theorem writeRegister_of_le (m : Machine) {index : Nat} (h : registerCount ≤ index)
    (value : UInt8) : m.writeRegister index value = .error (.invalidRegister index) :=
  dif_neg (Nat.not_lt.mpr h)

theorem writeRegister_of_lt (m : Machine) {index : Nat} (h : index < registerCount)
    (value : UInt8) :
    m.writeRegister index value = .ok { m with core := { m.core with state :=
      { m.state with registers := m.state.registers.set index value h } } } :=
  dif_pos h

theorem restore_of_invalidLayout (m : Machine) {s : Snapshot} {error : LayoutError}
    (h : s.layout.validate = .error error) :
    m.restore s = .error (.spec (.invalidLayout error)) := by
  have hcheck : Core.checkLayout s.layout = .error (.spec (.invalidLayout error)) := by
    rw [Core.checkLayout, h]
    rfl
  rw [restore, Core.ofSnapshot, hcheck]
  rfl

theorem restore_of_size_ne (m : Machine) {s : Snapshot} (hvalid : s.layout.validate = .ok ())
    (hsize : s.memory.size ≠ memorySize) :
    m.restore s = .error (.snapshotSize s.memory.size) := by
  have hcheck := (Core.checkLayout_eq_ok_iff s.layout).mpr hvalid
  have hmemory : Memory.ofBytes s.memory = .error (.snapshotSize s.memory.size) := dif_neg hsize
  rw [restore, Core.ofSnapshot, hcheck, hmemory]
  rfl

theorem restore_of_size_eq (m : Machine) {s : Snapshot} (hvalid : s.layout.validate = .ok ())
    (hsize : s.memory.size = memorySize) :
    m.restore s = .ok {
      core := { layout := s.layout, state := s.state, memory := ⟨⟨s.memory, hsize⟩⟩ }
      trace := m.trace.clear } := by
  have hcheck := (Core.checkLayout_eq_ok_iff s.layout).mpr hvalid
  have hmemory : Memory.ofBytes s.memory = .ok ⟨⟨s.memory, hsize⟩⟩ := dif_pos hsize
  rw [restore, Core.ofSnapshot, hcheck, hmemory]
  rfl

theorem load_of_overrun (m : Machine) {base : UInt16} {words : List UInt16}
    (h : Operation.overrun? base words = some e) : m.load base words = .error e := by
  unfold Operation.overrun? at h
  split at h
  · next hroom =>
    obtain rfl := Option.some.inj h
    exact m.load_of_not_fits (Program.not_fits_iff.mpr hroom)
  · cases h

theorem exists_load_of_no_overrun (m : Machine) {base : UInt16} {words : List UInt16}
    (h : Operation.overrun? base words = none) : ∃ m', m.load base words = .ok m' := by
  unfold Operation.overrun? at h
  split at h
  · cases h
  · next hroom => exact (m.exists_load_iff base words).mpr (Nat.not_lt.mp hroom)

/-- A refused request is answered with the reason, and the machine stays as it is. -/
theorem perform_of_refusal (m : Machine) (h : op.refusal? = some e) :
    m.perform op = (.error e, m) := by
  have hsettle {result : Except MachineError Machine} (hresult : result = .error e) :
      m.settle result = (.error e, m) := by
    rw [hresult]
    rfl
  cases op with
  | load base words => exact hsettle (m.load_of_overrun h)
  | loadProgram p => exact hsettle (m.load_of_overrun h)
  | writeInstruction address word =>
    simp only [Operation.refusal?, Option.ite_none_right_eq_some] at h
    obtain ⟨rfl, herror⟩ := h
    obtain rfl := Option.some.inj herror
    exact hsettle (m.writeInstruction_at_last word)
  | writeRegister index value =>
    simp only [Operation.refusal?, Option.ite_none_right_eq_some] at h
    obtain ⟨hindex, herror⟩ := h
    obtain rfl := Option.some.inj herror
    exact hsettle (m.writeRegister_of_le hindex value)
  | restore s =>
    simp only [Operation.refusal?] at h
    cases hvalid : s.layout.validate with
    | error error =>
      rw [hvalid] at h
      obtain rfl := Option.some.inj h
      exact hsettle (m.restore_of_invalidLayout hvalid)
    | ok u =>
      rw [hvalid] at h
      simp only [Option.ite_none_left_eq_some] at h
      obtain ⟨hsize, herror⟩ := h
      obtain rfl := Option.some.inj herror
      exact hsettle (m.restore_of_size_ne hvalid hsize)
  | _ => cases h

/-- A request that there is no reason to refuse is granted. -/
theorem answer_of_granted (m : Machine) (hop : op.isRequest = true) (h : op.refusal? = none) :
    (m.perform op).1 = .ok .done := by
  have hsettle {result : Except MachineError Machine} (hresult : ∃ m', result = .ok m') :
      (m.settle result).1 = .ok .done := by
    obtain ⟨m', rfl⟩ := hresult
    rfl
  cases op with
  | load base words => exact hsettle (m.exists_load_of_no_overrun h)
  | loadProgram p => exact hsettle (m.exists_load_of_no_overrun h)
  | writeInstruction address word =>
    simp only [Operation.refusal?, ite_eq_right_iff, reduceCtorEq, imp_false] at h
    exact hsettle ⟨_, m.writeInstruction_of_lt (lt_last_of_ne h) word⟩
  | writeRegister index value =>
    simp only [Operation.refusal?, ite_eq_right_iff, reduceCtorEq, imp_false] at h
    exact hsettle ⟨_, m.writeRegister_of_lt (Nat.not_le.mp h) value⟩
  | restore s =>
    simp only [Operation.refusal?] at h
    cases hvalid : s.layout.validate with
    | error error =>
      rw [hvalid] at h
      cases h
    | ok u =>
      rw [hvalid] at h
      simp only [ite_eq_left_iff, reduceCtorEq, imp_false, Decidable.not_not] at h
      exact hsettle ⟨_, m.restore_of_size_eq hvalid h⟩
  | _ => cases hop

theorem answer_eq_error_iff (m : Machine) (hop : op.isRequest = true) :
    (m.perform op).1 = .error e ↔ op.refusal? = some e := by
  cases h : op.refusal? with
  | some e' =>
    rw [m.perform_of_refusal h]
    constructor
    · intro heq
      rw [Except.error.inj heq]
    · intro heq
      rw [Option.some.inj heq]
  | none =>
    rw [m.answer_of_granted hop h]
    constructor
    · intro heq
      cases heq
    · intro heq
      cases heq

theorem run_place (m : Machine) (base word : UInt16) (k : Nat) :
    (Update.place base (word, k)).run.run m = (.ok (), m.withMemory
      ((m.memory.write (.ofNat (base.toNat + 2 * k)) (highByte word)).write
        (.ofNat (base.toNat + 2 * k) + 1) (lowByte word))) := by
  have hnext : UInt16.ofNat (base.toNat + 2 * k + 1) = UInt16.ofNat (base.toNat + 2 * k) + 1 :=
    UInt16.ofNat_add _ _
  rw [← hnext]
  rfl

/-- Where no word is refused, they are put byte by byte as they are written one by one. -/
theorem run_forM_place {base : UInt16} {placed : List (UInt16 × Nat)}
    (h : m.writeNumbered base placed = .ok m') :
    (forM placed (Update.place base)).run.run m = (.ok (), m') := by
  induction placed generalizing m with
  | nil =>
    obtain rfl := Except.ok.inj h
    rfl
  | cons first rest ih =>
    rw [writeNumbered, List.foldlM_cons] at h
    cases hwrite : m.writeInstruction (.ofNat (base.toNat + 2 * first.2)) first.1 with
    | error e =>
      rw [hwrite] at h
      cases h
    | ok next =>
      rw [hwrite] at h
      have hrest : (forM rest (Update.place base)).run.run next = (.ok (), m') := ih h
      rw [m.writeInstruction_of_lt (lt_last_of_writeInstruction hwrite)] at hwrite
      obtain rfl := Except.ok.inj hwrite
      rw [List.forM_cons, ExceptT.run_bind, StateT.run_bind, run_place]
      exact hrest

theorem perform_load_update (m : Machine) (base : UInt16) (words : List UInt16) :
    (Update.load base words).perform m = m.perform (.load base words) := by
  by_cases hroom : memorySize < base.toNat + 2 * words.length
  · rw [Update.load, if_pos hroom, perform, m.load_of_not_fits (Program.not_fits_iff.mpr hroom)]
    rfl
  · have hfits := Program.fits_iff.mpr (Nat.not_lt.mp hroom)
    have hloaded := m.load_of_fits hfits
    have hplaced := (m.loaded_of_fits (p := ⟨base, words⟩) hfits).one_by_one
    rw [Update.load, if_neg hroom, Update.perform, run_forM_place hplaced, perform, hloaded]
    rfl

theorem perform_writeInstruction_update (m : Machine) (address word : UInt16) :
    (Update.writeInstruction address word).perform m
      = m.perform (.writeInstruction address word) := by
  rw [perform, writeInstruction, Memory.writeWord, Update.writeInstruction]
  cases Memory.next? address with
  | none => rfl
  | some low => rfl

theorem perform_writeRegister_update (m : Machine) (index : Nat) (value : UInt8) :
    (Update.writeRegister index value).perform m = m.perform (.writeRegister index value) := by
  by_cases hindex : index < registerCount
  · rw [Update.writeRegister, dif_pos hindex, perform, m.writeRegister_of_lt hindex]
    rfl
  · rw [Update.writeRegister, dif_neg hindex, perform,
      m.writeRegister_of_le (Nat.not_lt.mp hindex)]
    rfl

theorem perform_restore_update (m : Machine) (s : Snapshot) :
    (Update.restore s).perform m = m.perform (.restore s) := by
  rw [perform, restore, Core.ofSnapshot, Update.restore]
  -- As long as a check is open, no part of the machine has been replaced.
  cases Core.checkLayout s.layout with
  | error e => rfl
  | ok u =>
    cases Memory.ofBytes s.memory with
    | error e => rfl
    | ok memory => rfl

/-- The steps of a request come to what is answered to it and to the machine that it leaves. -/
theorem perform_update {u : Update} (h : op.update? = some u) : u.perform m = m.perform op := by
  cases op with
  | load base words =>
    obtain rfl := Option.some.inj h
    exact m.perform_load_update base words
  | loadProgram p =>
    obtain rfl := Option.some.inj h
    exact m.perform_load_update p.base p.code
  | writeInstruction address word =>
    obtain rfl := Option.some.inj h
    exact m.perform_writeInstruction_update address word
  | writeRegister index value =>
    obtain rfl := Option.some.inj h
    exact m.perform_writeRegister_update index value
  | restore s =>
    obtain rfl := Option.some.inj h
    exact m.perform_restore_update s
  | _ => cases h

/-- The answers of a run, without those to refused requests. -/
def grantedAnswers (m : Machine) (ops : List Operation) : List (Except MachineError Reply) :=
  ((ops.zip (m.performAll ops).1).filter fun made => made.1.refusal?.isNone).map Prod.snd

theorem performAll_cons_of_refusal (m : Machine) (h : op.refusal? = some e)
    (ops : List Operation) :
    m.performAll (op :: ops) = (.error e :: (m.performAll ops).1, (m.performAll ops).2) := by
  rw [performAll, m.perform_of_refusal h]

/-- A run without its refused requests has the other answers and ends in the same machine. -/
theorem performAll_granted (m : Machine) (ops : List Operation) :
    m.performAll (Operation.granted ops) = (m.grantedAnswers ops, (m.performAll ops).2) := by
  induction ops generalizing m with
  | nil => rfl
  | cons op ops ih =>
    cases h : op.refusal? with
    | some e =>
      have hdropped : Operation.granted (op :: ops) = Operation.granted ops :=
        List.filter_cons_of_neg (by simp [h])
      have hanswers : m.grantedAnswers (op :: ops) = m.grantedAnswers ops := by
        rw [grantedAnswers, m.performAll_cons_of_refusal h, List.zip_cons_cons,
          List.filter_cons_of_neg (by simp [h]), grantedAnswers]
      rw [hdropped, hanswers, ih, m.performAll_cons_of_refusal h]
    | none =>
      have hkept : Operation.granted (op :: ops) = op :: Operation.granted ops :=
        List.filter_cons_of_pos (by simp [h])
      have hanswers : m.grantedAnswers (op :: ops)
          = (m.perform op).1 :: (m.perform op).2.grantedAnswers ops := by
        rw [grantedAnswers, performAll, List.zip_cons_cons,
          List.filter_cons_of_pos (by simp [h]), List.map_cons, grantedAnswers]
      rw [hkept, hanswers, performAll, ih]
      rfl

/-- A word written takes two addresses. -/
structure WordWritten (m : Machine) (address word : UInt16) (m' : Machine) : Prop where
  high : m'.readMemory address = highByte word
  low : m'.readMemory (address + 1) = lowByte word
  other : ∀ other, other ≠ address → other ≠ address + 1 →
    m'.readMemory other = m.readMemory other
  state : m'.state = m.state
  layout : m'.layout = m.layout
  trace : m'.trace = m.trace

/-- A register written is one of the state, and nothing outside of the registers changes. -/
structure RegisterWritten (m : Machine) (index : Nat) (value : UInt8) (m' : Machine) : Prop where
  written : m'.register index = .ok value
  other : ∀ other, other ≠ index → m'.register other = m.register other
  state : { m'.state with registers := m.state.registers } = m.state
  memory : m'.memory = m.memory
  layout : m'.layout = m.layout
  trace : m'.trace = m.trace

theorem wordWritten {address word : UInt16} (h : m.writeInstruction address word = .ok m') :
    m.WordWritten address word m' := by
  rw [m.writeInstruction_of_lt (lt_last_of_writeInstruction h) word] at h
  obtain rfl := Except.ok.inj h
  let high := m.memory.write address (highByte word)
  refine ⟨?_, high.read_write_self _ _, ?_, rfl, rfl, rfl⟩
  · calc (high.write (address + 1) (lowByte word)).read address
      _ = high.read address := high.read_write_of_ne _ (add_one_ne address)
      _ = highByte word := m.memory.read_write_self _ _
  · intro other hhigh hlow
    calc (high.write (address + 1) (lowByte word)).read other
      _ = high.read other := high.read_write_of_ne _ hlow.symm
      _ = m.memory.read other := m.memory.read_write_of_ne _ hhigh.symm

theorem lt_count_of_writeRegister {index : Nat} {value : UInt8}
    (h : m.writeRegister index value = .ok m') : index < registerCount := by
  apply Nat.not_le.mp
  intro hle
  rw [m.writeRegister_of_le hle value] at h
  cases h

theorem registerWritten {index : Nat} {value : UInt8}
    (h : m.writeRegister index value = .ok m') : m.RegisterWritten index value m' := by
  have hindex := lt_count_of_writeRegister h
  rw [m.writeRegister_of_lt hindex value] at h
  obtain rfl := Except.ok.inj h
  refine ⟨?_, ?_, rfl, rfl, rfl, rfl⟩
  · simp [register, state, hindex]
  · intro other hother
    simp only [register, state, Vector.getElem?_set_ne hindex hother.symm]

/-- Which requests a machine refuses, that a refusal changes nothing, also where the request is made
step by step, and how little a request to write changes where it is granted. -/
structure RequestRules (m : Machine) : Prop where
  load : ∀ base words,
    (∃ e, m.load base words = .error e) ↔ memorySize < base.toNat + 2 * words.length
  loadProgram : ∀ p : Program,
    (∃ e, m.loadProgram p = .error e) ↔ memorySize < p.base.toNat + 2 * p.code.length
  writeInstruction : ∀ address word,
    (∃ e, m.writeInstruction address word = .error e) ↔ address = 0xFFFF
  writeRegister : ∀ index value, (∃ e, m.writeRegister index value = .error e) ↔ 8 ≤ index
  restore : ∀ s : Snapshot, (∃ e, m.restore s = .error e) ↔
    s.layout.validate ≠ .ok () ∨ s.memory.size ≠ memorySize
  layout_first : ∀ (s : Snapshot) error, s.layout.validate = .error error →
    m.restore s = .error (.spec (.invalidLayout error))
  refused : ∀ op e, op.isRequest = true → (m.perform op).1 = .error e →
    op.refusal? = some e ∧ (m.perform op).2 = m
  not_made : ∀ op e, op.isRequest = true → (m.perform op).1 = .error e → ∀ ops,
    m.performAll (op :: ops) = (.error e :: (m.performAll ops).1, (m.performAll ops).2)
  in_steps : ∀ op u, op.update? = some u → u.perform m = m.perform op
  runs : ∀ ops,
    m.performAll (Operation.granted ops) = (m.grantedAnswers ops, (m.performAll ops).2)
  word_written : ∀ address word m', m.writeInstruction address word = .ok m' →
    m.WordWritten address word m'
  register_written : ∀ index value m', m.writeRegister index value = .ok m' →
    m.RegisterWritten index value m'
  restored : ∀ s m', m.restore s = .ok m' → m'.snapshot = s ∧ m'.trace = m.trace.clear

theorem exists_writeInstruction_iff (m : Machine) (address word : UInt16) :
    (∃ m', m.writeInstruction address word = .ok m') ↔ address ≠ 0xFFFF := by
  constructor
  · rintro ⟨m', hm'⟩
    exact UInt16.ne_of_lt (lt_last_of_writeInstruction hm')
  · intro hne
    exact ⟨_, m.writeInstruction_of_lt (lt_last_of_ne hne) word⟩

theorem exists_writeRegister_iff (m : Machine) (index : Nat) (value : UInt8) :
    (∃ m', m.writeRegister index value = .ok m') ↔ index < registerCount := by
  constructor
  · rintro ⟨m', hm'⟩
    exact lt_count_of_writeRegister hm'
  · intro hlt
    exact ⟨_, m.writeRegister_of_lt hlt value⟩

theorem exists_restore_iff (m : Machine) (s : Snapshot) :
    (∃ m', m.restore s = .ok m') ↔ s.layout.validate = .ok () ∧ s.memory.size = memorySize := by
  constructor
  · rintro ⟨m', hm'⟩
    cases hvalid : s.layout.validate with
    | error error =>
      rw [m.restore_of_invalidLayout hvalid] at hm'
      cases hm'
    | ok u =>
      refine ⟨rfl, ?_⟩
      apply Decidable.byContradiction
      intro hsize
      rw [m.restore_of_size_ne hvalid hsize] at hm'
      cases hm'
  · rintro ⟨hvalid, hsize⟩
    exact ⟨_, m.restore_of_size_eq hvalid hsize⟩

theorem snapshot_of_restore {s : Snapshot} (h : m.restore s = .ok m') :
    m'.snapshot = s ∧ m'.trace = m.trace.clear := by
  obtain ⟨hvalid, hsize⟩ := (m.exists_restore_iff s).mp ⟨m', h⟩
  rw [m.restore_of_size_eq hvalid hsize] at h
  obtain rfl := Except.ok.inj h
  exact ⟨rfl, rfl⟩

/-- A machine refuses what it has no room or no register for and what is no copy of a machine, and
goes on as if it had not been asked. -/
theorem requestRules (m : Machine) : m.RequestRules where
  load base words := by rw [exists_error_iff, exists_load_iff, Nat.not_le]
  loadProgram p := by rw [exists_error_iff, loadProgram, exists_load_iff, Nat.not_le]
  writeInstruction address word := by
    rw [exists_error_iff, exists_writeInstruction_iff, Decidable.not_not]
  writeRegister index value := by
    rw [exists_error_iff, exists_writeRegister_iff, Nat.not_lt]
  restore s := by
    rw [exists_error_iff, exists_restore_iff, Classical.not_and_iff_not_or_not]
  layout_first s error h := m.restore_of_invalidLayout h
  refused op e hop h := by
    have hrefusal := (m.answer_eq_error_iff hop).mp h
    rw [m.perform_of_refusal hrefusal]
    exact ⟨hrefusal, rfl⟩
  not_made op e hop h ops :=
    m.performAll_cons_of_refusal ((m.answer_eq_error_iff hop).mp h) ops
  in_steps op u h := perform_update h
  runs := m.performAll_granted
  word_written _ _ _ h := wordWritten h
  register_written _ _ _ h := registerWritten h
  restored _ _ h := snapshot_of_restore h

end Machine

end ByteMachine
