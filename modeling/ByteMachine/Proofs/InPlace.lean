import ByteMachine.Machine
import ByteMachine.Proofs.Decoding
import ByteMachine.Proofs.Effect

namespace ByteMachine

/-- A machine whose parts are changed in place. Its trace is a queue of rows, the oldest first. -/
structure Device where
  core : Core
  tracing : Bool
  limit : Nat
  rows : List TraceRow

/-- The rows of a device behind one more. From a queue that is full the oldest row goes first; where
no row is to be held, none is taken. -/
def Device.queued (d : Device) (row : TraceRow) : List TraceRow :=
  if d.tracing && decide (0 < d.limit) then
    (if d.limit ≤ d.rows.length then d.rows.tail else d.rows) ++ [row]
  else d.rows

/-- Changes of a device, one after the other. Where one fails, those before it stay. -/
abbrev Work (ε α : Type) := ExceptT ε (StateM Device) α

namespace Work

variable {ε α β : Type}

/-- Does the work on a device: what it comes to, and the device that it leaves. -/
def perform (w : Work ε α) (d : Device) : Except ε α × Device :=
  w.run.run d

def changeState (f : State → State) : Work ε Unit :=
  modify fun d => { d with core.state := f d.core.state }

def changeMemory (f : Memory → Memory) : Work ε Unit :=
  modify fun d => { d with core.memory := f d.core.memory }

def readRegister (r : Register) : Work Fault UInt8 := do
  (← get).core.state.read r

def writeRegister (r : Register) (value : UInt8) : Work Fault Unit := do
  let state ← (← get).core.state.write r value
  changeState fun _ => state

def readMemory (address : UInt16) : Work ε UInt8 :=
  return (← get).core.memory.read address

def assign (flag : Flag) (on : Bool) : Work ε Unit :=
  changeState fun s => { s with flags := s.flags.assign flag on }

/-- Shows a result in the zero and negative flags. -/
def showResult (value : UInt8) : Work ε Unit :=
  changeState fun s => { s with flags := s.flags.ofResult value }

def goTo (pc : UInt16) : Work ε Unit :=
  changeState fun s => { s with pc }

def address (hi lo : Register) : Work Fault UInt16 :=
  return wordOfBytes (← readRegister hi) (← readRegister lo)

/-- What an instruction does whose registers all exist, one access after the other. -/
def act (i : Instruction) : Work Fault Flow := do
  match i with
  | .ldr dst src =>
    let value ← readRegister src
    writeRegister dst value
    showResult value
    return .next
  | .ldi dst imm =>
    writeRegister dst imm
    showResult imm
    return .next
  | .ldm dst hi lo =>
    let value ← readMemory (← address hi lo)
    writeRegister dst value
    showResult value
    return .next
  | .st hi lo src =>
    let target ← address hi lo
    let value ← readRegister src
    changeMemory (·.write target value)
    showResult value
    return .next
  | .add dst lhs rhs =>
    let a ← readRegister lhs
    let b ← readRegister rhs
    writeRegister dst (a + b)
    assign .overflow (decide (255 < a.toNat + b.toNat))
    showResult (a + b)
    return .next
  | .sub dst lhs rhs =>
    let a ← readRegister lhs
    let b ← readRegister rhs
    writeRegister dst (a - b)
    assign .carry (decide (a < b))
    showResult (a - b)
    return .next
  | .mul dst lhs rhs =>
    let a ← readRegister lhs
    let b ← readRegister rhs
    writeRegister dst (a * b)
    assign .overflow (decide (255 < a.toNat * b.toNat))
    showResult (a * b)
    return .next
  | .div dst lhs rhs =>
    let a ← readRegister lhs
    let b ← readRegister rhs
    if b = 0 then throw .divisionByZero
    writeRegister dst (a / b)
    showResult (a / b)
    return .next
  | .and dst lhs rhs =>
    let value := (← readRegister lhs) &&& (← readRegister rhs)
    writeRegister dst value
    showResult value
    return .next
  | .or dst lhs rhs =>
    let value := (← readRegister lhs) ||| (← readRegister rhs)
    writeRegister dst value
    showResult value
    return .next
  | .xor dst lhs rhs =>
    let value := (← readRegister lhs) ^^^ (← readRegister rhs)
    writeRegister dst value
    showResult value
    return .next
  | .jp hi lo => return .jump (← address hi lo)
  | .jz hi lo =>
    let target ← address hi lo
    return if (← get).core.state.flags.isSet .zero then .jump target else .next
  | .push src =>
    let value ← readRegister src
    let d ← get
    if d.core.state.sp ≤ d.core.layout.stackBottom then throw .stackOverflow
    changeState fun s => { s with sp := s.sp - 1 }
    let top := (← get).core.state.sp
    changeMemory (·.write top value)
    return .next
  | .pop dst =>
    let d ← get
    if d.core.layout.stackTop ≤ d.core.state.sp then throw .stackUnderflow
    let value ← readMemory (← get).core.state.sp
    writeRegister dst value
    changeState fun s => { s with sp := s.sp + 1 }
    return .next
  | .hlt =>
    changeState fun s => { s with flags := s.flags.set .halt }
    return .halt

def carryOut (i : Instruction) : Work Fault Flow :=
  match i.invalidRegister? with
  | some r => throw (.invalidRegister r)
  | none => act i

/-- Stops the device on a fault, and tells of it. -/
def fail (pc word : UInt16) (fault : Fault) : Work MachineError α := do
  changeState (·.fail fault)
  throw (.execution pc word (Fields.ofWord word) fault)

/-- Work on the word of an address; a fault in it stops the device. -/
def orFail (w : Work Fault α) (pc word : UInt16) : Work MachineError α := do
  match ← (w.run : StateM Device (Except Fault α)) with
  | .ok a => return a
  | .error fault => fail pc word fault

def fetch (pc : UInt16) : Work MachineError UInt16 := do
  match (← get).core.memory.readWord? pc with
  | some word => return word
  | none => fail pc (wordOfBytes (← readMemory pc) 0) .endOfMemory

/-- The instruction of a word; the word 0 is none. -/
def decode (pc word : UInt16) : Work MachineError (Option Instruction) :=
  if word = 0 then return none
  else
    match Instruction.decode word with
    | .ok i => return some i
    | .error (.unknownOpcode code) => fail pc word (.unknownOpcode code)
    | .error _ => fail pc word (.unknownOpcode (Fields.ofWord word).opcode)

def enqueue (row : TraceRow) : Work ε Unit := do
  let d ← get
  if d.tracing && decide (0 < d.limit) then
    if d.limit ≤ d.rows.length then
      modify fun d => { d with rows := d.rows.tail }
    modify fun d => { d with rows := d.rows ++ [row] }

def completeCycle (pc word : UInt16) : Work ε Unit := do
  changeState (·.countCycle)
  enqueue (.ofState (← get).core.state pc word)

/-- What follows an instruction: control goes on, and the cycle counts. -/
def continueAs (flow : Flow) (reason : HaltReason) (pc word : UInt16) :
    Work MachineError Status := do
  match flow with
  | .jump target => goTo target
  | .next =>
    match Core.nextWord? pc with
    | some next => goTo next
    | none =>
      completeCycle pc word
      fail pc word .endOfMemory
  | .halt =>
    goTo ((Core.nextWord? pc).getD pc)
    changeState (·.halt reason)
  completeCycle pc word
  return (← get).core.state.status

def step : Work MachineError Status := do
  match (← get).core.state.status with
  | .halted reason => return .halted reason
  | .faulted fault => throw (.faulted fault)
  | .running =>
    let pc := (← get).core.state.pc
    let word ← fetch pc
    match ← decode pc word with
    | none => continueAs .halt .zeroWord pc word
    | some i =>
      let flow ← orFail (carryOut i) pc word
      continueAs flow .instruction pc word

def advance : (budget : Nat) → Work MachineError Unit
  | 0 => return ()
  | budget + 1 => do
    if (← get).core.state.status.isRunning then
      let _ ← step
      advance budget

def execute (budget : UInt64) : Work MachineError RunResult := do
  let start := (← get).core.state.cycles
  if let .faulted fault := (← get).core.state.status then
    throw (.faulted fault)
  advance budget.toNat
  let s := (← get).core.state
  return { cycles := s.cycles - start, status := s.status }

theorem perform_pure (a : α) (d : Device) : (pure a : Work ε α).perform d = (.ok a, d) :=
  rfl

theorem perform_throw (e : ε) (d : Device) : (throw e : Work ε α).perform d = (.error e, d) :=
  rfl

theorem perform_bind (w : Work ε α) (f : α → Work ε β) (d : Device) :
    (w >>= f).perform d =
      match w.perform d with
      | (.ok a, d') => (f a).perform d'
      | (.error e, d') => (.error e, d') := by
  change (match w.perform d with
    | (r, d') => (match r with
        | .ok a => f a
        | .error e => throw e : Work ε β).run.run d') = _
  cases w.perform d with
  | mk r d' => cases r <;> rfl

theorem perform_bind_of_ok {w : Work ε α} {a : α} {d d' : Device} (h : w.perform d = (.ok a, d'))
    (f : α → Work ε β) : (w >>= f).perform d = (f a).perform d' := by
  rw [perform_bind, h]

theorem perform_get (d : Device) : (get : Work ε Device).perform d = (.ok d, d) :=
  rfl

theorem perform_get_bind (f : Device → Work ε α) (d : Device) :
    (get >>= f).perform d = (f d).perform d :=
  rfl

theorem perform_changeState (f : State → State) (d : Device) :
    (changeState f : Work ε Unit).perform d
      = (.ok (), { d with core.state := f d.core.state }) :=
  rfl

theorem perform_changeMemory (f : Memory → Memory) (d : Device) :
    (changeMemory f : Work ε Unit).perform d
      = (.ok (), { d with core.memory := f d.core.memory }) :=
  rfl

theorem perform_readMemory (address : UInt16) (d : Device) :
    (readMemory address : Work ε UInt8).perform d = (.ok (d.core.memory.read address), d) :=
  rfl

theorem perform_lift (result : Except ε α) (d : Device) :
    (liftM result : Work ε α).perform d = (result, d) :=
  rfl

variable {r hi lo : Register}

theorem perform_readRegister (h : r.isValid = true) (d : Device) :
    (readRegister r).perform d = (.ok (d.core.state.value r), d) := by
  rw [readRegister, perform_get_bind, perform_lift, d.core.state.read_of_isValid h]

theorem perform_writeRegister (h : r.isValid = true) (value : UInt8) (d : Device) :
    (writeRegister r value).perform d
      = (.ok (), { d with core.state := d.core.state.withRegister r value }) := by
  rw [writeRegister, perform_get_bind, d.core.state.write_of_isValid value h]
  exact perform_bind_of_ok (perform_lift _ d) _

theorem perform_address (hhi : hi.isValid = true) (hlo : lo.isValid = true) (d : Device) :
    (address hi lo).perform d = (.ok (d.core.state.target hi lo), d) := by
  simp only [address, perform_bind, perform_readRegister hhi, perform_readRegister hlo,
    perform_pure, State.target]

theorem perform_act {i : Instruction} (h : ∀ r ∈ i.registers, r.isValid = true) (d : Device) :
    (act i).perform d =
      match i.ownFault? d.core.layout d.core.state with
      | some fault => (.error fault, d)
      | none => (.ok (i.outcome d.core.memory d.core.state).flow,
          { d with core := d.core.apply (i.outcome d.core.memory d.core.state) }) := by
  cases i with
  | div dst lhs rhs =>
    simp only [Instruction.registers, Instruction.operands, Operands.registers,
      List.forall_mem_cons] at h
    by_cases hz : d.core.state.value rhs = 0
    · simp only [act, perform_bind, perform_readRegister, h, perform_throw, hz,
        Instruction.ownFault?, ↓reduceIte]
    · simp only [act, perform_bind, perform_readRegister, perform_writeRegister, h, hz,
        showResult, perform_changeState, perform_pure, Instruction.ownFault?, Instruction.outcome,
        ↓reduceIte]
      rfl
  | push src =>
    simp only [Instruction.registers, Instruction.operands, Operands.registers,
      List.forall_mem_cons] at h
    by_cases hf : d.core.state.sp ≤ d.core.layout.stackBottom
    · simp only [act, perform_bind, perform_readRegister, h, perform_get,
        perform_throw, hf, Instruction.ownFault?, ↓reduceIte]
    · simp only [act, perform_bind, perform_readRegister, h, perform_get, hf,
        perform_changeState, perform_changeMemory, perform_pure, Instruction.ownFault?,
        Instruction.outcome, ↓reduceIte]
      rfl
  | pop dst =>
    simp only [Instruction.registers, Instruction.operands, Operands.registers,
      List.forall_mem_cons] at h
    by_cases he : d.core.layout.stackTop ≤ d.core.state.sp
    · simp only [act, perform_bind, perform_get, perform_throw, he,
        Instruction.ownFault?, ↓reduceIte]
    · simp only [act, perform_bind, perform_get, he, perform_readMemory,
        perform_writeRegister, h, perform_changeState, perform_pure, Instruction.ownFault?,
        Instruction.outcome, ↓reduceIte]
      rfl
  | _ =>
    simp only [Instruction.registers, Instruction.operands, Operands.registers,
      List.forall_mem_cons] at h
    simp only [act, perform_bind, perform_readRegister, perform_writeRegister, perform_address, h,
      showResult, assign, perform_changeState, perform_changeMemory,
      perform_readMemory, perform_pure, perform_get, Instruction.ownFault?, Instruction.outcome]
    rfl

theorem perform_carryOut (i : Instruction) (d : Device) :
    (carryOut i).perform d =
      match i.effect d.core.layout d.core.memory d.core.state with
      | .error fault => (.error fault, d)
      | .ok e => (.ok e.flow, { d with core := d.core.apply e }) := by
  rw [Instruction.effect_eq, Instruction.fault?, carryOut]
  cases hr : i.invalidRegister? with
  | some r => rfl
  | none =>
    have hvalid := (Instruction.invalidRegister?_eq_none_iff i).mp hr
    dsimp only
    rw [perform_act hvalid]
    cases i.ownFault? d.core.layout d.core.state <;> rfl

theorem perform_fail (pc word : UInt16) (fault : Fault) (d : Device) :
    (fail pc word fault : Work MachineError α).perform d
      = (.error (.execution pc word (Fields.ofWord word) fault),
          { d with core := (d.core.failed pc word fault).core }) :=
  rfl

theorem perform_orFail (w : Work Fault α) (pc word : UInt16) (d : Device) :
    (orFail w pc word).perform d =
      match w.perform d with
      | (.ok a, d') => (.ok a, d')
      | (.error fault, d') => (fail pc word fault : Work MachineError α).perform d' := by
  have hrun : (liftM w.run : Work MachineError (Except Fault α)).perform d
      = (.ok (w.perform d).1, (w.perform d).2) := rfl
  rw [orFail, perform_bind, hrun]
  cases w.perform d with
  | mk result d' => cases result <;> rfl

theorem perform_decode (pc word : UInt16) (d : Device) :
    (decode pc word).perform d
      = (.ok (if word = 0 then none else some (Instruction.ofWord word)), d) := by
  rw [decode, Instruction.decode_eq_ofWord]
  split
  · rfl
  · rfl

end Work

/-- A machine as a device, with the rows that its trace holds. -/
def Machine.device (m : Machine) : Device where
  core := m.core
  tracing := m.trace.enabled
  limit := m.trace.limit
  rows := m.trace.rows

/-- What the turn of a core leaves of a machine with a given trace, as a device. -/
def Turn.device (turn : Turn) (trace : Trace) : Device :=
  Machine.device ⟨turn.core, turn.row?.elim trace trace.push⟩

/-- The queue takes a row as the trace does, which holds no more rows than its limit. -/
theorem Machine.queued_device (m : Machine) (row : TraceRow) :
    m.device.queued row = (m.trace.push row).rows := by
  have hcount := m.trace.length_rows_le
  rw [Trace.rows_push_eq]
  change (if (m.trace.enabled && decide (0 < m.trace.limit)) = true then
    (if m.trace.limit ≤ m.trace.rows.length then m.trace.rows.tail else m.trace.rows) ++ [row]
    else m.trace.rows) = _
  by_cases henabled : m.trace.enabled = true
  · rw [if_pos henabled]
    by_cases hpos : 0 < m.trace.limit
    · rw [if_pos (by simp only [henabled, hpos, decide_true, Bool.and_self])]
      by_cases hfull : m.trace.limit ≤ m.trace.rows.length
      · have hone : m.trace.rows.length + 1 - m.trace.limit = 1 := by omega
        have hne : m.trace.rows ≠ [] := List.ne_nil_of_length_pos (by omega)
        rw [if_pos hfull, hone, List.drop_one, List.tail_append_of_ne_nil hne]
      · have hnone : m.trace.rows.length + 1 - m.trace.limit = 0 := by omega
        rw [if_neg hfull, hnone, List.drop_zero]
    · have hrows : m.trace.rows = [] := List.eq_nil_of_length_eq_zero (by omega)
      have hone : 0 + 1 - m.trace.limit = 1 := by omega
      rw [if_neg (by simp [hpos]), hrows, List.length_nil, hone]
      rfl
  · rw [if_neg henabled, if_neg (by simp [henabled])]

theorem Machine.device_push (m : Machine) (row : TraceRow) :
    Machine.device ⟨m.core, m.trace.push row⟩ = { m.device with rows := m.device.queued row } := by
  obtain ⟨henabled, hlimit⟩ := m.trace.settings_push row
  rw [m.queued_device, Machine.device, henabled, hlimit]
  rfl

namespace Work

theorem perform_enqueue {ε : Type} (row : TraceRow) (d : Device) :
    (enqueue row : Work ε Unit).perform d = (.ok (), { d with rows := d.queued row }) := by
  rw [enqueue, perform_get_bind, Device.queued]
  by_cases htaken : (d.tracing && decide (0 < d.limit)) = true
  · rw [if_pos htaken, if_pos htaken]
    by_cases hfull : d.limit ≤ d.rows.length
    · rw [if_pos hfull, if_pos hfull]
      rfl
    · rw [if_neg hfull, if_neg hfull]
      rfl
  · rw [if_neg htaken, if_neg htaken]
    rfl

theorem perform_completeCycle {ε : Type} (m : Machine) (pc word : UInt16) :
    (completeCycle pc word : Work ε Unit).perform m.device
      = (.ok (), (m.core.completed pc word).device m.trace) := by
  rw [completeCycle, perform_bind_of_ok (perform_changeState _ _), perform_get_bind,
    perform_enqueue]
  exact congrArg _ (Machine.device_push ⟨(m.core.completed pc word).core, m.trace⟩ _).symm

theorem perform_goTo {ε : Type} (m : Machine) (pc : UInt16) :
    (goTo pc : Work ε Unit).perform m.device = (.ok (), (m.setPc pc).device) :=
  rfl

/-- A completed cycle answers with the status that the machine has by then. -/
theorem perform_completed (m : Machine) (pc word : UInt16) :
    (completeCycle pc word >>= fun _ => return (← get).core.state.status :
        Work MachineError Status).perform m.device
      = ((m.core.completed pc word).answer, (m.core.completed pc word).device m.trace) :=
  perform_bind_of_ok (perform_completeCycle m pc word) _

theorem perform_halt (m : Machine) (reason : HaltReason) (pc word : UInt16) :
    (continueAs .halt reason pc word).perform m.device
      = (((m.core.halt pc reason).completed pc word).answer,
          ((m.core.halt pc reason).completed pc word).device m.trace) := by
  rw [continueAs, perform_bind_of_ok (perform_goTo m _)]
  exact perform_completed ⟨m.core.halt pc reason, m.trace⟩ pc word

theorem perform_continueAs (m : Machine) (flow : Flow) (pc word : UInt16) :
    (continueAs flow .instruction pc word).perform m.device
      = ((m.core.continueAs flow pc word).answer,
          (m.core.continueAs flow pc word).device m.trace) := by
  cases flow with
  | jump target =>
    rw [continueAs, perform_bind_of_ok (perform_goTo m target)]
    exact perform_completed (m.setPc target) pc word
  | next =>
    rw [continueAs, Core.continueAs]
    cases Core.nextWord? pc with
    | some next =>
      dsimp only
      rw [perform_bind_of_ok (perform_goTo m next)]
      exact perform_completed (m.setPc next) pc word
    | none =>
      dsimp only
      rw [perform_bind_of_ok (perform_completeCycle m pc word), perform_bind, perform_fail]
      rfl
  | halt => exact perform_halt m .instruction pc word

theorem perform_fetch (pc : UInt16) (d : Device) :
    (fetch pc).perform d =
      match d.core.memory.readWord? pc with
      | some word => (.ok word, d)
      | none =>
        (fail pc (wordOfBytes (d.core.memory.read pc) 0) .endOfMemory :
          Work MachineError UInt16).perform d := by
  rw [fetch, perform_get_bind]
  cases d.core.memory.readWord? pc with
  | some word => rfl
  | none => exact perform_bind_of_ok (perform_readMemory pc d) _

/-- The word 0 stops the machine, and any other is carried out as the instruction that it is. -/
theorem perform_word (m : Machine) (pc word : UInt16) :
    (decode pc word >>= fun
        | none => continueAs .halt .zeroWord pc word
        | some i => orFail (carryOut i) pc word >>= fun flow =>
            continueAs flow .instruction pc word).perform m.device
      = ((m.core.carryOut pc word).answer, (m.core.carryOut pc word).device m.trace) := by
  rw [perform_bind_of_ok (perform_decode pc word _), Core.carryOut, Instruction.decode_eq_ofWord]
  by_cases hword : word = 0
  · rw [if_pos hword, if_pos hword]
    exact perform_halt m .zeroWord pc word
  · rw [if_neg hword, if_neg hword]
    dsimp only
    rw [perform_bind, perform_orFail, perform_carryOut]
    dsimp only [Machine.device]
    cases (Instruction.ofWord word).effect m.core.layout m.core.memory m.core.state with
    | error fault => rfl
    | ok e => exact perform_continueAs ⟨m.core.apply e, m.trace⟩ e.flow pc word

theorem perform_step (m : Machine) : step.perform m.device = (m.step.1, m.step.2.device) := by
  have hanswer : m.step.1 = m.core.step.answer := rfl
  have hleft : m.step.2.device = m.core.step.device m.trace := rfl
  have hdevice : m.device.core.state.status = m.core.state.status := rfl
  rw [hanswer, hleft, step, perform_get_bind, hdevice]
  cases hstatus : m.core.state.status with
  | halted reason =>
    rw [m.core.step_of_halted hstatus]
    rfl
  | faulted fault =>
    rw [m.core.step_of_faulted hstatus]
    rfl
  | running =>
    dsimp only
    rw [perform_get_bind, perform_bind, perform_fetch]
    simp only [Core.step, hstatus]
    dsimp only [Machine.device]
    cases m.core.memory.readWord? m.core.state.pc with
    | none => rfl
    | some word => exact perform_word m m.core.state.pc word

theorem perform_advance (m : Machine) (budget : Nat) :
    (advance budget).perform m.device = ((m.advance budget).1, (m.advance budget).2.device) := by
  induction budget generalizing m with
  | zero => rfl
  | succ budget ih =>
    have hdevice : m.device.core.state.status.isRunning = m.status.isRunning := rfl
    rw [advance, perform_get_bind, hdevice, Machine.advance]
    cases m.status.isRunning with
    | false => rfl
    | true =>
      rw [if_pos rfl, if_pos rfl, perform_bind, perform_step]
      cases hstep : m.step with
      | mk answer m' =>
        cases answer with
        | error e => rfl
        | ok status => exact ih m'

/-- A run is what its changes come to, made one after the other in the machine itself. -/
theorem perform_execute (m : Machine) (budget : UInt64) :
    (execute budget).perform m.device = ((m.execute budget).1, (m.execute budget).2.device) := by
  have hdevice : m.device.core.state.status = m.status := rfl
  rw [execute, perform_get_bind, perform_get_bind, hdevice, Machine.execute]
  cases hstatus : m.status with
  | faulted fault => rfl
  | running =>
    dsimp only
    rw [perform_bind, perform_advance]
    cases m.advance budget.toNat with
    | mk answer m' => cases answer <;> rfl
  | halted reason =>
    dsimp only
    rw [perform_bind, perform_advance]
    cases m.advance budget.toNat with
    | mk answer m' => cases answer <;> rfl

end Work

end ByteMachine
