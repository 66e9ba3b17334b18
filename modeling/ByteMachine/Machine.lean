import ByteMachine.Machine.Dump
import ByteMachine.Machine.SnapshotBytes

/-!
The machine: a core that runs and a trace that watches it. What a request answers and what the core
becomes never depend on the trace. A request that is refused leaves the machine as it was.
-/

namespace ByteMachine

/-- A machine: what runs, and what is kept of the run. -/
structure Machine where
  core : Core
  trace : Trace
  deriving DecidableEq

/-- What a run came to: the cycles it completed and the status behind them. -/
structure RunResult where
  cycles : UInt64
  status : Status
  deriving DecidableEq

namespace Machine

def layout (m : Machine) : Layout := m.core.layout

def state (m : Machine) : State := m.core.state

def memory (m : Machine) : Memory := m.core.memory

def status (m : Machine) : Status := m.core.state.status

/-- A machine of a usable layout, with an empty trace. -/
def new (layout : Layout) (tracing : Bool) (traceLimit : Nat) : Except MachineError Machine := do
  Core.checkLayout layout
  return { core := .initial layout, trace := .empty tracing traceLimit }

def load (m : Machine) (base : UInt16) (words : List UInt16) : Except MachineError Machine :=
  match m.core.memory.load base words with
  | .ok memory => .ok { m with core := { m.core with memory } }
  | .error e => .error e

def loadProgram (m : Machine) (p : Program) : Except MachineError Machine :=
  m.load p.base p.code

def setPc (m : Machine) (pc : UInt16) : Machine :=
  { m with core := m.core.goTo pc }

/-- A new machine that is to run a program. The program may lie anywhere. -/
def withProgram (p : Program) (layout : Layout) (tracing : Bool) (traceLimit : Nat) :
    Except MachineError Machine := do
  let m ← new layout tracing traceLimit
  let m ← m.loadProgram p
  return m.setPc p.base

/-- The machine as new, with control at a given address. -/
def resetWithPc (m : Machine) (pc : UInt16) : Machine where
  core := (Core.initial m.layout).goTo pc
  trace := m.trace.clear

def reset (m : Machine) : Machine :=
  m.resetWithPc m.layout.resetPc

/-- One step, whose row the trace takes. -/
def step (m : Machine) : Except MachineError Status × Machine :=
  -- The machine is taken apart first, so that the core can be changed in place.
  let ⟨core, trace⟩ := m
  let turn := core.step
  (turn.answer, ⟨turn.core, turn.row?.elim trace trace.push⟩)

/-- Steps until `budget` of them were made, the machine has stopped, or a step fails. -/
def advance : (budget : Nat) → Machine → Except MachineError Unit × Machine
  | 0, m => (.ok (), m)
  | budget + 1, m =>
    if m.status.isRunning then
      match m.step with
      | (.ok _, m) => advance budget m
      | (.error e, m) => (.error e, m)
    else (.ok (), m)

/-- Runs for at most `budget` cycles. A machine that has faulted refuses even a budget of 0. -/
def execute (m : Machine) (budget : UInt64) : Except MachineError RunResult × Machine :=
  match m.status with
  | .faulted fault => (.error (.faulted fault), m)
  | _ =>
    -- A machine that has halted answers with no further cycles.
    let start := m.state.cycles
    match m.advance budget.toNat with
    | (.ok (), m) => (.ok { cycles := m.state.cycles - start, status := m.status }, m)
    | (.error e, m) => (.error e, m)

/-- The largest budget there is. -/
def unbounded : UInt64 := 0xFFFFFFFFFFFFFFFF

def run (m : Machine) : Except MachineError RunResult × Machine :=
  m.execute unbounded

def readMemory (m : Machine) (address : UInt16) : UInt8 :=
  m.memory.read address

def writeMemory (m : Machine) (address : UInt16) (value : UInt8) : Machine :=
  { m with core := { m.core with memory := m.core.memory.write address value } }

/-- The word at an address, which the last address has not. -/
def readInstruction? (m : Machine) (address : UInt16) : Option UInt16 :=
  m.memory.readWord? address

def writeInstruction (m : Machine) (address : UInt16) (word : UInt16) :
    Except MachineError Machine :=
  match m.core.memory.writeWord address word with
  | .ok memory => .ok { m with core := { m.core with memory } }
  | .error e => .error e

def register (m : Machine) (index : Nat) : Except MachineError UInt8 :=
  match m.state.registers[index]? with
  | some value => .ok value
  | none => .error (.invalidRegister index)

def writeRegister (m : Machine) (index : Nat) (value : UInt8) : Except MachineError Machine :=
  if h : index < registerCount then
    let state := { m.core.state with registers := m.core.state.registers.set index value h }
    .ok { m with core := { m.core with state } }
  else .error (.invalidRegister index)

def isFlagSet (m : Machine) (flag : Flag) : Bool :=
  m.state.flags.isSet flag

/-- The rows of the trace, and the machine with an empty one. -/
def takeTrace (m : Machine) : List TraceRow × Machine :=
  (m.trace.rows, { m with trace := m.trace.clear })

def dumpState (m : Machine) : String :=
  m.state.dump memorySize

def dumpRange (m : Machine) (start : UInt16) (length width : Nat) : String :=
  m.memory.dump start length width

def dumpMemory (m : Machine) (width : Nat) : String :=
  m.dumpRange 0 memorySize width

/-- All that decides how the machine goes on; its trace is not part of it. -/
def snapshot (m : Machine) : Snapshot :=
  m.core.snapshot

/-- Puts a snapshot in place of what the machine was, and empties the trace. -/
def restore (m : Machine) (s : Snapshot) : Except MachineError Machine := do
  return { core := ← Core.ofSnapshot s, trace := m.trace.clear }

end Machine

def runProgram (p : Program) : Except MachineError Machine := do
  let m ← Machine.withProgram p .standard false Trace.standardLimit
  let (answer, m) := m.run
  let _ ← answer
  return m

end ByteMachine
