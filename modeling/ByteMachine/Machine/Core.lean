import ByteMachine.Decoding
import ByteMachine.Machine.Effect
import ByteMachine.Machine.Trace

namespace ByteMachine

/-- What decides how a machine goes on. -/
structure Core where
  layout : Layout
  state : State
  memory : Memory
  deriving DecidableEq

/-- What a step came to: its answer, what it leaves, and the row of the cycle if one was
completed. -/
structure Turn where
  answer : Except MachineError Status
  core : Core
  row? : Option TraceRow

namespace Core

def initial (layout : Layout) : Core where
  layout
  state := .initial layout
  memory := .zero

/-- The address of the word behind this one, which the last word has not. -/
def nextWord? (pc : UInt16) : Option UInt16 :=
  if pc < 0xFFFE then some (pc + 2) else none

/-- A cycle that failed at the word of a given address. -/
def failed (c : Core) (pc word : UInt16) (fault : Fault) : Turn where
  answer := .error (.execution pc word (Fields.ofWord word) fault)
  core := { c with state := c.state.fail fault }
  row? := none

def completed (c : Core) (pc word : UInt16) : Turn where
  answer := .ok c.state.status
  core := { c with state := c.state.countCycle }
  row? := some (.ofState c.state.countCycle pc word)

/-- A cycle that was completed and has no word behind it to go on with. -/
def ranOut (c : Core) (pc word : UInt16) : Turn :=
  -- The cycle counts and has its row in the trace, though the step ends in an error.
  let turn := c.completed pc word
  { turn.core.failed pc word .endOfMemory with row? := turn.row? }

/-- The machine stopped behind the word of a given address. -/
def halt (c : Core) (pc : UInt16) (reason : HaltReason) : Core :=
  { c with state := { c.state with pc := (nextWord? pc).getD pc }.halt reason }

def goTo (c : Core) (target : UInt16) : Core :=
  { c with state := { c.state with pc := target } }

def apply (c : Core) (e : Effect) : Core :=
  { c with state := e.state, memory := c.memory.store e.store? }

/-- A cycle whose instruction has had its effect: control goes on, and the cycle counts. -/
def continueAs (c : Core) (flow : Flow) (pc word : UInt16) : Turn :=
  match flow with
  | .jump target => (c.goTo target).completed pc word
  | .halt => (c.halt pc .instruction).completed pc word
  | .next =>
    match nextWord? pc with
    | some next => (c.goTo next).completed pc word
    | none => c.ranOut pc word

/-- Carries out the word fetched from a given address. The word 0 stops the machine. -/
def carryOut (c : Core) (pc word : UInt16) : Turn :=
  if word = 0 then (c.halt pc .zeroWord).completed pc word
  else
    match Instruction.decode word with
    | .error _ => c.failed pc word (.unknownOpcode (Fields.ofWord word).opcode)
    | .ok i =>
      match i.effect c.layout c.memory c.state with
      | .error fault => c.failed pc word fault
      | .ok e => (c.apply e).continueAs e.flow pc word

/-- One step. A word that would reach past the last address cannot be fetched. -/
def step (c : Core) : Turn :=
  match c.state.status with
  | .halted reason => { answer := .ok (.halted reason), core := c, row? := none }
  | .faulted fault => { answer := .error (.faulted fault), core := c, row? := none }
  | .running =>
    match c.memory.readWord? c.state.pc with
    | some word => c.carryOut c.state.pc word
    | none =>
      -- The error shows the one byte that there is as the high byte of the word.
      c.failed c.state.pc (wordOfBytes (c.memory.read c.state.pc) 0) .endOfMemory

theorem step_of_halted (c : Core) {reason : HaltReason} (h : c.state.status = .halted reason) :
    c.step = { answer := .ok (.halted reason), core := c, row? := none } := by
  simp only [step, h]

theorem step_of_faulted (c : Core) {fault : Fault} (h : c.state.status = .faulted fault) :
    c.step = { answer := .error (.faulted fault), core := c, row? := none } := by
  simp only [step, h]

end Core

end ByteMachine
