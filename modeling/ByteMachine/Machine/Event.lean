import ByteMachine.Machine

namespace ByteMachine

/-- What can be told of a run while it goes on. It is read off the core before a step and the turn
that it takes. -/
inductive Event
  | executing (instruction : Instruction) (cycle : UInt64) (pc word : UInt16)
  | zeroWord (cycle : UInt64) (pc : UInt16)
  | halted (pc : UInt16) (cycles : UInt64) (reason : HaltReason)
  | faulted (pc word : UInt16) (fields : Fields) (fault : Fault)
  deriving DecidableEq

/-- The fault that an answer tells of, if it is the answer of a failed cycle. -/
def MachineError.event? : MachineError → Option Event
  | .execution pc word fields fault => some (.faulted pc word fields fault)
  | _ => none

namespace Core

/-- What a running core is about to carry out. -/
def announcement? (c : Core) : Option Event :=
  match c.memory.readWord? c.state.pc with
  | none => none
  | some word =>
    if word = 0 then some (.zeroWord c.state.cycles c.state.pc)
    else
      match Instruction.decode word with
      | .ok i => some (.executing i c.state.cycles c.state.pc word)
      | .error _ => none

/-- How the step of a running core ended, where it stopped the machine. -/
def ending? (c : Core) (turn : Turn) : Option Event :=
  match turn.answer with
  | .ok (.halted reason) => some (.halted c.state.pc turn.core.state.cycles reason)
  | .ok _ => none
  | .error e => e.event?

/-- The events of at most `budget` steps, in order, behind those told before. -/
def history : (budget : Nat) → Core → Array Event → Array Event
  | 0, _, told => told
  | budget + 1, c, told =>
    if c.state.status.isRunning then
      let turn := c.step
      history budget turn.core (told ++ c.announcement?.toArray ++ (c.ending? turn).toArray)
    else told

end Core

end ByteMachine
