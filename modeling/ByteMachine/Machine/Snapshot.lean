import ByteMachine.Machine.Core

namespace ByteMachine

/-- A copy of a machine. It may come from elsewhere, with a memory of any length. -/
structure Snapshot where
  layout : Layout
  state : State
  memory : Array UInt8
  deriving DecidableEq

namespace Core

def snapshot (c : Core) : Snapshot where
  layout := c.layout
  state := c.state
  memory := c.memory.bytes.toArray

def checkLayout (layout : Layout) : Except MachineError Unit :=
  layout.validate.mapError fun e => .spec (.invalidLayout e)

/-- The machine of a snapshot. An unusable layout is reported before a wrong size of memory. -/
def ofSnapshot (s : Snapshot) : Except MachineError Core := do
  checkLayout s.layout
  return { layout := s.layout, state := s.state, memory := ← Memory.ofBytes s.memory }

end Core

end ByteMachine
