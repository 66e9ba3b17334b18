import ByteMachine.Flags
import ByteMachine.Machine.Fault

namespace ByteMachine

/-- How a machine came to stop by itself. -/
inductive HaltReason
  | instruction
  | zeroWord
  deriving DecidableEq

inductive Status
  | running
  | halted (reason : HaltReason)
  | faulted (fault : Fault)
  deriving DecidableEq

namespace Status

def isRunning : Status → Bool
  | running => true
  | _ => false

def isHalted : Status → Bool
  | halted _ => true
  | _ => false

def isFaulted : Status → Bool
  | faulted _ => true
  | _ => false

def text : Status → String
  | running => "running"
  | halted .instruction => "halted"
  | halted .zeroWord => "halted (zero word)"
  | faulted fault => "faulted: " ++ fault.message

end Status

/-- The state of a machine outside its memory. -/
structure State where
  registers : Vector UInt8 registerCount
  pc : UInt16
  sp : UInt16
  flags : Flags
  cycles : UInt64
  status : Status
  deriving DecidableEq

namespace State

/-- The state in which a machine of this layout starts. -/
def initial (layout : Layout) : State where
  registers := Vector.replicate registerCount 0
  pc := layout.resetPc
  sp := layout.stackTop
  flags := .none
  cycles := 0
  status := .running

def read (s : State) (r : Register) : Except Fault UInt8 :=
  match s.registers[r.index.toNat]? with
  | some value => .ok value
  | none => .error (.invalidRegister r)

def write (s : State) (r : Register) (value : UInt8) : Except Fault State :=
  if h : r.index.toNat < registerCount then
    .ok { s with registers := s.registers.set r.index.toNat value h }
  else .error (.invalidRegister r)

/-- Exactly the registers that exist can be read. -/
theorem read_eq_ok_iff (s : State) (r : Register) :
    (∃ value, s.read r = .ok value) ↔ r.isValid = true := by
  rw [Register.isValid_iff]
  unfold read
  by_cases h : r.index.toNat < registerCount
  · simp [h]
  · simp [h]

def halt (s : State) (reason : HaltReason) : State :=
  { s with flags := s.flags.set .halt, status := .halted reason }

def fail (s : State) (fault : Fault) : State :=
  { s with status := .faulted fault }

def countCycle (s : State) : State :=
  { s with cycles := s.cycles + 1 }

end State

end ByteMachine
