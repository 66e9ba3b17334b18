import ByteMachine.Register
import ByteMachine.Word

namespace ByteMachine

/-- The reason a cycle failed. -/
inductive Fault
  | invalidRegister (register : Register)
  | divisionByZero
  | stackOverflow
  | stackUnderflow
  | unknownOpcode (code : UInt8)
  | endOfMemory
  deriving DecidableEq

def Fault.message : Fault → String
  | invalidRegister r => "invalid register " ++ r.text
  | divisionByZero => "division by zero"
  | stackOverflow => "stack overflow"
  | stackUnderflow => "stack underflow"
  | unknownOpcode code => "unknown opcode 0x" ++ Text.lowerHex 1 code.toNat
  | endOfMemory => "reached end of memory"

/-- Why bytes are no snapshot. -/
inductive SnapshotError
  | endOfBytes
  | badVariant (found count : Nat)
  deriving DecidableEq

def SnapshotError.message : SnapshotError → String
  | endOfBytes => "io error: unexpected end of file"
  | badVariant found count =>
    "invalid value: integer `" ++ Text.decimal found ++ "`, expected variant index 0 <= i < "
      ++ Text.decimal count

/-- Why a request to a machine is refused. -/
inductive MachineError
  | spec (error : SpecError)
  | execution (pc word : UInt16) (fields : Fields) (fault : Fault)
  | faulted (fault : Fault)
  | programOutOfBounds (base : UInt16) (words : Nat)
  | invalidRegister (index : Nat)
  | snapshot (error : SnapshotError)
  | snapshotSize (bytes : Nat)
  deriving DecidableEq

namespace MachineError

def message : MachineError → String
  | spec e => "Spec error: " ++ e.message
  | execution pc word fields fault =>
    "Execution fault at PC " ++ Text.wordInMessage pc ++ " (word " ++ Text.wordInMessage word
      ++ ", " ++ fields.text ++ "): " ++ fault.message
  | faulted fault =>
    "Machine is faulted (" ++ fault.message ++ "); reset or restore before executing"
  | programOutOfBounds base words => overrunMessage base words
  | invalidRegister index => "Invalid register index: " ++ Text.decimal index
  | snapshot e => "Snapshot encoding error: " ++ e.message
  | snapshotSize bytes =>
    "Snapshot memory is " ++ Text.decimal bytes ++ " bytes, expected " ++ Text.decimal memorySize

def fault? : MachineError → Option Fault
  | execution _ _ _ fault => some fault
  | faulted fault => some fault
  | _ => none

def cause? : MachineError → Option SpecError
  | spec e => some e
  | _ => none

end MachineError

end ByteMachine
