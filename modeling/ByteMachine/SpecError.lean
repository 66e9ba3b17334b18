import ByteMachine.Layout
import ByteMachine.Opcode

namespace ByteMachine

/-- What is wrong with a layout, an operation, an operand list or an image. -/
inductive SpecError
  | invalidLayout (error : LayoutError)
  | invalidOpcode (code : UInt8)
  | arityMismatch (opcode : Opcode) (found : Arity)
  | oddImageLength (bytes : Nat)
  | programTooLarge (base : UInt16) (words : Nat)
  deriving DecidableEq

/-- The sentence for a run of words that has no room above its base. -/
def overrunMessage (base : UInt16) (words : Nat) : String :=
  "Program of " ++ Text.decimal words ++ " words at " ++ Text.wordInMessage base
    ++ " runs past the end of memory"

namespace SpecError

def message : SpecError → String
  | invalidLayout e => "Invalid configuration: " ++ e.message
  | invalidOpcode code => "Invalid opcode: 0x" ++ Text.lowerHex 1 code.toNat
  | arityMismatch op found =>
    "Opcode " ++ op.mnemonic ++ " expects " ++ op.arity.text ++ ", found " ++ found.text
  | oddImageLength n =>
    "Program image length " ++ Text.decimal n ++ " is not a whole number of words"
  | programTooLarge base words => overrunMessage base words

def cause? : SpecError → Option LayoutError
  | invalidLayout e => some e
  | _ => none

end SpecError

/-- The operation with a given code, or the error for a code without one. -/
def Opcode.ofCode (code : UInt8) : Except SpecError Opcode :=
  match Opcode.ofCode? code with
  | some op => .ok op
  | none => .error (.invalidOpcode code)

end ByteMachine
