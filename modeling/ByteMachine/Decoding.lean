import ByteMachine.Word

/-!
Words read as instructions. The machine reads a word leniently: it takes the fields the operation
has. A strict reading also refuses a register that does not exist and a set bit without meaning.
-/

namespace ByteMachine

/-- Why a word is refused. -/
inductive DecodeError
  | unknownOpcode (code : UInt8)
  | invalidRegister (opcode : Opcode) (register : Register)
  | unexpectedOperands (opcode : Opcode)
  deriving DecidableEq

def DecodeError.message : DecodeError → String
  | .unknownOpcode code => "Unknown opcode: 0x" ++ Text.upperHex 1 code.toNat
  | .invalidRegister op r =>
    "Instruction '" ++ op.mnemonic ++ "' addresses an invalid register " ++ r.text
  | .unexpectedOperands op =>
    "Instruction '" ++ op.mnemonic ++ "' expected " ++ op.arity.text ++ ", potentially corrupt!"

namespace Instruction

def decode (w : UInt16) : Except DecodeError Instruction :=
  let fields := Fields.ofWord w
  match Opcode.ofCode? fields.opcode with
  | some op => .ok (ofFields op fields)
  | none => .error (.unknownOpcode fields.opcode)

/-- The strict reading of a word. A register that does not exist is reported before a set bit
without meaning. -/
def decodeStrict (w : UInt16) : Except DecodeError Instruction :=
  match decode w with
  | .error e => .error e
  | .ok i =>
    match i.invalidRegister? with
    | some r => .error (.invalidRegister i.opcode r)
    | none =>
      if w &&& i.opcode.arity.unusedMask = 0 then .ok i
      else .error (.unexpectedOperands i.opcode)

end Instruction

end ByteMachine
