import ByteMachine.SpecError

namespace ByteMachine.Assembly

/-- A token in a place where it cannot stand. -/
inductive Misplaced
  | notMnemonic (text : String)
  | comma
  | word (text : String)
  | character (text : String)
  | nothing
  deriving DecidableEq

def Misplaced.message : Misplaced → String
  | .notMnemonic text => "expected mnemonic, found '" ++ text ++ "'"
  | .comma => "unexpected ','"
  | .word text => "unparsable operand '" ++ text ++ "'"
  | .character text => "unexpected '" ++ text ++ "'"
  | .nothing => "Empty instruction"

/-- Why a line is refused. Columns count bytes from 1. -/
inductive LineError
  | syntaxError (column : Nat) (found : Misplaced)
  | unknownInstruction (mnemonic : String)
  | invalidRegister (text : String)
  | invalidImmediate (text : String)
  | operandCount (opcode : Opcode) (found : Nat)
  | operandKind (opcode : Opcode)
  deriving DecidableEq

/-- The message for a line error on a line of given number. -/
def LineError.message (line : Nat) : LineError → String
  | .syntaxError column found =>
    "Syntax error at line " ++ Text.decimal line ++ ", column " ++ Text.decimal column ++ ": "
      ++ found.message
  | .unknownInstruction mnemonic =>
    "Unknown instruction at line " ++ Text.decimal line ++ ": " ++ mnemonic
  | .invalidRegister text => "Invalid register at line " ++ Text.decimal line ++ ": " ++ text
  | .invalidImmediate text =>
    "Invalid immediate value at line " ++ Text.decimal line ++ ": " ++ text
  | .operandCount op found =>
    "Wrong operand count at line " ++ Text.decimal line ++ ": '" ++ op.mnemonic ++ "' expects "
      ++ Text.decimal op.arity.operandCount ++ " operand(s), found " ++ Text.decimal found
  | .operandKind op =>
    "Operand mismatch at line " ++ Text.decimal line ++ ": '" ++ op.mnemonic ++ "' takes "
      ++ op.arity.text

/-- Why a source is refused. Lines count from 1. -/
inductive AssemblyError
  | atLine (line : Nat) (error : LineError)
  | spec (error : SpecError)
  deriving DecidableEq

namespace AssemblyError

def message : AssemblyError → String
  | atLine line e => e.message line
  | spec e => "Spec error: " ++ e.message

def line? : AssemblyError → Option Nat
  | atLine line _ => some line
  | spec _ => none

def cause? : AssemblyError → Option SpecError
  | atLine _ _ => none
  | spec e => some e

end AssemblyError

end ByteMachine.Assembly
