import ByteMachine.Decoding
import ByteMachine.Program

namespace ByteMachine

namespace Instruction

def formatRegister (r : Register) : String :=
  "r" ++ Text.decimal r.index.toNat

def formatImmediate (imm : UInt8) : String :=
  "#" ++ Text.decimal imm.toNat

/-- The instruction as the formatter writes it, one form for each operand list. -/
def format (i : Instruction) : String :=
  match i.operands with
  | .none => i.mnemonic
  | .one a => i.mnemonic ++ " " ++ formatRegister a
  | .two a b => i.mnemonic ++ " " ++ formatRegister a ++ ", " ++ formatRegister b
  | .three a b c =>
    i.mnemonic ++ " " ++ formatRegister a ++ ", " ++ formatRegister b ++ ", " ++ formatRegister c
  | .immediate a imm => i.mnemonic ++ " " ++ formatRegister a ++ ", " ++ formatImmediate imm

theorem format_eq_text (i : Instruction) : i.format = i.text := by
  unfold format text
  cases i.operands with
  | none => rfl
  | one a => rfl
  | two a b =>
    simp only [Operands.spellings, String.intercalate_cons_cons, String.intercalate_singleton,
      String.append_assoc]
    rfl
  | three a b c =>
    simp only [Operands.spellings, String.intercalate_cons_cons, String.intercalate_singleton,
      String.append_assoc]
    rfl
  | immediate a imm =>
    simp only [Operands.spellings, String.intercalate_cons_cons, String.intercalate_singleton,
      String.append_assoc]
    rfl

end Instruction

/-- A word and what was made of it, by its place in the program. -/
structure Entry (α : Type) where
  index : Nat
  address : UInt16
  word : UInt16
  value : α
  deriving DecidableEq

/-- What strict reading makes of a word. -/
abbrev WordReading := Except DecodeError Instruction

namespace Entry

/-- The entry with its instruction, if the word is one. -/
def instruction? (e : Entry WordReading) : Option (Entry Instruction) :=
  match e.value with
  | .ok i => some { e with value := i }
  | .error _ => none

/-- The entry with the reason why the word is none, if it is none. -/
def refusal? (e : Entry WordReading) : Option (Entry DecodeError) :=
  match e.value with
  | .ok _ => none
  | .error reason => some { e with value := reason }

/-- What a listing shows for a word: the instruction, or why there is none. -/
def listedText (e : Entry WordReading) : String :=
  match e.value with
  | .ok i => i.format
  | .error reason => "; ERROR: " ++ reason.message

/-- One row of a listing: address, word and text. -/
def listingRow (e : Entry WordReading) : String :=
  Text.addressLabel e.address.toNat ++ ":  " ++ Text.upperHex 4 e.word.toNat ++ "  "
    ++ e.listedText ++ "\n"

end Entry

/-- The words of a program that are instructions, and those that are not, each in order. -/
structure Disassembly where
  lines : List (Entry Instruction)
  rejected : List (Entry DecodeError)

namespace Disassembly

/-- The instructions as assembly text, one a line. -/
def text (d : Disassembly) : String :=
  String.join (d.lines.map fun l => l.value.format ++ "\n")

def isClean (d : Disassembly) : Bool :=
  d.rejected.isEmpty

end Disassembly

namespace Program

def entries (p : Program) : List (Entry WordReading) :=
  p.code.zipIdx.map fun (word, index) =>
    { index, address := p.addressOf index, word, value := Instruction.decodeStrict word }

/-- The words of a program, parted into those that are instructions and those that are not. -/
def disassemble (p : Program) : Disassembly where
  lines := p.entries.filterMap Entry.instruction?
  rejected := p.entries.filterMap Entry.refusal?

def listingHeader (p : Program) : String :=
  "; Octet disassembly\n" ++ "; Base: " ++ Text.addressLabel p.base.toNat ++ "\n"
    ++ "; Code size: " ++ Text.decimal p.byteLength ++ " bytes ("
    ++ Text.decimal p.code.length ++ " instructions)\n" ++ "\n"

def listing (p : Program) : String :=
  p.listingHeader ++ String.join (p.entries.map Entry.listingRow)

end Program

/-- Words read on their own, as if they stood at address 0. -/
def disassembleWords (words : List UInt16) : Disassembly :=
  Program.disassemble ⟨0, words⟩

end ByteMachine
