import ByteMachine.Assembly.Error
import ByteMachine.Assembly.Token
import ByteMachine.Instruction

/-!
One line of assembly text: nothing, or a mnemonic and its operands. A comma may stand behind an
operand and nowhere else. Registers are not checked here beyond their spelling, so `r8` and `r9`
can be written.
-/

namespace ByteMachine

/-- The operation that a word of assembly text names: letter case does not matter, and `done` is a
second name of `hlt`. -/
def Opcode.ofSpelling? (spelling : String) : Option Opcode :=
  let mnemonic := String.ofList (spelling.toList.map Char.toLower)
  (ofMnemonic? mnemonic).or (if mnemonic = "done" then some .hlt else none)

namespace Assembly

/-- A written operand, before it is matched with an operation. -/
inductive Operand
  | register (r : Register)
  | immediate (value : UInt8)
  deriving DecidableEq

/-- The operand list that written operands make for an operation. Their number is checked before
their kinds. -/
def shape (op : Opcode) (operands : List Operand) : Except LineError Operands :=
  if operands.length ≠ op.arity.operandCount then
    .error (.operandCount op operands.length)
  else
    match op.arity, operands with
    | .noOperand, [] => .ok .none
    | .oneRegister, [.register a] => .ok (.one a)
    | .twoRegisters, [.register a, .register b] => .ok (.two a b)
    | .threeRegisters, [.register a, .register b, .register c] => .ok (.three a b c)
    | .registerImmediate, [.register a, .immediate imm] => .ok (.immediate a imm)
    | _, _ => .error (.operandKind op)

/-- The characters of a line from a byte on, up to white space or a comma. -/
def literalAt (line : List Char) (start : Nat) : String :=
  String.ofList ((Text.fromByte start line).takeWhile fun c => !(Text.isBlank c || c == ','))

/-- What is wrong with a token that is no operand. -/
def refusal (line : List Char) (l : Lexeme) : LineError :=
  match l.token with
  | .comma => .syntaxError (l.start + 1) .comma
  | .word text =>
    if l.slice.head? = some 'r' || l.slice.head? = some 'R' then .invalidRegister text
    else .syntaxError (l.start + 1) (.word text)
  | .unreadable =>
    if l.slice.head? = some '#' then .invalidImmediate (literalAt line l.start)
    else .syntaxError (l.start + 1) (.character l.text)
  | .register _ | .immediate _ => .invalidImmediate l.text

/-- The operand of a token, where it is one. An immediate has to fit in a byte. -/
def operand? : Token → Option Operand
  | .register r => some (.register r)
  | .immediate value => if value < 256 then some (.immediate (UInt8.ofNat value)) else none
  | _ => none

/-- Reads the operands of a line from its tokens behind the mnemonic; the first token that cannot
stand in its place is reported. -/
def readOperands (line : List Char) (commaAllowed : Bool) :
    List Lexeme → Except LineError (List Operand)
  | [] => .ok []
  | l :: lexemes =>
    match operand? l.token with
    | some operand => (operand :: ·) <$> readOperands line true lexemes
    | none =>
      -- One comma uses up the permission, and the next operand gives it again.
      if commaAllowed && l.token = .comma then readOperands line false lexemes
      else .error (refusal line l)

/-- Reads one line, as an operation and its operand list; a line without tokens holds none. -/
def readLine (line : List Char) : Except LineError (Option (Opcode × Operands)) :=
  match lex line with
  | [] => .ok none
  | first :: lexemes =>
    match first.token with
    | .word mnemonic =>
      match Opcode.ofSpelling? mnemonic with
      | none => .error (.unknownInstruction mnemonic)
      | some op => do
        let operands ← readOperands line false lexemes
        (fun shaped => some (op, shaped)) <$> shape op operands
    | _ => .error (.syntaxError (first.start + 1) (.notMnemonic first.text))

/-- The instruction of a line, if it holds one. Its making has an error of its own, which would not
name the line. -/
def parseLine (line : List Char) (number : Nat) : Except AssemblyError (Option Instruction) := do
  match ← (readLine line).mapError (.atLine number) with
  | none => return none
  | some (op, operands) => some <$> (Instruction.ofOperands op operands).mapError .spec

def parseInstruction (text : String) : Except AssemblyError Instruction := do
  match ← parseLine text.toList 1 with
  | some i => .ok i
  | none => .error (.atLine 1 (.syntaxError 1 .nothing))

/-- Reads a text that has to be one register; white space around it and commas behind it do not
matter. -/
def parseRegister (text : String) : Except AssemblyError Register :=
  let name := Text.dropTrailing (· == ',') (Text.trim text.toList)
  match (lex name).map Lexeme.token with
  | [.register r] => .ok r
  | _ => .error (.atLine 1 (.invalidRegister (String.ofList name)))

end Assembly

end ByteMachine
