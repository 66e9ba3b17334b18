namespace ByteMachine

/-- The shape of an operand list. -/
inductive Arity
  | noOperand
  | oneRegister
  | twoRegisters
  | threeRegisters
  | registerImmediate
  deriving DecidableEq

namespace Arity

/-- How many register fields a word of this shape has. -/
def registerCount : Arity → Nat
  | noOperand => 0
  | oneRegister => 1
  | twoRegisters => 2
  | threeRegisters => 3
  | registerImmediate => 1

/-- How many operands are written for this shape. -/
def operandCount : Arity → Nat
  | registerImmediate => 2
  | arity => arity.registerCount

/-- The shape in words, as messages have it. -/
def text : Arity → String
  | noOperand => "no registers"
  | oneRegister => "1 register"
  | twoRegisters => "2 registers"
  | threeRegisters => "3 registers"
  | registerImmediate => "a register and an immediate"

/-- The bits of a word that have no meaning under this shape. -/
def unusedMask : Arity → UInt16
  | noOperand => 0x0FFF
  | oneRegister => 0x00FF
  | twoRegisters => 0x000F
  | threeRegisters => 0
  | registerImmediate => 0

end Arity

/-- An operation, named by its mnemonic. -/
inductive Opcode
  | ldr | st | add | sub | mul | div | jp | jz | and | or | xor | push | pop | ldi | ldm | hlt
  deriving DecidableEq

namespace Opcode

/-- Every operation, in the order of the codes. -/
def all : List Opcode :=
  [ldr, st, add, sub, mul, div, jp, jz, and, or, xor, push, pop, ldi, ldm, hlt]

/-- The four-bit code. -/
def code : Opcode → UInt8
  | ldr => 0
  | st => 1
  | add => 2
  | sub => 3
  | mul => 4
  | div => 5
  | jp => 6
  | jz => 7
  | and => 8
  | or => 9
  | xor => 10
  | push => 11
  | pop => 12
  | ldi => 13
  | ldm => 14
  | hlt => 15

/-- The operation with a given code; codes above 15 have none. -/
def ofCode? (code : UInt8) : Option Opcode :=
  all[code.toNat]?

def arity : Opcode → Arity
  | hlt => .noOperand
  | push | pop => .oneRegister
  | ldr | jp | jz => .twoRegisters
  | ldi => .registerImmediate
  | st | add | sub | mul | div | and | or | xor | ldm => .threeRegisters

/-- The name in assembly text. -/
def mnemonic : Opcode → String
  | ldr => "ldr"
  | st => "st"
  | add => "add"
  | sub => "sub"
  | mul => "mul"
  | div => "div"
  | jp => "jp"
  | jz => "jz"
  | and => "and"
  | or => "or"
  | xor => "xor"
  | push => "push"
  | pop => "pop"
  | ldi => "ldi"
  | ldm => "ldm"
  | hlt => "hlt"

def ofMnemonic? (text : String) : Option Opcode :=
  all.find? (·.mnemonic == text)

def isControl : Opcode → Bool
  | jp | jz => true
  | _ => false

def isStack : Opcode → Bool
  | push | pop => true
  | _ => false

theorem mem_all (op : Opcode) : op ∈ all := by
  cases op <;> decide

theorem ofCode?_code (op : Opcode) : ofCode? op.code = some op := by
  cases op <;> rfl

theorem ofMnemonic?_mnemonic (op : Opcode) : ofMnemonic? op.mnemonic = some op := by
  cases op <;> decide

end Opcode

end ByteMachine
