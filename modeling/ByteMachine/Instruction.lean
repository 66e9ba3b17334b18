import ByteMachine.Opcode
import ByteMachine.Register
import ByteMachine.SpecError

namespace ByteMachine

/-- An instruction with its operands. An address is given by two registers, high byte first. -/
inductive Instruction
  | ldr (dst src : Register)
  | st (hi lo src : Register)
  | ldi (dst : Register) (imm : UInt8)
  | ldm (dst hi lo : Register)
  | add (dst lhs rhs : Register)
  | sub (dst lhs rhs : Register)
  | mul (dst lhs rhs : Register)
  | div (dst lhs rhs : Register)
  | and (dst lhs rhs : Register)
  | or (dst lhs rhs : Register)
  | xor (dst lhs rhs : Register)
  | jp (hi lo : Register)
  | jz (hi lo : Register)
  | push (src : Register)
  | pop (dst : Register)
  | hlt
  deriving DecidableEq

/-- An operand list, in written order. -/
inductive Operands
  | none
  | one (a : Register)
  | two (a b : Register)
  | three (a b c : Register)
  | immediate (a : Register) (imm : UInt8)
  deriving DecidableEq

namespace Operands

def arity : Operands → Arity
  | none => .noOperand
  | one _ => .oneRegister
  | two _ _ => .twoRegisters
  | three _ _ _ => .threeRegisters
  | immediate _ _ => .registerImmediate

def registers : Operands → List Register
  | none => []
  | one a => [a]
  | two a b => [a, b]
  | three a b c => [a, b, c]
  | immediate a _ => [a]

/-- How each operand is spelled. -/
def spellings : Operands → List String
  | none => []
  | one a => [a.text]
  | two a b => [a.text, b.text]
  | three a b c => [a.text, b.text, c.text]
  | immediate a imm => [a.text, "#" ++ Text.decimal imm.toNat]

theorem length_registers (ops : Operands) : ops.registers.length = ops.arity.registerCount := by
  cases ops <;> rfl

theorem length_spellings (ops : Operands) : ops.spellings.length = ops.arity.operandCount := by
  cases ops <;> rfl

end Operands

namespace Instruction

/-- The instruction of an operation whose shape the operand list has. -/
def ofOperands (op : Opcode) (operands : Operands) : Except SpecError Instruction :=
  match op, operands with
  | .hlt, .none => .ok hlt
  | .push, .one src => .ok (push src)
  | .pop, .one dst => .ok (pop dst)
  | .ldr, .two dst src => .ok (ldr dst src)
  | .jp, .two hi lo => .ok (jp hi lo)
  | .jz, .two hi lo => .ok (jz hi lo)
  | .ldi, .immediate dst imm => .ok (ldi dst imm)
  | .st, .three hi lo src => .ok (st hi lo src)
  | .ldm, .three dst hi lo => .ok (ldm dst hi lo)
  | .add, .three dst lhs rhs => .ok (add dst lhs rhs)
  | .sub, .three dst lhs rhs => .ok (sub dst lhs rhs)
  | .mul, .three dst lhs rhs => .ok (mul dst lhs rhs)
  | .div, .three dst lhs rhs => .ok (div dst lhs rhs)
  | .and, .three dst lhs rhs => .ok (and dst lhs rhs)
  | .or, .three dst lhs rhs => .ok (or dst lhs rhs)
  | .xor, .three dst lhs rhs => .ok (xor dst lhs rhs)
  | op, operands => .error (.arityMismatch op operands.arity)

def opcode : Instruction → Opcode
  | ldr _ _ => .ldr
  | st _ _ _ => .st
  | ldi _ _ => .ldi
  | ldm _ _ _ => .ldm
  | add _ _ _ => .add
  | sub _ _ _ => .sub
  | mul _ _ _ => .mul
  | div _ _ _ => .div
  | and _ _ _ => .and
  | or _ _ _ => .or
  | xor _ _ _ => .xor
  | jp _ _ => .jp
  | jz _ _ => .jz
  | push _ => .push
  | pop _ => .pop
  | hlt => .hlt

def operands : Instruction → Operands
  | ldr dst src => .two dst src
  | st hi lo src => .three hi lo src
  | ldi dst imm => .immediate dst imm
  | ldm dst hi lo => .three dst hi lo
  | add dst lhs rhs => .three dst lhs rhs
  | sub dst lhs rhs => .three dst lhs rhs
  | mul dst lhs rhs => .three dst lhs rhs
  | div dst lhs rhs => .three dst lhs rhs
  | and dst lhs rhs => .three dst lhs rhs
  | or dst lhs rhs => .three dst lhs rhs
  | xor dst lhs rhs => .three dst lhs rhs
  | jp hi lo => .two hi lo
  | jz hi lo => .two hi lo
  | push src => .one src
  | pop dst => .one dst
  | hlt => .none

def mnemonic (i : Instruction) : String :=
  i.opcode.mnemonic

def registers (i : Instruction) : List Register :=
  i.operands.registers

/-- The first operand that names a register the machine does not have. -/
def invalidRegister? (i : Instruction) : Option Register :=
  i.registers.find? fun r => !r.isValid

def isJump (i : Instruction) : Bool :=
  i.opcode.isControl

/-- The instruction as a line of assembly text: the mnemonic, then the operands with commas
between them. -/
def text (i : Instruction) : String :=
  match i.operands.spellings with
  | [] => i.mnemonic
  | spellings => i.mnemonic ++ " " ++ String.intercalate ", " spellings

/-- An instruction names only registers that exist exactly if none of them is the first that does
not. -/
theorem invalidRegister?_eq_none_iff (i : Instruction) :
    i.invalidRegister? = none ↔ ∀ r ∈ i.registers, r.isValid = true := by
  simp [invalidRegister?]

theorem arity_operands (i : Instruction) : i.operands.arity = i.opcode.arity := by
  cases i <;> rfl

theorem ofOperands_opcode_operands (i : Instruction) : ofOperands i.opcode i.operands = .ok i := by
  cases i <;> rfl

end Instruction

end ByteMachine
