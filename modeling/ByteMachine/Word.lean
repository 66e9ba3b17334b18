import ByteMachine.Instruction

/-!
The instruction word: sixteen bits, four for the operation and twelve for its operands.

    no operand           oooo 0000 0000 0000
    one register         oooo aaaa 0000 0000
    two registers        oooo aaaa bbbb 0000
    three registers      oooo aaaa bbbb cccc
    register, immediate  oooo aaaa iiii iiii

Encoding keeps the low four bits of a register number. Decoding takes the fields that the operation
has and leaves the others unread.
-/

namespace ByteMachine

def highByte (w : UInt16) : UInt8 := (w / 256).toUInt8

def lowByte (w : UInt16) : UInt8 := w.toUInt8

/-- The word of two bytes, high byte first. -/
def wordOfBytes (hi lo : UInt8) : UInt16 :=
  hi.toUInt16 * 256 + lo.toUInt16

theorem toNat_wordOfBytes (hi lo : UInt8) :
    (wordOfBytes hi lo).toNat = hi.toNat * 256 + lo.toNat := by
  have hhi := hi.toNat_lt
  have hlo := lo.toNat_lt
  simp [wordOfBytes]
  omega

theorem toNat_highByte (w : UInt16) : (highByte w).toNat = w.toNat / 256 := by
  have hw := w.toNat_lt
  simp [highByte]
  omega

theorem toNat_lowByte (w : UInt16) : (lowByte w).toNat = w.toNat % 256 := by
  simp [lowByte]

theorem highByte_wordOfBytes (hi lo : UInt8) : highByte (wordOfBytes hi lo) = hi := by
  apply UInt8.toNat_inj.mp
  have hlo := lo.toNat_lt
  rw [toNat_highByte, toNat_wordOfBytes]
  omega

theorem lowByte_wordOfBytes (hi lo : UInt8) : lowByte (wordOfBytes hi lo) = lo := by
  apply UInt8.toNat_inj.mp
  have hlo := lo.toNat_lt
  rw [toNat_lowByte, toNat_wordOfBytes]
  omega

/-- A word is nothing but its two bytes. -/
theorem wordOfBytes_highByte_lowByte (w : UInt16) : wordOfBytes (highByte w) (lowByte w) = w := by
  apply UInt16.toNat_inj.mp
  rw [toNat_wordOfBytes, toNat_highByte, toNat_lowByte]
  omega

/-- Every field of a word, whatever the operation makes of it. The immediate overlaps the second
and the third register. -/
structure Fields where
  opcode : UInt8
  r1 : UInt8
  r2 : UInt8
  r3 : UInt8
  imm : UInt8
  deriving DecidableEq

namespace Fields

def ofWord (w : UInt16) : Fields where
  opcode := (w / 4096).toUInt8
  r1 := (w / 256 % 16).toUInt8
  r2 := (w / 16 % 16).toUInt8
  r3 := (w % 16).toUInt8
  imm := (w % 256).toUInt8

def text (f : Fields) : String :=
  "op=0x" ++ Text.lowerHex 1 f.opcode.toNat ++ " r1=" ++ Text.decimal f.r1.toNat
    ++ " r2=" ++ Text.decimal f.r2.toNat ++ " r3=" ++ Text.decimal f.r3.toNat
    ++ " imm=0x" ++ Text.lowerHex 2 f.imm.toNat

end Fields

/-- The word of an operation code and an operand list. Codes and registers keep their low four
bits. -/
def packWord (code : UInt8) (operands : Operands) : UInt16 :=
  let field (n : UInt8) : UInt16 := n.toUInt16 % 16
  let top := field code * 4096
  match operands with
  | .none => top
  | .one a => top + field a.index * 256
  | .two a b => top + field a.index * 256 + field b.index * 16
  | .three a b c => top + field a.index * 256 + field b.index * 16 + field c.index
  | .immediate a imm => top + field a.index * 256 + imm.toUInt16

namespace Instruction

def encode (i : Instruction) : UInt16 :=
  packWord i.opcode.code i.operands

def encodeAll (is : List Instruction) : List UInt16 :=
  is.map encode

/-- The instruction that an operation makes of the fields of a word. -/
def ofFields (op : Opcode) (f : Fields) : Instruction :=
  let a : Register := ⟨f.r1⟩
  let b : Register := ⟨f.r2⟩
  let c : Register := ⟨f.r3⟩
  match op with
  | .ldr => ldr a b
  | .st => st a b c
  | .add => add a b c
  | .sub => sub a b c
  | .mul => mul a b c
  | .div => div a b c
  | .jp => jp a b
  | .jz => jz a b
  | .and => and a b c
  | .or => or a b c
  | .xor => xor a b c
  | .push => push a
  | .pop => pop a
  | .ldi => ldi a f.imm
  | .ldm => ldm a b c
  | .hlt => hlt

end Instruction

end ByteMachine
