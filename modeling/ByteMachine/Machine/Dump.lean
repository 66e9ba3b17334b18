import ByteMachine.Machine.Memory
import ByteMachine.Machine.State

namespace ByteMachine

/-- The state, one part a line, without a line end behind the last. -/
def State.dump (s : State) (memorySize : Nat) : String :=
  "memory=<size 0x" ++ Text.upperHex 1 memorySize ++ " bytes>\n"
    ++ "registers=[" ++ String.intercalate ", " (s.registers.toList.map (Text.decimal ·.toNat))
    ++ "]\n" ++ "pc=" ++ Text.addressLabel s.pc.toNat ++ "\n"
    ++ "sp=" ++ Text.addressLabel s.sp.toNat ++ "\n"
    ++ "flags=" ++ s.flags.text ++ " [0b" ++ Text.binary s.flags.bits.toNat ++ "]\n"
    ++ "status=" ++ s.status.text ++ "\n"
    ++ "cycles=" ++ Text.decimal s.cycles.toNat

namespace Memory

/-- One row of a dump: the address of the first byte, then each byte behind a blank. -/
def dumpRow (address : Nat) (bytes : List UInt8) : String :=
  Text.addressLabel address ++ ":"
    ++ String.join (bytes.map fun b => " " ++ Text.upperHex 2 b.toNat) ++ "\n"

/-- How many bytes a dump shows: those asked for, up to the end of memory. -/
def dumpLength (start : UInt16) (length : Nat) : Nat :=
  min length (memorySize - start.toNat)

/-- The rows of a dump, each with its address and at most `width` bytes. A width of 0 counts as
1. -/
def dumpRows (m : Memory) (start : UInt16) (length width : Nat) : List (Nat × List UInt8) :=
  let width := max width 1
  let length := dumpLength start length
  (List.range ((length + (width - 1)) / width)).map fun row =>
    let offset := row * width
    (start.toNat + offset, m.slice (start.toNat + offset) (min width (length - offset)))

def dump (m : Memory) (start : UInt16) (length width : Nat) : String :=
  String.join ((m.dumpRows start length width).map fun (address, bytes) => dumpRow address bytes)

end Memory

end ByteMachine
