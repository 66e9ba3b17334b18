import ByteMachine.Machine.Fault
import ByteMachine.Program

namespace ByteMachine

/-- One byte for each 16-bit address. A word takes two of them, high byte first. -/
structure Memory where
  bytes : Vector UInt8 memorySize
  deriving DecidableEq

namespace Memory

def zero : Memory :=
  ⟨Vector.replicate memorySize 0⟩

/-- Memory with given contents, which have to be of its size. -/
def ofBytes (bytes : Array UInt8) : Except MachineError Memory :=
  if h : bytes.size = memorySize then .ok ⟨⟨bytes, h⟩⟩ else .error (.snapshotSize bytes.size)

/-- The byte at an address, which there always is. -/
def read (m : Memory) (address : UInt16) : UInt8 :=
  getElem m.bytes address.toNat address.toNat_lt

def write (m : Memory) (address : UInt16) (value : UInt8) : Memory :=
  ⟨m.bytes.set address.toNat value address.toNat_lt⟩

theorem read_write_self (m : Memory) (address : UInt16) (value : UInt8) :
    (m.write address value).read address = value := by
  simp [read, write]

theorem read_write_of_ne (m : Memory) {a b : UInt16} (value : UInt8) (h : a ≠ b) :
    (m.write a value).read b = m.read b := by
  have hn : a.toNat ≠ b.toNat := fun e => h (UInt16.toNat_inj.mp e)
  simp [read, write, Vector.getElem_set_ne _ _ hn]

/-- The address after this one, which the last has not. -/
def next? (address : UInt16) : Option UInt16 :=
  if address = 0xFFFF then none else some (address + 1)

def readWord? (m : Memory) (address : UInt16) : Option UInt16 :=
  (next? address).map fun low => wordOfBytes (m.read address) (m.read low)

def writeWord (m : Memory) (address : UInt16) (word : UInt16) : Except MachineError Memory :=
  match next? address with
  | some low => .ok ((m.write address (highByte word)).write low (lowByte word))
  | none => .error (.programOutOfBounds address 1)

/-- Writes words from an address on, counting round the end of memory. -/
def putWords (m : Memory) (address : UInt16) : List UInt16 → Memory
  | [] => m
  | word :: words =>
    putWords ((m.write address (highByte word)).write (address + 1) (lowByte word))
      (address + 2) words

/-- Writes words from an address on; all of them have to lie below the end of memory. -/
def load (m : Memory) (base : UInt16) (words : List UInt16) : Except MachineError Memory :=
  if base.toNat + words.length * 2 ≤ memorySize then .ok (m.putWords base words)
  else .error (.programOutOfBounds base words.length)

/-- At most `length` bytes from `start` on, up to the end of memory. -/
def slice (m : Memory) (start length : Nat) : List UInt8 :=
  (m.bytes.toArray.extract start (start + length)).toList

def nonzeroCount (m : Memory) : Nat :=
  m.bytes.toArray.countP (· != 0)

def text (m : Memory) : String :=
  "Memory \x7b size: " ++ Text.decimal memorySize ++ ", nonzero_bytes: "
    ++ Text.decimal m.nonzeroCount ++ " \x7d"

end Memory

end ByteMachine
