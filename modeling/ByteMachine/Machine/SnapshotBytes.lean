import ByteMachine.Machine.Snapshot

/-!
Snapshots as bytes. Numbers have a fixed width and their low byte first, a choice is written as its
number in four bytes, and memory behind its length in eight. No form is the beginning of another, so
bytes behind the end do not matter to reading.
-/

namespace ByteMachine

/-- Reads a value off the front of bytes. -/
abbrev ByteReader := StateT (List UInt8) (Except SnapshotError)

namespace ByteReader

def byte : ByteReader UInt8 := do
  match ← get with
  | [] => throw .endOfBytes
  | b :: bytes =>
    set bytes
    return b

def bytes (n : Nat) : ByteReader (List UInt8) := do
  let all ← get
  if n ≤ all.length then
    set (all.drop n)
    return all.take n
  else throw .endOfBytes

/-- Reads a number of given width, low byte first. -/
def number : Nat → ByteReader Nat
  | 0 => return 0
  | width + 1 => do
    let low ← byte
    let high ← number width
    return low.toNat + 256 * high

def uint16 : ByteReader UInt16 :=
  UInt16.ofNat <$> number 2

def uint64 : ByteReader UInt64 :=
  UInt64.ofNat <$> number 8

/-- Reads the number of one of `count` choices. -/
def choice (count : Nat) : ByteReader Nat := do
  let found ← number 4
  if found < count then return found else throw (.badVariant found count)

end ByteReader

/-- The bytes of a number in a given width, low byte first. -/
def numberBytes : Nat → Nat → List UInt8
  | 0, _ => []
  | width + 1, n => UInt8.ofNat (n % 256) :: numberBytes width (n / 256)

theorem length_numberBytes (width n : Nat) : (numberBytes width n).length = width := by
  induction width generalizing n with
  | zero => rfl
  | succ width ih => rw [numberBytes, List.length_cons, ih]

theorem ByteReader.run_byte (b : UInt8) (bytes : List UInt8) :
    ByteReader.byte.run (b :: bytes) = .ok (b, bytes) :=
  rfl

/-- How many numbers have room in a width. -/
def numberBound : Nat → Nat
  | 0 => 1
  | width + 1 => 256 * numberBound width

/-- A number that has room in its width is read back, and what stands behind it is left. -/
theorem ByteReader.run_number (width n : Nat) (rest : List UInt8) (h : n < numberBound width) :
    (ByteReader.number width).run (numberBytes width n ++ rest) = .ok (n, rest) := by
  induction width generalizing n with
  | zero =>
    have hn : n = 0 := by
      rw [numberBound] at h
      omega
    subst hn
    rfl
  | succ width ih =>
    have hn : n / 256 < numberBound width := by
      rw [numberBound] at h
      omega
    -- A number is its low byte and 256 times what the other bytes hold.
    have hlow : (UInt8.ofNat (n % 256)).toNat = n % 256 := by simp
    have hsum : n % 256 + 256 * (n / 256) = n := by omega
    simp only [ByteReader.number, numberBytes, List.cons_append, StateT.run_bind,
      ByteReader.run_byte]
    change (ByteReader.number width).run _ >>= _ = _
    rw [ih _ hn]
    change Except.ok ((UInt8.ofNat (n % 256)).toNat + 256 * (n / 256), rest) = _
    rw [hlow, hsum]

def choiceBytes (choice : Nat) : List UInt8 :=
  numberBytes 4 choice

namespace Layout

def toBytes (l : Layout) : List UInt8 :=
  numberBytes 2 l.resetPc.toNat ++ numberBytes 2 l.stackTop.toNat
    ++ numberBytes 2 l.stackSize.toNat

def reader : ByteReader Layout := do
  let resetPc ← ByteReader.uint16
  let stackTop ← ByteReader.uint16
  let stackSize ← ByteReader.uint16
  return { resetPc, stackTop, stackSize }

end Layout

namespace Fault

def toBytes : Fault → List UInt8
  | invalidRegister r => choiceBytes 0 ++ [r.index]
  | divisionByZero => choiceBytes 1
  | stackOverflow => choiceBytes 2
  | stackUnderflow => choiceBytes 3
  | unknownOpcode code => choiceBytes 4 ++ [code]
  | endOfMemory => choiceBytes 5

def reader : ByteReader Fault := do
  match ← ByteReader.choice 6 with
  | 0 => return invalidRegister ⟨← ByteReader.byte⟩
  | 1 => return divisionByZero
  | 2 => return stackOverflow
  | 3 => return stackUnderflow
  | 4 => return unknownOpcode (← ByteReader.byte)
  | _ => return endOfMemory

end Fault

namespace HaltReason

def toBytes : HaltReason → List UInt8
  | instruction => choiceBytes 0
  | zeroWord => choiceBytes 1

def reader : ByteReader HaltReason := do
  match ← ByteReader.choice 2 with
  | 0 => return instruction
  | _ => return zeroWord

end HaltReason

namespace Status

def toBytes : Status → List UInt8
  | running => choiceBytes 0
  | halted reason => choiceBytes 1 ++ reason.toBytes
  | faulted fault => choiceBytes 2 ++ fault.toBytes

def reader : ByteReader Status := do
  match ← ByteReader.choice 3 with
  | 0 => return running
  | 1 => return halted (← HaltReason.reader)
  | _ => return faulted (← Fault.reader)

end Status

namespace State

def toBytes (s : State) : List UInt8 :=
  s.registers.toList ++ numberBytes 2 s.pc.toNat ++ numberBytes 2 s.sp.toNat ++ [s.flags.bits]
    ++ numberBytes 8 s.cycles.toNat ++ s.status.toBytes

def reader : ByteReader State := do
  let r0 ← ByteReader.byte
  let r1 ← ByteReader.byte
  let r2 ← ByteReader.byte
  let r3 ← ByteReader.byte
  let r4 ← ByteReader.byte
  let r5 ← ByteReader.byte
  let r6 ← ByteReader.byte
  let r7 ← ByteReader.byte
  let pc ← ByteReader.uint16
  let sp ← ByteReader.uint16
  let flags ← ByteReader.byte
  let cycles ← ByteReader.uint64
  let status ← Status.reader
  let registers := #v[r0, r1, r2, r3, r4, r5, r6, r7]
  return { registers, pc, sp, flags := ⟨flags⟩, cycles, status }

end State

namespace Snapshot

def toBytes (s : Snapshot) : List UInt8 :=
  s.layout.toBytes ++ s.state.toBytes ++ numberBytes 8 s.memory.size ++ s.memory.toList

def reader : ByteReader Snapshot := do
  let layout ← Layout.reader
  let state ← State.reader
  let length ← ByteReader.number 8
  let memory ← ByteReader.bytes length
  return { layout, state, memory := memory.toArray }

/-- Reads a snapshot; what stands behind it is not looked at. -/
def ofBytes (bytes : List UInt8) : Except SnapshotError Snapshot :=
  (reader.run bytes).map Prod.fst

end Snapshot

end ByteMachine
