import ByteMachine.Instruction
import ByteMachine.Machine.Memory
import ByteMachine.Machine.State

/-!
What a single instruction does. Its effect is a new state, at most one byte to be written to memory,
and where control goes; an instruction that faults has no effect at all. Operands are read before
anything is written, so a destination may be an operand as well.
-/

namespace ByteMachine

/-- Where control goes behind an instruction. -/
inductive Flow
  | next
  | jump (target : UInt16)
  | halt
  deriving DecidableEq

/-- What an instruction does: where control goes, the state it leaves, and the byte it stores. -/
structure Effect where
  flow : Flow
  state : State
  store? : Option (UInt16 × UInt8)

namespace Effect

def ofState (state : State) : Effect :=
  { flow := .next, state, store? := none }

end Effect

namespace State

def address (s : State) (hi lo : Register) : Except Fault UInt16 := do
  return wordOfBytes (← s.read hi) (← s.read lo)

/-- Puts a result into a register and shows it in the zero and negative flags. -/
def putResult (s : State) (dst : Register) (value : UInt8) : Except Fault State := do
  let s ← s.write dst value
  return { s with flags := s.flags.ofResult value }

end State

namespace Instruction

/-- The effect of an instruction whose registers all exist. -/
def effectOn (i : Instruction) (layout : Layout) (memory : Memory) (s : State) :
    Except Fault Effect := do
  match i with
  | ldr dst src => return .ofState (← s.putResult dst (← s.read src))
  | ldi dst imm => return .ofState (← s.putResult dst imm)
  | ldm dst hi lo => return .ofState (← s.putResult dst (memory.read (← s.address hi lo)))
  | st hi lo src =>
    let target ← s.address hi lo
    let value ← s.read src
    return {
      flow := .next
      state := { s with flags := s.flags.ofResult value }
      store? := some (target, value) }
  | add dst lhs rhs =>
    let a ← s.read lhs
    let b ← s.read rhs
    -- Whether the sum has room is seen in `Nat`; in `UInt8` it wraps.
    let s := { s with flags := s.flags.assign .overflow (decide (255 < a.toNat + b.toNat)) }
    return .ofState (← s.putResult dst (a + b))
  | sub dst lhs rhs =>
    let a ← s.read lhs
    let b ← s.read rhs
    -- The carry of a difference is its borrow.
    let s := { s with flags := s.flags.assign .carry (decide (a < b)) }
    return .ofState (← s.putResult dst (a - b))
  | mul dst lhs rhs =>
    let a ← s.read lhs
    let b ← s.read rhs
    let s := { s with flags := s.flags.assign .overflow (decide (255 < a.toNat * b.toNat)) }
    return .ofState (← s.putResult dst (a * b))
  | div dst lhs rhs =>
    let a ← s.read lhs
    let b ← s.read rhs
    if b = 0 then throw .divisionByZero
    return .ofState (← s.putResult dst (a / b))
  | and dst lhs rhs => return .ofState (← s.putResult dst ((← s.read lhs) &&& (← s.read rhs)))
  | or dst lhs rhs => return .ofState (← s.putResult dst ((← s.read lhs) ||| (← s.read rhs)))
  | xor dst lhs rhs => return .ofState (← s.putResult dst ((← s.read lhs) ^^^ (← s.read rhs)))
  | jp hi lo => return { flow := .jump (← s.address hi lo), state := s, store? := none }
  | jz hi lo =>
    -- The target is read also where it is not taken.
    let target ← s.address hi lo
    return {
      flow := if s.flags.isSet .zero then .jump target else .next
      state := s
      store? := none }
  | push src =>
    let value ← s.read src
    -- The stack grows down, and the pointer stands at its last byte.
    if s.sp ≤ layout.stackBottom then throw .stackOverflow
    return {
      flow := .next
      state := { s with sp := s.sp - 1 }
      store? := some (s.sp - 1, value) }
  | pop dst =>
    if layout.stackTop ≤ s.sp then throw .stackUnderflow
    -- A popped byte leaves the flags as they are.
    let s' ← s.write dst (memory.read s.sp)
    return .ofState { s' with sp := s.sp + 1 }
  | hlt => return { flow := .halt, state := { s with flags := s.flags.set .halt }, store? := none }

/-- The effect of an instruction. A register that does not exist is a fault before any other. -/
def effect (i : Instruction) (layout : Layout) (memory : Memory) (s : State) :
    Except Fault Effect :=
  match i.invalidRegister? with
  | some r => .error (.invalidRegister r)
  | none => i.effectOn layout memory s

end Instruction

/-- Memory with the byte of an effect written. -/
def Memory.store (m : Memory) : Option (UInt16 × UInt8) → Memory
  | some (address, value) => m.write address value
  | none => m

end ByteMachine
