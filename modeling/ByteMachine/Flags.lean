namespace ByteMachine

/-- A named bit of the flags byte. -/
inductive Flag
  | carry
  | zero
  | overflow
  | negative
  | halt
  deriving DecidableEq

namespace Flag

def all : List Flag :=
  [carry, zero, overflow, negative, halt]

/-- The flags byte in which this flag alone is set. -/
def bit : Flag → UInt8
  | carry => 1
  | zero => 2
  | overflow => 4
  | negative => 8
  | halt => 16

/-- The letter that shows the flag. -/
def letter : Flag → Char
  | carry => 'C'
  | zero => 'Z'
  | overflow => 'O'
  | negative => 'N'
  | halt => 'H'

end Flag

/-- The flags byte. -/
structure Flags where
  bits : UInt8
  deriving DecidableEq

namespace Flags

def none : Flags := ⟨0⟩

def isSet (f : Flags) (flag : Flag) : Bool :=
  f.bits &&& flag.bit != 0

def set (f : Flags) (flag : Flag) : Flags :=
  ⟨f.bits ||| flag.bit⟩

def clear (f : Flags) (flag : Flag) : Flags :=
  ⟨f.bits &&& ~~~flag.bit⟩

/-- Sets a flag where `on` holds and clears it elsewhere. -/
def assign (f : Flags) (flag : Flag) (on : Bool) : Flags :=
  if on then f.set flag else f.clear flag

/-- Zero and negative as a result byte has them: whether it is 0, and its top bit. -/
def ofResult (f : Flags) (value : UInt8) : Flags :=
  (f.assign .zero (value == 0)).assign .negative (value &&& 0x80 != 0)

/-- The letter shown for one bit: that of its flag where the flag is set, else a dot. -/
def letterAt (f : Flags) (bit : Nat) : Char :=
  match Flag.all[bit]? with
  | some flag => if f.isSet flag then flag.letter else '.'
  | Option.none => '.'

def text (f : Flags) : String :=
  String.ofList ([7, 6, 5, 4, 3, 2, 1, 0].map f.letterAt)

end Flags

end ByteMachine
