import ByteMachine.Text.Numeral

namespace ByteMachine

/-- How many bytes there are: one for each 16-bit address. -/
abbrev memorySize : Nat := 65536

/-- The start address and the stack window. -/
structure Layout where
  resetPc : UInt16
  stackTop : UInt16
  stackSize : UInt16
  deriving DecidableEq

/-- What makes a layout unusable. -/
inductive LayoutError
  | emptyStack
  | stackBelowMemory
  | resetInStack
  deriving DecidableEq

def LayoutError.message : LayoutError → String
  | emptyStack => "stack_size must be non-zero"
  | stackBelowMemory => "stack_size must not exceed stack_top"
  | resetInStack => "reset_pc must lie outside the stack window"

namespace Layout

/-- Code from 0xFF00, and a stack of 255 bytes below 0x00FF. -/
def standard : Layout where
  resetPc := 0xFF00
  stackTop := 0x00FF
  stackSize := 0xFF

/-- The lowest address of the stack; a stack larger than the room below its top ends at 0. -/
def stackBottom (l : Layout) : UInt16 :=
  if l.stackSize ≤ l.stackTop then l.stackTop - l.stackSize else 0

def inStack (l : Layout) (address : UInt16) : Bool :=
  l.stackBottom ≤ address && address < l.stackTop

/-- A usable layout has a stack, the stack does not reach below address 0, and the machine does not
start inside it. -/
def validate (l : Layout) : Except LayoutError Unit :=
  if l.stackSize = 0 then .error .emptyStack
  else if l.stackTop < l.stackSize then .error .stackBelowMemory
  else if l.inStack l.resetPc then .error .resetInStack
  else .ok ()

def checked (l : Layout) : Except LayoutError Layout :=
  l.validate.map fun _ => l

def withResetPc (l : Layout) (resetPc : UInt16) : Except LayoutError Layout :=
  checked { l with resetPc }

/-- Start address and stack window, as `reset=0xff00, stack=[0x0000, 0x00ff)`. -/
def text (l : Layout) : String :=
  "reset=" ++ Text.wordInMessage l.resetPc ++ ", stack=[" ++ Text.wordInMessage l.stackBottom
    ++ ", " ++ Text.wordInMessage l.stackTop ++ ")"

end Layout

end ByteMachine
