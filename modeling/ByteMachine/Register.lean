import ByteMachine.Text.Numeral

namespace ByteMachine

/-- How many registers the machine has. -/
abbrev registerCount : Nat := 8

/-- A register operand, by number. A field of a word has room for sixteen, and an instruction built
by hand for more. -/
structure Register where
  index : UInt8
  deriving DecidableEq

namespace Register

def isValid (r : Register) : Bool :=
  r.index.toNat < registerCount

def ofIndex? (n : Nat) : Option Register :=
  if n < registerCount then some ⟨UInt8.ofNat n⟩ else none

def text (r : Register) : String :=
  "r" ++ Text.decimal r.index.toNat

theorem isValid_iff (r : Register) : r.isValid = true ↔ r.index.toNat < registerCount := by
  simp [isValid]

end Register

end ByteMachine
