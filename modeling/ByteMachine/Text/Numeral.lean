namespace ByteMachine.Text

/-- The decimal digits of `n`, without leading zeros. -/
def decimal (n : Nat) : String :=
  String.ofList (Nat.toDigits 10 n)

/-- The binary digits of `n`, without leading zeros. -/
def binary (n : Nat) : String :=
  String.ofList (Nat.toDigits 2 n)

/-- Hexadecimal digits of `n` in lower case, at least `width` of them. -/
def lowerHex (width n : Nat) : String :=
  String.ofList ((Nat.toDigits 16 n).leftpad width '0')

/-- Hexadecimal digits of `n` in upper case, at least `width` of them. -/
def upperHex (width n : Nat) : String :=
  String.ofList (((Nat.toDigits 16 n).map Char.toUpper).leftpad width '0')

/-- Decimal digits of `n`, filled up with blanks on the left to `width` columns. -/
def decimalColumn (width n : Nat) : String :=
  String.ofList ((Nat.toDigits 10 n).leftpad width ' ')

/-- The form of an address in a dump or a listing: `0x` and four upper-case digits. -/
def addressLabel (n : Nat) : String :=
  "0x" ++ upperHex 4 n

/-- The form of a word or an address in a message: `0x` and four lower-case digits. -/
def wordInMessage (w : UInt16) : String :=
  "0x" ++ lowerHex 4 w.toNat

end ByteMachine.Text
