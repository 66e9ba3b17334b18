import ByteMachine.Text.Blank
import ByteMachine.Text.Numeral
import ByteMachine.Text.Unsigned

namespace ByteMachine.Console

/-- A text that is no address, without the white space around it, and why it is none. -/
structure AddressError where
  text : String
  reason : Text.NumeralError
  deriving DecidableEq

def AddressError.message (e : AddressError) : String :=
  "invalid address '" ++ e.text ++ "': " ++ e.reason.message

/-- A number of 16 bits, in hexadecimal behind `0x` or `0X`. -/
def readAddress : List Char → Except Text.NumeralError Nat
  | '0' :: 'x' :: digits => Text.readUnsigned 16 65536 digits
  | '0' :: 'X' :: digits => Text.readUnsigned 16 65536 digits
  | digits => Text.readUnsigned 10 65536 digits

/-- Reads an address; white space around it does not matter. -/
def parseAddress (text : String) : Except AddressError UInt16 :=
  let trimmed := Text.trim text.toList
  match readAddress trimmed with
  | .ok n => .ok (UInt16.ofNat n)
  | .error reason => .error ⟨String.ofList trimmed, reason⟩

structure MemoryRange where
  start : UInt16
  length : Nat
  deriving DecidableEq

inductive RangeError
  | noColon (text : String)
  | address (error : AddressError)
  deriving DecidableEq

def RangeError.message : RangeError → String
  | .noColon text => "expected ADDR:LEN, got '" ++ text ++ "'"
  | .address e => e.message

/-- Reads a range, parted at its first colon. The start is read before the length. -/
def parseRange (text : String) : Except RangeError MemoryRange :=
  let start := text.toList.takeWhile (· != ':')
  match text.toList.dropWhile (· != ':') with
  | _ :: length => do
    let start ← (parseAddress (String.ofList start)).mapError .address
    let length ← (parseAddress (String.ofList length)).mapError .address
    return { start, length := length.toNat }
  | [] => .error (.noColon text)

end ByteMachine.Console
