import ByteMachine.SpecError
import ByteMachine.Word

namespace ByteMachine

/-- Words and the address of the first. -/
structure Program where
  base : UInt16
  code : List UInt16
  deriving DecidableEq

def bytesOfWords (words : List UInt16) : List UInt8 :=
  words.flatMap fun w => [highByte w, lowByte w]

/-- The words of bytes, high byte first. A last byte without a partner makes no word. -/
def wordsOfBytes : List UInt8 → List UInt16
  | hi :: lo :: bytes => wordOfBytes hi lo :: wordsOfBytes bytes
  | _ => []

theorem bytesOfWords_cons (w : UInt16) (words : List UInt16) :
    bytesOfWords (w :: words) = highByte w :: lowByte w :: bytesOfWords words :=
  rfl

theorem length_bytesOfWords (words : List UInt16) :
    (bytesOfWords words).length = words.length * 2 := by
  induction words with
  | nil => rfl
  | cons w words ih =>
    rw [bytesOfWords_cons, List.length_cons, List.length_cons, List.length_cons, ih]
    omega

theorem wordsOfBytes_bytesOfWords (words : List UInt16) :
    wordsOfBytes (bytesOfWords words) = words := by
  induction words with
  | nil => rfl
  | cons w words ih =>
    rw [bytesOfWords_cons, wordsOfBytes, ih, wordOfBytes_highByte_lowByte]

namespace Program

/-- A program at the start address of the standard layout. -/
def atReset (code : List UInt16) : Program where
  base := Layout.standard.resetPc
  code

def byteLength (p : Program) : Nat :=
  p.code.length * 2

/-- A program has to end at or before the end of memory. -/
def validate (p : Program) : Except SpecError Unit :=
  if p.base.toNat + p.byteLength ≤ memorySize then .ok ()
  else .error (.programTooLarge p.base p.code.length)

/-- The address of a word, counted round the end of memory. -/
def addressOf (p : Program) (index : Nat) : UInt16 :=
  p.base + UInt16.ofNat index * 2

def toBytes (p : Program) : List UInt8 :=
  bytesOfWords p.code

/-- Reads an image back. An odd length is reported before a lack of room. -/
def ofBytes (base : UInt16) (bytes : List UInt8) : Except SpecError Program :=
  if bytes.length % 2 ≠ 0 then .error (.oddImageLength bytes.length)
  else do
    let program : Program := ⟨base, wordsOfBytes bytes⟩
    program.validate
    return program

def text (p : Program) : String :=
  "Program \x7b base: " ++ Text.wordInMessage p.base ++ ", words: "
    ++ Text.decimal p.code.length ++ " \x7d"

end Program

end ByteMachine
