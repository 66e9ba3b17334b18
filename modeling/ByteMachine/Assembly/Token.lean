import ByteMachine.Register
import ByteMachine.Text.Blank
import ByteMachine.Text.Unsigned

/-!
The tokens of a line of assembly text. A token is the longest one that can be read at its place:

    register    r and one digit
    immediate   # and decimal digits, or #0x and hexadecimal digits
    word        a letter or underscore, then letters, digits and underscores
    comma       ,

Blanks, tabs and carriage returns stand between tokens. Where no token can be read, one character is
unreadable; an immediate of 32 bits or more is unreadable as a whole. Nothing is lost: the lexemes
and the blanks between them are the line.
-/

namespace ByteMachine.Assembly

/-- A token. An immediate has a value, not yet a size; a word has its letters. -/
inductive Token
  | register (r : Register)
  | immediate (value : Nat)
  | word (letters : String)
  | comma
  | unreadable
  deriving DecidableEq

/-- A token in its place: the byte at which it starts, and its characters. -/
structure Lexeme where
  token : Token
  start : Nat
  slice : List Char
  deriving DecidableEq

namespace Lexeme

def stop (l : Lexeme) : Nat :=
  l.start + Text.byteLength l.slice

def text (l : Lexeme) : String :=
  String.ofList l.slice

end Lexeme

/-- The characters that stand between tokens. -/
def isSpace (c : Char) : Bool :=
  c == ' ' || c == '\t' || c == '\r'

/-- The characters a word starts with: ASCII letters and the underscore. -/
def isWordStart (c : Char) : Bool :=
  c.isAlpha || c == '_'

/-- The characters a word goes on with: ASCII digits as well. -/
def isWordChar (c : Char) : Bool :=
  c.isAlphanum || c == '_'

def isHexDigit (c : Char) : Bool :=
  (Text.digitValue? 16 c).isSome

/-- A token read at the front of a text: its characters behind the first, and the text behind it. -/
structure Reading where
  token : Token
  tail : List Char
  rest : List Char

namespace Token

/-- A register is a word of the letter `r` and one digit. -/
def ofWord : List Char → Token
  | ['r', d] =>
    if d.isDigit then register ⟨UInt8.ofNat (d.toNat - '0'.toNat)⟩
    else word (String.ofList ['r', d])
  | letters => word (String.ofList letters)

/-- An immediate is below this bound: it has at most 32 bits. -/
def immediateBound : Nat := 0x100000000

/-- Digits as an immediate; a number that is too large cannot be read. -/
def ofDigits (radix : Nat) (digits : List Char) : Token :=
  match Text.readDigits radix immediateBound 0 digits with
  | .ok value => immediate value
  | .error _ => unreadable

/-- Reads `0x` or `0X` and at least one hexadecimal digit. -/
def readHex? : List Char → Option Reading
  | '0' :: x :: cs =>
    let digits := cs.takeWhile isHexDigit
    if (x == 'x' || x == 'X') && !digits.isEmpty then
      some ⟨ofDigits 16 digits, '0' :: x :: digits, cs.dropWhile isHexDigit⟩
    else none
  | _ => none

def readDecimal? (cs : List Char) : Option Reading :=
  let digits := cs.takeWhile Char.isDigit
  if digits.isEmpty then none else some ⟨ofDigits 10 digits, digits, cs.dropWhile Char.isDigit⟩

/-- Reads an immediate behind its `#`. Where there is a hexadecimal form it is longer than the
decimal one, which is its `0`. -/
def readImmediate (cs : List Char) : Reading :=
  ((readHex? cs).or (readDecimal? cs)).getD ⟨unreadable, [], cs⟩

/-- Reads the token that starts with the character `c`. -/
def read (c : Char) (cs : List Char) : Reading :=
  if c == ',' then ⟨comma, [], cs⟩
  else if isWordStart c then
    let tail := cs.takeWhile isWordChar
    ⟨ofWord (c :: tail), tail, cs.dropWhile isWordChar⟩
  else if c == '#' then readImmediate cs
  else ⟨unreadable, [], cs⟩

theorem tail_append_rest_readHex? {cs : List Char} {r : Reading} (h : readHex? cs = some r) :
    r.tail ++ r.rest = cs := by
  unfold readHex? at h
  split at h
  · next x cs =>
    dsimp only at h
    split at h
    · have hcs : cs.takeWhile isHexDigit ++ cs.dropWhile isHexDigit = cs :=
        List.takeWhile_append_dropWhile
      cases h
      simp [hcs]
    · exact absurd h (by simp)
  · exact absurd h (by simp)

theorem tail_append_rest_readDecimal? {cs : List Char} {r : Reading}
    (h : readDecimal? cs = some r) : r.tail ++ r.rest = cs := by
  unfold readDecimal? at h
  dsimp only at h
  split at h
  · exact absurd h (by simp)
  · cases h
    exact List.takeWhile_append_dropWhile

theorem tail_append_rest_readImmediate (cs : List Char) :
    (readImmediate cs).tail ++ (readImmediate cs).rest = cs := by
  unfold readImmediate
  cases hx : readHex? cs with
  | some r => exact tail_append_rest_readHex? hx
  | none =>
    cases hd : readDecimal? cs with
    | some r => exact tail_append_rest_readDecimal? hd
    | none => rfl

theorem tail_append_rest_read (c : Char) (cs : List Char) :
    (read c cs).tail ++ (read c cs).rest = cs := by
  unfold read
  split
  · rfl
  split
  · exact List.takeWhile_append_dropWhile
  split
  · exact tail_append_rest_readImmediate cs
  · rfl

theorem length_rest_read_le (c : Char) (cs : List Char) : (read c cs).rest.length ≤ cs.length := by
  have h := congrArg List.length (tail_append_rest_read c cs)
  rw [List.length_append] at h
  omega

end Token

/-- The tokens of a text that starts at byte `offset` of its line. -/
def lexFrom (offset : Nat) : List Char → List Lexeme
  | [] => []
  | c :: cs =>
    if isSpace c then lexFrom (offset + c.utf8Size) cs
    else
      let reading := Token.read c cs
      let slice := c :: reading.tail
      { token := reading.token, start := offset, slice }
        -- Places are counted in bytes, so a wide character moves what stands behind it further.
        :: lexFrom (offset + Text.byteLength slice) reading.rest
termination_by cs => cs.length
decreasing_by
  · simp
  · have := Token.length_rest_read_le c cs
    simp only [List.length_cons]
    omega

def lex (line : List Char) : List Lexeme :=
  lexFrom 0 line

end ByteMachine.Assembly
