import ByteMachine.Proofs.ImmediateValues
import Mathlib.Computability.Language
import Mathlib.Data.Char
import Mathlib.Order.Interval.Set.Defs

/-!
Tokens as the longest texts that patterns match. The patterns are given as languages, and a line
falls into tokens by them alone: behind blanks, tabs and carriage returns stands the longest text
that a pattern matches, or one character where there is none. Reading a line gives these tokens,
each over the bytes that it was read from.
-/

namespace ByteMachine.Assembly

open scoped Computability

/-- The characters that are passed over between tokens. -/
def skipped : Set Char := {' ', '\t', '\r'}

def decimalDigits : Set Char := Set.Icc '0' '9'

def hexDigits : Set Char := decimalDigits ∪ Set.Icc 'a' 'f' ∪ Set.Icc 'A' 'F'

def letters : Set Char := Set.Icc 'a' 'z' ∪ Set.Icc 'A' 'Z' ∪ {'_'}

/-- The texts of one character of a set. -/
def oneOf (s : Set Char) : Language Char :=
  {text | ∃ c ∈ s, text = [c]}

/-- The patterns of tokens. -/
inductive Pattern
  | register
  | decimal
  | hexadecimal
  | word
  | comma

namespace Pattern

/-- The texts that a pattern matches: `r[0-9]`, `#[0-9]+`, `#0[xX][0-9a-fA-F]+`,
`[a-zA-Z_][a-zA-Z0-9_]*` and `,`. -/
def language : Pattern → Language Char
  | register => oneOf {'r'} * oneOf decimalDigits
  | decimal => oneOf {'#'} * (oneOf decimalDigits * (oneOf decimalDigits)∗)
  | hexadecimal =>
    oneOf {'#'} * (oneOf {'0'} * (oneOf {'x', 'X'} * (oneOf hexDigits * (oneOf hexDigits)∗)))
  | word => oneOf letters * (oneOf (letters ∪ decimalDigits))∗
  | comma => oneOf {','}

end Pattern

/-- A number of at most 32 bits is an immediate. -/
def Token.ofValue (value : Nat) : Token :=
  if value < 2 ^ 32 then immediate value else unreadable

/-- The token that a pattern makes of a text that it matches. -/
def Pattern.token : Pattern → List Char → Token
  | register, text => .register ⟨UInt8.ofNat (Text.numeralValue 10 (text.drop 1))⟩
  | decimal, text => .ofValue (Text.numeralValue 10 (text.drop 1))
  | hexadecimal, text => .ofValue (Text.numeralValue 16 (text.drop 3))
  | word, text => .word (String.ofList text)
  | comma, _ => .comma

/-- The longest text that a pattern matches at the front of another. -/
structure LongestMatch (text slice : List Char) : Prop where
  front : slice <+: text
  matched : ∃ p : Pattern, slice ∈ p.language
  longest : ∀ other, other <+: text → (∃ p : Pattern, other ∈ p.language) →
    other.length ≤ slice.length

/-- The token at the front of a text. Of two patterns that match the same text, the one of a
register comes before the one of a word. -/
inductive StartsWith (text : List Char) : List Char → Token → Prop
  | longest {p : Pattern} {slice : List Char} :
      LongestMatch text slice → slice ∈ p.language →
      (p = .word → slice ∉ Pattern.register.language) → StartsWith text slice (p.token slice)
  | stray {c : Char} :
      text.head? = some c → (∀ slice, slice <+: text → ∀ p : Pattern, slice ∉ p.language) →
      StartsWith text [c] .unreadable

/-- The tokens of a text that starts at a given byte. -/
inductive Tokenizes : Nat → List Char → List Lexeme → Prop
  | done {start : Nat} {blanks : List Char} :
      (∀ c ∈ blanks, c ∈ skipped) → Tokenizes start blanks []
  | token {start : Nat} {blanks slice rest : List Char} {t : Token} {lexemes : List Lexeme} :
      (∀ c ∈ blanks, c ∈ skipped) → (∀ c, slice.head? = some c → c ∉ skipped) →
      StartsWith (slice ++ rest) slice t →
      Tokenizes (start + Text.byteLength blanks + Text.byteLength slice) rest lexemes →
      Tokenizes start (blanks ++ (slice ++ rest))
        (⟨t, start + Text.byteLength blanks, slice⟩ :: lexemes)

theorem mem_skipped_iff (c : Char) : c ∈ skipped ↔ isSpace c = true := by
  simp only [skipped, isSpace, Set.mem_insert_iff, Set.mem_singleton_iff, Bool.or_eq_true,
    beq_iff_eq, or_assoc]

theorem mem_decimalDigits_iff (c : Char) : c ∈ decimalDigits ↔ c.isDigit = true := by
  simp only [decimalDigits, Set.mem_Icc, Char.isDigit, Bool.and_eq_true, decide_eq_true_eq]
  rfl

theorem isLower_iff (c : Char) : c.isLower = true ↔ 'a' ≤ c ∧ c ≤ 'z' :=
  Bool.and_eq_true_iff.trans (and_congr decide_eq_true_iff decide_eq_true_iff)

theorem isUpper_iff (c : Char) : c.isUpper = true ↔ 'A' ≤ c ∧ c ≤ 'Z' :=
  decide_eq_true_iff

theorem mem_letters_iff (c : Char) : c ∈ letters ↔ isWordStart c = true := by
  have halpha : c.isAlpha = true ↔ c.isUpper = true ∨ c.isLower = true := Bool.or_eq_true_iff
  simp only [letters, Set.mem_union, Set.mem_Icc, Set.mem_singleton_iff, isWordStart,
    Bool.or_eq_true, beq_iff_eq, halpha, isUpper_iff, isLower_iff]
  exact or_congr_left or_comm

theorem mem_letters_or_digits_iff (c : Char) :
    c ∈ letters ∪ decimalDigits ↔ isWordChar c = true := by
  rw [Set.mem_union, mem_letters_iff, mem_decimalDigits_iff]
  simp only [isWordStart, isWordChar, Char.isAlphanum, Bool.or_eq_true]
  exact or_right_comm

theorem mem_hexDigits_iff (c : Char) : c ∈ hexDigits ↔ isHexDigit c = true := by
  simp only [hexDigits, Set.mem_union, mem_decimalDigits_iff, Set.mem_Icc]
  cases h : c.isAlphanum with
  | true =>
    apply Text.of_isAlphanum (P := fun c => ((c.isDigit = true ∨ 'a' ≤ c ∧ c ≤ 'f') ∨
      'A' ≤ c ∧ c ≤ 'F') ↔ isHexDigit c = true) _ h
    decide +kernel
  | false =>
    obtain ⟨hupper, hlower, hdigit⟩ := Text.of_not_isAlphanum h
    have hnone : isHexDigit c = false := by
      rw [isHexDigit, Text.digitValue?_of_not_isAlphanum h]
      rfl
    rw [hdigit, hnone]
    refine iff_of_false ?_ Bool.false_ne_true
    rintro ((hc | ⟨hfirst, hlast⟩) | ⟨hfirst, hlast⟩)
    · cases hc
    · have hz : c ≤ 'z' := le_trans hlast (by decide)
      cases hlower.symm.trans ((isLower_iff c).mpr ⟨hfirst, hz⟩)
    · have hz : c ≤ 'Z' := le_trans hlast (by decide)
      cases hupper.symm.trans ((isUpper_iff c).mpr ⟨hfirst, hz⟩)

theorem mem_oneOf_mul_iff {s : Set Char} {l : Language Char} {text : List Char} :
    text ∈ oneOf s * l ↔ ∃ c ∈ s, ∃ tail ∈ l, text = c :: tail := by
  rw [Language.mem_mul]
  constructor
  · rintro ⟨_, ⟨c, hc, rfl⟩, tail, htail, rfl⟩
    exact ⟨c, hc, tail, htail, rfl⟩
  · rintro ⟨c, hc, tail, htail, rfl⟩
    exact ⟨[c], ⟨c, hc, rfl⟩, tail, htail, rfl⟩

theorem mem_kstar_oneOf_iff {s : Set Char} {text : List Char} :
    text ∈ (oneOf s)∗ ↔ ∀ c ∈ text, c ∈ s := by
  rw [Language.mem_kstar]
  constructor
  · rintro ⟨parts, rfl, hparts⟩ c hc
    obtain ⟨part, hpart, hc⟩ := List.mem_flatten.mp hc
    obtain ⟨d, hd, rfl⟩ := hparts part hpart
    rwa [List.mem_singleton.mp hc]
  · intro h
    refine ⟨text.map fun c => [c], ?_, ?_⟩
    · rw [← List.flatMap_def, List.flatMap_singleton']
    · intro part hpart
      obtain ⟨c, hc, rfl⟩ := List.mem_map.mp hpart
      exact ⟨c, h c hc, rfl⟩

theorem mem_several_iff {s : Set Char} {text : List Char} :
    text ∈ oneOf s * (oneOf s)∗ ↔ text ≠ [] ∧ ∀ c ∈ text, c ∈ s := by
  simp only [mem_oneOf_mul_iff, mem_kstar_oneOf_iff]
  constructor
  · rintro ⟨c, hc, tail, htail, rfl⟩
    exact ⟨List.cons_ne_nil c tail, List.forall_mem_cons.mpr ⟨hc, htail⟩⟩
  · rintro ⟨hne, hall⟩
    obtain ⟨c, tail, rfl⟩ := List.exists_cons_of_ne_nil hne
    obtain ⟨hc, htail⟩ := List.forall_mem_cons.mp hall
    exact ⟨c, hc, tail, htail, rfl⟩

namespace Pattern

theorem mem_register_iff {text : List Char} :
    text ∈ register.language ↔ ∃ d : Char, d.isDigit = true ∧ text = ['r', d] := by
  simp only [language, mem_oneOf_mul_iff, ← mem_decimalDigits_iff]
  constructor
  · rintro ⟨_, rfl, _, ⟨d, hd, rfl⟩, rfl⟩
    exact ⟨d, hd, rfl⟩
  · rintro ⟨d, hd, rfl⟩
    exact ⟨'r', rfl, [d], ⟨d, hd, rfl⟩, rfl⟩

theorem mem_decimal_iff {text : List Char} :
    text ∈ decimal.language ↔
      ∃ digits, digits ≠ [] ∧ (∀ d ∈ digits, d.isDigit = true) ∧ text = '#' :: digits := by
  simp only [language, mem_oneOf_mul_iff (l := _ * _), mem_several_iff, mem_decimalDigits_iff]
  constructor
  · rintro ⟨_, rfl, digits, ⟨hne, hdigits⟩, rfl⟩
    exact ⟨digits, hne, hdigits, rfl⟩
  · rintro ⟨digits, hne, hdigits, rfl⟩
    exact ⟨'#', rfl, digits, ⟨hne, hdigits⟩, rfl⟩

theorem mem_hexadecimal_iff {text : List Char} :
    text ∈ hexadecimal.language ↔ ∃ x digits, (x = 'x' ∨ x = 'X') ∧ digits ≠ [] ∧
      (∀ d ∈ digits, isHexDigit d = true) ∧ text = '#' :: '0' :: x :: digits := by
  rw [language, mem_oneOf_mul_iff]
  simp only [mem_oneOf_mul_iff (s := {'0'}), mem_oneOf_mul_iff (s := {'x', 'X'}), mem_several_iff,
    mem_hexDigits_iff]
  constructor
  · rintro ⟨_, rfl, _, ⟨_, rfl, _, ⟨x, hx, digits, ⟨hne, hdigits⟩, rfl⟩, rfl⟩, rfl⟩
    exact ⟨x, digits, hx, hne, hdigits, rfl⟩
  · rintro ⟨x, digits, hx, hne, hdigits, rfl⟩
    exact ⟨'#', rfl, _, ⟨'0', rfl, _, ⟨x, hx, digits, ⟨hne, hdigits⟩, rfl⟩, rfl⟩, rfl⟩

theorem mem_word_iff {text : List Char} :
    text ∈ word.language ↔ ∃ c tail, isWordStart c = true ∧ (∀ d ∈ tail, isWordChar d = true) ∧
      text = c :: tail := by
  simp only [language, mem_oneOf_mul_iff, mem_kstar_oneOf_iff, mem_letters_iff,
    mem_letters_or_digits_iff]
  constructor
  · rintro ⟨c, hc, tail, htail, rfl⟩
    exact ⟨c, tail, hc, htail, rfl⟩
  · rintro ⟨c, tail, hc, htail, rfl⟩
    exact ⟨c, hc, tail, htail, rfl⟩

theorem mem_comma_iff {text : List Char} : text ∈ comma.language ↔ text = [','] := by
  constructor
  · rintro ⟨_, rfl, rfl⟩
    rfl
  · rintro rfl
    exact ⟨',', rfl, rfl⟩

end Pattern

/-- The ways that a pattern matches the front of a text, by the first character of it. -/
inductive FrontCase (c : Char) (cs : List Char) : List Char → Prop
  | comma (hc : c = ',') : FrontCase c cs [c]
  | word {tail : List Char} (hc : isWordStart c = true) (hfront : tail <+: cs)
      (htail : ∀ d ∈ tail, isWordChar d = true) : FrontCase c cs (c :: tail)
  | decimal {digits : List Char} (hc : c = '#') (hfront : digits <+: cs) (hne : digits ≠ [])
      (hdigits : ∀ d ∈ digits, d.isDigit = true) : FrontCase c cs (c :: digits)
  | hexadecimal {x : Char} {digits : List Char} (hc : c = '#')
      (hfront : '0' :: x :: digits <+: cs) (hx : x = 'x' ∨ x = 'X') (hne : digits ≠ [])
      (hdigits : ∀ d ∈ digits, isHexDigit d = true) : FrontCase c cs (c :: '0' :: x :: digits)

theorem frontCase {c : Char} {cs text : List Char} (hfront : text <+: c :: cs)
    (h : ∃ p : Pattern, text ∈ p.language) : FrontCase c cs text := by
  obtain ⟨p, h⟩ := h
  cases p with
  | register =>
    obtain ⟨d, hd, rfl⟩ := Pattern.mem_register_iff.mp h
    obtain ⟨rfl, htail⟩ := List.cons_prefix_cons.mp hfront
    refine .word rfl htail ?_
    intro e he
    obtain rfl := List.mem_singleton.mp he
    exact isWordChar_of_isDigit _ hd
  | decimal =>
    obtain ⟨digits, hne, hdigits, rfl⟩ := Pattern.mem_decimal_iff.mp h
    obtain ⟨rfl, htail⟩ := List.cons_prefix_cons.mp hfront
    exact .decimal rfl htail hne hdigits
  | hexadecimal =>
    obtain ⟨x, digits, hx, hne, hdigits, rfl⟩ := Pattern.mem_hexadecimal_iff.mp h
    obtain ⟨rfl, htail⟩ := List.cons_prefix_cons.mp hfront
    exact .hexadecimal rfl htail hx hne hdigits
  | word =>
    obtain ⟨d, tail, hd, htail, rfl⟩ := Pattern.mem_word_iff.mp h
    obtain ⟨rfl, hcs⟩ := List.cons_prefix_cons.mp hfront
    exact .word hd hcs htail
  | comma =>
    obtain rfl := Pattern.mem_comma_iff.mp h
    obtain ⟨rfl, -⟩ := List.cons_prefix_cons.mp hfront
    exact .comma rfl

theorem length_le_takeWhile {p : Char → Bool} {part cs : List Char} (hfront : part <+: cs)
    (hpart : ∀ c ∈ part, p c = true) : part.length ≤ (cs.takeWhile p).length := by
  obtain ⟨rest, rfl⟩ := hfront
  rw [List.takeWhile_append_of_pos hpart, List.length_append]
  exact Nat.le_add_right _ _

theorem takeWhile_ne_nil {p : Char → Bool} {part cs : List Char} (hne : part ≠ [])
    (hfront : part <+: cs) (hpart : ∀ c ∈ part, p c = true) : cs.takeWhile p ≠ [] := by
  have hpos := List.length_pos_iff.mpr hne
  have hle := length_le_takeWhile hfront hpart
  exact List.ne_nil_of_length_pos (by omega)

theorem ofDigits_of_isDigit {digits : List Char} (h : ∀ d ∈ digits, d.isDigit = true) :
    Token.ofDigits 10 digits = .ofValue (Text.numeralValue 10 digits) :=
  ofDigits_eq (by decide) (by decide) fun d hd => Text.digitRank_lt_ten_iff.mpr (h d hd)

theorem ofDigits_of_isHexDigit {digits : List Char} (h : ∀ d ∈ digits, isHexDigit d = true) :
    Token.ofDigits 16 digits = .ofValue (Text.numeralValue 16 digits) :=
  ofDigits_eq (Nat.le_refl 16) (by decide) fun d hd => isHexDigit_iff.mp (h d hd)

theorem ofWord_of_register {text : List Char} (h : text ∈ Pattern.register.language) :
    Token.ofWord text = Pattern.register.token text := by
  obtain ⟨d, hd, rfl⟩ := Pattern.mem_register_iff.mp h
  have hrank := Text.digitValue?_of_lt (by decide) (Text.digitRank_lt_ten_iff.mpr hd)
  rw [Text.digitValue?_ten hd] at hrank
  rw [Token.ofWord, if_pos hd, Option.some.inj hrank]
  exact congrArg (fun n => Token.register ⟨UInt8.ofNat n⟩)
    (Text.numeralValue_singleton 10 d).symm

theorem ofWord_of_not_register {text : List Char} (h : text ∉ Pattern.register.language) :
    Token.ofWord text = Pattern.word.token text := by
  unfold Token.ofWord
  split
  · next d =>
    split
    · next hd => exact absurd (Pattern.mem_register_iff.mpr ⟨d, hd, rfl⟩) h
    · rfl
  · rfl

theorem startsWith_comma (cs : List Char) : StartsWith (',' :: cs) [','] .comma := by
  have hmatch : [','] ∈ Pattern.comma.language := Pattern.mem_comma_iff.mpr rfl
  refine StartsWith.longest (p := .comma) ⟨⟨cs, rfl⟩, ⟨_, hmatch⟩, ?_⟩ hmatch nofun
  intro other hfront hother
  cases frontCase hfront hother with
  | comma hc => exact Nat.le_refl 1
  | word hc => exact absurd hc (by decide)
  | decimal hc => exact absurd hc (by decide)
  | hexadecimal hc => exact absurd hc (by decide)

theorem startsWith_word {c : Char} (hc : isWordStart c = true) (cs : List Char) :
    StartsWith (c :: cs) (c :: cs.takeWhile isWordChar)
      (Token.ofWord (c :: cs.takeWhile isWordChar)) := by
  have hmatch : c :: cs.takeWhile isWordChar ∈ Pattern.word.language :=
    Pattern.mem_word_iff.mpr ⟨c, _, hc, fun d hd => List.mem_takeWhile_imp hd, rfl⟩
  have hlongest : LongestMatch (c :: cs) (c :: cs.takeWhile isWordChar) := by
    refine ⟨List.cons_prefix_cons.mpr ⟨rfl, List.takeWhile_prefix _⟩, ⟨_, hmatch⟩, ?_⟩
    intro other hfront hother
    cases frontCase hfront hother with
    | comma hcomma => exact Nat.succ_le_succ (Nat.zero_le _)
    | word _ htail hall => exact Nat.succ_le_succ (length_le_takeWhile htail hall)
    | decimal hsign =>
      subst hsign
      exact absurd hc (by decide)
    | hexadecimal hsign =>
      subst hsign
      exact absurd hc (by decide)
  by_cases hregister : c :: cs.takeWhile isWordChar ∈ Pattern.register.language
  · rw [ofWord_of_register hregister]
    exact .longest hlongest hregister nofun
  · rw [ofWord_of_not_register hregister]
    exact .longest hlongest hmatch fun _ => hregister

namespace Token

theorem exists_of_readHex? {cs : List Char} {r : Reading} (h : readHex? cs = some r) :
    ∃ x behind, cs = '0' :: x :: behind ∧ (x = 'x' ∨ x = 'X') ∧
      behind.takeWhile isHexDigit ≠ [] := by
  unfold readHex? at h
  split at h
  · next x behind =>
    dsimp only at h
    split at h
    · next hcond =>
      obtain ⟨hx, hempty⟩ := Bool.and_eq_true_iff.mp hcond
      rw [Bool.or_eq_true, beq_iff_eq, beq_iff_eq] at hx
      rw [Bool.not_eq_true', List.isEmpty_eq_false_iff] at hempty
      exact ⟨x, behind, rfl, hx, hempty⟩
    · cases h
  · cases h

/-- Where no hexadecimal number is read, no pattern matches one. -/
theorem not_hexadecimal_of_readHex? {cs : List Char} (h : readHex? cs = none) {x : Char}
    {digits : List Char} (hx : x = 'x' ∨ x = 'X') (hne : digits ≠ [])
    (hdigits : ∀ d ∈ digits, isHexDigit d = true) : ¬ '0' :: x :: digits <+: cs := by
  rintro ⟨rest, rfl⟩
  have htaken := takeWhile_ne_nil hne ⟨rest, rfl⟩ hdigits
  cases h.symm.trans (readHex?_of_hexadecimal hx htaken)

end Token

/-- The hexadecimal form is longer than the decimal one, which ends in front of the `x`. -/
theorem startsWith_hexadecimal {x : Char} (hx : x = 'x' ∨ x = 'X') {cs : List Char}
    (hne : cs.takeWhile isHexDigit ≠ []) :
    StartsWith ('#' :: '0' :: x :: cs) ('#' :: '0' :: x :: cs.takeWhile isHexDigit)
      (Token.ofDigits 16 (cs.takeWhile isHexDigit)) := by
  have hdigits : ∀ d ∈ cs.takeWhile isHexDigit, isHexDigit d = true := fun d hd =>
    List.mem_takeWhile_imp hd
  have hmatch : '#' :: '0' :: x :: cs.takeWhile isHexDigit ∈ Pattern.hexadecimal.language :=
    Pattern.mem_hexadecimal_iff.mpr ⟨x, _, hx, hne, hdigits, rfl⟩
  have hfront : '#' :: '0' :: x :: cs.takeWhile isHexDigit <+: '#' :: '0' :: x :: cs := by
    simp only [List.cons_prefix_cons, List.takeWhile_prefix, and_self]
  rw [ofDigits_of_isHexDigit hdigits]
  refine StartsWith.longest (p := .hexadecimal) ⟨hfront, ⟨_, hmatch⟩, ?_⟩ hmatch nofun
  intro other hother hmatched
  cases frontCase hother hmatched with
  | comma hc => exact absurd hc (by decide)
  | word hc => exact absurd hc (by decide)
  | decimal _ hcs _ hall =>
    have hstop : ('0' :: x :: cs).takeWhile Char.isDigit = ['0'] := by
      rcases hx with rfl | rfl
      · rfl
      · rfl
    have hle := length_le_takeWhile hcs hall
    rw [hstop, List.length_singleton] at hle
    simp only [List.length_cons]
    omega
  | hexadecimal _ hcs _ _ hall =>
    have htail := (List.cons_prefix_cons.mp (List.cons_prefix_cons.mp hcs).2).2
    have hle := length_le_takeWhile htail hall
    simp only [List.length_cons]
    omega

theorem startsWith_decimal {cs : List Char} (hhex : Token.readHex? cs = none)
    (hne : cs.takeWhile Char.isDigit ≠ []) :
    StartsWith ('#' :: cs) ('#' :: cs.takeWhile Char.isDigit)
      (Token.ofDigits 10 (cs.takeWhile Char.isDigit)) := by
  have hdigits : ∀ d ∈ cs.takeWhile Char.isDigit, d.isDigit = true := fun d hd =>
    List.mem_takeWhile_imp hd
  have hmatch : '#' :: cs.takeWhile Char.isDigit ∈ Pattern.decimal.language :=
    Pattern.mem_decimal_iff.mpr ⟨_, hne, hdigits, rfl⟩
  have hfront : '#' :: cs.takeWhile Char.isDigit <+: '#' :: cs :=
    List.cons_prefix_cons.mpr ⟨rfl, List.takeWhile_prefix _⟩
  rw [ofDigits_of_isDigit hdigits]
  refine StartsWith.longest (p := .decimal) ⟨hfront, ⟨_, hmatch⟩, ?_⟩ hmatch nofun
  intro other hother hmatched
  cases frontCase hother hmatched with
  | comma hc => exact absurd hc (by decide)
  | word hc => exact absurd hc (by decide)
  | decimal _ hcs _ hall => exact Nat.succ_le_succ (length_le_takeWhile hcs hall)
  | hexadecimal _ hcs hx hxne hall =>
    exact absurd hcs (Token.not_hexadecimal_of_readHex? hhex hx hxne hall)

theorem startsWith_immediate (cs : List Char) :
    StartsWith ('#' :: cs) ('#' :: (Token.readImmediate cs).tail)
      (Token.readImmediate cs).token := by
  cases hhex : Token.readHex? cs with
  | some r =>
    obtain ⟨x, behind, rfl, hx, hne⟩ := Token.exists_of_readHex? hhex
    rw [Token.readImmediate, Token.readHex?_of_hexadecimal hx hne]
    exact startsWith_hexadecimal hx hne
  | none =>
    rw [Token.readImmediate, hhex, Token.readDecimal?]
    by_cases hne : cs.takeWhile Char.isDigit = []
    · rw [hne]
      refine .stray rfl ?_
      intro slice hslice p hp
      cases frontCase hslice ⟨p, hp⟩ with
      | comma hc => exact absurd hc (by decide)
      | word hc => exact absurd hc (by decide)
      | decimal _ hcs hdigits hall => exact takeWhile_ne_nil hdigits hcs hall hne
      | hexadecimal _ hcs hx hdigits hall =>
        exact Token.not_hexadecimal_of_readHex? hhex hx hdigits hall hcs
    · have hempty : (cs.takeWhile Char.isDigit).isEmpty = false := List.isEmpty_eq_false_iff.mpr hne
      rw [hempty]
      exact startsWith_decimal hhex hne

/-- A token is read over the longest text that a pattern matches, and over one character where there
is none. -/
theorem startsWith_read (c : Char) (cs : List Char) :
    StartsWith (c :: cs) (c :: (Token.read c cs).tail) (Token.read c cs).token := by
  by_cases hcomma : c = ','
  · subst hcomma
    exact startsWith_comma cs
  by_cases hword : isWordStart c = true
  · have hread : Token.read c cs = ⟨Token.ofWord (c :: cs.takeWhile isWordChar),
        cs.takeWhile isWordChar, cs.dropWhile isWordChar⟩ := by
      rw [Token.read, if_neg (by rwa [beq_iff_eq]), if_pos hword]
    rw [hread]
    exact startsWith_word hword cs
  by_cases hsign : c = '#'
  · subst hsign
    exact startsWith_immediate cs
  · have hread : Token.read c cs = ⟨.unreadable, [], cs⟩ := by
      rw [Token.read, if_neg (by rwa [beq_iff_eq]), if_neg hword, if_neg (by rwa [beq_iff_eq])]
    rw [hread]
    refine .stray rfl ?_
    intro slice hslice p hp
    cases frontCase hslice ⟨p, hp⟩ with
    | comma hc => exact hcomma hc
    | word hc => exact hword hc
    | decimal hc => exact hsign hc
    | hexadecimal hc => exact hsign hc

theorem Tokenizes.skip {c : Char} (hc : c ∈ skipped) {start : Nat} {cs : List Char}
    {lexemes : List Lexeme} (h : Tokenizes (start + c.utf8Size) cs lexemes) :
    Tokenizes start (c :: cs) lexemes := by
  cases h with
  | done hblanks => exact .done (List.forall_mem_cons.mpr ⟨hc, hblanks⟩)
  | token hblanks hfirst htoken hrest =>
    rename_i blanks slice rest t lexemes
    have hstart : start + c.utf8Size + Text.byteLength blanks
        = start + Text.byteLength (c :: blanks) := by
      rw [Text.byteLength, Nat.add_assoc]
    rw [hstart] at hrest ⊢
    exact .token (List.forall_mem_cons.mpr ⟨hc, hblanks⟩) hfirst htoken hrest

theorem tokenizes_lexFrom (start : Nat) (cs : List Char) :
    Tokenizes start cs (lexFrom start cs) := by
  induction start, cs using lexFrom.induct with
  | case1 start =>
    rw [lexFrom]
    exact .done fun c hc => absurd hc List.not_mem_nil
  | case2 start c cs hspace ih =>
    rw [lexFrom, if_pos hspace]
    exact ih.skip ((mem_skipped_iff c).mpr hspace)
  | case3 start c cs hspace reading slice ih =>
    have hcs : slice ++ reading.rest = c :: cs :=
      congrArg (c :: ·) (Token.tail_append_rest_read c cs)
    have hstart : StartsWith (slice ++ reading.rest) slice reading.token := by
      rw [hcs]
      exact startsWith_read c cs
    have hfirst : ∀ d, slice.head? = some d → d ∉ skipped := by
      intro d hd
      obtain rfl := Option.some.inj hd
      rwa [mem_skipped_iff]
    have hnone : ∀ d ∈ ([] : List Char), d ∈ skipped := fun d hd => absurd hd List.not_mem_nil
    have htokens := Tokenizes.token hnone hfirst hstart ih
    rw [lexFrom, if_neg hspace]
    rwa [List.nil_append, hcs] at htokens

/-- A text that a pattern matches is read as one token, which is the token of the pattern. -/
theorem exists_read_of_mem {p : Pattern} {text : List Char} (h : text ∈ p.language)
    (hword : p = .word → text ∉ Pattern.register.language) :
    ∃ c tail, text = c :: tail ∧ Token.read c tail = ⟨p.token text, tail, []⟩ := by
  have hread {c : Char} {tail : List Char} (hc : isWordStart c = true)
      (htail : ∀ d ∈ tail, isWordChar d = true) :
      Token.read c tail = ⟨Token.ofWord (c :: tail), tail, []⟩ := by
    have hcomma : ¬ (c == ',') = true := by
      rw [beq_iff_eq]
      rintro rfl
      exact absurd hc (by decide)
    rw [Token.read, if_neg hcomma, if_pos hc, List.takeWhile_eq_self_iff.mpr htail,
      List.dropWhile_eq_nil_iff.mpr htail]
  cases p with
  | register =>
    obtain ⟨d, hd, rfl⟩ := Pattern.mem_register_iff.mp h
    refine ⟨'r', [d], rfl, ?_⟩
    rw [← ofWord_of_register h]
    apply hread rfl
    intro e he
    obtain rfl := List.mem_singleton.mp he
    exact isWordChar_of_isDigit _ hd
  | decimal =>
    obtain ⟨digits, hne, hdigits, rfl⟩ := Pattern.mem_decimal_iff.mp h
    have hdecimal := read_decimal hne hdigits endsWord_nil
    rw [List.append_nil, ofDigits_of_isDigit hdigits] at hdecimal
    exact ⟨'#', digits, rfl, hdecimal⟩
  | hexadecimal =>
    obtain ⟨x, digits, hx, hne, hdigits, rfl⟩ := Pattern.mem_hexadecimal_iff.mp h
    have hhex := read_hexadecimal hx hne hdigits endsWord_nil
    rw [List.append_nil, ofDigits_of_isHexDigit hdigits] at hhex
    exact ⟨'#', '0' :: x :: digits, rfl, hhex⟩
  | word =>
    obtain ⟨c, tail, hc, htail, rfl⟩ := Pattern.mem_word_iff.mp h
    refine ⟨c, tail, rfl, ?_⟩
    rw [hread hc htail, ofWord_of_not_register (hword rfl)]
  | comma =>
    obtain rfl := Pattern.mem_comma_iff.mp h
    exact ⟨',', [], rfl, rfl⟩

theorem LongestMatch.unique {text slice slice' : List Char} (h : LongestMatch text slice)
    (h' : LongestMatch text slice') : slice = slice' := by
  have hle := h'.longest slice h.front h.matched
  have hge := h.longest slice' h'.front h'.matched
  exact (List.prefix_of_prefix_length_le h.front h'.front hle).eq_of_length (by omega)

namespace StartsWith

variable {text slice slice' : List Char} {t t' : Token}

theorem exists_cons (h : StartsWith text slice t) : ∃ c tail, slice = c :: tail := by
  cases h with
  | longest _ hmatch hword =>
    obtain ⟨c, tail, hslice, -⟩ := exists_read_of_mem hmatch hword
    exact ⟨c, tail, hslice⟩
  | stray => exact ⟨_, [], rfl⟩

theorem unique (h : StartsWith text slice t) (h' : StartsWith text slice' t') :
    slice = slice' ∧ t = t' := by
  cases h with
  | longest hlongest hmatch hword =>
    cases h' with
    | longest hlongest' hmatch' hword' =>
      obtain rfl := hlongest.unique hlongest'
      obtain ⟨c, tail, rfl, hread⟩ := exists_read_of_mem hmatch hword
      obtain ⟨d, tail', hcons, hread'⟩ := exists_read_of_mem hmatch' hword'
      obtain ⟨rfl, rfl⟩ := List.cons.inj hcons
      exact ⟨rfl, congrArg Reading.token (hread.symm.trans hread')⟩
    | stray _ hnone => exact absurd hmatch (hnone _ hlongest.front _)
  | stray hhead hnone =>
    cases h' with
    | longest hlongest hmatch _ => exact absurd hmatch (hnone _ hlongest.front _)
    | stray hhead' _ =>
      obtain rfl := Option.some.inj (hhead.symm.trans hhead')
      exact ⟨rfl, rfl⟩

end StartsWith

theorem lexFrom_blanks {blanks : List Char} (h : ∀ c ∈ blanks, c ∈ skipped) (start : Nat)
    (cs : List Char) :
    lexFrom start (blanks ++ cs) = lexFrom (start + Text.byteLength blanks) cs := by
  induction blanks generalizing start with
  | nil => rfl
  | cons c blanks ih =>
    obtain ⟨hc, hblanks⟩ := List.forall_mem_cons.mp h
    rw [List.cons_append, lexFrom, if_pos ((mem_skipped_iff c).mp hc), ih hblanks,
      Text.byteLength, Nat.add_assoc]

theorem Tokenizes.lexFrom_eq {start : Nat} {text : List Char} {lexemes : List Lexeme}
    (h : Tokenizes start text lexemes) : lexFrom start text = lexemes := by
  induction h with
  | done hblanks =>
    rw [lexFrom_eq_nil_iff]
    exact fun c hc => (mem_skipped_iff c).mp (hblanks c hc)
  | @token start blanks slice rest t lexemes hblanks hfirst htoken _ ih =>
    obtain ⟨c, tail, rfl⟩ := htoken.exists_cons
    have hspace : ¬ isSpace c = true := by
      rw [← mem_skipped_iff]
      exact hfirst c rfl
    obtain ⟨hslice, ht⟩ := htoken.unique (startsWith_read c (tail ++ rest))
    have hcs := Token.tail_append_rest_read c (tail ++ rest)
    cases hread : Token.read c (tail ++ rest) with
    | mk t' tail' rest' =>
      rw [hread] at hslice ht hcs
      obtain rfl := (List.cons.inj hslice).2
      obtain rfl := List.append_cancel_left hcs
      obtain rfl := ht
      rw [lexFrom_blanks hblanks, List.cons_append, lexFrom, if_neg hspace]
      simp only [hread, ih]

theorem tokenizes_iff {start : Nat} {text : List Char} {lexemes : List Lexeme} :
    Tokenizes start text lexemes ↔ lexFrom start text = lexemes := by
  constructor
  · exact Tokenizes.lexFrom_eq
  · rintro rfl
    exact tokenizes_lexFrom start text

/-- A lexeme lies behind the text in front of it, and in front of the text behind it. -/
theorem exists_around_of_mem_lexFrom {start : Nat} {cs : List Char} {l : Lexeme}
    (h : l ∈ lexFrom start cs) : ∃ before behind, cs = before ++ (l.slice ++ behind) ∧
      l.start = start + Text.byteLength before ∧ l.slice ≠ [] := by
  obtain ⟨before, c, behind, rfl, -, rfl⟩ := exists_read_of_mem_lexFrom h
  refine ⟨before, (Token.read c behind).rest, ?_, rfl, List.cons_ne_nil _ _⟩
  rw [List.cons_append, Token.tail_append_rest_read]

theorem start_lt_stop {start : Nat} {cs : List Char} {l : Lexeme} (h : l ∈ lexFrom start cs) :
    l.start < l.stop := by
  obtain ⟨-, -, -, -, hne⟩ := exists_around_of_mem_lexFrom h
  obtain ⟨c, tail, htail⟩ := List.exists_cons_of_ne_nil hne
  have hc := c.utf8Size_pos
  rw [Lexeme.stop, htail, Text.byteLength]
  omega

theorem pairwise_lexFrom (start : Nat) (cs : List Char) :
    (lexFrom start cs).Pairwise fun l l' => l.stop ≤ l'.start := by
  induction start, cs using lexFrom.induct with
  | case1 start =>
    rw [lexFrom]
    exact .nil
  | case2 start c cs hspace ih =>
    rw [lexFrom, if_pos hspace]
    exact ih
  | case3 start c cs hspace reading slice ih =>
    rw [lexFrom, if_neg hspace]
    refine .cons ?_ ih
    intro l hl
    obtain ⟨before, behind, -, hstart, -⟩ := exists_around_of_mem_lexFrom hl
    rw [hstart]
    exact Nat.le_add_right _ _

theorem length_lexFrom_le (start : Nat) (cs : List Char) :
    (lexFrom start cs).length ≤ cs.length := by
  induction start, cs using lexFrom.induct with
  | case1 start =>
    rw [lexFrom]
    exact Nat.le_refl _
  | case2 start c cs hspace ih =>
    rw [lexFrom, if_pos hspace, List.length_cons]
    omega
  | case3 start c cs hspace reading slice ih =>
    have hle : reading.rest.length ≤ cs.length := Token.length_rest_read_le c cs
    rw [lexFrom, if_neg hspace, List.length_cons, List.length_cons]
    exact Nat.succ_le_succ (Nat.le_trans ih hle)

/-- A character behind one part of a text stands in that part or in the other. -/
theorem append_eq_append_cons {part rest before behind : List Char} {c : Char}
    (h : part ++ rest = before ++ c :: behind) :
    (∃ middle, part = before ++ c :: middle) ∨
      ∃ middle, before = part ++ middle ∧ rest = middle ++ c :: behind := by
  rcases List.append_eq_append_iff.mp h with ⟨middle, hbefore, hrest⟩ | ⟨middle, hpart, hbehind⟩
  · exact .inr ⟨middle, hbefore, hrest⟩
  · cases middle with
    | nil => exact .inr ⟨[], by rw [hpart, List.append_nil, List.append_nil], hbehind.symm⟩
    | cons d middle =>
      obtain ⟨rfl, -⟩ := List.cons.inj hbehind
      exact .inl ⟨middle, hpart⟩

/-- A character that is not passed over is one of a token. -/
theorem exists_lexeme_at {c : Char} (hc : isSpace c = false) (behind : List Char) (start : Nat)
    (cs : List Char) : ∀ before, cs = before ++ c :: behind →
      ∃ l ∈ lexFrom start cs, l.start ≤ start + Text.byteLength before ∧
        start + Text.byteLength before < l.stop := by
  induction start, cs using lexFrom.induct with
  | case1 start =>
    intro before hcs
    exact absurd hcs.symm (List.append_ne_nil_of_right_ne_nil _ (List.cons_ne_nil _ _))
  | case2 start d cs hspace ih =>
    intro before hcs
    cases before with
    | nil =>
      obtain ⟨rfl, -⟩ := List.cons.inj hcs
      exact absurd hspace (by rw [hc]; exact Bool.false_ne_true)
    | cons e before =>
      obtain ⟨rfl, htail⟩ := List.cons.inj hcs
      rw [lexFrom, if_pos hspace, Text.byteLength, ← Nat.add_assoc]
      exact ih before htail
  | case3 start d cs hspace reading slice ih =>
    intro before hcs
    have hsplit : slice ++ reading.rest = before ++ c :: behind := by
      rw [← hcs]
      exact congrArg (d :: ·) (Token.tail_append_rest_read d cs)
    rw [lexFrom, if_neg hspace]
    rcases append_eq_append_cons hsplit with ⟨middle, hslice⟩ | ⟨middle, rfl, hrest⟩
    · refine ⟨_, List.mem_cons_self, Nat.le_add_right _ _, ?_⟩
      have hsize := c.utf8Size_pos
      change _ < start + Text.byteLength slice
      rw [hslice, Text.byteLength_append, Text.byteLength]
      omega
    · obtain ⟨l, hl, hplace⟩ := ih middle hrest
      rw [Text.byteLength_append, ← Nat.add_assoc]
      exact ⟨l, List.mem_cons_of_mem _ hl, hplace⟩

theorem byteLength_eq_utf8ByteSize (cs : List Char) :
    Text.byteLength cs = (String.ofList cs).utf8ByteSize := by
  induction cs with
  | nil => rfl
  | cons c cs ih =>
    rw [Text.byteLength, ih, String.ofList_cons, String.utf8ByteSize_append,
      String.utf8ByteSize_singleton]

/-- Where the tokens of a line lie, in the bytes of its UTF-8 form. -/
structure Covers (line : List Char) (lexemes : List Lexeme) : Prop where
  nonempty : ∀ l ∈ lexemes, l.start < l.stop
  ordered : lexemes.Pairwise fun l l' => l.stop ≤ l'.start
  boundaries : ∀ l ∈ lexemes, String.Pos.Raw.IsValid (String.ofList line) ⟨l.start⟩ ∧
    String.Pos.Raw.IsValid (String.ofList line) ⟨l.stop⟩
  bytes : ∀ l ∈ lexemes, (String.ofList line).toByteArray.extract l.start l.stop
    = (String.ofList l.slice).toByteArray
  outside : ∀ before c behind, line = before ++ c :: behind →
    (∀ l ∈ lexemes, ¬ (l.start ≤ (String.ofList before).utf8ByteSize ∧
      (String.ofList before).utf8ByteSize < l.stop)) → c ∈ skipped
  count : lexemes.length ≤ line.length

/-- The place of a lexeme of a line, as text around it. -/
theorem exists_around_of_mem_lex {line : List Char} {l : Lexeme} (h : l ∈ lex line) :
    ∃ before behind, String.ofList line = String.ofList before ++
        (String.ofList l.slice ++ String.ofList behind) ∧
      l.start = (String.ofList before).utf8ByteSize ∧
      l.stop = (String.ofList before).utf8ByteSize + (String.ofList l.slice).utf8ByteSize := by
  obtain ⟨before, behind, hline, hstart, -⟩ := exists_around_of_mem_lexFrom h
  rw [Nat.zero_add, byteLength_eq_utf8ByteSize] at hstart
  refine ⟨before, behind, ?_, hstart, ?_⟩
  · rw [hline, String.ofList_append, String.ofList_append]
  · rw [Lexeme.stop, hstart, byteLength_eq_utf8ByteSize]

theorem covers_lex (line : List Char) : Covers line (lex line) where
  nonempty _ hl := start_lt_stop hl
  ordered := pairwise_lexFrom 0 line
  boundaries l hl := by
    obtain ⟨before, behind, hline, hstart, hstop⟩ := exists_around_of_mem_lex hl
    rw [hstart, hstop, hline]
    constructor
    · exact String.Pos.Raw.isValid_iff_exists_append.mpr ⟨_, _, rfl, rfl⟩
    · refine String.Pos.Raw.isValid_iff_exists_append.mpr
        ⟨_, _, (String.append_assoc).symm, ?_⟩
      rw [← String.utf8ByteSize_append]
      rfl
  bytes l hl := by
    obtain ⟨before, behind, hline, hstart, hstop⟩ := exists_around_of_mem_lex hl
    rw [hstart, hstop, hline, String.toByteArray_append, String.toByteArray_append,
      ← String.size_toByteArray, ← String.size_toByteArray]
    have hskip := ByteArray.extract_append_size_add
      (a := (String.ofList before).toByteArray) (i := 0)
      (j := (String.ofList l.slice).toByteArray.size)
      (b := (String.ofList l.slice).toByteArray ++ (String.ofList behind).toByteArray)
    rw [Nat.add_zero] at hskip
    rw [hskip, ByteArray.extract_append_eq_left rfl]
  outside before c behind hline hout := by
    rw [mem_skipped_iff, ← Bool.not_eq_false]
    intro hc
    obtain ⟨l, hl, hplace⟩ := exists_lexeme_at hc behind 0 line before hline
    rw [Nat.zero_add, byteLength_eq_utf8ByteSize] at hplace
    exact hout l hl hplace
  count := length_lexFrom_le 0 line

/-- A line falls into the tokens that its longest matches give and into no others, and loses nothing
but what is passed over between them. -/
theorem lex_longest_matches (line : List Char) :
    (∀ lexemes, lex line = lexemes ↔ Tokenizes 0 line lexemes) ∧ Covers line (lex line) :=
  ⟨fun _ => tokenizes_iff.symm, covers_lex line⟩

/-- Without a digit behind its `x`, the mark of a hexadecimal number is an immediate and a word. -/
example : lex "#0x r10".toList = [⟨.immediate 0, 0, ['#', '0']⟩, ⟨.word "x", 2, ['x']⟩,
    ⟨.word "r10", 4, ['r', '1', '0']⟩] := by
  cbv

end ByteMachine.Assembly
