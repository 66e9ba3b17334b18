import ByteMachine.Proofs.LineGrammar
import ByteMachine.Proofs.Reassembly
import ByteMachine.Proofs.TokenEnds
import Mathlib.Data.List.TakeWhile

namespace ByteMachine

namespace Text

theorem digitRank_lt_ten_iff {c : Char} : digitRank c < 10 ↔ c.isDigit = true := by
  constructor
  · intro h
    have hall : digitRank c < 10 → c.isDigit = true := by
      apply of_isAlphanum (P := fun c => digitRank c < 10 → c.isDigit = true)
      · decide +kernel
      · apply isAlphanum_of_digitRank_lt
        omega
    exact hall h
  · intro h
    have hvalue := digitValue?_ten h
    rw [digitValue?_eq (by decide)] at hvalue
    split at hvalue
    · assumption
    · cases hvalue

end Text

namespace Assembly

theorem isHexDigit_iff {c : Char} : isHexDigit c = true ↔ Text.digitRank c < 16 := by
  rw [isHexDigit, Text.digitValue?_eq (Nat.le_refl 16)]
  by_cases h : Text.digitRank c < 16
  · rw [if_pos h]
    exact iff_of_true rfl h
  · rw [if_neg h]
    exact iff_of_false Bool.false_ne_true h

/-- Letters and digits neither end the text of a `#` literal nor a line. -/
theorem goesOn_of_isAlphanum {c : Char} (h : c.isAlphanum = true) :
    (!(Text.isBlank c || c == ',')) = true ∧ c ≠ '\n' := by
  have hall : c.isAlphanum = true → (!(Text.isBlank c || c == ',')) = true ∧ c ≠ '\n' := by
    apply Text.of_isAlphanum (P := fun c => c.isAlphanum = true →
      (!(Text.isBlank c || c == ',')) = true ∧ c ≠ '\n') _ h
    decide +kernel
  exact hall h

theorem ofDigits_eq {radix : Nat} (hr : radix ≤ 16) (hpos : 0 < radix) {digits : List Char}
    (hdigits : ∀ d ∈ digits, Text.digitRank d < radix) :
    Token.ofDigits radix digits =
      if Text.numeralValue radix digits < Token.immediateBound then
        .immediate (Text.numeralValue radix digits)
      else .unreadable := by
  have hbound : 0 < Token.immediateBound := by decide
  rw [Token.ofDigits, Text.readDigits_eq hr hpos hdigits hbound, Nat.zero_mul, Nat.zero_add]
  by_cases h : Text.numeralValue radix digits < Token.immediateBound
  · simp only [if_pos h]
  · simp only [if_neg h]

theorem Token.readHex?_of_hexadecimal {x : Char} (hx : x = 'x' ∨ x = 'X') {cs : List Char}
    (hne : cs.takeWhile isHexDigit ≠ []) :
    Token.readHex? ('0' :: x :: cs) = some ⟨Token.ofDigits 16 (cs.takeWhile isHexDigit),
      '0' :: x :: cs.takeWhile isHexDigit, cs.dropWhile isHexDigit⟩ := by
  have hmarker : (x == 'x' || x == 'X') = true := by
    rcases hx with rfl | rfl
    · rfl
    · rfl
  have hempty : (cs.takeWhile isHexDigit).isEmpty = false := List.isEmpty_eq_false_iff.mpr hne
  simp only [Token.readHex?, hmarker, hempty, Bool.not_false, Bool.and_true, ↓reduceIte]

/-- Behind `#0x` all hexadecimal digits are taken, and not the decimal `0` in front of them. -/
theorem read_hexadecimal {x : Char} (hx : x = 'x' ∨ x = 'X') {digits rest : List Char}
    (hne : digits ≠ []) (hdigits : ∀ d ∈ digits, isHexDigit d = true) (hrest : EndsWord rest) :
    Token.read '#' ('0' :: x :: (digits ++ rest)) =
      ⟨Token.ofDigits 16 digits, '0' :: x :: digits, rest⟩ := by
  obtain ⟨htake, hdrop⟩ := takeWhile_of_endsWord isWordChar_of_isHexDigit hdigits hrest
  have htaken : (digits ++ rest).takeWhile isHexDigit ≠ [] := by rwa [htake]
  change Token.readImmediate ('0' :: x :: (digits ++ rest)) = _
  rw [Token.readImmediate, Token.readHex?_of_hexadecimal hx htaken, htake, hdrop]
  rfl

/-- How the radix of an immediate is told. -/
inductive Marker
  | decimal
  | lowerHex
  | upperHex

namespace Marker

def text : Marker → List Char
  | decimal => ['#']
  | lowerHex => ['#', '0', 'x']
  | upperHex => ['#', '0', 'X']

def radix : Marker → Nat
  | decimal => 10
  | lowerHex => 16
  | upperHex => 16

theorem radix_le (m : Marker) : m.radix ≤ 16 := by
  cases m <;> decide

theorem radix_pos (m : Marker) : 0 < m.radix := by
  cases m <;> decide

theorem rank_lt_of_all {m : Marker} {digits : List Char}
    (h : digits.all (fun d => decide (Text.digitRank d < m.radix)) = true) :
    ∀ d ∈ digits, Text.digitRank d < m.radix := by
  intro d hd
  exact of_decide_eq_true (List.all_eq_true.mp h d hd)

end Marker

/-- An immediate as it can be written: digits of the radix that its marker tells. -/
structure Literal where
  marker : Marker
  digits : List Char
  nonempty : digits ≠ []
  rank_lt : ∀ d ∈ digits, Text.digitRank d < marker.radix

namespace Literal

def text (l : Literal) : List Char :=
  l.marker.text ++ l.digits

def value (l : Literal) : Nat :=
  Text.numeralValue l.marker.radix l.digits

/-- The token that the immediate is read as. -/
def token (l : Literal) : Token :=
  if l.value < Token.immediateBound then .immediate l.value else .unreadable

variable (l : Literal)

theorem isAlphanum_of_mem_digits {d : Char} (hd : d ∈ l.digits) : d.isAlphanum = true := by
  apply Text.isAlphanum_of_digitRank_lt
  exact Nat.lt_of_lt_of_le (l.rank_lt d hd) l.marker.radix_le

theorem mem_text {c : Char} (h : c ∈ l.text) : c = '#' ∨ c.isAlphanum = true := by
  rw [text, List.mem_append] at h
  rcases h with h | h
  · have hmarker : l.marker.text.all (fun c => c == '#' || c.isAlphanum) = true := by
      cases l.marker <;> decide
    simpa using List.all_eq_true.mp hmarker c h
  · exact .inr (l.isAlphanum_of_mem_digits h)

theorem ofDigits_eq_token : Token.ofDigits l.marker.radix l.digits = l.token :=
  ofDigits_eq l.marker.radix_le l.marker.radix_pos l.rank_lt

/-- An immediate that nothing follows is one token, whatever its marker. -/
theorem exists_read_text :
    ∃ tail, l.text = '#' :: tail ∧ Token.read '#' tail = ⟨l.token, tail, []⟩ := by
  obtain ⟨marker, digits, hne, hrank⟩ := l
  have hhex {x : Char} (hx : x = 'x' ∨ x = 'X') (h : ∀ d ∈ digits, Text.digitRank d < 16) :
      Token.read '#' ('0' :: x :: digits) =
        ⟨Token.ofDigits 16 digits, '0' :: x :: digits, []⟩ := by
    have hdigits : ∀ d ∈ digits, isHexDigit d = true := fun d hd =>
      isHexDigit_iff.mpr (h d hd)
    have hread := read_hexadecimal hx hne hdigits endsWord_nil
    rwa [List.append_nil] at hread
  cases marker with
  | decimal =>
    have hdigits : ∀ d ∈ digits, d.isDigit = true := fun d hd =>
      Text.digitRank_lt_ten_iff.mp (hrank d hd)
    have hread := read_decimal hne hdigits endsWord_nil
    rw [List.append_nil] at hread
    refine ⟨digits, rfl, ?_⟩
    rw [hread, ← ofDigits_eq_token]
    rfl
  | lowerHex =>
    refine ⟨'0' :: 'x' :: digits, rfl, ?_⟩
    rw [hhex (.inl rfl) hrank, ← ofDigits_eq_token]
    rfl
  | upperHex =>
    refine ⟨'0' :: 'X' :: digits, rfl, ?_⟩
    rw [hhex (.inr rfl) hrank, ← ofDigits_eq_token]
    rfl

theorem lexFrom_text (offset : Nat) : lexFrom offset l.text = [⟨l.token, offset, l.text⟩] := by
  obtain ⟨tail, htext, hread⟩ := l.exists_read_text
  have hspace : ¬ isSpace '#' = true := by decide
  have hnil (offset : Nat) : lexFrom offset [] = [] := by rw [lexFrom]
  rw [htext, lexFrom, if_neg hspace]
  simp only [hread, hnil]

theorem token_of_le (h : l.value ≤ 255) :
    l.token = (Operand.immediate (UInt8.ofNat l.value)).token := by
  have hbound : l.value < Token.immediateBound := Nat.lt_of_le_of_lt h (by decide)
  rw [token, if_pos hbound, Operand.token, UInt8.toNat_ofNat', Nat.mod_eq_of_lt]
  omega

theorem token_ne_operand (h : 255 < l.value) (o : Operand) : l.token ≠ o.token := by
  intro heq
  rw [token] at heq
  split at heq
  · cases o with
    | register r => cases heq
    | immediate imm =>
      have hvalue : l.value = imm.toNat := Token.immediate.inj heq
      have hlt := imm.toNat_lt
      omega
  · cases o <;> cases heq

theorem token_ne_comma : l.token ≠ .comma := by
  rw [token]
  split
  · exact nofun
  · exact nofun

theorem literalAt_text (before : List Char) :
    literalAt (before ++ l.text) (Text.byteLength before) = String.ofList l.text := by
  have hall : ∀ c ∈ l.text, (!(Text.isBlank c || c == ',')) = true := by
    intro c hc
    rcases l.mem_text hc with rfl | hc
    · rfl
    · exact (goesOn_of_isAlphanum hc).1
  rw [literalAt, Text.fromByte_byteLength, List.takeWhile_eq_self_iff.mpr hall]

/-- The lexer has no room for some numbers that are too large, and room for others, and an immediate
is refused by its whole text in either case. -/
theorem refusal_text (before : List Char) :
    refusal (before ++ l.text) ⟨l.token, Text.byteLength before, l.text⟩
      = .invalidImmediate (String.ofList l.text) := by
  have hhead : l.text.head? = some '#' := by
    rw [text]
    cases l.marker <;> rfl
  rw [refusal, token]
  dsimp only
  split
  · next hcase =>
    split at hcase <;> cases hcase
  · next hcase =>
    split at hcase <;> cases hcase
  · rw [if_pos hhead, l.literalAt_text]
  · rfl
  · rfl

end Literal

/-- The register of one digit. -/
def digitRegister (d : Fin 10) : Register :=
  ⟨UInt8.ofNat d⟩

/-- A line that loads an immediate into the register of a digit. -/
def loadLine (d : Fin 10) (l : Literal) : String :=
  "ldi r" ++ Text.decimal d ++ ", " ++ String.ofList l.text

section

variable (d : Fin 10) (l : Literal)

theorem toNat_digitRegister : (digitRegister d).index.toNat = d := by
  have hd := d.isLt
  rw [digitRegister, UInt8.toNat_ofNat']
  omega

/-- What stands in front of the blank in front of the immediate. -/
def loadFront : List Char :=
  "ldi".toList ++ ' ' :: ((Operand.register (digitRegister d)).text.toList ++ [','])

theorem toList_loadLine : (loadLine d l).toList = loadFront d ++ ' ' :: l.text := by
  rw [loadFront, Operand.toList_text_register, toNat_digitRegister]
  simp [loadLine, Text.decimal]

theorem tokens_loadFront :
    tokens (loadFront d) = [.word "ldi", .register (digitRegister d), .comma] := by
  have hdigit : (Operand.register (digitRegister d)).Spellable := by
    have hd := d.isLt
    rw [Operand.Spellable, toNat_digitRegister]
    exact hd
  have hregister := lexes_nil.comma.operand (.register (digitRegister d)) (endsWord_cons rfl [])
  rw [Operand.spelledToken_of_spellable hdigit] at hregister
  have hline := (hregister.space (c := ' ') rfl).mnemonic .ldi (endsWord_cons rfl _)
  exact hline.tokens_eq

theorem lex_loadLine :
    lex (loadLine d l).toList =
      lex (loadFront d) ++ [⟨l.token, Text.byteLength (loadFront d ++ [' ']), l.text⟩] := by
  have hspace : isSpace ' ' = true := rfl
  have hplace : 0 + Text.byteLength (loadFront d) + ' '.utf8Size
      = Text.byteLength (loadFront d ++ [' ']) := by
    rw [Text.byteLength_append, Nat.zero_add]
    rfl
  rw [toList_loadLine, lex, lexFrom_append (endsWord_cons rfl _) 0 (loadFront d)]
  rw [lexFrom, if_pos hspace, l.lexFrom_text, hplace]
  rfl

theorem readLine_loadLine_of_le (h : l.value ≤ 255) :
    readLine (loadLine d l).toList
      = .ok (some (Instruction.ldi (digitRegister d) (UInt8.ofNat l.value)).parts) := by
  have htokens : tokens (loadLine d l).toList = .word "ldi" :: .register (digitRegister d) ::
      .comma :: [(Operand.immediate (UInt8.ofNat l.value)).token] := by
    have hfront := tokens_loadFront d
    rw [tokens] at hfront
    rw [tokens, lex_loadLine, List.map_append, hfront, ← l.token_of_le h]
    rfl
  have hop : Opcode.ldi.NamedBy "ldi" := .inl rfl
  have hspells := Spells.withComma (.register (digitRegister d))
    (.bare (.immediate (UInt8.ofNat l.value)) .nil)
  rw [readLine_of_tokens htokens hop hspells]
  rfl

theorem readLine_loadLine_of_lt (h : 255 < l.value) :
    readLine (loadLine d l).toList = .error (.invalidImmediate (String.ofList l.text)) := by
  obtain ⟨first, rest, hfront, hw, hrest⟩ := List.map_eq_cons_iff.mp (tokens_loadFront d)
  obtain ⟨register, rest, rfl, hregister, hrest⟩ := List.map_eq_cons_iff.mp hrest
  obtain ⟨comma, rest, rfl, hcomma, hrest⟩ := List.map_eq_cons_iff.mp hrest
  obtain rfl := List.map_eq_nil_iff.mp hrest
  have hlex := lex_loadLine d l
  rw [hfront, List.cons_append, List.cons_append, List.cons_append, List.nil_append] at hlex
  have hop : Opcode.ldi.NamedBy "ldi" := .inl rfl
  have hline : (loadLine d l).toList = loadFront d ++ [' '] ++ l.text := by
    rw [toList_loadLine, List.append_assoc, List.singleton_append]
  have hrefused : ¬ (false = true ∧ l.token = .comma) := fun hc => l.token_ne_comma hc.2
  rw [readLine_of_named hlex hw hop,
    readOperands_of_operand (o := .register (digitRegister d)) hregister,
    readOperands_of_comma hcomma, readOperands_of_refused (l.token_ne_operand h) hrefused, hline,
    l.refusal_text]
  rfl

theorem newline_not_mem_loadLine : '\n' ∉ (loadLine d l).toList := by
  have hliteral : '\n' ∉ l.text := by
    intro h
    rcases l.mem_text h with h | h
    · exact absurd h (by decide)
    · exact (goesOn_of_isAlphanum h).2 rfl
  have hregister := (Operand.register (digitRegister d)).newline_not_mem_text
  rw [toList_loadLine, loadFront]
  simp [hliteral, hregister]

theorem assemble_loadLine :
    assemble (loadLine d l) =
      (parseLine (loadLine d l).toList 1).map fun found => Instruction.encodeAll found.toList := by
  rw [assemble, instructions, List.splitOn_eq_singleton (newline_not_mem_loadLine d l),
    parseLines_cons]
  cases parseLine (loadLine d l).toList 1 with
  | error e => rfl
  | ok found => cases found <;> rfl

theorem encode_ldi {v : Nat} (h : v ≤ 255) :
    (Instruction.ldi (digitRegister d) (UInt8.ofNat v)).encode
      = UInt16.ofNat (0xD000 + d * 256 + v) := by
  have hd := d.isLt
  have hregister := toNat_digitRegister d
  have hcode : (Opcode.ldi.code).toNat = 13 := rfl
  apply UInt16.toNat_inj.mp
  change (packWord Opcode.ldi.code (.immediate (digitRegister d) (UInt8.ofNat v))).toNat = _
  rw [toNat_packWord]
  simp only [hregister, hcode, UInt8.toNat_ofNat', UInt16.toNat_ofNat']
  omega

end

/-- An immediate is loaded if its value is at most 255, however it is written, and otherwise refused
with its whole text. Spellings of one value give one word. -/
theorem immediate_by_value (number : Nat) (d : Fin 10) (l : Literal) :
    parseLine (loadLine d l).toList number =
      (if l.value ≤ 255 then .ok (some (.ldi ⟨UInt8.ofNat d⟩ (UInt8.ofNat l.value)))
      else .error (.atLine number (.invalidImmediate (String.ofList l.text)))) ∧
    assemble (loadLine d l) =
      (if l.value ≤ 255 then .ok [UInt16.ofNat (0xD000 + d * 256 + l.value)]
      else .error (.atLine 1 (.invalidImmediate (String.ofList l.text)))) ∧
    ∀ l' : Literal, l'.value = l.value → l.value ≤ 255 →
      assemble (loadLine d l') = assemble (loadLine d l) := by
  have hparse (number : Nat) (l : Literal) : parseLine (loadLine d l).toList number =
      (if l.value ≤ 255 then .ok (some (.ldi (digitRegister d) (UInt8.ofNat l.value)))
      else .error (.atLine number (.invalidImmediate (String.ofList l.text)))) := by
    by_cases h : l.value ≤ 255
    · rw [if_pos h]
      exact parseLine_of_parts (readLine_loadLine_of_le d l h) number
    · rw [if_neg h]
      exact parseLine_of_refused (readLine_loadLine_of_lt d l (Nat.lt_of_not_le h)) number
  have hassemble (l : Literal) : assemble (loadLine d l) =
      (if l.value ≤ 255 then .ok [UInt16.ofNat (0xD000 + d * 256 + l.value)]
      else .error (.atLine 1 (.invalidImmediate (String.ofList l.text)))) := by
    rw [assemble_loadLine, hparse]
    by_cases h : l.value ≤ 255
    · rw [if_pos h, if_pos h, ← encode_ldi d h]
      rfl
    · rw [if_neg h, if_neg h]
      rfl
  refine ⟨hparse number l, hassemble l, ?_⟩
  intro l' hvalue h
  rw [hassemble, hassemble, hvalue, if_pos h, if_pos h]

/-- The zeros of a long decimal do not count, and a byte in hexadecimal digits is the same byte. Of
33 bits there is no room in the lexer, and the whole of `#0x100000000` is refused. -/
theorem immediate_by_value_of_long_spellings :
    assemble "ldi r3, #0000000000171" = .ok [0xD3AB] ∧
      assemble "ldi r3, #0Xab" = .ok [0xD3AB] ∧
      parseLine "ldi r9, #0x100000000".toList 7
        = .error (.atLine 7 (.invalidImmediate "#0x100000000")) := by
  have hlong := immediate_by_value 1 3
    ⟨.decimal, "0000000000171".toList, by decide, Marker.rank_lt_of_all (by decide)⟩
  have hshort := hlong.2.2
    ⟨.upperHex, "ab".toList, by decide, Marker.rank_lt_of_all (by decide)⟩ (by decide) (by decide)
  have htooLarge := immediate_by_value 7 9
    ⟨.lowerHex, "100000000".toList, by decide, Marker.rank_lt_of_all (by decide)⟩
  have hword : assemble "ldi r3, #0000000000171" = .ok [0xD3AB] := by
    have h := hlong.2.1
    rw [if_pos (by decide)] at h
    exact h
  refine ⟨hword, ?_, ?_⟩
  · exact Eq.trans hshort hword
  · have h := htooLarge.1
    rw [if_neg (by decide)] at h
    exact h

end Assembly

end ByteMachine
