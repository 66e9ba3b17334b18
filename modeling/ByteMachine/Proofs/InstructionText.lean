import ByteMachine.Assembly.Line
import ByteMachine.Proofs.Lexing

namespace ByteMachine

namespace Assembly

namespace Operand

def text : Operand → String
  | register r => r.text
  | immediate value => "#" ++ Text.decimal value.toNat

def token : Operand → Token
  | register r => .register r
  | immediate value => .immediate value.toNat

/-- The token that the spelling of an operand is read as. -/
def spelledToken : Operand → Token
  | register r => .ofWord r.text.toList
  | immediate value => .immediate value.toNat

/-- Operands with a spelling that is read back: a register is spelled with one digit. -/
def Spellable : Operand → Prop
  | register r => r.index.toNat < 10
  | immediate _ => True

theorem operand?_token (o : Operand) : operand? o.token = some o := by
  cases o with
  | register r => rfl
  | immediate value =>
    have hlt : value.toNat < 256 := value.toNat_lt
    simp [token, operand?, hlt]

theorem toList_text_register (r : Register) :
    (register r).text.toList = 'r' :: Nat.toDigits 10 r.index.toNat := by
  simp [text, Register.text, Text.decimal]

theorem toList_text_immediate (value : UInt8) :
    (immediate value).text.toList = '#' :: Nat.toDigits 10 value.toNat := by
  simp [text, Text.decimal]

theorem isDigit_of_mem_toDigits {n : Nat} {c : Char} (h : c ∈ Nat.toDigits 10 n) :
    c.isDigit = true :=
  Nat.isDigit_of_mem_toDigits (by decide) (by decide) h

theorem newline_not_mem_toDigits (n : Nat) : '\n' ∉ Nat.toDigits 10 n := by
  intro h
  exact absurd (isDigit_of_mem_toDigits h) (by decide)

theorem newline_not_mem_text (o : Operand) : '\n' ∉ o.text.toList := by
  cases o with
  | register r =>
    rw [toList_text_register, List.mem_cons]
    rintro (h | h)
    · exact absurd h (by decide)
    · exact newline_not_mem_toDigits _ h
  | immediate value =>
    rw [toList_text_immediate, List.mem_cons]
    rintro (h | h)
    · exact absurd h (by decide)
    · exact newline_not_mem_toDigits _ h

end Operand

theorem ofWord_register {r : Register} (h : r.index.toNat < 10) :
    Token.ofWord ('r' :: Nat.toDigits 10 r.index.toNat) = .register r := by
  have hall : ∀ n < 10, Token.ofWord ['r', Nat.digitChar n] = .register ⟨UInt8.ofNat n⟩ := by
    decide
  rw [Nat.toDigits_of_lt_base h, hall _ h, UInt8.ofNat_toNat]

/-- A register of two digits or three is a word, since a word is read to its end. -/
theorem ofWord_long_register {r : Register} (h : 9 < r.index.toNat) :
    Token.ofWord r.text.toList = .word r.text := by
  have hlist : r.text.toList = 'r' :: Nat.toDigits 10 r.index.toNat :=
    Operand.toList_text_register r
  have hlength : 2 ≤ (Nat.toDigits 10 r.index.toNat).length := by
    have hbase : 10 ≤ r.index.toNat := h
    have hfront : 0 < (Nat.toDigits 10 (r.index.toNat / 10)).length :=
      List.length_pos_iff.mpr Nat.toDigits_ne_nil
    rw [Nat.toDigits_of_base_le (by decide) hbase, List.length_append, List.length_singleton]
    omega
  unfold Token.ofWord
  split
  · next d heq =>
    rw [hlist] at heq
    have hsame := congrArg List.length heq
    simp only [List.length_cons, List.length_nil] at hsame
    omega
  · rw [String.ofList_toList]

theorem Operand.spelledToken_of_spellable {o : Operand} (h : o.Spellable) :
    o.spelledToken = o.token := by
  cases o with
  | register r =>
    rw [spelledToken, ← text, toList_text_register, ofWord_register h, token]
  | immediate value => rfl

theorem ofDigits_toDigits {n : Nat} (h : n < Token.immediateBound) :
    Token.ofDigits 10 (Nat.toDigits 10 n) = .immediate n := by
  rw [Token.ofDigits, Text.readDigits_toDigits h]

theorem Lexes.operand {rest : List Char} {tokens : List Token} (h : Lexes rest tokens)
    (o : Operand) (hrest : EndsWord rest) :
    Lexes (o.text.toList ++ rest) (o.spelledToken :: tokens) := by
  cases o with
  | register r =>
    have hword : ∀ d ∈ Nat.toDigits 10 r.index.toNat, isWordChar d = true := by
      intro d hd
      simp [isWordChar, Char.isAlphanum, Operand.isDigit_of_mem_toDigits hd]
    rw [Operand.spelledToken, ← Operand.text, Operand.toList_text_register]
    exact h.word rfl hword hrest
  | immediate value =>
    have hbound : value.toNat < Token.immediateBound :=
      Nat.lt_trans value.toNat_lt (by decide)
    rw [Operand.toList_text_immediate, Operand.spelledToken, ← ofDigits_toDigits hbound]
    exact h.decimal Nat.toDigits_ne_nil (fun _ hd => Operand.isDigit_of_mem_toDigits hd) hrest

theorem Lexes.mnemonic {rest : List Char} {tokens : List Token} (h : Lexes rest tokens)
    (op : Opcode) (hrest : EndsWord rest) :
    Lexes (op.mnemonic.toList ++ rest) (.word op.mnemonic :: tokens) := by
  have hword : ∃ c tail, op.mnemonic.toList = c :: tail ∧ isWordStart c = true ∧
      tail.all isWordChar = true ∧ Token.ofWord (c :: tail) = .word op.mnemonic := by
    cases op <;> exact ⟨_, _, rfl, rfl, rfl, rfl⟩
  obtain ⟨c, tail, hlist, hc, htail, htoken⟩ := hword
  rw [hlist, ← htoken]
  exact h.word hc (List.all_eq_true.mp htail) hrest

def operandText (operands : List Operand) : String :=
  String.intercalate ", " (operands.map Operand.text)

def operandTokens (operands : List Operand) : List Token :=
  (operands.map Operand.token).intersperse .comma

def spelledTokens (operands : List Operand) : List Token :=
  (operands.map Operand.spelledToken).intersperse .comma

theorem spelledTokens_of_spellable {operands : List Operand} (h : ∀ o ∈ operands, o.Spellable) :
    spelledTokens operands = operandTokens operands := by
  have hmap : operands.map Operand.spelledToken = operands.map Operand.token :=
    List.map_congr_left fun o ho => o.spelledToken_of_spellable (h o ho)
  rw [spelledTokens, hmap, operandTokens]

theorem toList_operandText_cons_cons (o o' : Operand) (operands : List Operand) :
    (operandText (o :: o' :: operands)).toList
      = o.text.toList ++ ',' :: ' ' :: (operandText (o' :: operands)).toList := by
  have hsep : ", ".toList = [',', ' '] := by decide
  rw [operandText, operandText, List.map_cons, List.map_cons, String.intercalate_cons_cons,
    String.toList_append, String.toList_append, hsep]
  simp

theorem lexes_operands (operands : List Operand) :
    Lexes (operandText operands).toList (spelledTokens operands) := by
  induction operands with
  | nil => exact lexes_nil
  | cons o operands ih =>
    cases operands with
    | nil =>
      have hend : EndsWord [] := fun c hc => absurd hc (by simp)
      have hlexes := lexes_nil.operand o hend
      rw [List.append_nil] at hlexes
      rw [operandText, List.map_singleton, String.intercalate_singleton]
      exact hlexes
    | cons o' operands =>
      have hend : EndsWord (',' :: ' ' :: (operandText (o' :: operands)).toList) := by
        intro c hc
        obtain rfl := Option.some.inj hc
        rfl
      rw [toList_operandText_cons_cons]
      exact (ih.space rfl).comma.operand o hend

theorem newline_not_mem_operandText (operands : List Operand) :
    '\n' ∉ (operandText operands).toList := by
  induction operands with
  | nil => exact List.not_mem_nil
  | cons o operands ih =>
    have ho := o.newline_not_mem_text
    cases operands with
    | nil =>
      rw [operandText, List.map_singleton, String.intercalate_singleton]
      exact ho
    | cons o' operands =>
      rw [toList_operandText_cons_cons]
      simp [ho, ih]

theorem readOperands_of_tokens (line : List Char) {operands : List Operand}
    {lexemes : List Lexeme} (h : lexemes.map Lexeme.token = operandTokens operands)
    (commaAllowed : Bool) : readOperands line commaAllowed lexemes = .ok operands := by
  induction operands generalizing lexemes commaAllowed with
  | nil =>
    obtain rfl := List.map_eq_nil_iff.mp h
    rfl
  | cons o operands ih =>
    cases operands with
    | nil =>
      obtain ⟨l, rfl, hl⟩ := List.map_eq_singleton_iff.mp h
      simp only [readOperands, hl, o.operand?_token]
      rfl
    | cons o' operands =>
      obtain ⟨l, ls, rfl, hl, hls⟩ := List.map_eq_cons_iff.mp h
      obtain ⟨lc, ls', rfl, hlc, hls'⟩ := List.map_eq_cons_iff.mp hls
      have hrest := ih hls' false
      have hcomma : operand? Token.comma = none := rfl
      simp only [readOperands, hl, hlc, o.operand?_token, hcomma, hrest, Bool.true_and,
        decide_true, ↓reduceIte]
      rfl

end Assembly

/-- The operands of a list, each on its own. -/
def Operands.written : Operands → List Assembly.Operand
  | none => []
  | one a => [.register a]
  | two a b => [.register a, .register b]
  | three a b c => [.register a, .register b, .register c]
  | immediate a imm => [.register a, .immediate imm]

namespace Operands

theorem map_text_written (ops : Operands) :
    ops.written.map Assembly.Operand.text = ops.spellings := by
  cases ops <;> rfl

theorem length_written (ops : Operands) : ops.written.length = ops.arity.operandCount := by
  cases ops <;> rfl

/-- The operands of a list of the shape of an operation make that list again. -/
theorem shape_written {op : Opcode} {ops : Operands} (h : ops.arity = op.arity) :
    Assembly.shape op ops.written = .ok ops := by
  have hlength : ops.written.length = op.arity.operandCount := by rw [length_written, h]
  unfold Assembly.shape
  rw [if_neg (not_not_intro hlength), ← h]
  cases ops <;> rfl

theorem spellable_of_mem_written (ops : Operands) (h : ∀ r ∈ ops.registers, r.index.toNat < 10)
    {o : Assembly.Operand} (ho : o ∈ ops.written) : o.Spellable := by
  cases o with
  | immediate value => trivial
  | register r =>
    apply h r
    cases ops with
    | none => exact absurd ho List.not_mem_nil
    | _ => simpa [written, registers] using ho

end Operands

theorem Opcode.newline_not_mem_mnemonic (op : Opcode) : '\n' ∉ op.mnemonic.toList := by
  cases op <;> decide

namespace Instruction

/-- What a line is read as that holds the instruction. -/
def parts (i : Instruction) : Opcode × Operands :=
  (i.opcode, i.operands)

theorem parts_injective {i j : Instruction} (h : i.parts = j.parts) : i = j := by
  obtain ⟨hop, hoperands⟩ := Prod.mk.inj h
  have hmake := i.ofOperands_opcode_operands
  rw [hop, hoperands, j.ofOperands_opcode_operands] at hmake
  exact (Except.ok.inj hmake).symm

theorem shape_written (i : Instruction) :
    Assembly.shape i.opcode i.operands.written = .ok i.operands :=
  Operands.shape_written i.arity_operands

theorem text_of_no_operands {i : Instruction} (h : i.operands.written = []) :
    i.text = i.mnemonic := by
  have hs : i.operands.spellings = [] := by
    rw [← Operands.map_text_written, h]
    rfl
  rw [text, hs]

theorem text_of_operands {i : Instruction} (h : i.operands.written ≠ []) :
    i.text = i.mnemonic ++ " " ++ Assembly.operandText i.operands.written := by
  have hs : i.operands.spellings ≠ [] := by
    rw [← Operands.map_text_written]
    simpa using h
  rw [Assembly.operandText, Operands.map_text_written, text]
  cases hsp : i.operands.spellings with
  | nil => exact absurd hsp hs
  | cons s ss => rfl

theorem lexes_text (i : Instruction) :
    Assembly.Lexes i.text.toList
      (.word i.mnemonic :: Assembly.spelledTokens i.operands.written) := by
  by_cases hw : i.operands.written = []
  · have hend : Assembly.EndsWord [] := fun c hc => absurd hc (by simp)
    have hlexes := Assembly.lexes_nil.mnemonic i.opcode hend
    rw [List.append_nil] at hlexes
    rw [text_of_no_operands hw, hw]
    exact hlexes
  · have hoperands := Assembly.lexes_operands i.operands.written
    have hend : Assembly.EndsWord (' ' :: (Assembly.operandText i.operands.written).toList) := by
      intro c hc
      obtain rfl := Option.some.inj hc
      rfl
    have hspace : " ".toList = [' '] := by decide
    rw [text_of_operands hw, String.toList_append, String.toList_append, hspace, List.append_assoc]
    exact (hoperands.space rfl).mnemonic i.opcode hend

theorem newline_not_mem_text (i : Instruction) : '\n' ∉ i.text.toList := by
  have hmnemonic : '\n' ∉ i.mnemonic.toList := i.opcode.newline_not_mem_mnemonic
  by_cases hw : i.operands.written = []
  · rw [text_of_no_operands hw]
    exact hmnemonic
  · have hoperands := Assembly.newline_not_mem_operandText i.operands.written
    rw [text_of_operands hw, String.toList_append, String.toList_append]
    simp [hmnemonic, hoperands]

end Instruction

namespace Assembly

theorem parseLine_of_none {line : List Char} (h : readLine line = .ok none) (number : Nat) :
    parseLine line number = .ok none := by
  rw [parseLine, h]
  rfl

theorem parseLine_of_parts {line : List Char} {i : Instruction}
    (h : readLine line = .ok (some i.parts)) (number : Nat) :
    parseLine line number = .ok (some i) := by
  rw [parseLine, h]
  change some <$> (Instruction.ofOperands i.opcode i.operands).mapError _ = _
  rw [i.ofOperands_opcode_operands]
  rfl

theorem parseLine_of_refused {line : List Char} {e : LineError} (h : readLine line = .error e)
    (number : Nat) :
    parseLine line number = .error (.atLine number e) := by
  rw [parseLine, h]
  rfl

end Assembly

theorem Opcode.ofSpelling?_mnemonic (op : Opcode) : ofSpelling? op.mnemonic = some op := by
  cases op <;> decide

/-- An instruction whose registers have one digit is what its text is read as. -/
theorem Assembly.readLine_text {i : Instruction} (h : ∀ r ∈ i.registers, r.index.toNat < 10) :
    readLine i.text.toList = .ok (some i.parts) := by
  have htokens : (lex i.text.toList).map Lexeme.token
      = .word i.mnemonic :: spelledTokens i.operands.written := i.lexes_text 0
  rw [spelledTokens_of_spellable fun o ho => i.operands.spellable_of_mem_written h ho] at htokens
  obtain ⟨first, lexemes, hlex, hfirst, hoperands⟩ := List.map_eq_cons_iff.mp htokens
  have hread := readOperands_of_tokens i.text.toList hoperands false
  have hop : Opcode.ofSpelling? i.mnemonic = some i.opcode := i.opcode.ofSpelling?_mnemonic
  rw [readLine, hlex]
  simp only [hfirst, hop, hread]
  change (fun shaped => some (i.opcode, shaped)) <$> shape i.opcode i.operands.written = _
  rw [i.shape_written]
  rfl

end ByteMachine
