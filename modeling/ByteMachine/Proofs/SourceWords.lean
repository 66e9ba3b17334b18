import ByteMachine.Proofs.LineGrammar
import ByteMachine.Proofs.Reassembly
import Mathlib.Data.List.Forall2

namespace ByteMachine

/-- A register that can be written, but that the machine does not have. -/
def Register.IsSpare (r : Register) : Prop :=
  r.index = 8 ∨ r.index = 9

theorem Register.isSpare_iff {r : Register} (h : r.index.toNat < 10) :
    r.IsSpare ↔ r.isValid = false := by
  have h8 : (8 : UInt8).toNat = 8 := rfl
  have h9 : (9 : UInt8).toNat = 9 := rfl
  rw [IsSpare, ← UInt8.toNat_inj, ← UInt8.toNat_inj, h8, h9, ← Bool.not_eq_true, isValid_iff,
    registerCount]
  omega

namespace Instruction

def UsesSpare (i : Instruction) : Prop :=
  ∃ r ∈ i.registers, r.IsSpare

/-- The first spare register among the operands of an instruction. -/
def FirstSpare (i : Instruction) (r : Register) : Prop :=
  ∃ before behind, i.registers = before ++ r :: behind ∧ r.IsSpare ∧ ∀ s ∈ before, ¬ s.IsSpare

/-- An instruction that can be written: each register has one digit. -/
def IsWritable (i : Instruction) : Prop :=
  ∀ r ∈ i.registers, r.index.toNat < 10

variable {i : Instruction}

theorem IsWritable.lt_sixteen (h : i.IsWritable) : ∀ r ∈ i.registers, r.index.toNat < 16 := by
  intro r hr
  exact Nat.lt_trans (h r hr) (by decide)

/-- The first operand that names no register of the machine is the first spare one. -/
theorem IsWritable.invalidRegister?_eq_some_iff (h : i.IsWritable) (r : Register) :
    i.invalidRegister? = some r ↔ i.FirstSpare r := by
  have hspare : ∀ s ∈ i.registers, s.IsSpare ↔ (!s.isValid) = true := by
    intro s hs
    rw [Register.isSpare_iff (h s hs), Bool.not_eq_true']
  rw [invalidRegister?, List.find?_eq_some_iff_append]
  constructor
  · rintro ⟨hr, before, behind, hregisters, hbefore⟩
    rw [hregisters] at hspare
    refine ⟨before, behind, hregisters, (hspare r (by simp)).mpr hr, ?_⟩
    intro s hs
    rw [hspare s (List.mem_append_left _ hs)]
    simpa using hbefore s hs
  · rintro ⟨before, behind, hregisters, hr, hbefore⟩
    rw [hregisters] at hspare
    refine ⟨(hspare r (by simp)).mp hr, before, behind, hregisters, ?_⟩
    intro s hs
    have hs' := hbefore s hs
    rw [hspare s (List.mem_append_left _ hs)] at hs'
    simpa using hs'

theorem IsWritable.invalidRegister?_eq_none_iff (h : i.IsWritable) :
    i.invalidRegister? = none ↔ ¬ i.UsesSpare := by
  rw [Instruction.invalidRegister?_eq_none_iff]
  constructor
  · rintro hvalid ⟨r, hr, hspare⟩
    rw [Register.isSpare_iff (h r hr), hvalid r hr] at hspare
    cases hspare
  · intro hspare r hr
    rw [← Bool.not_eq_false, ← Register.isSpare_iff (h r hr)]
    intro hr'
    exact hspare ⟨r, hr, hr'⟩

theorem IsWritable.decode_encode (h : i.IsWritable) : decode i.encode = .ok i := by
  rw [decode_eq_ofWord, ofWord_encode h.lt_sixteen]

theorem IsWritable.decodeStrict_encode_eq_ok (h : i.IsWritable) (hspare : ¬ i.UsesSpare) :
    decodeStrict i.encode = .ok i := by
  rw [decodeStrict_encode h.lt_sixteen, h.invalidRegister?_eq_none_iff.mpr hspare]

/-- The word of an instruction that can be written is refused for its first spare register only. -/
theorem IsWritable.decodeStrict_encode_eq_error_iff (h : i.IsWritable) (e : DecodeError) :
    decodeStrict i.encode = .error e ↔ ∃ r, i.FirstSpare r ∧ e = .invalidRegister i.opcode r := by
  simp only [← h.invalidRegister?_eq_some_iff]
  rw [decodeStrict_encode h.lt_sixteen]
  cases i.invalidRegister? with
  | none => simp
  | some r => simp [eq_comm]

theorem IsWritable.exists_error_iff (h : i.IsWritable) :
    (∃ e, decodeStrict i.encode = .error e) ↔ i.UsesSpare := by
  constructor
  · rintro ⟨e, he⟩
    obtain ⟨r, ⟨before, behind, hregisters, hr, -⟩, -⟩ :=
      (h.decodeStrict_encode_eq_error_iff e).mp he
    refine ⟨r, ?_, hr⟩
    rw [hregisters]
    simp
  · intro hspare
    cases hr : i.invalidRegister? with
    | none => exact absurd hspare (h.invalidRegister?_eq_none_iff.mp hr)
    | some r =>
      have hfirst := (h.invalidRegister?_eq_some_iff r).mp hr
      exact ⟨_, (h.decodeStrict_encode_eq_error_iff _).mpr ⟨r, hfirst, rfl⟩⟩

theorem accepted_encodeAll {is : List Instruction} (h : ∀ i ∈ is, i.IsWritable)
    (hspare : ∀ i ∈ is, ¬ i.UsesSpare) : accepted (encodeAll is) = is := by
  induction is with
  | nil => rfl
  | cons i is ih =>
    have hi := (h i List.mem_cons_self).decodeStrict_encode_eq_ok (hspare i List.mem_cons_self)
    have hrest := ih (fun j hj => h j (List.mem_cons_of_mem _ hj))
      (fun j hj => hspare j (List.mem_cons_of_mem _ hj))
    change accepted (i.encode :: encodeAll is) = _
    rw [accepted_cons_of_ok hi, hrest]

end Instruction

theorem Operands.register_mem_written {ops : Operands} {r : Register} (h : r ∈ ops.registers) :
    .register r ∈ ops.written := by
  cases ops with
  | none => exact absurd h List.not_mem_nil
  | _ => simpa [written, registers] using h

namespace Assembly

variable {line : List Char}

theorem Spells.token_mem {tokens : List Token} {operands : List Operand}
    (h : Spells tokens operands) {o : Operand} (ho : o ∈ operands) : o.token ∈ tokens := by
  induction h with
  | nil => cases ho
  | bare o' _ ih =>
    rcases List.mem_cons.mp ho with rfl | ho
    · exact List.mem_cons_self
    · exact List.mem_cons_of_mem _ (ih ho)
  | withComma o' _ ih =>
    rcases List.mem_cons.mp ho with rfl | ho
    · exact List.mem_cons_self
    · exact List.mem_cons_of_mem _ (List.mem_cons_of_mem _ (ih ho))

/-- What is read from a line can be written: its registers are tokens of the line. -/
theorem isWritable_of_readLine {i : Instruction} (h : readLine line = .ok (some i.parts)) :
    i.IsWritable := by
  rcases lineCase line with ⟨-, hread⟩ | ⟨j, hj, hread⟩ | ⟨e, -, hread⟩
  · cases hread.symm.trans h
  · obtain rfl := Instruction.parts_injective
      (Option.some.inj (Except.ok.inj (hread.symm.trans h)))
    obtain ⟨word, rest, htokens, -, hs, -⟩ := hj
    intro r hr
    have hmem := hs.token_mem (Operands.register_mem_written hr)
    have hlex : Token.register r ∈ (lex line).map Lexeme.token := by
      rw [htokens]
      exact List.mem_cons_of_mem _ hmem
    obtain ⟨l, hl, ht⟩ := List.mem_map.mp hlex
    exact index_lt_of_mem_lex hl ht
  · cases hread.symm.trans h

/-- A line of code holds more than the white space between tokens. -/
def isCode (line : List Char) : Bool :=
  line.any fun c => !isSpace c

theorem isCode_eq_false_iff : isCode line = false ↔ lex line = [] := by
  rw [lex_eq_nil_iff]
  simp [isCode]

theorem isCode_of_readLine_none (h : readLine line = .ok none) : isCode line = false := by
  rcases lineCase line with ⟨hlex, -⟩ | ⟨i, -, hread⟩ | ⟨e, -, hread⟩
  · exact isCode_eq_false_iff.mpr hlex
  · cases hread.symm.trans h
  · cases hread.symm.trans h

theorem isCode_of_readLine_some {i : Instruction} (h : readLine line = .ok (some i.parts)) :
    isCode line = true := by
  rw [← Bool.not_eq_false, isCode_eq_false_iff]
  intro hlex
  cases (readLine_of_no_tokens hlex).symm.trans h

/-- Lines read as instructions, one for each of them, whatever their numbers are. -/
def AreRead (lines : List (List Char)) (is : List Instruction) : Prop :=
  List.Forall₂ (fun line i => ∀ number, parseLine line number = .ok (some i)) lines is

theorem AreRead.isWritable {lines : List (List Char)} {is : List Instruction}
    (h : AreRead lines is) : ∀ i ∈ is, i.IsWritable := by
  induction h with
  | nil => exact fun i hi => absurd hi List.not_mem_nil
  | cons hread _ ih =>
    intro i hi
    rcases List.mem_cons.mp hi with rfl | hi
    · exact isWritable_of_readLine ((parseLine_eq_ok_iff _ 0 _).mp (hread 0))
    · exact ih i hi

theorem areRead_texts {is : List Instruction} (h : ∀ i ∈ is, i.IsWritable) :
    AreRead (is.map fun i : Instruction => i.text.toList) is := by
  induction is with
  | nil => exact .nil
  | cons i is ih =>
    have hrest := ih fun j hj => h j (List.mem_cons_of_mem _ hj)
    exact .cons (parseLine_text (h i List.mem_cons_self)) hrest

/-- Good lines give the instructions of those of them that are lines of code. -/
theorem areRead_of_parseLines {first : Nat} {lines : List (List Char)} {is : List Instruction}
    (h : parseLines first lines = .ok is) : AreRead (lines.filter isCode) is := by
  induction lines generalizing first is with
  | nil =>
    obtain rfl := Except.ok.inj h
    exact .nil
  | cons line lines ih =>
    cases hline : parseLine line first with
    | error e => cases (parseLines_cons_of_error hline lines).symm.trans h
    | ok found =>
      rw [parseLines_cons_of_ok hline] at h
      cases hlines : parseLines (first + 1) lines with
      | error e =>
        rw [hlines] at h
        cases h
      | ok rest =>
        rw [hlines] at h
        obtain rfl := Except.ok.inj h
        have hread := (parseLine_eq_ok_iff line first found).mp hline
        have hrest := ih hlines
        cases found with
        | none =>
          rw [List.filter_cons_of_neg (by simp [isCode_of_readLine_none hread])]
          exact hrest
        | some i =>
          rw [List.filter_cons_of_pos (isCode_of_readLine_some hread)]
          exact .cons (fun number => (parseLine_eq_ok_iff line number _).mpr hread) hrest

def codeLines (source : String) : List (List Char) :=
  (source.toList.splitOn '\n').filter isCode

theorem assemble_eq_ok {source : String} {words : List UInt16} (h : assemble source = .ok words) :
    ∃ is, AreRead (codeLines source) is ∧ words = Instruction.encodeAll is := by
  rw [assemble] at h
  cases his : instructions source with
  | error e =>
    rw [his] at h
    cases h
  | ok is =>
    rw [his] at h
    exact ⟨is, areRead_of_parseLines his, (Except.ok.inj h).symm⟩

/-- Words that a source gives: the instruction of each line of code, encoded. Disassembly refuses
those that name a spare register, for that register, and no others. -/
structure Canonical (source : String) (words : List UInt16) (is : List Instruction) : Prop where
  lines : AreRead (codeLines source) is
  length : words.length = (codeLines source).length
  decoded : List.Forall₂ (fun w i => Instruction.decode w = .ok i) words is
  rejected_iff : ∀ k i, is[k]? = some i →
    ((∃ e ∈ (disassembleWords words).rejected, e.index = k) ↔ i.UsesSpare)
  reason : ∀ e ∈ (disassembleWords words).rejected,
    ∃ i r, is[e.index]? = some i ∧ i.FirstSpare r ∧ e.value = .invalidRegister i.opcode r
  isClean_iff : (disassembleWords words).isClean = true ↔ ∀ i ∈ is, ¬ i.UsesSpare
  text : (disassembleWords words).isClean = true →
    ∃ lines, (disassembleWords words).text.toList.splitOn '\n' = lines ++ [[]] ∧ AreRead lines is

section

variable {is : List Instruction} (h : ∀ i ∈ is, i.IsWritable)

include h

theorem decoded_encodeAll :
    List.Forall₂ (fun w i => Instruction.decode w = .ok i) (Instruction.encodeAll is) is := by
  rw [Instruction.encodeAll, List.forall₂_map_left_iff, List.forall₂_same]
  intro i hi
  exact (h i hi).decode_encode

theorem rejected_encodeAll_iff {k : Nat} {i : Instruction} (hi : is[k]? = some i) :
    (∃ e ∈ (disassembleWords (Instruction.encodeAll is)).rejected, e.index = k) ↔
      i.UsesSpare := by
  have hword : (Instruction.encodeAll is)[k]? = some i.encode := by
    rw [Instruction.encodeAll, List.getElem?_map, hi]
    rfl
  have hwritable := h i (List.mem_of_getElem? hi)
  rw [disassembleWords, Program.exists_rejected_iff, ← hwritable.exists_error_iff]
  simp [hword]

theorem reason_encodeAll {e : Entry DecodeError}
    (he : e ∈ (disassembleWords (Instruction.encodeAll is)).rejected) :
    ∃ i r, is[e.index]? = some i ∧ i.FirstSpare r ∧ e.value = .invalidRegister i.opcode r := by
  obtain ⟨hword, -, hread⟩ := (Program.mem_rejected_iff _ e).mp he
  have hmap : (is.map Instruction.encode)[e.index]? = some e.word := hword
  rw [List.getElem?_map] at hmap
  obtain ⟨i, hi, hencode⟩ := Option.map_eq_some_iff.mp hmap
  rw [← hencode] at hread
  have hwritable := h i (List.mem_of_getElem? hi)
  obtain ⟨r, hr, hvalue⟩ := (hwritable.decodeStrict_encode_eq_error_iff e.value).mp hread
  exact ⟨i, r, hi, hr, hvalue⟩

theorem isClean_encodeAll_iff :
    (disassembleWords (Instruction.encodeAll is)).isClean = true ↔ ∀ i ∈ is, ¬ i.UsesSpare := by
  rw [Disassembly.isClean, List.isEmpty_iff, List.eq_nil_iff_forall_not_mem]
  constructor
  · intro hclean i hi hspare
    obtain ⟨k, hk⟩ := List.mem_iff_getElem?.mp hi
    obtain ⟨e, he, -⟩ := (rejected_encodeAll_iff h hk).mpr hspare
    exact hclean e he
  · intro hspare e he
    obtain ⟨i, -, hi, -⟩ := reason_encodeAll h he
    have huses := (rejected_encodeAll_iff h hi).mp ⟨e, he, rfl⟩
    exact hspare i (List.mem_of_getElem? hi) huses

theorem text_encodeAll (hspare : ∀ i ∈ is, ¬ i.UsesSpare) :
    (disassembleWords (Instruction.encodeAll is)).text.toList.splitOn '\n'
      = is.map (fun i : Instruction => i.text.toList) ++ [[]] := by
  have htext := Program.text_disassemble ⟨0, Instruction.encodeAll is⟩
  rw [Instruction.accepted_encodeAll h hspare] at htext
  rw [disassembleWords, htext, splitOn_source]

end

/-- The words of a source are canonical: disassembly refuses them for `r8` and `r9` only, and
without those it gives back the instructions of the source, however it was written. -/
theorem canonical_of_assemble {source : String} {words : List UInt16}
    (h : assemble source = .ok words) : ∃ is, Canonical source words is := by
  obtain ⟨is, hlines, rfl⟩ := assemble_eq_ok h
  have hwritable := hlines.isWritable
  have hlength : (Instruction.encodeAll is).length = (codeLines source).length := by
    rw [Instruction.encodeAll, List.length_map, hlines.length_eq]
  refine ⟨is, hlines, hlength, decoded_encodeAll hwritable, ?_, ?_,
    isClean_encodeAll_iff hwritable, ?_⟩
  · intro k i hi
    exact rejected_encodeAll_iff hwritable hi
  · intro e he
    exact reason_encodeAll hwritable he
  · intro hclean
    have hspare := (isClean_encodeAll_iff hwritable).mp hclean
    exact ⟨_, text_encodeAll hwritable hspare, areRead_texts hwritable⟩

theorem canonical_of_mixed_source :
    assemble "\tLDI r1 #0x1F,\r\n\npush r8\nDone" = .ok [0xD11F, 0xB800, 0xF000] ∧
      ∃ is, Canonical "\tLDI r1 #0x1F,\r\n\npush r8\nDone" [0xD11F, 0xB800, 0xF000] is := by
  have hlines : "\tLDI r1 #0x1F,\r\n\npush r8\nDone".toList.splitOn '\n'
      = ["\tLDI r1 #0x1F,\r".toList, [], "push r8".toList, "Done".toList] := by decide
  have hldi (number : Nat) : parseLine "\tLDI r1 #0x1F,\r".toList number
      = .ok (some (.ldi ⟨1⟩ 0x1F)) := by
    have htokens : Lexes "\tLDI r1 #0x1F,\r".toList
        [.word "LDI", .register ⟨1⟩, .immediate 0x1F, .comma] := by
      refine Lexes.space ?_ rfl
      refine Lexes.of_read ?_ rfl rfl
      refine Lexes.space ?_ rfl
      refine Lexes.of_read ?_ rfl rfl
      refine Lexes.space ?_ rfl
      refine Lexes.of_read ?_ rfl rfl
      refine Lexes.of_read ?_ rfl rfl
      exact Lexes.space lexes_nil rfl
    have hspells := Spells.bare (.register ⟨1⟩) (.withComma (.immediate 0x1F) .nil)
    have hread := readLine_of_tokens (htokens 0) (Or.inl rfl : Opcode.ldi.NamedBy "LDI") hspells
    exact (parseLine_eq_ok_iff _ number _).mpr hread
  have hpush (number : Nat) : parseLine "push r8".toList number = .ok (some (.push ⟨8⟩)) :=
    parseLine_text (i := .push ⟨8⟩) (by decide) number
  have hdone (number : Nat) : parseLine "Done".toList number = .ok (some .hlt) := by
    have htokens : Lexes "Done".toList [.word "Done"] := Lexes.of_read lexes_nil rfl rfl
    have hnamed : Opcode.hlt.NamedBy "Done" := .inr ⟨rfl, rfl⟩
    have hread := readLine_of_tokens (htokens 0) hnamed .nil
    exact (parseLine_eq_ok_iff _ number _).mpr hread
  have hwords : assemble "\tLDI r1 #0x1F,\r\n\npush r8\nDone"
      = .ok [0xD11F, 0xB800, 0xF000] := by
    rw [assemble, instructions, hlines]
    simp only [parseLines_cons, hldi, parseLine_nil, hpush, hdone]
    rfl
  exact ⟨hwords, canonical_of_assemble hwords⟩

end Assembly

end ByteMachine
