import ByteMachine.Assembly.Source
import ByteMachine.Disassembly
import ByteMachine.Proofs.Decoding
import ByteMachine.Proofs.InstructionText

namespace ByteMachine

/-- Instructions as assembly text, one a line. -/
def Instruction.source (is : List Instruction) : String :=
  String.join (is.map fun i => i.text ++ "\n")

namespace Assembly

/-- Lines with a line feed behind each are split into those lines and an empty one. -/
theorem splitOn_lines {lines : List (List Char)} (h : ∀ line ∈ lines, '\n' ∉ line) :
    (lines.flatMap fun line => line ++ ['\n']).splitOn '\n' = lines ++ [[]] := by
  induction lines with
  | nil => rfl
  | cons line lines ih =>
    have hline : '\n' ∉ line := h line List.mem_cons_self
    have hrest := ih fun l hl => h l (List.mem_cons_of_mem _ hl)
    rw [List.flatMap_cons, List.append_assoc, List.singleton_append,
      List.splitOn_append_cons_self_of_not_mem hline, hrest, List.cons_append]

theorem parseLine_text {i : Instruction} (h : ∀ r ∈ i.registers, r.index.toNat < 10)
    (number : Nat) : parseLine i.text.toList number = .ok (some i) :=
  parseLine_of_parts (readLine_text h) number

theorem parseLine_nil (number : Nat) : parseLine [] number = .ok none := by
  apply parseLine_of_none
  rw [readLine, lex, lexFrom]

theorem parseLines_cons (first : Nat) (line : List Char) (lines : List (List Char)) :
    parseLines first (line :: lines) =
      parseLine line first >>= fun found =>
        (found.toList ++ ·) <$> parseLines (first + 1) lines := by
  simp only [parseLines, List.zipIdx_cons, List.mapM_cons]
  generalize (List.mapM (m := Except AssemblyError) _ (lines.zipIdx (first + 1))) = rest
  cases parseLine line first with
  | error e => rfl
  | ok found =>
    cases rest with
    | error e => rfl
    | ok founds => cases found <;> rfl

theorem parseLines_cons_of_error {line : List Char} {first : Nat} {e : AssemblyError}
    (h : parseLine line first = .error e) (lines : List (List Char)) :
    parseLines first (line :: lines) = .error e := by
  rw [parseLines_cons, h]
  rfl

theorem parseLines_cons_of_ok {line : List Char} {first : Nat} {found : Option Instruction}
    (h : parseLine line first = .ok found) (lines : List (List Char)) :
    parseLines first (line :: lines) = (found.toList ++ ·) <$> parseLines (first + 1) lines := by
  rw [parseLines_cons, h]
  rfl

theorem parseLines_texts {is : List Instruction}
    (h : ∀ i ∈ is, ∀ r ∈ i.registers, r.index.toNat < 10) (first : Nat) :
    parseLines first (is.map (fun i : Instruction => i.text.toList) ++ [[]]) = .ok is := by
  induction is generalizing first with
  | nil =>
    rw [List.map_nil, List.nil_append, parseLines_cons, parseLine_nil]
    rfl
  | cons i is ih =>
    have hi := parseLine_text (h i List.mem_cons_self) first
    have hrest := ih (fun j hj => h j (List.mem_cons_of_mem _ hj)) (first + 1)
    rw [List.map_cons, List.cons_append, parseLines_cons, hi, hrest]
    rfl

theorem splitOn_source (is : List Instruction) :
    (Instruction.source is).toList.splitOn '\n'
      = is.map (fun i : Instruction => i.text.toList) ++ [[]] := by
  have hlist : (Instruction.source is).toList
      = (is.map fun i : Instruction => i.text.toList).flatMap fun line => line ++ ['\n'] := by
    have hfeed : "\n".toList = ['\n'] := by decide
    rw [Instruction.source, String.toList_join, List.flatMap_map, List.flatMap_map]
    simp only [String.toList_append, hfeed]
  rw [hlist]
  apply splitOn_lines
  intro line hline
  obtain ⟨i, -, rfl⟩ := List.mem_map.mp hline
  exact i.newline_not_mem_text

theorem assemble_source {is : List Instruction}
    (h : ∀ i ∈ is, ∀ r ∈ i.registers, r.index.toNat < 10) :
    assemble (Instruction.source is) = .ok (is.map Instruction.encode) := by
  rw [assemble, instructions, splitOn_source, parseLines_texts h]
  rfl

end Assembly

namespace Instruction

/-- The instructions of the words that the strict reading accepts. -/
def accepted (words : List UInt16) : List Instruction :=
  words.filterMap fun w => (decodeStrict w).toOption

def isAccepted (w : UInt16) : Bool :=
  (decodeStrict w).isOk

theorem accepted_cons_of_ok {w : UInt16} {i : Instruction} (h : decodeStrict w = .ok i)
    (words : List UInt16) : accepted (w :: words) = i :: accepted words := by
  rw [accepted, List.filterMap_cons, h]
  rfl

theorem accepted_cons_of_error {w : UInt16} {e : DecodeError} (h : decodeStrict w = .error e)
    (words : List UInt16) : accepted (w :: words) = accepted words := by
  rw [accepted, List.filterMap_cons, h]
  rfl

theorem map_encode_accepted (words : List UInt16) :
    (accepted words).map encode = words.filter isAccepted := by
  induction words with
  | nil => rfl
  | cons w words ih =>
    cases h : decodeStrict w with
    | ok i =>
      have hw : isAccepted w = true := by rw [isAccepted, h]; rfl
      rw [accepted_cons_of_ok h, List.map_cons, (encode_of_decodeStrict h).2.2, ih,
        List.filter_cons_of_pos hw]
    | error e =>
      have hw : ¬ isAccepted w = true := by rw [isAccepted, h]; exact Bool.false_ne_true
      rw [accepted_cons_of_error h, ih, List.filter_cons_of_neg hw]

theorem accepted_filter (words : List UInt16) :
    accepted (words.filter isAccepted) = accepted words := by
  induction words with
  | nil => rfl
  | cons w words ih =>
    cases h : decodeStrict w with
    | ok i =>
      have hw : isAccepted w = true := by rw [isAccepted, h]; rfl
      rw [List.filter_cons_of_pos hw, accepted_cons_of_ok h, accepted_cons_of_ok h, ih]
    | error e =>
      have hw : ¬ isAccepted w = true := by rw [isAccepted, h]; exact Bool.false_ne_true
      rw [List.filter_cons_of_neg hw, accepted_cons_of_error h, ih]

theorem isValid_of_mem_accepted {words : List UInt16} {i : Instruction}
    (h : i ∈ accepted words) : ∀ r ∈ i.registers, r.isValid = true := by
  obtain ⟨w, -, hw⟩ := List.mem_filterMap.mp h
  cases hd : decodeStrict w with
  | error e =>
    rw [hd] at hw
    exact absurd hw (by simp [Except.toOption])
  | ok j =>
    rw [hd] at hw
    obtain rfl := Option.some.inj hw
    exact (encode_of_decodeStrict hd).2.1

end Instruction

namespace Entry

theorem instruction?_eq_some_iff (e : Entry WordReading) (line : Entry Instruction) :
    e.instruction? = some line ↔ e = { line with value := .ok line.value } := by
  obtain ⟨index, address, word, value⟩ := e
  constructor
  · intro h
    cases value with
    | ok i =>
      obtain rfl := Option.some.inj h
      rfl
    | error reason => cases h
  · intro h
    rw [h]
    rfl

theorem refusal?_eq_some_iff (e : Entry WordReading) (refused : Entry DecodeError) :
    e.refusal? = some refused ↔ e = { refused with value := .error refused.value } := by
  obtain ⟨index, address, word, value⟩ := e
  constructor
  · intro h
    cases value with
    | ok i => cases h
    | error reason =>
      obtain rfl := Option.some.inj h
      rfl
  · intro h
    rw [h]
    rfl

end Entry

namespace Program

def entryOf (p : Program) (placed : UInt16 × Nat) : Entry WordReading where
  index := placed.2
  address := p.addressOf placed.2
  word := placed.1
  value := Instruction.decodeStrict placed.1

theorem instruction?_entryOf_of_ok {p : Program} {placed : UInt16 × Nat} {i : Instruction}
    (h : Instruction.decodeStrict placed.1 = .ok i) :
    (p.entryOf placed).instruction? = some { p.entryOf placed with value := i } := by
  simp only [Entry.instruction?, entryOf, h]

theorem instruction?_entryOf_of_error {p : Program} {placed : UInt16 × Nat} {e : DecodeError}
    (h : Instruction.decodeStrict placed.1 = .error e) :
    (p.entryOf placed).instruction? = none := by
  simp only [Entry.instruction?, entryOf, h]

theorem map_value_lines_disassemble (p : Program) :
    p.disassemble.lines.map Entry.value = Instruction.accepted p.code := by
  have hcode (words : List UInt16) (first : Nat) :
      (((words.zipIdx first).map p.entryOf).filterMap Entry.instruction?).map Entry.value
        = Instruction.accepted words := by
    induction words generalizing first with
    | nil => rfl
    | cons w words ih =>
      rw [List.zipIdx_cons, List.map_cons]
      cases h : Instruction.decodeStrict w with
      | ok i =>
        have hentry : (p.entryOf (w, first)).instruction?
            = some { p.entryOf (w, first) with value := i } :=
          instruction?_entryOf_of_ok h
        rw [Instruction.accepted_cons_of_ok h, List.filterMap_cons_some hentry, List.map_cons, ih]
      | error e =>
        have hentry : (p.entryOf (w, first)).instruction? = none :=
          instruction?_entryOf_of_error h
        rw [Instruction.accepted_cons_of_error h, List.filterMap_cons_none hentry, ih]
  exact hcode p.code 0

theorem text_disassemble (p : Program) :
    p.disassemble.text = Instruction.source (Instruction.accepted p.code) := by
  have htext : p.disassemble.text
      = String.join (p.disassemble.lines.map fun l => l.value.text ++ "\n") := by
    simp only [Disassembly.text, Instruction.format_eq_text]
  rw [htext, Instruction.source, ← map_value_lines_disassemble, List.map_map]
  rfl

theorem mem_entries_iff (p : Program) (e : Entry WordReading) :
    e ∈ p.entries ↔
      p.code[e.index]? = some e.word ∧ e.address = p.addressOf e.index ∧
        Instruction.decodeStrict e.word = e.value := by
  have hmem : e ∈ p.entries ↔ ∃ w k, p.code[k]? = some w ∧ p.entryOf (w, k) = e := by
    change e ∈ p.code.zipIdx.map p.entryOf ↔ _
    simp only [List.mem_map, Prod.exists, List.mk_mem_zipIdx_iff_getElem?]
  rw [hmem]
  constructor
  · rintro ⟨w, k, hk, rfl⟩
    exact ⟨hk, rfl, rfl⟩
  · rintro ⟨hk, haddress, hread⟩
    refine ⟨e.word, e.index, hk, ?_⟩
    rw [entryOf, ← haddress, hread]

/-- The words that disassembly takes are those that the strict reading accepts, each with its place
and its instruction. -/
theorem mem_lines_iff (p : Program) (e : Entry Instruction) :
    e ∈ p.disassemble.lines ↔
      p.code[e.index]? = some e.word ∧ e.address = p.addressOf e.index ∧
        Instruction.decodeStrict e.word = .ok e.value := by
  have hmem : e ∈ p.disassemble.lines ↔ { e with value := .ok e.value } ∈ p.entries := by
    simp only [disassemble, List.mem_filterMap, Entry.instruction?_eq_some_iff, exists_eq_right]
  rw [hmem, mem_entries_iff]

/-- The words that disassembly keeps aside are those that the strict reading refuses, each with its
place and the reason. -/
theorem mem_rejected_iff (p : Program) (e : Entry DecodeError) :
    e ∈ p.disassemble.rejected ↔
      p.code[e.index]? = some e.word ∧ e.address = p.addressOf e.index ∧
        Instruction.decodeStrict e.word = .error e.value := by
  have hmem : e ∈ p.disassemble.rejected ↔ { e with value := .error e.value } ∈ p.entries := by
    simp only [disassemble, List.mem_filterMap, Entry.refusal?_eq_some_iff, exists_eq_right]
  rw [hmem, mem_entries_iff]

theorem exists_rejected_iff (p : Program) (k : Nat) :
    (∃ e ∈ p.disassemble.rejected, e.index = k) ↔
      ∃ w reason, p.code[k]? = some w ∧ Instruction.decodeStrict w = .error reason := by
  constructor
  · rintro ⟨e, he, rfl⟩
    obtain ⟨hword, -, hread⟩ := (p.mem_rejected_iff e).mp he
    exact ⟨_, _, hword, hread⟩
  · rintro ⟨w, reason, hw, hread⟩
    exact ⟨⟨k, p.addressOf k, w, reason⟩, (p.mem_rejected_iff _).mpr ⟨hw, rfl, hread⟩, rfl⟩

theorem isAccepted_of_isClean {p : Program} (h : p.disassemble.isClean = true) :
    ∀ w ∈ p.code, Instruction.isAccepted w = true := by
  intro w hw
  obtain ⟨k, hk⟩ := List.mem_iff_getElem?.mp hw
  cases hread : Instruction.decodeStrict w with
  | ok i =>
    rw [Instruction.isAccepted, hread]
    rfl
  | error reason =>
    obtain ⟨e, he, -⟩ := (p.exists_rejected_iff k).mpr ⟨w, reason, hk, hread⟩
    rw [List.isEmpty_iff.mp h] at he
    cases he

end Program

/-- Disassembled words are assembled into those of them that the strict reading accepts, and these
have the same text again. -/
theorem assemble_text_disassemble (words : List UInt16) :
    ∃ words', Assembly.assemble (disassembleWords words).text = .ok words' ∧
      words' = words.filter (fun w => (Instruction.decodeStrict w).isOk) ∧
      ((disassembleWords words).isClean = true → words' = words) ∧
      (disassembleWords words').text = (disassembleWords words).text := by
  have htext (words : List UInt16) :
      (disassembleWords words).text = Instruction.source (Instruction.accepted words) :=
    Program.text_disassemble ⟨0, words⟩
  have hdigit : ∀ i ∈ Instruction.accepted words, ∀ r ∈ i.registers, r.index.toNat < 10 := by
    intro i hi r hr
    have hvalid := (Register.isValid_iff r).mp (Instruction.isValid_of_mem_accepted hi r hr)
    exact Nat.lt_trans hvalid (by decide)
  have hassemble : Assembly.assemble (disassembleWords words).text
      = .ok (words.filter Instruction.isAccepted) := by
    rw [htext, Assembly.assemble_source hdigit, Instruction.map_encode_accepted]
  refine ⟨_, hassemble, rfl, ?_, ?_⟩
  · intro hclean
    exact List.filter_eq_self.mpr (Program.isAccepted_of_isClean hclean)
  · rw [htext, htext, Instruction.accepted_filter]

end ByteMachine
