import ByteMachine.Proofs.Numerals
import ByteMachine.Proofs.Reassembly

namespace ByteMachine

namespace Entry

theorem sublist_index_filterMap {α : Type} {f : Entry WordReading → Option (Entry α)}
    (hf : ∀ e e', f e = some e' → e'.index = e.index) (entries : List (Entry WordReading)) :
    ((entries.filterMap f).map index).Sublist (entries.map index) := by
  induction entries with
  | nil => exact List.Sublist.slnil
  | cons e entries ih =>
    cases he : f e with
    | none =>
      rw [List.filterMap_cons_none he]
      exact ih.cons e.index
    | some e' =>
      rw [List.filterMap_cons_some he, List.map_cons, List.map_cons, hf e e' he]
      exact ih.cons_cons e.index

/-- An entry goes to one of the two parts and not to the other. -/
theorem perm_index_parts (entries : List (Entry WordReading)) :
    ((entries.filterMap instruction?).map index ++ (entries.filterMap refusal?).map index).Perm
      (entries.map index) := by
  induction entries with
  | nil => exact List.Perm.nil
  | cons e entries ih =>
    cases hread : e.value with
    | ok i =>
      have hline : e.instruction? = some { e with value := i } := by rw [instruction?, hread]
      have hrefusal : e.refusal? = none := by rw [refusal?, hread]
      rw [List.filterMap_cons_some hline, List.filterMap_cons_none hrefusal, List.map_cons,
        List.map_cons, List.cons_append]
      exact ih.cons e.index
    | error reason =>
      have hline : e.instruction? = none := by rw [instruction?, hread]
      have hrefusal : e.refusal? = some { e with value := reason } := by rw [refusal?, hread]
      rw [List.filterMap_cons_none hline, List.filterMap_cons_some hrefusal, List.map_cons,
        List.map_cons]
      exact List.perm_middle.trans (ih.cons e.index)

end Entry

namespace Program

theorem map_index_entries (p : Program) : p.entries.map Entry.index = List.range p.code.length := by
  have hsnd : p.entries.map Entry.index = p.code.zipIdx.map Prod.snd := by
    rw [entries, List.map_map]
    rfl
  rw [hsnd, List.zipIdx_map_snd, List.range_eq_range']

theorem perm_index_disassemble (p : Program) :
    (p.disassemble.lines.map Entry.index ++ p.disassemble.rejected.map Entry.index).Perm
      (List.range p.code.length) := by
  rw [← map_index_entries]
  exact Entry.perm_index_parts p.entries

theorem pairwise_index_filterMap {α : Type} {f : Entry WordReading → Option (Entry α)}
    (hf : ∀ e e', f e = some e' → e'.index = e.index) (p : Program) :
    ((p.entries.filterMap f).map Entry.index).Pairwise (· < ·) := by
  apply List.Pairwise.sublist (Entry.sublist_index_filterMap hf p.entries)
  rw [map_index_entries]
  exact List.pairwise_lt_range

end Program

theorem Text.newline_not_mem_append {a b : String} (ha : '\n' ∉ a.toList) (hb : '\n' ∉ b.toList) :
    '\n' ∉ (a ++ b).toList := by
  rw [String.toList_append, List.mem_append]
  exact not_or.mpr ⟨ha, hb⟩

theorem DecodeError.newline_not_mem_message (e : DecodeError) : '\n' ∉ e.message.toList := by
  have hmark : '\n' ∉ "Instruction '".toList := by decide
  cases e with
  | unknownOpcode code =>
    have hmessage : '\n' ∉ "Unknown opcode: 0x".toList := by decide
    have hcode := Text.not_mem_upperHex Text.newline_not_mem_digits 1 code.toNat
    exact Text.newline_not_mem_append hmessage hcode
  | invalidRegister op r =>
    have hmessage : '\n' ∉ "' addresses an invalid register ".toList := by decide
    have hr : '\n' ∉ r.text.toList := (Assembly.Operand.register r).newline_not_mem_text
    have hfront := Text.newline_not_mem_append hmark op.newline_not_mem_mnemonic
    exact Text.newline_not_mem_append (Text.newline_not_mem_append hfront hmessage) hr
  | unexpectedOperands op =>
    have hmessage : '\n' ∉ "' expected ".toList := by decide
    have harity : '\n' ∉ op.arity.text.toList := by cases op.arity <;> decide
    have hend : '\n' ∉ ", potentially corrupt!".toList := by decide
    have hfront := Text.newline_not_mem_append hmark op.newline_not_mem_mnemonic
    exact Text.newline_not_mem_append
      (Text.newline_not_mem_append (Text.newline_not_mem_append hfront hmessage) harity) hend

theorem Entry.listedText_of_ok {e : Entry WordReading} {i : Instruction} (h : e.value = .ok i) :
    e.listedText = i.text := by
  rw [listedText, h]
  exact i.format_eq_text

theorem Entry.newline_not_mem_listedText (e : Entry WordReading) : '\n' ∉ e.listedText.toList := by
  cases hread : e.value with
  | ok i =>
    rw [listedText_of_ok hread]
    exact i.newline_not_mem_text
  | error reason =>
    have hmessage := reason.newline_not_mem_message
    have hmark : '\n' ∉ "; ERROR: ".toList := by decide
    rw [listedText, hread]
    exact Text.newline_not_mem_append hmark hmessage

/-- A row of a listing without its line feed: an address, a word, and a text behind them. -/
def listedRow (address word : UInt16) (shown : List Char) : List Char :=
  '0' :: 'x' :: (Text.fixedHex 4 address.toNat ++ ':' :: ' ' :: ' ' ::
    (Text.fixedHex 4 word.toNat ++ ' ' :: ' ' :: shown))

theorem Entry.toList_listingRow (e : Entry WordReading) :
    e.listingRow.toList = listedRow e.address e.word e.listedText.toList ++ ['\n'] := by
  have hbehind : ":  ".toList = [':', ' ', ' '] := by decide
  have hblanks : "  ".toList = [' ', ' '] := by decide
  have hfeed : "\n".toList = ['\n'] := by decide
  have haddress := Text.toList_addressLabel e.address.toNat_lt
  have hword : (Text.upperHex 4 e.word.toNat).toList = Text.fixedHex 4 e.word.toNat :=
    Text.toList_upperHex (by decide) e.word.toNat_lt
  simp only [listingRow, listedRow, String.toList_append, haddress, hword, hbehind, hblanks, hfeed,
    List.append_assoc, List.cons_append, List.nil_append]

theorem newline_not_mem_listedRow (address word : UInt16) {shown : List Char} (h : '\n' ∉ shown) :
    '\n' ∉ listedRow address word shown := by
  have haddress := Text.not_mem_fixedHex Text.newline_not_mem_digits 4 address.toNat
  have hword := Text.not_mem_fixedHex Text.newline_not_mem_digits 4 word.toNat
  simp only [listedRow, List.mem_cons, List.mem_append, haddress, hword, h, or_false]
  decide

namespace Program

def headerLines (p : Program) : List (List Char) :=
  ["; Octet disassembly".toList,
    "; Base: 0x".toList ++ Text.fixedHex 4 p.base.toNat,
    "; Code size: ".toList ++ Nat.toDigits 10 p.byteLength ++ " bytes (".toList
      ++ Nat.toDigits 10 p.code.length ++ " instructions)".toList,
    []]

theorem toList_listingHeader (p : Program) :
    p.listingHeader.toList = p.headerLines.flatMap fun line => line ++ ['\n'] := by
  have hfirst : "; Octet disassembly\n".toList = "; Octet disassembly".toList ++ ['\n'] := by rfl
  have hlast : " instructions)\n".toList = " instructions)".toList ++ ['\n'] := by decide
  have hbase : "; Base: 0x".toList = "; Base: ".toList ++ ['0', 'x'] := by decide
  have hfeed : "\n".toList = ['\n'] := by decide
  have hlabel := Text.toList_addressLabel p.base.toNat_lt
  delta listingHeader headerLines
  simp only [String.toList_append, hlabel, Text.decimal, String.toList_ofList, hfirst, hlast, hbase,
    hfeed, List.flatMap_cons, List.flatMap_nil, List.append_assoc, List.cons_append,
    List.nil_append, List.append_nil]

theorem newline_not_mem_headerLines (p : Program) : ∀ line ∈ p.headerLines, '\n' ∉ line := by
  have hbase := Text.not_mem_fixedHex Text.newline_not_mem_digits 4 p.base.toNat
  have hbytes := Assembly.Operand.newline_not_mem_toDigits p.byteLength
  have hwords := Assembly.Operand.newline_not_mem_toDigits p.code.length
  intro line hline
  simp only [headerLines, List.mem_cons, List.not_mem_nil, or_false] at hline
  rcases hline with rfl | rfl | rfl | rfl
  · decide
  · simp only [List.mem_append, hbase, or_false]
    decide
  · simp only [List.mem_append, hbytes, hwords, or_false]
    decide
  · exact List.not_mem_nil

def rows (p : Program) : List (List Char) :=
  p.entries.map fun e => listedRow e.address e.word e.listedText.toList

/-- The lines of a listing are those of its header and one row for each word. -/
theorem splitOn_listing (p : Program) :
    p.listing.toList.splitOn '\n' = p.headerLines ++ p.rows ++ [[]] := by
  have hrows : (p.entries.map Entry.listingRow).flatMap String.toList
      = p.rows.flatMap fun line => line ++ ['\n'] := by
    rw [rows, List.flatMap_map, List.flatMap_map]
    simp only [Entry.toList_listingRow]
  rw [listing, String.toList_append, String.toList_join, toList_listingHeader, hrows,
    ← List.flatMap_append]
  apply Assembly.splitOn_lines
  intro line hline
  rcases List.mem_append.mp hline with hheader | hrow
  · exact p.newline_not_mem_headerLines line hheader
  · obtain ⟨e, -, rfl⟩ := List.mem_map.mp hrow
    exact newline_not_mem_listedRow e.address e.word e.newline_not_mem_listedText

theorem length_rows (p : Program) : p.rows.length = p.code.length := by
  rw [rows, List.length_map, entries, List.length_map, List.length_zipIdx]

theorem getElem?_rows {p : Program} {e : Entry WordReading} (h : e ∈ p.entries) :
    p.rows[e.index]? = some (listedRow e.address e.word e.listedText.toList) := by
  obtain ⟨hword, haddress, hread⟩ := (p.mem_entries_iff e).mp h
  have hentry : p.entryOf (e.word, e.index) = e := by rw [entryOf, ← haddress, hread]
  have hentries : p.entries[e.index]? = some e := by
    change (p.code.zipIdx.map p.entryOf)[e.index]? = some e
    rw [List.getElem?_map, List.getElem?_zipIdx, hword, Nat.zero_add]
    exact congrArg some hentry
  rw [rows, List.getElem?_map, hentries]
  rfl

theorem splitOn_text_disassemble (p : Program) :
    p.disassemble.text.toList.splitOn '\n'
      = p.disassemble.lines.map (fun e => e.value.text.toList) ++ [[]] := by
  rw [text_disassemble, Assembly.splitOn_source, ← map_value_lines_disassemble, List.map_map]
  rfl

end Program

/-- The word whose four hexadecimal digits stand behind a number of characters. -/
def hexWordBehind (skipped : Nat) (line : List Char) : UInt16 :=
  UInt16.ofNat (Text.numeralValue 16 ((line.drop skipped).take 4))

theorem hexWordBehind_append (before : List Char) (w : UInt16) (behind : List Char) :
    hexWordBehind before.length (before ++ (Text.fixedHex 4 w.toNat ++ behind)) = w := by
  have hlength := Text.length_fixedHex 4 w.toNat
  rw [hexWordBehind, List.drop_left, List.take_left' hlength,
    Text.numeralValue_fixedHex w.toNat_lt, UInt16.ofNat_toNat]

/-- The word of a row stands behind the address, its mark, a colon and two blanks. -/
theorem hexWordBehind_listedRow (address word : UInt16) (shown : List Char) :
    hexWordBehind 9 (listedRow address word shown) = word := by
  let before := '0' :: 'x' :: (Text.fixedHex 4 address.toNat ++ [':', ' ', ' '])
  have hlength : before.length = 9 := by
    simp only [before, List.length_cons, List.length_append, Text.length_fixedHex, List.length_nil]
  have hrow : listedRow address word shown
      = before ++ (Text.fixedHex 4 word.toNat ++ ' ' :: ' ' :: shown) := by
    simp only [listedRow, before, List.cons_append, List.append_assoc, List.nil_append]
  rw [hrow, ← hlength, hexWordBehind_append]

namespace Program

/-- The program that a listing shows. The second line names its base, and a row for each word stands
behind the fourth. -/
def ofListing (listing : String) : Program :=
  let lines := listing.toList.splitOn '\n'
  { base := hexWordBehind 10 (lines.getD 1 [])
    code := (lines.drop 4).dropLast.map (hexWordBehind 9) }

theorem ofListing_listing (p : Program) : ofListing p.listing = p := by
  have hbase : hexWordBehind 10 ("; Base: 0x".toList ++ Text.fixedHex 4 p.base.toNat) = p.base := by
    have happend := hexWordBehind_append "; Base: 0x".toList p.base []
    rwa [List.append_nil] at happend
  have hcode : p.rows.map (hexWordBehind 9) = p.code := by
    have hwords : p.rows.map (hexWordBehind 9) = p.code.zipIdx.map Prod.fst := by
      rw [rows, entries, List.map_map, List.map_map]
      apply List.map_congr_left
      intro placed _
      exact hexWordBehind_listedRow _ _ _
    rw [hwords, List.zipIdx_map_fst]
  have hrows : ((p.headerLines ++ p.rows ++ [[]]).drop 4).dropLast = p.rows := by
    have hdrop : (p.headerLines ++ p.rows ++ [[]]).drop 4 = p.rows ++ [[]] := rfl
    rw [hdrop, List.dropLast_concat]
  have hsecond : (p.headerLines ++ p.rows ++ [[]]).getD 1 []
      = "; Base: 0x".toList ++ Text.fixedHex 4 p.base.toNat := rfl
  simp only [ofListing, splitOn_listing, hrows, hsecond, hbase, hcode]

end Program

/-- What the disassembly of a program and its listing hold of its words. The text of the disassembly
has the lines `texts`, and the listing has the rows `rows` behind its header. -/
structure Program.Covered (p : Program) (rows texts : List (List Char)) : Prop where
  parted : (p.disassemble.lines.map Entry.index ++ p.disassemble.rejected.map Entry.index).Perm
    (List.range p.code.length)
  linesOrdered : (p.disassemble.lines.map Entry.index).Pairwise (· < ·)
  rejectedOrdered : (p.disassemble.rejected.map Entry.index).Pairwise (· < ·)
  line_iff : ∀ e, e ∈ p.disassemble.lines ↔
    p.code[e.index]? = some e.word ∧ e.address = p.addressOf e.index ∧
      Instruction.decodeStrict e.word = .ok e.value
  rejected_iff : ∀ e, e ∈ p.disassemble.rejected ↔
    p.code[e.index]? = some e.word ∧ e.address = p.addressOf e.index ∧
      Instruction.decodeStrict e.word = .error e.value
  text : p.disassemble.text.toList.splitOn '\n' = texts ++ [[]]
  textLength : texts.length = p.disassemble.lines.length
  listing : p.listing.toList.splitOn '\n' = p.headerLines ++ rows ++ [[]]
  listingLength : rows.length = p.code.length
  rowOfLine : ∀ (k : Nat) e, p.disassemble.lines[k]? = some e →
    ∃ shown, texts[k]? = some shown ∧ rows[e.index]? = some (listedRow e.address e.word shown)
  rowOfRejected : ∀ e ∈ p.disassemble.rejected,
    rows[e.index]? = some (listedRow e.address e.word ("; ERROR: " ++ e.value.message).toList)
  readBack : Program.ofListing p.listing = p

/-- Disassembly loses no word, and the listing agrees with it. -/
theorem Program.listing_agrees_with_disassembly (p : Program) :
    ∃ rows texts, p.Covered rows texts := by
  refine ⟨p.rows, p.disassemble.lines.map fun e => e.value.text.toList, ?_⟩
  exact {
    parted := p.perm_index_disassemble
    linesOrdered := by
      apply pairwise_index_filterMap
      intro e line h
      rw [(e.instruction?_eq_some_iff line).mp h]
    rejectedOrdered := by
      apply pairwise_index_filterMap
      intro e refused h
      rw [(e.refusal?_eq_some_iff refused).mp h]
    line_iff := p.mem_lines_iff
    rejected_iff := p.mem_rejected_iff
    text := p.splitOn_text_disassemble
    textLength := List.length_map _
    listing := p.splitOn_listing
    listingLength := p.length_rows
    rowOfLine := by
      intro k e hk
      refine ⟨e.value.text.toList, ?_, ?_⟩
      · rw [List.getElem?_map, hk]
        rfl
      · obtain ⟨e', he', hline⟩ := List.mem_filterMap.mp (List.mem_of_getElem? hk)
        obtain rfl := (e'.instruction?_eq_some_iff e).mp hline
        have hrow := getElem?_rows he'
        rw [Entry.listedText_of_ok rfl] at hrow
        exact hrow
    rowOfRejected := by
      intro e he
      obtain ⟨e', he', hrefused⟩ := List.mem_filterMap.mp he
      obtain rfl := (e'.refusal?_eq_some_iff e).mp hrefused
      exact getElem?_rows he'
    readBack := p.ofListing_listing }

end ByteMachine
