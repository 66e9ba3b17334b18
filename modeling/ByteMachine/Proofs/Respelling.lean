import ByteMachine.Proofs.LineGrammar
import ByteMachine.Proofs.Reassembly
import ByteMachine.Proofs.TokenEnds
import Mathlib.Data.List.Forall2
import Mathlib.Logic.Relation

namespace ByteMachine

theorem SameButCase.trans {a b c : String} (hab : SameButCase a b) (hbc : SameButCase b c) :
    SameButCase a c :=
  Eq.trans hab hbc

theorem Opcode.NamedBy.of_sameButCase {op : Opcode} {word word' : String} (h : op.NamedBy word)
    (hcase : SameButCase word' word) : op.NamedBy word' := by
  rcases h with h | ⟨hop, h⟩
  · exact .inl (hcase.trans h)
  · exact .inr ⟨hop, hcase.trans h⟩

namespace Assembly

/-- White space between tokens, at least one character of it. -/
def IsRun (run : List Char) : Prop :=
  run ≠ [] ∧ ∀ c ∈ run, isSpace c = true

def IsWord (word : List Char) : Prop :=
  ∃ c tail, word = c :: tail ∧ isWordStart c = true ∧ ∀ d ∈ tail, isWordChar d = true

/-- One change in the spelling of a line. The mnemonic is the word that comes first. -/
inductive Respelling : List Char → List Char → Prop
  | comma (before behind : List Char) :
      Respelling (before ++ ',' :: behind) (before ++ ' ' :: behind)
  | space (before behind run : List Char) {c : Char} (hc : isSpace c = true) (hrun : IsRun run) :
      Respelling (before ++ c :: behind) (before ++ (run ++ behind))
  | front (line run : List Char) (hrun : IsRun run) : Respelling line (run ++ line)
  | back (line run : List Char) (hrun : IsRun run) : Respelling line (line ++ run)
  | letters (before word word' behind : List Char) (hbefore : ∀ c ∈ before, isSpace c = true)
      (hword : IsWord word) (hbehind : EndsWord behind)
      (hcase : word'.map Char.toLower = word.map Char.toLower) :
      Respelling (before ++ (word ++ behind)) (before ++ (word' ++ behind))

def Respelled : List Char → List Char → Prop :=
  Relation.ReflTransGen Respelling

def withoutCommas (line : List Char) : List Char :=
  line.map fun c => if c = ',' then ' ' else c

/-- The commas of a line become blanks one after the other, from the left. -/
theorem respelled_withoutCommas (line : List Char) : Respelled line (withoutCommas line) := by
  have hbehind (before : List Char) :
      Respelled (before ++ line) (before ++ withoutCommas line) := by
    induction line generalizing before with
    | nil => exact .refl
    | cons c line ih =>
      rw [withoutCommas, List.map_cons]
      by_cases hc : c = ','
      · have hstep : Respelling (before ++ ',' :: line) (before ++ ' ' :: line) :=
          .comma before line
        have hrest := ih (before ++ [' '])
        simp only [List.append_assoc, List.singleton_append] at hrest
        rw [if_pos hc, hc]
        exact hrest.head hstep
      · have hrest := ih (before ++ [c])
        simp only [List.append_assoc, List.singleton_append] at hrest
        rw [if_neg hc]
        exact hrest
  exact hbehind []

theorem endsWord_of_run {run : List Char} (h : IsRun run) (behind : List Char) :
    EndsWord (run ++ behind) := by
  obtain ⟨hne, hall⟩ := h
  cases run with
  | nil => exact absurd rfl hne
  | cons c run => exact endsWord_cons (isWordChar_of_isSpace (hall c List.mem_cons_self)) _

theorem tokens_of_run {run : List Char} (h : IsRun run) (before behind : List Char) :
    tokens (before ++ (run ++ behind)) = tokens before ++ tokens behind := by
  rw [tokens_append (endsWord_of_run h behind), tokens_of_spaces h.2]

theorem tokens_of_space_between {c : Char} (h : isSpace c = true) (before behind : List Char) :
    tokens (before ++ c :: behind) = tokens before ++ tokens behind := by
  rw [tokens_append (endsWord_cons (isWordChar_of_isSpace h) behind), tokens_of_space h]

theorem tokens_of_comma_between (before behind : List Char) :
    tokens (before ++ ',' :: behind) = tokens before ++ .comma :: tokens behind := by
  rw [tokens_append (endsWord_cons rfl behind), tokens_of_comma]

theorem tokens_of_mnemonic {before word behind : List Char}
    (hbefore : ∀ c ∈ before, isSpace c = true) (hword : IsWord word) (hbehind : EndsWord behind) :
    tokens (before ++ (word ++ behind)) = Token.ofWord word :: tokens behind := by
  obtain ⟨c, tail, rfl, hc, htail⟩ := hword
  rw [tokens_of_spaces hbefore, tokens_of_word hc htail hbehind]

theorem isWordStart_toLower (c : Char) : isWordStart c.toLower = isWordStart c := by
  cases h : c.isAlphanum with
  | true =>
    apply Text.of_isAlphanum (P := fun c => isWordStart c.toLower = isWordStart c) _ h
    decide +kernel
  | false => rw [Text.toLower_of_not_isAlphanum h]

theorem isWordChar_toLower (c : Char) : isWordChar c.toLower = isWordChar c := by
  cases h : c.isAlphanum with
  | true =>
    apply Text.of_isAlphanum (P := fun c => isWordChar c.toLower = isWordChar c) _ h
    decide +kernel
  | false => rw [Text.toLower_of_not_isAlphanum h]

/-- Whether a text is a word does not hang on the case of its letters. -/
theorem IsWord.of_sameLetters {word word' : List Char} (h : IsWord word)
    (hcase : word'.map Char.toLower = word.map Char.toLower) : IsWord word' := by
  obtain ⟨c, tail, rfl, hc, htail⟩ := h
  rw [List.map_cons] at hcase
  obtain ⟨c', tail', rfl, hc', htail'⟩ := List.map_eq_cons_iff.mp hcase
  refine ⟨c', tail', rfl, ?_, ?_⟩
  · rw [← isWordStart_toLower, hc', isWordStart_toLower, hc]
  · intro d' hd'
    have hmem : d'.toLower ∈ tail.map Char.toLower := by
      rw [← htail']
      exact List.mem_map_of_mem hd'
    obtain ⟨d, hd, hlower⟩ := List.mem_map.mp hmem
    rw [← isWordChar_toLower, ← hlower, isWordChar_toLower, htail d hd]

/-- No operation is named by the letter of the registers and one character more. -/
theorem ofWord_of_namedBy {op : Opcode} {letters : List Char}
    (h : op.NamedBy (String.ofList letters)) :
    Token.ofWord letters = .word (String.ofList letters) := by
  unfold Token.ofWord
  split
  · next d =>
    exfalso
    have hfirst : op.mnemonic.toList.head? ≠ some 'r' := by cases op <;> decide
    rcases h with hname | ⟨-, hname⟩
    · rw [SameButCase, Opcode.map_toLower_mnemonic, String.toList_ofList, List.map_cons] at hname
      rw [← hname] at hfirst
      exact hfirst rfl
    · rw [SameButCase, String.toList_ofList] at hname
      have hlength : 2 = 4 := congrArg List.length hname
      omega
  · rfl

theorem ReadsAs.of_not_allowed {ts : List Token} {operands : List Operand}
    (h : ReadsAs false ts operands) (allowed : Bool) : ReadsAs allowed ts operands := by
  cases h with
  | nil => exact .nil allowed
  | operand _ o h => exact .operand allowed o h

theorem ReadsAs.drop_comma {allowed : Bool} {before behind : List Token} {operands : List Operand}
    (h : ReadsAs allowed (before ++ .comma :: behind) operands) :
    ReadsAs allowed (before ++ behind) operands := by
  induction before generalizing allowed operands with
  | nil =>
    obtain ⟨-, hrest⟩ := readsAs_comma_iff.mp h
    exact hrest.of_not_allowed allowed
  | cons t before ih =>
    rw [List.cons_append] at h ⊢
    rcases tokenCase allowed t with ⟨o, rfl⟩ | ⟨rfl, rfl⟩ | ⟨ho, hc⟩
    · obtain ⟨rest, rfl, hrest⟩ := readsAs_operand_iff.mp h
      exact readsAs_operand_iff.mpr ⟨rest, rfl, ih hrest⟩
    · obtain ⟨-, hrest⟩ := readsAs_comma_iff.mp h
      exact readsAs_comma_iff.mpr ⟨rfl, ih hrest⟩
    · exact absurd h (not_readsAs_of_refused ho hc _ operands)

variable {op : Opcode} {operands : List Operand}

theorem IsInstruction.drop_comma {before behind : List Token}
    (h : IsInstruction (before ++ .comma :: behind) op operands) :
    IsInstruction (before ++ behind) op operands := by
  obtain ⟨word, rest, htokens, hop, hs, hkinds⟩ := h
  cases before with
  | nil =>
    cases htokens
  | cons t before =>
    obtain ⟨rfl, rfl⟩ := List.cons.inj htokens
    rw [spells_iff_readsAs] at hs
    exact ⟨word, before ++ behind, rfl, hop, (spells_iff_readsAs _ _).mpr hs.drop_comma, hkinds⟩

theorem IsInstruction.other_case {word word' : List Char} {behind : List Token}
    (h : IsInstruction (Token.ofWord word :: behind) op operands)
    (hcase : word'.map Char.toLower = word.map Char.toLower) :
    IsInstruction (Token.ofWord word' :: behind) op operands := by
  obtain ⟨name, rest, htokens, hop, hs, hkinds⟩ := h
  obtain ⟨hword, rfl⟩ := List.cons.inj htokens
  have hsame : SameButCase (String.ofList word') name := by
    rw [SameButCase, String.toList_ofList, Token.ofWord_eq_word hword, hcase]
  have hop' : op.NamedBy (String.ofList word') := hop.of_sameButCase hsame
  rw [ofWord_of_namedBy hop']
  exact ⟨_, behind, rfl, hop', hs, hkinds⟩

variable {line line' : List Char} {found : Option (Opcode × Operands)}

/-- What a line is read as hangs on no more than whether it has tokens and which instruction they
are. -/
theorem readLine_of_kept (hnothing : tokens line = [] → tokens line' = [])
    (hkept : ∀ op operands, IsInstruction (tokens line) op operands →
      IsInstruction (tokens line') op operands)
    (h : readLine line = .ok found) : readLine line' = .ok found := by
  rcases lineCase line with ⟨hlex, hread⟩ | ⟨i, hi, hread⟩ | ⟨e, -, hread⟩
  · have hlex' : lex line' = [] := List.map_eq_nil_iff.mp (hnothing (congrArg _ hlex))
    rw [← h, hread, readLine_of_no_tokens hlex']
  · obtain ⟨word, rest, htokens, hop, hs, -⟩ := hkept _ _ hi
    rw [← h, hread, readLine_of_tokens htokens hop hs, i.shape_written]
    rfl
  · cases hread.symm.trans h

theorem readLine_of_tokens_eq (htokens : tokens line' = tokens line)
    (h : readLine line = .ok found) : readLine line' = .ok found := by
  apply readLine_of_kept _ _ h
  · intro hnil
    rw [htokens, hnil]
  · intro op operands hi
    rw [htokens]
    exact hi

theorem readLine_of_respelling (hrespelling : Respelling line line')
    (h : readLine line = .ok found) : readLine line' = .ok found := by
  cases hrespelling with
  | comma before behind =>
    have hspace : tokens (before ++ ' ' :: behind) = tokens before ++ tokens behind :=
      tokens_of_space_between rfl before behind
    apply readLine_of_kept _ _ h
    · intro hnil
      rw [tokens_of_comma_between] at hnil
      exact absurd hnil (by simp)
    · intro op operands hi
      rw [tokens_of_comma_between] at hi
      rw [hspace]
      exact hi.drop_comma
  | space before behind run hc hrun =>
    apply readLine_of_tokens_eq _ h
    rw [tokens_of_run hrun, tokens_of_space_between hc]
  | front _ run hrun =>
    apply readLine_of_tokens_eq _ h
    exact tokens_of_spaces hrun.2 line
  | back _ run hrun =>
    have hnothing : tokens [] = [] := lexes_nil.tokens_eq
    have hrun' := tokens_of_run hrun line []
    rw [List.append_nil, hnothing, List.append_nil] at hrun'
    exact readLine_of_tokens_eq hrun' h
  | letters before word word' behind hbefore hword hbehind hcase =>
    have hword' := hword.of_sameLetters hcase
    apply readLine_of_kept _ _ h
    · intro hnil
      rw [tokens_of_mnemonic hbefore hword hbehind] at hnil
      cases hnil
    · intro op operands hi
      rw [tokens_of_mnemonic hbefore hword hbehind] at hi
      rw [tokens_of_mnemonic hbefore hword' hbehind]
      exact hi.other_case hcase

theorem readLine_of_respelled (hrespelled : Respelled line line')
    (h : readLine line = .ok found) : readLine line' = .ok found := by
  induction hrespelled with
  | refl => exact h
  | tail _ hstep ih => exact readLine_of_respelling hstep ih

theorem parseLine_of_respelled (hrespelled : Respelled line line') {number : Nat}
    {found : Option Instruction} (h : parseLine line number = .ok found) :
    parseLine line' number = .ok found := by
  rw [parseLine_eq_ok_iff] at h ⊢
  exact readLine_of_respelled hrespelled h

theorem parseLines_of_respelled {lines lines' : List (List Char)}
    (hrespelled : List.Forall₂ Respelled lines lines') {first : Nat} {is : List Instruction}
    (h : parseLines first lines = .ok is) : parseLines first lines' = .ok is := by
  induction hrespelled generalizing first is with
  | nil => exact h
  | @cons line line' lines lines' hline _ ih =>
    cases hread : parseLine line first with
    | error e => cases (parseLines_cons_of_error hread lines).symm.trans h
    | ok found =>
      rw [parseLines_cons_of_ok hread] at h
      rw [parseLines_cons_of_ok (parseLine_of_respelled hline hread)]
      cases hlines : parseLines (first + 1) lines with
      | error e =>
        rw [hlines] at h
        cases h
      | ok rest =>
        rw [hlines] at h
        rw [ih hlines]
        exact h

/-- Spacing, commas and the letter case of the mnemonic carry no meaning in a line that is read
without an error, nor in the lines of a source that is assembled. -/
theorem respelling_keeps_meaning :
    (∀ line line' number found, Respelled line line' →
      parseLine line number = .ok found → parseLine line' number = .ok found) ∧
    (∀ line number found, parseLine line number = .ok found →
      parseLine (withoutCommas line) number = .ok found) ∧
    ∀ source source' : String, ∀ words,
      List.Forall₂ Respelled (source.toList.splitOn '\n') (source'.toList.splitOn '\n') →
      assemble source = .ok words → assemble source' = .ok words := by
  refine ⟨?_, ?_, ?_⟩
  · intro line line' number found hrespelled h
    exact parseLine_of_respelled hrespelled h
  · intro line number found h
    exact parseLine_of_respelled (respelled_withoutCommas line) h
  · intro source source' words hrespelled h
    rw [assemble, instructions] at h ⊢
    cases his : parseLines 1 (source.toList.splitOn '\n') with
    | error e =>
      rw [his] at h
      cases h
    | ok is =>
      rw [his] at h
      rw [parseLines_of_respelled hrespelled his]
      exact h

/-- Line by line, a source is written in capitals, with a tab in front and with commas left out. -/
theorem respelling_keeps_meaning_of_push :
    Respelled "ldi r1, #7".toList "LDI r1  #7".toList ∧
      parseLine "ldi r1, #7".toList 5 = .ok (some (.ldi ⟨1⟩ 7)) ∧
      parseLine "LDI r1  #7".toList 5 = .ok (some (.ldi ⟨1⟩ 7)) ∧
      parseLine (withoutCommas "ldi r1, #7".toList) 5 = .ok (some (.ldi ⟨1⟩ 7)) ∧
      assemble "ldi r1, #7\npush r1\n" = .ok [0xD107, 0xB100] ∧
      assemble "LDI r1  #7\n\tpush\r \tr1\n" = .ok [0xD107, 0xB100] := by
  have hcapitals : Respelling "ldi r1, #7".toList "LDI r1, #7".toList :=
    .letters [] "ldi".toList "LDI".toList " r1, #7".toList (by simp)
      ⟨'l', ['d', 'i'], rfl, rfl, List.all_eq_true.mp rfl⟩ (endsWord_cons rfl _) rfl
  have hcomma : Respelling "LDI r1, #7".toList "LDI r1  #7".toList :=
    .comma "LDI r1".toList " #7".toList
  have hldi : Respelled "ldi r1, #7".toList "LDI r1  #7".toList :=
    (Relation.ReflTransGen.single hcapitals).tail hcomma
  have hspace : Respelling "push r1".toList "push\r \tr1".toList :=
    .space "push".toList "r1".toList "\r \t".toList rfl ⟨by decide, List.all_eq_true.mp rfl⟩
  have hfront : Respelling "push\r \tr1".toList "\tpush\r \tr1".toList :=
    .front _ "\t".toList ⟨by decide, List.all_eq_true.mp rfl⟩
  have hpush : Respelled "push r1".toList "\tpush\r \tr1".toList :=
    (Relation.ReflTransGen.single hspace).tail hfront
  have hread : parseLine "ldi r1, #7".toList 5 = .ok (some (.ldi ⟨1⟩ 7)) :=
    parseLine_text (i := .ldi ⟨1⟩ 7) (by decide) 5
  have hlines : "ldi r1, #7\npush r1\n".toList.splitOn '\n'
      = ["ldi r1, #7".toList, "push r1".toList, []] := by decide
  have hlines' : "LDI r1  #7\n\tpush\r \tr1\n".toList.splitOn '\n'
      = ["LDI r1  #7".toList, "\tpush\r \tr1".toList, []] := by decide
  have hwords : assemble "ldi r1, #7\npush r1\n" = .ok [0xD107, 0xB100] := by
    have hdigit : ∀ i ∈ [Instruction.ldi ⟨1⟩ 7, .push ⟨1⟩], ∀ r ∈ i.registers,
        r.index.toNat < 10 := by decide
    rw [assemble, instructions, hlines]
    exact congrArg (Instruction.encodeAll <$> ·) (parseLines_texts hdigit 1)
  obtain ⟨hline, hcommas, hsource⟩ := respelling_keeps_meaning
  refine ⟨hldi, hread, hline _ _ 5 _ hldi hread, hcommas _ 5 _ hread, hwords, ?_⟩
  apply hsource _ _ _ _ hwords
  rw [hlines, hlines']
  exact .cons hldi (.cons hpush (.cons .refl .nil))

end Assembly

end ByteMachine
