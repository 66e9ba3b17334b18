import ByteMachine.Proofs.LineGrammar
import ByteMachine.Proofs.Reassembly
import ByteMachine.Proofs.TokenEnds

namespace ByteMachine.Assembly

theorem endsWord_return : EndsWord ['\r'] :=
  endsWord_cons rfl []

theorem lexFrom_append_return (offset : Nat) (cs : List Char) :
    lexFrom offset (cs ++ ['\r']) = lexFrom offset cs := by
  have hreturn (offset : Nat) : lexFrom offset ['\r'] = [] := by
    apply (lexFrom_eq_nil_iff _ _).mpr
    intro c hc
    obtain rfl := List.mem_singleton.mp hc
    rfl
  rw [lexFrom_append endsWord_return, hreturn, List.append_nil]

theorem lex_append_return (line : List Char) : lex (line ++ ['\r']) = lex line :=
  lexFrom_append_return 0 line

variable {line : List Char}

/-- The text that an error shows ends before white space, so it is the same too. -/
theorem literalAt_append_return {l : Lexeme} (h : l ∈ lex line) :
    literalAt (line ++ ['\r']) l.start = literalAt line l.start := by
  obtain ⟨before, behind, hline, hstart⟩ := exists_append_of_mem_lex h
  have hstop : ∀ c, ['\r'].head? = some c → (!(Text.isBlank c || c == ',')) = false := by
    intro c hc
    obtain rfl := Option.some.inj hc
    rfl
  have htake := (takeWhile_append_of_stop hstop (l.slice ++ behind)).1
  rw [literalAt, literalAt, ← hstart, hline, List.append_assoc before, Text.fromByte_byteLength,
    Text.fromByte_byteLength, htake]

theorem refusal_append_return {l : Lexeme} (h : l ∈ lex line) :
    refusal (line ++ ['\r']) l = refusal line l := by
  unfold refusal
  cases l.token with
  | unreadable => simp only [literalAt_append_return h]
  | _ => rfl

theorem readOperands_append_return {lexemes : List Lexeme} (h : ∀ l ∈ lexemes, l ∈ lex line)
    (commaAllowed : Bool) :
    readOperands (line ++ ['\r']) commaAllowed lexemes
      = readOperands line commaAllowed lexemes := by
  induction lexemes generalizing commaAllowed with
  | nil => rfl
  | cons l lexemes ih =>
    have hrest := ih fun l' hl' => h l' (List.mem_cons_of_mem _ hl')
    rw [readOperands, readOperands, hrest, hrest, refusal_append_return (h l List.mem_cons_self)]

theorem readLine_append_return (line : List Char) :
    readLine (line ++ ['\r']) = readLine line := by
  rw [readLine, readLine, lex_append_return]
  cases hlex : lex line with
  | nil => rfl
  | cons first lexemes =>
    have hmem : ∀ l ∈ lexemes, l ∈ lex line := by
      intro l hl
      rw [hlex]
      exact List.mem_cons_of_mem _ hl
    simp only [readOperands_append_return hmem]

/-- A line without the carriage return at its end. -/
def dropReturn (line : List Char) : List Char :=
  if line.getLast? = some '\r' then line.dropLast else line

/-- The lines between which line feeds stand, where the last has none behind it. It is a line only
if it is not empty, and the others end before the carriage return of their line end. -/
def linesOf : List (List Char) → List (List Char)
  | [] => []
  | [last] => if last = [] then [] else [last]
  | piece :: pieces => dropReturn piece :: linesOf pieces

def sourceLines (source : String) : List (List Char) :=
  linesOf (source.toList.splitOn '\n')

theorem parseLine_dropReturn (line : List Char) (number : Nat) :
    parseLine (dropReturn line) number = parseLine line number := by
  unfold dropReturn
  split
  · next hlast =>
    obtain ⟨before, rfl⟩ := List.getLast?_eq_some_iff.mp hlast
    rw [List.dropLast_concat, parseLine, parseLine, readLine_append_return]
  · rfl

theorem parseLines_linesOf (first : Nat) (pieces : List (List Char)) :
    parseLines first (linesOf pieces) = parseLines first pieces := by
  induction pieces using linesOf.induct generalizing first with
  | case1 => rfl
  | case2 =>
    rw [linesOf, if_pos rfl, parseLines_cons, parseLine_nil]
    rfl
  | case3 last h => rw [linesOf, if_neg h]
  | case4 piece pieces hne ih =>
    rw [linesOf, parseLines_cons, parseLine_dropReturn, ih, ← parseLines_cons]
    exact hne

/-- It does not matter to the instructions of a source whether a line feed or a carriage return with
it ends a line, nor whether there is a line end behind the last line. -/
theorem instructions_eq (source : String) :
    instructions source = parseLines 1 (sourceLines source) :=
  (parseLines_linesOf 1 _).symm

example : sourceLines "a\r\n\nb\r" = [['a'], [], ['b', '\r']] ∧ sourceLines "a\n" = [['a']] := by
  decide

/-- The error `e` is what is wrong with the line at place `k` among lines numbered on from `first`,
and the lines before it are good. -/
structure FirstError (first : Nat) (lines : List (List Char)) (k : Nat) (e : AssemblyError) :
    Prop where
  refused : ∃ line, lines[k]? = some line ∧ parseLine line (first + k) = .error e
  earlier : ∀ j < k, ∀ line, lines[j]? = some line →
    ∃ found, parseLine line (first + j) = .ok found

section

variable {first k : Nat} {lines : List (List Char)} {e : AssemblyError}

theorem FirstError.line?_eq (h : FirstError first lines k e) : e.line? = some (first + k) := by
  obtain ⟨line, -, herror⟩ := h.refused
  obtain ⟨problem, -, rfl⟩ := (parseLine_eq_error_iff line _ e).mp herror
  rfl

theorem firstError_zero_iff :
    FirstError first (line :: lines) 0 e ↔ parseLine line first = .error e := by
  constructor
  · rintro ⟨⟨l, hl, herror⟩, -⟩
    obtain rfl : line = l := Option.some.inj hl
    exact herror
  · intro h
    exact ⟨⟨line, rfl, h⟩, fun j hj => absurd hj (Nat.not_lt_zero j)⟩

theorem firstError_succ_iff :
    FirstError first (line :: lines) (k + 1) e ↔
      (∃ found, parseLine line first = .ok found) ∧ FirstError (first + 1) lines k e := by
  have hnumber (j : Nat) : first + (j + 1) = first + 1 + j := by omega
  constructor
  · rintro ⟨⟨l, hl, herror⟩, hearlier⟩
    refine ⟨hearlier 0 (Nat.succ_pos k) line rfl, ⟨l, hl, hnumber k ▸ herror⟩, ?_⟩
    intro j hj l' hl'
    rw [← hnumber]
    exact hearlier (j + 1) (Nat.succ_lt_succ hj) l' hl'
  · rintro ⟨hline, ⟨l, hl, herror⟩, hearlier⟩
    refine ⟨⟨l, hl, (hnumber k).symm ▸ herror⟩, ?_⟩
    intro j hj l' hl'
    cases j with
    | zero =>
      obtain rfl : line = l' := Option.some.inj hl'
      exact hline
    | succ j =>
      rw [hnumber]
      exact hearlier j (Nat.lt_of_succ_lt_succ hj) l' hl'

theorem map_eq_error_iff {α β : Type} {f : α → β} {x : Except AssemblyError α} :
    f <$> x = .error e ↔ x = .error e := by
  cases x with
  | error e' =>
    constructor
    · intro h
      exact congrArg Except.error (Except.error.inj h)
    · intro h
      exact congrArg Except.error (Except.error.inj h)
  | ok a =>
    constructor
    · intro h
      cases h
    · intro h
      cases h

/-- Lines are refused for the first bad one, whatever stands behind it. -/
theorem parseLines_eq_error_iff (first : Nat) (lines : List (List Char)) (e : AssemblyError) :
    parseLines first lines = .error e ↔ ∃ k, FirstError first lines k e := by
  induction lines generalizing first with
  | nil =>
    constructor
    · intro h
      cases h
    · rintro ⟨k, ⟨line, hk, -⟩, -⟩
      cases hk
  | cons line lines ih =>
    cases hline : parseLine line first with
    | error e' =>
      rw [parseLines_cons_of_error hline]
      constructor
      · intro h
        obtain rfl : e' = e := Except.error.inj h
        exact ⟨0, firstError_zero_iff.mpr hline⟩
      · rintro ⟨k, hk⟩
        cases k with
        | zero =>
          have heq := hline.symm.trans (firstError_zero_iff.mp hk)
          exact congrArg Except.error (Except.error.inj heq)
        | succ k =>
          obtain ⟨⟨found, hfound⟩, -⟩ := firstError_succ_iff.mp hk
          cases hline.symm.trans hfound
    | ok found =>
      rw [parseLines_cons_of_ok hline, map_eq_error_iff, ih]
      constructor
      · rintro ⟨k, hk⟩
        exact ⟨k + 1, firstError_succ_iff.mpr ⟨⟨found, hline⟩, hk⟩⟩
      · rintro ⟨k, hk⟩
        cases k with
        | zero => cases hline.symm.trans (firstError_zero_iff.mp hk)
        | succ k => exact ⟨k, (firstError_succ_iff.mp hk).2⟩

/-- Lines that are not refused are good, each of them. -/
theorem exists_of_parseLines_eq_ok {is : List Instruction} (h : parseLines first lines = .ok is) :
    ∀ l ∈ lines, ∃ found, ∀ number, parseLine l number = .ok found := by
  induction lines generalizing first is with
  | nil => exact fun l hl => absurd hl List.not_mem_nil
  | cons line lines ih =>
    cases hline : parseLine line first with
    | error e => cases (parseLines_cons_of_error hline lines).symm.trans h
    | ok found =>
      rw [parseLines_cons_of_ok hline] at h
      cases hrest : parseLines (first + 1) lines with
      | error e =>
        rw [hrest] at h
        cases h
      | ok is' =>
        intro l hl
        rcases List.mem_cons.mp hl with rfl | hl
        · have hread := (parseLine_eq_ok_iff l first found).mp hline
          exact ⟨found, fun number => (parseLine_eq_ok_iff l number found).mpr hread⟩
        · exact ih hrest l hl

end

/-- The error of a line that stands a number of lines further down. -/
def AssemblyError.movedDown (k : Nat) : AssemblyError → AssemblyError
  | .atLine line e => .atLine (line + k) e
  | .spec e => .spec e

theorem parseLine_add (line : List Char) (number k : Nat) :
    parseLine line (number + k) = (parseLine line number).mapError (·.movedDown k) := by
  rw [parseLine, parseLine]
  cases readLine line with
  | error e => rfl
  | ok found =>
    cases found with
    | none => rfl
    | some parts =>
      change some <$> (Instruction.ofOperands parts.1 parts.2).mapError _
        = (some <$> (Instruction.ofOperands parts.1 parts.2).mapError _).mapError _
      cases Instruction.ofOperands parts.1 parts.2 with
      | error e => rfl
      | ok i => rfl

theorem parseLines_add (first k : Nat) (lines : List (List Char)) :
    parseLines (first + k) lines = (parseLines first lines).mapError (·.movedDown k) := by
  induction lines generalizing first with
  | nil => rfl
  | cons line lines ih =>
    have hnumber : first + k + 1 = first + 1 + k := by omega
    rw [parseLines_cons, parseLines_cons, parseLine_add, hnumber, ih]
    cases parseLine line first with
    | error e => rfl
    | ok found =>
      cases parseLines (first + 1) lines with
      | error e => rfl
      | ok is => rfl

theorem parseLines_append (first : Nat) (lines lines' : List (List Char)) :
    parseLines first (lines ++ lines') =
      parseLines first lines >>= fun is =>
        (is ++ ·) <$> parseLines (first + lines.length) lines' := by
  induction lines generalizing first with
  | nil =>
    have hnil : parseLines first [] = .ok [] := rfl
    rw [hnil, List.nil_append, List.length_nil, Nat.add_zero]
    cases parseLines first lines' with
    | error e => rfl
    | ok is => rfl
  | cons line lines ih =>
    have hnumber : first + (line :: lines).length = first + 1 + lines.length := by
      rw [List.length_cons]
      omega
    rw [List.cons_append, parseLines_cons, parseLines_cons, ih, hnumber]
    cases parseLine line first with
    | error e => rfl
    | ok found =>
      cases parseLines (first + 1) lines with
      | error e => rfl
      | ok is =>
        cases parseLines (first + 1 + lines.length) lines' with
        | error e => rfl
        | ok is' => exact congrArg Except.ok (List.append_assoc found.toList is is').symm

theorem length_splitOn (cs : List Char) (c : Char) : (cs.splitOn c).length = cs.count c + 1 := by
  induction cs with
  | nil => rfl
  | cons d cs ih =>
    rw [List.splitOn_eq_splitOnP] at ih ⊢
    rw [List.splitOnP_cons_eq_if_modifyHead, List.count_cons]
    split
    · rw [List.length_cons, ih]
    · rw [List.length_modifyHead, ih, Nat.add_zero]

/-- A source behind another and a line feed gives the words behind those of the other. What is wrong
with it is told with the lines of the other counted in. -/
theorem assemble_append (a b : String) :
    assemble (a ++ "\n" ++ b) =
      assemble a >>= fun words =>
        (words ++ ·) <$> (assemble b).mapError (·.movedDown (1 + a.toList.count '\n')) := by
  have hfeed : "\n".toList = ['\n'] := by decide
  have hsplit : (a ++ "\n" ++ b).toList.splitOn '\n'
      = a.toList.splitOn '\n' ++ b.toList.splitOn '\n' := by
    rw [String.toList_append, String.toList_append, hfeed, List.append_assoc, List.singleton_append,
      List.splitOn_append_cons_self]
  have hlength : (a.toList.splitOn '\n').length = 1 + a.toList.count '\n' := by
    rw [length_splitOn, Nat.add_comm]
  rw [assemble, assemble, assemble, instructions, instructions, instructions, hsplit,
    parseLines_append, parseLines_add, hlength]
  cases parseLines 1 (a.toList.splitOn '\n') with
  | error e => rfl
  | ok is =>
    cases parseLines 1 (b.toList.splitOn '\n') with
    | error e => rfl
    | ok is' => exact congrArg Except.ok List.map_append

theorem instructions_eq_ok {source : String} {words : List UInt16}
    (h : assemble source = .ok words) : ∃ is, parseLines 1 (sourceLines source) = .ok is := by
  rw [assemble, instructions_eq] at h
  cases his : parseLines 1 (sourceLines source) with
  | ok is => exact ⟨is, rfl⟩
  | error e =>
    rw [his] at h
    cases h

theorem assemble_eq_error_iff (source : String) (e : AssemblyError) :
    assemble source = .error e ↔ ∃ k, FirstError 1 (sourceLines source) k e := by
  rw [assemble, map_eq_error_iff, instructions_eq, parseLines_eq_error_iff]

theorem assemble_fails_iff (source : String) :
    (∃ e, assemble source = .error e) ↔
      ∃ line ∈ sourceLines source, ∃ number e, parseLine line number = .error e := by
  constructor
  · rintro ⟨e, h⟩
    obtain ⟨k, ⟨line, hk, herror⟩, -⟩ := (assemble_eq_error_iff source e).mp h
    exact ⟨line, List.mem_of_getElem? hk, _, e, herror⟩
  · rintro ⟨line, hmem, number, e, herror⟩
    cases h : assemble source with
    | error e' => exact ⟨e', rfl⟩
    | ok words =>
      obtain ⟨is, his⟩ := instructions_eq_ok h
      obtain ⟨found, hfound⟩ := exists_of_parseLines_eq_ok his line hmem
      cases (hfound number).symm.trans herror

/-- What a source, alone and with another behind it, is assembled into, told by its lines. -/
structure AssembledByLine (a b : String) : Prop where
  fails_iff : (∃ e, assemble a = .error e) ↔
    ∃ line ∈ sourceLines a, ∃ number e, parseLine line number = .error e
  first : ∀ e, assemble a = .error e ↔ ∃ k, FirstError 1 (sourceLines a) k e
  located : ∀ k e, FirstError 1 (sourceLines a) k e → e.line? = some (k + 1)
  failed : ∀ e, assemble a = .error e → assemble (a ++ "\n" ++ b) = .error e
  failedBehind : ∀ words e, assemble a = .ok words → assemble b = .error e →
    assemble (a ++ "\n" ++ b) = .error (e.movedDown (1 + a.toList.count '\n'))
  joined : ∀ words words', assemble a = .ok words → assemble b = .ok words' →
    assemble (a ++ "\n" ++ b) = .ok (words ++ words')

/-- A source is assembled line by line and as a whole or not at all, and of two sources one behind
the other each is assembled as it is alone. -/
theorem assembledByLine (a b : String) : AssembledByLine a b where
  fails_iff := assemble_fails_iff a
  first := assemble_eq_error_iff a
  located k e h := by rw [h.line?_eq, Nat.add_comm]
  failed e ha := by
    rw [assemble_append, ha]
    rfl
  failedBehind words e ha hb := by
    rw [assemble_append, ha, hb]
    rfl
  joined words words' ha hb := by
    rw [assemble_append, ha, hb]
    rfl

/-- Both the line end of the first source and the line feed behind it count. -/
theorem assembledByLine_of_carriage_return :
    assemble "hlt\r\n" = .ok [0xF000] ∧
      assemble "nop" = .error (.atLine 1 (.unknownInstruction "nop")) ∧
      assemble "hlt\r\n\nnop" = .error (.atLine 3 (.unknownInstruction "nop")) := by
  have hhlt (number : Nat) : parseLine "hlt\r".toList number = .ok (some .hlt) := by
    have htokens : Lexes "hlt\r".toList [.word "hlt"] := by
      refine Lexes.of_read ?_ rfl rfl
      exact Lexes.space lexes_nil rfl
    have hread := readLine_of_tokens (htokens 0) (Or.inl rfl : Opcode.hlt.NamedBy "hlt") .nil
    exact (parseLine_eq_ok_iff _ number _).mpr hread
  have hnop (number : Nat) :
      parseLine "nop".toList number = .error (.atLine number (.unknownInstruction "nop")) := by
    have htokens : Lexes "nop".toList [.word "nop"] := Lexes.of_read lexes_nil rfl rfl
    obtain ⟨first, rest, hlex, hw, -⟩ := List.map_eq_cons_iff.mp (htokens 0)
    have hunknown := (Opcode.ofSpelling?_eq_none_iff "nop").mp (by decide)
    have hread : readLine "nop".toList = .error (.unknownInstruction "nop") :=
      readLine_of_unknown hlex hw hunknown
    exact (parseLine_eq_error_iff _ number _).mpr ⟨_, hread, rfl⟩
  have ha : assemble "hlt\r\n" = .ok [0xF000] := by
    have hlines : "hlt\r\n".toList.splitOn '\n' = ["hlt\r".toList, []] := by decide
    rw [assemble, instructions, hlines]
    simp only [parseLines_cons, hhlt, parseLine_nil]
    rfl
  have hb : assemble "nop" = .error (.atLine 1 (.unknownInstruction "nop")) := by
    have hlines : "nop".toList.splitOn '\n' = ["nop".toList] := by decide
    rw [assemble, instructions, hlines, parseLines_cons, hnop]
    rfl
  refine ⟨ha, hb, ?_⟩
  have hjoined := (assembledByLine "hlt\r\n" "nop").failedBehind _ _ ha hb
  have hcount : "hlt\r\n".toList.count '\n' = 1 := by decide
  have htext : "hlt\r\n" ++ "\n" ++ "nop" = "hlt\r\n\nnop" := by decide
  rw [hcount, htext] at hjoined
  exact hjoined

end ByteMachine.Assembly
