import ByteMachine.Proofs.Decoding
import ByteMachine.Proofs.InstructionText
import ByteMachine.Proofs.Lexemes

/-!
The grammar of a line, told of its tokens: a mnemonic, and operands of the shape that its operation
has, with at most one comma behind each. Reading a line accepts this grammar and nothing else, and a
line outside of it is refused for its first problem.
-/

namespace ByteMachine

/-- Two texts that differ in the case of ASCII letters at most. -/
def SameButCase (a b : String) : Prop :=
  a.toList.map Char.toLower = b.toList.map Char.toLower

namespace Opcode

/-- A word names an operation by its mnemonic, in letters of any case; the halt is named by `done`
as well. -/
def NamedBy (op : Opcode) (word : String) : Prop :=
  SameButCase word op.mnemonic ∨ (op = hlt ∧ SameButCase word "done")

theorem ofMnemonic?_eq_some_iff (text : String) (op : Opcode) :
    ofMnemonic? text = some op ↔ text = op.mnemonic := by
  constructor
  · intro h
    have hfind : all.find? (fun op : Opcode => op.mnemonic == text) = some op := h
    have htext := List.find?_some hfind
    rw [beq_iff_eq] at htext
    exact htext.symm
  · rintro rfl
    exact ofMnemonic?_mnemonic op

theorem map_toLower_mnemonic (op : Opcode) :
    op.mnemonic.toList.map Char.toLower = op.mnemonic.toList := by
  cases op <;> rfl

theorem sameButCase_mnemonic_iff (word : String) (op : Opcode) :
    SameButCase word op.mnemonic ↔
      String.ofList (word.toList.map Char.toLower) = op.mnemonic := by
  rw [SameButCase, map_toLower_mnemonic, ← String.toList_inj, String.toList_ofList]

theorem sameButCase_done_iff (word : String) :
    SameButCase word "done" ↔ String.ofList (word.toList.map Char.toLower) = "done" := by
  have hlower : "done".toList.map Char.toLower = "done".toList := rfl
  rw [SameButCase, hlower, ← String.toList_inj]
  simp only [String.toList_ofList]

theorem ofSpelling?_eq_some_iff (word : String) (op : Opcode) :
    ofSpelling? word = some op ↔ op.NamedBy word := by
  rw [NamedBy, sameButCase_mnemonic_iff, sameButCase_done_iff, ← ofMnemonic?_eq_some_iff,
    ofSpelling?]
  generalize String.ofList (word.toList.map Char.toLower) = lower
  have hdone : ofMnemonic? "done" = none := by decide
  by_cases h : lower = "done"
  · subst h
    rw [hdone]
    simp [eq_comm]
  · simp [h]

theorem ofSpelling?_eq_none_iff (word : String) :
    ofSpelling? word = none ↔ ∀ op : Opcode, ¬ op.NamedBy word := by
  simp only [← ofSpelling?_eq_some_iff, Option.eq_none_iff_forall_ne_some, ne_eq]

end Opcode

namespace Assembly

inductive OperandKind
  | register
  | immediate
  deriving DecidableEq

def Operand.kind : Operand → OperandKind
  | register _ => .register
  | immediate _ => .immediate

end Assembly

/-- The kinds of the operands of a shape, in written order. -/
def Arity.kinds : Arity → List Assembly.OperandKind
  | noOperand => []
  | oneRegister => [.register]
  | twoRegisters => [.register, .register]
  | threeRegisters => [.register, .register, .register]
  | registerImmediate => [.register, .immediate]

namespace Assembly

theorem Operand.kind_eq_register_iff (o : Operand) : o.kind = .register ↔ ∃ r, o = register r := by
  cases o <;> simp [kind]

theorem Operand.kind_eq_immediate_iff (o : Operand) :
    o.kind = .immediate ↔ ∃ value, o = immediate value := by
  cases o <;> simp [kind]

/-- Operands of the kinds of a shape are the operands of a list of that shape. -/
theorem exists_written {a : Arity} {operands : List Operand}
    (h : operands.map Operand.kind = a.kinds) :
    ∃ ops : Operands, ops.arity = a ∧ ops.written = operands := by
  cases a with
  | noOperand =>
    obtain rfl := List.map_eq_nil_iff.mp h
    exact ⟨.none, rfl, rfl⟩
  | oneRegister =>
    simp only [Arity.kinds, List.map_eq_cons_iff, List.map_eq_nil_iff,
      Operand.kind_eq_register_iff] at h
    obtain ⟨_, _, rfl, ⟨r, rfl⟩, rfl⟩ := h
    exact ⟨.one r, rfl, rfl⟩
  | twoRegisters =>
    simp only [Arity.kinds, List.map_eq_cons_iff, List.map_eq_nil_iff,
      Operand.kind_eq_register_iff] at h
    obtain ⟨_, _, rfl, ⟨r, rfl⟩, _, _, rfl, ⟨r', rfl⟩, rfl⟩ := h
    exact ⟨.two r r', rfl, rfl⟩
  | threeRegisters =>
    simp only [Arity.kinds, List.map_eq_cons_iff, List.map_eq_nil_iff,
      Operand.kind_eq_register_iff] at h
    obtain ⟨_, _, rfl, ⟨r, rfl⟩, _, _, rfl, ⟨r', rfl⟩, _, _, rfl, ⟨r'', rfl⟩, rfl⟩ := h
    exact ⟨.three r r' r'', rfl, rfl⟩
  | registerImmediate =>
    simp only [Arity.kinds, List.map_eq_cons_iff, List.map_eq_nil_iff,
      Operand.kind_eq_register_iff, Operand.kind_eq_immediate_iff] at h
    obtain ⟨_, _, rfl, ⟨r, rfl⟩, _, _, rfl, ⟨value, rfl⟩, rfl⟩ := h
    exact ⟨.immediate r value, rfl, rfl⟩

theorem shape_of_count {op : Opcode} {operands : List Operand}
    (h : operands.length ≠ op.arity.operandCount) :
    shape op operands = .error (.operandCount op operands.length) :=
  if_pos h

theorem shape_of_kind {op : Opcode} {operands : List Operand}
    (hcount : operands.length = op.arity.operandCount)
    (hkind : operands.map Operand.kind ≠ op.arity.kinds) :
    shape op operands = .error (.operandKind op) := by
  have hfits (a : Arity) (ha : op.arity = a) : operands.map Operand.kind ≠ a.kinds := by
    rw [← ha]
    exact hkind
  unfold shape
  rw [if_neg (not_not_intro hcount)]
  split
  · next ha => exact absurd rfl (hfits .noOperand ha)
  · next ha => exact absurd rfl (hfits .oneRegister ha)
  · next ha => exact absurd rfl (hfits .twoRegisters ha)
  · next ha => exact absurd rfl (hfits .threeRegisters ha)
  · next ha => exact absurd rfl (hfits .registerImmediate ha)
  · rfl

/-- Tokens that are operands in written order, with at most one comma behind each. -/
inductive Spells : List Token → List Operand → Prop
  | nil : Spells [] []
  | bare {tokens : List Token} {operands : List Operand} (o : Operand)
      (h : Spells tokens operands) : Spells (o.token :: tokens) (o :: operands)
  | withComma {tokens : List Token} {operands : List Operand} (o : Operand)
      (h : Spells tokens operands) : Spells (o.token :: .comma :: tokens) (o :: operands)

/-- The same tokens from left to right: a comma is allowed or it is not. -/
inductive ReadsAs : Bool → List Token → List Operand → Prop
  | nil (allowed : Bool) : ReadsAs allowed [] []
  | operand {tokens : List Token} {operands : List Operand} (allowed : Bool) (o : Operand)
      (h : ReadsAs true tokens operands) : ReadsAs allowed (o.token :: tokens) (o :: operands)
  | comma {tokens : List Token} {operands : List Operand} (h : ReadsAs false tokens operands) :
      ReadsAs true (.comma :: tokens) operands

theorem Spells.readsAs {tokens : List Token} {operands : List Operand}
    (h : Spells tokens operands) (allowed : Bool) : ReadsAs allowed tokens operands := by
  induction h generalizing allowed with
  | nil => exact .nil allowed
  | bare o _ ih => exact .operand allowed o (ih true)
  | withComma o _ ih => exact .operand allowed o (.comma (ih false))

theorem ReadsAs.spells {allowed : Bool} {tokens : List Token} {operands : List Operand}
    (h : ReadsAs allowed tokens operands) :
    Spells tokens operands ∨
      (allowed = true ∧ ∃ rest, tokens = .comma :: rest ∧ Spells rest operands) := by
  induction h with
  | nil allowed => exact .inl .nil
  | operand allowed o _ ih =>
    rcases ih with hrest | ⟨-, rest, rfl, hrest⟩
    · exact .inl (.bare o hrest)
    · exact .inl (.withComma o hrest)
  | comma _ ih =>
    rcases ih with hrest | ⟨hallowed, -⟩
    · exact .inr ⟨rfl, _, rfl, hrest⟩
    · cases hallowed

theorem ReadsAs.append_operand {allowed : Bool} {tokens : List Token} {operands : List Operand}
    (h : ReadsAs allowed tokens operands) (o : Operand) :
    ReadsAs allowed (tokens ++ [o.token]) (operands ++ [o]) := by
  induction h with
  | nil allowed => exact .operand allowed o (.nil true)
  | operand allowed o' _ ih => exact .operand allowed o' ih
  | comma _ ih => exact .comma ih

theorem spells_iff_readsAs (tokens : List Token) (operands : List Operand) :
    Spells tokens operands ↔ ReadsAs false tokens operands := by
  constructor
  · intro h
    exact h.readsAs false
  · intro h
    rcases h.spells with hs | ⟨hallowed, -⟩
    · exact hs
    · cases hallowed

theorem operand?_eq_some_iff (t : Token) (o : Operand) : operand? t = some o ↔ t = o.token := by
  constructor
  · intro h
    unfold operand? at h
    split at h
    · obtain rfl := Option.some.inj h
      rfl
    · next value =>
      split at h
      · next hvalue =>
        obtain rfl := Option.some.inj h
        rw [Operand.token, UInt8.toNat_ofNat', Nat.mod_eq_of_lt hvalue]
      · cases h
    · cases h
  · rintro rfl
    exact o.operand?_token

theorem Operand.token_injective {o o' : Operand} (h : o.token = o'.token) : o = o' := by
  have hread := o.operand?_token
  rw [h, o'.operand?_token] at hread
  exact (Option.some.inj hread).symm

theorem Operand.token_ne_comma (o : Operand) : o.token ≠ .comma := by
  cases o <;> exact nofun

theorem readsAs_operand_iff {allowed : Bool} {o : Operand} {tokens : List Token}
    {operands : List Operand} :
    ReadsAs allowed (o.token :: tokens) operands ↔
      ∃ behind, operands = o :: behind ∧ ReadsAs true tokens behind := by
  constructor
  · intro h
    generalize htokens : o.token :: tokens = all at h
    cases h with
    | nil => cases htokens
    | operand _ o' h =>
      obtain ⟨ho, rfl⟩ := List.cons.inj htokens
      obtain rfl := Operand.token_injective ho
      exact ⟨_, rfl, h⟩
    | comma h => exact absurd (List.cons.inj htokens).1 o.token_ne_comma
  · rintro ⟨behind, rfl, h⟩
    exact .operand allowed o h

theorem readsAs_comma_iff {allowed : Bool} {tokens : List Token} {operands : List Operand} :
    ReadsAs allowed (.comma :: tokens) operands ↔
      allowed = true ∧ ReadsAs false tokens operands := by
  constructor
  · intro h
    generalize htokens : Token.comma :: tokens = all at h
    cases h with
    | nil => cases htokens
    | operand _ o h => exact absurd (List.cons.inj htokens).1.symm o.token_ne_comma
    | comma h =>
      obtain ⟨-, rfl⟩ := List.cons.inj htokens
      exact ⟨rfl, h⟩
  · rintro ⟨rfl, h⟩
    exact .comma h

/-- The ways that a token is taken among operands. -/
inductive TokenCase (allowed : Bool) (t : Token) : Prop
  | operand (o : Operand) (ht : t = o.token)
  | comma (ha : allowed = true) (ht : t = .comma)
  | refused (ho : ∀ o : Operand, t ≠ o.token) (hc : ¬ (allowed = true ∧ t = .comma))

theorem tokenCase (allowed : Bool) (t : Token) : TokenCase allowed t := by
  cases ho : operand? t with
  | some o => exact .operand o ((operand?_eq_some_iff t o).mp ho)
  | none =>
    by_cases hc : allowed = true ∧ t = .comma
    · exact .comma hc.1 hc.2
    · refine .refused ?_ hc
      rintro o rfl
      rw [o.operand?_token] at ho
      cases ho

variable {line : List Char} {allowed : Bool} {l : Lexeme} {lexemes : List Lexeme}

theorem not_readsAs_of_refused {t : Token} (ho : ∀ o : Operand, t ≠ o.token)
    (hc : ¬ (allowed = true ∧ t = .comma)) (tokens : List Token) (operands : List Operand) :
    ¬ ReadsAs allowed (t :: tokens) operands := by
  intro h
  generalize htokens : t :: tokens = all at h
  cases h with
  | nil => cases htokens
  | operand _ o h => exact ho o (List.cons.inj htokens).1
  | comma h => exact hc ⟨rfl, (List.cons.inj htokens).1⟩

theorem readOperands_of_operand {o : Operand} (ht : l.token = o.token) :
    readOperands line allowed (l :: lexemes) = (o :: ·) <$> readOperands line true lexemes := by
  rw [readOperands, ht, o.operand?_token]

theorem readOperands_of_comma (ht : l.token = .comma) :
    readOperands line true (l :: lexemes) = readOperands line false lexemes := by
  rw [readOperands, ht]
  rfl

theorem readOperands_of_refused (ho : ∀ o : Operand, l.token ≠ o.token)
    (hc : ¬ (allowed = true ∧ l.token = .comma)) :
    readOperands line allowed (l :: lexemes) = .error (refusal line l) := by
  have hnone : operand? l.token = none := by
    cases h : operand? l.token with
    | none => rfl
    | some o => exact absurd ((operand?_eq_some_iff _ o).mp h) (ho o)
  rw [readOperands, hnone]
  exact if_neg (by simpa using hc)

theorem readOperands_eq_ok_iff (operands : List Operand) :
    readOperands line allowed lexemes = .ok operands ↔
      ReadsAs allowed (lexemes.map Lexeme.token) operands := by
  induction lexemes generalizing allowed operands with
  | nil =>
    constructor
    · intro h
      obtain rfl := Except.ok.inj h
      exact .nil allowed
    · intro h
      cases h
      rfl
  | cons l lexemes ih =>
    rw [List.map_cons]
    rcases tokenCase allowed l.token with ⟨o, ht⟩ | ⟨rfl, ht⟩ | ⟨ho, hc⟩
    · rw [readOperands_of_operand ht, ht, readsAs_operand_iff]
      cases hrest : readOperands line true lexemes with
      | ok behind =>
        have hbehind := (ih behind).mp hrest
        constructor
        · intro h
          exact ⟨behind, (Except.ok.inj h).symm, hbehind⟩
        · rintro ⟨behind', rfl, h⟩
          obtain rfl := Except.ok.inj (hrest.symm.trans ((ih behind').mpr h))
          rfl
      | error e =>
        constructor
        · exact nofun
        · rintro ⟨behind', -, h⟩
          cases hrest.symm.trans ((ih behind').mpr h)
    · rw [readOperands_of_comma ht, ht, readsAs_comma_iff, ih]
      simp
    · rw [readOperands_of_refused ho hc]
      constructor
      · exact nofun
      · intro h
        exact absurd h (not_readsAs_of_refused ho hc _ _)

/-- Tokens that can be read as operands. -/
def Readable (allowed : Bool) (lexemes : List Lexeme) : Prop :=
  ∃ operands, ReadsAs allowed (lexemes.map Lexeme.token) operands

theorem readable_iff_spells (lexemes : List Lexeme) :
    Readable false lexemes ↔ ∃ operands, Spells (lexemes.map Lexeme.token) operands := by
  simp only [Readable, spells_iff_readsAs]

theorem readable_nil (allowed : Bool) : Readable allowed [] :=
  ⟨[], .nil allowed⟩

/-- An operand can stand behind whatever can be read. -/
theorem Readable.append_operand (h : Readable allowed lexemes) {o : Operand}
    (ht : l.token = o.token) : Readable allowed (lexemes ++ [l]) := by
  obtain ⟨operands, hoperands⟩ := h
  refine ⟨operands ++ [o], ?_⟩
  rw [List.map_append, List.map_singleton, ht]
  exact hoperands.append_operand o

theorem readable_operand_iff {o : Operand} (ht : l.token = o.token) :
    Readable allowed (l :: lexemes) ↔ Readable true lexemes := by
  simp only [Readable, List.map_cons, ht, readsAs_operand_iff]
  constructor
  · rintro ⟨_, behind, -, h⟩
    exact ⟨behind, h⟩
  · rintro ⟨behind, h⟩
    exact ⟨_, behind, rfl, h⟩

theorem readable_comma_iff (ht : l.token = .comma) :
    Readable true (l :: lexemes) ↔ Readable false lexemes := by
  simp only [Readable, List.map_cons, ht, readsAs_comma_iff, true_and]

theorem not_readable_of_refused (ho : ∀ o : Operand, l.token ≠ o.token)
    (hc : ¬ (allowed = true ∧ l.token = .comma)) : ¬ Readable allowed (l :: lexemes) := by
  rintro ⟨operands, h⟩
  exact not_readsAs_of_refused ho hc _ operands h

/-- Tokens are refused for the first of them with which they cannot be read any more. -/
theorem readOperands_eq_error_iff (e : LineError) :
    readOperands line allowed lexemes = .error e ↔
      ∃ before l behind, lexemes = before ++ l :: behind ∧ Readable allowed before ∧
        ¬ Readable allowed (before ++ [l]) ∧ e = refusal line l := by
  induction lexemes generalizing allowed with
  | nil =>
    constructor
    · exact nofun
    · rintro ⟨before, l, behind, h, -⟩
      exact absurd h (by simp)
  | cons l lexemes ih =>
    have htaken {next : Bool}
        (hstep : ∀ lexemes, Readable allowed (l :: lexemes) ↔ Readable next lexemes) :
        (∃ before l' behind, lexemes = before ++ l' :: behind ∧ Readable next before ∧
            ¬ Readable next (before ++ [l']) ∧ e = refusal line l') ↔
          ∃ before l' behind, l :: lexemes = before ++ l' :: behind ∧ Readable allowed before ∧
            ¬ Readable allowed (before ++ [l']) ∧ e = refusal line l' := by
      constructor
      · rintro ⟨before, l', behind, rfl, hbefore, hbreaks, he⟩
        refine ⟨l :: before, l', behind, rfl, (hstep before).mpr hbefore, ?_, he⟩
        rw [List.cons_append, hstep]
        exact hbreaks
      · rintro ⟨before, l', behind, hsplit, hbefore, hbreaks, he⟩
        cases before with
        | nil =>
          obtain ⟨rfl, -⟩ := List.cons.inj hsplit
          exact absurd ((hstep []).mpr (readable_nil next)) hbreaks
        | cons l'' before =>
          obtain ⟨rfl, rfl⟩ := List.cons.inj hsplit
          rw [List.cons_append, hstep] at hbreaks
          exact ⟨before, l', behind, rfl, (hstep before).mp hbefore, hbreaks, he⟩
    rcases tokenCase allowed l.token with ⟨o, ht⟩ | ⟨rfl, ht⟩ | ⟨ho, hc⟩
    · rw [← htaken fun _ => readable_operand_iff ht, ← ih, readOperands_of_operand ht]
      cases readOperands line true lexemes with
      | ok behind => exact ⟨nofun, nofun⟩
      | error e' => exact Iff.rfl
    · rw [← htaken fun _ => readable_comma_iff ht, ← ih, readOperands_of_comma ht]
    · rw [readOperands_of_refused ho hc]
      constructor
      · intro h
        refine ⟨[], l, lexemes, rfl, readable_nil allowed, ?_, (Except.error.inj h).symm⟩
        exact not_readable_of_refused ho hc
      · rintro ⟨before, l', behind, hsplit, hbefore, -, rfl⟩
        cases before with
        | nil =>
          obtain ⟨rfl, -⟩ := List.cons.inj hsplit
          rfl
        | cons l'' before =>
          obtain ⟨rfl, -⟩ := List.cons.inj hsplit
          exact absurd hbefore (not_readable_of_refused ho hc)

/-- The characters that end the text of a `#` literal. -/
def EndsLiteral (c : Char) : Prop :=
  Text.isBlank c = true ∨ c = ','

/-- A text that stands in a line behind a number of bytes and goes on as far as a `#` literal
can. -/
def LiteralAt (line : List Char) (start : Nat) (text : String) : Prop :=
  ∃ before behind, line = before ++ (text.toList ++ behind) ∧ Text.byteLength before = start ∧
    (∀ c ∈ text.toList, ¬ EndsLiteral c) ∧ ∀ c, behind.head? = some c → EndsLiteral c

/-- What is wrong with a token that cannot stand among operands where it stands. -/
inductive OperandProblem (line : List Char) (l : Lexeme) : LineError → Prop
  | comma (ht : l.token = .comma) : OperandProblem line l (.syntaxError (l.start + 1) .comma)
  | registerLike {letters : String} (ht : l.token = .word letters)
      (hr : letters.toList.head? = some 'r' ∨ letters.toList.head? = some 'R') :
      OperandProblem line l (.invalidRegister letters)
  | word {letters : String} (ht : l.token = .word letters)
      (hr : ¬ (letters.toList.head? = some 'r' ∨ letters.toList.head? = some 'R')) :
      OperandProblem line l (.syntaxError (l.start + 1) (.word letters))
  | oversized {value : Nat} (ht : l.token = .immediate value) (hv : 255 < value) :
      OperandProblem line l (.invalidImmediate l.text)
  | malformed {text : String} (ht : l.token = .unreadable) (hs : l.slice.head? = some '#')
      (hl : LiteralAt line l.start text) : OperandProblem line l (.invalidImmediate text)
  | character (ht : l.token = .unreadable) (hs : l.slice.head? ≠ some '#') :
      OperandProblem line l (.syntaxError (l.start + 1) (.character l.text))

theorem eq_false_iff_endsLiteral (c : Char) :
    (!(Text.isBlank c || c == ',')) = false ↔ EndsLiteral c := by
  rw [EndsLiteral, Bool.not_eq_false', Bool.or_eq_true, beq_iff_eq]

theorem eq_true_iff_not_endsLiteral (c : Char) :
    (!(Text.isBlank c || c == ',')) = true ↔ ¬ EndsLiteral c := by
  rw [← eq_false_iff_endsLiteral, Bool.not_eq_false]

/-- The text of a literal is the one that reaches from its place up to white space or a comma. -/
theorem literalAt_iff {line before rest : List Char} (hline : line = before ++ rest)
    (text : String) :
    LiteralAt line (Text.byteLength before) text ↔
      text = literalAt line (Text.byteLength before) := by
  have hrest : Text.fromByte (Text.byteLength before) line = rest := by
    rw [hline, Text.fromByte_byteLength]
  rw [literalAt, hrest]
  constructor
  · rintro ⟨before', behind, hline', hlength, hinside, hend⟩
    have htext : text.toList ++ behind = rest := by
      rw [← hrest, hline', ← hlength, Text.fromByte_byteLength]
    have htake : behind.takeWhile (fun c => !(Text.isBlank c || c == ',')) = [] := by
      cases behind with
      | nil => rfl
      | cons c behind =>
        have hc := (eq_false_iff_endsLiteral c).mpr (hend c rfl)
        rw [List.takeWhile_cons, hc]
        rfl
    have hall : ∀ c ∈ text.toList, (!(Text.isBlank c || c == ',')) = true := by
      intro c hc
      exact (eq_true_iff_not_endsLiteral c).mpr (hinside c hc)
    rw [← htext, List.takeWhile_append_of_pos hall, htake, List.append_nil, String.ofList_toList]
  · rintro rfl
    refine ⟨before, rest.dropWhile fun c => !(Text.isBlank c || c == ','), ?_, rfl, ?_, ?_⟩
    · rw [String.toList_ofList, List.takeWhile_append_dropWhile, hline]
    · intro c hc
      rw [String.toList_ofList] at hc
      exact (eq_true_iff_not_endsLiteral c).mp (List.all_eq_true.mp List.all_takeWhile c hc)
    · intro c hc
      have hstop := List.head?_dropWhile_not (fun c => !(Text.isBlank c || c == ',')) rest
      rw [hc] at hstop
      exact (eq_false_iff_endsLiteral c).mp hstop

theorem OperandProblem.eq_refusal (hl : l ∈ lex line) {e : LineError}
    (h : OperandProblem line l e) : e = refusal line l := by
  obtain ⟨before, behind, hline, hstart⟩ := exists_append_of_mem_lex hl
  cases h with
  | comma ht => rw [refusal, ht]
  | registerLike ht hr =>
    rw [slice_of_word hl ht] at hr
    rw [refusal, ht]
    exact (if_pos (by simpa using hr)).symm
  | word ht hr =>
    rw [slice_of_word hl ht] at hr
    rw [refusal, ht]
    exact (if_neg (by simpa using hr)).symm
  | oversized ht hv => rw [refusal, ht]
  | @malformed text ht hs hlit =>
    rw [← hstart, literalAt_iff hline, hstart] at hlit
    rw [refusal, ht, hlit]
    exact (if_pos hs).symm
  | character ht hs =>
    rw [refusal, ht]
    exact (if_neg hs).symm

theorem operandProblem_refusal (hl : l ∈ lex line) (ho : ∀ o : Operand, l.token ≠ o.token) :
    OperandProblem line l (refusal line l) := by
  obtain ⟨before, behind, hline, hstart⟩ := exists_append_of_mem_lex hl
  cases ht : l.token with
  | register r => exact absurd ht (ho (.register r))
  | immediate value =>
    have hv : 255 < value := by
      apply Nat.lt_of_not_le
      intro hle
      have hlt : value < 256 := Nat.lt_succ_of_le hle
      apply ho (.immediate (UInt8.ofNat value))
      rw [ht, Operand.token, UInt8.toNat_ofNat', Nat.mod_eq_of_lt hlt]
    rw [refusal, ht]
    exact .oversized ht hv
  | word letters =>
    rw [refusal, ht, ← slice_of_word hl ht]
    dsimp only
    split
    · next hr => exact .registerLike ht (by simpa using hr)
    · next hr => exact .word ht (by simpa using hr)
  | comma =>
    rw [refusal, ht]
    exact .comma ht
  | unreadable =>
    rw [refusal, ht]
    dsimp only
    split
    · next hs =>
      refine .malformed ht hs ?_
      rw [← hstart, literalAt_iff hline]
    · next hs => exact .character ht hs

/-- Tokens that are an operation with operands of its shape. -/
def IsInstruction (tokens : List Token) (op : Opcode) (operands : List Operand) : Prop :=
  ∃ word rest, tokens = .word word :: rest ∧ op.NamedBy word ∧ Spells rest operands ∧
    operands.map Operand.kind = op.arity.kinds

/-- The first problem of a line: its first token, the name of the operation, the leftmost token that
cannot stand among the operands where it stands, the number of operands, and their kinds. -/
inductive FirstProblem (line : List Char) : List Lexeme → LineError → Prop
  | notWord {first : Lexeme} {rest : List Lexeme} (hw : ∀ word, first.token ≠ .word word) :
      FirstProblem line (first :: rest) (.syntaxError (first.start + 1) (.notMnemonic first.text))
  | unknown {first : Lexeme} {rest : List Lexeme} {word : String} (hw : first.token = .word word)
      (hop : ∀ op : Opcode, ¬ op.NamedBy word) :
      FirstProblem line (first :: rest) (.unknownInstruction word)
  | operand {first l : Lexeme} {before behind : List Lexeme} {word : String} {op : Opcode}
      {e : LineError} (hw : first.token = .word word) (hop : op.NamedBy word)
      (hbefore : ∃ operands, Spells (before.map Lexeme.token) operands)
      (hbreaks : ¬ ∃ operands, Spells ((before ++ [l]).map Lexeme.token) operands)
      (he : OperandProblem line l e) : FirstProblem line (first :: (before ++ l :: behind)) e
  | count {first : Lexeme} {rest : List Lexeme} {word : String} {op : Opcode}
      {operands : List Operand} (hw : first.token = .word word) (hop : op.NamedBy word)
      (hs : Spells (rest.map Lexeme.token) operands)
      (hcount : operands.length ≠ op.arity.operandCount) :
      FirstProblem line (first :: rest) (.operandCount op operands.length)
  | kind {first : Lexeme} {rest : List Lexeme} {word : String} {op : Opcode}
      {operands : List Operand} (hw : first.token = .word word) (hop : op.NamedBy word)
      (hs : Spells (rest.map Lexeme.token) operands)
      (hcount : operands.length = op.arity.operandCount)
      (hkind : operands.map Operand.kind ≠ op.arity.kinds) :
      FirstProblem line (first :: rest) (.operandKind op)

variable {first : Lexeme} {rest : List Lexeme} {word : String} {op : Opcode}

theorem readLine_of_no_tokens (hlex : lex line = []) : readLine line = .ok none := by
  rw [readLine, hlex]

theorem readLine_of_not_word (hlex : lex line = first :: rest)
    (hw : ∀ word, first.token ≠ .word word) :
    readLine line = .error (.syntaxError (first.start + 1) (.notMnemonic first.text)) := by
  rw [readLine, hlex]
  dsimp only
  split
  · next word ht => exact absurd ht (hw word)
  · rfl

theorem readLine_of_unknown (hlex : lex line = first :: rest) (hw : first.token = .word word)
    (hop : ∀ op : Opcode, ¬ op.NamedBy word) :
    readLine line = .error (.unknownInstruction word) := by
  have hnone := (Opcode.ofSpelling?_eq_none_iff word).mpr hop
  simp only [readLine, hlex, hw, hnone]

theorem readLine_of_named (hlex : lex line = first :: rest) (hw : first.token = .word word)
    (hop : op.NamedBy word) :
    readLine line = readOperands line false rest >>= fun operands =>
      (fun shaped => some (op, shaped)) <$> shape op operands := by
  have hsome := (Opcode.ofSpelling?_eq_some_iff word op).mpr hop
  simp only [readLine, hlex, hw, hsome]

theorem readLine_of_operands {operands : List Operand} (hlex : lex line = first :: rest)
    (hw : first.token = .word word) (hop : op.NamedBy word)
    (hs : Spells (rest.map Lexeme.token) operands) :
    readLine line = (fun shaped => some (op, shaped)) <$> shape op operands := by
  have hread : readOperands line false rest = .ok operands :=
    (readOperands_eq_ok_iff operands).mpr ((spells_iff_readsAs _ _).mp hs)
  rw [readLine_of_named hlex hw hop, hread]
  rfl

theorem readLine_of_tokens {tokens : List Token} {operands : List Operand}
    (htokens : (lex line).map Lexeme.token = .word word :: tokens) (hop : op.NamedBy word)
    (hs : Spells tokens operands) :
    readLine line = (fun shaped => some (op, shaped)) <$> shape op operands := by
  obtain ⟨first, rest, hlex, hw, rfl⟩ := List.map_eq_cons_iff.mp htokens
  exact readLine_of_operands hlex hw hop hs

theorem readLine_of_firstProblem {e : LineError} (h : FirstProblem line (lex line) e) :
    readLine line = .error e := by
  generalize hlex : lex line = lexemes at h
  cases h with
  | notWord hw => exact readLine_of_not_word hlex hw
  | unknown hw hop => exact readLine_of_unknown hlex hw hop
  | @operand first l before behind word op e hw hop hbefore hbreaks he =>
    have hl : l ∈ lex line := by
      rw [hlex]
      simp
    rw [← readable_iff_spells] at hbefore hbreaks
    have hread : readOperands line false (before ++ l :: behind) = .error e :=
      (readOperands_eq_error_iff e).mpr
        ⟨before, l, behind, rfl, hbefore, hbreaks, he.eq_refusal hl⟩
    rw [readLine_of_named hlex hw hop, hread]
    rfl
  | count hw hop hs hcount =>
    rw [readLine_of_operands hlex hw hop hs, shape_of_count hcount]
    rfl
  | kind hw hop hs hcount hkind =>
    rw [readLine_of_operands hlex hw hop hs, shape_of_kind hcount hkind]
    rfl

/-- Tokens of the grammar make one instruction, with the operation and the operands written. -/
theorem exists_of_isInstruction {operands : List Operand}
    (h : IsInstruction ((lex line).map Lexeme.token) op operands) :
    ∃ i : Instruction, i.opcode = op ∧ i.operands.written = operands ∧
      readLine line = .ok (some i.parts) := by
  obtain ⟨word, tokens, htokens, hop, hs, hkinds⟩ := h
  obtain ⟨ops, harity, rfl⟩ := exists_written hkinds
  obtain ⟨i, rfl, rfl⟩ := Instruction.exists_of_arity harity
  refine ⟨i, rfl, rfl, ?_⟩
  rw [readLine_of_tokens htokens hop hs, i.shape_written]
  rfl

/-- The ways that a line is read. -/
inductive LineCase (line : List Char) : Prop
  | empty (hlex : lex line = []) (hread : readLine line = .ok none)
  | instruction (i : Instruction)
      (hi : IsInstruction ((lex line).map Lexeme.token) i.opcode i.operands.written)
      (hread : readLine line = .ok (some i.parts))
  | refused (e : LineError) (he : FirstProblem line (lex line) e)
      (hread : readLine line = .error e)

theorem LineCase.of_firstProblem {e : LineError} (hlex : lex line = lexemes)
    (h : FirstProblem line lexemes e) : LineCase line := by
  rw [← hlex] at h
  exact .refused e h (readLine_of_firstProblem h)

/-- A line whose operands can be read is an instruction, unless they are too few, too many or of
other kinds. -/
theorem lineCase_of_spells {operands : List Operand} (hlex : lex line = first :: rest)
    (hw : first.token = .word word) (hop : op.NamedBy word)
    (hs : Spells (rest.map Lexeme.token) operands) : LineCase line := by
  by_cases hcount : operands.length = op.arity.operandCount
  · by_cases hkind : operands.map Operand.kind = op.arity.kinds
    · have hinstruction : IsInstruction ((lex line).map Lexeme.token) op operands := by
        rw [hlex, List.map_cons, hw]
        exact ⟨word, _, rfl, hop, hs, hkind⟩
      obtain ⟨i, rfl, rfl, hread⟩ := exists_of_isInstruction hinstruction
      exact .instruction i hinstruction hread
    · exact .of_firstProblem hlex (.kind hw hop hs hcount hkind)
  · exact .of_firstProblem hlex (.count hw hop hs hcount)

/-- A line is refused for the first token with which its operands cannot be read any more. -/
theorem lineCase_of_not_readable {l : Lexeme} {before behind : List Lexeme}
    (hlex : lex line = first :: (before ++ l :: behind)) (hw : first.token = .word word)
    (hop : op.NamedBy word) (hbefore : Readable false before)
    (hbreaks : ¬ Readable false (before ++ [l])) : LineCase line := by
  have ho : ∀ o : Operand, l.token ≠ o.token := by
    intro o ht
    exact hbreaks (hbefore.append_operand ht)
  have hl : l ∈ lex line := by
    rw [hlex]
    simp
  rw [readable_iff_spells] at hbefore hbreaks
  exact .of_firstProblem hlex (.operand hw hop hbefore hbreaks (operandProblem_refusal hl ho))

theorem lineCase (line : List Char) : LineCase line := by
  cases hlex : lex line with
  | nil => exact .empty hlex (readLine_of_no_tokens hlex)
  | cons first rest =>
    by_cases hw : ∃ word, first.token = .word word
    · obtain ⟨word, hw⟩ := hw
      by_cases hop : ∃ op : Opcode, op.NamedBy word
      · obtain ⟨op, hop⟩ := hop
        cases hread : readOperands line false rest with
        | error e =>
          obtain ⟨before, l, behind, rfl, hbefore, hbreaks, -⟩ :=
            (readOperands_eq_error_iff e).mp hread
          exact lineCase_of_not_readable hlex hw hop hbefore hbreaks
        | ok operands =>
          have hs : Spells _ operands :=
            (spells_iff_readsAs _ operands).mpr ((readOperands_eq_ok_iff operands).mp hread)
          exact lineCase_of_spells hlex hw hop hs
      · have hop' : ∀ op : Opcode, ¬ op.NamedBy word := fun op h => hop ⟨op, h⟩
        exact .of_firstProblem hlex (.unknown hw hop')
    · have hw' : ∀ word, first.token ≠ .word word := fun word h => hw ⟨word, h⟩
      exact .of_firstProblem hlex (.notWord hw')

/-- The operation and the operands of a line are those of an instruction, so that the error in the
making of it does not arise. -/
theorem exists_parts_of_readLine {parts : Opcode × Operands}
    (h : readLine line = .ok (some parts)) : ∃ i : Instruction, i.parts = parts := by
  rcases lineCase line with ⟨-, hread⟩ | ⟨i, -, hread⟩ | ⟨e, -, hread⟩
  · cases hread.symm.trans h
  · exact ⟨i, Option.some.inj (Except.ok.inj (hread.symm.trans h))⟩
  · cases hread.symm.trans h

theorem parseLine_eq_ok_iff (line : List Char) (number : Nat) (i? : Option Instruction) :
    parseLine line number = .ok i? ↔ readLine line = .ok (i?.map Instruction.parts) := by
  cases hread : readLine line with
  | error e =>
    rw [parseLine_of_refused hread]
    exact ⟨nofun, nofun⟩
  | ok found =>
    cases found with
    | none =>
      rw [parseLine_of_none hread]
      cases i? <;> simp
    | some parts =>
      obtain ⟨i, rfl⟩ := exists_parts_of_readLine hread
      rw [parseLine_of_parts hread]
      cases i? with
      | none => simp
      | some j =>
        simp only [Except.ok.injEq, Option.map_some, Option.some.injEq]
        exact ⟨congrArg Instruction.parts, Instruction.parts_injective⟩

theorem parseLine_eq_error_iff (line : List Char) (number : Nat) (e : AssemblyError) :
    parseLine line number = .error e ↔
      ∃ problem, readLine line = .error problem ∧ e = .atLine number problem := by
  cases hread : readLine line with
  | error problem =>
    rw [parseLine_of_refused hread]
    simp [eq_comm]
  | ok found =>
    cases found with
    | none =>
      rw [parseLine_of_none hread]
      simp
    | some parts =>
      obtain ⟨i, rfl⟩ := exists_parts_of_readLine hread
      rw [parseLine_of_parts hread]
      simp

/-- A line is read as nothing if it has no tokens, and as an instruction if its tokens are a
mnemonic and operands of the shape of its operation; any other line is refused for its first
problem. -/
theorem parseLine_accepts_grammar (line : List Char) (number : Nat) :
    (parseLine line number = .ok none ↔ (lex line).map Lexeme.token = []) ∧
    (∀ i, parseLine line number = .ok (some i) ↔
      IsInstruction ((lex line).map Lexeme.token) i.opcode i.operands.written) ∧
    (∀ op operands, IsInstruction ((lex line).map Lexeme.token) op operands →
      ∃ i : Instruction, i.opcode = op ∧ i.operands.written = operands ∧
        parseLine line number = .ok (some i)) ∧
    (∀ e, parseLine line number = .error e ↔
      ∃ problem, FirstProblem line (lex line) problem ∧ e = .atLine number problem) := by
  simp only [parseLine_eq_ok_iff, parseLine_eq_error_iff, List.map_eq_nil_iff, Option.map_none,
    Option.map_some]
  refine ⟨⟨?_, readLine_of_no_tokens⟩, ?_, ?_, ?_⟩
  · intro h
    rcases lineCase line with ⟨hlex, -⟩ | ⟨i, -, hread⟩ | ⟨e, -, hread⟩
    · exact hlex
    · cases hread.symm.trans h
    · cases hread.symm.trans h
  · intro i
    constructor
    · intro h
      rcases lineCase line with ⟨-, hread⟩ | ⟨j, hj, hread⟩ | ⟨e, -, hread⟩
      · cases hread.symm.trans h
      · obtain rfl := Instruction.parts_injective
          (Option.some.inj (Except.ok.inj (hread.symm.trans h)))
        exact hj
      · cases hread.symm.trans h
    · intro h
      obtain ⟨word, tokens, htokens, hop, hs, -⟩ := h
      rw [readLine_of_tokens htokens hop hs, i.shape_written]
      rfl
  · intro op operands h
    exact exists_of_isInstruction h
  · intro e
    constructor
    · rintro ⟨problem, h, rfl⟩
      rcases lineCase line with ⟨-, hread⟩ | ⟨i, -, hread⟩ | ⟨problem', hproblem, hread⟩
      · cases hread.symm.trans h
      · cases hread.symm.trans h
      · obtain rfl := Except.error.inj (hread.symm.trans h)
        exact ⟨problem', hproblem, rfl⟩
    · rintro ⟨problem, hproblem, rfl⟩
      exact ⟨problem, readLine_of_firstProblem hproblem, rfl⟩

/-- A comma may stand behind the last operand, and an unknown name is told of before the `@` behind
it. -/
theorem parseLine_accepts_trailing_comma :
    IsInstruction ((lex "Push r9,".toList).map Lexeme.token) .push [.register ⟨9⟩] ∧
      parseLine "Push r9,".toList 3 = .ok (some (.push ⟨9⟩)) ∧
      parseLine "mov @".toList 3 = .error (.atLine 3 (.unknownInstruction "mov")) := by
  have hpush : Lexes "Push r9,".toList [.word "Push", .register ⟨9⟩, .comma] := by
    refine Lexes.of_read ?_ rfl rfl
    refine Lexes.space ?_ rfl
    refine Lexes.of_read ?_ rfl rfl
    exact Lexes.comma lexes_nil
  have hmov : Lexes "mov @".toList [.word "mov", .unreadable] := by
    refine Lexes.of_read ?_ rfl rfl
    refine Lexes.space ?_ rfl
    exact Lexes.of_read lexes_nil rfl rfl
  have hinstruction : IsInstruction ((lex "Push r9,".toList).map Lexeme.token) .push
      [.register ⟨9⟩] :=
    ⟨"Push", _, hpush 0, Or.inl rfl, .withComma (.register ⟨9⟩) .nil, rfl⟩
  have hproblem : FirstProblem "mov @".toList (lex "mov @".toList) (.unknownInstruction "mov") := by
    obtain ⟨first, rest, hlex, hw, -⟩ := List.map_eq_cons_iff.mp (hmov 0)
    have hlex' : lex "mov @".toList = first :: rest := hlex
    rw [hlex']
    exact .unknown hw ((Opcode.ofSpelling?_eq_none_iff "mov").mp (by decide))
  obtain ⟨-, hsome, -, -⟩ := parseLine_accepts_grammar "Push r9,".toList 3
  obtain ⟨-, -, -, herror⟩ := parseLine_accepts_grammar "mov @".toList 3
  exact ⟨hinstruction, (hsome (.push ⟨9⟩)).mpr hinstruction, (herror _).mpr ⟨_, hproblem, rfl⟩⟩

end Assembly

end ByteMachine
