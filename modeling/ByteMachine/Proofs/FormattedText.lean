import ByteMachine.Proofs.LineGrammar
import ByteMachine.Proofs.Reassembly

namespace ByteMachine

/-- Written operands are the registers of the list, with the immediate behind them if it has one. -/
theorem Operands.exists_written_eq (ops : Operands) :
    ∃ rest, ops.written = ops.registers.map Assembly.Operand.register ++ rest := by
  cases ops with
  | immediate a imm => exact ⟨[.immediate imm], rfl⟩
  | _ => exact ⟨[], rfl⟩

namespace Assembly

theorem exists_spelledTokens_cons (o : Operand) (operands : List Operand) :
    ∃ rest, spelledTokens (o :: operands) = o.spelledToken :: rest := by
  cases operands <;> exact ⟨_, rfl⟩

theorem spelledTokens_cons {operands : List Operand} (o : Operand) (h : operands ≠ []) :
    spelledTokens (o :: operands) = o.spelledToken :: .comma :: spelledTokens operands := by
  cases operands with
  | nil => exact absurd rfl h
  | cons o' operands => rfl

variable {line : List Char} {r : Register}

theorem refusal_of_register {l : Lexeme} (hl : l ∈ lex line) (ht : l.token = .word r.text) :
    refusal line l = .invalidRegister r.text := by
  have hhead : r.text.toList.head? = some 'r' :=
    congrArg List.head? (Operand.toList_text_register r)
  exact ((OperandProblem.registerLike ht (.inl hhead)).eq_refusal hl).symm

/-- Operands are refused for the first register that has more digits than one. -/
theorem readOperands_of_long_register {before behind : List Operand} {lexemes : List Lexeme}
    (hbefore : ∀ o ∈ before, o.Spellable) (hr : 9 < r.index.toNat)
    (hmem : ∀ l ∈ lexemes, l ∈ lex line)
    (h : lexemes.map Lexeme.token = spelledTokens (before ++ .register r :: behind))
    (allowed : Bool) : readOperands line allowed lexemes = .error (.invalidRegister r.text) := by
  induction before generalizing lexemes allowed with
  | nil =>
    obtain ⟨rest, hrest⟩ := exists_spelledTokens_cons (.register r) behind
    rw [List.nil_append, hrest] at h
    obtain ⟨l, lexemes, rfl, hl, -⟩ := List.map_eq_cons_iff.mp h
    have ht : l.token = .word r.text := hl.trans (ofWord_long_register hr)
    have hoperand : ∀ o : Operand, l.token ≠ o.token := by
      intro o
      rw [ht]
      cases o <;> exact nofun
    have hcomma : ¬ (allowed = true ∧ l.token = .comma) := by
      rw [ht]
      exact nofun
    rw [readOperands_of_refused hoperand hcomma, refusal_of_register (hmem l List.mem_cons_self) ht]
  | cons o before ih =>
    have hne : before ++ .register r :: behind ≠ [] := by simp
    have ho := o.spelledToken_of_spellable (hbefore o List.mem_cons_self)
    rw [List.cons_append, spelledTokens_cons o hne, ho] at h
    obtain ⟨l, lexemes, rfl, hl, h⟩ := List.map_eq_cons_iff.mp h
    obtain ⟨comma, lexemes, rfl, hcomma, h⟩ := List.map_eq_cons_iff.mp h
    have hbehind : ∀ l ∈ lexemes, l ∈ lex line := fun l' hl' =>
      hmem l' (List.mem_cons_of_mem _ (List.mem_cons_of_mem _ hl'))
    have hrest := ih (fun o' ho' => hbefore o' (List.mem_cons_of_mem _ ho')) hbehind h false
    rw [readOperands_of_operand hl, readOperands_of_comma hcomma, hrest]
    rfl

theorem readLine_text_of_long_register {i : Instruction} {before behind : List Register}
    (hi : i.registers = before ++ r :: behind) (hbefore : ∀ r' ∈ before, r'.index.toNat ≤ 9)
    (hr : 9 < r.index.toNat) : readLine i.text.toList = .error (.invalidRegister r.text) := by
  obtain ⟨rest, hwritten⟩ := i.operands.exists_written_eq
  have hregisters : i.operands.registers = before ++ r :: behind := hi
  rw [hregisters, List.map_append, List.map_cons, List.append_assoc, List.cons_append] at hwritten
  have htokens : (lex i.text.toList).map Lexeme.token
      = .word i.mnemonic :: spelledTokens i.operands.written := i.lexes_text 0
  rw [hwritten] at htokens
  obtain ⟨first, lexemes, hlex, hfirst, hoperands⟩ := List.map_eq_cons_iff.mp htokens
  have hspellable : ∀ o ∈ before.map Operand.register, o.Spellable := by
    intro o ho
    obtain ⟨r', hr', rfl⟩ := List.mem_map.mp ho
    exact Nat.lt_succ_of_le (hbefore r' hr')
  have hmem : ∀ l ∈ lexemes, l ∈ lex i.text.toList := by
    intro l hl
    rw [hlex]
    exact List.mem_cons_of_mem _ hl
  have hop : i.opcode.NamedBy i.mnemonic :=
    (Opcode.ofSpelling?_eq_some_iff _ _).mp i.opcode.ofSpelling?_mnemonic
  rw [readLine_of_named hlex hfirst hop,
    readOperands_of_long_register hspellable hr hmem hoperands false]
  rfl

variable {text : String}

theorem parseInstruction_of_parts {i : Instruction}
    (h : readLine text.toList = .ok (some i.parts)) : parseInstruction text = .ok i := by
  rw [parseInstruction, parseLine_of_parts h]
  rfl

theorem parseInstruction_of_refused {e : LineError} (h : readLine text.toList = .error e) :
    parseInstruction text = .error (.atLine 1 e) := by
  rw [parseInstruction, parseLine_of_refused h]
  rfl

/-- What the formatter writes is the text of the instruction, and it is read back as the instruction
or refused for the first register above 9, which is told by its spelling. -/
theorem parseInstruction_format (i : Instruction) :
    i.format = i.text ∧
    ((∀ r ∈ i.registers, r.index.toNat ≤ 9) → parseInstruction i.format = .ok i) ∧
    ∀ before r behind, i.registers = before ++ r :: behind →
      (∀ r' ∈ before, r'.index.toNat ≤ 9) → 9 < r.index.toNat →
      parseInstruction i.format =
        .error (.atLine 1 (.invalidRegister ("r" ++ Text.decimal r.index.toNat))) := by
  rw [i.format_eq_text]
  refine ⟨rfl, ?_, ?_⟩
  · intro h
    have hread : readLine i.text.toList = .ok (some i.parts) :=
      readLine_text fun r hr => Nat.lt_succ_of_le (h r hr)
    exact parseInstruction_of_parts hread
  · intro before r behind hi hbefore hr
    exact parseInstruction_of_refused (readLine_text_of_long_register hi hbefore hr)

end Assembly

end ByteMachine
