import ByteMachine.Assembly.Token

namespace ByteMachine

namespace Text

theorem byteLength_append (cs ds : List Char) :
    byteLength (cs ++ ds) = byteLength cs + byteLength ds := by
  induction cs with
  | nil => rw [List.nil_append, byteLength, Nat.zero_add]
  | cons c cs ih => rw [List.cons_append, byteLength, byteLength, ih, Nat.add_assoc]

/-- Behind the bytes of a text stands what was put behind the text. -/
theorem fromByte_byteLength (cs rest : List Char) :
    fromByte (byteLength cs) (cs ++ rest) = rest := by
  induction cs with
  | nil => exact fromByte.eq_1 rest
  | cons c cs ih =>
    obtain ⟨n, hn⟩ := Nat.exists_eq_succ_of_ne_zero (Nat.ne_of_gt c.utf8Size_pos)
    have hlength : byteLength (c :: cs) = (n + byteLength cs) + 1 := by
      rw [byteLength, hn]
      omega
    have hrest : n + byteLength cs + 1 - c.utf8Size = byteLength cs := by
      rw [hn]
      omega
    rw [hlength, List.cons_append, fromByte, hrest, ih]

end Text

namespace Assembly

namespace Token

theorem ofWord_eq_word {cs : List Char} {letters : String} (h : ofWord cs = word letters) :
    letters.toList = cs := by
  unfold ofWord at h
  split at h
  · split at h
    · cases h
    · obtain rfl := Token.word.inj h
      exact String.toList_ofList
  · obtain rfl := Token.word.inj h
    exact String.toList_ofList

theorem index_lt_of_ofWord {cs : List Char} {r : Register} (h : ofWord cs = register r) :
    r.index.toNat < 10 := by
  unfold ofWord at h
  split at h
  · next d =>
    split at h
    · next hd =>
      obtain rfl := Token.register.inj h
      have hle : d.toNat ≤ 57 := by
        simp only [Char.isDigit, Bool.and_eq_true, decide_eq_true_eq] at hd
        exact hd.2
      have h0 : '0'.toNat = 48 := rfl
      simp only [UInt8.toNat_ofNat', h0]
      omega
    · cases h
  · cases h

theorem ofDigits_cases (radix : Nat) (digits : List Char) :
    (∃ value, ofDigits radix digits = immediate value) ∨ ofDigits radix digits = unreadable := by
  unfold ofDigits
  cases Text.readDigits radix immediateBound 0 digits with
  | ok value => exact .inl ⟨value, rfl⟩
  | error e => exact .inr rfl

theorem readImmediate_cases (cs : List Char) :
    (∃ value, (readImmediate cs).token = immediate value) ∨
      (readImmediate cs).token = unreadable := by
  unfold readImmediate
  cases hx : readHex? cs with
  | some reading =>
    unfold readHex? at hx
    split at hx
    · dsimp only at hx
      split at hx
      · obtain rfl := Option.some.inj hx
        exact ofDigits_cases 16 _
      · cases hx
    · cases hx
  | none =>
    cases hd : readDecimal? cs with
    | some reading =>
      unfold readDecimal? at hd
      dsimp only at hd
      split at hd
      · cases hd
      · obtain rfl := Option.some.inj hd
        exact ofDigits_cases 10 _
    | none => exact .inr rfl

/-- The ways that a token is read. -/
inductive ReadCase (c : Char) (cs : List Char) : Prop
  | comma (ht : (read c cs).token = comma)
  | word (ht : (read c cs).token = ofWord (c :: (read c cs).tail))
  | immediate (value : Nat) (ht : (read c cs).token = immediate value)
  | unreadable (ht : (read c cs).token = unreadable)

theorem readCase (c : Char) (cs : List Char) : ReadCase c cs := by
  by_cases hcomma : (c == ',') = true
  · exact .comma (by rw [read, if_pos hcomma])
  by_cases hword : isWordStart c = true
  · exact .word (by rw [read, if_neg hcomma, if_pos hword])
  by_cases hsign : (c == '#') = true
  · have hread : read c cs = readImmediate cs := by
      rw [read, if_neg hcomma, if_neg hword, if_pos hsign]
    rcases readImmediate_cases cs with ⟨value, hvalue⟩ | hnone
    · exact .immediate value (by rw [hread, hvalue])
    · exact .unreadable (by rw [hread, hnone])
  · exact .unreadable (by rw [read, if_neg hcomma, if_neg hword, if_neg hsign])

theorem toList_of_read {c : Char} {cs : List Char} {letters : String}
    (h : (read c cs).token = word letters) : letters.toList = c :: (read c cs).tail := by
  rcases readCase c cs with ht | ht | ⟨value, ht⟩ | ht
  · cases ht.symm.trans h
  · exact ofWord_eq_word (ht.symm.trans h)
  · cases ht.symm.trans h
  · cases ht.symm.trans h

theorem index_lt_of_read {c : Char} {cs : List Char} {r : Register}
    (h : (read c cs).token = register r) : r.index.toNat < 10 := by
  rcases readCase c cs with ht | ht | ⟨value, ht⟩ | ht
  · cases ht.symm.trans h
  · exact index_lt_of_ofWord (ht.symm.trans h)
  · cases ht.symm.trans h
  · cases ht.symm.trans h

end Token

/-- A lexeme is what is read at its place in a text that starts at a given byte. -/
theorem exists_read_of_mem_lexFrom {offset : Nat} {cs : List Char} {l : Lexeme}
    (h : l ∈ lexFrom offset cs) :
    ∃ before c behind, cs = before ++ c :: behind ∧ isSpace c = false ∧
      l = ⟨(Token.read c behind).token, offset + Text.byteLength before,
        c :: (Token.read c behind).tail⟩ := by
  induction offset, cs using lexFrom.induct with
  | case1 offset =>
    rw [lexFrom] at h
    cases h
  | case2 offset c cs hspace ih =>
    rw [lexFrom, if_pos hspace] at h
    obtain ⟨before, d, behind, rfl, hd, rfl⟩ := ih h
    refine ⟨c :: before, d, behind, rfl, hd, ?_⟩
    rw [Text.byteLength, Nat.add_assoc]
  | case3 offset c cs hspace reading slice ih =>
    have hc : isSpace c = false := Bool.eq_false_iff.mpr hspace
    rw [lexFrom, if_neg hspace] at h
    rcases List.mem_cons.mp h with rfl | h
    · exact ⟨[], c, cs, rfl, hc, rfl⟩
    · obtain ⟨before, d, behind, hrest, hd, rfl⟩ := ih h
      have hcs : (Token.read c cs).tail ++ (Token.read c cs).rest = cs :=
        Token.tail_append_rest_read c cs
      refine ⟨slice ++ before, d, behind, ?_, hd, ?_⟩
      · rw [List.append_assoc, ← hrest, List.cons_append, hcs]
      · rw [Text.byteLength_append, Nat.add_assoc]

theorem slice_of_word {line : List Char} {l : Lexeme} (h : l ∈ lex line) {letters : String}
    (ht : l.token = .word letters) : letters.toList = l.slice := by
  obtain ⟨before, c, behind, -, -, rfl⟩ := exists_read_of_mem_lexFrom h
  exact Token.toList_of_read ht

theorem index_lt_of_mem_lex {line : List Char} {l : Lexeme} (h : l ∈ lex line) {r : Register}
    (ht : l.token = .register r) : r.index.toNat < 10 := by
  obtain ⟨before, c, behind, -, -, rfl⟩ := exists_read_of_mem_lexFrom h
  exact Token.index_lt_of_read ht

/-- A lexeme stands in its line behind as many bytes as its place says. -/
theorem exists_append_of_mem_lex {line : List Char} {l : Lexeme} (h : l ∈ lex line) :
    ∃ before behind, line = before ++ (l.slice ++ behind) ∧ Text.byteLength before = l.start := by
  obtain ⟨before, c, behind, hline, -, rfl⟩ := exists_read_of_mem_lexFrom h
  refine ⟨before, (Token.read c behind).rest, ?_, (Nat.zero_add _).symm⟩
  rw [hline, List.cons_append, Token.tail_append_rest_read]

theorem lexFrom_eq_nil_iff (offset : Nat) (cs : List Char) :
    lexFrom offset cs = [] ↔ ∀ c ∈ cs, isSpace c = true := by
  induction offset, cs using lexFrom.induct with
  | case1 offset =>
    rw [lexFrom]
    simp
  | case2 offset c cs hspace ih =>
    rw [lexFrom, if_pos hspace, ih]
    simp [hspace]
  | case3 offset c cs hspace reading slice ih =>
    rw [lexFrom, if_neg hspace]
    simp [hspace]

/-- A line has no tokens exactly if it holds only the white space that stands between tokens. -/
theorem lex_eq_nil_iff (line : List Char) : lex line = [] ↔ ∀ c ∈ line, isSpace c = true :=
  lexFrom_eq_nil_iff 0 line

end Assembly

end ByteMachine
