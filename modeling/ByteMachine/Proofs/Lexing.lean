import ByteMachine.Assembly.Token

namespace ByteMachine

namespace Text

theorem digitValue?_ten {c : Char} (h : c.isDigit = true) :
    digitValue? 10 c = some (c.toNat - '0'.toNat) := by
  have hle : c.toNat ≤ 57 := by
    simp only [Char.isDigit, Bool.and_eq_true, decide_eq_true_eq] at h
    exact h.2
  have h0 : '0'.toNat = 48 := rfl
  have hlt : c.toNat - '0'.toNat < 10 := by
    rw [h0]
    omega
  rw [digitValue?, if_pos h]
  exact Option.filter_some_pos (decide_eq_true hlt)

theorem le_ofDigitChars (ds : List Char) (value : Nat) : value ≤ Nat.ofDigitChars 10 ds value := by
  rw [Nat.ofDigitChars_eq_ofDigitChars_zero]
  have hpow : 0 < 10 ^ ds.length := Nat.pow_pos (by decide)
  calc
    value ≤ 10 ^ ds.length * value := Nat.le_mul_of_pos_left value hpow
    _ ≤ 10 ^ ds.length * value + Nat.ofDigitChars 10 ds 0 := Nat.le_add_right _ _

theorem readDigits_ten {bound value : Nat} {ds : List Char} (hds : ∀ d ∈ ds, d.isDigit = true)
    (h : Nat.ofDigitChars 10 ds value < bound) :
    readDigits 10 bound value ds = .ok (Nat.ofDigitChars 10 ds value) := by
  induction ds generalizing value with
  | nil => rfl
  | cons d ds ih =>
    have hd := digitValue?_ten (hds d List.mem_cons_self)
    have hrest : ∀ d ∈ ds, d.isDigit = true := fun e he => hds e (List.mem_cons_of_mem _ he)
    rw [Nat.ofDigitChars_cons, Nat.mul_comm] at h
    have hle := le_ofDigitChars ds (value * 10 + (d.toNat - '0'.toNat))
    rw [Nat.ofDigitChars_cons, Nat.mul_comm, readDigits, hd]
    dsimp only
    rw [if_pos (Nat.lt_of_le_of_lt hle h)]
    exact ih hrest h

theorem readDigits_toDigits {bound n : Nat} (h : n < bound) :
    readDigits 10 bound 0 (Nat.toDigits 10 n) = .ok n := by
  have hvalue : Nat.ofDigitChars 10 (Nat.toDigits 10 n) 0 = n := Nat.ofDigitChars_ten_toDigits
  have hds : ∀ d ∈ Nat.toDigits 10 n, d.isDigit = true := fun d hd =>
    Nat.isDigit_of_mem_toDigits (by decide) (by decide) hd
  rw [readDigits_ten hds (by rw [hvalue]; exact h), hvalue]

end Text

namespace Assembly

/-- A text that no word and no number goes on with. -/
def EndsWord (cs : List Char) : Prop :=
  ∀ c, cs.head? = some c → isWordChar c = false

/-- Characters of a class are taken up to the end of a text if what follows starts outside the
class. -/
theorem takeWhile_append_of_stop {p : Char → Bool} {rest : List Char}
    (hrest : ∀ c, rest.head? = some c → p c = false) (cs : List Char) :
    (cs ++ rest).takeWhile p = cs.takeWhile p ∧
      (cs ++ rest).dropWhile p = cs.dropWhile p ++ rest := by
  induction cs with
  | nil =>
    cases rest with
    | nil => simp
    | cons c rest => simp [hrest c rfl]
  | cons c cs ih =>
    cases hc : p c with
    | true => simp [hc, ih]
    | false => simp [hc]

theorem EndsWord.stop {rest : List Char} (h : EndsWord rest) {p : Char → Bool}
    (hp : ∀ c, p c = true → isWordChar c = true) : ∀ c, rest.head? = some c → p c = false := by
  intro c hc
  cases hpc : p c with
  | false => rfl
  | true => exact absurd (hp c hpc) (by simp [h c hc])

theorem takeWhile_of_endsWord {p : Char → Bool} (hp : ∀ c, p c = true → isWordChar c = true)
    {tail rest : List Char} (htail : ∀ c ∈ tail, p c = true) (hrest : EndsWord rest) :
    (tail ++ rest).takeWhile p = tail ∧ (tail ++ rest).dropWhile p = rest := by
  obtain ⟨htake, hdrop⟩ := takeWhile_append_of_stop (hrest.stop hp) []
  rw [List.nil_append] at htake hdrop
  rw [List.takeWhile_append_of_pos htail, List.dropWhile_append_of_pos htail, htake, hdrop]
  exact ⟨List.append_nil tail, rfl⟩

/-- The tokens of a text, wherever in its line it starts. -/
def Lexes (cs : List Char) (tokens : List Token) : Prop :=
  ∀ offset, (lexFrom offset cs).map Lexeme.token = tokens

theorem lexes_nil : Lexes [] [] := by
  intro offset
  rw [lexFrom]
  rfl

theorem Lexes.space {cs : List Char} {tokens : List Token} (h : Lexes cs tokens) {c : Char}
    (hc : isSpace c = true) : Lexes (c :: cs) tokens := by
  intro offset
  rw [lexFrom, if_pos hc]
  exact h _

theorem Lexes.of_read {c : Char} {cs tail rest : List Char} {token : Token} {tokens : List Token}
    (h : Lexes rest tokens) (hc : isSpace c = false)
    (hread : Token.read c cs = ⟨token, tail, rest⟩) : Lexes (c :: cs) (token :: tokens) := by
  intro offset
  rw [lexFrom, if_neg (by rw [hc]; exact Bool.false_ne_true)]
  simp only [hread, List.map_cons]
  rw [h]

theorem Lexes.comma {cs : List Char} {tokens : List Token} (h : Lexes cs tokens) :
    Lexes (',' :: cs) (.comma :: tokens) :=
  h.of_read rfl rfl

theorem isSpace_of_isWordStart {c : Char} (h : isWordStart c = true) : isSpace c = false := by
  have hne (d : Char) (hd : isWordStart d = false) : (c == d) = false := by
    apply beq_eq_false_iff_ne.mpr
    rintro rfl
    exact absurd h (by simp [hd])
  rw [isSpace, hne ' ' rfl, hne '\t' rfl, hne '\r' rfl]
  rfl

theorem Lexes.word {c : Char} {tail rest : List Char} {tokens : List Token} (h : Lexes rest tokens)
    (hc : isWordStart c = true) (htail : ∀ d ∈ tail, isWordChar d = true)
    (hrest : EndsWord rest) : Lexes (c :: (tail ++ rest)) (Token.ofWord (c :: tail) :: tokens) := by
  obtain ⟨htake, hdrop⟩ := takeWhile_of_endsWord (fun _ hd => hd) htail hrest
  have hcomma : (c == ',') = false := by
    apply beq_eq_false_iff_ne.mpr
    rintro rfl
    exact absurd hc (by decide)
  have hread : Token.read c (tail ++ rest) = ⟨Token.ofWord (c :: tail), tail, rest⟩ := by
    simp only [Token.read, hcomma, hc, htake, hdrop, Bool.false_eq_true, ↓reduceIte]
  exact h.of_read (isSpace_of_isWordStart hc) hread

theorem readHex?_eq_none {cs : List Char}
    (h : ∀ x cs', cs = '0' :: x :: cs' → x ≠ 'x' ∧ x ≠ 'X') : Token.readHex? cs = none := by
  unfold Token.readHex?
  split
  · next x cs' =>
    obtain ⟨hx, hX⟩ := h x cs' rfl
    simp [hx, hX]
  · rfl

theorem isWordChar_of_isDigit (c : Char) (h : c.isDigit = true) : isWordChar c = true := by
  simp [isWordChar, Char.isAlphanum, h]

/-- Decimal digits behind a `#` are read as an immediate. A hexadecimal one would have its `x` among
them or behind them. -/
theorem read_decimal {digits rest : List Char} (hne : digits ≠ [])
    (hdigits : ∀ d ∈ digits, d.isDigit = true) (hrest : EndsWord rest) :
    Token.read '#' (digits ++ rest) = ⟨Token.ofDigits 10 digits, digits, rest⟩ := by
  have hhex : Token.readHex? (digits ++ rest) = none := by
    apply readHex?_eq_none
    intro x cs' hcs
    have hx : x.isDigit = true ∨ isWordChar x = false := by
      match digits, hne with
      | [_], _ =>
        obtain ⟨-, rfl⟩ := List.cons.inj hcs
        exact Or.inr (hrest x rfl)
      | _ :: d :: _, _ =>
        obtain ⟨-, htail⟩ := List.cons.inj hcs
        obtain ⟨rfl, -⟩ := List.cons.inj htail
        exact Or.inl (hdigits _ (by simp))
    constructor
    · rintro rfl
      exact absurd hx (by decide)
    · rintro rfl
      exact absurd hx (by decide)
  obtain ⟨htake, hdrop⟩ := takeWhile_of_endsWord isWordChar_of_isDigit hdigits hrest
  have hempty : digits.isEmpty = false := List.isEmpty_eq_false_iff.mpr hne
  change Token.readImmediate (digits ++ rest) = _
  rw [Token.readImmediate, hhex, Token.readDecimal?, htake, hdrop, hempty]
  rfl

theorem Lexes.decimal {digits rest : List Char} {tokens : List Token} (h : Lexes rest tokens)
    (hne : digits ≠ []) (hdigits : ∀ d ∈ digits, d.isDigit = true) (hrest : EndsWord rest) :
    Lexes ('#' :: (digits ++ rest)) (Token.ofDigits 10 digits :: tokens) :=
  h.of_read rfl (read_decimal hne hdigits hrest)

end Assembly

end ByteMachine
