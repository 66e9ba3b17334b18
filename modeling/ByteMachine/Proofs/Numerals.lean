import ByteMachine.Text.Numeral
import ByteMachine.Text.Unsigned
import Mathlib.Data.Nat.Digits.Lemmas

/-!
The number that digits denote, told by their places and not by how they are read or written. Reading
digits gives this number or finds it too large, whatever zeros lead; hexadecimal digits written to a
width denote the number that they were written for.
-/

namespace ByteMachine.Text

/-- The digits of every radix up to sixteen, each in the place that is its value. -/
def digitOrder : List Char :=
  ['0', '1', '2', '3', '4', '5', '6', '7', '8', '9', 'a', 'b', 'c', 'd', 'e', 'f']

/-- The value of a digit, where a letter counts in either case. What is no digit has 16. -/
def digitRank (c : Char) : Nat :=
  digitOrder.idxOf c.toLower

/-- The number that digits denote, the last of them in the lowest place. -/
def numeralValue (radix : Nat) (digits : List Char) : Nat :=
  Nat.ofDigits radix (digits.reverse.map digitRank)

theorem numeralValue_nil (radix : Nat) : numeralValue radix [] = 0 :=
  rfl

theorem numeralValue_append (radix : Nat) (ds es : List Char) :
    numeralValue radix (ds ++ es) =
      numeralValue radix ds * radix ^ es.length + numeralValue radix es := by
  simp only [numeralValue, List.reverse_append, List.map_append, Nat.ofDigits_append,
    List.length_map, List.length_reverse]
  ring

theorem numeralValue_singleton (radix : Nat) (d : Char) : numeralValue radix [d] = digitRank d :=
  Nat.ofDigits_singleton

theorem numeralValue_cons (radix : Nat) (d : Char) (ds : List Char) :
    numeralValue radix (d :: ds) = digitRank d * radix ^ ds.length + numeralValue radix ds := by
  rw [← List.singleton_append, numeralValue_append, numeralValue_singleton]

theorem toNat_lt_of_isAlphanum {c : Char} (h : c.isAlphanum = true) : c.toNat < 128 := by
  have hle {last : Char} (hlast : last.val.toNat < 128) (hc : c.val ≤ last.val) : c.toNat < 128 :=
    Nat.lt_of_le_of_lt (UInt32.le_iff_toNat_le.mp hc) hlast
  rcases Bool.or_eq_true_iff.mp h with halpha | hdigit
  · rcases Bool.or_eq_true_iff.mp halpha with hupper | hlower
    · exact hle (by decide : 'Z'.val.toNat < 128) (of_decide_eq_true hupper).2
    · exact hle (by decide : 'z'.val.toNat < 128)
        (of_decide_eq_true (Bool.and_eq_true_iff.mp hlower).2)
  · exact hle (by decide : '9'.val.toNat < 128)
      (of_decide_eq_true (Bool.and_eq_true_iff.mp hdigit).2)

theorem of_not_isAlphanum {c : Char} (h : c.isAlphanum = false) :
    c.isUpper = false ∧ c.isLower = false ∧ c.isDigit = false := by
  obtain ⟨halpha, hdigit⟩ := Bool.or_eq_false_iff.mp h
  obtain ⟨hupper, hlower⟩ := Bool.or_eq_false_iff.mp halpha
  exact ⟨hupper, hlower, hdigit⟩

/-- What holds of every ASCII character holds of letters and digits. -/
theorem of_isAlphanum {P : Char → Prop} (hall : ∀ n < 128, P (Char.ofNat n)) {c : Char}
    (h : c.isAlphanum = true) : P c := by
  have hc := hall c.toNat (toNat_lt_of_isAlphanum h)
  rwa [Char.ofNat_toNat] at hc

theorem toLower_of_not_isAlphanum {c : Char} (h : c.isAlphanum = false) : c.toLower = c := by
  apply dif_neg
  exact of_decide_eq_false (of_not_isAlphanum h).1

/-- A character that is neither a letter nor a digit stands for no value. -/
theorem digitRank_of_not_isAlphanum {c : Char} (h : c.isAlphanum = false) : digitRank c = 16 := by
  obtain ⟨-, hlower, hdigit⟩ := of_not_isAlphanum h
  have hmem : c ∉ digitOrder := by
    intro hc
    have hall : digitOrder.all (fun d => d.isLower || d.isDigit) = true := by decide
    have hkind := List.all_eq_true.mp hall c hc
    rw [hlower, hdigit] at hkind
    exact Bool.false_ne_true hkind
  rw [digitRank, toLower_of_not_isAlphanum h, List.idxOf_eq_length hmem]
  rfl

theorem isAlphanum_of_digitRank_lt {c : Char} (h : digitRank c < 16) : c.isAlphanum = true := by
  rw [← Bool.not_eq_false]
  intro hc
  rw [digitRank_of_not_isAlphanum hc] at h
  omega

theorem digitValue?_of_not_isAlphanum {c : Char} (h : c.isAlphanum = false) (radix : Nat) :
    digitValue? radix c = none := by
  obtain ⟨hupper, hlower, hdigit⟩ := of_not_isAlphanum h
  simp [digitValue?, hupper, hlower, hdigit]

theorem digitValue?_eq {radix : Nat} (hr : radix ≤ 16) (c : Char) :
    digitValue? radix c = if digitRank c < radix then some (digitRank c) else none := by
  cases h : c.isAlphanum with
  | true =>
    have hall : ∀ radix < 17, digitValue? radix c =
        if digitRank c < radix then some (digitRank c) else none := by
      apply of_isAlphanum (P := fun c => ∀ radix < 17, digitValue? radix c =
        if digitRank c < radix then some (digitRank c) else none) _ h
      decide +kernel
    exact hall radix (Nat.lt_succ_of_le hr)
  | false =>
    have hrank : ¬ digitRank c < radix := by
      rw [digitRank_of_not_isAlphanum h]
      omega
    rw [digitValue?_of_not_isAlphanum h, if_neg hrank]

theorem digitValue?_of_lt {radix : Nat} (hr : radix ≤ 16) {d : Char} (hd : digitRank d < radix) :
    digitValue? radix d = some (digitRank d) := by
  rw [digitValue?_eq hr, if_pos hd]

/-- Digits are read as the number that they denote behind the value already read, if it is below
the bound. -/
theorem readDigits_eq {radix bound : Nat} (hr : radix ≤ 16) (hpos : 0 < radix) {digits : List Char}
    (hdigits : ∀ d ∈ digits, digitRank d < radix) {value : Nat} (hvalue : value < bound) :
    readDigits radix bound value digits =
      if value * radix ^ digits.length + numeralValue radix digits < bound then
        .ok (value * radix ^ digits.length + numeralValue radix digits)
      else .error .tooLarge := by
  induction digits generalizing value with
  | nil => simpa [readDigits, numeralValue_nil] using hvalue
  | cons d digits ih =>
    have hd := digitValue?_of_lt hr (hdigits d List.mem_cons_self)
    have hrest : ∀ e ∈ digits, digitRank e < radix := fun e he =>
      hdigits e (List.mem_cons_of_mem _ he)
    have hsum : value * radix ^ (d :: digits).length + numeralValue radix (d :: digits)
        = (value * radix + digitRank d) * radix ^ digits.length + numeralValue radix digits := by
      rw [numeralValue_cons, List.length_cons]
      ring
    rw [readDigits, hd, hsum]
    dsimp only
    by_cases hnext : value * radix + digitRank d < bound
    · rw [if_pos hnext, ih hrest hnext]
    · have hgrow : value * radix + digitRank d
          ≤ (value * radix + digitRank d) * radix ^ digits.length := by
        apply Nat.le_mul_of_pos_right
        exact Nat.pow_pos hpos
      rw [if_neg hnext, if_neg (by omega)]

theorem rank_lt_of_readDigits {radix bound : Nat} (hr : radix ≤ 16) {digits : List Char}
    {value n : Nat} (h : readDigits radix bound value digits = .ok n) :
    ∀ d ∈ digits, digitRank d < radix := by
  induction digits generalizing value with
  | nil => exact fun d hd => absurd hd List.not_mem_nil
  | cons d digits ih =>
    rw [readDigits, digitValue?_eq hr] at h
    by_cases hd : digitRank d < radix
    · rw [if_pos hd] at h
      dsimp only at h
      split at h
      · exact List.forall_mem_cons.mpr ⟨hd, ih h⟩
      · cases h
    · rw [if_neg hd] at h
      cases h

/-- A number is read exactly from digits that denote it. -/
theorem readDigits_eq_ok_iff {radix bound : Nat} (hr : radix ≤ 16) (hpos : 0 < radix)
    (hbound : 0 < bound) {digits : List Char} {n : Nat} :
    readDigits radix bound 0 digits = .ok n ↔
      (∀ d ∈ digits, digitRank d < radix) ∧ numeralValue radix digits = n ∧ n < bound := by
  constructor
  · intro h
    have hdigits := rank_lt_of_readDigits hr h
    rw [readDigits_eq hr hpos hdigits hbound, Nat.zero_mul, Nat.zero_add] at h
    split at h
    · next hlt =>
      obtain rfl := Except.ok.inj h
      exact ⟨hdigits, rfl, hlt⟩
    · cases h
  · rintro ⟨hdigits, rfl, hlt⟩
    rw [readDigits_eq hr hpos hdigits hbound, Nat.zero_mul, Nat.zero_add, if_pos hlt]

/-- The upper-case hexadecimal digit of a value below sixteen. -/
def upperHexDigit (value : Nat) : Char :=
  (digitOrder.getD value '0').toUpper

/-- The last `width` hexadecimal digits of a number, in upper case. -/
def fixedHex : Nat → Nat → List Char
  | 0, _ => []
  | width + 1, n => fixedHex width (n / 16) ++ [upperHexDigit (n % 16)]

theorem length_fixedHex (width n : Nat) : (fixedHex width n).length = width := by
  induction width generalizing n with
  | zero => rfl
  | succ width ih => rw [fixedHex, List.length_append, ih, List.length_singleton]

theorem toUpper_digitChar {value : Nat} (h : value < 16) :
    (Nat.digitChar value).toUpper = upperHexDigit value := by
  have hall : ∀ v < 16, (Nat.digitChar v).toUpper = upperHexDigit v := by decide
  exact hall value h

theorem digitRank_upperHexDigit {value : Nat} (h : value < 16) :
    digitRank (upperHexDigit value) = value := by
  have hall : ∀ v < 16, digitRank (upperHexDigit v) = v := by decide
  exact hall value h

/-- Digits written in a radix denote the number again, in letters of either case. -/
theorem numeralValue_map_toDigits {radix : Nat} (hr : 1 < radix) {f : Char → Char}
    (hf : ∀ v < radix, digitRank (f (Nat.digitChar v)) = v) (n : Nat) :
    (∀ d ∈ (Nat.toDigits radix n).map f, digitRank d < radix) ∧
      numeralValue radix ((Nat.toDigits radix n).map f) = n := by
  induction n using Nat.strongRecOn with
  | ind n ih =>
    by_cases hn : n < radix
    · rw [Nat.toDigits_of_lt_base hn, List.map_singleton, numeralValue_singleton, hf n hn]
      refine ⟨?_, rfl⟩
      intro d hd
      obtain rfl := List.mem_singleton.mp hd
      rwa [hf n hn]
    · have hmod : n % radix < radix := Nat.mod_lt n (by omega)
      obtain ⟨hdigits, hvalue⟩ := ih (n / radix) (Nat.div_lt_self (by omega) hr)
      rw [Nat.toDigits_of_base_le hr (by omega), List.map_append, List.map_singleton,
        numeralValue_append, hvalue, numeralValue_singleton, hf _ hmod, List.length_singleton,
        Nat.pow_one]
      refine ⟨?_, Nat.div_add_mod' n radix⟩
      intro d hd
      rcases List.mem_append.mp hd with hd | hd
      · exact hdigits d hd
      · obtain rfl := List.mem_singleton.mp hd
        rwa [hf _ hmod]

/-- Zeros in front of digits count nothing. -/
theorem numeralValue_leftpad (radix width : Nat) (digits : List Char) :
    numeralValue radix (digits.leftpad width '0') = numeralValue radix digits := by
  have hzero : digitRank '0' = 0 := by decide
  have hzeros (count : Nat) : numeralValue radix (List.replicate count '0') = 0 := by
    induction count with
    | zero => rfl
    | succ count ih =>
      rw [List.replicate_succ, numeralValue_cons, ih, hzero, Nat.zero_mul]
  rw [List.leftpad, numeralValue_append, hzeros, Nat.zero_mul, Nat.zero_add]

theorem fixedHex_zero (width : Nat) : fixedHex width 0 = List.replicate width '0' := by
  induction width with
  | zero => rfl
  | succ width ih =>
    rw [fixedHex, ih, List.replicate_succ']
    rfl

theorem leftpad_append_singleton {α : Type} (width : Nat) (a b : α) (l : List α) :
    (l ++ [b]).leftpad (width + 1) a = l.leftpad width a ++ [b] := by
  simp only [List.leftpad, List.length_append, List.length_singleton, Nat.add_sub_add_right,
    List.append_assoc]

/-- Hexadecimal digits filled up to a width are all the digits there are, where the number has no
more. -/
theorem toList_upperHex {width n : Nat} (hwidth : 0 < width) (h : n < 16 ^ width) :
    (upperHex width n).toList = fixedHex width n := by
  rw [upperHex, String.toList_ofList]
  induction width, hwidth using Nat.le_induction generalizing n with
  | base =>
    have hn : n < 16 := h
    rw [Nat.toDigits_of_lt_base hn, List.map_singleton, toUpper_digitChar hn]
    simp [List.leftpad, fixedHex, Nat.mod_eq_of_lt hn]
  | succ width hwidth ih =>
    rw [fixedHex]
    by_cases hn : n < 16
    · have hdiv : n / 16 = 0 := by omega
      have hmod : n % 16 = n := by omega
      rw [Nat.toDigits_of_lt_base hn, List.map_singleton, toUpper_digitChar hn, hdiv, hmod,
        fixedHex_zero]
      simp [List.leftpad]
    · have hdiv : n / 16 < 16 ^ width := by
        rw [Nat.pow_succ] at h
        omega
      have hmod : n % 16 < 16 := by omega
      rw [Nat.toDigits_of_base_le (by decide) (by omega), List.map_append, List.map_singleton,
        leftpad_append_singleton, ih hdiv, toUpper_digitChar hmod]

theorem toList_addressLabel {n : Nat} (h : n < 65536) :
    (addressLabel n).toList = '0' :: 'x' :: fixedHex 4 n := by
  have hmark : "0x".toList = ['0', 'x'] := by decide
  rw [addressLabel, String.toList_append, toList_upperHex (by decide) h, hmark]
  rfl

/-- Hexadecimal digits written to a width denote the number again. -/
theorem numeralValue_fixedHex {width n : Nat} (h : n < 16 ^ width) :
    numeralValue 16 (fixedHex width n) = n := by
  induction width generalizing n with
  | zero =>
    have hn : n = 0 := by simpa using h
    rw [hn]
    rfl
  | succ width ih =>
    have hdiv : n / 16 < 16 ^ width := by
      rw [Nat.pow_succ] at h
      omega
    have hmod : n % 16 < 16 := by omega
    rw [fixedHex, numeralValue_append, ih hdiv, numeralValue_singleton,
      digitRank_upperHexDigit hmod, List.length_singleton]
    omega

theorem upperHexDigit_mem {value : Nat} (h : value < 16) :
    upperHexDigit value ∈ digitOrder.map Char.toUpper := by
  have hall : ∀ v < 16, upperHexDigit v ∈ digitOrder.map Char.toUpper := by decide
  exact hall value h

theorem newline_not_mem_digits : '\n' ∉ digitOrder.map Char.toUpper := by
  decide

section

variable {c : Char} (h : c ∉ digitOrder.map Char.toUpper)

include h

/-- What is written are digits and capital letters, and nothing else. -/
theorem not_mem_fixedHex (width n : Nat) : c ∉ fixedHex width n := by
  induction width generalizing n with
  | zero => exact List.not_mem_nil
  | succ width ih =>
    have hmod : n % 16 < 16 := by omega
    rw [fixedHex, List.mem_append, List.mem_singleton]
    rintro (hc | rfl)
    · exact ih _ hc
    · exact h (upperHexDigit_mem hmod)

/-- The same where there are more digits than the width. -/
theorem not_mem_upperHex (width n : Nat) : c ∉ (upperHex width n).toList := by
  have hdigit {value : Nat} (hvalue : value < 16) : c ≠ (Nat.digitChar value).toUpper := by
    rw [toUpper_digitChar hvalue]
    rintro rfl
    exact h (upperHexDigit_mem hvalue)
  have hdigits : c ∉ (Nat.toDigits 16 n).map Char.toUpper := by
    induction n using Nat.strongRecOn with
    | ind n ih =>
      by_cases hn : n < 16
      · rw [Nat.toDigits_of_lt_base hn, List.map_singleton, List.mem_singleton]
        exact hdigit hn
      · have hdiv : n / 16 < n := by omega
        have hmod : n % 16 < 16 := by omega
        rw [Nat.toDigits_of_base_le (by decide) (by omega), List.map_append, List.map_singleton,
          List.mem_append, List.mem_singleton]
        exact not_or.mpr ⟨ih (n / 16) hdiv, hdigit hmod⟩
  rw [upperHex, String.toList_ofList, List.leftpad, List.mem_append, List.mem_replicate]
  rintro (⟨-, rfl⟩ | hc)
  · exact h (by decide)
  · exact hdigits hc

end

end ByteMachine.Text
