import ByteMachine.Console.Address
import ByteMachine.Proofs.Numerals
import Mathlib.Data.List.TakeWhile

namespace ByteMachine

namespace Text

/-- What is left of a text without the white space around it. -/
structure Trims (cs trimmed : List Char) : Prop where
  inside : ∃ before behind, cs = before ++ (trimmed ++ behind) ∧
    (∀ c ∈ before, isBlank c = true) ∧ ∀ c ∈ behind, isBlank c = true
  first : ∀ c, trimmed.head? = some c → isBlank c = false
  last : ∀ c, trimmed.getLast? = some c → isBlank c = false

theorem dropWhile_of_head? {p : Char → Bool} {cs : List Char}
    (h : ∀ c, cs.head? = some c → p c = false) : cs.dropWhile p = cs := by
  cases cs with
  | nil => rfl
  | cons c cs => rw [List.dropWhile_cons, h c rfl, if_neg Bool.false_ne_true]

theorem head?_dropWhile {p : Char → Bool} (cs : List Char) {c : Char}
    (h : (cs.dropWhile p).head? = some c) : p c = false := by
  have hnot := List.head?_dropWhile_not p cs
  rw [h] at hnot
  exact hnot

theorem dropTrailing_append {p : Char → Bool} {behind : List Char} (h : ∀ c ∈ behind, p c = true)
    (cs : List Char) : dropTrailing p (cs ++ behind) = dropTrailing p cs := by
  have hreverse : ∀ c ∈ behind.reverse, p c = true := fun c hc => h c (List.mem_reverse.mp hc)
  rw [dropTrailing, List.reverse_append, List.dropWhile_append_of_pos hreverse, dropTrailing]

theorem trims_trim (cs : List Char) : Trims cs (trim cs) := by
  have hfront := List.takeWhile_append_dropWhile (p := isBlank) (l := cs)
  obtain ⟨rest, hrest⟩ : ∃ rest, cs.dropWhile isBlank = rest := ⟨_, rfl⟩
  have hback := List.takeWhile_append_dropWhile (p := isBlank) (l := rest.reverse)
  have hsplit : trim cs ++ (rest.reverse.takeWhile isBlank).reverse = rest := by
    rw [trim, hrest, dropTrailing, ← List.reverse_append, hback, List.reverse_reverse]
  refine ⟨⟨cs.takeWhile isBlank, (rest.reverse.takeWhile isBlank).reverse, ?_, ?_, ?_⟩, ?_, ?_⟩
  · rw [hsplit, ← hrest, hfront]
  · exact fun c hc => List.mem_takeWhile_imp hc
  · exact fun c hc => List.mem_takeWhile_imp (List.mem_reverse.mp hc)
  · intro c hc
    apply head?_dropWhile cs
    rw [hrest, ← hsplit, List.head?_append, hc]
    rfl
  · intro c hc
    rw [trim, hrest, dropTrailing, List.getLast?_reverse] at hc
    exact head?_dropWhile _ hc

theorem Trims.trim_eq {cs trimmed : List Char} (h : Trims cs trimmed) : trim cs = trimmed := by
  obtain ⟨before, behind, rfl, hbefore, hbehind⟩ := h.inside
  rw [trim, List.dropWhile_append_of_pos hbefore]
  cases trimmed with
  | nil =>
    rw [List.nil_append, List.dropWhile_eq_nil_iff.mpr hbehind]
    rfl
  | cons c cs =>
    have hfirst : isBlank c = false := h.first c rfl
    have hlast : ∀ d, (c :: cs).reverse.head? = some d → isBlank d = false := by
      intro d hd
      rw [List.head?_reverse] at hd
      exact h.last d hd
    rw [List.cons_append, List.dropWhile_cons, hfirst, if_neg Bool.false_ne_true,
      ← List.cons_append, dropTrailing_append hbehind, dropTrailing, dropWhile_of_head? hlast,
      List.reverse_reverse]

theorem trim_eq_iff {cs trimmed : List Char} : trim cs = trimmed ↔ Trims cs trimmed := by
  constructor
  · rintro rfl
    exact trims_trim cs
  · exact Trims.trim_eq

theorem isBlank_of_isAlphanum {c : Char} (h : c.isAlphanum = true) : isBlank c = false := by
  have hall : c.isAlphanum = true → isBlank c = false := by
    apply of_isAlphanum (P := fun c => c.isAlphanum = true → isBlank c = false) _ h
    decide +kernel
  exact hall h

/-- The sign that may stand in front of an unsigned number, where it does. -/
def signText (plus : Bool) : List Char :=
  if plus then ['+'] else []

theorem plus_not_mem_digits {radix : Nat} (hr : radix ≤ 16) {digits : List Char}
    (hdigits : ∀ d ∈ digits, digitRank d < radix) : '+' ∉ digits := by
  intro hplus
  have hrank : digitRank '+' = 16 := digitRank_of_not_isAlphanum rfl
  have hlt := hdigits '+' hplus
  omega

/-- A number is read exactly from digits that denote it, with or without a sign. -/
theorem readUnsigned_eq_ok_iff {radix bound : Nat} (hr : radix ≤ 16) (hpos : 0 < radix)
    (hbound : 0 < bound) {cs : List Char} {n : Nat} :
    readUnsigned radix bound cs = .ok n ↔
      ∃ plus digits, cs = signText plus ++ digits ∧ digits ≠ [] ∧
        (∀ d ∈ digits, digitRank d < radix) ∧ numeralValue radix digits = n ∧ n < bound := by
  constructor
  · intro h
    unfold readUnsigned at h
    split at h
    · cases h
    · cases h
    · next digits hne =>
      have hdigits := (readDigits_eq_ok_iff hr hpos hbound).mp h
      exact ⟨true, digits, rfl, hne, hdigits⟩
    · next hne _ _ =>
      have hdigits := (readDigits_eq_ok_iff hr hpos hbound).mp h
      exact ⟨false, cs, rfl, hne, hdigits⟩
  · rintro ⟨plus, digits, rfl, hne, hdigits, hvalue⟩
    have hread := (readDigits_eq_ok_iff hr hpos hbound).mpr ⟨hdigits, hvalue⟩
    obtain ⟨d, digits, rfl⟩ := List.exists_cons_of_ne_nil hne
    cases plus with
    | true => exact hread
    | false =>
      have hd : d ≠ '+' := by
        rintro rfl
        exact plus_not_mem_digits hr hdigits List.mem_cons_self
      change readUnsigned radix bound (d :: digits) = .ok n
      unfold readUnsigned
      split
      · next hcs => cases hcs
      · next hcs => exact absurd (List.cons.inj hcs).1 hd
      · next hcs => exact absurd (List.cons.inj hcs).1 hd
      · exact hread

end Text

namespace Console

/-- The texts that tell the radix of the digits behind them. -/
inductive TellsRadix : List Char → Nat → Prop
  | decimal : TellsRadix [] 10
  | lowerHex : TellsRadix ['0', 'x'] 16
  | upperHex : TellsRadix ['0', 'X'] 16

/-- An unsigned number as it can be written: at least one digit of the radix that the mark tells,
and one `+` or nothing between the mark and the digits. -/
structure WrittenNumber where
  mark : List Char
  radix : Nat
  tells : TellsRadix mark radix
  plus : Bool
  digits : List Char
  nonempty : digits ≠ []
  rank_lt : ∀ d ∈ digits, Text.digitRank d < radix

namespace WrittenNumber

def text (w : WrittenNumber) : List Char :=
  w.mark ++ (Text.signText w.plus ++ w.digits)

def value (w : WrittenNumber) : Nat :=
  Text.numeralValue w.radix w.digits

end WrittenNumber

theorem TellsRadix.bounds {mark : List Char} {radix : Nat} (h : TellsRadix mark radix) :
    0 < radix ∧ radix ≤ 16 := by
  cases h <;> decide

/-- Decimal digits are not taken for a hexadecimal number, since no `x` is among them. -/
theorem readAddress_decimal {plus : Bool} {digits : List Char}
    (hdigits : ∀ d ∈ digits, Text.digitRank d < 10) :
    readAddress (Text.signText plus ++ digits)
      = Text.readUnsigned 10 65536 (Text.signText plus ++ digits) := by
  have hmark {x : Char} (hx : ¬ Text.digitRank x < 10) {rest : List Char} :
      Text.signText plus ++ digits ≠ '0' :: x :: rest := by
    intro hcs
    cases plus with
    | true => exact absurd (List.cons.inj hcs).1 (by decide)
    | false =>
      have hmem : x ∈ digits := by
        rw [show digits = '0' :: x :: rest from hcs]
        exact List.mem_cons_of_mem _ List.mem_cons_self
      exact hx (hdigits x hmem)
  unfold readAddress
  split
  · next hcs => exact absurd hcs (hmark (by decide))
  · next hcs => exact absurd hcs (hmark (by decide))
  · rfl

theorem readAddress_text (w : WrittenNumber) :
    readAddress w.text = Text.readUnsigned w.radix 65536 (Text.signText w.plus ++ w.digits) := by
  obtain ⟨mark, radix, tells, plus, digits, hne, hrank⟩ := w
  cases tells with
  | decimal => exact readAddress_decimal hrank
  | lowerHex => rfl
  | upperHex => rfl

theorem exists_readAddress (cs : List Char) : ∃ mark radix rest, TellsRadix mark radix ∧
    cs = mark ++ rest ∧ readAddress cs = Text.readUnsigned radix 65536 rest := by
  unfold readAddress
  split
  · exact ⟨_, _, _, .lowerHex, rfl, rfl⟩
  · exact ⟨_, _, _, .upperHex, rfl, rfl⟩
  · exact ⟨_, _, _, .decimal, rfl, rfl⟩

theorem readAddress_eq_ok_iff {cs : List Char} {n : Nat} :
    readAddress cs = .ok n ↔ ∃ w : WrittenNumber, cs = w.text ∧ w.value = n ∧ n < 65536 := by
  have hbound : 0 < 65536 := by decide
  constructor
  · intro h
    obtain ⟨mark, radix, rest, htells, rfl, hread⟩ := exists_readAddress cs
    obtain ⟨hpos, hr⟩ := htells.bounds
    rw [hread] at h
    obtain ⟨plus, digits, rfl, hne, hrank, hvalue⟩ :=
      (Text.readUnsigned_eq_ok_iff hr hpos hbound).mp h
    exact ⟨⟨mark, radix, htells, plus, digits, hne, hrank⟩, rfl, hvalue⟩
  · rintro ⟨w, rfl, hvalue⟩
    obtain ⟨hpos, hr⟩ := w.tells.bounds
    rw [readAddress_text, Text.readUnsigned_eq_ok_iff hr hpos hbound]
    exact ⟨w.plus, w.digits, rfl, w.nonempty, w.rank_lt, hvalue⟩

/-- A text denotes an address if without the white space around it it is a written number of 16
bits. -/
def Denotes (cs : List Char) (n : Nat) : Prop :=
  ∃ w : WrittenNumber, Text.Trims cs w.text ∧ w.value = n ∧ n ≤ 65535

theorem Denotes.le {cs : List Char} {n : Nat} (h : Denotes cs n) : n ≤ 65535 := by
  obtain ⟨-, -, -, hle⟩ := h
  exact hle

theorem denotes_iff {cs : List Char} {n : Nat} :
    Denotes cs n ↔ readAddress (Text.trim cs) = .ok n := by
  simp only [Denotes, readAddress_eq_ok_iff, Text.trim_eq_iff, Nat.lt_succ_iff]

theorem parseAddress_of_denotes {text : String} {n : Nat} (h : Denotes text.toList n) :
    parseAddress text = .ok (UInt16.ofNat n) := by
  rw [parseAddress, denotes_iff.mp h]

theorem parseAddress_of_not_denotes {text : String} (h : ∀ n, ¬ Denotes text.toList n) :
    ∃ reason, parseAddress text = .error ⟨String.ofList (Text.trim text.toList), reason⟩ := by
  cases hread : readAddress (Text.trim text.toList) with
  | ok n => exact absurd (denotes_iff.mpr hread) (h n)
  | error reason =>
    refine ⟨reason, ?_⟩
    rw [parseAddress, hread]

theorem parseAddress_eq_ok_iff {text : String} {a : UInt16} :
    parseAddress text = .ok a ↔ Denotes text.toList a.toNat := by
  constructor
  · intro h
    by_cases hdenotes : ∃ n, Denotes text.toList n
    · obtain ⟨n, hn⟩ := hdenotes
      have hle := hn.le
      rw [parseAddress_of_denotes hn] at h
      obtain rfl := Except.ok.inj h
      rwa [UInt16.toNat_ofNat', Nat.mod_eq_of_lt (by omega)]
    · obtain ⟨reason, herror⟩ := parseAddress_of_not_denotes (not_exists.mp hdenotes)
      cases herror.symm.trans h
  · intro h
    rw [parseAddress_of_denotes h, UInt16.ofNat_toNat]

/-- Which texts are addresses, and what is said of the others. -/
structure ReadsAddress (text : String) : Prop where
  accepted : ∀ a : UInt16, parseAddress text = .ok a ↔ Denotes text.toList a.toNat
  refused : (∃ e, parseAddress text = .error e) ↔ ∀ n, ¬ Denotes text.toList n
  quoted : ∀ e, parseAddress text = .error e → Text.Trims text.toList e.text.toList ∧
    e.message = "invalid address '" ++ e.text ++ "': " ++ e.reason.message

theorem readsAddress (text : String) : ReadsAddress text where
  accepted _ := parseAddress_eq_ok_iff
  refused := by
    constructor
    · rintro ⟨e, he⟩ n hn
      cases he.symm.trans (parseAddress_of_denotes hn)
    · intro h
      obtain ⟨reason, hreason⟩ := parseAddress_of_not_denotes h
      exact ⟨_, hreason⟩
  quoted e he := by
    refine ⟨?_, rfl⟩
    have hnone : ∀ n, ¬ Denotes text.toList n := by
      intro n hn
      cases he.symm.trans (parseAddress_of_denotes hn)
    obtain ⟨reason, hreason⟩ := parseAddress_of_not_denotes hnone
    obtain rfl := Except.error.inj (he.symm.trans hreason)
    rw [String.toList_ofList]
    exact Text.trims_trim text.toList

theorem exists_colon_or_not_mem (cs : List Char) :
    (∃ before behind, cs = before ++ ':' :: behind ∧ ':' ∉ before) ∨ ':' ∉ cs := by
  by_cases h : ':' ∈ cs
  · exact .inl (List.eq_append_cons_of_mem h)
  · exact .inr h

theorem parseRange_of_no_colon {text : String} (h : ':' ∉ text.toList) :
    parseRange text = .error (.noColon text) := by
  have hdrop : text.toList.dropWhile (· != ':') = [] := by
    apply List.dropWhile_eq_nil_iff.mpr
    intro c hc
    exact bne_iff_ne.mpr fun heq => h (heq ▸ hc)
  unfold parseRange
  rw [hdrop]

/-- A range is read in two parts, the start before the length. -/
theorem parseRange_of_colon {text : String} {before behind : List Char}
    (htext : text.toList = before ++ ':' :: behind) (hbefore : ':' ∉ before) :
    parseRange text = (do
      let start ← (parseAddress (String.ofList before)).mapError RangeError.address
      let length ← (parseAddress (String.ofList behind)).mapError RangeError.address
      return { start, length := length.toNat }) := by
  have hall : ∀ c ∈ before, (c != ':') = true := fun c hc =>
    bne_iff_ne.mpr fun heq => hbefore (heq ▸ hc)
  unfold parseRange
  rw [htext, List.takeWhile_append_of_pos hall, List.dropWhile_append_of_pos hall,
    List.takeWhile_cons_of_neg (by decide), List.dropWhile_cons_of_neg (by decide), List.append_nil]

section

variable {text : String} {before behind : List Char}
  (htext : text.toList = before ++ ':' :: behind) (hbefore : ':' ∉ before)

include htext hbefore

theorem parseRange_of_ok {a b : UInt16} (ha : parseAddress (String.ofList before) = .ok a)
    (hb : parseAddress (String.ofList behind) = .ok b) :
    parseRange text = .ok ⟨a, b.toNat⟩ := by
  rw [parseRange_of_colon htext hbefore, ha, hb]
  rfl

theorem parseRange_of_bad_start {e : AddressError}
    (he : parseAddress (String.ofList before) = .error e) :
    parseRange text = .error (.address e) := by
  rw [parseRange_of_colon htext hbefore, he]
  rfl

theorem parseRange_of_bad_length {a : UInt16} {e : AddressError}
    (ha : parseAddress (String.ofList before) = .ok a)
    (he : parseAddress (String.ofList behind) = .error e) :
    parseRange text = .error (.address e) := by
  rw [parseRange_of_colon htext hbefore, ha, he]
  rfl

end

theorem parseRange_eq_ok_iff {text : String} {r : MemoryRange} :
    parseRange text = .ok r ↔ ∃ before behind, text.toList = before ++ ':' :: behind ∧
      ':' ∉ before ∧ Denotes before r.start.toNat ∧ Denotes behind r.length := by
  have hdenotes {cs : List Char} {n : Nat} (h : Denotes cs n) :
      parseAddress (String.ofList cs) = .ok (UInt16.ofNat n) :=
    parseAddress_of_denotes (by rwa [String.toList_ofList])
  have hread {cs : List Char} {a : UInt16} (h : parseAddress (String.ofList cs) = .ok a) :
      Denotes cs a.toNat := by
    have ha := parseAddress_eq_ok_iff.mp h
    rwa [String.toList_ofList] at ha
  constructor
  · intro h
    rcases exists_colon_or_not_mem text.toList with ⟨before, behind, htext, hbefore⟩ | hcolon
    · refine ⟨before, behind, htext, hbefore, ?_⟩
      cases ha : parseAddress (String.ofList before) with
      | error e => cases h.symm.trans (parseRange_of_bad_start htext hbefore ha)
      | ok a =>
        cases hb : parseAddress (String.ofList behind) with
        | error e => cases h.symm.trans (parseRange_of_bad_length htext hbefore ha hb)
        | ok b =>
          obtain rfl := Except.ok.inj (h.symm.trans (parseRange_of_ok htext hbefore ha hb))
          exact ⟨hread ha, hread hb⟩
    · cases h.symm.trans (parseRange_of_no_colon hcolon)
  · rintro ⟨before, behind, htext, hbefore, hstart, hlength⟩
    have hle := hlength.le
    rw [parseRange_of_ok htext hbefore (hdenotes hstart) (hdenotes hlength), UInt16.ofNat_toNat,
      UInt16.toNat_ofNat', Nat.mod_eq_of_lt (by omega)]

/-- Which texts are ranges, and what is said of the others. -/
structure ReadsRange (text : String) : Prop where
  accepted : ∀ r, parseRange text = .ok r ↔
    ∃ before behind, text.toList = before ++ ':' :: behind ∧ ':' ∉ before ∧
      Denotes before r.start.toNat ∧ Denotes behind r.length
  no_colon : ':' ∉ text.toList → parseRange text = .error (.noColon text)
  start_first : ∀ before behind e, text.toList = before ++ ':' :: behind → ':' ∉ before →
    parseAddress (String.ofList before) = .error e → parseRange text = .error (.address e)
  length_second : ∀ before behind a e, text.toList = before ++ ':' :: behind → ':' ∉ before →
    parseAddress (String.ofList before) = .ok a →
    parseAddress (String.ofList behind) = .error e → parseRange text = .error (.address e)

theorem readsRange (text : String) : ReadsRange text where
  accepted _ := parseRange_eq_ok_iff
  no_colon := parseRange_of_no_colon
  start_first _ _ _ htext hbefore := parseRange_of_bad_start htext hbefore
  length_second _ _ _ _ htext hbefore := parseRange_of_bad_length htext hbefore

/-- The ways to print an address: in decimal, or behind `0x` in hexadecimal digits of either case,
filled up with zeros to any width. -/
inductive Prints (a : UInt16) : String → Prop
  | decimal : Prints a (Text.decimal a.toNat)
  | lowerHex (width : Nat) : Prints a ("0x" ++ Text.lowerHex width a.toNat)
  | upperHex (width : Nat) : Prints a ("0x" ++ Text.upperHex width a.toNat)

theorem TellsRadix.mem {mark : List Char} {radix : Nat} (h : TellsRadix mark radix) (plus : Bool) :
    ∀ c ∈ mark ++ Text.signText plus, c = '+' ∨ c.isAlphanum = true := by
  have hall : (mark ++ Text.signText plus).all (fun c => c == '+' || c.isAlphanum) = true := by
    cases h <;> cases plus <;> rfl
  intro c hc
  have hkind := List.all_eq_true.mp hall c hc
  rwa [Bool.or_eq_true, beq_iff_eq] at hkind

namespace WrittenNumber

theorem mem_text (w : WrittenNumber) {c : Char} (h : c ∈ w.text) :
    c = '+' ∨ c.isAlphanum = true := by
  rw [text, ← List.append_assoc, List.mem_append] at h
  rcases h with h | h
  · exact w.tells.mem w.plus c h
  · have hrank := Nat.lt_of_lt_of_le (w.rank_lt c h) w.tells.bounds.2
    exact .inr (Text.isAlphanum_of_digitRank_lt hrank)

theorem isBlank_of_mem_text (w : WrittenNumber) {c : Char} (h : c ∈ w.text) :
    Text.isBlank c = false := by
  rcases w.mem_text h with rfl | hc
  · rfl
  · exact Text.isBlank_of_isAlphanum hc

/-- There is nothing around a written number to take away. -/
theorem trims_text (w : WrittenNumber) : Text.Trims w.text w.text where
  inside := ⟨[], [], by rw [List.nil_append, List.append_nil], nofun, nofun⟩
  first _ hc := w.isBlank_of_mem_text (List.mem_of_mem_head? hc)
  last _ hc := w.isBlank_of_mem_text (List.mem_of_getLast? hc)

theorem colon_not_mem_text (w : WrittenNumber) : ':' ∉ w.text := by
  intro h
  exact absurd (w.mem_text h) (by decide)

theorem denotes_text (w : WrittenNumber) (h : w.value ≤ 65535) : Denotes w.text w.value :=
  ⟨w, w.trims_text, rfl, h⟩

end WrittenNumber

/-- Hexadecimal digits behind `0x` are a written number, however many zeros fill them up. -/
theorem exists_written_hex {f : Char → Char}
    (hf : ∀ v < 16, Text.digitRank (f (Nat.digitChar v)) = v) (width n : Nat) : ∃ w : WrittenNumber,
      w.text = '0' :: 'x' :: ((Nat.toDigits 16 n).map f).leftpad width '0' ∧ w.value = n := by
  obtain ⟨hrank, hvalue⟩ := Text.numeralValue_map_toDigits (by decide) hf n
  have hne : ((Nat.toDigits 16 n).map f).leftpad width '0' ≠ [] := by
    simp [List.leftpad, Nat.toDigits_ne_nil]
  have hpadded : ∀ d ∈ ((Nat.toDigits 16 n).map f).leftpad width '0', Text.digitRank d < 16 := by
    intro d hd
    rcases List.mem_append.mp hd with hd | hd
    · rw [List.eq_of_mem_replicate hd]
      decide
    · exact hrank d hd
  refine ⟨⟨_, 16, .lowerHex, false, _, hne, hpadded⟩, rfl, ?_⟩
  exact (Text.numeralValue_leftpad 16 width _).trans hvalue

/-- What is printed is a written number. -/
theorem exists_written_of_prints {a : UInt16} {s : String} (h : Prints a s) :
    ∃ w : WrittenNumber, s.toList = w.text ∧ w.value = a.toNat := by
  have hmark : "0x".toList = ['0', 'x'] := by decide
  cases h with
  | decimal =>
    have hdigit : ∀ v < 10, Text.digitRank (id (Nat.digitChar v)) = v := by decide
    obtain ⟨hrank, hvalue⟩ := Text.numeralValue_map_toDigits (by decide) hdigit a.toNat
    rw [List.map_id] at hrank hvalue
    refine ⟨⟨[], 10, .decimal, false, _, Nat.toDigits_ne_nil, hrank⟩, ?_, hvalue⟩
    rw [Text.decimal, String.toList_ofList]
    rfl
  | lowerHex width =>
    have hdigit : ∀ v < 16, Text.digitRank (id (Nat.digitChar v)) = v := by decide
    obtain ⟨w, htext, hvalue⟩ := exists_written_hex hdigit width a.toNat
    refine ⟨w, ?_, hvalue⟩
    rw [htext, String.toList_append, hmark, Text.lowerHex, String.toList_ofList, List.map_id]
    rfl
  | upperHex width =>
    have hdigit : ∀ v < 16, Text.digitRank (Nat.digitChar v).toUpper = v := by decide
    obtain ⟨w, htext, hvalue⟩ := exists_written_hex hdigit width a.toNat
    refine ⟨w, ?_, hvalue⟩
    rw [htext, String.toList_append, hmark, Text.upperHex, String.toList_ofList]
    rfl

theorem denotes_of_prints {a : UInt16} {s : String} (h : Prints a s) :
    Denotes s.toList a.toNat ∧ ':' ∉ s.toList := by
  obtain ⟨w, htext, hvalue⟩ := exists_written_of_prints h
  have hlt := a.toNat_lt
  rw [htext, ← hvalue]
  exact ⟨w.denotes_text (by omega), w.colon_not_mem_text⟩

/-- An address that is printed is read back, and so are two with a colon between them. -/
structure PrintsBack (a b : UInt16) : Prop where
  address : ∀ s, Prints a s → parseAddress s = .ok a
  range : ∀ s t, Prints a s → Prints b t → parseRange (s ++ ":" ++ t) = .ok ⟨a, b.toNat⟩

theorem printsBack (a b : UInt16) : PrintsBack a b where
  address s hs := parseAddress_eq_ok_iff.mpr (denotes_of_prints hs).1
  range s t hs ht := by
    obtain ⟨hstart, hcolon⟩ := denotes_of_prints hs
    have hmark : ":".toList = [':'] := by decide
    apply parseRange_eq_ok_iff.mpr
    refine ⟨s.toList, t.toList, ?_, hcolon, hstart, (denotes_of_prints ht).1⟩
    rw [String.toList_append, String.toList_append, hmark, List.append_assoc]
    rfl

/-- Addresses and ranges are read from the texts that denote them and from no others, and what is no
address is quoted without the white space around it. What is printed is read back. -/
theorem addresses_read_exactly (text : String) (a b : UInt16) :
    ReadsAddress text ∧ ReadsRange text ∧ PrintsBack a b :=
  ⟨readsAddress text, readsRange text, printsBack a b⟩

/-- White space does not matter around either part of a range, and a sign stands behind the mark of
the radix. -/
example : parseRange " 0X+00f0 :16\t" = .ok ⟨0xF0, 16⟩ := by
  decide

end Console

end ByteMachine
