import ByteMachine.Flags

namespace ByteMachine

/-- The place of a flag in the flags byte, counted from the lowest bit. -/
def Flag.position : Flag → Nat
  | carry => 0
  | zero => 1
  | overflow => 2
  | negative => 3
  | halt => 4

namespace Flags

theorem and_bit_ne_zero {bit : UInt8} {n : Nat} (hbit : bit.toBitVec = BitVec.twoPow 8 n)
    (hn : n < 8) (b : UInt8) : (b &&& bit != 0) = b.toBitVec.getLsbD n := by
  have hmasked : (b &&& bit).toBitVec
      = if b.toBitVec.getLsbD n then BitVec.twoPow 8 n else 0 := by
    rw [UInt8.toBitVec_and, hbit, BitVec.and_twoPow]
    rfl
  have hne : BitVec.twoPow 8 n ≠ 0 := by
    intro heq
    have hget := congrArg (fun v : BitVec 8 => v.getLsbD n) heq
    simp [hn] at hget
  rw [Bool.eq_iff_iff, bne_iff_ne, ne_eq, ← UInt8.toBitVec_inj, hmasked]
  cases b.toBitVec.getLsbD n with
  | true => simpa using hne
  | false => simp

theorem toBitVec_bit (flag : Flag) : flag.bit.toBitVec = BitVec.twoPow 8 flag.position := by
  cases flag <;> rfl

theorem isSet_eq_getLsbD (f : Flags) (flag : Flag) :
    f.isSet flag = f.bits.toBitVec.getLsbD flag.position := by
  apply and_bit_ne_zero (toBitVec_bit flag)
  cases flag <;> decide

theorem isSet_set (f : Flags) (flag flag' : Flag) :
    (f.set flag).isSet flag' = (decide (flag = flag') || f.isSet flag') := by
  rw [isSet_eq_getLsbD, isSet_eq_getLsbD, set, UInt8.toBitVec_or, BitVec.getLsbD_or, toBitVec_bit,
    BitVec.getLsbD_twoPow]
  cases flag <;> cases flag' <;> simp [Flag.position]

theorem isSet_set_halt (f : Flags) : (f.set .halt).isSet .halt = true := by
  rw [isSet_set, decide_eq_true rfl, Bool.true_or]

theorem isSet_clear (f : Flags) (flag flag' : Flag) :
    (f.clear flag).isSet flag' = (!decide (flag = flag') && f.isSet flag') := by
  rw [isSet_eq_getLsbD, isSet_eq_getLsbD, clear, UInt8.toBitVec_and, BitVec.getLsbD_and,
    UInt8.toBitVec_not, BitVec.getLsbD_not, toBitVec_bit, BitVec.getLsbD_twoPow]
  cases flag <;> cases flag' <;> simp [Flag.position]

theorem isSet_assign (f : Flags) (flag : Flag) (on : Bool) (flag' : Flag) :
    (f.assign flag on).isSet flag' = if flag = flag' then on else f.isSet flag' := by
  cases on with
  | true =>
    rw [assign, if_pos rfl, isSet_set]
    by_cases h : flag = flag' <;> simp [h]
  | false =>
    rw [assign, if_neg Bool.false_ne_true, isSet_clear]
    by_cases h : flag = flag' <;> simp [h]

theorem top_bit (b : UInt8) : (b &&& 0x80 != 0) = decide (128 ≤ b.toNat) := by
  have htop : (0x80 : UInt8).toBitVec = BitVec.twoPow 8 7 := rfl
  calc (b &&& 0x80 != 0) = b.toBitVec.getLsbD 7 := and_bit_ne_zero htop (by decide) b
    _ = b.toBitVec.msb := (BitVec.msb_eq_getLsbD_last b.toBitVec).symm
    _ = decide (128 ≤ b.toNat) := BitVec.msb_eq_decide b.toBitVec

theorem isSet_ofResult (f : Flags) (value : UInt8) (flag : Flag) :
    (f.ofResult value).isSet flag =
      match flag with
      | .zero => decide (value.toNat = 0)
      | .negative => decide (128 ≤ value.toNat)
      | flag => f.isSet flag := by
  have hzero : (value == 0) = decide (value.toNat = 0) := by
    rw [Bool.eq_iff_iff, beq_iff_eq, decide_eq_true_iff, ← UInt8.toNat_inj]
    rfl
  rw [ofResult, isSet_assign, isSet_assign, hzero, top_bit]
  cases flag <;> rfl

/-- A flags byte is its five flags and the three bits without a name. -/
theorem ext_isSet {f g : Flags} (h : ∀ flag, f.isSet flag = g.isSet flag)
    (hspare : f.bits &&& 0xE0 = g.bits &&& 0xE0) : f = g := by
  have hnamed (flag : Flag) :
      f.bits.toBitVec.getLsbD flag.position = g.bits.toBitVec.getLsbD flag.position := by
    rw [← isSet_eq_getLsbD, ← isSet_eq_getLsbD]
    exact h flag
  have hother (n : Nat) (hn : (0xE0 : UInt8).toBitVec.getLsbD n = true) :
      f.bits.toBitVec.getLsbD n = g.bits.toBitVec.getLsbD n := by
    have hget := congrArg (fun b : UInt8 => b.toBitVec.getLsbD n) hspare
    simpa only [UInt8.toBitVec_and, BitVec.getLsbD_and, hn, Bool.and_true] using hget
  have hbits : f.bits.toBitVec = g.bits.toBitVec := by
    apply BitVec.eq_of_getLsbD_eq
    intro n hn
    match n, hn with
    | 0, _ => exact hnamed .carry
    | 1, _ => exact hnamed .zero
    | 2, _ => exact hnamed .overflow
    | 3, _ => exact hnamed .negative
    | 4, _ => exact hnamed .halt
    | 5, _ => exact hother 5 rfl
    | 6, _ => exact hother 6 rfl
    | 7, _ => exact hother 7 rfl
  obtain ⟨b⟩ := f
  obtain ⟨b'⟩ := g
  exact congrArg Flags.mk (UInt8.toBitVec_inj.mp hbits)

/-- The halt flag and the three bits without a name, which no result touches. -/
def upper (f : Flags) : UInt8 :=
  f.bits &&& 0xF0

theorem or_and (a b mask : UInt8) : (a ||| b) &&& mask = (a &&& mask) ||| (b &&& mask) := by
  apply UInt8.eq_of_toBitVec_eq
  simp only [UInt8.toBitVec_and, UInt8.toBitVec_or]
  exact BitVec.and_or_distrib_right

theorem upper_set_halt (f : Flags) : (f.set .halt).upper = f.upper ||| 0x10 :=
  or_and f.bits 0x10 0xF0

theorem upper_set (f : Flags) {flag : Flag} (h : flag ≠ .halt) : (f.set flag).upper = f.upper := by
  have hbit : flag.bit &&& 0xF0 = 0 := by
    cases flag with
    | halt => exact absurd rfl h
    | _ => rfl
  rw [upper, set, or_and, hbit, UInt8.or_zero, upper]

theorem upper_clear (f : Flags) {flag : Flag} (h : flag ≠ .halt) :
    (f.clear flag).upper = f.upper := by
  have hbit : ~~~flag.bit &&& 0xF0 = 0xF0 := by
    cases flag with
    | halt => exact absurd rfl h
    | _ => rfl
  rw [upper, clear, UInt8.and_assoc, hbit, upper]

theorem upper_assign (f : Flags) {flag : Flag} (h : flag ≠ .halt) (on : Bool) :
    (f.assign flag on).upper = f.upper := by
  cases on with
  | true => exact f.upper_set h
  | false => exact f.upper_clear h

theorem upper_ofResult (f : Flags) (value : UInt8) : (f.ofResult value).upper = f.upper := by
  rw [ofResult, upper_assign _ (by decide), upper_assign _ (by decide)]

theorem isSet_halt (f : Flags) : f.isSet .halt = (f.upper &&& 0x10 != 0) := by
  rw [upper, UInt8.and_assoc]
  rfl

theorem spare_bits (f : Flags) : f.bits &&& 0xE0 = f.upper &&& 0xE0 := by
  rw [upper, UInt8.and_assoc]
  rfl

end Flags

end ByteMachine
