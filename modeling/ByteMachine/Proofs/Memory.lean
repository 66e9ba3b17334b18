import ByteMachine.Machine.Memory

namespace ByteMachine

theorem wordOfBytes_zero (b : UInt8) : wordOfBytes b 0 = b.toUInt16 <<< 8 := by
  have hb := b.toNat_lt
  apply UInt16.toNat_inj.mp
  simp [toNat_wordOfBytes, Nat.shiftLeft_eq]
  omega

theorem toNat_sub_one_of_lt {a b : UInt16} (h : a < b) : (b - 1).toNat + 1 = b.toNat := by
  have hab := UInt16.lt_iff_toNat_lt.mp h
  have h1 : (1 : UInt16).toNat = 1 := rfl
  have hb : (1 : UInt16) ≤ b := by
    rw [UInt16.le_iff_toNat_le, h1]
    omega
  rw [UInt16.toNat_sub_of_le _ _ hb, h1]
  omega

theorem toNat_add_one_of_lt {a b : UInt16} (h : a < b) : (a + 1).toNat = a.toNat + 1 := by
  have hab := UInt16.lt_iff_toNat_lt.mp h
  have hb := b.toNat_lt
  have h1 : (1 : UInt16).toNat = 1 := rfl
  rw [UInt16.toNat_add, h1]
  omega

theorem add_one_ne (a : UInt16) : a + 1 ≠ a := by
  intro heq
  have heq' := congrArg UInt16.toNat heq
  simp only [UInt16.toNat_add, UInt16.reduceToNat] at heq'
  have ha := a.toNat_lt
  omega

namespace Memory

/-- The word at an address and the one after it, counted round the end of memory. -/
def wordAt (m : Memory) (address : UInt16) : UInt16 :=
  wordOfBytes (m.read address) (m.read (address + 1))

theorem read_write (m : Memory) (a : UInt16) (value : UInt8) (b : UInt16) :
    (m.write a value).read b = if b = a then value else m.read b := by
  split
  · next h => rw [h, read_write_self]
  · next h => rw [read_write_of_ne m value (Ne.symm h)]

/-- Memory is nothing but the bytes at its addresses. -/
theorem ext_read {m m' : Memory} (h : ∀ address, m.read address = m'.read address) : m = m' := by
  have hbytes : m.bytes = m'.bytes := by
    apply Vector.ext
    intro k hk
    have hsize : memorySize = 65536 := rfl
    have haddress : (UInt16.ofNat k).toNat = k := by
      rw [UInt16.toNat_ofNat']
      omega
    have hread := h (UInt16.ofNat k)
    simpa only [read, haddress] using hread
  cases m
  cases m'
  exact congrArg Memory.mk hbytes

theorem read_zero (address : UInt16) : zero.read address = 0 := by
  simp [zero, read]

theorem readWord?_last (m : Memory) : m.readWord? 0xFFFF = none :=
  rfl

theorem readWord?_of_ne_last (m : Memory) {address : UInt16} (h : address ≠ 0xFFFF) :
    m.readWord? address = some (m.wordAt address) := by
  rw [readWord?, next?, if_neg h]
  rfl

theorem length_slice (m : Memory) {start length : Nat} (h : start + length ≤ memorySize) :
    (m.slice start length).length = length := by
  simp only [slice, Array.length_toList, Array.size_extract, Vector.size_toArray]
  omega

theorem getElem_slice (m : Memory) {start length i : Nat} (hi : i < (m.slice start length).length)
    (address : UInt16) (ha : address.toNat = start + i) :
    (m.slice start length)[i] = m.read address := by
  simp only [slice, Array.getElem_toList, Array.getElem_extract, Vector.getElem_toArray, read, ha]

theorem slice_succ (m : Memory) (start : UInt16) (length : Nat) :
    m.slice start.toNat (length + 1) = m.read start :: m.slice (start.toNat + 1) length := by
  have hs : start.toNat < memorySize := start.toNat_lt
  have hsize : m.bytes.toArray.size = memorySize := m.bytes.size_toArray
  have hlen : (m.slice start.toNat (length + 1)).length
      = (m.read start :: m.slice (start.toNat + 1) length).length := by
    simp only [slice, List.length_cons, Array.length_toList, Array.size_extract, hsize]
    omega
  apply List.ext_getElem hlen
  intro i hi hi'
  cases i with
  | zero => exact getElem_slice m hi start rfl
  | succ i =>
    simp only [slice, Array.getElem_toList, Array.getElem_extract, List.getElem_cons_succ]
    congr 1
    omega

theorem slice_write_of_outside (m : Memory) {address : UInt16} (value : UInt8) {start length : Nat}
    (h : address.toNat < start ∨ start + length ≤ address.toNat) :
    (m.write address value).slice start length = m.slice start length := by
  apply List.ext_getElem
  · simp [slice, write]
  · intro i hi hi'
    simp only [slice, Array.length_toList, Array.size_extract] at hi
    simp only [slice, write, Array.getElem_toList, Array.getElem_extract, Vector.getElem_toArray]
    exact Vector.getElem_set_ne _ _ (by omega)

theorem wordAt_write_of_ne (m : Memory) {address a : UInt16} (value : UInt8) (h : a ≠ address)
    (h' : a ≠ address + 1) : (m.write a value).wordAt address = m.wordAt address := by
  rw [wordAt, read_write_of_ne m value h, read_write_of_ne m value h', wordAt]

/-- Words change no byte but those that they are written to. -/
theorem read_putWords_of_ne (m : Memory) {words : List UInt16} {base address : UInt16}
    (h : ∀ n < words.length * 2, address ≠ base + UInt16.ofNat n) :
    (m.putWords base words).read address = m.read address := by
  induction words generalizing m base with
  | nil => rfl
  | cons word words ih =>
    rw [List.length_cons] at h
    have hbehind : ∀ n < words.length * 2, address ≠ base + 2 + UInt16.ofNat n := by
      intro n hn
      have hne := h (n + 2) (by omega)
      rwa [UInt16.ofNat_add, UInt16.add_comm (UInt16.ofNat n), ← UInt16.add_assoc] at hne
    have hfirst : address ≠ base + 0 := h 0 (by omega)
    have hsecond : address ≠ base + 1 := h 1 (by omega)
    rw [UInt16.add_zero] at hfirst
    rw [putWords, ih _ hbehind, read_write_of_ne _ _ hsecond.symm,
      read_write_of_ne _ _ hfirst.symm]

/-- Words that have room in memory stand where they were put, counted round its end. -/
theorem wordAt_putWords (m : Memory) {words : List UInt16} (h : words.length * 2 ≤ memorySize)
    (base : UInt16) {k : Nat} (hk : k < words.length) :
    (m.putWords base words).wordAt (base + UInt16.ofNat k * 2) = words[k] := by
  induction words generalizing m base k with
  | nil => exact absurd hk (Nat.not_lt_zero k)
  | cons word words ih =>
    have hsize : memorySize = 65536 := rfl
    rw [List.length_cons] at h hk
    cases k with
    | zero =>
      have hkeep (offset : UInt16) (hoffset : offset.toNat < 2) :
          ∀ n < words.length * 2, base + offset ≠ base + 2 + UInt16.ofNat n := by
        intro n hn heq
        have heq' := congrArg UInt16.toNat heq
        simp only [UInt16.toNat_add, UInt16.toNat_ofNat', UInt16.reduceToNat] at heq'
        have hbase := base.toNat_lt
        omega
      let written := (m.write base (highByte word)).write (base + 1) (lowByte word)
      have hhigh : (written.putWords (base + 2) words).read base = highByte word := by
        have hread := read_putWords_of_ne written (hkeep 0 (by decide))
        rw [UInt16.add_zero] at hread
        rw [hread, read_write_of_ne _ _ (add_one_ne base), read_write_self]
      have hlow : (written.putWords (base + 2) words).read (base + 1) = lowByte word := by
        rw [read_putWords_of_ne written (hkeep 1 (by decide)), read_write_self]
      have hfirst : base + UInt16.ofNat 0 * 2 = base := UInt16.add_zero base
      rw [hfirst, putWords, wordAt, hhigh, hlow, wordOfBytes_highByte_lowByte,
        List.getElem_cons_zero]
    | succ k =>
      have hbase : base + UInt16.ofNat (k + 1) * 2 = base + 2 + UInt16.ofNat k * 2 := by
        apply UInt16.toNat_inj.mp
        simp only [UInt16.toNat_add, UInt16.toNat_mul, UInt16.toNat_ofNat', UInt16.reduceToNat]
        omega
      rw [hbase, putWords]
      exact ih _ (by omega) _ (by omega)

end Memory

end ByteMachine
