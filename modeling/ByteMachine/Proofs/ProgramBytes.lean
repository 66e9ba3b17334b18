import ByteMachine.Proofs.Image

namespace ByteMachine

namespace Program

variable {base : UInt16} {bytes : List UInt8} {p : Program}

theorem length_toBytes (p : Program) : p.toBytes.length = p.byteLength :=
  length_bytesOfWords p.code

theorem ofBytes_of_odd (h : bytes.length % 2 ≠ 0) :
    ofBytes base bytes = .error (.oddImageLength bytes.length) :=
  if_pos h

theorem fits_wordsOfBytes_iff (heven : bytes.length % 2 = 0) :
    Fits base (wordsOfBytes bytes) ↔ base.toNat + bytes.length ≤ memorySize := by
  rw [Fits, length_wordsOfBytes, Nat.div_mul_cancel (Nat.dvd_of_mod_eq_zero heven)]

theorem ofBytes_of_room (heven : bytes.length % 2 = 0)
    (hroom : base.toNat + bytes.length ≤ memorySize) :
    ofBytes base bytes = .ok ⟨base, wordsOfBytes bytes⟩ := by
  have hvalid : validate ⟨base, wordsOfBytes bytes⟩ = .ok () :=
    validate_of_fits ((fits_wordsOfBytes_iff heven).mpr hroom)
  rw [ofBytes, if_neg (not_not_intro heven)]
  dsimp only
  rw [hvalid]
  rfl

theorem ofBytes_of_no_room (heven : bytes.length % 2 = 0)
    (hroom : ¬ base.toNat + bytes.length ≤ memorySize) :
    ofBytes base bytes = .error (.programTooLarge base (bytes.length / 2)) := by
  have hvalid : validate ⟨base, wordsOfBytes bytes⟩
      = .error (.programTooLarge base (wordsOfBytes bytes).length) :=
    validate_of_not_fits fun h => hroom ((fits_wordsOfBytes_iff heven).mp h)
  rw [length_wordsOfBytes] at hvalid
  rw [ofBytes, if_neg (not_not_intro heven)]
  dsimp only
  rw [hvalid]
  rfl

theorem exists_ofBytes_iff (base : UInt16) (bytes : List UInt8) :
    (∃ p, ofBytes base bytes = .ok p) ↔
      bytes.length % 2 = 0 ∧ base.toNat + bytes.length ≤ memorySize := by
  constructor
  · rintro ⟨p, hp⟩
    by_cases heven : bytes.length % 2 = 0
    · by_cases hroom : base.toNat + bytes.length ≤ memorySize
      · exact ⟨heven, hroom⟩
      · rw [ofBytes_of_no_room heven hroom] at hp
        cases hp
    · rw [ofBytes_of_odd heven] at hp
      cases hp
  · rintro ⟨heven, hroom⟩
    exact ⟨_, ofBytes_of_room heven hroom⟩

theorem ofBytes_toBytes_iff (p : Program) :
    ofBytes p.base p.toBytes = .ok p ↔ p.validate = .ok () := by
  rw [validate_eq_ok_iff_fits]
  constructor
  · exact fits_of_ofBytes
  · exact ofBytes_toBytes_of_fits

/-- What is read from an image is the program at its base that has these bytes. -/
theorem ofBytes_eq_ok_iff (p : Program) :
    ofBytes base bytes = .ok p ↔ p.base = base ∧ p.toBytes = bytes ∧ p.validate = .ok () := by
  constructor
  · intro hp
    obtain ⟨heven, hroom⟩ := (exists_ofBytes_iff base bytes).mp ⟨p, hp⟩
    have hfits := (validate_eq_ok_iff_fits p).mpr (fits_of_ofBytes hp)
    rw [ofBytes_of_room heven hroom] at hp
    obtain rfl := Except.ok.inj hp
    exact ⟨rfl, bytesOfWords_wordsOfBytes heven, hfits⟩
  · rintro ⟨rfl, rfl, hvalid⟩
    exact (ofBytes_toBytes_iff p).mpr hvalid

/-- Which bytes are an image at a base, what is read from them, and why others are refused. -/
structure ReadsImage (base : UInt16) (bytes : List UInt8) : Prop where
  accepted : (∃ p, ofBytes base bytes = .ok p) ↔
    bytes.length % 2 = 0 ∧ base.toNat + bytes.length ≤ memorySize
  program : ∀ p, ofBytes base bytes = .ok p ↔
    p.base = base ∧ p.toBytes = bytes ∧ p.validate = .ok ()
  words : ∀ p, ofBytes base bytes = .ok p → p.code.length = bytes.length / 2
  odd : bytes.length % 2 ≠ 0 → ofBytes base bytes = .error (.oddImageLength bytes.length)
  too_large : bytes.length % 2 = 0 → memorySize < base.toNat + bytes.length →
    ofBytes base bytes = .error (.programTooLarge base (bytes.length / 2))

/-- What the image of a program is, and when it is read back. -/
structure WritesImage (p : Program) : Prop where
  length : p.toBytes.length = p.byteLength
  word : ∀ k (hk : k < p.code.length), ∃ hi lo, p.toBytes[2 * k]? = some hi ∧
    p.toBytes[2 * k + 1]? = some lo ∧ p.code[k].toNat = hi.toNat * 256 + lo.toNat
  read_back : ofBytes p.base p.toBytes = .ok p ↔ p.validate = .ok ()

theorem readsImage (base : UInt16) (bytes : List UInt8) : ReadsImage base bytes where
  accepted := exists_ofBytes_iff base bytes
  program := ofBytes_eq_ok_iff
  words p hp := by
    obtain ⟨-, rfl, -⟩ := (ofBytes_eq_ok_iff p).mp hp
    rw [length_toBytes, byteLength]
    omega
  odd := ofBytes_of_odd
  too_large heven hlarge := ofBytes_of_no_room heven (Nat.not_le.mpr hlarge)

theorem writesImage (p : Program) : p.WritesImage where
  length := p.length_toBytes
  word k hk := by
    obtain ⟨hhigh, hlow⟩ := getElem?_bytesOfWords p.code k
    rw [List.getElem?_eq_getElem hk] at hhigh hlow
    refine ⟨_, _, hhigh, hlow, ?_⟩
    rw [toNat_highByte, toNat_lowByte]
    omega
  read_back := p.ofBytes_toBytes_iff

/-- Images are the bytes of programs that have room, and each is read as the program it was made
from. An odd length is reported first, then a lack of room. -/
theorem image_exact (base : UInt16) (bytes : List UInt8) (p : Program) :
    ReadsImage base bytes ∧ p.WritesImage :=
  ⟨readsImage base bytes, p.writesImage⟩

/-- Three bytes at the last address are an odd image before they are too large a one. -/
example : ofBytes 0xFFFF [0x20, 0x12, 0xF0] = .error (.oddImageLength 3) :=
  rfl

end Program

namespace Memory

/-- Words that have room in memory take the bytes of their image. -/
theorem slice_putWords (m : Memory) {base : UInt16} {words : List UInt16}
    (h : Program.Fits base words) :
    (m.putWords base words).slice base.toNat (2 * words.length) = bytesOfWords words := by
  have hroom := Program.fits_iff.mp h
  have hlength := (m.putWords base words).length_slice hroom
  apply List.ext_getElem
  · rw [hlength, length_bytesOfWords, Nat.mul_comm]
  intro n hn hn'
  obtain ⟨k, hk⟩ : ∃ k, n = 2 * k ∨ n = 2 * k + 1 := ⟨n / 2, by omega⟩
  have hlt : k < words.length := by omega
  have haddress : (base + UInt16.ofNat k * 2).toNat = base.toNat + 2 * k :=
    Program.toNat_addressOf (p := ⟨base, words⟩) h hlt
  have hword := m.wordAt_putWords (Nat.le_trans (Nat.le_add_left _ _) h) base hlt
  obtain ⟨hhigh, hlow⟩ := getElem?_bytesOfWords words k
  rw [List.getElem?_eq_getElem hlt, ← hword, Option.map_some, wordAt] at hhigh hlow
  apply Option.some.inj
  rw [← List.getElem?_eq_getElem hn']
  rcases hk with rfl | rfl
  · rw [hhigh, highByte_wordOfBytes, getElem_slice _ hn _ haddress]
  · have hone : (1 : UInt16).toNat = 1 := rfl
    have hnext : (base + UInt16.ofNat k * 2 + 1).toNat = base.toNat + (2 * k + 1) := by
      have hsize : memorySize = 65536 := rfl
      rw [UInt16.toNat_add, haddress, hone]
      omega
    rw [hlow, lowByte_wordOfBytes, getElem_slice _ hn _ hnext]

/-- Words that have room in memory change no byte before them and none behind them. -/
theorem read_putWords_of_outside (m : Memory) {base address : UInt16} {words : List UInt16}
    (h : Program.Fits base words)
    (houtside : address.toNat < base.toNat ∨ base.toNat + 2 * words.length ≤ address.toNat) :
    (m.putWords base words).read address = m.read address := by
  apply read_putWords_of_ne
  intro n hn heq
  have hsize : memorySize = 65536 := rfl
  have hroom := Program.fits_iff.mp h
  have hnumber : (base + UInt16.ofNat n).toNat = base.toNat + n := by
    rw [UInt16.toNat_add, UInt16.toNat_ofNat']
    omega
  rw [heq, hnumber] at houtside
  omega

end Memory

namespace Machine

variable {m m' : Machine} {base : UInt16} {words : List UInt16}

def withMemory (m : Machine) (memory : Memory) : Machine :=
  { m with core := { m.core with memory } }

theorem load_of_fits (m : Machine) (h : Program.Fits base words) :
    m.load base words = .ok (m.withMemory (m.memory.putWords base words)) := by
  rw [load, m.core.memory.load_of_fits h]
  rfl

theorem load_of_not_fits (m : Machine) (h : ¬ Program.Fits base words) :
    m.load base words = .error (.programOutOfBounds base words.length) := by
  have hload : m.core.memory.load base words = .error (.programOutOfBounds base words.length) :=
    if_neg h
  rw [load, hload]

theorem exists_load_iff (m : Machine) (base : UInt16) (words : List UInt16) :
    (∃ m', m.load base words = .ok m') ↔ base.toNat + 2 * words.length ≤ memorySize := by
  rw [← Program.fits_iff]
  constructor
  · rintro ⟨m', hm'⟩
    by_cases hfits : Program.Fits base words
    · exact hfits
    · rw [m.load_of_not_fits hfits] at hm'
      cases hm'
  · intro hfits
    exact ⟨_, m.load_of_fits hfits⟩

theorem writeInstruction_of_lt (m : Machine) {address : UInt16} (h : address < 0xFFFF)
    (word : UInt16) :
    m.writeInstruction address word = .ok (m.withMemory
      ((m.memory.write address (highByte word)).write (address + 1) (lowByte word))) := by
  rw [writeInstruction, Memory.writeWord, Memory.next?, if_neg (UInt16.ne_of_lt h)]
  rfl

/-- Writes words with their numbers, each at twice its number from a base. -/
def writeNumbered (m : Machine) (base : UInt16) (numbered : List (UInt16 × Nat)) :
    Except MachineError Machine :=
  numbered.foldlM
    (fun m placed => m.writeInstruction (.ofNat (base.toNat + 2 * placed.2)) placed.1) m

/-- Words written one by one from some number on leave what they leave when they are put
together. -/
theorem writeNumbered_zipIdx (m : Machine) {first : Nat}
    (h : base.toNat + 2 * (first + words.length) ≤ memorySize) :
    m.writeNumbered base (words.zipIdx first)
      = .ok (m.withMemory (m.memory.putWords (.ofNat (base.toNat + 2 * first)) words)) := by
  induction words generalizing m first with
  | nil => rfl
  | cons w words ih =>
    have hsize : memorySize = 65536 := rfl
    have hend : (0xFFFF : UInt16).toNat = 65535 := rfl
    rw [List.length_cons] at h
    have hlast : UInt16.ofNat (base.toNat + 2 * first) < 0xFFFF := by
      rw [UInt16.lt_iff_toNat_lt, UInt16.toNat_ofNat', hend]
      omega
    have hnext : UInt16.ofNat (base.toNat + 2 * (first + 1))
        = UInt16.ofNat (base.toNat + 2 * first) + 2 := by
      rw [Nat.mul_succ, ← Nat.add_assoc, UInt16.ofNat_add]
      rfl
    have hroom : base.toNat + 2 * (first + 1 + words.length) ≤ memorySize := by omega
    have hwrite := m.writeInstruction_of_lt hlast w
    have hrest := ih (m.withMemory
      ((m.memory.write (.ofNat (base.toNat + 2 * first)) (highByte w)).write
        (.ofNat (base.toNat + 2 * first) + 1) (lowByte w))) hroom
    rw [hnext] at hrest
    rw [List.zipIdx_cons, writeNumbered, List.foldlM_cons, hwrite]
    exact hrest

/-- A program has been put into a machine: its words stand at their addresses, as its image has them
and as they would stand if they were written one by one, and nothing else has changed. -/
structure Loaded (m : Machine) (p : Program) (m' : Machine) : Prop where
  address : ∀ k < p.code.length, (p.addressOf k).toNat = p.base.toNat + 2 * k
  word : ∀ k (hk : k < p.code.length), m'.readInstruction? (p.addressOf k) = some p.code[k]
  image : m'.memory.slice p.base.toNat (2 * p.code.length) = p.toBytes
  outside : ∀ address : UInt16,
    address.toNat < p.base.toNat ∨ p.base.toNat + 2 * p.code.length ≤ address.toNat →
      m'.readMemory address = m.readMemory address
  state : m'.state = m.state
  layout : m'.layout = m.layout
  trace : m'.trace = m.trace
  one_by_one : m.writeNumbered p.base p.code.zipIdx = .ok m'
  read_back :
    Program.ofBytes p.base (m'.memory.slice p.base.toNat (2 * p.code.length)) = .ok p

theorem loaded_of_fits (m : Machine) {p : Program} (h : Program.Fits p.base p.code) :
    m.Loaded p (m.withMemory (m.memory.putWords p.base p.code)) := by
  have hroom := Program.fits_iff.mp h
  have himage := m.memory.slice_putWords h
  refine {
    address := fun k hk => Program.toNat_addressOf h hk
    word := ?_
    image := himage
    outside := fun address ha => m.memory.read_putWords_of_outside h ha
    state := rfl
    layout := rfl
    trace := rfl
    one_by_one := ?_
    read_back := ?_ }
  · intro k hk
    have hne := UInt16.ne_of_lt (Program.addressOf_lt_last h hk)
    have hword := m.memory.wordAt_putWords (Nat.le_trans (Nat.le_add_left _ _) h) p.base hk
    rw [readInstruction?, Memory.readWord?_of_ne_last _ hne]
    exact congrArg some hword
  · have hbase : UInt16.ofNat (p.base.toNat + 2 * 0) = p.base := UInt16.ofNat_toNat
    rw [m.writeNumbered_zipIdx (by rwa [Nat.zero_add]), hbase]
  · have hvalid := (p.validate_eq_ok_iff_fits).mpr h
    exact (Program.ofBytes_eq_ok_iff p).mpr ⟨rfl, himage.symm, hvalid⟩

/-- A machine takes exactly the words that have room, and puts each of them where the program of
these words at this base says it is. -/
theorem load_places_words (m : Machine) (base : UInt16) (words : List UInt16) :
    ((∃ m', m.load base words = .ok m') ↔ base.toNat + 2 * words.length ≤ memorySize) ∧
      ∀ m', m.load base words = .ok m' → m.Loaded ⟨base, words⟩ m' := by
  refine ⟨m.exists_load_iff base words, ?_⟩
  intro m' hm'
  have hfits := Program.fits_iff.mpr ((m.exists_load_iff base words).mp ⟨m', hm'⟩)
  rw [m.load_of_fits hfits] at hm'
  obtain rfl := Except.ok.inj hm'
  exact m.loaded_of_fits (p := ⟨base, words⟩) hfits

/-- Two words that end with the last byte of memory. -/
theorem load_places_words_at_end_of_memory :
    let m : Machine := ⟨.initial .standard, .empty false 0⟩
    ∃ m', m.load 0xFFFC [0xD00A, 0xF000] = .ok m' ∧
      m'.readInstruction? 0xFFFE = some 0xF000 ∧
      m'.memory.slice 0xFFFC 4 = [0xD0, 0x0A, 0xF0, 0x00] := by
  intro m
  obtain ⟨haccepted, hloaded⟩ := m.load_places_words 0xFFFC [0xD00A, 0xF000]
  obtain ⟨m', hm'⟩ := haccepted.mpr (by decide)
  have hplaced := hloaded m' hm'
  exact ⟨m', hm', hplaced.word 1 (by decide), hplaced.image⟩

end Machine

end ByteMachine
