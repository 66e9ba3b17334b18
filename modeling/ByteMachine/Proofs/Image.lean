import ByteMachine.Assembly.Source
import ByteMachine.Proofs.StackWindow

namespace ByteMachine

theorem length_wordsOfBytes (bytes : List UInt8) :
    (wordsOfBytes bytes).length = bytes.length / 2 := by
  induction bytes using wordsOfBytes.induct with
  | case1 hi lo bytes ih =>
    rw [wordsOfBytes, List.length_cons, ih, List.length_cons, List.length_cons]
    omega
  | case2 bytes h =>
    rw [wordsOfBytes]
    · cases bytes with
      | nil => rfl
      | cons hi bytes =>
        cases bytes with
        | nil => exact (Nat.div_eq_of_lt (by decide : 1 < 2)).symm
        | cons lo bytes => exact absurd rfl (h hi lo bytes)
    · exact h

theorem bytesOfWords_wordsOfBytes {bytes : List UInt8} (h : bytes.length % 2 = 0) :
    bytesOfWords (wordsOfBytes bytes) = bytes := by
  induction bytes using wordsOfBytes.induct with
  | case1 hi lo bytes ih =>
    rw [List.length_cons, List.length_cons] at h
    rw [wordsOfBytes, bytesOfWords_cons, highByte_wordOfBytes, lowByte_wordOfBytes, ih (by omega)]
  | case2 bytes hshort =>
    cases bytes with
    | nil => rfl
    | cons hi bytes =>
      cases bytes with
      | nil => cases h
      | cons lo bytes => exact absurd rfl (hshort hi lo bytes)

/-- The two bytes of a word stand side by side, the high one first. -/
theorem getElem?_bytesOfWords (words : List UInt16) (k : Nat) :
    (bytesOfWords words)[2 * k]? = words[k]?.map highByte ∧
      (bytesOfWords words)[2 * k + 1]? = words[k]?.map lowByte := by
  induction words generalizing k with
  | nil => exact ⟨rfl, rfl⟩
  | cons w words ih =>
    cases k with
    | zero => exact ⟨rfl, rfl⟩
    | succ k =>
      obtain ⟨hhigh, hlow⟩ := ih k
      rw [bytesOfWords_cons, Nat.mul_succ]
      exact ⟨hhigh, hlow⟩

namespace Program

variable {base : UInt16} {words : List UInt16} {bytes : List UInt8} {p : Program}

/-- There is room for words from a base on. -/
def Fits (base : UInt16) (words : List UInt16) : Prop :=
  base.toNat + words.length * 2 ≤ memorySize

instance : Decidable (Fits base words) :=
  inferInstanceAs (Decidable (_ ≤ _))

theorem fits_iff : Fits base words ↔ base.toNat + 2 * words.length ≤ memorySize := by
  rw [Fits, Nat.mul_comm]

theorem not_fits_iff : ¬ Fits base words ↔ memorySize < base.toNat + 2 * words.length := by
  rw [fits_iff, Nat.not_le]

theorem validate_eq_ok_iff_fits (p : Program) : p.validate = .ok () ↔ Fits p.base p.code := by
  rw [validate, byteLength, Fits]
  split
  · next h => exact ⟨fun _ => h, fun _ => rfl⟩
  · next h => exact ⟨nofun, fun h' => absurd h' h⟩

theorem validate_of_fits (h : Fits p.base p.code) : p.validate = .ok () :=
  if_pos h

theorem validate_of_not_fits (h : ¬ Fits p.base p.code) :
    p.validate = .error (.programTooLarge p.base p.code.length) :=
  if_neg h

/-- The addresses of words that have room do not go round the end of memory. -/
theorem toNat_addressOf (h : Fits p.base p.code) {k : Nat} (hk : k < p.code.length) :
    (p.addressOf k).toNat = p.base.toNat + 2 * k := by
  have hsize : memorySize = 65536 := rfl
  rw [Fits] at h
  simp only [addressOf, UInt16.toNat_add, UInt16.toNat_mul, UInt16.toNat_ofNat',
    UInt16.reduceToNat]
  omega

theorem addressOf_lt_last (h : Fits p.base p.code) {k : Nat} (hk : k < p.code.length) :
    p.addressOf k < 0xFFFF := by
  have haddress := toNat_addressOf h hk
  have hsize : memorySize = 65536 := rfl
  have hlast : (0xFFFF : UInt16).toNat = 65535 := rfl
  rw [Fits] at h
  rw [UInt16.lt_iff_toNat_lt]
  omega

theorem ofBytes_toBytes_of_fits (h : Fits base words) :
    ofBytes base (atReset words).toBytes = .ok ⟨base, words⟩ := by
  have hlength : (atReset words).toBytes.length = words.length * 2 := length_bytesOfWords words
  have heven : ¬ words.length * 2 % 2 ≠ 0 := by omega
  have hback : wordsOfBytes (atReset words).toBytes = words := wordsOfBytes_bytesOfWords words
  have hvalid : validate ⟨base, words⟩ = .ok () := validate_of_fits h
  rw [ofBytes, hlength, if_neg heven, hback]
  dsimp only
  rw [hvalid]
  rfl

theorem ofBytes_toBytes_of_not_fits (h : ¬ Fits base words) :
    ofBytes base (atReset words).toBytes = .error (.programTooLarge base words.length) := by
  have hlength : (atReset words).toBytes.length = words.length * 2 := length_bytesOfWords words
  have heven : ¬ words.length * 2 % 2 ≠ 0 := by omega
  have hback : wordsOfBytes (atReset words).toBytes = words := wordsOfBytes_bytesOfWords words
  have hvalid : validate ⟨base, words⟩ = .error (.programTooLarge base words.length) :=
    validate_of_not_fits h
  rw [ofBytes, hlength, if_neg heven, hback]
  dsimp only
  rw [hvalid]
  rfl

/-- What is read from an image has room at its base. -/
theorem fits_of_ofBytes (h : ofBytes base bytes = .ok p) : Fits p.base p.code := by
  unfold ofBytes at h
  split at h
  · cases h
  cases hvalid : validate ⟨base, wordsOfBytes bytes⟩ with
  | error e =>
    dsimp only at h
    rw [hvalid] at h
    cases h
  | ok u =>
    dsimp only at h
    rw [hvalid] at h
    obtain rfl := Except.ok.inj h
    exact (validate_eq_ok_iff_fits _).mp hvalid

end Program

namespace Assembly

variable {source : String} {base : UInt16} {words : List UInt16}

theorem assembleProgram_of_error {e : AssemblyError} (h : assemble source = .error e) :
    assembleProgram source base = .error e := by
  rw [assembleProgram, h]
  rfl

theorem assembleProgram_of_fits (h : assemble source = .ok words)
    (hfits : Program.Fits base words) :
    assembleProgram source base = .ok ⟨base, words⟩ := by
  have hvalid : Program.validate ⟨base, words⟩ = .ok () :=
    (Program.validate_eq_ok_iff_fits ⟨base, words⟩).mpr hfits
  rw [assembleProgram, h]
  dsimp only [bind, Except.bind]
  rw [hvalid]

theorem assembleProgram_of_not_fits (h : assemble source = .ok words)
    (hfits : ¬ Program.Fits base words) :
    assembleProgram source base = .error (.spec (.programTooLarge base words.length)) := by
  have hvalid : Program.validate ⟨base, words⟩ = .error (.programTooLarge base words.length) :=
    Program.validate_of_not_fits hfits
  rw [assembleProgram, h]
  dsimp only [bind, Except.bind]
  rw [hvalid]

theorem assembleProgram_eq_ok_iff (p : Program) :
    assembleProgram source base = .ok p ↔
      ∃ words, assemble source = .ok words ∧
        Program.ofBytes base (Program.atReset words).toBytes = .ok p := by
  cases h : assemble source with
  | error e =>
    rw [assembleProgram_of_error h]
    constructor
    · exact nofun
    · rintro ⟨words, hwords, -⟩
      cases hwords
  | ok words =>
    simp only [Except.ok.injEq, exists_eq_left']
    by_cases hfits : Program.Fits base words
    · rw [assembleProgram_of_fits h hfits, Program.ofBytes_toBytes_of_fits hfits]
      exact ⟨fun hp => congrArg _ (Except.ok.inj hp), fun hp => congrArg _ (Except.ok.inj hp)⟩
    · rw [assembleProgram_of_not_fits h hfits, Program.ofBytes_toBytes_of_not_fits hfits]
      exact ⟨nofun, nofun⟩

theorem fits_of_assembleProgram {p : Program} (h : assembleProgram source base = .ok p) :
    Program.Fits p.base p.code := by
  obtain ⟨words, -, hbytes⟩ := (assembleProgram_eq_ok_iff p).mp h
  exact Program.fits_of_ofBytes hbytes

end Assembly

namespace Memory

theorem load_of_fits (m : Memory) {base : UInt16} {words : List UInt16}
    (h : Program.Fits base words) : m.load base words = .ok (m.putWords base words) :=
  if_pos h

theorem exists_load_iff (m : Memory) (base : UInt16) (words : List UInt16) :
    (∃ m', m.load base words = .ok m') ↔ Program.Fits base words := by
  constructor
  · rintro ⟨m', h⟩
    unfold load at h
    split at h
    · next hfits => exact hfits
    · cases h
  · intro h
    exact ⟨_, m.load_of_fits h⟩

end Memory

/-- A machine of a usable layout takes every program that has room, and starts at its base. -/
theorem Machine.withProgram_of_fits {p : Program} (hfits : Program.Fits p.base p.code)
    {layout : Layout} (hvalid : layout.validate = .ok ()) (tracing : Bool) (traceLimit : Nat) :
    withProgram p layout tracing traceLimit
      = .ok ⟨{ (Core.initial layout).goTo p.base with
            memory := Memory.zero.putWords p.base p.code },
          .empty tracing traceLimit⟩ := by
  have hcheck : Core.checkLayout layout = .ok () := (Core.checkLayout_eq_ok_iff layout).mpr hvalid
  have hnew : new layout tracing traceLimit = .ok ⟨.initial layout, .empty tracing traceLimit⟩ := by
    rw [new, hcheck]
    rfl
  have hload := Memory.zero.load_of_fits hfits
  have hloaded : loadProgram ⟨.initial layout, .empty tracing traceLimit⟩ p
      = .ok ⟨{ Core.initial layout with memory := Memory.zero.putWords p.base p.code },
          .empty tracing traceLimit⟩ := by
    rw [loadProgram, load]
    dsimp only [Core.initial]
    rw [hload]
  rw [withProgram, hnew]
  change loadProgram _ p >>= _ = _
  rw [hloaded]
  rfl

end ByteMachine
