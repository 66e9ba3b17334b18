import ByteMachine.Proofs.SnapshotBytes
import Mathlib.Algebra.Group.Nat.Defs

namespace ByteMachine

namespace ByteReader

variable {α β : Type}

/-- A reader gives a value only where the form of that value stands in front. -/
def ReadsOnly (r : ByteReader α) (form : α → List UInt8) : Prop :=
  ∀ all a rest, r.run all = .ok (a, rest) → all = form a ++ rest

theorem exists_of_run_bind {r : ByteReader α} {f : α → ByteReader β} {all rest : List UInt8} {b : β}
    (h : (r >>= f).run all = .ok (b, rest)) :
    ∃ a between, r.run all = .ok (a, between) ∧ (f a).run between = .ok (b, rest) := by
  rw [StateT.run_bind] at h
  cases hr : r.run all with
  | error e =>
    rw [hr] at h
    exact absurd h (by simp [bind, Except.bind])
  | ok taken =>
    rw [hr] at h
    exact ⟨taken.1, taken.2, rfl, h⟩

theorem eq_of_run_pure {a b : α} {all rest : List UInt8}
    (h : (Pure.pure a : ByteReader α).run all = .ok (b, rest)) : b = a ∧ rest = all := by
  obtain ⟨rfl, rfl⟩ := Prod.mk.inj (Except.ok.inj h)
  exact ⟨rfl, rfl⟩

theorem exists_of_run_map {r : ByteReader α} {f : α → β} {all rest : List UInt8} {b : β}
    (h : (f <$> r).run all = .ok (b, rest)) : ∃ a, r.run all = .ok (a, rest) ∧ b = f a := by
  rw [StateT.run_map] at h
  cases hr : r.run all with
  | error e =>
    rw [hr] at h
    exact absurd h (by simp [Functor.map, Except.map])
  | ok taken =>
    rw [hr] at h
    obtain ⟨rfl, rfl⟩ := Prod.mk.inj (Except.ok.inj h)
    exact ⟨taken.1, rfl, rfl⟩

theorem readsOnly_byte : ReadsOnly byte (fun b => [b]) := by
  intro all b rest h
  cases all with
  | nil => exact nomatch h
  | cons first all =>
    rw [run_byte] at h
    obtain ⟨rfl, rfl⟩ := Prod.mk.inj (Except.ok.inj h)
    rfl

theorem number_of_run {width n : Nat} {all rest : List UInt8}
    (h : (number width).run all = .ok (n, rest)) :
    n < numberBound width ∧ all = numberBytes width n ++ rest := by
  induction width generalizing all n with
  | zero =>
    obtain ⟨rfl, rfl⟩ := eq_of_run_pure h
    exact ⟨Nat.one_pos, rfl⟩
  | succ width ih =>
    obtain ⟨low, behind, hlow, h⟩ := exists_of_run_bind h
    obtain ⟨high, between, hhigh, h⟩ := exists_of_run_bind h
    obtain ⟨rfl, rfl⟩ := eq_of_run_pure h
    obtain ⟨hbound, hrest⟩ := ih hhigh
    have hbyte := low.toNat_lt
    have hmod : (low.toNat + 256 * high) % 256 = low.toNat := by omega
    have hdiv : (low.toNat + 256 * high) / 256 = high := by omega
    refine ⟨?_, ?_⟩
    · rw [numberBound]
      omega
    · rw [readsOnly_byte _ _ _ hlow, hrest, numberBytes, hmod, hdiv, UInt8.ofNat_toNat]
      rfl

theorem readsOnly_uint16 : ReadsOnly uint16 (fun n => numberBytes 2 n.toNat) := by
  intro all n rest h
  obtain ⟨k, hk, rfl⟩ := exists_of_run_map h
  obtain ⟨hbound, hall⟩ := number_of_run hk
  have hn : (UInt16.ofNat k).toNat = k := UInt16.toNat_ofNat_of_lt hbound
  dsimp only
  rw [hn]
  exact hall

theorem readsOnly_uint64 : ReadsOnly uint64 (fun n => numberBytes 8 n.toNat) := by
  intro all n rest h
  obtain ⟨k, hk, rfl⟩ := exists_of_run_map h
  obtain ⟨hbound, hall⟩ := number_of_run hk
  have hn : (UInt64.ofNat k).toNat = k := UInt64.toNat_ofNat_of_lt hbound
  dsimp only
  rw [hn]
  exact hall

theorem bytes_of_run {n : Nat} {bs all rest : List UInt8}
    (h : (bytes n).run all = .ok (bs, rest)) : bs.length = n ∧ all = bs ++ rest := by
  rw [run_bytes] at h
  split at h
  · next hn =>
    obtain ⟨rfl, rfl⟩ := Prod.mk.inj (Except.ok.inj h)
    exact ⟨List.length_take_of_le hn, (List.take_append_drop n all).symm⟩
  · exact absurd h (by simp)

theorem choice_of_run {count n : Nat} {all rest : List UInt8}
    (h : (choice count).run all = .ok (n, rest)) : n < count ∧ all = choiceBytes n ++ rest := by
  obtain ⟨found, between, hfound, h⟩ := exists_of_run_bind h
  split at h
  · next hcount =>
    obtain ⟨rfl, rfl⟩ := eq_of_run_pure h
    exact ⟨hcount, (number_of_run hfound).2⟩
  · exact nomatch h

end ByteReader

open ByteReader

theorem Layout.readsOnly : ReadsOnly reader toBytes := by
  intro all l rest h
  obtain ⟨resetPc, behind₁, h₁, h⟩ := exists_of_run_bind h
  obtain ⟨stackTop, behind₂, h₂, h⟩ := exists_of_run_bind h
  obtain ⟨stackSize, behind₃, h₃, h⟩ := exists_of_run_bind h
  obtain ⟨rfl, rfl⟩ := eq_of_run_pure h
  rw [readsOnly_uint16 _ _ _ h₁, readsOnly_uint16 _ _ _ h₂, readsOnly_uint16 _ _ _ h₃]
  simp [toBytes]

theorem Fault.readsOnly : ReadsOnly reader toBytes := by
  intro all fault rest h
  obtain ⟨n, behind, hn, h⟩ := exists_of_run_bind h
  obtain ⟨hlt, rfl⟩ := choice_of_run hn
  have hcases : n = 0 ∨ n = 1 ∨ n = 2 ∨ n = 3 ∨ n = 4 ∨ n = 5 := by omega
  rcases hcases with rfl | rfl | rfl | rfl | rfl | rfl
  · change (byte >>= fun b => Pure.pure (invalidRegister ⟨b⟩)).run behind = .ok (fault, rest) at h
    obtain ⟨b, between, hb, h⟩ := exists_of_run_bind h
    obtain ⟨rfl, rfl⟩ := eq_of_run_pure h
    rw [readsOnly_byte _ _ _ hb, toBytes, List.append_assoc]
  · obtain ⟨rfl, rfl⟩ := eq_of_run_pure h
    rfl
  · obtain ⟨rfl, rfl⟩ := eq_of_run_pure h
    rfl
  · obtain ⟨rfl, rfl⟩ := eq_of_run_pure h
    rfl
  · change (byte >>= fun b => Pure.pure (unknownOpcode b)).run behind = .ok (fault, rest) at h
    obtain ⟨b, between, hb, h⟩ := exists_of_run_bind h
    obtain ⟨rfl, rfl⟩ := eq_of_run_pure h
    rw [readsOnly_byte _ _ _ hb, toBytes, List.append_assoc]
  · obtain ⟨rfl, rfl⟩ := eq_of_run_pure h
    rfl

theorem HaltReason.readsOnly : ReadsOnly reader toBytes := by
  intro all reason rest h
  obtain ⟨n, behind, hn, h⟩ := exists_of_run_bind h
  obtain ⟨hlt, rfl⟩ := choice_of_run hn
  have hcases : n = 0 ∨ n = 1 := by omega
  rcases hcases with rfl | rfl
  · obtain ⟨rfl, rfl⟩ := eq_of_run_pure h
    rfl
  · obtain ⟨rfl, rfl⟩ := eq_of_run_pure h
    rfl

theorem Status.readsOnly : ReadsOnly reader toBytes := by
  intro all status rest h
  obtain ⟨n, behind, hn, h⟩ := exists_of_run_bind h
  obtain ⟨hlt, rfl⟩ := choice_of_run hn
  have hcases : n = 0 ∨ n = 1 ∨ n = 2 := by omega
  rcases hcases with rfl | rfl | rfl
  · obtain ⟨rfl, rfl⟩ := eq_of_run_pure h
    rfl
  · change (HaltReason.reader >>= fun reason => Pure.pure (halted reason)).run behind
      = .ok (status, rest) at h
    obtain ⟨reason, between, hreason, h⟩ := exists_of_run_bind h
    obtain ⟨rfl, rfl⟩ := eq_of_run_pure h
    rw [HaltReason.readsOnly _ _ _ hreason, toBytes, List.append_assoc]
  · change (Fault.reader >>= fun fault => Pure.pure (faulted fault)).run behind
      = .ok (status, rest) at h
    obtain ⟨fault, between, hfault, h⟩ := exists_of_run_bind h
    obtain ⟨rfl, rfl⟩ := eq_of_run_pure h
    rw [Fault.readsOnly _ _ _ hfault, toBytes, List.append_assoc]

theorem State.readsOnly : ReadsOnly reader toBytes := by
  intro all s rest h
  obtain ⟨r0, behind₀, h₀, h⟩ := exists_of_run_bind h
  obtain ⟨r1, behind₁, h₁, h⟩ := exists_of_run_bind h
  obtain ⟨r2, behind₂, h₂, h⟩ := exists_of_run_bind h
  obtain ⟨r3, behind₃, h₃, h⟩ := exists_of_run_bind h
  obtain ⟨r4, behind₄, h₄, h⟩ := exists_of_run_bind h
  obtain ⟨r5, behind₅, h₅, h⟩ := exists_of_run_bind h
  obtain ⟨r6, behind₆, h₆, h⟩ := exists_of_run_bind h
  obtain ⟨r7, behind₇, h₇, h⟩ := exists_of_run_bind h
  obtain ⟨pc, behindPc, hpc, h⟩ := exists_of_run_bind h
  obtain ⟨sp, behindSp, hsp, h⟩ := exists_of_run_bind h
  obtain ⟨flags, behindFlags, hflags, h⟩ := exists_of_run_bind h
  obtain ⟨cycles, behindCycles, hcycles, h⟩ := exists_of_run_bind h
  obtain ⟨status, behindStatus, hstatus, h⟩ := exists_of_run_bind h
  obtain ⟨rfl, rfl⟩ := eq_of_run_pure h
  rw [readsOnly_byte _ _ _ h₀, readsOnly_byte _ _ _ h₁, readsOnly_byte _ _ _ h₂,
    readsOnly_byte _ _ _ h₃, readsOnly_byte _ _ _ h₄, readsOnly_byte _ _ _ h₅,
    readsOnly_byte _ _ _ h₆, readsOnly_byte _ _ _ h₇, readsOnly_uint16 _ _ _ hpc,
    readsOnly_uint16 _ _ _ hsp, readsOnly_byte _ _ _ hflags, readsOnly_uint64 _ _ _ hcycles,
    Status.readsOnly _ _ _ hstatus]
  simp [toBytes]

theorem Snapshot.of_run {all rest : List UInt8} {s : Snapshot}
    (h : reader.run all = .ok (s, rest)) :
    s.memory.size < numberBound 8 ∧ all = s.toBytes ++ rest := by
  obtain ⟨layout, behind₁, hlayout, h⟩ := exists_of_run_bind h
  obtain ⟨state, behind₂, hstate, h⟩ := exists_of_run_bind h
  obtain ⟨length, behind₃, hnumber, h⟩ := exists_of_run_bind h
  obtain ⟨memory, behind₄, hbytes, h⟩ := exists_of_run_bind h
  obtain ⟨rfl, rfl⟩ := eq_of_run_pure h
  obtain ⟨hbound, hlength⟩ := number_of_run hnumber
  obtain ⟨rfl, hmemory⟩ := bytes_of_run hbytes
  refine ⟨hbound, ?_⟩
  rw [Layout.readsOnly _ _ _ hlayout, State.readsOnly _ _ _ hstate, hlength, hmemory]
  simp [toBytes]

namespace ByteReader

variable {α β : Type}

/-- A reader that takes so many bytes, whatever they are. -/
def FixedWidth (r : ByteReader α) (width : Nat) : Prop :=
  ∀ head, head.length = width → ∃ a, Reads r head a

/-- Whatever the first `width` bytes are: where `bytes` stand behind them, a reader comes to an
outcome of this kind. -/
def Behind (r : ByteReader α) (width : Nat) (bytes : List UInt8)
    (outcome : Except SnapshotError (α × List UInt8) → Prop) : Prop :=
  ∀ head, head.length = width → outcome (r.run (head ++ bytes))

theorem exists_append {head : List UInt8} {width width' : Nat} (h : head.length = width + width') :
    ∃ first second, head = first ++ second ∧ first.length = width ∧ second.length = width' := by
  have hfirst : (head.take width).length = width := List.length_take_of_le (by omega)
  have hsecond : (head.drop width).length = width' := by
    rw [List.length_drop]
    omega
  exact ⟨_, _, (List.take_append_drop width head).symm, hfirst, hsecond⟩

theorem FixedWidth.pure (a : α) : FixedWidth (Pure.pure a) 0 := by
  intro head hhead
  obtain rfl := List.length_eq_zero_iff.mp hhead
  exact ⟨a, Reads.pure a⟩

theorem FixedWidth.bind {r : ByteReader α} {f : α → ByteReader β} {width width' : Nat}
    (hr : FixedWidth r width) (hf : ∀ a, FixedWidth (f a) width') :
    FixedWidth (r >>= f) (width + width') := by
  intro head hhead
  obtain ⟨first, second, rfl, hfirst, hsecond⟩ := exists_append hhead
  obtain ⟨a, ha⟩ := hr first hfirst
  obtain ⟨b, hb⟩ := hf a second hsecond
  exact ⟨b, ha.bind hb⟩

theorem FixedWidth.map {r : ByteReader α} {width : Nat} (hr : FixedWidth r width) (f : α → β) :
    FixedWidth (f <$> r) width := by
  intro head hhead
  obtain ⟨a, ha⟩ := hr head hhead
  exact ⟨f a, ha.map f⟩

theorem fixedWidth_byte : FixedWidth byte 1 := by
  intro head hhead
  obtain ⟨b, rfl⟩ := List.length_eq_one_iff.mp hhead
  exact ⟨b, reads_byte b⟩

theorem fixedWidth_number (width : Nat) : FixedWidth (number width) width := by
  induction width with
  | zero => exact FixedWidth.pure 0
  | succ width ih =>
    have hbytes : FixedWidth (number (width + 1)) (1 + (width + 0)) :=
      fixedWidth_byte.bind fun low => ih.bind fun high => FixedWidth.pure (low.toNat + 256 * high)
    have hsum : 1 + (width + 0) = width + 1 := Nat.add_comm 1 width
    rwa [hsum] at hbytes

theorem fixedWidth_uint16 : FixedWidth uint16 2 :=
  (fixedWidth_number 2).map UInt16.ofNat

theorem fixedWidth_uint64 : FixedWidth uint64 8 :=
  (fixedWidth_number 8).map UInt64.ofNat

/-- What a reader of fixed width takes belongs to the bytes in front. -/
theorem FixedWidth.behind {r : ByteReader α} {f : α → ByteReader β} {width width' : Nat}
    {bytes : List UInt8} {outcome : Except SnapshotError (β × List UInt8) → Prop}
    (hr : FixedWidth r width) (hf : ∀ a, Behind (f a) width' bytes outcome) :
    Behind (r >>= f) (width + width') bytes outcome := by
  intro head hhead
  obtain ⟨first, second, rfl, hfirst, hsecond⟩ := exists_append hhead
  obtain ⟨a, ha⟩ := hr first hfirst
  rw [List.append_assoc, StateT.run_bind, ha.taken]
  exact hf a second hsecond

theorem behind_nothing {r : ByteReader α} {bytes : List UInt8}
    {outcome : Except SnapshotError (α × List UInt8) → Prop} (h : outcome (r.run bytes)) :
    Behind r 0 bytes outcome := by
  intro head hhead
  obtain rfl := List.length_eq_zero_iff.mp hhead
  exact h

theorem run_bind_of_error {r : ByteReader α} {f : α → ByteReader β} {bytes : List UInt8}
    {e : SnapshotError} (h : r.run bytes = .error e) : (r >>= f).run bytes = .error e := by
  rw [StateT.run_bind, h]
  rfl

theorem run_bind_of_ok {r : ByteReader α} {f : α → ByteReader β} {bytes rest : List UInt8} {a : α}
    (h : r.run bytes = .ok (a, rest)) : (r >>= f).run bytes = (f a).run rest := by
  rw [StateT.run_bind, h]
  rfl

theorem run_choice_of_not_lt {count n : Nat} (h : count ≤ n) (hn : n < numberBound 4)
    (rest : List UInt8) :
    (choice count).run (numberBytes 4 n ++ rest) = .error (.badVariant n count) := by
  rw [choice, run_bind_of_ok ((reads_number hn).taken rest), if_neg (Nat.not_lt.mpr h)]
  rfl

end ByteReader

theorem Layout.fixedWidth : FixedWidth reader 6 :=
  fixedWidth_uint16.bind fun _ => fixedWidth_uint16.bind fun _ => fixedWidth_uint16.bind fun _ =>
    FixedWidth.pure _

namespace Status

theorem run_halted_of_error {bytes : List UInt8} {e : SnapshotError}
    (h : HaltReason.reader.run bytes = .error e) :
    reader.run (choiceBytes 1 ++ bytes) = .error e := by
  have hchoice : (choice 3).run (choiceBytes 1 ++ bytes) = .ok (1, bytes) :=
    (reads_choice (by decide) (by decide)).taken bytes
  rw [reader, run_bind_of_ok hchoice]
  exact run_bind_of_error h

theorem run_faulted_of_error {bytes : List UInt8} {e : SnapshotError}
    (h : Fault.reader.run bytes = .error e) :
    reader.run (choiceBytes 2 ++ bytes) = .error e := by
  have hchoice : (choice 3).run (choiceBytes 2 ++ bytes) = .ok (2, bytes) :=
    (reads_choice (by decide) (by decide)).taken bytes
  rw [reader, run_bind_of_ok hchoice]
  exact run_bind_of_error h

end Status

/-- All of a state but the status is 21 bytes, and any 21 bytes will do. -/
theorem State.behind {bytes : List UInt8}
    {outcome : Except SnapshotError (State × List UInt8) → Prop}
    (h : ∀ f : Status → State,
      outcome ((Status.reader >>= fun status => pure (f status)).run bytes)) :
    Behind reader 21 bytes outcome :=
  fixedWidth_byte.behind fun _ => fixedWidth_byte.behind fun _ =>
  fixedWidth_byte.behind fun _ => fixedWidth_byte.behind fun _ =>
  fixedWidth_byte.behind fun _ => fixedWidth_byte.behind fun _ =>
  fixedWidth_byte.behind fun _ => fixedWidth_byte.behind fun _ =>
  fixedWidth_uint16.behind fun _ => fixedWidth_uint16.behind fun _ =>
  fixedWidth_byte.behind fun _ => fixedWidth_uint64.behind fun _ =>
  behind_nothing (h _)

theorem State.run_of_badStatus {bytes : List UInt8} {e : SnapshotError}
    (h : Status.reader.run bytes = .error e) : Behind reader 21 bytes (· = .error e) :=
  State.behind fun _ => run_bind_of_error h

theorem State.run_of_status {bytes rest : List UInt8} {status : Status}
    (h : Status.reader.run bytes = .ok (status, rest)) :
    Behind reader 21 bytes (∃ s, · = .ok (s, rest)) :=
  State.behind fun f => ⟨f status, run_bind_of_ok h⟩

namespace Snapshot

theorem run_of_badStatus {head bytes : List UInt8} {e : SnapshotError}
    (hhead : head.length = 27) (h : Status.reader.run bytes = .error e) :
    reader.run (head ++ bytes) = .error e := by
  have hall : Behind reader (6 + 21) bytes (· = .error e) := by
    refine Layout.fixedWidth.behind ?_
    intro layout head hhead
    exact run_bind_of_error (State.run_of_badStatus h head hhead)
  exact hall head hhead

theorem run_of_longMemory {head memory : List UInt8} {status : Status} {n : Nat}
    (hhead : head.length = 27) (h : memory.length < n) (hn : n < numberBound 8) :
    reader.run (head ++ (status.toBytes ++ (numberBytes 8 n ++ memory)))
      = .error .endOfBytes := by
  have hstatus := (Status.reads status).taken (numberBytes 8 n ++ memory)
  have hnumber := (reads_number hn).taken memory
  have hmemory : (bytes n).run memory = .error .endOfBytes := by
    rw [run_bytes, if_neg (Nat.not_le.mpr h)]
  have hall : Behind reader (6 + 21) (status.toBytes ++ (numberBytes 8 n ++ memory))
      (· = .error .endOfBytes) := by
    refine Layout.fixedWidth.behind ?_
    intro layout head hhead
    obtain ⟨state, hstate⟩ := State.run_of_status hstatus head hhead
    rw [run_bind_of_ok hstate, run_bind_of_ok hnumber]
    exact run_bind_of_error hmemory
  exact hall head hhead

theorem ofBytes_eq_ok {bytes : List UInt8} {s : Snapshot} :
    ofBytes bytes = .ok s ↔ s.memory.size < numberBound 8 ∧ s.toBytes <+: bytes := by
  constructor
  · intro h
    cases hread : reader.run bytes with
    | error e =>
      rw [ofBytes, hread] at h
      cases h
    | ok read =>
      obtain ⟨s', rest⟩ := read
      rw [ofBytes, hread] at h
      obtain rfl : s' = s := Except.ok.inj h
      obtain ⟨hsize, rfl⟩ := of_run hread
      exact ⟨hsize, List.prefix_append _ _⟩
  · rintro ⟨hsize, rest, rfl⟩
    rw [ofBytes, (Snapshot.reads hsize).taken]
    rfl

theorem ofBytes_of_error {bytes : List UInt8} {e : SnapshotError}
    (h : reader.run bytes = .error e) : ofBytes bytes = .error e := by
  rw [ofBytes, h]
  rfl

/-- Bytes are read as a snapshot exactly when its form stands in front, so what is read is written
back as the bytes that were taken, and no form is the beginning of another. A form cut short ends
too soon; behind any 27 bytes, for layout, registers, counters and flags, a number that is none of
the choices is reported, and so is a length of memory beyond the bytes that are there. -/
theorem bytes_exact :
    (∀ bytes s, ofBytes bytes = .ok s ↔ s.memory.size < 2 ^ 64 ∧ s.toBytes <+: bytes)
    ∧ (∀ bytes s rest, reader.run bytes = .ok (s, rest) → s.toBytes ++ rest = bytes)
    ∧ (∀ s t : Snapshot, s.memory.size < 2 ^ 64 → t.memory.size < 2 ^ 64 →
        s.toBytes <+: t.toBytes → s = t)
    ∧ (∀ (s : Snapshot) part, s.memory.size < 2 ^ 64 → part <+: s.toBytes → part ≠ s.toBytes →
        ofBytes part = .error .endOfBytes)
    ∧ (∀ head, head.length = 27 →
        (∀ n rest, 3 ≤ n → n < 2 ^ 32 →
          ofBytes (head ++ (numberBytes 4 n ++ rest)) = .error (.badVariant n 3))
        ∧ (∀ n rest, 2 ≤ n → n < 2 ^ 32 →
          ofBytes (head ++ (choiceBytes 1 ++ (numberBytes 4 n ++ rest)))
            = .error (.badVariant n 2))
        ∧ (∀ n rest, 6 ≤ n → n < 2 ^ 32 →
          ofBytes (head ++ (choiceBytes 2 ++ (numberBytes 4 n ++ rest)))
            = .error (.badVariant n 6))
        ∧ (∀ (status : Status) n memory, memory.length < n → n < 2 ^ 64 →
          ofBytes (head ++ (status.toBytes ++ (numberBytes 8 n ++ memory)))
            = .error .endOfBytes)) := by
  have hbound4 : 2 ^ 32 = numberBound 4 := rfl
  have hbound8 : 2 ^ 64 = numberBound 8 := rfl
  rw [hbound4, hbound8]
  refine ⟨fun bytes s => ofBytes_eq_ok, ?_, ?_, ?_, ?_⟩
  · intro bytes s rest h
    exact (of_run h).2.symm
  · intro s t hs ht hprefix
    have htoo : ofBytes t.toBytes = .ok s := ofBytes_eq_ok.mpr ⟨hs, hprefix⟩
    rw [ofBytes_toBytes ht] at htoo
    exact (Except.ok.inj htoo).symm
  · intro s part hs hprefix hne
    exact ofBytes_of_error ((Snapshot.reads hs).cut part hprefix hne)
  · intro head hhead
    refine ⟨?_, ?_, ?_, ?_⟩
    · intro n rest h hn
      have hstatus : Status.reader.run (numberBytes 4 n ++ rest) = .error (.badVariant n 3) :=
        run_bind_of_error (run_choice_of_not_lt h hn rest)
      exact ofBytes_of_error (run_of_badStatus hhead hstatus)
    · intro n rest h hn
      have hreason : HaltReason.reader.run (numberBytes 4 n ++ rest) = .error (.badVariant n 2) :=
        run_bind_of_error (run_choice_of_not_lt h hn rest)
      exact ofBytes_of_error (run_of_badStatus hhead (Status.run_halted_of_error hreason))
    · intro n rest h hn
      have hfault : Fault.reader.run (numberBytes 4 n ++ rest) = .error (.badVariant n 6) :=
        run_bind_of_error (run_choice_of_not_lt h hn rest)
      exact ofBytes_of_error (run_of_badStatus hhead (Status.run_faulted_of_error hfault))
    · intro status n memory h hn
      exact ofBytes_of_error (run_of_longMemory hhead h hn)

/-- A machine that has met register 9, with three bytes of memory. -/
theorem bytes_exact_of_faulted :
    let s : Snapshot := {
      layout := .standard
      state := { State.initial .standard with status := .faulted (.invalidRegister ⟨9⟩) }
      memory := #[1, 2, 3] }
    ofBytes (s.toBytes ++ [0xFF]) = .ok s ∧ ofBytes (s.toBytes.take 40) = .error .endOfBytes ∧
      ofBytes (List.replicate 27 0 ++ (choiceBytes 2 ++ (numberBytes 4 6 ++ [])))
        = .error (.badVariant 6 6) := by
  intro s
  obtain ⟨hok, -, -, hcut, hbad⟩ := bytes_exact
  have hsize : s.memory.size < 2 ^ 64 := by decide
  have hne : s.toBytes.take 40 ≠ s.toBytes := by decide
  refine ⟨(hok _ _).mpr ⟨hsize, List.prefix_append _ _⟩, ?_, ?_⟩
  · exact hcut s _ hsize (List.take_prefix 40 _) hne
  · exact (hbad _ List.length_replicate).2.2.1 6 [] (by decide) (by decide)

end Snapshot

end ByteMachine
