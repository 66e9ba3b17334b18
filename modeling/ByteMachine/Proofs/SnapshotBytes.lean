import ByteMachine.Machine.SnapshotBytes

namespace ByteMachine

namespace ByteReader

variable {α β : Type}

/-- A reader takes these bytes off the front, whatever stands behind them, and finds the end too
soon where they are cut short. -/
structure Reads (r : ByteReader α) (bytes : List UInt8) (a : α) : Prop where
  taken : ∀ rest, r.run (bytes ++ rest) = .ok (a, rest)
  cut : ∀ part, part <+: bytes → part ≠ bytes → r.run part = .error .endOfBytes

theorem length_lt_of_cut {part bytes : List UInt8} (h : part <+: bytes) (hne : part ≠ bytes) :
    part.length < bytes.length := by
  apply Nat.lt_of_le_of_ne h.length_le
  intro hlength
  exact hne (h.eq_of_length hlength)

theorem Reads.pure (a : α) : Reads (Pure.pure a) [] a where
  taken _ := rfl
  cut _ hpart hne := absurd (List.prefix_nil.mp hpart) hne

theorem Reads.bind {r : ByteReader α} {f : α → ByteReader β} {bytes bytes' : List UInt8} {a : α}
    {b : β} (hr : Reads r bytes a) (hf : Reads (f a) bytes' b) :
    Reads (r >>= f) (bytes ++ bytes') b where
  taken rest := by
    rw [List.append_assoc, StateT.run_bind, hr.taken]
    exact hf.taken rest
  cut part hpart hne := by
    rw [StateT.run_bind]
    by_cases hwhole : bytes <+: part
    · obtain ⟨part', rfl⟩ := hwhole
      have hpart' : part' <+: bytes' := (List.prefix_append_right_inj bytes).mp hpart
      have hne' : part' ≠ bytes' := fun e => hne (congrArg (bytes ++ ·) e)
      rw [hr.taken]
      exact hf.cut part' hpart' hne'
    · have hfirst : part <+: bytes :=
        (List.prefix_or_prefix_of_prefix hpart (List.prefix_append bytes bytes')).resolve_right
          hwhole
      have hne' : part ≠ bytes := fun e => hwhole (e ▸ List.prefix_rfl)
      rw [hr.cut part hfirst hne']
      rfl

theorem Reads.map {r : ByteReader α} {bytes : List UInt8} {a : α} (hr : Reads r bytes a)
    (f : α → β) : Reads (f <$> r) bytes (f a) where
  taken rest := by
    rw [StateT.run_map, hr.taken]
    rfl
  cut part hpart hne := by
    rw [StateT.run_map, hr.cut part hpart hne]
    rfl

theorem reads_byte (b : UInt8) : Reads byte [b] b where
  taken rest := run_byte b rest
  cut part hpart hne := by
    have hlength := length_lt_of_cut hpart hne
    obtain rfl : part = [] := List.length_eq_zero_iff.mp (Nat.lt_one_iff.mp hlength)
    rfl

theorem run_number_of_short {width : Nat} {bytes : List UInt8} (h : bytes.length < width) :
    (number width).run bytes = .error .endOfBytes := by
  induction width generalizing bytes with
  | zero => exact absurd h (Nat.not_lt_zero _)
  | succ width ih =>
    cases bytes with
    | nil => rfl
    | cons b bytes =>
      have hrest : (number width).run bytes = .error .endOfBytes :=
        ih (Nat.lt_of_succ_lt_succ h)
      rw [number, StateT.run_bind, run_byte]
      change (number width).run bytes >>= _ = _
      rw [hrest]
      rfl

theorem reads_number {width n : Nat} (h : n < numberBound width) :
    Reads (number width) (numberBytes width n) n where
  taken rest := run_number width n rest h
  cut part hpart hne := by
    have hlength := length_lt_of_cut hpart hne
    rw [length_numberBytes] at hlength
    exact run_number_of_short hlength

theorem reads_uint16 (n : UInt16) : Reads uint16 (numberBytes 2 n.toNat) n := by
  have h := (@reads_number 2 n.toNat n.toNat_lt).map UInt16.ofNat
  rwa [UInt16.ofNat_toNat] at h

theorem reads_uint64 (n : UInt64) : Reads uint64 (numberBytes 8 n.toNat) n := by
  have h := (@reads_number 8 n.toNat n.toNat_lt).map UInt64.ofNat
  rwa [UInt64.ofNat_toNat] at h

theorem run_bytes (n : Nat) (all : List UInt8) :
    (bytes n).run all =
      if n ≤ all.length then .ok (all.take n, all.drop n) else .error .endOfBytes := by
  simp only [bytes, StateT.run_bind, StateT.run_get]
  change (if n ≤ all.length then _ else _ : ByteReader _).run all = _
  split
  · rfl
  · rfl

theorem reads_bytes (bs : List UInt8) : Reads (bytes bs.length) bs bs where
  taken rest := by
    have hlength : bs.length ≤ (bs ++ rest).length := by
      rw [List.length_append]
      omega
    rw [run_bytes, if_pos hlength, List.take_left, List.drop_left]
  cut part hpart hne := by
    rw [run_bytes, if_neg (Nat.not_le.mpr (length_lt_of_cut hpart hne))]

theorem reads_choice {count n : Nat} (h : n < count) (hn : n < numberBound 4) :
    Reads (choice count) (choiceBytes n) n := by
  have hcheck : Reads (if n < count then Pure.pure n else throw (.badVariant n count)) [] n := by
    rw [if_pos h]
    exact Reads.pure n
  have hchoice : Reads (choice count) (choiceBytes n ++ []) n := (reads_number hn).bind hcheck
  rwa [List.append_nil] at hchoice

end ByteReader

open ByteReader

theorem Layout.reads (l : Layout) : Reads reader l.toBytes l := by
  rw [toBytes, List.append_assoc]
  refine (reads_uint16 _).bind ((reads_uint16 _).bind ?_)
  rw [← List.append_nil (numberBytes 2 l.stackSize.toNat)]
  exact (reads_uint16 _).bind (Reads.pure _)

theorem Fault.reads (f : Fault) : Reads reader f.toBytes f := by
  cases f with
  | invalidRegister r =>
    exact (reads_choice (by decide) (by decide)).bind ((reads_byte _).bind (Reads.pure _))
  | unknownOpcode code =>
    exact (reads_choice (by decide) (by decide)).bind ((reads_byte _).bind (Reads.pure _))
  | _ =>
    rw [toBytes, ← List.append_nil (choiceBytes _)]
    exact (reads_choice (by decide) (by decide)).bind (Reads.pure _)

theorem HaltReason.reads (r : HaltReason) : Reads reader r.toBytes r := by
  cases r <;>
    rw [toBytes, ← List.append_nil (choiceBytes _)] <;>
    exact (reads_choice (by decide) (by decide)).bind (Reads.pure _)

theorem Status.reads (s : Status) : Reads reader s.toBytes s := by
  cases s with
  | running =>
    rw [toBytes, ← List.append_nil (choiceBytes _)]
    exact (reads_choice (by decide) (by decide)).bind (Reads.pure _)
  | halted reason =>
    rw [toBytes, ← List.append_nil reason.toBytes]
    exact (reads_choice (by decide) (by decide)).bind ((HaltReason.reads _).bind (Reads.pure _))
  | faulted fault =>
    rw [toBytes, ← List.append_nil fault.toBytes]
    exact (reads_choice (by decide) (by decide)).bind ((Fault.reads _).bind (Reads.pure _))

theorem exists_registers (v : Vector UInt8 registerCount) :
    ∃ r0 r1 r2 r3 r4 r5 r6 r7, v = #v[r0, r1, r2, r3, r4, r5, r6, r7] := by
  obtain ⟨⟨l⟩, h⟩ := v
  match l, h with
  | [r0, r1, r2, r3, r4, r5, r6, r7], _ => exact ⟨r0, r1, r2, r3, r4, r5, r6, r7, rfl⟩

theorem State.reads (s : State) : Reads reader s.toBytes s := by
  obtain ⟨registers, pc, sp, flags, cycles, status⟩ := s
  obtain ⟨r0, r1, r2, r3, r4, r5, r6, r7, rfl⟩ := exists_registers registers
  have hbytes : toBytes ⟨#v[r0, r1, r2, r3, r4, r5, r6, r7], pc, sp, flags, cycles, status⟩
      = [r0] ++ ([r1] ++ ([r2] ++ ([r3] ++ ([r4] ++ ([r5] ++ ([r6] ++ ([r7]
        ++ (numberBytes 2 pc.toNat ++ (numberBytes 2 sp.toNat ++ ([flags.bits]
        ++ (numberBytes 8 cycles.toNat ++ (status.toBytes ++ [])))))))))))) := by
    simp [toBytes]
  rw [hbytes]
  exact (reads_byte _).bind ((reads_byte _).bind ((reads_byte _).bind ((reads_byte _).bind
    ((reads_byte _).bind ((reads_byte _).bind ((reads_byte _).bind ((reads_byte _).bind
    ((reads_uint16 _).bind ((reads_uint16 _).bind ((reads_byte _).bind ((reads_uint64 _).bind
    ((Status.reads _).bind (Reads.pure _)))))))))))))

/-- A snapshot is read back from its bytes, whatever stands behind them. -/
theorem Snapshot.reads {s : Snapshot} (h : s.memory.size < numberBound 8) :
    Reads reader s.toBytes s := by
  have hbytes : s.toBytes = s.layout.toBytes ++ (s.state.toBytes
      ++ (numberBytes 8 s.memory.size ++ (s.memory.toList ++ []))) := by
    simp [toBytes]
  rw [hbytes]
  exact (Layout.reads _).bind ((State.reads _).bind ((reads_number h).bind
    ((reads_bytes s.memory.toList).bind (Reads.pure _))))

theorem Snapshot.ofBytes_toBytes {s : Snapshot} (h : s.memory.size < numberBound 8) :
    ofBytes s.toBytes = .ok s := by
  have hread := (Snapshot.reads h).taken []
  rw [List.append_nil] at hread
  rw [ofBytes, hread]
  rfl

end ByteMachine
