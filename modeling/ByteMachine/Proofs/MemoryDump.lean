import ByteMachine.Machine.Dump
import ByteMachine.Proofs.Memory
import ByteMachine.Proofs.Numerals
import ByteMachine.Proofs.Reassembly
import Mathlib.Algebra.Order.Floor.Div
import Mathlib.Data.List.Intervals

namespace ByteMachine

/-- Pieces of `width` elements, of which the last may be shorter. A width of 0 counts as 1. -/
def pieces {α : Type} (width : Nat) : List α → List (List α)
  | [] => []
  | a :: as => (a :: as.take (width - 1)) :: pieces width (as.drop (width - 1))
termination_by l => l.length
decreasing_by
  rw [List.length_drop, List.length_cons]
  omega

theorem flatten_pieces {α : Type} (width : Nat) (l : List α) : (pieces width l).flatten = l := by
  induction l using pieces.induct width with
  | case1 => rw [pieces, List.flatten_nil]
  | case2 a as ih => rw [pieces, List.flatten_cons, ih, List.cons_append, List.take_append_drop]

/-- Every piece but the last takes a full width away. -/
theorem ceilDiv_eq_succ {n width : Nat} (hn : 0 < n) (hwidth : 0 < width) :
    n ⌈/⌉ width = (n - width) ⌈/⌉ width + 1 := by
  have hleft : n + width - 1 = n - 1 + width := by omega
  rw [Nat.ceilDiv_eq_add_pred_div, Nat.ceilDiv_eq_add_pred_div, hleft, Nat.add_div_right _ hwidth]
  by_cases h : width ≤ n
  · have hright : n - width + width - 1 = n - 1 := by omega
    rw [hright]
  · rw [Nat.div_eq_of_lt (by omega), Nat.div_eq_of_lt (by omega)]

theorem pieces_eq {α : Type} {width : Nat} (hwidth : 0 < width) (l : List α) :
    pieces width l =
      (List.range (l.length ⌈/⌉ width)).map fun k => (l.drop (k * width)).take width := by
  obtain ⟨w, rfl⟩ := Nat.exists_eq_add_of_lt hwidth
  rw [Nat.zero_add] at hwidth ⊢
  induction l using pieces.induct (w + 1) with
  | case1 =>
    rw [pieces, List.length_nil, zero_ceilDiv]
    rfl
  | case2 a as ih =>
    have hrest : as.drop w = (a :: as).drop (w + 1) := rfl
    have hpos : 0 < (a :: as).length := Nat.succ_pos as.length
    have hlength : (a :: as).length ⌈/⌉ (w + 1) = (as.drop w).length ⌈/⌉ (w + 1) + 1 := by
      rw [ceilDiv_eq_succ hpos hwidth, hrest, List.length_drop]
    rw [Nat.add_sub_cancel] at ih
    rw [pieces, Nat.add_sub_cancel, ih, hlength, List.range_succ_eq_map, List.map_cons,
      List.map_map]
    congr 1
    · rw [Nat.zero_mul]
      rfl
    · apply List.map_congr_left
      intro k _
      have hskip : (k + 1) * (w + 1) = w + 1 + k * (w + 1) := by ring
      rw [Function.comp_apply, Nat.succ_eq_add_one, hskip, hrest, List.drop_drop]

theorem lt_ceilDiv_iff {n width : Nat} (hwidth : 0 < width) (k : Nat) :
    k < n ⌈/⌉ width ↔ k * width < n := by
  rw [← Nat.not_le, ceilDiv_le_iff_le_mul hwidth, Nat.not_le, Nat.mul_comm]

namespace Memory

theorem slice_eq_take_drop (m : Memory) (start length : Nat) :
    m.slice start length = (m.bytes.toList.drop start).take length := by
  rw [slice, Array.toList_extract, List.extract_eq_take_drop, Nat.add_sub_cancel_left]
  rfl

/-- The byte at an address, counted round the end of memory. -/
def byteAt (m : Memory) (address : Nat) : UInt8 :=
  m.read (UInt16.ofNat address)

theorem slice_eq_map_byteAt (m : Memory) {start length : Nat} (h : start + length ≤ memorySize) :
    m.slice start length = (List.Ico start (start + length)).map m.byteAt := by
  induction length generalizing start with
  | zero =>
    rw [Nat.add_zero, List.Ico.self_empty, slice_eq_take_drop]
    rfl
  | succ length ih =>
    have hsize : memorySize = 65536 := rfl
    have hstart : (UInt16.ofNat start).toNat = start := by
      rw [UInt16.toNat_ofNat']
      omega
    have hfirst := m.slice_succ (UInt16.ofNat start) length
    rw [hstart] at hfirst
    have hrest : start + 1 + length ≤ memorySize := by omega
    have hend : start + (length + 1) = start + 1 + length := by omega
    have hcons : List.Ico start (start + 1 + length)
        = start :: List.Ico (start + 1) (start + 1 + length) := List.Ico.eq_cons (by omega)
    rw [hfirst, ih hrest, hend, hcons, List.map_cons]
    rfl

theorem take_drop_slice (m : Memory) (start length skipped width : Nat) :
    ((m.slice start length).drop skipped).take width
      = m.slice (start + skipped) (min width (length - skipped)) := by
  rw [slice_eq_take_drop, slice_eq_take_drop, List.drop_take, List.take_take, List.drop_drop]

end Memory

/-- A row of a dump without its line feed: an address, and bytes that stand apart. -/
def dumpLine (address : Nat) (bytes : List UInt8) : List Char :=
  '0' :: 'x' :: (Text.fixedHex 4 address ++ ':' ::
    bytes.flatMap fun b => ' ' :: Text.fixedHex 2 b.toNat)

theorem toList_dumpRow {address : Nat} (h : address < memorySize) (bytes : List UInt8) :
    (Memory.dumpRow address bytes).toList = dumpLine address bytes ++ ['\n'] := by
  have hcolon : ":".toList = [':'] := by decide
  have hblank : " ".toList = [' '] := by decide
  have hfeed : "\n".toList = ['\n'] := by decide
  have hlabel := Text.toList_addressLabel h
  have hbytes : (String.join (bytes.map fun b => " " ++ Text.upperHex 2 b.toNat)).toList
      = bytes.flatMap fun b => ' ' :: Text.fixedHex 2 b.toNat := by
    rw [String.toList_join, List.flatMap_map]
    congr 1
    funext b
    rw [String.toList_append, Text.toList_upperHex (by decide) b.toNat_lt, hblank]
    rfl
  simp only [Memory.dumpRow, dumpLine, String.toList_append, hlabel, hcolon, hbytes, hfeed,
    List.append_assoc, List.cons_append, List.nil_append]

theorem newline_not_mem_dumpLine (address : Nat) (bytes : List UInt8) :
    '\n' ∉ dumpLine address bytes := by
  have haddress := Text.not_mem_fixedHex Text.newline_not_mem_digits 4 address
  have hbytes : '\n' ∉ bytes.flatMap fun b => ' ' :: Text.fixedHex 2 b.toNat := by
    intro h
    obtain ⟨b, -, hb⟩ := List.mem_flatMap.mp h
    rcases List.mem_cons.mp hb with hb | hb
    · exact absurd hb (by decide)
    · exact Text.not_mem_fixedHex Text.newline_not_mem_digits 2 b.toNat hb
  simp only [dumpLine, List.mem_cons, List.mem_append, haddress, hbytes, or_false]
  decide

/-- The bytes that a line of a dump shows: the numbers behind its first blank. -/
def bytesOfLine (line : List Char) : List UInt8 :=
  ((line.splitOn ' ').drop 1).map fun digits => UInt8.ofNat (Text.numeralValue 16 digits)

theorem bytesOfLine_dumpLine (address : Nat) (bytes : List UInt8) :
    bytesOfLine (dumpLine address bytes) = bytes := by
  have hblank : ' ' ∉ Text.digitOrder.map Char.toUpper := by decide
  have hsplit (before : List Char) (hbefore : ' ' ∉ before) :
      (before ++ bytes.flatMap fun b => ' ' :: Text.fixedHex 2 b.toNat).splitOn ' '
        = before :: bytes.map fun b => Text.fixedHex 2 b.toNat := by
    induction bytes generalizing before with
    | nil => rw [List.flatMap_nil, List.append_nil, List.splitOn_eq_singleton hbefore, List.map_nil]
    | cons b bytes ih =>
      have hrest := ih _ (Text.not_mem_fixedHex hblank 2 b.toNat)
      rw [List.flatMap_cons, List.cons_append, List.splitOn_append_cons_self_of_not_mem hbefore,
        hrest, List.map_cons]
  have hlabel : ' ' ∉ '0' :: 'x' :: (Text.fixedHex 4 address ++ [':']) := by
    have haddress := Text.not_mem_fixedHex hblank 4 address
    simp only [List.mem_cons, List.mem_append, haddress, false_or]
    decide
  have hline : dumpLine address bytes
      = '0' :: 'x' :: (Text.fixedHex 4 address ++ [':'])
        ++ bytes.flatMap fun b => ' ' :: Text.fixedHex 2 b.toNat := by
    simp only [dumpLine, List.cons_append, List.append_assoc, List.nil_append]
  rw [bytesOfLine, hline, hsplit _ hlabel, List.drop_one, List.tail_cons, List.map_map]
  apply List.map_id''
  intro b
  rw [Function.comp_apply, Text.numeralValue_fixedHex b.toNat_lt, UInt8.ofNat_toNat]

namespace Memory

/-- The bytes of a row of `width` bytes, or fewer where the last of `count` bytes is among them. -/
def rowBytes (m : Memory) (start count width row : Nat) : List UInt8 :=
  (List.Ico (start + row * width) (min (start + (row + 1) * width) (start + count))).map m.byteAt

section

variable {m : Memory} {start count width row : Nat}

theorem slice_eq_rowBytes (hcount : start + count ≤ memorySize) (hrow : row * width < count) :
    m.slice (start + row * width) (min width (count - row * width))
      = m.rowBytes start count width row := by
  have hnext : (row + 1) * width = row * width + width := Nat.succ_mul row width
  have hroom : start + row * width + min width (count - row * width) ≤ memorySize := by omega
  have hend : start + row * width + min width (count - row * width)
      = min (start + (row + 1) * width) (start + count) := by omega
  rw [slice_eq_map_byteAt m hroom, hend, rowBytes]

theorem pieces_slice (hwidth : 0 < width) (hcount : start + count ≤ memorySize) :
    pieces width (m.slice start count)
      = (List.range (count ⌈/⌉ width)).map (m.rowBytes start count width) := by
  rw [pieces_eq hwidth, length_slice m hcount]
  apply List.map_congr_left
  intro row hrow
  have hlt := (lt_ceilDiv_iff hwidth row).mp (List.mem_range.mp hrow)
  rw [take_drop_slice, slice_eq_rowBytes hcount hlt]

/-- The rows have every byte once and in order. -/
theorem flatMap_rowBytes (hwidth : 0 < width) (hcount : start + count ≤ memorySize) :
    (List.range (count ⌈/⌉ width)).flatMap (m.rowBytes start count width)
      = (List.Ico start (start + count)).map m.byteAt := by
  calc
    _ = (pieces width (m.slice start count)).flatten := by
      rw [pieces_slice hwidth hcount, List.flatMap_def]
    _ = m.slice start count := flatten_pieces width _
    _ = (List.Ico start (start + count)).map m.byteAt := slice_eq_map_byteAt m hcount

end

theorem add_dumpLength_le (start : UInt16) (length : Nat) :
    start.toNat + dumpLength start length ≤ memorySize := by
  have hstart : start.toNat < memorySize := start.toNat_lt
  rw [dumpLength]
  omega

theorem dumpRows_eq (m : Memory) (start : UInt16) (length width : Nat) :
    m.dumpRows start length width
      = (List.range (dumpLength start length ⌈/⌉ max width 1)).map fun row =>
          (start.toNat + row * max width 1,
            m.rowBytes start.toNat (dumpLength start length) (max width 1) row) := by
  have hwidth : 0 < max width 1 := by omega
  have hrows : (dumpLength start length + (max width 1 - 1)) / max width 1
      = dumpLength start length ⌈/⌉ max width 1 := by
    rw [Nat.ceilDiv_eq_add_pred_div, Nat.add_sub_assoc hwidth]
  rw [dumpRows, hrows]
  apply List.map_congr_left
  intro row hrow
  have hlt := (lt_ceilDiv_iff hwidth row).mp (List.mem_range.mp hrow)
  exact congrArg (Prod.mk _) (slice_eq_rowBytes (add_dumpLength_le start length) hlt)

/-- The lines of a dump of `count` bytes, in rows of `width` bytes. -/
def dumpLines (m : Memory) (start count width : Nat) : List (List Char) :=
  (List.range (count ⌈/⌉ width)).map fun row =>
    dumpLine (start + row * width) (m.rowBytes start count width row)

theorem rowAddress_lt {start count width row : Nat} (hwidth : 0 < width)
    (hcount : start + count ≤ memorySize) (hrow : row < count ⌈/⌉ width) :
    start + row * width < memorySize := by
  have hlt := (lt_ceilDiv_iff hwidth row).mp hrow
  omega

theorem toList_dump (m : Memory) (start : UInt16) (length width : Nat) :
    (m.dump start length width).toList
      = (m.dumpLines start.toNat (dumpLength start length) (max width 1)).flatMap
          fun line => line ++ ['\n'] := by
  have hwidth : 0 < max width 1 := by omega
  rw [dump, dumpRows_eq, dumpLines, String.toList_join, List.flatMap_map, List.flatMap_map,
    List.flatMap_map]
  apply List.flatMap_congr
  intro row hrow
  apply toList_dumpRow
  exact rowAddress_lt hwidth (add_dumpLength_le start length) (List.mem_range.mp hrow)

/-- What a dump shows of `count` bytes of memory, in rows of `width` bytes. -/
structure Shown (m : Memory) (start count width : Nat) (dump : String)
    (rows : List (List Char)) : Prop where
  lines : dump.toList.splitOn '\n' = rows ++ [[]]
  rowCount : rows.length = count ⌈/⌉ width
  row : ∀ k < rows.length,
    rows[k]? = some (dumpLine (start + k * width) (m.rowBytes start count width k))
  address : ∀ k < rows.length, start + k * width ≤ 0xFFFF
  readBack : rows.flatMap bytesOfLine = (List.Ico start (start + count)).map m.byteAt

theorem shown_dumpLines (m : Memory) (start : UInt16) (length width : Nat) :
    m.Shown start.toNat (dumpLength start length) (max width 1) (m.dump start length width)
      (m.dumpLines start.toNat (dumpLength start length) (max width 1)) := by
  have hwidth : 0 < max width 1 := by omega
  have hroom := add_dumpLength_le start length
  have htext := m.toList_dump start length width
  generalize dumpLength start length = n at hroom htext ⊢
  generalize max width 1 = w at hwidth htext ⊢
  have hlength : (m.dumpLines start.toNat n w).length = n ⌈/⌉ w := by
    rw [dumpLines, List.length_map, List.length_range]
  exact {
    lines := by
      rw [htext]
      apply Assembly.splitOn_lines
      intro line hline
      obtain ⟨row, -, rfl⟩ := List.mem_map.mp hline
      exact newline_not_mem_dumpLine _ _
    rowCount := hlength
    row := by
      intro k hk
      rw [hlength] at hk
      rw [dumpLines, List.getElem?_map, List.getElem?_range hk]
      rfl
    address := by
      intro k hk
      rw [hlength] at hk
      exact Nat.le_of_lt_succ (rowAddress_lt hwidth hroom hk)
    readBack := by
      rw [dumpLines, List.flatMap_map, ← flatMap_rowBytes hwidth hroom]
      apply List.flatMap_congr
      intro row _
      exact bytesOfLine_dumpLine _ _ }

end Memory

/-- A number, if 64 bits have room for it. -/
def wide? (n : Nat) : Option UInt64 :=
  if n < UInt64.size then some (UInt64.ofNat n) else none

def wideSum? (a b : UInt64) : Option UInt64 :=
  wide? (a.toNat + b.toNat)

def wideProduct? (a b : UInt64) : Option UInt64 :=
  wide? (a.toNat * b.toNat)

/-- A sum, or the greatest number where the sum is greater. -/
def saturatingSum (a b : UInt64) : UInt64 :=
  (wideSum? a b).getD 0xFFFFFFFFFFFFFFFF

theorem exists_wide? {n : Nat} (h : n < UInt64.size) : ∃ a, wide? n = some a ∧ a.toNat = n :=
  ⟨UInt64.ofNat n, if_pos h, UInt64.toNat_ofNat_of_lt h⟩

theorem toNat_saturatingSum (a b : UInt64) :
    (saturatingSum a b).toNat = min (a.toNat + b.toNat) (UInt64.size - 1) := by
  have hsize : UInt64.size = 18446744073709551616 := rfl
  by_cases h : a.toNat + b.toNat < UInt64.size
  · obtain ⟨sum, hwide, hsum⟩ := exists_wide? h
    rw [saturatingSum, wideSum?, hwide, Option.getD_some, hsum]
    omega
  · have hnone : wideSum? a b = none := if_neg h
    have hgreatest : (0xFFFFFFFFFFFFFFFF : UInt64).toNat = 18446744073709551615 := rfl
    rw [saturatingSum, hnone, Option.getD_none, hgreatest]
    omega

namespace Memory

/-- The rows of pieces of memory, numbered on from `row`, or nothing where a number leaves its
range. -/
def exactRows? (start width row : UInt64) : List (List UInt8) → Option String
  | [] => some ""
  | bytes :: rest => do
    let address ← wideSum? start (← wideProduct? row width)
    let behind ← exactRows? start width (← wideSum? row 1) rest
    return dumpRow address.toNat bytes ++ behind

/-- The bytes between two addresses, or nothing where one of them lies outside. -/
def exactSlice? (m : Memory) (start stop : UInt64) : Option (List UInt8) :=
  if start ≤ stop ∧ stop.toNat ≤ memorySize then
    some (m.slice start.toNat (stop.toNat - start.toNat))
  else none

/-- A dump made row by row from the bytes up to the end of memory, or nothing where a number leaves
its range. -/
def exactDump? (m : Memory) (start : UInt16) (length width : UInt64) : Option String := do
  let stop := min (saturatingSum start.toUInt64 length) 65536
  let bytes ← m.exactSlice? start.toUInt64 stop
  exactRows? start.toUInt64 (max width 1) 0 (pieces (max width 1).toNat bytes)

theorem exactSlice?_eq (m : Memory) (start : UInt16) (length : UInt64) :
    m.exactSlice? start.toUInt64 (min (saturatingSum start.toUInt64 length) 65536)
      = some (m.slice start.toNat (dumpLength start length.toNat)) := by
  have hsize : UInt64.size = 18446744073709551616 := rfl
  have hmemory : memorySize = 65536 := rfl
  have hend : (65536 : UInt64).toNat = 65536 := rfl
  have hstart : start.toUInt64.toNat = start.toNat := UInt16.toNat_toUInt64 start
  have hlt := start.toNat_lt
  have hstop : (min (saturatingSum start.toUInt64 length) 65536).toNat
      = start.toNat + dumpLength start length.toNat := by
    rw [UInt64.toNat_min, toNat_saturatingSum, hstart, hend, dumpLength]
    omega
  have hroom := add_dumpLength_le start length.toNat
  have hinside : start.toUInt64 ≤ min (saturatingSum start.toUInt64 length) 65536 := by
    rw [UInt64.le_iff_toNat_le, hstop, hstart]
    omega
  rw [exactSlice?, if_pos ⟨hinside, hstop ▸ hroom⟩, hstop, hstart, Nat.add_sub_cancel_left]

/-- Rows whose addresses lie in memory have numbers in range. -/
theorem exactRows?_eq {start width row : UInt64} (hwidth : 0 < width.toNat)
    (bytes : Nat → List UInt8) {count : Nat}
    (h : ∀ k < count, start.toNat + (row.toNat + k) * width.toNat < memorySize) :
    exactRows? start width row ((List.range' row.toNat count).map bytes)
      = some (String.join ((List.range' row.toNat count).map fun k =>
          dumpRow (start.toNat + k * width.toNat) (bytes k))) := by
  induction count generalizing row with
  | zero => rfl
  | succ count ih =>
    have hsize : UInt64.size = 18446744073709551616 := rfl
    have hmemory : memorySize = 65536 := rfl
    have hone : (1 : UInt64).toNat = 1 := rfl
    have hfirst := h 0 (Nat.succ_pos count)
    rw [Nat.add_zero] at hfirst
    have hrow : row.toNat ≤ row.toNat * width.toNat := Nat.le_mul_of_pos_right _ hwidth
    obtain ⟨offset, hoffset, hproduct⟩ : ∃ offset, wideProduct? row width = some offset ∧
        offset.toNat = row.toNat * width.toNat := exists_wide? (by omega)
    obtain ⟨address, haddress, hsum⟩ : ∃ address, wideSum? start offset = some address ∧
        address.toNat = start.toNat + offset.toNat := exists_wide? (by omega)
    obtain ⟨next, hnext, hsucc⟩ : ∃ next, wideSum? row 1 = some next ∧
        next.toNat = row.toNat + 1 := exists_wide? (by omega)
    have hrest : ∀ k < count, start.toNat + (next.toNat + k) * width.toNat < memorySize := by
      intro k hk
      have hbehind := h (k + 1) (Nat.succ_lt_succ hk)
      have hnumber : next.toNat + k = row.toNat + (k + 1) := by omega
      rwa [hnumber]
    have hrows := ih hrest
    rw [hsucc] at hrows
    have hplace : address.toNat = start.toNat + row.toNat * width.toNat := by rw [hsum, hproduct]
    rw [List.range'_succ, List.map_cons, List.map_cons, String.join_cons, ← hplace]
    simp only [exactRows?, hoffset, haddress, hnext, hrows, Option.bind_eq_bind, Option.bind_some]
    rfl

theorem exactDump?_eq (m : Memory) (start : UInt16) (length width : UInt64) :
    m.exactDump? start length width = some (m.dump start length.toNat width.toNat) := by
  have hstart : start.toUInt64.toNat = start.toNat := UInt16.toNat_toUInt64 start
  have hwidth : (max width 1).toNat = max width.toNat 1 := UInt64.toNat_max width 1
  have hpos : 0 < (max width 1).toNat := by omega
  have hroom := add_dumpLength_le start length.toNat
  have haddress : ∀ k < dumpLength start length.toNat ⌈/⌉ (max width 1).toNat,
      start.toUInt64.toNat + ((0 : UInt64).toNat + k) * (max width 1).toNat < memorySize := by
    intro k hk
    have hzero : (0 : UInt64).toNat + k = k := Nat.zero_add k
    rw [hstart, hzero]
    exact rowAddress_lt hpos hroom hk
  have hrows := exactRows?_eq hpos
    (m.rowBytes start.toNat (dumpLength start length.toNat) (max width 1).toNat) haddress
  have hzero : (0 : UInt64).toNat = 0 := rfl
  rw [hzero, ← List.range_eq_range', hstart] at hrows
  rw [exactDump?, exactSlice?_eq, Option.bind_eq_bind, Option.bind_some, pieces_slice hpos hroom,
    hrows, dump, dumpRows_eq, List.map_map, hwidth]
  rfl

/-- A dump shows the bytes that are asked for up to the end of memory, whatever start, length and
width are, and no number leaves 64 bits while it is made. -/
theorem dump_shows_memory (m : Memory) (start : UInt16) (length width : UInt64) :
    (∃ rows, m.Shown start.toNat (min length.toNat (memorySize - start.toNat)) (max width.toNat 1)
      (m.dump start length.toNat width.toNat) rows) ∧
    m.exactDump? start length width = some (m.dump start length.toNat width.toNat) :=
  ⟨⟨_, m.shown_dumpLines start length.toNat width.toNat⟩, m.exactDump?_eq start length width⟩

end Memory

end ByteMachine
