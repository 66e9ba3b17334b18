import ByteMachine.Machine.State

/-!
The trace of a run: a row for each completed cycle, of which the latest are kept, up to a limit.
Rows past the limit may still be stored, so that they are thrown away many at a time; `rows` is what
the trace holds.
-/

namespace ByteMachine

/-- One completed cycle: where its word was, and the state behind it. -/
structure TraceRow where
  cycle : UInt64
  pc : UInt16
  word : UInt16
  registers : Vector UInt8 registerCount
  sp : UInt16
  flags : Flags
  deriving DecidableEq

namespace TraceRow

/-- The row of a cycle that ended in a given state. -/
def ofState (s : State) (pc word : UInt16) : TraceRow where
  cycle := s.cycles
  pc
  word
  registers := s.registers
  sp := s.sp
  flags := s.flags

/-- One register of a row, with its number. -/
def registerText (number : Nat) (value : UInt8) : String :=
  "r" ++ Text.decimal number ++ "=" ++ Text.upperHex 2 value.toNat ++ " "

def text (r : TraceRow) : String :=
  "[" ++ Text.decimalColumn 6 r.cycle.toNat ++ "] " ++ Text.addressLabel r.pc.toNat ++ " "
    ++ Text.upperHex 4 r.word.toNat ++ " "
    ++ String.join (r.registers.toList.zipIdx.map fun (value, number) => registerText number value)
    ++ "sp=" ++ Text.addressLabel r.sp.toNat ++ " " ++ r.flags.text

end TraceRow

/-- A trace: whether rows are taken, how many are held, and the rows stored, newest first. -/
structure Trace where
  enabled : Bool
  limit : Nat
  recent : List TraceRow
  stored : Nat
  deriving DecidableEq

namespace Trace

def standardLimit : Nat := 65536

def empty (enabled : Bool) (limit : Nat) : Trace where
  enabled
  limit
  recent := []
  stored := 0

/-- The rows held, oldest first. -/
def rows (t : Trace) : List TraceRow :=
  (t.recent.take t.limit).reverse

def clear (t : Trace) : Trace :=
  empty t.enabled t.limit

/-- Takes a row; with twice the limit stored, those past the limit go. -/
def push (t : Trace) (row : TraceRow) : Trace :=
  if !t.enabled then t
  else if t.stored < 2 * t.limit then
    { t with recent := row :: t.recent, stored := t.stored + 1 }
  else
    { t with recent := row :: t.recent.take t.limit, stored := t.limit + 1 }

theorem rows_empty (enabled : Bool) (limit : Nat) : (empty enabled limit).rows = [] := by
  simp [rows, empty]

theorem rows_clear (t : Trace) : t.clear.rows = [] :=
  rows_empty t.enabled t.limit

/-- A row taken is the newest, and the rows before it are held as far as the limit allows. -/
theorem rows_push (t : Trace) (row : TraceRow) (h : t.enabled = true) :
    (t.push row).rows = ((row :: t.recent).take t.limit).reverse := by
  unfold push
  rw [if_neg (by simp [h])]
  split
  · rfl
  · simp only [rows]
    cases hl : t.limit with
    | zero => simp
    | succ n => simp [List.take_take]

theorem push_of_disabled (t : Trace) (row : TraceRow) (h : t.enabled = false) :
    t.push row = t := by
  simp [push, h]

/-- A row taken follows the rows held, of which the oldest goes where the limit is reached. -/
theorem rows_push_eq (t : Trace) (row : TraceRow) :
    (t.push row).rows =
      if t.enabled then (t.rows ++ [row]).drop (t.rows.length + 1 - t.limit) else t.rows := by
  cases he : t.enabled with
  | false =>
    rw [push_of_disabled t row he]
    rfl
  | true =>
    have htake : (row :: t.recent).take t.limit = (row :: t.recent.take t.limit).take t.limit := by
      cases t.limit with
      | zero => rfl
      | succ n => simp [List.take_take]
    rw [rows_push t row he, htake, List.reverse_take, List.reverse_cons, List.length_cons,
      if_pos rfl, rows, List.length_reverse]

theorem length_rows_le (t : Trace) : t.rows.length ≤ t.limit := by
  rw [rows, List.length_reverse]
  exact List.length_take_le _ _

theorem settings_push (t : Trace) (row : TraceRow) :
    (t.push row).enabled = t.enabled ∧ (t.push row).limit = t.limit := by
  unfold push
  split
  · exact ⟨rfl, rfl⟩
  split
  · exact ⟨rfl, rfl⟩
  · exact ⟨rfl, rfl⟩

end Trace

end ByteMachine
