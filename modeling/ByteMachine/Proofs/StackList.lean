import ByteMachine.Proofs.Run
import ByteMachine.Proofs.StackWindow

namespace ByteMachine

namespace Core

/-- The bytes from the stack pointer up to the top of the stack, the one pushed last first. -/
def stack (c : Core) : List UInt8 :=
  c.memory.slice c.state.sp.toNat (c.layout.stackTop.toNat - c.state.sp.toNat)

/-- The next step writes to no address of the stack by a store. -/
def SparesStack (c : Core) : Prop :=
  ∀ hi lo src, c.executed? = some (.st hi lo src) →
    ¬ (c.state.sp ≤ c.state.target hi lo ∧ c.state.target hi lo < c.layout.stackTop)

theorem length_stack {c : Core} (hw : c.InWindow) :
    c.stack.length = c.layout.stackTop.toNat - c.state.sp.toNat := by
  have htop : c.layout.stackTop.toNat < memorySize := c.layout.stackTop.toNat_lt
  have hle := UInt16.le_iff_toNat_le.mp hw.le_top
  exact c.memory.length_slice (by omega)

theorem getElem_stack {c : Core} {n : Nat} (hn : n < c.stack.length) (address : UInt16)
    (ha : address.toNat = c.state.sp.toNat + n) : c.stack[n] = c.memory.read address :=
  c.memory.getElem_slice hn address ha

theorem stack_of_sameData {c d : Core} (h : SameData c d) : d.stack = c.stack := by
  rw [stack, stack, h.layout, h.memory, h.sp]

theorem length_stack_lt_iff {c : Core} (hw : c.InWindow) :
    c.stack.length < c.layout.stackSize.toNat ↔ c.layout.stackBottom < c.state.sp := by
  have hbottom := Layout.toNat_stackBottom hw.valid
  have hle := UInt16.le_iff_toNat_le.mp hw.bottom_le
  have htop := UInt16.le_iff_toNat_le.mp hw.le_top
  rw [length_stack hw, UInt16.lt_iff_toNat_lt]
  omega

theorem stack_eq_nil_iff {c : Core} (hw : c.InWindow) :
    c.stack = [] ↔ c.layout.stackTop ≤ c.state.sp := by
  have htop := UInt16.le_iff_toNat_le.mp hw.le_top
  rw [← List.length_eq_zero_iff, length_stack hw, UInt16.le_iff_toNat_le]
  omega

theorem stack_step_push {c : Core} (hw : c.InWindow) {src : Register}
    (h : c.executed? = some (.push src)) :
    c.step.core.stack = c.state.value src :: c.stack := by
  rw [stack_of_sameData (sameData_step_of_executed h)]
  have hlt := bottom_lt_of_push h
  have hsp := toNat_sub_one_of_lt hlt
  have htop := UInt16.le_iff_toNat_le.mp hw.le_top
  have hlen : c.layout.stackTop.toNat - (c.state.sp - 1).toNat
      = (c.layout.stackTop.toNat - c.state.sp.toNat) + 1 := by
    omega
  change (c.memory.write (c.state.sp - 1) (c.state.value src)).slice (c.state.sp - 1).toNat
    (c.layout.stackTop.toNat - (c.state.sp - 1).toNat) = _
  rw [hlen, Memory.slice_succ, Memory.read_write_self, hsp,
    Memory.slice_write_of_outside _ _ (Or.inl (by omega))]
  rfl

theorem stack_step_pop {c : Core} {dst : Register} (h : c.executed? = some (.pop dst)) :
    c.stack = c.memory.read c.state.sp :: c.step.core.stack := by
  rw [stack_of_sameData (sameData_step_of_executed h)]
  have hlt := lt_top_of_pop h
  have hsp := toNat_add_one_of_lt hlt
  rw [UInt16.lt_iff_toNat_lt] at hlt
  have hlen : c.layout.stackTop.toNat - c.state.sp.toNat
      = (c.layout.stackTop.toNat - (c.state.sp + 1).toNat) + 1 := by
    omega
  rw [stack, hlen, Memory.slice_succ, ← hsp]
  rfl

theorem stack_step_of_spares {c : Core} (hspare : c.SparesStack)
    (hpush : ∀ r, c.executed? ≠ some (.push r)) (hpop : ∀ r, c.executed? ≠ some (.pop r)) :
    c.step.core.stack = c.stack := by
  cases hx : c.executed? with
  | none => exact stack_of_sameData (sameData_step_of_not_executed hx)
  | some i =>
    rw [stack_of_sameData (sameData_step_of_executed hx)]
    cases i with
    | push r => exact absurd hx (hpush r)
    | pop r => exact absurd hx (hpop r)
    | st hi lo src =>
      have hout := hspare hi lo src hx
      rw [UInt16.le_iff_toNat_le, UInt16.lt_iff_toNat_lt] at hout
      have hside : (c.state.target hi lo).toNat < c.state.sp.toNat ∨
          c.state.sp.toNat + (c.layout.stackTop.toNat - c.state.sp.toNat)
            ≤ (c.state.target hi lo).toNat := by
        omega
      exact c.memory.slice_write_of_outside _ hside
    | _ => rfl

theorem fault?_push {c : Core} (hw : c.InWindow) {src : Register} (hsrc : src.isValid = true) :
    (Instruction.push src).fault? c.layout c.state =
      if c.stack.length < c.layout.stackSize.toNat then none else some .stackOverflow := by
  have hregisters : ∀ r ∈ (Instruction.push src).registers, r.isValid = true :=
    List.forall_mem_singleton.mpr hsrc
  rw [Instruction.fault?_of_valid hregisters]
  simp only [Instruction.ownFault?, length_stack_lt_iff hw, ← UInt16.not_le, ite_not]

theorem fault?_pop {c : Core} (hw : c.InWindow) {dst : Register} (hdst : dst.isValid = true) :
    (Instruction.pop dst).fault? c.layout c.state =
      if c.stack = [] then some .stackUnderflow else none := by
  have hregisters : ∀ r ∈ (Instruction.pop dst).registers, r.isValid = true :=
    List.forall_mem_singleton.mpr hdst
  rw [Instruction.fault?_of_valid hregisters]
  simp only [Instruction.ownFault?, stack_eq_nil_iff hw]

/-- The stack is the list of its bytes, and a step works on it as on a list: a push or a pop taken
up, with a register that exists, moves one byte or meets its fault, and any other step keeps it. -/
structure StepsAsList (c : Core) : Prop where
  length : c.stack.length = c.layout.stackTop.toNat - c.state.sp.toNat
  byte : ∀ n (hn : n < c.stack.length) address, address.toNat = c.state.sp.toNat + n →
    c.stack[n] = c.memory.read address
  push : ∀ src, c.current? = some (.push src) → src.isValid = true →
    c.stack.length < c.layout.stackSize.toNat →
    c.executed? = some (.push src) ∧ c.step.core.stack = c.state.value src :: c.stack
  overflow : ∀ src, c.current? = some (.push src) → src.isValid = true →
    ¬ c.stack.length < c.layout.stackSize.toNat →
    c.step.answer
        = .error (.execution c.state.pc c.word (Fields.ofWord c.word) .stackOverflow) ∧
      c.step.core.stack = c.stack
  pop : ∀ dst, c.current? = some (.pop dst) → dst.isValid = true →
    ∀ byte rest, c.stack = byte :: rest →
    c.executed? = some (.pop dst) ∧ c.step.core.state.value dst = byte ∧
      c.step.core.stack = rest
  underflow : ∀ dst, c.current? = some (.pop dst) → dst.isValid = true → c.stack = [] →
    c.step.answer
        = .error (.execution c.state.pc c.word (Fields.ofWord c.word) .stackUnderflow) ∧
      c.step.core.stack = []
  other : (∀ r, r.isValid = true → c.current? ≠ some (.push r) ∧ c.current? ≠ some (.pop r)) →
    c.step.core.stack = c.stack

theorem stepsAsList {c : Core} (hw : c.InWindow) (hspare : c.SparesStack) : c.StepsAsList where
  length := length_stack hw
  byte _ hn address ha := getElem_stack hn address ha
  push src hi hsrc hroom := by
    have hx : c.executed? = some (.push src) :=
      executed?_eq_some.mpr ⟨hi, by rw [fault?_push hw hsrc, if_pos hroom]⟩
    exact ⟨hx, stack_step_push hw hx⟩
  overflow src hi hsrc hfull := by
    have hf := fault?_push hw hsrc
    rw [if_neg hfull] at hf
    rw [step_of_fault hi hf]
    exact ⟨rfl, rfl⟩
  pop dst hi hdst byte rest hstack := by
    have hne : c.stack ≠ [] := by
      rw [hstack]
      exact List.cons_ne_nil _ _
    have hx : c.executed? = some (.pop dst) :=
      executed?_eq_some.mpr ⟨hi, by rw [fault?_pop hw hdst, if_neg hne]⟩
    obtain ⟨hbyte, hrest⟩ := List.cons.inj (hstack.symm.trans (stack_step_pop hx))
    exact ⟨hx, (value_step_pop hx).trans hbyte.symm, hrest.symm⟩
  underflow dst hi hdst hempty := by
    have hf := fault?_pop hw hdst
    rw [if_pos hempty] at hf
    rw [step_of_fault hi hf]
    exact ⟨rfl, hempty⟩
  other hother := by
    apply stack_step_of_spares hspare
    · intro r hx
      have hr := valid_of_executed hx r (List.mem_singleton_self r)
      exact (hother r hr).1 (executed?_eq_some.mp hx).1
    · intro r hx
      have hr := valid_of_executed hx r (List.mem_singleton_self r)
      exact (hother r hr).2 (executed?_eq_some.mp hx).1

end Core

inductive StackMove
  | push (byte : UInt8)
  | pop (byte : UInt8)

namespace StackMove

/-- A list of at most `capacity` bytes behind a move, unless the list does not allow the move. -/
def act (capacity : Nat) (stack : List UInt8) : StackMove → Option (List UInt8)
  | push byte => if stack.length < capacity then some (byte :: stack) else none
  | pop byte => if stack.head? = some byte then some stack.tail else none

theorem foldlM_act_pushes {capacity : Nat} (bytes stack : List UInt8) {stack' : List UInt8}
    (h : (bytes.map push).foldlM (act capacity) stack = some stack') :
    stack' = bytes.reverse ++ stack := by
  induction bytes generalizing stack with
  | nil => exact (Option.some.inj h).symm
  | cons byte bytes ih =>
    rw [List.map_cons, List.foldlM_cons, act] at h
    split at h
    · rw [ih _ h, List.reverse_cons, List.append_assoc]
      rfl
    · exact absurd h (by simp)

theorem foldlM_act_pops {capacity : Nat} (bytes stack : List UInt8) {stack' : List UInt8}
    (h : (bytes.map pop).foldlM (act capacity) stack = some stack') :
    stack = bytes ++ stack' := by
  induction bytes generalizing stack with
  | nil => exact Option.some.inj h
  | cons byte bytes ih =>
    rw [List.map_cons, List.foldlM_cons, act] at h
    cases stack with
    | nil => exact absurd h (by simp)
    | cons top stack =>
      by_cases htop : top = byte
      · subst htop
        have hrest : stack = bytes ++ stack' := ih stack (by simpa using h)
        rw [hrest, List.cons_append]
      · exact absurd h (by simp [htop])

/-- Bytes pushed and as many popped come back in reverse order and leave the list as it was. -/
theorem pops_eq_reverse {capacity : Nat} {pushed popped stack stack' : List UInt8}
    (h : (pushed.map push ++ popped.map pop).foldlM (act capacity) stack = some stack')
    (hlength : pushed.length = popped.length) : popped = pushed.reverse ∧ stack' = stack := by
  rw [List.foldlM_append] at h
  obtain ⟨full, hpush, hpop⟩ := Option.bind_eq_some_iff.mp h
  have hfull := foldlM_act_pushes pushed stack hpush
  have hsplit := foldlM_act_pops popped full hpop
  have hrev : popped.length = pushed.reverse.length := by
    rw [List.length_reverse, hlength]
  exact List.append_inj (hsplit.symm.trans hfull) hrev

end StackMove

namespace Core

/-- What the next step moves on the stack, if it moves a byte. -/
def stackMove? (c : Core) : Option StackMove :=
  match c.executed? with
  | some (.push src) => some (.push (c.state.value src))
  | some (.pop dst) => some (.pop (c.step.core.state.value dst))
  | _ => none

theorem stack_step {c : Core} (hw : c.InWindow) (hspare : c.SparesStack) :
    c.stackMove?.toList.foldlM (StackMove.act c.layout.stackSize.toNat) c.stack
      = some c.step.core.stack := by
  have hkeep (hpush : ∀ r, c.executed? ≠ some (.push r)) (hpop : ∀ r, c.executed? ≠ some (.pop r))
      (hmove : c.stackMove? = none) :
      c.stackMove?.toList.foldlM (StackMove.act c.layout.stackSize.toNat) c.stack
        = some c.step.core.stack := by
    rw [hmove, stack_step_of_spares hspare hpush hpop]
    rfl
  cases hx : c.executed? with
  | none => exact hkeep (by simp [hx]) (by simp [hx]) (by rw [stackMove?, hx])
  | some i =>
    cases i with
    | push src =>
      have hmove : c.stackMove? = some (.push (c.state.value src)) := by
        rw [stackMove?, hx]
      have hroom := (length_stack_lt_iff hw).mpr (bottom_lt_of_push hx)
      rw [hmove, stack_step_push hw hx]
      simp [StackMove.act, hroom]
    | pop dst =>
      have hmove : c.stackMove? = some (.pop (c.memory.read c.state.sp)) := by
        rw [stackMove?, hx]
        exact congrArg (fun byte => some (StackMove.pop byte)) (value_step_pop hx)
      rw [hmove, stack_step_pop hx]
      simp [StackMove.act]
    | _ => exact hkeep (by simp [hx]) (by simp [hx]) (by rw [stackMove?, hx])

theorem length_stack_le {c : Core} (hw : c.InWindow) :
    c.stack.length ≤ c.layout.stackSize.toNat := by
  have hbottom := Layout.toNat_stackBottom hw.valid
  have hle := UInt16.le_iff_toNat_le.mp hw.bottom_le
  rw [length_stack hw]
  omega

theorem sp_eq_of_stack_eq {c d : Core} (hc : c.InWindow) (hd : d.InWindow)
    (hlayout : d.layout = c.layout) (h : d.stack = c.stack) : d.state.sp = c.state.sp := by
  have hlc := length_stack hc
  have hld := length_stack hd
  have htc := UInt16.le_iff_toNat_le.mp hc.le_top
  have htd := UInt16.le_iff_toNat_le.mp hd.le_top
  rw [h, hlayout] at hld
  rw [hlayout] at htd
  apply UInt16.toNat_inj.mp
  omega

end Core

namespace Machine

/-- The moves on the stack in the first steps of a run. -/
def stackMoves (m : Machine) : Nat → List StackMove
  | 0 => []
  | n + 1 => m.stackMoves n ++ (m.after n).core.stackMove?.toList

def freeCapacity (m : Machine) : Nat :=
  m.layout.stackSize.toNat - m.core.stack.length

theorem inWindow_after {m : Machine} (hw : m.core.InWindow) (n : Nat) :
    (m.after n).core.InWindow :=
  inWindow_kept.after hw n

@[simp]
theorem layout_after (m : Machine) (n : Nat) : (m.after n).core.layout = m.layout :=
  after_preserves (P := fun m' => m'.core.layout = m.layout)
    (fun m' h => (Core.layout_step m'.core).trans h) rfl n

theorem foldlM_stackMoves {m : Machine} (hw : m.core.InWindow) {n : Nat}
    (hspare : ∀ k < n, (m.after k).core.SparesStack) :
    (m.stackMoves n).foldlM (StackMove.act m.layout.stackSize.toNat) m.core.stack
      = some (m.after n).core.stack := by
  induction n with
  | zero => rfl
  | succ n ih =>
    have hbefore := ih fun k hk => hspare k (by omega)
    have hstep := Core.stack_step (inWindow_after hw n) (hspare n (by omega))
    rw [layout_after] at hstep
    rw [stackMoves, List.foldlM_append, hbefore]
    exact hstep

theorem stack_after_pushes {m : Machine} (hw : m.core.InWindow) {r : Nat → Register} {n : Nat}
    (hx : ∀ k < n, (m.after k).core.executed? = some (.push (r k))) :
    (m.after n).state.registers = m.state.registers ∧
      (m.after n).core.stack
        = ((List.range n).map fun k => m.state.value (r k)).reverse ++ m.core.stack := by
  induction n with
  | zero => exact ⟨rfl, rfl⟩
  | succ n ih =>
    obtain ⟨hregs, hstack⟩ := ih fun k hk => hx k (by omega)
    have hpush := hx n (by omega)
    have hvalue : (m.after n).core.state.value (r n) = m.state.value (r n) :=
      congrArg (fun registers => registers[(r n).index.toNat]?.getD 0) hregs
    constructor
    · exact (Core.sameData_step_of_executed hpush).registers.trans hregs
    · change (m.after n).core.step.core.stack = _
      rw [Core.stack_step_push (inWindow_after hw n) hpush, hvalue, hstack, List.range_succ,
        List.map_append, List.reverse_append]
      rfl

theorem length_stack_after_pushes {m : Machine} (hw : m.core.InWindow) {r : Nat → Register}
    {n : Nat} (hx : ∀ k < n, (m.after k).core.executed? = some (.push (r k))) :
    (m.after n).core.stack.length = n + m.core.stack.length := by
  rw [(stack_after_pushes hw hx).2]
  simp

/-- Pushes in a row are all carried out exactly if there is room for them. -/
theorem executed_pushes_iff {m : Machine} (hw : m.core.InWindow) {r : Nat → Register} {n : Nat}
    (hcurrent : ∀ k < n, (m.after k).core.current? = some (.push (r k)) ∧ (r k).isValid = true) :
    (∀ k < n, (m.after k).core.executed? = some (.push (r k))) ↔ n ≤ m.freeCapacity := by
  have hroom : m.core.stack.length ≤ m.layout.stackSize.toNat := Core.length_stack_le hw
  constructor
  · intro hx
    have hlength := length_stack_after_pushes hw hx
    have hle := Core.length_stack_le (inWindow_after hw n)
    rw [layout_after] at hle
    rw [freeCapacity]
    omega
  · intro hn
    rw [freeCapacity] at hn
    induction n with
    | zero =>
      intro k hk
      omega
    | succ n ih =>
      have hbefore := ih (fun k hk => hcurrent k (by omega)) (by omega)
      intro k hk
      rcases Nat.lt_or_ge k n with hlt | hge
      · exact hbefore k hlt
      obtain rfl : k = n := by omega
      obtain ⟨hi, hvalid⟩ := hcurrent k (by omega)
      have hlength := length_stack_after_pushes hw hbefore
      have hfree : (m.after k).core.stack.length
          < (m.after k).core.layout.stackSize.toNat := by
        rw [layout_after]
        omega
      have hf := Core.fault?_push (inWindow_after hw k) hvalid
      rw [if_pos hfree] at hf
      exact Core.executed?_eq_some.mpr ⟨hi, hf⟩

theorem stack_after_pops {m : Machine} (hw : m.core.InWindow) {d : Nat → Register}
    {bytes rest : List UInt8} (hstack : m.core.stack = bytes ++ rest)
    (hcurrent : ∀ k < bytes.length,
      (m.after k).core.current? = some (.pop (d k)) ∧ (d k).isValid = true) :
    (∀ k ≤ bytes.length, (m.after k).core.stack = bytes.drop k ++ rest) ∧
      ∀ k, (hk : k < bytes.length) → (m.after (k + 1)).state.value (d k) = bytes[k] := by
  have hpop (k : Nat) (hk : k < bytes.length)
      (hbefore : (m.after k).core.stack = bytes.drop k ++ rest) :
      (m.after (k + 1)).state.value (d k) = bytes[k] ∧
        (m.after (k + 1)).core.stack = bytes.drop (k + 1) ++ rest := by
    obtain ⟨hi, hvalid⟩ := hcurrent k hk
    have htop : (m.after k).core.stack = bytes[k] :: (bytes.drop (k + 1) ++ rest) := by
      rw [hbefore, List.drop_eq_getElem_cons hk]
      rfl
    have hf := Core.fault?_pop (inWindow_after hw k) hvalid
    rw [if_neg (by rw [htop]; exact List.cons_ne_nil _ _)] at hf
    have hx := Core.executed?_eq_some.mpr ⟨hi, hf⟩
    obtain ⟨hbyte, hrest⟩ := List.cons.inj (htop.symm.trans (Core.stack_step_pop hx))
    exact ⟨(Core.value_step_pop hx).trans hbyte.symm, hrest.symm⟩
  have hall : ∀ k ≤ bytes.length, (m.after k).core.stack = bytes.drop k ++ rest := by
    intro k hk
    induction k with
    | zero => exact hstack
    | succ k ih => exact (hpop k hk (ih (by omega))).2
  exact ⟨hall, fun k hk => (hpop k hk (hall k (by omega))).1⟩

theorem pops_after_pushes {m : Machine} (hw : m.core.InWindow) {r d : Nat → Register} {n : Nat}
    (hx : ∀ k < n, (m.after k).core.executed? = some (.push (r k)))
    (hpops : ∀ k < n, (m.after (n + k)).core.current? = some (.pop (d k)) ∧ (d k).isValid = true) :
    (∀ k < n, (m.after (n + k + 1)).state.value (d k) = m.state.value (r (n - 1 - k))) ∧
      (m.after (n + n)).core.stack = m.core.stack := by
  have hpushed := (stack_after_pushes hw hx).2
  generalize hbytes : ((List.range n).map fun k => m.state.value (r k)).reverse = bytes at hpushed
  have hlength : bytes.length = n := by
    rw [← hbytes, List.length_reverse, List.length_map, List.length_range]
  have hcurrent : ∀ k < bytes.length, ((m.after n).after k).core.current? = some (.pop (d k)) ∧
      (d k).isValid = true := by
    intro k hk
    rw [← after_add]
    exact hpops k (by omega)
  obtain ⟨hstack, hvalues⟩ := stack_after_pops (inWindow_after hw n) hpushed hcurrent
  constructor
  · intro k hk
    have hvalue := hvalues k (by omega)
    rw [← after_add] at hvalue
    refine hvalue.trans ?_
    subst hbytes
    simp
  · have hback := hstack n (by omega)
    rw [← after_add, ← hlength, List.drop_length] at hback
    rw [← hlength]
    exact hback

/-- The stack is a list of bytes with room for as many as the layout says: this holds of every step
of a run, of the run as a whole, and of pushes and pops in a row. -/
theorem stack_refines_list {m : Machine} (hw : m.core.InWindow) :
    (∀ n, (∀ k < n, (m.after k).core.SparesStack) →
      (∀ k < n, (m.after k).layout = m.layout ∧ (m.after k).core.InWindow ∧
        (m.after k).core.StepsAsList) ∧
      (m.stackMoves n).foldlM (StackMove.act m.layout.stackSize.toNat) m.core.stack
        = some (m.after n).core.stack ∧
      ∀ pushed popped : List UInt8, m.stackMoves n = pushed.map .push ++ popped.map .pop →
        pushed.length = popped.length →
        popped = pushed.reverse ∧ (m.after n).core.stack = m.core.stack ∧
          (m.after n).state.sp = m.state.sp) ∧
    (∀ n (r : Nat → Register),
      (∀ k < n, (m.after k).core.current? = some (.push (r k)) ∧ (r k).isValid = true) →
      ((∀ k < n, (m.after k).core.executed? = some (.push (r k))) ↔ n ≤ m.freeCapacity) ∧
      ∀ d : Nat → Register, n ≤ m.freeCapacity →
        (∀ k < n, (m.after (n + k)).core.current? = some (.pop (d k)) ∧ (d k).isValid = true) →
        (∀ k < n, (m.after (n + k + 1)).state.value (d k) = m.state.value (r (n - 1 - k))) ∧
          (m.after (n + n)).core.stack = m.core.stack ∧
          (m.after (n + n)).state.sp = m.state.sp) ∧
    (m.state.sp = m.layout.stackTop → m.freeCapacity = m.layout.stackSize.toNat) := by
  have hsp (n : Nat) (h : (m.after n).core.stack = m.core.stack) :
      (m.after n).state.sp = m.state.sp :=
    Core.sp_eq_of_stack_eq hw (inWindow_after hw n) (m.layout_after n) h
  refine ⟨?_, ?_, ?_⟩
  · intro n hspare
    have hrun := foldlM_stackMoves hw hspare
    refine ⟨?_, hrun, ?_⟩
    · intro k hk
      have hk' := inWindow_after hw k
      exact ⟨m.layout_after k, hk', Core.stepsAsList hk' (hspare k hk)⟩
    · intro pushed popped hmoves hlength
      rw [hmoves] at hrun
      obtain ⟨hpopped, hback⟩ := StackMove.pops_eq_reverse hrun hlength
      exact ⟨hpopped, hback, hsp n hback⟩
  · intro n r hpushes
    have hiff := executed_pushes_iff hw hpushes
    refine ⟨hiff, ?_⟩
    intro d hn hpops
    obtain ⟨hvalues, hback⟩ := pops_after_pushes hw (hiff.mpr hn) hpops
    exact ⟨hvalues, hback, hsp (n + n) hback⟩
  · intro hempty
    have hnil : m.core.stack = [] :=
      (Core.stack_eq_nil_iff hw).mpr (UInt16.le_of_eq hempty.symm)
    rw [freeCapacity, hnil]
    rfl

/-- The program `push r1`, `pop r2` on an empty stack hands the byte of r1 on to r2. -/
theorem stack_hands_byte_on :
    let m : Machine := ⟨{ Core.initial .standard with
      state.registers := #v[0, 7, 0, 0, 0, 0, 0, 0]
      memory := (((Memory.zero.write 0xFF00 0xB1).write 0xFF01 0).write 0xFF02 0xC2).write
        0xFF03 0 }, .empty false 16⟩
    m.freeCapacity = 255 ∧ (m.after 2).state.value ⟨2⟩ = 7 ∧ (m.after 2).state.sp = 0x00FF := by
  intro m
  have hvalid : Layout.standard.validate = .ok () := rfl
  have hw : m.core.InWindow := ⟨hvalid, by decide, by decide⟩
  obtain ⟨-, hrow, hempty⟩ := stack_refines_list hw
  have hfree : m.freeCapacity = 255 := hempty rfl
  have hpush : m.core.current? = some (.push ⟨1⟩) := by
    have hword : m.core.word = 0xB100 := by
      change wordOfBytes (m.core.memory.read 0xFF00) (m.core.memory.read 0xFF01) = 0xB100
      simp (disch := decide) only [m, Memory.read_write_self, Memory.read_write_of_ne]
      rfl
    rw [Core.current?, hword]
    rfl
  have hpushes : ∀ k < 1, (m.after k).core.current? = some (.push ⟨1⟩) ∧
      (⟨1⟩ : Register).isValid = true := by
    intro k hk
    obtain rfl : k = 0 := by omega
    exact ⟨hpush, rfl⟩
  obtain ⟨hiff, hback⟩ := hrow 1 (fun _ => ⟨1⟩) hpushes
  have hroom : 1 ≤ m.freeCapacity := by
    rw [hfree]
    decide
  have hx : m.core.executed? = some (.push ⟨1⟩) := hiff.mpr hroom 0 (by decide)
  have hnext : (m.after 1).core = (((m.core.applied (.push ⟨1⟩)).goTo 0xFF02).completed
      m.core.state.pc m.core.word).core := by
    have hpc : Core.nextWord? m.core.state.pc = some 0xFF02 := rfl
    rw [core_after_succ, after, Core.step_of_goesOn hx rfl hpc]
  have hmemory : (m.after 1).core.memory = m.core.memory.write 0x00FE 7 := by
    have hsp : m.core.state.sp - 1 = 0x00FE := by decide
    have hvalue : m.core.state.value ⟨1⟩ = 7 := rfl
    rw [hnext, ← hsp, ← hvalue]
    rfl
  have hstate : (m.after 1).core.state.pc = 0xFF02 ∧ (m.after 1).core.state.status = .running := by
    rw [hnext]
    exact ⟨rfl, rfl⟩
  have hpop : (m.after 1).core.current? = some (.pop ⟨2⟩) := by
    have hword : (m.after 1).core.word = 0xC200 := by
      rw [Core.word, hmemory, hstate.1]
      change wordOfBytes ((m.core.memory.write 0x00FE 7).read 0xFF02)
        ((m.core.memory.write 0x00FE 7).read 0xFF03) = 0xC200
      simp (disch := decide) only [m, Memory.read_write_self, Memory.read_write_of_ne]
      rfl
    rw [Core.current?, hword, hstate.1, hstate.2]
    rfl
  obtain ⟨hvalue, -, hsp⟩ := hback (fun _ => ⟨2⟩) hroom fun k hk => by
    obtain rfl : k = 0 := by omega
    exact ⟨hpop, rfl⟩
  exact ⟨hfree, hvalue 0 (by decide), hsp⟩

end Machine

end ByteMachine
