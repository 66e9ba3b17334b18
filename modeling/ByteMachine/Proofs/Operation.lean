import ByteMachine.Machine.SnapshotBytes
import ByteMachine.Proofs.Run

namespace ByteMachine

inductive Operation
  | load (base : UInt16) (words : List UInt16)
  | loadProgram (p : Program)
  | step
  | execute (budget : UInt64)
  | run
  | reset
  | resetWithPc (pc : UInt16)
  | setPc (pc : UInt16)
  | readMemory (address : UInt16)
  | writeMemory (address : UInt16) (value : UInt8)
  | readInstruction (address : UInt16)
  | writeInstruction (address word : UInt16)
  | readRegister (index : Nat)
  | writeRegister (index : Nat) (value : UInt8)
  | readFlag (flag : Flag)
  | readState
  | readLayout
  | trace
  | takeTrace
  | dumpState
  | dumpMemory (width : Nat)
  | dumpRange (start : UInt16) (length width : Nat)
  | snapshot
  | restore (s : Snapshot)

inductive Reply
  | done
  | status (status : Status)
  | result (result : RunResult)
  | byte (value : UInt8)
  | word? (word? : Option UInt16)
  | flag (set : Bool)
  | state (state : State)
  | layout (layout : Layout)
  | rows (rows : List TraceRow)
  | text (text : String)
  | snapshot (s : Snapshot)

namespace Machine

/-- The answer to an operation that makes a new machine or is refused. A refusal leaves the machine
as it was. -/
def settle (m : Machine) (result : Except MachineError Machine) :
    Except MachineError Reply × Machine :=
  match result with
  | .ok m' => (.ok .done, m')
  | .error e => (.error e, m)

/-- Carries out an operation: its answer, and the machine that it leaves. -/
def perform (m : Machine) : Operation → Except MachineError Reply × Machine
  | .load base words => m.settle (m.load base words)
  | .loadProgram p => m.settle (m.loadProgram p)
  | .step => (.status <$> m.step.1, m.step.2)
  | .execute budget => (.result <$> (m.execute budget).1, (m.execute budget).2)
  | .run => (.result <$> m.run.1, m.run.2)
  | .reset => (.ok .done, m.reset)
  | .resetWithPc pc => (.ok .done, m.resetWithPc pc)
  | .setPc pc => (.ok .done, m.setPc pc)
  | .readMemory address => (.ok (.byte (m.readMemory address)), m)
  | .writeMemory address value => (.ok .done, m.writeMemory address value)
  | .readInstruction address => (.ok (.word? (m.readInstruction? address)), m)
  | .writeInstruction address word => m.settle (m.writeInstruction address word)
  | .readRegister index => (.byte <$> m.register index, m)
  | .writeRegister index value => m.settle (m.writeRegister index value)
  | .readFlag flag => (.ok (.flag (m.isFlagSet flag)), m)
  | .readState => (.ok (.state m.state), m)
  | .readLayout => (.ok (.layout m.layout), m)
  | .trace => (.ok (.rows m.trace.rows), m)
  | .takeTrace => (.ok (.rows m.takeTrace.1), m.takeTrace.2)
  | .dumpState => (.ok (.text m.dumpState), m)
  | .dumpMemory width => (.ok (.text (m.dumpMemory width)), m)
  | .dumpRange start length width => (.ok (.text (m.dumpRange start length width)), m)
  | .snapshot => (.ok (.snapshot m.snapshot), m)
  | .restore s => m.settle (m.restore s)

/-- The snapshots that are copies of a machine, as they were taken or read back from bytes. -/
inductive CopiedAs (m : Machine) : Snapshot → Prop
  | taken : CopiedAs m m.snapshot
  | read (s : Snapshot) (h : Snapshot.ofBytes m.snapshot.toBytes = .ok s) : CopiedAs m s

/-- The machines that operations lead to, from a new machine on. A snapshot is restored only where
it is a copy of such a machine. -/
inductive Reachable : Machine → Prop
  | new {layout : Layout} {tracing : Bool} {traceLimit : Nat} {m : Machine}
      (h : Machine.new layout tracing traceLimit = .ok m) : Reachable m
  | withProgram {p : Program} {layout : Layout} {tracing : Bool} {traceLimit : Nat} {m : Machine}
      (h : Machine.withProgram p layout tracing traceLimit = .ok m) : Reachable m
  | perform {m : Machine} (hm : Reachable m) (op : Operation) (hop : ∀ s, op ≠ .restore s) :
      Reachable (m.perform op).2
  | restore {m source : Machine} {s : Snapshot} (hm : Reachable m) (hsource : Reachable source)
      (hs : source.CopiedAs s) : Reachable (m.perform (.restore s)).2

/-- A machine on the way of a run of a reachable machine is reachable too. -/
theorem Reachable.advance {m : Machine} (h : Reachable m) (n : Nat) : Reachable (m.advance n).2 :=
  advance_preserves (fun _ hm => hm.perform .step (fun _ hop => by cases hop)) h n

end Machine

end ByteMachine
