import ByteMachine.Assembly.Source
import ByteMachine.Console.Arguments
import ByteMachine.Console.Files
import ByteMachine.Console.Log
import ByteMachine.Disassembly

namespace ByteMachine.Console

/-- A failure: what went wrong, and what lies behind it, the nearest cause first. -/
structure Failure where
  headline : String
  causes : List String

namespace Failure

/-- A failure with another behind it, if there is one. -/
def because (headline : String) (cause? : Option Failure) : Failure where
  headline
  causes :=
    match cause? with
    | some cause => cause.headline :: cause.causes
    | none => []

def ofLayoutError (e : LayoutError) : Failure :=
  because e.message none

def ofSpecError (e : SpecError) : Failure :=
  because e.message (e.cause?.map ofLayoutError)

def ofAssemblyError (e : Assembly.AssemblyError) : Failure :=
  because e.message (e.cause?.map ofSpecError)

def ofMachineError (e : MachineError) : Failure :=
  because e.message (e.cause?.map ofSpecError)

def ofFileFault (fault : FileFault) : Failure :=
  because fault.message none

/-- A failure in the midst of doing something with a file. -/
def during (activity path : String) (cause : Failure) : Failure :=
  because (activity ++ " " ++ path) (some cause)

/-- The causes one a line; several are numbered. -/
def causeLines : List String → List String
  | [cause] => ["    " ++ cause ++ "\n"]
  | causes => causes.zipIdx.map fun (cause, number) =>
      Text.decimalColumn 5 number ++ ": " ++ cause ++ "\n"

def text (f : Failure) : String :=
  "Error: " ++ f.headline ++ "\n"
    ++ if f.causes.isEmpty then "" else "\nCaused by:\n" ++ String.join (causeLines f.causes)

end Failure

structure Report where
  output : String
  log : List LogLine
  failure? : Option Failure

namespace Report

def failed (log : List LogLine) (failure : Failure) : Report where
  output := ""
  log
  failure? := some failure

/-- The report with output and log of something that was done before. -/
def after (output : String) (log : List LogLine) (r : Report) : Report :=
  { r with output := output ++ r.output, log := log ++ r.log }

/-- The report without the log lines that are shown only on request. -/
def plain (r : Report) : Report :=
  { r with log := r.log.filter (·.level.isPlain) }

def exitCode (r : Report) : UInt32 :=
  if r.failure?.isSome then 1 else 0

end Report

/-- What is shown of a machine behind a run: its trace, its state and a range of its memory. -/
def shownMachine (m : Machine) (dump : Bool) (memory? : Option MemoryRange) : String :=
  String.join (m.trace.rows.map fun row => row.text ++ "\n")
    ++ (if dump then m.dumpState ++ "\n" else "")
    ++ (memory?.map fun range => m.dumpRange range.start range.length 16).getD ""

/-- Tells how a run ended. -/
def ended (status : Status) (cycles : UInt64) : String :=
  status.text ++ " after " ++ Text.decimal cycles.toNat ++ " cycles"

/-- The events of a run: all of them where they are asked for, else a fault alone. -/
def runEvents (verbose : Bool) (before : Machine) (budget : UInt64)
    (answer : Except MachineError RunResult) : List Event :=
  if verbose then (before.core.history budget.toNat #[]).toList
  else
    match answer with
    | .ok _ => []
    | .error e => e.event?.toList

/-- Runs a program on a machine of the standard layout. -/
def runReport (verbose : Bool) (p : Program) (maxCycles? : Option UInt64) (dump : Bool)
    (memory? : Option MemoryRange) (trace : Bool) : Report :=
  match Machine.withProgram p .standard trace Trace.standardLimit with
  | .error e => .failed [] (.ofMachineError e)
  | .ok before =>
    let budget := maxCycles?.getD Machine.unbounded
    let (answer, m) := before.execute budget
    let started := [.loaded p, .console .info ("Loaded " ++ Text.decimal p.code.length
      ++ " words at " ++ Text.addressLabel p.base.toNat)]
    let events := (runEvents verbose before budget answer).map LogLine.ofEvent
    let output := shownMachine m dump memory?
    match answer with
    | .ok result => {
        output
        log := started ++ events ++ [.console .info (ended result.status result.cycles)]
        failure? := none }
    | .error e => {
        output
        log := started ++ events ++ [.console .error (ended m.status m.state.cycles)]
        failure? := some (.ofMachineError e) }

/-- The program that `demo` runs: it counts down from 10. -/
def demoSource : String :=
  "ldi r0, #10\nldi r1, #1\nldi r7, #0xFF\nldi r3, #0x10\nldi r5, #0x0A\nsub r0, r0, r1\n"
    ++ "jz r7, r3\njp r7, r5\nhlt\n"

/-- A source as a program at an address, or why it is none; the log tells that its lines were
good. -/
def sourceProgram (source : String) (base : UInt16) :
    List LogLine × Except Assembly.AssemblyError Program :=
  let log :=
    match Assembly.assemble source with
    | .ok words => [.assembled words.length]
    | .error _ => []
  (log, Assembly.assembleProgram source base)

def demoReport (verbose trace : Bool) : Report :=
  match sourceProgram demoSource Layout.standard.resetPc with
  | (log, .error e) => .failed log (.ofAssemblyError e)
  | (log, .ok p) => (runReport verbose p none true none trace).after p.listing log

end ByteMachine.Console
