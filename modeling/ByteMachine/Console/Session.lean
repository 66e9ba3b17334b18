import ByteMachine.Console.Path
import ByteMachine.Console.Report

namespace ByteMachine.Console

variable {m : Type → Type} [Monad m] [Files m]

def readText (path : String) : m (Except FileFault String) := do
  match ← Files.read path with
  | .ok bytes => return textOfBytes bytes
  | .error fault => return .error fault

def readingFailure (path : String) (fault : FileFault) : Failure :=
  .during "reading" path (.ofFileFault fault)

def assembleFile (input output : String) : m Report := do
  match ← readText input with
  | .error fault => return .failed [] (readingFailure input fault)
  | .ok source =>
    match Assembly.assemble source with
    | .error e => return .failed [] (.during "assembling" input (.ofAssemblyError e))
    | .ok words =>
      let bytes := bytesOfWords words
      let log := [.assembled words.length]
      match ← Files.write output bytes with
      | .error fault => return .failed log (.during "writing" output (.ofFileFault fault))
      | .ok () =>
        let message := "Wrote " ++ Text.decimal bytes.length ++ " bytes to " ++ output
        return { output := "", log := log ++ [.console .info message], failure? := none }

def readImage (input : String) (base : UInt16) : m (Except Failure Program) := do
  match ← Files.read input with
  | .error fault => return .error (readingFailure input fault)
  | .ok bytes => return (Program.ofBytes base bytes).mapError .ofSpecError

/-- Reads a program from a file: a source by its extension, else an image. -/
def readProgram (input : String) (base : UInt16) : m (List LogLine × Except Failure Program) := do
  if extension? input = some "asm" || extension? input = some "s" then
    match ← readText input with
    | .error fault => return ([], .error (readingFailure input fault))
    | .ok source =>
      let (log, program) := sourceProgram source base
      return (log, program.mapError fun e => .during "assembling" input (.ofAssemblyError e))
  else return ([], ← readImage input base)

def perform (verbose : Bool) : Command → m Report
  | .asm input output? => assembleFile input (output?.getD (withExtension input "bin"))
  | .disasm input base => do
    match ← readImage input base with
    | .error failure => return .failed [] failure
    | .ok p => return { output := p.listing, log := [], failure? := none }
  | .run input base maxCycles? dump memory? trace => do
    match ← readProgram input base with
    | (log, .error failure) => return .failed log failure
    | (log, .ok p) => return (runReport verbose p maxCycles? dump memory? trace).after "" log
  | .demo trace => return demoReport verbose trace

def answer (r : Request) : m Report := do
  let report ← perform r.verbose r.command
  return if r.verbose then report else report.plain

end ByteMachine.Console
