import ByteMachine.Console.Session

namespace ByteMachine.Console

/-- The number of a system error, which may be given with its sign turned. -/
def errorNumber (code : UInt32) : UInt32 :=
  min code (0 - code)

/-- The fault that an error of the system stands for. -/
def FileFault.ofError : IO.Error → FileFault
  | .noFileOrDirectory _ _ _ => .notFound
  | .permissionDenied _ _ _ => .other "Permission denied (os error 13)"
  | .inappropriateType _ code details =>
    if errorNumber code = 20 then .notDirectory
    else if errorNumber code = 21 then .isDirectory
    else .other details
  | .invalidArgument _ code details =>
    if errorNumber code = 36 then .nameTooLong else .other details
  | e => .other e.toString

/-- Files of the system. -/
instance : Files IO where
  read path := do
    try
      return .ok (← IO.FS.readBinFile path).toList
    catch e => return .error (.ofError e)
  write path bytes := do
    try
      IO.FS.writeBinFile path bytes.toByteArray
      return .ok ()
    catch e => return .error (.ofError e)

/-- What is said to a command line that cannot be read. -/
def usage : String :=
  "usage: asm FILE [-o FILE] | disasm FILE [--base A] | run FILE [--base A] [--max-cycles N] "
    ++ "[--dump] [--memory A:L] [--trace] | demo [--trace], each with -v for more"

end ByteMachine.Console

open ByteMachine.Console in
def main (arguments : List String) : IO UInt32 := do
  match Request.ofArguments? arguments with
  | none =>
    IO.eprintln usage
    return 2
  | some request =>
    let report ← answer request
    IO.print report.output
    for line in report.log do
      IO.eprintln line.text
    if let some failure := report.failure? then
      IO.eprint failure.text
    return report.exitCode
