import ByteMachine.Console.Address

/-!
The arguments of the command line. A command takes a fixed number of names, and options in any
order among them: long ones as `--base=A` or `--base A`, short ones in clusters such as `-v` or
`-oFILE`. Each option is given once at most, a value does not start with `-` where it stands on its
own, and behind `--` there are names only.
-/

namespace ByteMachine.Console

inductive Switch
  | verbose | output | base | maxCycles | dump | memory | trace
  deriving DecidableEq

namespace Switch

/-- The long name, behind `--`. -/
def long : Switch → String
  | verbose => "verbose"
  | output => "output"
  | base => "base"
  | maxCycles => "max-cycles"
  | dump => "dump"
  | memory => "memory"
  | trace => "trace"

/-- The short name, behind `-`. -/
def letter? : Switch → Option Char
  | verbose => some 'v'
  | output => some 'o'
  | _ => none

/-- Whether a value belongs to the option. -/
def takesValue : Switch → Bool
  | output | base | maxCycles | memory => true
  | verbose | dump | trace => false

end Switch

inductive CommandName
  | asm | disasm | run | demo
  deriving DecidableEq

namespace CommandName

def ofText? : String → Option CommandName
  | "asm" => some asm
  | "disasm" => some disasm
  | "run" => some run
  | "demo" => some demo
  | _ => none

/-- The options a command takes. -/
def switches : CommandName → List Switch
  | asm => [.verbose, .output]
  | disasm => [.verbose, .base]
  | run => [.verbose, .base, .maxCycles, .dump, .memory, .trace]
  | demo => [.verbose, .trace]

end CommandName

inductive Command
  | asm (input : String) (output? : Option String)
  | disasm (input : String) (base : UInt16)
  | run (input : String) (base : UInt16) (maxCycles? : Option UInt64) (dump : Bool)
      (memory? : Option MemoryRange) (trace : Bool)
  | demo (trace : Bool)
  deriving DecidableEq

structure Request where
  verbose : Bool
  command : Command
  deriving DecidableEq

/-- Arguments sorted into names and options. An option without a value has an empty one. -/
structure Sorted where
  names : List String
  options : List (Switch × String)

namespace Sorted

def withName (s : Sorted) (name : String) : Sorted :=
  { s with names := name :: s.names }

def withOption (s : Sorted) (switch : Switch) (value : String) : Sorted :=
  { s with options := (switch, value) :: s.options }

def withFlags (s : Sorted) (switches : List Switch) : Sorted :=
  { s with options := switches.map (·, "") ++ s.options }

def value? (s : Sorted) (switch : Switch) : Option String :=
  (s.options.find? (·.1 = switch)).map (·.2)

def has (s : Sorted) (switch : Switch) : Bool :=
  s.options.any (·.1 = switch)

def isOnce (s : Sorted) : Bool :=
  decide (s.options.map (·.1)).Nodup

end Sorted

/-- The text behind the first `=`, and the text before it. -/
def splitAtEquals (cs : List Char) : String × Option String :=
  let front := String.ofList (cs.takeWhile (· != '='))
  match cs.dropWhile (· != '=') with
  | [] => (front, none)
  | _ :: value => (front, some (String.ofList value))

/-- A cluster of short options: options without a value, and an option with one at the end, whose
value may be attached. -/
def readCluster (allowed : List Switch) :
    List Char → Option (List Switch × Option (Switch × Option String))
  | [] => some ([], none)
  | c :: cs => do
    let switch ← allowed.find? (·.letter? = some c)
    if switch.takesValue then
      match cs with
      | [] => return ([], some (switch, none))
      | '=' :: value => return ([], some (switch, some (String.ofList value)))
      | value => return ([], some (switch, some (String.ofList value)))
    else
      let (flags, last) ← readCluster allowed cs
      return (switch :: flags, last)

/-- An argument as the options it gives. An option at its end may wait for a value. -/
inductive Argument
  | name (text : String)
  | options (flags : List Switch) (last : Option (Switch × Option String))

namespace Argument

/-- Reads one argument. A lone `-` is a name. -/
def read? (allowed : List Switch) (text : String) : Option Argument :=
  match text.toList with
  | '-' :: '-' :: cs => do
    let (front, value?) := splitAtEquals cs
    let switch ← allowed.find? (·.long = front)
    if switch.takesValue then return .options [] (some (switch, value?))
    else if value?.isNone then return .options [switch] none
    else none
  | '-' :: c :: cs => do
    let (flags, last) ← readCluster allowed (c :: cs)
    return .options flags last
  | _ => some (.name text)

/-- Whether an argument on its own can be the value of an option. -/
def isValue (text : String) : Bool :=
  match text.toList with
  | '-' :: _ :: _ => false
  | _ => true

end Argument

/-- Sorts arguments; `none` where one of them is no option and no name, or a value is missing. -/
def sort? (allowed : List Switch) : List String → Option Sorted
  | [] => some ⟨[], []⟩
  | argument :: rest =>
    -- All that stands behind is a name, whatever it looks like.
    if argument = "--" then some ⟨rest, []⟩
    else
      match Argument.read? allowed argument with
      | none => none
      | some (.name text) => (sort? allowed rest).map (·.withName text)
      | some (.options flags none) => (sort? allowed rest).map (·.withFlags flags)
      | some (.options flags (some (switch, some value))) =>
        (sort? allowed rest).map fun s => (s.withOption switch value).withFlags flags
      | some (.options flags (some (switch, none))) =>
        -- The value is the next argument, which is used up.
        match rest with
        | value :: rest =>
          if Argument.isValue value then
            (sort? allowed rest).map fun s => (s.withOption switch value).withFlags flags
          else none
        | [] => none

/-- The value of an option as `parse` reads it; an option that is not given has none. -/
def Sorted.parsed? {α : Type} (s : Sorted) (switch : Switch) (parse : String → Option α) :
    Option (Option α) :=
  match s.value? switch with
  | none => some none
  | some text => (parse text).map some

def fileName? (text : String) : Option String :=
  if text.isEmpty then none else some text

/-- The base address of an image, where nothing else is asked for. -/
def standardBase : UInt16 := 0xFF00

/-- The command that sorted arguments give; `none` where there are too few names or too many, or a
value cannot be read. -/
def Command.ofSorted? (name : CommandName) (s : Sorted) : Option Command := do
  let base? ← s.parsed? .base fun text => (parseAddress text).toOption
  let base := base?.getD standardBase
  match name, s.names with
  | .asm, [input] =>
    return .asm (← fileName? input) (← s.parsed? .output fileName?)
  | .disasm, [input] =>
    return .disasm (← fileName? input) base
  | .run, [input] =>
    let maxCycles? ← s.parsed? .maxCycles fun text =>
      (Text.readUnsigned 10 UInt64.size text.toList).toOption
    let memory? ← s.parsed? .memory fun text => (parseRange text).toOption
    return .run (← fileName? input) base (maxCycles?.map UInt64.ofNat) (s.has .dump) memory?
      (s.has .trace)
  | .demo, [] => return .demo (s.has .trace)
  | _, _ => none

def Request.ofCommand? (verbose : Bool) (name : CommandName) (arguments : List String) :
    Option Request := do
  let s ← sort? name.switches arguments
  if s.isOnce then
    return { verbose := verbose || s.has .verbose, command := ← Command.ofSorted? name s }
  else none

/-- The request of a whole command line: the command may be led by one `-v`. -/
def Request.ofArguments? : List String → Option Request
  | first :: rest =>
    if first = "-v" || first = "--verbose" then
      match rest with
      | name :: arguments => do Request.ofCommand? true (← CommandName.ofText? name) arguments
      | [] => none
    else do Request.ofCommand? false (← CommandName.ofText? first) rest
  | [] => none

end ByteMachine.Console
