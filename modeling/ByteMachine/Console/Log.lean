import ByteMachine.Machine.Event

namespace ByteMachine.Console

/-- How much a line matters, from the least. -/
inductive Level
  | trace | debug | info | warn | error
  deriving DecidableEq

def Level.text : Level → String
  | trace => "TRACE"
  | debug => "DEBUG"
  | info => "INFO"
  | warn => "WARN"
  | error => "ERROR"

/-- Whether lines of this level are shown to someone who did not ask for more. -/
def Level.isPlain : Level → Bool
  | trace | debug => false
  | info | warn | error => true

/-- A line of the log, with the values it names. -/
structure LogLine where
  level : Level
  target : String
  message : String
  values : List (String × String)
  deriving DecidableEq

/-- The characters below 128 that start or stand for an action of a terminal: bell, backspace, form
feed, escape and delete. -/
def isTerminalControl (c : Char) : Bool :=
  c == '\x07' || c == '\x08' || c == '\x0c' || c == '\x1b' || c == '\x7f'

/-- The control characters from 128 on. -/
def isUpperControl (c : Char) : Bool :=
  0x80 ≤ c.toNat && c.toNat ≤ 0x9F

/-- A character as a message shows it: itself, or its code where a terminal could act on it. -/
def shown (c : Char) : String :=
  if isTerminalControl c then "\\x" ++ Text.lowerHex 2 c.toNat
  else if isUpperControl c then "\\u\x7b" ++ Text.lowerHex 2 c.toNat ++ "\x7d"
  else String.singleton c

namespace LogLine

/-- The names that lines come from. -/
def consoleTarget : String := "octet"
def assemblyTarget : String := "octet_assembler::assembler"
def machineTarget : String := "octet_runtime::vm"

def text (l : LogLine) : String :=
  l.level.text ++ " " ++ l.target ++ ": " ++ String.join (l.message.toList.map shown)
    ++ String.join (l.values.map fun (name, value) => " " ++ name ++ "=" ++ value)

def console (level : Level) (message : String) : LogLine where
  level
  target := consoleTarget
  message
  values := []

def assembled (words : Nat) : LogLine where
  level := .debug
  target := assemblyTarget
  message := "assembled source"
  values := [("words", Text.decimal words)]

def loaded (p : Program) : LogLine where
  level := .debug
  target := machineTarget
  message := "program loaded"
  values := [("base", Text.decimal p.base.toNat), ("words", Text.decimal p.code.length)]

def reasonText : HaltReason → String
  | .instruction => "Instruction"
  | .zeroWord => "ZeroWord"

def ofEvent : Event → LogLine
  | .executing i cycle pc word => {
      level := .trace
      target := machineTarget
      message := i.text
      values := [("cycle", Text.decimal cycle.toNat), ("pc", Text.decimal pc.toNat),
        ("word", Text.decimal word.toNat)] }
  | .zeroWord cycle pc => {
      level := .trace
      target := machineTarget
      message := "zero word, implicit halt"
      values := [("cycle", Text.decimal cycle.toNat), ("pc", Text.decimal pc.toNat)] }
  | .halted pc cycles reason => {
      level := .debug
      target := machineTarget
      message := "machine halted"
      values := [("pc", Text.decimal pc.toNat), ("cycles", Text.decimal cycles.toNat),
        ("reason", reasonText reason)] }
  | .faulted pc word fields fault => {
      level := .warn
      target := machineTarget
      message := "execution fault: " ++ fault.message
      values := [("pc", Text.decimal pc.toNat), ("word", Text.decimal word.toNat),
        ("fields", fields.text)] }

end LogLine

end ByteMachine.Console
