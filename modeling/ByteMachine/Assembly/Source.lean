import ByteMachine.Assembly.Line
import ByteMachine.Program

namespace ByteMachine.Assembly

/-- The instructions of lines numbered on from `first`. -/
def parseLines (first : Nat) (lines : List (List Char)) : Except AssemblyError (List Instruction) :=
  (·.filterMap id) <$> (lines.zipIdx first).mapM fun (line, number) => parseLine line number

/-- The instructions of a source. A line ends at a line feed. -/
def instructions (source : String) : Except AssemblyError (List Instruction) :=
  parseLines 1 (source.toList.splitOn '\n')

/-- The words of a source, which is refused as a whole for its first bad line. -/
def assemble (source : String) : Except AssemblyError (List UInt16) :=
  Instruction.encodeAll <$> instructions source

def assembleProgram (source : String) (base : UInt16) : Except AssemblyError Program := do
  let program : Program := ⟨base, ← assemble source⟩
  match program.validate with
  | .ok () => .ok program
  | .error e => .error (.spec e)

end ByteMachine.Assembly
