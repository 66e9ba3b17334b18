namespace ByteMachine.Console

/-- A path taken apart: whether it starts at the root, the names before the last, the last name,
and whether slashes stand behind it. The last name of a path without names is empty. -/
structure Path where
  fromRoot : Bool
  folders : List String
  last : String
  asFolder : Bool
  deriving DecidableEq

namespace Path

/-- Takes a path apart. Slashes part names however many they are. -/
def ofString (text : String) : Path :=
  let names := ((text.toList.splitOn '/').map String.ofList).filter (· != "")
  { fromRoot := text.toList.head? == some '/'
    folders := names.dropLast
    last := names.getLastD ""
    asFolder := text.toList.getLast? == some '/' }

/-- Whether a path can only name a folder: it ends at the root, or at `.` or `..`. -/
def endsAtFolder (p : Path) : Bool :=
  p.last == "" || p.last == "." || p.last == ".."

end Path

/-- The part of a path up to its last slash, and the name behind it. -/
def splitPath (path : String) : List Char × List Char :=
  let cs := path.toList.reverse
  ((cs.dropWhile (· != '/')).reverse, (cs.takeWhile (· != '/')).reverse)

/-- A name without its extension, and the extension. The part before the dot cannot be empty. -/
def splitName (name : List Char) : List Char × Option (List Char) :=
  let cs := name.reverse
  match cs.dropWhile (· != '.') with
  | _ :: stem =>
    if stem.isEmpty then (name, none)
    else (stem.reverse, some (cs.takeWhile (· != '.')).reverse)
  | [] => (name, none)

/-- What stands behind the last dot of the last name. -/
def extension? (path : String) : Option String :=
  (splitName (splitPath path).2).2.map String.ofList

/-- The path with another extension, or with one where it has none. The dot before the extension
stays in its place, so a name such as `..s` becomes `..`, which cannot have one. -/
def withExtension (path extension : String) : String :=
  let (folder, name) := splitPath path
  match splitName name with
  | (['.'], some _) => String.ofList (folder ++ ['.', '.'])
  | (stem, _) => String.ofList (folder ++ stem) ++ "." ++ extension

end ByteMachine.Console
