import ByteMachine.Console.Files
import ByteMachine.Console.Path

namespace ByteMachine.Console

/-- A place in a tree: the names from it up to the root, its own name first. -/
abbrev Place := List String

/-- A tree: its folders besides the root, its files, and the folder where paths start that do not
start at the root. -/
structure FileTree where
  folders : List Place
  files : List (Place × List UInt8)
  current : Place

namespace FileTree

/-- The most bytes that a name can have. -/
def nameLimit : Nat := 255

/-- The most bytes that a path can have. -/
def pathLimit : Nat := 4095

def hasFolder (t : FileTree) (place : Place) : Bool :=
  place.isEmpty || t.folders.contains place

def file? (t : FileTree) (place : Place) : Option (List UInt8) :=
  t.files.lookup place

/-- The folder that a name leads to from another folder. The folder above the root is the root. -/
def enter (t : FileTree) (place : Place) (name : String) : Except FileFault Place :=
  if name = "." then .ok place
  else if name = ".." then .ok place.tail
  else if nameLimit < name.utf8ByteSize then .error .nameTooLong
  else if t.hasFolder (name :: place) then .ok (name :: place)
  else if (t.file? (name :: place)).isSome then .error .notDirectory
  else .error .notFound

/-- The folder in which the last name of a path is looked up. -/
def folderOf (t : FileTree) (p : Path) : Except FileFault Place :=
  p.folders.foldlM t.enter (if p.fromRoot then [] else t.current)

/-- Takes a path apart and follows it up to its last name. -/
def locate (t : FileTree) (path : String) : Except FileFault (Path × Place) :=
  if path.isEmpty then .error .notFound
  else if pathLimit < path.utf8ByteSize then .error .nameTooLong
  else (t.folderOf (.ofString path)).map fun folder => (.ofString path, folder)

/-- The contents of the file that a name in a folder has, or why there are none. -/
def readIn (t : FileTree) (p : Path) (folder : Place) : Except FileFault (List UInt8) :=
  if p.endsAtFolder then .error .isDirectory
  else if nameLimit < p.last.utf8ByteSize then .error .nameTooLong
  else
    match t.file? (p.last :: folder) with
    | some bytes => if p.asFolder then .error .notDirectory else .ok bytes
    | none => .error (if t.hasFolder (p.last :: folder) then .isDirectory else .notFound)

def put (t : FileTree) (place : Place) (bytes : List UInt8) : FileTree :=
  { t with files := (place, bytes) :: t.files.filter (·.1 != place) }

/-- Writes a file of a given name into a folder. Slashes behind the name ask for a folder, and
nothing can be written to one, whether it is there or not. -/
def writeIn (t : FileTree) (p : Path) (folder : Place) (bytes : List UInt8) :
    Except FileFault FileTree :=
  if p.endsAtFolder || p.asFolder then .error .isDirectory
  else if nameLimit < p.last.utf8ByteSize then .error .nameTooLong
  else if t.hasFolder (p.last :: folder) then .error .isDirectory
  else .ok (t.put (p.last :: folder) bytes)

def readFile (t : FileTree) (path : String) : Except FileFault (List UInt8) :=
  match t.locate path with
  | .error fault => .error fault
  | .ok (p, folder) => t.readIn p folder

def writeFile (t : FileTree) (path : String) (bytes : List UInt8) : Except FileFault FileTree :=
  match t.locate path with
  | .error fault => .error fault
  | .ok (p, folder) => t.writeIn p folder bytes

theorem file?_put (t : FileTree) (place : Place) (bytes : List UInt8) :
    (t.put place bytes).file? place = some bytes := by
  simp [file?, put]

/-- A file put into a tree closes no way that was open. -/
theorem enter_put {t : FileTree} {folder next : Place} {name : String} (place : Place)
    (bytes : List UInt8) (h : t.enter folder name = .ok next) :
    (t.put place bytes).enter folder name = .ok next := by
  have hf : (t.put place bytes).hasFolder (name :: folder) = t.hasFolder (name :: folder) := rfl
  unfold enter at h ⊢
  rw [hf]
  repeat' split at h
  all_goals simp_all

theorem foldlM_enter_put {t : FileTree} {folder next : Place} {names : List String}
    (place : Place) (bytes : List UInt8) (h : names.foldlM t.enter folder = .ok next) :
    names.foldlM (t.put place bytes).enter folder = .ok next := by
  induction names generalizing folder with
  | nil => exact h
  | cons name names ih =>
    rw [List.foldlM_cons] at h ⊢
    cases hn : t.enter folder name with
    | error fault =>
      rw [hn] at h
      cases h
    | ok inner =>
      rw [hn] at h
      rw [enter_put place bytes hn]
      exact ih h

theorem locate_put {t : FileTree} {path : String} {p : Path} {folder : Place} (place : Place)
    (bytes : List UInt8) (h : t.locate path = .ok (p, folder)) :
    (t.put place bytes).locate path = .ok (p, folder) := by
  unfold locate at h ⊢
  split at h
  · cases h
  split at h
  · cases h
  next he hl =>
  rw [if_neg he, if_neg hl]
  cases hw : t.folderOf (.ofString path) with
  | error fault =>
    rw [hw] at h
    cases h
  | ok inner =>
    rw [hw] at h
    have hw' : (t.put place bytes).folderOf (.ofString path) = .ok inner :=
      foldlM_enter_put place bytes hw
    rw [hw']
    exact h

theorem readIn_of_writeIn {t t' : FileTree} {p : Path} {folder : Place} {bytes : List UInt8}
    (h : t.writeIn p folder bytes = .ok t') : t'.readIn p folder = .ok bytes := by
  unfold writeIn at h
  split at h
  · cases h
  next hp =>
  split at h
  · cases h
  next hl =>
  split at h
  · cases h
  cases h
  rw [Bool.or_eq_true, not_or] at hp
  rw [readIn, if_neg hp.1, if_neg hl, file?_put]
  exact if_neg hp.2

/-- A file that was written is read back at the path it was written to. -/
theorem readFile_of_writeFile {t t' : FileTree} {path : String} {bytes : List UInt8}
    (h : t.writeFile path bytes = .ok t') : t'.readFile path = .ok bytes := by
  unfold writeFile at h
  cases hl : t.locate path with
  | error fault =>
    rw [hl] at h
    cases h
  | ok found =>
    rw [hl] at h
    obtain ⟨place, rfl⟩ : ∃ place, t' = t.put place bytes := by
      unfold writeIn at h
      repeat' split at h
      all_goals cases h
      exact ⟨_, rfl⟩
    rw [readFile, locate_put place bytes hl]
    exact readIn_of_writeIn h

end FileTree

instance : Files (StateM FileTree) where
  read path := do return (← get).readFile path
  write path bytes := do
    match (← get).writeFile path bytes with
    | .ok t =>
      set t
      return .ok ()
    | .error fault => return .error fault

end ByteMachine.Console
