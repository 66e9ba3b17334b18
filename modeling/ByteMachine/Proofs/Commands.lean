import ByteMachine.Console.FileTree
import ByteMachine.Console.Session
import ByteMachine.Proofs.Image
import ByteMachine.Proofs.Reassembly

namespace ByteMachine

namespace Console

theorem splitPath_snd (cs : List Char) :
    (splitPath (String.ofList cs)).2 = (cs.reverse.takeWhile (· != '/')).reverse := by
  rw [splitPath, String.toList_ofList]

/-- What stands behind a dot at the end of a path is its extension, if it has one. -/
theorem extension?_behind_dot (front ext : List Char) (h : ∀ c ∈ ext, c ≠ '.' ∧ c ≠ '/') :
    extension? (String.ofList (front ++ '.' :: ext)) = none ∨
      extension? (String.ofList (front ++ '.' :: ext)) = some (String.ofList ext) := by
  have hslash : ∀ c ∈ ext.reverse ++ ['.'], (c != '/') = true := by
    intro c hc
    rcases List.mem_append.mp hc with hc | hc
    · simp [(h c (List.mem_reverse.mp hc)).2]
    · rw [List.mem_singleton.mp hc]
      rfl
  have hdot : ∀ c ∈ ext.reverse, (c != '.') = true := by
    intro c hc
    simp [(h c (List.mem_reverse.mp hc)).1]
  obtain ⟨stem, hname⟩ : ∃ stem, (splitPath (String.ofList (front ++ '.' :: ext))).2.reverse
      = ext.reverse ++ '.' :: stem := by
    refine ⟨front.reverse.takeWhile (· != '/'), ?_⟩
    rw [splitPath_snd, List.reverse_reverse, List.reverse_append, List.reverse_cons,
      List.takeWhile_append_of_pos hslash, List.append_assoc]
    rfl
  have hdrop : (ext.reverse ++ '.' :: stem).dropWhile (· != '.') = '.' :: stem := by
    rw [List.dropWhile_append_of_pos hdot]
    rfl
  have htake : (ext.reverse ++ '.' :: stem).takeWhile (· != '.') = ext.reverse := by
    rw [List.takeWhile_append_of_pos hdot]
    exact List.append_nil _
  rw [extension?, splitName, hname, hdrop, htake, List.reverse_reverse]
  dsimp only
  split
  · exact Or.inl rfl
  · exact Or.inr rfl

/-- A path that is read as assembly text. -/
def IsSourcePath (path : String) : Prop :=
  extension? path = some "asm" ∨ extension? path = some "s"

theorem not_isSourcePath_of_ext {path : String} (h : extension? path ≠ some "asm")
    (h' : extension? path ≠ some "s") : ¬ IsSourcePath path := by
  intro hsource
  rcases hsource with hasm | hs
  · exact h hasm
  · exact h' hs

/-- The path that an image has where none is given is no source path. -/
theorem not_isSourcePath_withExtension_bin (path : String) :
    ¬ IsSourcePath (withExtension path "bin") := by
  obtain ⟨front, ext, hpath, hext⟩ : ∃ front ext,
      withExtension path "bin" = String.ofList (front ++ '.' :: ext) ∧
        (ext = [] ∨ ext = ['b', 'i', 'n']) := by
    unfold withExtension
    dsimp only
    split
    · next =>
      refine ⟨(splitPath path).1 ++ ['.'], [], ?_, Or.inl rfl⟩
      rw [List.append_assoc]
      rfl
    · next stem _ _ _ =>
      refine ⟨(splitPath path).1 ++ stem, ['b', 'i', 'n'], ?_, Or.inr rfl⟩
      rw [← String.toList_inj]
      simp only [String.toList_append, String.toList_ofList, List.append_assoc]
      rfl
  have hplain : ∀ c ∈ ext, c ≠ '.' ∧ c ≠ '/' := by
    rcases hext with rfl | rfl <;> simp
  rw [hpath]
  rcases extension?_behind_dot front ext hplain with hnone | hsome
  · apply not_isSourcePath_of_ext
    · rw [hnone]
      exact nofun
    · rw [hnone]
      exact nofun
  · apply not_isSourcePath_of_ext
    · rw [hsome]
      rcases hext with rfl | rfl <;> decide
    · rw [hsome]
      rcases hext with rfl | rfl <;> decide

/-- What a command reports and leaves over a tree of files. -/
def carryOut (verbose : Bool) (c : Command) (t : FileTree) : Report × FileTree :=
  (perform (m := StateM FileTree) verbose c).run t

/-- How a file is run, apart from its path and the base. -/
structure RunOptions where
  verbose : Bool
  maxCycles? : Option UInt64
  dump : Bool
  memory? : Option MemoryRange
  trace : Bool

namespace RunOptions

/-- Runs the file at a path. -/
def run (o : RunOptions) (path : String) (base : UInt16) (t : FileTree) : Report × FileTree :=
  carryOut o.verbose (.run path base o.maxCycles? o.dump o.memory? o.trace) t

/-- The report of a run of a program. -/
def report (o : RunOptions) (p : Program) : Report :=
  runReport o.verbose p o.maxCycles? o.dump o.memory? o.trace

end RunOptions

/-- The path that the image of a source is written to. -/
def imagePath (input : String) (output? : Option String) : String :=
  output?.getD (withExtension input "bin")

def refusedReport (input : String) (e : Assembly.AssemblyError) : Report :=
  .failed [] (.during "assembling" input (.ofAssemblyError e))

theorem Report.after_nothing (r : Report) : r.after "" [] = r := by
  rw [after, String.empty_append, List.nil_append]

namespace FileTree

def textAt (t : FileTree) (path : String) : Except FileFault String :=
  t.readFile path >>= textOfBytes

variable {α β : Type} {t t' : FileTree}

theorem run_bind_of_run {x : StateM FileTree α} {a : α} (h : x.run t = (a, t'))
    (f : α → StateM FileTree β) : (x >>= f).run t = (f a).run t' := by
  rw [StateT.run_bind, h]
  rfl

theorem run_read (t : FileTree) (path : String) :
    (Files.read (m := StateM FileTree) path).run t = (t.readFile path, t) :=
  rfl

theorem run_write (t : FileTree) (path : String) (bytes : List UInt8) :
    (Files.write (m := StateM FileTree) path bytes).run t =
      match t.writeFile path bytes with
      | .ok t' => (.ok (), t')
      | .error fault => (.error fault, t) := by
  have hrun : (Files.write (m := StateM FileTree) path bytes).run t
      = (match t.writeFile path bytes with
        | .ok t' => do set t'; return .ok ()
        | .error fault => return .error fault : StateM FileTree _).run t := rfl
  rw [hrun]
  cases t.writeFile path bytes with
  | ok t' => rfl
  | error fault => rfl

theorem run_readText (t : FileTree) (path : String) :
    (readText (m := StateM FileTree) path).run t = (t.textAt path, t) := by
  rw [readText, run_bind_of_run (t.run_read path), textAt]
  cases t.readFile path with
  | error fault => rfl
  | ok bytes => rfl

end FileTree

section

variable {t t' : FileTree} {input path source : String} {output? : Option String} {base : UInt16}
  {words : List UInt16}

theorem carryOut_asm_of_error {e : Assembly.AssemblyError} (htext : t.textAt input = .ok source)
    (h : Assembly.assemble source = .error e) (verbose : Bool) :
    carryOut verbose (.asm input output?) t = (refusedReport input e, t) := by
  change (assembleFile (m := StateM FileTree) input (imagePath input output?)).run t = _
  rw [assembleFile, FileTree.run_bind_of_run (t.run_readText input), htext]
  simp only [h]
  rfl

/-- A good source is assembled without failure exactly if the image of its words is written. -/
theorem carryOut_asm_succeeds_iff (htext : t.textAt input = .ok source)
    (h : Assembly.assemble source = .ok words) (verbose : Bool) :
    (∃ report, carryOut verbose (.asm input output?) t = (report, t') ∧ report.failure? = none) ↔
      t.writeFile (imagePath input output?) (Program.atReset words).toBytes = .ok t' := by
  have hwrite := t.run_write (imagePath input output?) (bytesOfWords words)
  change (∃ report, (assembleFile (m := StateM FileTree) input (imagePath input output?)).run t
    = (report, t') ∧ report.failure? = none) ↔
      t.writeFile (imagePath input output?) (bytesOfWords words) = .ok t'
  rw [assembleFile, FileTree.run_bind_of_run (t.run_readText input), htext]
  simp only [h]
  cases hwritten : t.writeFile (imagePath input output?) (bytesOfWords words) with
  | error fault =>
    rw [hwritten] at hwrite
    rw [FileTree.run_bind_of_run hwrite]
    constructor
    · rintro ⟨report, hreport, hnone⟩
      obtain rfl := (Prod.mk.inj hreport).1
      cases hnone
    · exact nofun
  | ok written =>
    rw [hwritten] at hwrite
    rw [FileTree.run_bind_of_run hwrite]
    constructor
    · rintro ⟨report, hreport, -⟩
      exact congrArg _ (Prod.mk.inj hreport).2
    · intro h'
      obtain rfl := Except.ok.inj h'
      exact ⟨_, rfl, rfl⟩

variable (o : RunOptions)

theorem run_of_readProgram_error {log : List LogLine} {failure : Failure}
    (h : (readProgram (m := StateM FileTree) path base).run t = ((log, .error failure), t)) :
    o.run path base t = (.failed log failure, t) := by
  rw [RunOptions.run, carryOut, perform, FileTree.run_bind_of_run h]
  rfl

theorem run_of_readProgram_ok {log : List LogLine} {p : Program}
    (h : (readProgram (m := StateM FileTree) path base).run t = ((log, .ok p), t)) :
    o.run path base t = ((o.report p).after "" log, t) := by
  rw [RunOptions.run, carryOut, perform, FileTree.run_bind_of_run h]
  rfl

theorem run_readProgram_of_source (hpath : IsSourcePath path) (htext : t.textAt path = .ok source)
    (base : UInt16) :
    (readProgram (m := StateM FileTree) path base).run t =
      (((sourceProgram source base).1, (Assembly.assembleProgram source base).mapError
        fun e => .during "assembling" path (.ofAssemblyError e)), t) := by
  rw [readProgram, if_pos (by simpa [IsSourcePath] using hpath),
    FileTree.run_bind_of_run (t.run_readText path), htext]
  rfl

theorem run_readProgram_of_image (hpath : ¬ IsSourcePath path) {bytes : List UInt8}
    (hread : t.readFile path = .ok bytes) (base : UInt16) :
    (readProgram (m := StateM FileTree) path base).run t =
      (([], (Program.ofBytes base bytes).mapError .ofSpecError), t) := by
  rw [readProgram, if_neg (by simpa [IsSourcePath] using hpath)]
  have himage : (readImage (m := StateM FileTree) path base).run t
      = ((Program.ofBytes base bytes).mapError .ofSpecError, t) := by
    rw [readImage, FileTree.run_bind_of_run (t.run_read path), hread]
    rfl
  rw [FileTree.run_bind_of_run himage]
  rfl

end

/-- What the commands make of the source at a path. Where its image is written, the source and the
image are run as one program, or refused for one lack of room; where it is no good source, both
commands refuse it in the same words. -/
structure RunsAlike (source : String) (base : UInt16) (t : FileTree) (input : String)
    (output? : Option String) : Prop where
  written : ∀ words t' verbose, Assembly.assemble source = .ok words →
    ((∃ report, carryOut verbose (.asm input output?) t = (report, t') ∧ report.failure? = none) ↔
      t.writeFile (imagePath input output?) (Program.atReset words).toBytes = .ok t')
  refused : ∀ e verbose (o : RunOptions), Assembly.assemble source = .error e →
    carryOut verbose (.asm input output?) t = (refusedReport input e, t) ∧
      o.run input base t = (refusedReport input e, t)
  ran : ∀ words report t' verbose (o : RunOptions), Assembly.assemble source = .ok words →
    Program.Fits base words → carryOut verbose (.asm input output?) t = (report, t') →
    report.failure? = none →
      o.run (imagePath input output?) base t' = (o.report ⟨base, words⟩, t') ∧
      o.run input base t = ((o.report ⟨base, words⟩).after "" [.assembled words.length], t)
  tooLarge : ∀ words report t' verbose (o : RunOptions), Assembly.assemble source = .ok words →
    ¬ Program.Fits base words → carryOut verbose (.asm input output?) t = (report, t') →
    report.failure? = none →
      o.run (imagePath input output?) base t'
        = (.failed [] (.ofSpecError (.programTooLarge base words.length)), t') ∧
      o.run input base t = (.failed [.assembled words.length] (.during "assembling" input
        (.ofAssemblyError (.spec (.programTooLarge base words.length)))), t)

section

variable {t : FileTree} {input source : String} {output? : Option String} {base : UInt16}
  {words : List UInt16} (o : RunOptions)

theorem sourceProgram_log (h : Assembly.assemble source = .ok words) (base : UInt16) :
    (sourceProgram source base).1 = [.assembled words.length] := by
  rw [sourceProgram, h]

theorem run_source_of_error (hpath : IsSourcePath input) (htext : t.textAt input = .ok source)
    {e : Assembly.AssemblyError} (h : Assembly.assemble source = .error e) :
    o.run input base t = (refusedReport input e, t) := by
  have hlog : (sourceProgram source base).1 = [] := by
    rw [sourceProgram, h]
  have hread := run_readProgram_of_source hpath htext base
  rw [hlog, Assembly.assembleProgram_of_error h] at hread
  exact run_of_readProgram_error o hread

theorem run_source_of_fits (hpath : IsSourcePath input) (htext : t.textAt input = .ok source)
    (h : Assembly.assemble source = .ok words) (hfits : Program.Fits base words) :
    o.run input base t = ((o.report ⟨base, words⟩).after "" [.assembled words.length], t) := by
  have hread := run_readProgram_of_source hpath htext base
  rw [sourceProgram_log h, Assembly.assembleProgram_of_fits h hfits] at hread
  exact run_of_readProgram_ok o hread

theorem run_source_of_not_fits (hpath : IsSourcePath input) (htext : t.textAt input = .ok source)
    (h : Assembly.assemble source = .ok words) (hfits : ¬ Program.Fits base words) :
    o.run input base t = (.failed [.assembled words.length] (.during "assembling" input
      (.ofAssemblyError (.spec (.programTooLarge base words.length)))), t) := by
  have hread := run_readProgram_of_source hpath htext base
  rw [sourceProgram_log h, Assembly.assembleProgram_of_not_fits h hfits] at hread
  exact run_of_readProgram_error o hread

theorem run_image_of_fits {path : String} (hpath : ¬ IsSourcePath path)
    (hread : t.readFile path = .ok (Program.atReset words).toBytes)
    (hfits : Program.Fits base words) :
    o.run path base t = (o.report ⟨base, words⟩, t) := by
  have hprogram := run_readProgram_of_image hpath hread base
  rw [Program.ofBytes_toBytes_of_fits hfits] at hprogram
  rw [run_of_readProgram_ok o hprogram, Report.after_nothing]

theorem run_image_of_not_fits {path : String} (hpath : ¬ IsSourcePath path)
    (hread : t.readFile path = .ok (Program.atReset words).toBytes)
    (hfits : ¬ Program.Fits base words) :
    o.run path base t = (.failed [] (.ofSpecError (.programTooLarge base words.length)), t) := by
  have hprogram := run_readProgram_of_image hpath hread base
  rw [Program.ofBytes_toBytes_of_not_fits hfits] at hprogram
  exact run_of_readProgram_error o hprogram

theorem runsAlike (hpath : IsSourcePath input) (htext : t.textAt input = .ok source)
    (himage : ¬ IsSourcePath (imagePath input output?)) :
    RunsAlike source base t input output? where
  written words t' verbose h := carryOut_asm_succeeds_iff htext h verbose
  refused e verbose o h :=
    ⟨carryOut_asm_of_error htext h verbose, run_source_of_error o hpath htext h⟩
  ran words report t' verbose o h hfits hrun hreport := by
    have hwrite := (carryOut_asm_succeeds_iff htext h verbose).mp ⟨report, hrun, hreport⟩
    have hread := FileTree.readFile_of_writeFile hwrite
    exact ⟨run_image_of_fits o himage hread hfits, run_source_of_fits o hpath htext h hfits⟩
  tooLarge words report t' verbose o h hfits hrun hreport := by
    have hwrite := (carryOut_asm_succeeds_iff htext h verbose).mp ⟨report, hrun, hreport⟩
    have hread := FileTree.readFile_of_writeFile hwrite
    exact ⟨run_image_of_not_fits o himage hread hfits,
      run_source_of_not_fits o hpath htext h hfits⟩

end

/-- What a source is as a program at a base: the program that is read back from its image. -/
structure SameProgram (source : String) (base : UInt16) : Prop where
  ok_iff : ∀ p, Assembly.assembleProgram source base = .ok p ↔
    ∃ words, Assembly.assemble source = .ok words ∧
      Program.ofBytes base (Program.atReset words).toBytes = .ok p
  fits : ∀ words, Assembly.assemble source = .ok words → Program.Fits base words →
    Assembly.assembleProgram source base = .ok ⟨base, words⟩
  tooLarge : ∀ words, Assembly.assemble source = .ok words → ¬ Program.Fits base words →
    Assembly.assembleProgram source base = .error (.spec (.programTooLarge base words.length)) ∧
      Program.ofBytes base (Program.atReset words).toBytes
        = .error (.programTooLarge base words.length)
  even : ∀ words bytes, Program.ofBytes base (Program.atReset words).toBytes
    ≠ .error (.oddImageLength bytes)
  refused : ∀ e, Assembly.assemble source = .error e →
    Assembly.assembleProgram source base = .error e
  validate_iff_load : ∀ (p : Program) (memory : Memory),
    p.validate = .ok () ↔ ∃ memory', memory.load p.base p.code = .ok memory'
  loads : ∀ p, (Assembly.assembleProgram source base = .ok p ∨
      ∃ bytes, Program.ofBytes base bytes = .ok p) →
    ∀ (layout : Layout) tracing traceLimit, layout.validate = .ok () →
      ∃ m, Machine.withProgram p layout tracing traceLimit = .ok m ∧ m.state.pc = p.base ∧
        m.memory = Memory.zero.putWords p.base p.code
  commands : ∀ (t : FileTree) input output?, IsSourcePath input → t.textAt input = .ok source →
    (∀ output, output? = some output → ¬ IsSourcePath output) →
      RunsAlike source base t input output?

/-- A source and the image of its words are one program, at every base: they are accepted together,
refused for the same reason, and loaded and run alike. -/
theorem sameProgram (source : String) (base : UInt16) : SameProgram source base where
  ok_iff := Assembly.assembleProgram_eq_ok_iff
  fits words h hfits := Assembly.assembleProgram_of_fits h hfits
  tooLarge words h hfits :=
    ⟨Assembly.assembleProgram_of_not_fits h hfits, Program.ofBytes_toBytes_of_not_fits hfits⟩
  even words bytes h := by
    by_cases hfits : Program.Fits base words
    · rw [Program.ofBytes_toBytes_of_fits hfits] at h
      cases h
    · rw [Program.ofBytes_toBytes_of_not_fits hfits] at h
      cases h
  refused e h := Assembly.assembleProgram_of_error h
  validate_iff_load p memory := by
    rw [p.validate_eq_ok_iff_fits, memory.exists_load_iff]
  loads p hp layout tracing traceLimit hvalid := by
    have hfits : Program.Fits p.base p.code := by
      rcases hp with hsource | ⟨bytes, hbytes⟩
      · exact Assembly.fits_of_assembleProgram hsource
      · exact Program.fits_of_ofBytes hbytes
    exact ⟨_, Machine.withProgram_of_fits hfits hvalid tracing traceLimit, rfl, rfl⟩
  commands t input output? hpath htext houtput := by
    have himage : ¬ IsSourcePath (imagePath input output?) := by
      cases output? with
      | none => exact not_isSourcePath_withExtension_bin input
      | some output => exact houtput output rfl
    exact runsAlike hpath htext himage

/-- A halt that takes the last two bytes of memory, and has no room one byte higher. -/
theorem sameProgram_at_end_of_memory :
    let t : FileTree := ⟨[], [(["p.asm"], [0x68, 0x6C, 0x74])], []⟩
    ∃ t', t'.readFile "p.bin" = .ok [0xF0, 0x00] ∧ ∀ o : RunOptions,
      o.run "p.bin" 0xFFFE t' = (o.report ⟨0xFFFE, [0xF000]⟩, t') ∧
      o.run "p.asm" 0xFFFE t = ((o.report ⟨0xFFFE, [0xF000]⟩).after "" [.assembled 1], t) ∧
      o.run "p.bin" 0xFFFF t' = (.failed [] (.ofSpecError (.programTooLarge 0xFFFF 1)), t') := by
  intro t
  have htext : t.textAt "p.asm" = .ok "hlt" := rfl
  have hpath : IsSourcePath "p.asm" := Or.inl (by decide)
  have hassemble : Assembly.assemble "hlt" = .ok [0xF000] := by
    have hlines : "hlt".toList.splitOn '\n' = ["hlt".toList] := by decide
    have hhlt : Assembly.parseLine "hlt".toList 1 = .ok (some .hlt) :=
      Assembly.parseLine_text (i := .hlt) (by decide) 1
    rw [Assembly.assemble, Assembly.instructions, hlines, Assembly.parseLines]
    simp only [List.zipIdx_cons, List.zipIdx_nil, List.mapM_cons, List.mapM_nil, hhlt]
    rfl
  let t' := t.put ["p.bin"] [0xF0, 0x00]
  have hwrite : t.writeFile (imagePath "p.asm" none) (Program.atReset [0xF000]).toBytes = .ok t' :=
    rfl
  have hnone : ∀ output, (none : Option String) = some output → ¬ IsSourcePath output := by
    intro output h
    cases h
  have hlow := (sameProgram "hlt" 0xFFFE).commands t "p.asm" none hpath htext hnone
  have hhigh := (sameProgram "hlt" 0xFFFF).commands t "p.asm" none hpath htext hnone
  obtain ⟨report, hrun, hreport⟩ := (hlow.written _ t' false hassemble).mpr hwrite
  refine ⟨t', rfl, ?_⟩
  intro o
  obtain ⟨himage, hsource⟩ := hlow.ran _ report t' false o hassemble (by decide) hrun hreport
  obtain ⟨hlarge, -⟩ := hhigh.tooLarge _ report t' false o hassemble (by decide) hrun hreport
  exact ⟨himage, hsource, hlarge⟩

end Console

end ByteMachine
