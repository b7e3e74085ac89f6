import Gateware.Command.Run
import Gateware.Proofs.Output.System
import Gateware.Proofs.Printing.Text

/- Building one file from another, over any file system.

   A source file is read, taken for text, held against a limit on its size, parsed and
   emitted, and then the output is written. This file

   1. says when the answer to reading a file holds a source text (`IsSource`) and when it
      compiles (`Compiles`), and proves that all routes to a Verilog text go through `compile`
      and accept the same source files (`result_compileContent`, `result_listVerilog`): they
      differ only in how their errors name the output;
   2. writes a build out as one read, then at most one write (`compileFile_apply`);
   3. names the first step that fails (`Refuses`) and proves that a build ends with its error
      (`Refuses.compileFile_eq`), or that all steps succeed (`refuses_or_writes`);
   4. follows a command that prints its product (`produce_listVerilog`, `produce_state`);
   5. concludes that a build is all or nothing (`compileFile_is_atomic`).

   Assumed are the laws of `FileSystem`, of which the one that carries the result is that a
   failed write changes no file. Everything that is printed is taken to arrive. -/
namespace Gateware

variable {σ : Type} [Files (StateM σ)] {s s' : σ}
variable {path input output text source : String} {content : Except FileError ByteArray}

/-- The answer to reading a file holds a source text: it is text, and within the limit. -/
def IsSource (content : Except FileError ByteArray) (source : String) : Prop :=
  ∃ bytes, content = .ok bytes ∧ String.fromUTF8? bytes = some source ∧ bytes.size ≤ maxSourceSize

/-- The answer to reading a file has a Verilog text. -/
def Compiles (content : Except FileError ByteArray) (text : String) : Prop :=
  ∃ source, IsSource content source ∧ compile source = .ok text

/-- An error of a source text, with the file that it is in. -/
def BuildError.ofCompile (path : String) (place : Option String) : CompileError → BuildError
  | .reading e => .reading path e
  | .lowering e => .lowering place e

/-- Why the answer to reading a file holds no source text. -/
inductive NoSource (path : String) : Except FileError ByteArray → BuildError → Prop
  | unreadable (e : FileError) : NoSource path (.error e) (.unreadable path e)
  | notText {bytes : ByteArray} (h : String.fromUTF8? bytes = none) :
      NoSource path (.ok bytes) (.unreadable path .notText)
  | tooLarge {bytes : ByteArray} {source : String} (htext : String.fromUTF8? bytes = some source)
      (h : maxSourceSize < bytes.size) : NoSource path (.ok bytes) (.tooLarge bytes.size)

/-! ## Routes to a text -/

theorem sourceText_eq_ok_iff : sourceText path content = .ok source ↔ IsSource content source := by
  unfold sourceText IsSource
  cases content with
  | error e => simp
  | ok bytes =>
    simp only [Except.ok.injEq, exists_eq_left']
    cases String.fromUTF8? bytes with
    | none => simp
    | some found =>
      by_cases hsize : bytes.size ≤ maxSourceSize
      · simp [hsize, Nat.not_lt.mpr hsize]
      · simp [hsize, Nat.lt_of_not_le hsize]

theorem sourceText_eq_error_iff {e : BuildError} :
    sourceText path content = .error e ↔ NoSource path content e := by
  unfold sourceText
  constructor
  · intro h
    cases content with
    | error failure =>
      cases h
      exact .unreadable failure
    | ok bytes =>
      dsimp only at h
      cases htext : String.fromUTF8? bytes with
      | none =>
        rw [htext] at h
        cases h
        exact .notText htext
      | some source =>
        rw [htext] at h
        dsimp only at h
        split_ifs at h with hsize
        cases h
        exact .tooLarge htext hsize
  · intro h
    cases h with
    | unreadable e => rfl
    | notText h => simp only [h]
    | tooLarge htext h => simp only [htext, gt_iff_lt, if_pos h]

/-- Reading and lowering, with errors that name files, are `compile`. -/
theorem compile_mapError (path : String) (place : Option String) (source : String) :
    (compile source).mapError (BuildError.ofCompile path place) = (parse source).mapError (BuildError.reading path) >>=
      fun ms => (emit ms).result.mapError (BuildError.lowering place) := by
  unfold compile
  cases parse source with
  | error e => rfl
  | ok ms =>
    show ((emit ms).result.mapError CompileError.lowering).mapError _ = (emit ms).result.mapError _
    cases (emit ms).result <;> rfl

theorem result_loadModules : (loadModules path content).result =
    sourceText path content >>= fun source => (parse source).mapError (BuildError.reading path) := by
  rw [loadModules, Report.result_bind]
  rfl

theorem result_listVerilog : (Command.listVerilog path content).result =
    sourceText path content >>= fun source => (compile source).mapError (BuildError.ofCompile path none) := by
  simp only [Command.listVerilog, Report.result_bind, result_loadModules, compile_mapError, bind_assoc]
  rfl

theorem result_compileContent : (compileContent path content).result.map (·.2) =
    sourceText path content >>= fun source => (compile source).mapError (BuildError.ofCompile path (some path)) := by
  simp only [compileContent, Report.result_bind, result_loadModules, compile_mapError, bind_assoc]
  cases sourceText path content with
  | error e => rfl
  | ok source =>
    cases hms : parse source with
    | error e => simp [hms, bind, Except.bind, Except.mapError, Except.map]
    | ok ms =>
      cases htext : (emit ms).result <;>
        simp [hms, htext, bind, Except.bind, Except.mapError, Except.map, Report.mapError]

/-- A text that a route gives for a source file, whatever its errors name. -/
theorem sourceText_bind_eq_ok_iff (f : CompileError → BuildError) :
    (sourceText path content >>= fun source => (compile source).mapError f) = .ok text ↔ Compiles content text := by
  simp only [Except.bind_eq_ok_iff, sourceText_eq_ok_iff, Compiles]
  refine exists_congr fun source => and_congr_right fun _ => ?_
  cases compile source <;> simp [Except.mapError]

theorem listVerilog_eq_ok_iff : (Command.listVerilog path content).result = .ok text ↔ Compiles content text := by
  rw [result_listVerilog, sourceText_bind_eq_ok_iff]

theorem compileContent_eq_ok_iff :
    (∃ count, (compileContent path content).result = .ok (count, text)) ↔ Compiles content text := by
  rw [← sourceText_bind_eq_ok_iff (.ofCompile path (some path)), ← result_compileContent]
  cases (compileContent path content).result <;> simp [Except.map, Prod.ext_iff]

theorem compileContent_eq_error_iff {e : BuildError} :
    (compileContent path content).result = .error e ↔ NoSource path content e ∨
      ∃ source failure, IsSource content source ∧ compile source = .error failure ∧
        e = .ofCompile path (some path) failure := by
  rw [← (Except.map_eq_iff (·.2) _).2, result_compileContent, ← sourceText_eq_error_iff]
  simp only [← @sourceText_eq_ok_iff path]
  cases sourceText path content with
  | error e => simp [bind, Except.bind]
  | ok source =>
    cases hcompile : compile source <;> simp [bind, Except.bind, Except.mapError, hcompile, eq_comm]

/-! ## One build -/

/-- The answer to reading the source file, and the state after it. -/
def sourceRead (s : σ) (input : String) : Except FileError ByteArray × σ :=
  Files.read (m := StateM σ) input s

/-- The answer to writing a text after the source file has been read, and the state after it. -/
def textWritten (s : σ) (input output text : String) : Except FileError Unit × σ :=
  Files.write (m := StateM σ) output text.toUTF8 (sourceRead s input).2

/-- Why one file is not built from another: the first step that fails, after those before it have
succeeded. -/
inductive Refuses (s : σ) (input output : String) : BuildError → Prop
  | source {e : BuildError} (h : NoSource input (sourceRead s input).1 e) : Refuses s input output e
  | compile {source : String} {e : CompileError} (hsource : IsSource (sourceRead s input).1 source)
      (h : compile source = .error e) : Refuses s input output (.ofCompile input (some input) e)
  | write {text : String} {e : FileError} (htext : Compiles (sourceRead s input).1 text)
      (h : (textWritten s input output text).1 = .error e) : Refuses s input output (.unwritable output e)

/-- The files are read once, and written at most once, at the end. -/
theorem compileFile_apply (s : σ) (input output : String) :
    compileFile (m := StateM σ) input output s =
      let compiled := compileContent input (sourceRead s input).1
      match compiled.result with
      | .error e => (⟨compiled.events, .error e⟩, (sourceRead s input).2)
      | .ok (count, text) =>
        match textWritten s input output text with
        | (.error e, s') => (⟨compiled.events, .error (.unwritable output e)⟩, s')
        | (.ok (), s') => (⟨compiled.events ++ [.wrote count output], .ok ()⟩, s') := by
  unfold compileFile textWritten
  simp only [bind, StateT.bind]
  rw [show Files.read (m := StateM σ) input s = ((sourceRead s input).1, (sourceRead s input).2) from rfl]
  dsimp only
  rcases (compileContent input (sourceRead s input).1).result with e | ⟨count, text⟩
  · rfl
  · dsimp only [StateT.bind]
    rcases Files.write (m := StateM σ) output text.toUTF8 (sourceRead s input).2 with ⟨_ | _, s'⟩ <;> rfl

/-- A build that fails at a step says so. It leaves the state after the last step that it took. -/
theorem Refuses.compileFile_eq {e : BuildError} (h : Refuses s input output e) :
    (compileFile (m := StateM σ) input output s).1.result = .error e ∧
      ((compileFile (m := StateM σ) input output s).2 = (sourceRead s input).2 ∨
        ∃ text failure, (textWritten s input output text).1 = .error failure ∧
          (compileFile (m := StateM σ) input output s).2 = (textWritten s input output text).2) := by
  rw [compileFile_apply]
  cases h with
  | source h =>
    dsimp only
    rw [compileContent_eq_error_iff.mpr (.inl h)]
    exact ⟨rfl, .inl rfl⟩
  | compile hsource h =>
    dsimp only
    rw [compileContent_eq_error_iff.mpr (.inr ⟨_, _, hsource, h, rfl⟩)]
    exact ⟨rfl, .inl rfl⟩
  | write htext h =>
    obtain ⟨count, hresult⟩ := compileContent_eq_ok_iff.mpr htext
    dsimp only
    rw [hresult]
    dsimp only
    rcases hwritten : textWritten s input output _ with ⟨answer, s'⟩
    rw [hwritten] at h
    cases h
    exact ⟨rfl, .inr ⟨_, _, by rw [hwritten], by rw [hwritten]⟩⟩

/-- A build whose steps all succeed leaves the state after the last one. -/
theorem Compiles.compileFile_eq (htext : Compiles (sourceRead s input).1 text)
    (hwrite : (textWritten s input output text).1 = .ok ()) :
    (compileFile (m := StateM σ) input output s).1.result = .ok () ∧
      (compileFile (m := StateM σ) input output s).2 = (textWritten s input output text).2 := by
  obtain ⟨count, hresult⟩ := compileContent_eq_ok_iff.mpr htext
  rw [compileFile_apply]
  dsimp only
  rw [hresult]
  dsimp only
  rcases hwritten : textWritten s input output text with ⟨answer, s'⟩
  rw [hwritten] at hwrite
  cases hwrite
  exact ⟨rfl, rfl⟩

/-- A step fails or all of them succeed. -/
theorem refuses_or_writes (s : σ) (input output : String) :
    (∃ e, Refuses s input output e) ∨
      ∃ text, Compiles (sourceRead s input).1 text ∧ (textWritten s input output text).1 = .ok () := by
  rcases hresult : (compileContent input (sourceRead s input).1).result with e | ⟨count, text⟩
  · rcases compileContent_eq_error_iff.mp hresult with h | ⟨source, failure, hsource, h, rfl⟩
    · exact .inl ⟨_, .source h⟩
    · exact .inl ⟨_, .compile hsource h⟩
  · have htext : Compiles (sourceRead s input).1 text := compileContent_eq_ok_iff.mp ⟨count, hresult⟩
    rcases hwrite : (textWritten s input output text).1 with e | ⟨⟩
    · exact .inl ⟨_, .write htext hwrite⟩
    · exact .inr ⟨text, htext, hwrite⟩

/-! ## The command -/

/-- Only a build writes: all other products come from the source file as it was read. -/
theorem Command.produce_state {i : Invocation}
    (h : i.product = some .tree ∨ i.product = some .tokens ∨ i.output = some "-") (file : String) (s : σ) :
    (Command.produce (m := StateM σ) i file s).2 = (sourceRead s file).2 := by
  unfold Command.produce
  rcases h with h | h | h
  · rw [h]; rfl
  · rw [h]; rfl
  · rw [h]
    cases i.product.getD .verilog <;> rfl

theorem Command.produce_listVerilog {i : Invocation} (hproduct : i.product.getD .verilog = .verilog)
    (houtput : i.output = some "-") (file : String) (s : σ) :
    (Command.produce (m := StateM σ) i file s).1 = Command.listVerilog file (sourceRead s file).1 := by
  unfold Command.produce
  rw [hproduct, houtput]
  rfl

theorem Command.status_outcome {v : Verbosity} {r : Report BuildError String} :
    (Command.outcome v r).status = 0 ↔ ∃ text, r.result = .ok text := by
  unfold Command.outcome
  cases r.result <;> simp

theorem Command.stdout_outcome {v : Verbosity} {r : Report BuildError String} (h : r.result = .ok text) :
    (Command.outcome v r).stdout = text := by
  simp [Command.outcome, h]

/-! ## All or nothing -/

/-- A build that fails changes no file: it has read the source file and written nothing, or its one
write has failed. -/
theorem FileSystem.files_of_refuses (system : FileSystem σ) {e : BuildError} (h : Refuses s input output e) :
    system.files (compileFile (m := StateM σ) input output s).2 = system.files s := by
  have hread : system.files (sourceRead s input).2 = system.files s := system.files_read s input
  rcases h.compileFile_eq.2 with heq | ⟨text, failure, hfailure, heq⟩
  · rw [heq, hread]
  · rw [heq, ← hread]
    exact system.files_of_refused _ output text.toUTF8 failure hfailure

/-- A build that succeeds replaces the output, by the text of the source file as it was before. -/
theorem FileSystem.puts_of_compiles (system : FileSystem σ) (htext : Compiles (sourceRead s input).1 text)
    (hwrite : (textWritten s input output text).1 = .ok ()) :
    (system.files s).Puts output text.toUTF8 (system.files (compileFile (m := StateM σ) input output s).2) := by
  have hread : system.files (sourceRead s input).2 = system.files s := system.files_read s input
  rw [(htext.compileFile_eq hwrite).2, ← hread]
  exact system.puts_of_written _ output text.toUTF8 hwrite

/-- A build is all or nothing, and its text is the one that the other routes give. It fails exactly
with the error of the first step that fails, and then no file has changed. Otherwise the output
holds the text of the source file as it was, also where the output is the source file, and all
other files are as they were. A command that prints the text succeeds exactly if there is one. It
changes no file, and neither do the commands that list the tokens or the syntax tree. -/
theorem compileFile_is_atomic (system : FileSystem σ) {s final : σ} {input output : String}
    {report : Report BuildError Unit} (hbuild : compileFile (m := StateM σ) input output s = (report, final)) :
    (∀ e, report.result = .error e ↔ Refuses s input output e) ∧
    (∀ e, report.result = .error e → system.files final = system.files s) ∧
    (report.result = .ok () ↔
      ∃ text, Compiles (sourceRead s input).1 text ∧ (textWritten s input output text).1 = .ok ()) ∧
    (report.result = .ok () → ∃ bytes text,
      (system.files s).file? input = some bytes ∧ Compiles (.ok bytes) text ∧
      (system.files s).Puts output text.toUTF8 (system.files final) ∧
      (system.files final).file? output = some text.toUTF8 ∧
      ∀ path, (system.files s).place? path ≠ (system.files s).place? output →
        (system.files final).file? path = (system.files s).file? path) ∧
    ∀ i : Invocation,
      let printed := Command.produce (m := StateM σ) i input s
      (i.product = some .tree ∨ i.product = some .tokens ∨ i.output = some "-" →
        system.files printed.2 = system.files s) ∧
      (i.product.getD .verilog = .verilog → i.output = some "-" →
        ((Command.outcome i.verbosity printed.1).status = 0 ↔ ∃ text, Compiles (sourceRead s input).1 text) ∧
        ∀ text, Compiles (sourceRead s input).1 text →
          (Command.outcome i.verbosity printed.1).stdout = text) := by
  obtain rfl : (compileFile (m := StateM σ) input output s).1 = report := by rw [hbuild]
  obtain rfl : (compileFile (m := StateM σ) input output s).2 = final := by rw [hbuild]
  have hresult := refuses_or_writes s input output
  have herror {e : BuildError} (h : (compileFile (m := StateM σ) input output s).1.result = .error e) :
      Refuses s input output e := by
    rcases hresult with ⟨e', he'⟩ | ⟨text, htext, hwrite⟩
    · obtain rfl : e' = e := Except.error.inj (he'.compileFile_eq.1.symm.trans h)
      exact he'
    · cases (htext.compileFile_eq hwrite).1.symm.trans h
  have hok (h : (compileFile (m := StateM σ) input output s).1.result = .ok ()) :
      ∃ text, Compiles (sourceRead s input).1 text ∧ (textWritten s input output text).1 = .ok () := by
    rcases hresult with ⟨e, he⟩ | hwrites
    · cases he.compileFile_eq.1.symm.trans h
    · exact hwrites
  refine ⟨fun e => ⟨herror, fun h => h.compileFile_eq.1⟩, fun e h => system.files_of_refuses (herror h),
    ⟨hok, fun ⟨text, htext, hwrite⟩ => (htext.compileFile_eq hwrite).1⟩, fun h => ?_, fun i => ⟨fun hi => ?_, ?_⟩⟩
  · obtain ⟨text, htext, hwrite⟩ := hok h
    have hputs := system.puts_of_compiles htext hwrite
    obtain ⟨source, ⟨bytes, hbytes, hsource⟩, hcompile⟩ := htext
    exact ⟨bytes, text, system.file?_of_read s input bytes hbytes, ⟨source, ⟨bytes, rfl, hsource⟩, hcompile⟩,
      hputs, hputs.file?_self, fun path hpath => hputs.file?_of_ne hpath⟩
  · rw [Command.produce_state hi]
    exact system.files_read s input
  · intro hproduct houtput
    rw [Command.produce_listVerilog hproduct houtput, Command.status_outcome]
    simp only [listVerilog_eq_ok_iff, true_and]
    intro text htext
    exact Command.stdout_outcome (listVerilog_eq_ok_iff.mpr htext)

def singleSource : String := "m()" ++ braced ""

def singleVerilog : String := "module m (\n);\nendmodule\n"

/-- A tree with one source file. -/
def FileTree.single : FileTree := ⟨[(["m"], .file singleSource.toUTF8)], []⟩

theorem FileTree.place?_single : single.place? "m" = some ["m"] := by
  have hcomponents : Path.components "m" = (["m"], false) := by
    unfold Path.components String.splitOn
    rw [String.splitOnAux, String.splitOnAux]
    decide +kernel
  have habsolute : Path.isAbsolute "m" = false := by decide +kernel
  refine place?_eq_some_iff.mpr ⟨[], "m", ?_, by decide, rfl⟩
  rw [follow, if_neg (by decide), if_neg (by decide), if_neg (by decide), hcomponents, habsolute]
  rfl

theorem FileTree.answer_write_single (bytes : ByteArray) :
    (Files.write (m := StateM FileTree) "m" bytes single).1 = .ok () := by
  have hwrite : single.write "m" bytes = .ok (single.set ["m"] (.file bytes)) :=
    write_eq_ok_iff.mpr ⟨_, place?_single, nofun, rfl⟩
  rcases write_apply single "m" bytes with ⟨e, herror, -⟩ | ⟨t, -, heq⟩
  · cases herror.symm.trans hwrite
  · rw [heq]

/-- The reason for which a device takes no content. -/
def FileError.noSpace : FileError := .other "No space left on device (os error 28)"

/-- The same tree on a device with room for files of a size. -/
def Guarded.single (room : Nat) : Guarded FileTree :=
  ⟨.single, fun _ _ bytes => if room < bytes.size then some .noSpace else none⟩

/-- A file is built in the place of its source where there is room for the text, and stays as it is
where there is none; the text is printed in either case. -/
theorem compileFile_in_place :
    let files := FileTree.system.guarded.files
    let full := compileFile (m := StateM (Guarded FileTree)) "m" "m" (.single 16)
    let built := compileFile (m := StateM (Guarded FileTree)) "m" "m" (.single 24)
    let printed := Command.produce (m := StateM (Guarded FileTree)) ⟨some "m", some "-", none, 0, false⟩ "m" (.single 16)
    full.1.result = .error (.unwritable "m" .noSpace) ∧
    (files full.2).file? "m" = some singleSource.toUTF8 ∧
    built.1.result = .ok () ∧ (files built.2).file? "m" = some singleVerilog.toUTF8 ∧
    (Command.outcome .warn printed.1).status = 0 ∧
    (Command.outcome .warn printed.1).stdout = singleVerilog ∧
    files printed.2 = files (.single 16) := by
  intro files full built printed
  have hread : FileTree.single.read "m" = .ok singleSource.toUTF8 :=
    FileTree.read_eq_ok_iff.mpr ⟨_, FileTree.place?_single, rfl⟩
  have hsource (room : Nat) : (sourceRead (Guarded.single room) "m").1 = .ok singleSource.toUTF8 := hread
  have hcompile : compile singleSource = .ok singleVerilog := by decide +kernel
  have htext (room : Nat) : Compiles (sourceRead (Guarded.single room) "m").1 singleVerilog :=
    ⟨_, ⟨_, hsource room, dif_pos (String.isValidUTF8 _), by decide⟩, hcompile⟩
  have hfull : (textWritten (Guarded.single 16) "m" "m" singleVerilog).1 = .error .noSpace := by
    have hrefusal : (Guarded.single 16).refusal? .single "m" singleVerilog.toUTF8 = some .noSpace :=
      by decide +kernel
    exact congrArg Prod.fst (Guarded.write_of_refusal hrefusal)
  have hroom : (textWritten (Guarded.single 24) "m" "m" singleVerilog).1 = .ok () := by
    have hrefusal : (Guarded.single 24).refusal? .single "m" singleVerilog.toUTF8 = none :=
      by decide +kernel
    rw [← FileTree.answer_write_single singleVerilog.toUTF8]
    exact congrArg Prod.fst (Guarded.write_of_none hrefusal)
  obtain ⟨hfails, hkept, -, -, hcommand⟩ :=
    @compileFile_is_atomic _ _ FileTree.system.guarded (.single 16) full.2 "m" "m" full.1 rfl
  obtain ⟨-, -, hsucceeds, hputs, -⟩ :=
    @compileFile_is_atomic _ _ FileTree.system.guarded (.single 24) built.2 "m" "m" built.1 rfl
  obtain ⟨hstate, hprints⟩ := hcommand ⟨some "m", some "-", none, 0, false⟩
  obtain ⟨hstatus, hstdout⟩ := hprints rfl rfl
  have hrefused := (hfails _).mpr (.write (htext 16) hfull)
  have hbuilt := hsucceeds.mpr ⟨_, htext 24, hroom⟩
  obtain ⟨bytes, text, hbytes, hcompiles, -, hfile, -⟩ := hputs hbuilt
  obtain rfl : text = singleVerilog := by
    have hsame : some bytes = some singleSource.toUTF8 := hbytes.symm.trans (FileTree.file?_contents.mpr hread)
    rw [Option.some.inj hsame, ← hsource 16] at hcompiles
    exact (hstdout _ hcompiles).symm.trans (hstdout _ (htext 16))
  refine ⟨hrefused, ?_, hbuilt, hfile, hstatus.mpr ⟨_, htext 16⟩, hstdout _ (htext 16), hstate (.inr (.inr rfl))⟩
  show (FileTree.system.guarded.files full.2).file? "m" = _
  rw [hkept _ hrefused]
  exact FileTree.file?_contents.mpr hread

end Gateware
