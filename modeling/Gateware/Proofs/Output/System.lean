import Gateware.Proofs.Output.Tree

/- What a build may rely on when it reads and writes files.

   A build runs over any state that answers requests to read and to write a file. This file

   1. says what such a state shows of its files: where paths lead and what stands there
      (`Contents`); two paths may lead to one place, so that an output can be the source
      file itself under another name;
   2. states the laws of a file system (`FileSystem`): what a request may change of that;
   3. proves that trees of files are one (`FileTree.system`), and that a file system stays one
      when some of its writes are refused, for whatever reason (`FileSystem.guarded`): a file
      may be protected, or there may be no room for its new content.

   Assumed is that a write replaces a whole file or fails without a change. Nothing is assumed
   of when a request fails: reading may fail on a file that is there, writing may fail on a
   file that can be read, and both may depend on parts of the state that the files do not
   show, such as who asks, how much room is left or how often a request was made. -/
namespace Gateware

/-- Where paths lead, and the files that stand there. -/
structure Contents (Place : Type) where
  place? : String → Option Place
  content? : Place → Option ByteArray

namespace Contents
variable {Place : Type} {c c' : Contents Place} {path : String} {bytes : ByteArray}

/-- The file that a path names. -/
def file? (c : Contents Place) (path : String) : Option ByteArray :=
  (c.place? path).bind c.content?

/-- One file is replaced, at the place of its path. All other places hold what they held, and
every path leads where it led. -/
def Puts (c : Contents Place) (path : String) (bytes : ByteArray) (c' : Contents Place) : Prop :=
  ∃ place, c.place? path = some place ∧ c'.place? = c.place? ∧ c'.content? place = some bytes ∧
    ∀ other ≠ place, c'.content? other = c.content? other

theorem Puts.file?_self (h : c.Puts path bytes c') : c'.file? path = some bytes := by
  obtain ⟨place, hplace, hpaths, hbytes, -⟩ := h
  rw [file?, hpaths, hplace]
  exact hbytes

theorem Puts.file?_of_ne (h : c.Puts path bytes c') {other : String}
    (hne : c.place? other ≠ c.place? path) : c'.file? other = c.file? other := by
  obtain ⟨place, hplace, hpaths, -, hothers⟩ := h
  rw [file?, file?, hpaths]
  cases hother : c.place? other with
  | none => rfl
  | some place' =>
    refine hothers place' ?_
    rintro rfl
    exact hne (hother.trans hplace.symm)

end Contents

/-- A state is one of a file system: it shows files, and requests keep the laws. -/
structure FileSystem (σ : Type) [Files (StateM σ)] where
  Place : Type
  files : σ → Contents Place
  -- Reading changes no file, and what is read is the file that the path names.
  files_read : ∀ s path, files (Files.read (m := StateM σ) path s).2 = files s
  file?_of_read : ∀ s path bytes, (Files.read (m := StateM σ) path s).1 = .ok bytes →
    (files s).file? path = some bytes
  -- A write that fails changes no file, and one that succeeds replaces a whole file.
  files_of_refused : ∀ s path bytes e, (Files.write (m := StateM σ) path bytes s).1 = .error e →
    files (Files.write (m := StateM σ) path bytes s).2 = files s
  puts_of_written : ∀ s path bytes, (Files.write (m := StateM σ) path bytes s).1 = .ok () →
    (files s).Puts path bytes (files (Files.write (m := StateM σ) path bytes s).2)

/-! ## Trees -/

namespace FileTree

def contents (t : FileTree) : Contents Location :=
  ⟨t.place?, t.content?⟩

theorem file?_contents {t : FileTree} {path : String} {bytes : ByteArray} :
    t.contents.file? path = some bytes ↔ t.read path = .ok bytes := by
  simp only [Contents.file?, Option.bind_eq_some_iff, contents, read_eq_ok_iff, content?_eq_some_iff]

theorem puts_contents {t t' : FileTree} {path : String} {bytes : ByteArray}
    (h : t.write path bytes = .ok t') : t.contents.Puts path bytes t'.contents := by
  obtain ⟨l, hl, hself, hothers⟩ := content?_of_write h
  exact ⟨l, hl, place?_of_write h, hself, hothers⟩

/-- What a tree answers to a write, and the tree after it. -/
theorem write_apply (t : FileTree) (path : String) (bytes : ByteArray) :
    (∃ e, t.write path bytes = .error e ∧ Files.write (m := StateM FileTree) path bytes t = (.error e, t)) ∨
      ∃ t', t.write path bytes = .ok t' ∧ Files.write (m := StateM FileTree) path bytes t = (.ok (), t') := by
  cases hwrite : t.write path bytes with
  | error e =>
    refine .inl ⟨e, rfl, ?_⟩
    simp only [Files.write, hwrite]
  | ok t' =>
    refine .inr ⟨t', rfl, ?_⟩
    simp only [Files.write, hwrite]

def system : FileSystem FileTree where
  Place := Location
  files := contents
  files_read _ _ := rfl
  file?_of_read _ _ _ h := file?_contents.mpr h
  files_of_refused t path bytes e h := by
    rcases write_apply t path bytes with ⟨e', -, heq⟩ | ⟨t', -, heq⟩
    · rw [heq]
    · rw [heq] at h
      cases h
  puts_of_written t path bytes h := by
    rcases write_apply t path bytes with ⟨e', -, heq⟩ | ⟨t', hwrite, heq⟩
    · rw [heq] at h
      cases h
    · rw [heq]
      exact puts_contents hwrite

end FileTree

/-! ## Refused writes -/

/-- A state that refuses some writes before they are made. -/
structure Guarded (σ : Type) where
  state : σ
  refusal? : σ → String → ByteArray → Option FileError

variable {σ : Type} [Files (StateM σ)]

instance : Files (StateM (Guarded σ)) where
  read path g :=
    let (answer, state) := Files.read (m := StateM σ) path g.state
    (answer, { g with state })
  write path bytes g :=
    match g.refusal? g.state path bytes with
    | some e => (.error e, g)
    | none =>
      let (answer, state) := Files.write (m := StateM σ) path bytes g.state
      (answer, { g with state })

namespace Guarded
variable {g : Guarded σ} {path : String} {bytes : ByteArray}

theorem write_of_refusal {e : FileError} (h : g.refusal? g.state path bytes = some e) :
    Files.write (m := StateM (Guarded σ)) path bytes g = (.error e, g) := by
  simp only [Files.write, h]

theorem write_of_none (h : g.refusal? g.state path bytes = none) :
    Files.write (m := StateM (Guarded σ)) path bytes g =
      ((Files.write (m := StateM σ) path bytes g.state).1,
        { g with state := (Files.write (m := StateM σ) path bytes g.state).2 }) := by
  simp only [Files.write, h]
  rfl

end Guarded

/-- A file system in which some writes are refused is a file system. -/
def FileSystem.guarded (system : FileSystem σ) : FileSystem (Guarded σ) where
  Place := system.Place
  files g := system.files g.state
  files_read g path := system.files_read g.state path
  file?_of_read g path bytes h := system.file?_of_read g.state path bytes h
  files_of_refused g path bytes e h := by
    cases hrefusal : g.refusal? g.state path bytes with
    | some e' => rw [Guarded.write_of_refusal hrefusal]
    | none =>
      rw [Guarded.write_of_none hrefusal] at h ⊢
      exact system.files_of_refused g.state path bytes e h
  puts_of_written g path bytes h := by
    cases hrefusal : g.refusal? g.state path bytes with
    | some e' =>
      rw [Guarded.write_of_refusal hrefusal] at h
      cases h
    | none =>
      rw [Guarded.write_of_none hrefusal] at h ⊢
      exact system.puts_of_written g.state path bytes h

end Gateware
