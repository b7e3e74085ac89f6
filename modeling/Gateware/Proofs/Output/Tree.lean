import Gateware.Files.Tree
import Gateware.Report

/- What a written file changes in a tree of files and directories.

   A path names a place by the directories on the way to it. This file

   1. says which place a path leads to and what file stands there (`place?`, `content?`);
   2. proves that only the directories of a tree decide where paths lead: in two trees with
      the same directories each path leads to the same place (`SameDirectories.place?_eq`);
   3. says when a file can be read and written, as one equivalence each
      (`read_eq_ok_iff`, `write_eq_ok_iff`): a file is read or written at the place of its
      path, and a directory that stands there is never replaced;
   4. concludes that a written file is the only change: paths lead where they led, and all
      other places hold what they held (`place?_of_write`, `content?_of_write`).

   Nothing is assumed of the tree. An entry below a file or below nothing may stand in
   `entries`, but no path leads to it. -/
namespace Gateware.FileTree

/-- The place of the file that a path names: a name in a directory, and no slash after it. -/
def place? (t : FileTree) (path : String) : Option Location :=
  match t.follow path with
  | .ok (.entry parent name false) =>
    if name.utf8ByteSize ≤ maxNameSize then some (parent ++ [name]) else none
  | _ => none

def content? (t : FileTree) (l : Location) : Option ByteArray :=
  match t.node? l with
  | some (.file content) => some content
  | _ => none

/-- Trees with the same directories, and the same one where paths begin. -/
structure SameDirectories (t t' : FileTree) : Prop where
  workingDirectory_eq : t'.workingDirectory = t.workingDirectory
  directory_iff : ∀ l, t'.node? l = some .directory ↔ t.node? l = some .directory

variable {t t' : FileTree} {path : String} {l : Location}

theorem place?_eq_some_iff : t.place? path = some l ↔
    ∃ parent name, t.follow path = .ok (.entry parent name false) ∧ name.utf8ByteSize ≤ maxNameSize ∧
      l = parent ++ [name] := by
  constructor
  · intro h
    unfold place? at h
    split at h
    next parent name hfollow =>
      split at h
      next hsize =>
        cases h
        exact ⟨parent, name, hfollow, hsize, rfl⟩
      next => cases h
    next => cases h
  · rintro ⟨parent, name, hfollow, hsize, rfl⟩
    simp only [place?, hfollow, if_pos hsize]

theorem content?_eq_some_iff {content : ByteArray} :
    t.content? l = some content ↔ t.node? l = some (.file content) := by
  unfold content?
  rcases t.node? l with _ | _ | _ <;> simp

/-! ## Entries -/

theorem lookup_filter_ne {β : Type} {l l' : Location} (h : l' ≠ l) (entries : List (Location × β)) :
    (entries.filter (·.1 ≠ l)).lookup l' = entries.lookup l' := by
  induction entries with
  | nil => rfl
  | cons entry entries ih =>
    obtain ⟨k, node⟩ := entry
    by_cases hk : k = l
    · have hne : (l' == k) = false := by simp [hk, h]
      rw [List.filter_cons_of_neg (by simp [hk]), ih, List.lookup_cons, hne]
    · rw [List.filter_cons_of_pos (by simp [hk]), List.lookup_cons, List.lookup_cons, ih]

/-- Only one location changes. -/
theorem node?_set (hl : l ≠ []) (n : Node) (l' : Location) :
    (t.set l n).node? l' = if l' = l then some n else t.node? l' := by
  cases l' with
  | nil => rw [if_neg hl.symm]; rfl
  | cons name names =>
    show ((l, n) :: t.entries.filter (·.1 ≠ l)).lookup (name :: names) = _
    rw [List.lookup_cons]
    by_cases heq : name :: names = l
    · rw [heq, if_pos rfl]
      simp
    · have hne : (name :: names == l) = false := by simpa using heq
      rw [hne, if_neg heq]
      exact lookup_filter_ne heq t.entries

/-- A name that is not too long leads to what stands under it. -/
theorem entry?_eq_ok_iff {parent : Location} {name : String} {found : Option Node} :
    t.entry? parent name = .ok found ↔ name.utf8ByteSize ≤ maxNameSize ∧ found = t.node? (parent ++ [name]) := by
  unfold entry?
  by_cases hsize : maxNameSize < name.utf8ByteSize
  · simp [hsize, Nat.not_le.mpr hsize]
  · simp [hsize, Nat.not_lt.mp hsize, eq_comm]

/-! ## Following paths -/

/-- A step through a name that is not dots goes into a directory. -/
theorem step_eq_ok_iff {name : String} {l' : Location} (hdot : name ≠ ".") (hdots : name ≠ "..") :
    t.step l name = .ok l' ↔
      name.utf8ByteSize ≤ maxNameSize ∧ t.node? (l ++ [name]) = some .directory ∧ l' = l ++ [name] := by
  rw [step, if_neg hdot, if_neg hdots]
  simp only [Except.bind_eq_ok_iff, entry?_eq_ok_iff, and_assoc, exists_and_left, exists_eq_left]
  refine and_congr_right fun _ => ?_
  rcases t.node? (l ++ [name]) with _ | _ | _ <;> simp [eq_comm]

namespace SameDirectories
variable (h : SameDirectories t t')
include h

theorem step_eq_ok_iff {name : String} {l' : Location} : t'.step l name = .ok l' ↔ t.step l name = .ok l' := by
  by_cases hdot : name = "."
  · simp only [step, hdot, if_true]
  · by_cases hdots : name = ".."
    · simp only [step, hdots, if_true, if_neg (by decide : ¬".." = ".")]
    · rw [FileTree.step_eq_ok_iff hdot hdots, FileTree.step_eq_ok_iff hdot hdots, h.directory_iff]

theorem foldlM_step_eq_ok_iff (names : List String) {l' : Location} :
    names.foldlM t'.step l = .ok l' ↔ names.foldlM t.step l = .ok l' := by
  induction names generalizing l with
  | nil => rfl
  | cons name names ih =>
    simp only [List.foldlM_cons, Except.bind_eq_ok_iff, h.step_eq_ok_iff, ih]

/-- A path that can be followed leads to the same place. -/
theorem follow_eq_ok_iff {target : Target} : t'.follow path = .ok target ↔ t.follow path = .ok target := by
  unfold follow
  rw [h.workingDirectory_eq]
  split
  · rfl
  split
  · rfl
  split
  · rfl
  -- Only the walk through the names in front of the last one looks at the tree.
  obtain ⟨names, slash⟩ := Path.components path
  dsimp only
  cases names.getLast? with
  | none => rfl
  | some name => simp only [Except.bind_eq_ok_iff, h.foldlM_step_eq_ok_iff]

theorem place?_eq (path : String) : t'.place? path = t.place? path := by
  refine Option.ext fun l => ?_
  simp only [place?_eq_some_iff, h.follow_eq_ok_iff]

end SameDirectories

theorem ne_nil_of_place? (h : t.place? path = some l) : l ≠ [] := by
  obtain ⟨parent, name, -, -, rfl⟩ := place?_eq_some_iff.mp h
  simp

theorem SameDirectories.of_set {content : ByteArray} (hl : l ≠ []) (hnode : t.node? l ≠ some .directory) :
    SameDirectories t (t.set l (.file content)) where
  workingDirectory_eq := rfl
  directory_iff l' := by
    rw [node?_set hl]
    by_cases heq : l' = l
    · simp [heq, hnode]
    · rw [if_neg heq]

/-! ## Reading and writing -/

/-- A file is read where its path leads. -/
theorem read_eq_ok_iff {content : ByteArray} :
    t.read path = .ok content ↔ ∃ l, t.place? path = some l ∧ t.node? l = some (.file content) := by
  simp only [read, Except.bind_eq_ok_iff, place?_eq_some_iff]
  constructor
  · rintro ⟨target, hfollow, h⟩
    cases target with
    | directory => cases h
    | entry parent name slash =>
      obtain ⟨found, hentry, h⟩ := Except.bind_eq_ok_iff.mp h
      obtain ⟨hsize, rfl⟩ := entry?_eq_ok_iff.mp hentry
      rcases hnode : t.node? (parent ++ [name]) with _ | found | _ <;> rw [hnode] at h
      · cases h
      · cases slash with
        | true => cases h
        | false =>
          cases h
          exact ⟨_, ⟨parent, name, hfollow, hsize, rfl⟩, hnode⟩
      · cases h
  · rintro ⟨_, ⟨parent, name, hfollow, hsize, rfl⟩, hnode⟩
    refine ⟨_, hfollow, Except.bind_eq_ok_iff.mpr ⟨_, entry?_eq_ok_iff.mpr ⟨hsize, rfl⟩, ?_⟩⟩
    rw [hnode]
    rfl

/-- A file is written where its path leads, unless a directory stands there. -/
theorem write_eq_ok_iff {content : ByteArray} : t.write path content = .ok t' ↔
    ∃ l, t.place? path = some l ∧ t.node? l ≠ some .directory ∧ t' = t.set l (.file content) := by
  simp only [write, Except.bind_eq_ok_iff, place?_eq_some_iff]
  constructor
  · rintro ⟨target, hfollow, h⟩
    cases target with
    | directory => cases h
    | entry parent name slash =>
      cases slash with
      | true => cases h
      | false =>
        obtain ⟨found, hentry, h⟩ := Except.bind_eq_ok_iff.mp h
        obtain ⟨hsize, rfl⟩ := entry?_eq_ok_iff.mp hentry
        refine ⟨_, ⟨parent, name, hfollow, hsize, rfl⟩, ?_⟩
        rcases hnode : t.node? (parent ++ [name]) with _ | _ | _ <;> rw [hnode] at h <;> cases h
        · exact ⟨nofun, rfl⟩
        · exact ⟨nofun, rfl⟩
  · rintro ⟨_, ⟨parent, name, hfollow, hsize, rfl⟩, hnode, rfl⟩
    refine ⟨_, hfollow, Except.bind_eq_ok_iff.mpr ⟨_, entry?_eq_ok_iff.mpr ⟨hsize, rfl⟩, ?_⟩⟩
    rcases hfound : t.node? (parent ++ [name]) with _ | _ | _
    · rfl
    · rfl
    · exact absurd hfound hnode

/-- Paths lead where they led. -/
theorem place?_of_write {content : ByteArray} (h : t.write path content = .ok t') : t'.place? = t.place? := by
  obtain ⟨l, hl, hnode, rfl⟩ := write_eq_ok_iff.mp h
  have hsame : SameDirectories t (t.set l (.file content)) := .of_set (ne_nil_of_place? hl) hnode
  exact funext hsame.place?_eq

/-- The file that is written stands where its path leads, and no other file has changed. -/
theorem content?_of_write {content : ByteArray} (h : t.write path content = .ok t') :
    ∃ l, t.place? path = some l ∧ t'.content? l = some content ∧ ∀ l' ≠ l, t'.content? l' = t.content? l' := by
  obtain ⟨l, hl, -, rfl⟩ := write_eq_ok_iff.mp h
  have hset := node?_set (t := t) (ne_nil_of_place? hl) (.file content)
  refine ⟨l, hl, ?_, fun l' hne => ?_⟩
  · rw [content?_eq_some_iff, hset, if_pos rfl]
  · simp only [content?, hset, if_neg hne]

end Gateware.FileTree
