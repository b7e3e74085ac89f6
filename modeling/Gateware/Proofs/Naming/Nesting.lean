import Gateware.Scope

/- A scope is a stack of environments, whatever is asked of it.

   This file

   1. says everything that a request can do to a scope (`serve_cases`): a declaration goes to the
      innermost frame, if the name is free there, and requests move the frames around the innermost
      one only by whole frames (`enclosing_serve`);
   2. proves by induction on requests that no frame has a name twice (`Distinct.run`), so that the
      binding of a name in a frame is the only one (`Frame.find?_eq_some_iff`);
   3. proves by induction on requests that the depth is the number of enters that no exit has undone
      (`depth_run`), and that the frames which a run never leaves are in place when it ends
      (`suffix_enclosing_run`);
   4. concludes that a scope is a stack of environments after any requests
      (`scope_is_stack_of_environments`). -/
namespace Gateware

def Frame.names (frame : Frame) : List String := frame.map (·.signal.name.name)

theorem Frame.find?_eq_none_iff {frame : Frame} {name : String} : frame.find? name = none ↔ name ∉ frame.names := by
  simp only [Frame.find?, Frame.names, List.find?_eq_none, List.mem_map, beq_iff_eq, not_exists, not_and]

/-- Where no name is bound twice, the binding that is found is the only one of the name. -/
theorem Frame.find?_eq_some_iff {frame : Frame} (h : frame.names.Nodup) {name : String} {b : Binding} :
    frame.find? name = some b ↔ b ∈ frame ∧ b.signal.name.name = name := by
  induction frame with
  | nil => simp [Frame.find?]
  | cons first frame ih =>
    obtain ⟨hfirst, hrest⟩ := List.nodup_cons.mp h
    rw [Frame.find?, List.find?_cons]
    by_cases hname : first.signal.name.name = name
    · simp only [hname, beq_self_eq_true, Option.some.injEq, List.mem_cons]
      constructor
      · intro hb
        exact ⟨.inl hb.symm, hb ▸ hname⟩
      · intro ⟨hmem, hb⟩
        rcases hmem with rfl | hmem
        · rfl
        · exact absurd (List.mem_map.mpr ⟨b, hmem, hb.trans hname.symm⟩) hfirst
    · simp only [beq_eq_false_iff_ne.mpr hname, List.mem_cons]
      refine (ih hrest).trans ⟨fun hb => ⟨.inr hb.1, hb.2⟩, fun ⟨hmem, hb⟩ => ?_⟩
      rcases hmem with rfl | hmem
      · exact absurd hb hname
      · exact ⟨hmem, hb⟩

namespace Scope

/-- The binding that a request asks for. -/
def Request.declares : Request → Option Binding
  | .declare signal => some ⟨signal, signal.name.name⟩
  | .declareAs signal emitted => some ⟨signal, emitted⟩
  | .enter | .exit | .lookup _ | .resolve _ => none

/-- The scope with one more binding in its innermost frame. -/
def add (s : Scope) (b : Binding) : Scope := { s with innermost := b :: s.innermost }

def run (s : Scope) (rs : List Request) : Scope := rs.foldl (fun s r => (s.serve r).2) s

/-- How many of the enters among requests no later exit undoes, and how many of the exits
undo none of these enters. An exit undoes the last enter before it that is not undone yet. -/
def unmatched : List Request → Nat × Nat
  | [] => (0, 0)
  | .enter :: rs =>
    match unmatched rs with
    | (enters, 0) => (enters + 1, 0)
    | (enters, exits + 1) => (enters, exits)
  | .exit :: rs => ((unmatched rs).1, (unmatched rs).2 + 1)
  | _ :: rs => unmatched rs

/-- The binding of a name in the innermost of the frames that bind it. -/
def Binds (s : Scope) (name : String) (b : Binding) : Prop :=
  ∃ inner frame outer, s.frames = inner ++ frame :: outer ∧ (b ∈ frame ∧ b.signal.name.name = name) ∧
    ∀ f ∈ inner, name ∉ f.names

/-- No frame binds a name twice. -/
def Distinct (s : Scope) : Prop := ∀ frame ∈ s.frames, frame.names.Nodup

/-! ## One request -/

/-- A declaration is refused if the innermost frame binds the name, and is added to that frame
otherwise. -/
theorem serve_of_declares {r : Request} {b : Binding} (h : r.declares = some b) (s : Scope) :
    s.serve r = match s.innermost.find? b.signal.name.name with
      | some first => (.declared (some (.duplicate b.signal.name first.signal.name.pos)), s)
      | none => (.declared none, s.add b) := by
  cases r with
  | declare signal =>
    obtain rfl := Option.some.inj h
    simp only [serve, declare, declareAs]
    cases s.innermost.find? signal.name.name <;> rfl
  | declareAs signal emitted =>
    obtain rfl := Option.some.inj h
    simp only [serve, declareAs]
    cases s.innermost.find? signal.name.name <;> rfl
  | enter | exit | lookup | resolve => cases h

/-- Everything that a request can do to a scope. -/
theorem serve_cases (s : Scope) (r : Request) :
    (r = .enter ∧ (s.serve r).2 = s.enter) ∨ (r = .exit ∧ (s.serve r).2 = s.exit) ∨
      (r ≠ .enter ∧ r ≠ .exit ∧ ((s.serve r).2 = s ∨
        ∃ b, b.signal.name.name ∉ s.innermost.names ∧ (s.serve r).2 = s.add b)) := by
  cases hb : r.declares with
  | none =>
    cases r with
    | enter => exact .inl ⟨rfl, rfl⟩
    | exit => exact .inr (.inl ⟨rfl, rfl⟩)
    | lookup | resolve => exact .inr (.inr ⟨by simp, by simp, .inl rfl⟩)
    | declare | declareAs => cases hb
  | some b =>
    refine .inr (.inr ⟨fun hr => ?_, fun hr => ?_, ?_⟩)
    · rw [hr] at hb; cases hb
    · rw [hr] at hb; cases hb
    · rw [serve_of_declares hb]
      cases hfind : s.innermost.find? b.signal.name.name with
      | some first => exact .inl rfl
      | none => exact .inr ⟨b, Frame.find?_eq_none_iff.mp hfind, rfl⟩

/-- The frames around the innermost one after a request. -/
theorem enclosing_serve (s : Scope) (r : Request) :
    (s.serve r).2.enclosing = match r with
      | .enter => s.frames
      | .exit => s.enclosing.tail
      | _ => s.enclosing := by
  rcases serve_cases s r with ⟨rfl, h⟩ | ⟨rfl, h⟩ | ⟨henter, hexit, h⟩
  · rw [h]; rfl
  · rw [h, exit]
    cases henclosing : s.enclosing with
    | nil => exact henclosing
    | cons frame frames => rfl
  · have hsame : (s.serve r).2.enclosing = s.enclosing := by
      rcases h with h | ⟨b, -, h⟩
      · rw [h]
      · rw [h]
        rfl
    rw [hsame]
    cases r with
    | enter => exact absurd rfl henter
    | exit => exact absurd rfl hexit
    | _ => rfl

theorem depth_serve (s : Scope) (r : Request) :
    (s.serve r).2.depth = match r with
      | .enter => s.depth + 1
      | .exit => s.depth - 1
      | _ => s.depth := by
  rw [depth, enclosing_serve]
  cases r <;> simp [depth, frames]

theorem Distinct.serve {s : Scope} (h : s.Distinct) (r : Request) : (s.serve r).2.Distinct := by
  rcases serve_cases s r with ⟨-, hs⟩ | ⟨-, hs⟩ | ⟨-, -, hs | ⟨b, hfree, hs⟩⟩
  · rw [hs]
    exact List.forall_mem_cons.mpr ⟨List.nodup_nil, h⟩
  · rw [hs, exit]
    cases henclosing : s.enclosing with
    | nil => exact h
    | cons frame frames =>
      intro f hf
      exact h f (List.mem_cons_of_mem _ (henclosing ▸ hf))
  · rw [hs]
    exact h
  · rw [hs]
    obtain ⟨hinnermost, henclosing⟩ := List.forall_mem_cons.mp h
    exact List.forall_mem_cons.mpr ⟨List.nodup_cons.mpr ⟨hfree, hinnermost⟩, henclosing⟩

theorem lookup_add (s : Scope) (b : Binding) (name : String) :
    (s.add b).lookup name = if name = b.signal.name.name then some b else s.lookup name := by
  by_cases hname : name = b.signal.name.name
  · simp [add, lookup, frames, Frame.find?, hname]
  · have hne : (b.signal.name.name == name) = false := by simpa using Ne.symm hname
    simp [add, lookup, frames, Frame.find?, List.findSome?_cons, hname, hne]

/-- The binding that a name is looked up to is the one of the innermost frame that has one. -/
theorem lookup_eq_some_iff {s : Scope} (h : s.Distinct) {name : String} {b : Binding} :
    s.lookup name = some b ↔ s.Binds name b := by
  rw [lookup, List.findSome?_eq_some_iff]
  constructor
  · intro ⟨inner, frame, outer, hframes, hfind, hinner⟩
    have hframe := h frame (by simp [hframes])
    exact ⟨inner, frame, outer, hframes, (Frame.find?_eq_some_iff hframe).mp hfind,
      fun f hf => Frame.find?_eq_none_iff.mp (hinner f hf)⟩
  · intro ⟨inner, frame, outer, hframes, hb, hinner⟩
    have hframe := h frame (by simp [hframes])
    exact ⟨inner, frame, outer, hframes, (Frame.find?_eq_some_iff hframe).mpr hb,
      fun f hf => Frame.find?_eq_none_iff.mpr (hinner f hf)⟩

/-! ## Runs of requests -/

theorem Distinct.run {s : Scope} (h : s.Distinct) (rs : List Request) : (s.run rs).Distinct := by
  induction rs generalizing s with
  | nil => exact h
  | cons r rs ih => exact ih (h.serve r)

/-- Exits without an enter go through the frames that were there before, down to the outermost
one; enters without an exit come on top of what is left. -/
theorem depth_run (s : Scope) (rs : List Request) :
    (s.run rs).depth = s.depth - (unmatched rs).2 + (unmatched rs).1 := by
  induction rs generalizing s with
  | nil => rfl
  | cons r rs ih =>
    show ((s.serve r).2.run rs).depth = _
    rw [ih, depth_serve]
    rcases hrs : unmatched rs with ⟨enters, exits⟩
    cases r with
    | enter =>
      -- the enter is undone by the first exit that is left over behind it
      cases exits with
      | zero => simp only [unmatched, hrs]; omega
      | succ exits => simp only [unmatched, hrs]; omega
    | exit => simp only [unmatched, hrs]; omega
    | declare | declareAs | lookup | resolve => simp only [unmatched, hrs]

/-- Frames that a run never leaves are there when it ends. -/
theorem suffix_enclosing_run {base : List Frame} {s : Scope} (hs : base <:+ s.enclosing) (rs : List Request)
    (hrs : ∀ p, p <+: rs → base.length ≤ (s.run p).depth) : base <:+ (s.run rs).enclosing := by
  induction rs generalizing s with
  | nil => exact hs
  | cons r rs ih =>
    have hlength : base.length ≤ (s.serve r).2.enclosing.length := hrs [r] ⟨rs, rfl⟩
    have hstep : base <:+ (s.serve r).2.enclosing := by
      rw [enclosing_serve] at hlength ⊢
      cases r with
      | enter => exact hs.trans (List.suffix_cons _ _)
      | exit => exact List.suffix_of_suffix_length_le hs (List.tail_suffix _) hlength
      | declare | declareAs | lookup | resolve => exact hs
    apply ih hstep
    intro p hp
    exact hrs (r :: p) (List.cons_prefix_cons.mpr ⟨rfl, hp⟩)

/-- A frame that is entered and left again leaves no trace of what was done in between. -/
theorem exit_run_enter {s : Scope} {rs : List Request} (hrs : ∀ p, p <+: rs → s.depth < (s.enter.run p).depth)
    (hend : (s.enter.run rs).depth = s.depth + 1) : (s.enter.run rs).exit = s := by
  have hsuffix := suffix_enclosing_run (List.suffix_refl s.frames) rs (s := s.enter) hrs
  have hframes : s.frames = (s.enter.run rs).enclosing := hsuffix.eq_of_length hend.symm
  rw [exit, ← hframes]
  rfl

end Scope

/-- A scope is a stack of environments. After any requests: there is a frame, and no frame binds
a name twice; the depth counts the enters that no exit has undone, and an exit at depth zero
changes nothing; a name is looked up to its binding in the innermost frame that has one, and
resolved to the signal of it; a declaration is refused exactly if the innermost frame binds the
name, at the place of that binding and without any change, and else is what the name is looked
up to from then on; and whatever is asked between an enter and the exit that undoes it, the
scope is the same before the one and after the other. -/
theorem scope_is_stack_of_environments (rs : List Scope.Request) :
    let s := Scope.root.run rs
    (s.frames ≠ [] ∧ ∀ frame ∈ s.frames, frame.names.Nodup) ∧
    (s.depth = (Scope.unmatched rs).1 ∧ (s.depth = 0 → s.serve .exit = (.done, s))) ∧
    (∀ name, (∀ b, s.lookup name = some b ↔ s.Binds name b) ∧
      ∀ signal, s.resolve name = some signal ↔ ∃ b, s.Binds name b ∧ b.signal = signal) ∧
    (∀ r b, r.declares = some b →
      (∀ first ∈ s.innermost, first.signal.name.name = b.signal.name.name →
        s.serve r = (.declared (some (.duplicate b.signal.name first.signal.name.pos)), s)) ∧
      (b.signal.name.name ∉ s.innermost.names → ∃ s', s.serve r = (.declared none, s') ∧
        s'.depth = s.depth ∧
        ∀ name, s'.lookup name = if name = b.signal.name.name then some b else s.lookup name)) ∧
    (∀ visit, (∀ p, p <+: visit → s.depth < (s.run (.enter :: p)).depth) →
      (s.run (.enter :: visit)).depth = s.depth + 1 →
      s.run (.enter :: (visit ++ [.exit])) = s) := by
  intro s
  have hroot : Scope.root.Distinct := by simp [Scope.Distinct, Scope.root, Scope.frames, Frame.names]
  have hs : s.Distinct := hroot.run rs
  refine ⟨⟨List.cons_ne_nil _ _, hs⟩, ⟨?_, ?_⟩, fun name => ⟨fun b => ?_, fun signal => ?_⟩,
    fun r b hr => ⟨?_, ?_⟩, ?_⟩
  · rw [Scope.depth_run]
    simp [Scope.root, Scope.depth]
  · intro hzero
    have henclosing : s.enclosing = [] := List.length_eq_zero_iff.mp hzero
    simp only [Scope.serve, Scope.exit, henclosing]
  · exact Scope.lookup_eq_some_iff hs
  · simp only [Scope.resolve, Option.map_eq_some_iff, Scope.lookup_eq_some_iff hs]
  · intro first hfirst hname
    have hfind := (Frame.find?_eq_some_iff (hs s.innermost List.mem_cons_self)).mpr ⟨hfirst, hname⟩
    rw [Scope.serve_of_declares hr, hfind]
  · intro hfree
    refine ⟨s.add b, ?_, rfl, s.lookup_add b⟩
    rw [Scope.serve_of_declares hr, Frame.find?_eq_none_iff.mpr hfree]
  · intro visit hvisit hend
    show (s.enter.run (visit ++ [.exit])) = s
    rw [Scope.run, List.foldl_append]
    exact Scope.exit_run_enter hvisit hend

/-- A wire that is declared in the given line. -/
def Signal.wireIn (line : Nat) : Signal := ⟨⟨"x", ⟨line, 1⟩⟩, 1, .wire, none⟩

/-- A name that cannot be declared again beside its first declaration, but can in a frame of its
own, and means the same as before when that frame is left. -/
theorem scope_hides_and_restores :
    let s := Scope.root.run [.exit, .declare (.wireIn 1)]
    s.serve (.declareAs (.wireIn 2) "x_1") = (.declared (some (.duplicate ⟨"x", ⟨2, 1⟩⟩ ⟨1, 1⟩)), s) ∧
    (s.run [.enter, .declareAs (.wireIn 2) "x_1"]).lookup "x" = some ⟨.wireIn 2, "x_1"⟩ ∧
    s.run [.enter, .declareAs (.wireIn 2) "x_1", .lookup "x", .exit] = s := by
  intro s
  obtain ⟨-, -, -, hdeclare, hvisit⟩ := scope_is_stack_of_environments [.exit, .declare (.wireIn 1)]
  refine ⟨?_, by decide, ?_⟩
  · exact (hdeclare _ ⟨.wireIn 2, "x_1"⟩ rfl).1 ⟨.wireIn 1, "x"⟩ (by decide) rfl
  · refine hvisit [.declareAs (.wireIn 2) "x_1", .lookup "x"] ?_ (by decide)
    intro p hp
    simp only [List.prefix_cons_iff, List.prefix_nil] at hp
    rcases hp with rfl | ⟨_, rfl, rfl | ⟨_, rfl, rfl⟩⟩ <;> decide

end Gateware
