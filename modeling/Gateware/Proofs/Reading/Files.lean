import Gateware.Proofs.Grammar.Derivation
import Gateware.Proofs.Reading.Locality
import Gateware.Proofs.Token.Splicing

/- Reading files and parts of files.

   This file

   1. gives the reading of a queue without its budget (`TokenQueue.modules`), which takes one
      module after another (`modules_of_ok`, `modules_of_error`), so that the modules in front of a
      queue are read whatever follows them (`modules_put`);
   2. proves that an error in a file is accounted for by the tokens up to it, whatever follows them
      (`modules_eq_error`);
   3. proves that a module which is cut off after some of its tokens is read up to the cut
      (`Reader.module_of_proper_part`): the tokens up to the cut are no module, since no module is
      a proper part of another one, and no error stands in them, since the reader would meet it in
      the whole module too;
   4. concludes for a source text that is cut after one of its tokens: at the end of a module the
      modules up to there are read, and every other cut text ends too early (`parse_upToToken`). -/
namespace Gateware
open Grammar

theorem Reader.consumes_module : Consumes module := by
  intro q q' m h
  obtain ⟨x, -, rfl, -⟩ := module_eq_ok_iff.mp h
  exact lt_length_put (by simp [ModuleTree.tokens])

theorem Reading.ofQueue_cons (t t₁ : Token) (budget ts : List Token) (read : List Module) (stop : Position) :
    ofQueue (t :: budget) read ⟨t₁ :: ts, stop⟩ =
      match Reader.module ⟨t₁ :: ts, stop⟩ with
      | .error e => ⟨read.reverse, some e⟩
      | .ok (m, q) => ofQueue budget (m :: read) q := rfl

theorem Reading.rounds_ofQueue : Reader.Rounds ofQueue fun go read q =>
    match q with
    | ⟨[], _⟩ => ⟨read.reverse, none⟩
    | ⟨t :: ts, stop⟩ =>
      match Reader.module ⟨t :: ts, stop⟩ with
      | .error e => ⟨read.reverse, some e⟩
      | .ok (m, q) => go (m :: read) q where
  cons t budget read q := by
    obtain ⟨_ | ⟨t₁, ts⟩, stop⟩ := q <;> rfl
  nil go read stop := rfl
  congr {go go' read q} h := by
    obtain ⟨_ | ⟨t₁, ts⟩, stop⟩ := q
    · rfl
    · dsimp only
      cases hm : Reader.module ⟨t₁ :: ts, stop⟩ with
      | error e => rfl
      | ok y => exact h (y.1 :: read) y.2 (Reader.consumes_module hm)

/-- The modules read so far stay in front. -/
theorem Reading.ofQueue_read (budget : List Token) (read : List Module) (q : TokenQueue) :
    (ofQueue budget read q).result = (ofQueue budget [] q).result.map (read.reverse ++ ·) := by
  induction budget generalizing read q with
  | nil =>
    obtain ⟨ts, stop⟩ := q
    cases ts with
    | nil => simp [ofQueue, result, Except.map]
    | cons t ts => rfl
  | cons t budget ih =>
    obtain ⟨ts, stop⟩ := q
    cases ts with
    | nil => simp [ofQueue, result, Except.map]
    | cons t₁ ts =>
      rw [ofQueue_cons, ofQueue_cons]
      cases hm : Reader.module ⟨t₁ :: ts, stop⟩ with
      | error e => rfl
      | ok y =>
        show (ofQueue budget (y.1 :: read) y.2).result = (ofQueue budget [y.1] y.2).result.map _
        rw [ih (y.1 :: read), ih [y.1]]
        cases (ofQueue budget [] y.2).result <;> simp [Except.map]

/-! ## Queues of tokens as files -/

namespace TokenQueue
variable {q q' : TokenQueue}

/-- The modules in a queue, or the error that stops the reading. -/
def modules (q : TokenQueue) : Except SyntaxError (List Module) := (Reading.ofQueue q.pending [] q).result

theorem modules_of_ok {m : Module} (h : Reader.module q = .ok (m, q')) : q.modules = q'.modules.map (m :: ·) := by
  have hlt := Reader.consumes_module h
  obtain ⟨ts, stop⟩ := q
  cases ts with
  | nil => simp at hlt
  | cons t ts =>
    rw [modules, Reading.ofQueue_cons, h]
    show (Reading.ofQueue ts [m] q').result = _
    rw [Reading.ofQueue_read, Reading.rounds_ofQueue.budget_eq ts q'.pending [] q' (Nat.le_of_lt_succ hlt) (Nat.le_refl _)]
    rfl

theorem modules_of_error {e : SyntaxError} (hq : q.pending ≠ []) (h : Reader.module q = .error e) :
    q.modules = .error e := by
  obtain ⟨ts, stop⟩ := q
  cases ts with
  | nil => exact absurd rfl hq
  | cons t ts =>
    rw [modules, Reading.ofQueue_cons, h]
    rfl

/-- Complete modules in front of a queue are read as they are. -/
theorem modules_put (xs : List ModuleTree) (hxs : ∀ x ∈ xs, x.Grouped ∧ x.Bounded) (q : TokenQueue) :
    (q.put (xs.flatMap ModuleTree.tokens)).modules = q.modules.map (xs.map ModuleTree.value ++ ·) := by
  induction xs with
  | nil => cases h : q.modules <;> simp [put, h, Except.map]
  | cons x xs ih =>
    obtain ⟨hx, hxs⟩ := List.forall_mem_cons.mp hxs
    have hm : Reader.module (q.put ((x :: xs).flatMap ModuleTree.tokens)) =
        .ok (x.value, q.put (xs.flatMap ModuleTree.tokens)) :=
      Reader.module_eq_ok_iff.mpr ⟨x, hx, by simp, rfl⟩
    rw [modules_of_ok hm, ih hxs]
    cases q.modules <;> simp [Except.map]

/-- An error in a file is one in its first module or one behind it. -/
theorem modules_error_cases {e : SyntaxError} (h : q.modules = .error e) : q.pending ≠ [] ∧
    (Reader.module q = .error e ∨ ∃ m q₁, Reader.module q = .ok (m, q₁) ∧ q₁.modules = .error e) := by
  have hq : q.pending ≠ [] := by
    intro hnil
    obtain ⟨ts, stop⟩ := q
    obtain rfl : ts = [] := hnil
    cases h
  refine ⟨hq, ?_⟩
  cases hm : Reader.module q with
  | error e' =>
    rw [modules_of_error hq hm] at h
    obtain rfl := Except.error.inj h
    exact .inl rfl
  | ok result =>
    obtain ⟨m, q₁⟩ := result
    rw [modules_of_ok hm] at h
    refine .inr ⟨m, q₁, rfl, ?_⟩
    cases hmodules : q₁.modules with
    | error e' => rwa [hmodules] at h
    | ok ms =>
      rw [hmodules] at h
      cases h

/-- An error in a file is accounted for by the tokens up to it, whatever follows them. -/
theorem modules_eq_error {e : SyntaxError} (h : q.modules = .error e) :
    e = .endOfInput ⟨q.stop⟩ ∨ ∃ seen rest, q.pending = seen ++ rest ∧ e.StandsIn seen ∧
      ∀ rest' stop', modules ⟨seen ++ rest', stop'⟩ = .error e := by
  -- each module takes tokens, so the induction is on how many there are
  induction hlength : q.pending.length using Nat.strong_induction_on generalizing q with
  | _ n ih =>
    subst hlength
    obtain ⟨hq, hm | ⟨m, q₁, hm, hq₁⟩⟩ := modules_error_cases h
    · rcases (Reader.local_module q.pending).error hm with heof | ⟨seen, rest, hts, he, hstable⟩
      · exact .inl heof
      · refine .inr ⟨seen, rest, hts, he, ?_⟩
        intro rest' stop'
        exact modules_of_error (by simp [he.ne_nil]) (hstable rest' stop')
    · obtain ⟨hstop, taken, hts, hstable⟩ := (Reader.local_module q.pending).ok hm
      rcases ih _ (Reader.consumes_module hm) hq₁ rfl with heof | ⟨seen, rest, hts₁, he, hstable₁⟩
      · left
        rw [heof, hstop]
      · refine .inr ⟨taken ++ seen, rest, by rw [hts, hts₁, List.append_assoc], he.append_left taken, ?_⟩
        intro rest' stop'
        rw [hts₁] at hstable
        have hm' := hstable (seen ++ rest') stop' (take_one_append_of_ne_nil he.ne_nil rest rest')
        rw [← List.append_assoc] at hm'
        rw [modules_of_ok hm', hstable₁ rest' stop']
        rfl

end TokenQueue

theorem parse_eq_modules (source : String) : parse source = (TokenQueue.ofSource source).modules := rfl

/-! ## Parts of files -/

/-- A module that is cut off after some of its tokens is read up to the cut. -/
theorem Reader.module_of_proper_part {x : ModuleTree} (hx : x.Grouped ∧ x.Bounded) {u v : List Token}
    (htokens : x.tokens = u ++ v) (hv : v ≠ []) (stop : Position) :
    module ⟨u, stop⟩ = .error (.endOfInput ⟨stop⟩) := by
  have hwhole : module ⟨u ++ v, stop⟩ = .ok (x.value, ⟨[], stop⟩) :=
    module_eq_ok_iff.mpr ⟨x, hx, by simp [TokenQueue.put, htokens], rfl⟩
  cases hpart : module ⟨u, stop⟩ with
  | ok result =>
    -- another module would end before the cut
    obtain ⟨y, hy, hu, -⟩ := module_eq_ok_iff.mp hpart
    have hsame : x.tokens ++ [] = y.tokens ++ (result.2.pending ++ v) := by
      rw [List.append_nil, htokens, ← List.append_assoc]
      exact congrArg (· ++ v) (congrArg TokenQueue.pending hu)
    obtain ⟨-, hrest⟩ := ModuleTree.eq_of_tokens_append hx.1 hy.1 hsame
    exact absurd (List.append_eq_nil_iff.mp hrest.symm).2 hv
  | error e =>
    rcases (local_module u).error hpart with heof | ⟨seen, rest, rfl, -, hstable⟩
    · rw [heof]
    · rw [List.append_assoc, hstable] at hwhole
      cases hwhole

/-- Where a list is cut that is put together from others: between two of them, or inside one. -/
theorem exists_cut {α β : Type} {f : α → List β} {xs : List α} {u v : List β} (h : xs.flatMap f = u ++ v)
    (hv : v ≠ []) : ∃ before x after part rest, xs = before ++ x :: after ∧ u = before.flatMap f ++ part ∧
      f x = part ++ rest ∧ rest ≠ [] := by
  induction xs generalizing u with
  | nil => exact absurd (List.append_eq_nil_iff.mp h.symm).2 hv
  | cons x xs ih =>
    rw [List.flatMap_cons] at h
    rcases List.append_eq_append_iff.mp h with ⟨u', rfl, hu'⟩ | ⟨rest, hx, hrest⟩
    · obtain ⟨before, y, after, part, rest, rfl, rfl, hy, hne⟩ := ih hu'
      exact ⟨x :: before, y, after, part, rest, rfl, by simp, hy, hne⟩
    · by_cases hne : rest = []
      · subst hne
        rw [List.append_nil] at hx
        obtain ⟨before, y, after, part, rest, rfl, hpart, hy, hne⟩ := ih (u := []) hrest.symm
        obtain ⟨hbefore, rfl⟩ := List.append_eq_nil_iff.mp hpart.symm
        exact ⟨x :: before, y, after, [], rest, rfl, by simp [hbefore, hx], hy, hne⟩
      · exact ⟨[], x, xs, u, rest, rfl, rfl, hx, hne⟩

/-- Modules of which the last one is cut off inside are read up to the cut. -/
theorem TokenQueue.modules_of_proper_part {xs : List ModuleTree} (hxs : ∀ x ∈ xs, x.Grouped ∧ x.Bounded)
    {u v : List Token} (htokens : xs.flatMap ModuleTree.tokens = u ++ v) (hv : v ≠ [])
    (hinside : ∀ i ≤ xs.length, u ≠ (xs.take i).flatMap ModuleTree.tokens) (stop : Position) :
    modules ⟨u, stop⟩ = .error (.endOfInput ⟨stop⟩) := by
  obtain ⟨before, x, after, part, rest, rfl, rfl, hx, hrest⟩ := exists_cut htokens hv
  have hpart : part ≠ [] := by
    intro hnil
    subst hnil
    refine hinside before.length ?_ ?_
    · rw [List.length_append]
      omega
    · rw [List.take_left, List.append_nil]
  have hmodule := Reader.module_of_proper_part (hxs x (by simp)) hx hrest stop
  have hput := modules_put before (fun y hy => hxs y (by simp [hy])) ⟨part, stop⟩
  rw [modules_of_error hpart hmodule] at hput
  exact hput

/-- A source text that is cut after one of its tokens. If the cut is at the end of a module, the
modules up to there are read; every other cut text ends too early, just behind the token. -/
theorem parse_upToToken {source : String} {ms : List Module} (h : parse source = .ok ms) :
    let ts := (Lexer.ofSource source).tokens.1
    ∃ f : SourceTree, f.IsDerivationOf ts ∧ f.value = ms ∧ ∀ j < ts.length,
      (upToToken source j).toList <+: source.toList ∧
      (∀ t, (ts.take j).getLast? = some t → t.EndsText (upToToken source j).toList) ∧
      (∀ i ≤ ms.length, ts.take j = (f.modules.take i).flatMap ModuleTree.tokens →
        parse (upToToken source j) = .ok (ms.take i)) ∧
      ((∀ i ≤ ms.length, ts.take j ≠ (f.modules.take i).flatMap ModuleTree.tokens) →
        ∃ t, (ts.take j).getLast? = some t ∧
          parse (upToToken source j) = .error (.endOfInput ⟨t.stop⟩)) := by
  intro ts
  obtain ⟨f, hf, hbounded, rfl⟩ := parse_eq_ok_iff.mp h
  have hmodules : ∀ x ∈ f.modules, x.Grouped ∧ x.Bounded := fun x hx => ⟨hf.grouped x hx, hbounded x hx⟩
  have hlength : f.value.length = f.modules.length := List.length_map _
  refine ⟨f, hf, rfl, ?_⟩
  intro j hj
  obtain ⟨stop, htokens, hlast⟩ := exists_upToToken (Nat.le_of_lt hj)
  have hparse : parse (upToToken source j) = TokenQueue.modules ⟨ts.take j, stop⟩ := by
    rw [parse_eq_modules, TokenQueue.ofSource, htokens]
  refine ⟨?_, fun t ht => (hlast t ht).1, ?_, ?_⟩
  · rw [upToToken, String.toList_ofList]
    exact List.take_prefix _ _
  · intro i _ hfront
    have hput := TokenQueue.modules_put (f.modules.take i) (fun x hx => hmodules x (List.mem_of_mem_take hx)) ⟨[], stop⟩
    rw [TokenQueue.put, List.append_nil, ← hfront, ← hparse] at hput
    rw [hput, SourceTree.value, ← List.map_take]
    simp [TokenQueue.modules, Reading.ofQueue, Reading.result, Except.map]
  · intro hinside
    rw [hlength] at hinside
    have hsplit : f.modules.flatMap ModuleTree.tokens = ts.take j ++ ts.drop j := by
      rw [List.take_append_drop]
      exact hf.tokens_eq
    have hrest : ts.drop j ≠ [] := by
      rw [Ne, List.drop_eq_nil_iff]
      omega
    have hfront : ts.take j ≠ [] := hinside 0 (Nat.zero_le _)
    have ht := List.getLast?_eq_some_getLast hfront
    refine ⟨_, ht, ?_⟩
    rw [hparse, TokenQueue.modules_of_proper_part hmodules hsplit hrest hinside, (hlast _ ht).2]

/-- Two modules in one line. -/
def twoModules : SourceTree where
  modules := [
    { name := ⟨⟨"ab", ⟨1, 1⟩⟩, by decide⟩
      ports := ⟨⟨⟨"(", ⟨1, 3⟩⟩, by decide⟩, none, ⟨⟨")", ⟨1, 4⟩⟩, by decide⟩⟩
      opening := ⟨⟨"\x7b", ⟨1, 5⟩⟩, by decide⟩
      stmts := []
      closing := ⟨⟨"\x7d", ⟨1, 6⟩⟩, by decide⟩ },
    { name := ⟨⟨"top", ⟨1, 8⟩⟩, by decide⟩
      ports := ⟨⟨⟨"(", ⟨1, 11⟩⟩, by decide⟩, none, ⟨⟨")", ⟨1, 13⟩⟩, by decide⟩⟩
      opening := ⟨⟨"\x7b", ⟨1, 14⟩⟩, by decide⟩
      stmts := []
      closing := ⟨⟨"\x7d", ⟨1, 15⟩⟩, by decide⟩ }]

theorem twoModules_wellFormed : (∀ x ∈ twoModules.modules, x.Grouped) ∧ twoModules.Bounded := by
  simp [twoModules, ModuleTree.Grouped, SourceTree.Bounded, ModuleTree.Bounded, PortsTree.toList]

def twoModulesText : String := "ab()" ++ braced "" ++ " top( )" ++ braced ""

/-- Cut after the first of two modules, and in the middle of the second one. -/
theorem parse_twoModules_cut :
    parse (upToToken twoModulesText 5) = .ok (twoModules.value.take 1) ∧
    parse (upToToken twoModulesText 6) = .error (.endOfInput ⟨⟨1, 11⟩⟩) := by
  have htokens : (Lexer.ofSource twoModulesText).tokens.1 = twoModules.tokens := by decide +kernel
  obtain ⟨hgrouped, hbounded⟩ := twoModules_wellFormed
  have hf : twoModules.IsDerivationOf (Lexer.ofSource twoModulesText).tokens.1 :=
    ⟨hgrouped, htokens.symm⟩
  obtain ⟨g, hg, -, hcut⟩ := parse_upToToken (parse_eq_ok_iff.mpr ⟨_, hf, hbounded, rfl⟩)
  obtain rfl := hg.unique hf
  rw [htokens] at hcut
  obtain ⟨-, -, hwhole, -⟩ := hcut 5 (by decide)
  obtain ⟨-, -, -, hpart⟩ := hcut 6 (by decide)
  refine ⟨hwhole 1 (by decide) (by decide), ?_⟩
  obtain ⟨t, ht, herror⟩ := hpart (by decide)
  obtain rfl : _ = t := Option.some.inj ht
  exact herror

end Gateware
