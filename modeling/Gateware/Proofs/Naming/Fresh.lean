import Mathlib.Data.Finset.Card
import Mathlib.Order.Bounds.Defs
import Gateware.Proofs.Lowering.Names
import Gateware.Proofs.Lowering.Steps

/- The search for a fresh name ends, and with which name.

   The search has no bound of its own: a candidate that is used gives way to the one with the next
   number, and the counter has 32 bits. This file

   1. proves that the fresh form of a name that is used has the least number that is free
      (`freshName_of_mem`): the numbered forms are all different and none of them is the name
      itself, so there are no more rounds than names in use;
   2. defines the search as it is made, with its counter (`Search`, `Search.Ends`), and proves that
      with fewer names in use than the counter can count it ends with the name that lowering takes
      (`ends_freshName`);
   3. proves that names which are claimed in a row are all different (`yields_claimAll`);
   4. concludes what claiming a name does (`claim_takes_least_free`).

   That there are fewer names in use than the counter can count is a hypothesis of the part about
   the search, and of that part only. -/
namespace Gateware.Lowering

/-! ## The least free number -/

theorem numbered_ne (name : String) (n : Nat) : numbered name n ≠ name := by
  intro h
  have hlength := congrArg (fun s => s.toList.length) h
  simp [numbered, toString] at hlength

/-- A name that is used and some numbered forms of it that are used are all different. -/
theorem numbered_count_lt {used : List String} {name : String} {n k : Nat} (hname : name ∈ used)
    (h : ∀ i < k, numbered name (n + i) ∈ used) : k < used.toFinset.card := by
  let taken := name :: (List.range k).map fun i => numbered name (n + i)
  have hnodup : taken.Nodup := by
    refine List.nodup_cons.mpr ⟨?_, ?_⟩
    · intro hmem
      obtain ⟨i, -, hi⟩ := List.mem_map.mp hmem
      exact numbered_ne name (n + i) hi
    · refine List.nodup_range.map ?_
      intro i j hij
      have := numbered_inj hij
      omega
  have hsubset : taken.toFinset ⊆ used.toFinset := by
    intro x hx
    rw [List.mem_toFinset] at hx ⊢
    rcases List.mem_cons.mp hx with rfl | hx
    · exact hname
    · obtain ⟨i, hi, rfl⟩ := List.mem_map.mp hx
      exact h i (List.mem_range.mp hi)
  have hcard := Finset.card_le_card hsubset
  rw [List.toFinset_card_of_nodup hnodup, List.length_cons, List.length_map, List.length_range] at hcard
  exact hcard

/-- The fresh form of a name that is used has the least number that is free. -/
theorem freshName_of_mem {used : List String} {name : String} (h : name ∈ used) :
    ∃ n, IsLeast {n | 1 ≤ n ∧ numbered name n ∉ used} n ∧ freshName used name = numbered name n := by
  have hfree := freshName_notMem used name
  obtain ⟨k, -, heq, hbefore, -⟩ := firstFree_spec used name used.length 1
  have hfresh : freshName used name = numbered name (1 + k) := by rw [freshName, if_pos h, heq]
  rw [hfresh] at hfree
  refine ⟨1 + k, ⟨⟨Nat.le_add_right 1 k, hfree⟩, ?_⟩, hfresh⟩
  rintro n ⟨hn, hnot⟩
  by_contra hlt
  have hused := hbefore (n - 1) (by omega)
  rw [Nat.add_sub_cancel' hn] at hused
  exact hnot hused

/-! ## The search -/

/-- A search for a name: the candidate, and the counter for the one after it. -/
structure Search where
  candidate : String
  counter : Int32

namespace Search

/-- The search that tries the name itself. -/
def start (name : String) : Search := ⟨name, 1⟩

def next (name : String) (x : Search) : Search := ⟨s!"{name}_{x.counter}", x.counter + 1⟩

/-- A search ends: it goes on while its candidate is used, and its counter has room for
every round. -/
inductive Ends (used : List String) (name : String) : Search → Search → Prop
  | free {x : Search} (h : x.candidate ∉ used) : Ends used name x x
  | taken {x y : Search} (h : x.candidate ∈ used) (hroom : x.counter < Int32.maxValue)
      (hnext : Ends used name (x.next name) y) : Ends used name x y

variable {used : List String} {name : String}

theorem Ends.unique {x y z : Search} (h : Ends used name x y) (h' : Ends used name x z) : y = z := by
  induction h with
  | free hfree =>
    cases h' with
    | free => rfl
    | taken hused => exact absurd hused hfree
  | taken hused _ _ ih =>
    cases h' with
    | free hfree => exact absurd hused hfree
    | taken _ _ hnext => exact ih hnext

/-- As long as the counter does not overflow it counts, and is written as it counts. -/
theorem next_eq (candidate : String) {n : Nat} (h : n < 2147483648) :
    next name ⟨candidate, Int32.ofNat n⟩ = ⟨numbered name n, Int32.ofNat (n + 1)⟩ := by
  have htext : toString (Int32.ofNat n) = toString n := by
    show toString (Int32.ofNat n).toInt = toString n
    rw [Int32.toInt_ofNat_of_lt h]
    rfl
  rw [next, htext, Int32.ofNat_add]
  rfl

theorem room_of_lt {n : Nat} (h : n < 2147483647) : Int32.ofNat n < Int32.maxValue := by
  rw [Int32.lt_iff_toInt_lt, Int32.toInt_maxValue, Int32.toInt_ofNat_of_lt (by omega)]
  omega

theorem ends_numbered {n k : Nat} (hbefore : ∀ i < k, numbered name (n + i) ∈ used)
    (hfree : numbered name (n + k) ∉ used) (hroom : n + k < 2147483647) :
    Ends used name ⟨numbered name n, Int32.ofNat (n + 1)⟩ ⟨numbered name (n + k), Int32.ofNat (n + k + 1)⟩ := by
  induction k generalizing n with
  | zero => exact .free hfree
  | succ k ih =>
    refine .taken (hbefore 0 (Nat.succ_pos k)) (room_of_lt (by omega)) ?_
    rw [next_eq _ (by omega)]
    have hshift (i : Nat) : n + (i + 1) = n + 1 + i := by omega
    rw [hshift k] at hfree hroom ⊢
    refine ih ?_ hfree hroom
    intro i hi
    rw [← hshift]
    exact hbefore (i + 1) (Nat.succ_lt_succ hi)

/-- With fewer names in use than the counter can count, the search ends with the fresh form
of the name. The counter goes up to 2147483647. -/
theorem ends_freshName (h : used.toFinset.card < 2147483647) (name : String) :
    ∃ counter, Ends used name (start name) ⟨freshName used name, counter⟩ := by
  by_cases hname : name ∈ used
  · obtain ⟨n, ⟨⟨hn, hfree⟩, hleast⟩, hfresh⟩ := freshName_of_mem hname
    have hbefore : ∀ i < n - 1, numbered name (1 + i) ∈ used := by
      intro i hi
      by_contra hnot
      have := hleast ⟨Nat.le_add_right 1 i, hnot⟩
      omega
    have hcount := numbered_count_lt hname hbefore
    have hends := ends_numbered hbefore (by rwa [Nat.add_sub_cancel' hn]) (by omega)
    rw [hfresh]
    rw [Nat.add_sub_cancel' hn] at hends
    refine ⟨Int32.ofNat (n + 1), .taken hname (room_of_lt (n := 1) (by decide)) ?_⟩
    show Ends used name (next name ⟨name, Int32.ofNat 1⟩) _
    rw [next_eq name (by decide)]
    exact hends
  · rw [freshName, if_neg hname]
    exact ⟨1, .free hname⟩

end Search

/-! ## Names in a row -/

def claimAll : List String → Lowering (List String)
  | [] => return []
  | name :: names => return (← claim name) :: (← claimAll names)

/-- Names that are claimed in a row are different from each other and from those in use. -/
theorem yields_claimAll (names : List String) (s : State) : ∃ fresh,
    Yields (claimAll names) s fresh { s with used := fresh.reverse ++ s.used } ∧
      fresh.length = names.length ∧ fresh.Nodup ∧ ∀ name ∈ fresh, name ∉ s.used := by
  induction names generalizing s with
  | nil => exact ⟨[], yields_pure.mpr ⟨rfl, rfl⟩, rfl, List.nodup_nil, by simp⟩
  | cons name names ih =>
    let first := freshName s.used name
    obtain ⟨fresh, hyields, hlength, hnodup, hnot⟩ := ih { s with used := first :: s.used }
    refine ⟨first :: fresh, ?_, by rw [List.length_cons, hlength, List.length_cons], ?_, ?_⟩
    · rw [List.reverse_cons, List.append_assoc]
      exact yields_bind.mpr ⟨first, _, yields_claim.mpr ⟨rfl, rfl⟩,
        yields_bind.mpr ⟨fresh, _, hyields, yields_pure.mpr ⟨rfl, rfl⟩⟩⟩
    · exact List.nodup_cons.mpr ⟨fun hmem => hnot first hmem List.mem_cons_self, hnodup⟩
    · refine List.forall_mem_cons.mpr ⟨freshName_notMem s.used name, ?_⟩
      intro other hother hused
      exact hnot other hother (List.mem_cons_of_mem first hused)

/-- Claiming a name ends, with the name itself if it is free and else with the least numbered form
that is, and adds that to the names in use and nothing else. Names that are claimed in a row,
whatever is in use before, are all different and all new. -/
theorem claim_takes_least_free (s : State) (name : String) (h : s.used.toFinset.card < 2147483647) :
    (∃ fresh, Yields (claim name) s fresh { s with used := fresh :: s.used } ∧
      (∃ counter, ∀ x, Search.Ends s.used name (Search.start name) x ↔ x = ⟨fresh, counter⟩) ∧
      fresh ∉ s.used ∧ (name ∉ s.used → fresh = name) ∧
      (name ∈ s.used → ∃ n, IsLeast {n | 1 ≤ n ∧ numbered name n ∉ s.used} n ∧ fresh = numbered name n)) ∧
    ∀ (names : List String) (t : State), ∃ fresh t', Yields (claimAll names) t fresh t' ∧
      fresh.length = names.length ∧ fresh.Nodup ∧ ∀ name ∈ fresh, name ∉ t.used := by
  constructor
  · obtain ⟨counter, hends⟩ := Search.ends_freshName h name
    refine ⟨freshName s.used name, yields_claim.mpr ⟨rfl, rfl⟩, ⟨counter, ?_⟩, freshName_notMem s.used name, ?_,
      freshName_of_mem⟩
    · intro x
      constructor
      · exact fun hx => hx.unique hends
      · rintro rfl
        exact hends
    · intro hname
      rw [freshName, if_neg hname]
  · intro names t
    obtain ⟨fresh, hyields, hnew⟩ := yields_claimAll names t
    exact ⟨fresh, _, hyields, hnew⟩

/-- Names in use that look like numbered ones are passed over. -/
theorem claim_among_numbered :
    let s : State := ⟨Scope.root, ["t_1", "t_1_1", "t", "t_2"], []⟩
    s.used.toFinset.card < 2147483647 ∧ Yields (claim "t") s "t_3" { s with used := "t_3" :: s.used } ∧
    (∃ n, IsLeast {n | 1 ≤ n ∧ numbered "t" n ∉ s.used} n ∧ "t_3" = numbered "t" n) ∧
    ∃ fresh t', Yields (claimAll ["t_1", "t", "t", "t_1"]) State.initial fresh t' ∧ fresh.Nodup := by
  intro s
  have hcard : s.used.toFinset.card < 2147483647 :=
    Nat.lt_of_le_of_lt (List.toFinset_card_le _) (by decide)
  obtain ⟨⟨fresh, hyields, -, -, -, hleast⟩, hrow⟩ := claim_takes_least_free s "t" hcard
  obtain rfl : fresh = "t_3" := (yields_claim.mp hyields).1.trans (by decide)
  obtain ⟨row, t', hrow, -, hnodup, -⟩ := hrow ["t_1", "t", "t", "t_1"] State.initial
  exact ⟨hcard, hyields, hleast (by decide), row, t', hrow, hnodup⟩

end Gateware.Lowering
