import Mathlib.Data.List.Perm.Basic
import Gateware.Lowering.Names

/- Fresh names are not used.

   The search for a name tries at most one candidate more than there are used names. This file
   proves that it never runs out:

   1. the numbered forms of a name are all different (`numbered_inj`);
   2. the search ends at a free name, or every name that was tried is used (`firstFree_spec`);
   3. different names that are all used are no more than the used ones (`numbered_count_le`), so
      the name that is found is not used (`freshName_notMem`). -/
namespace Gateware.Lowering

theorem numbered_inj {name : String} {n n' : Nat} (h : numbered name n = numbered name n') : n = n' := by
  have hdigits : Nat.toDigits 10 n = Nat.toDigits 10 n' := by
    have hlist := congrArg String.toList h
    simpa [numbered, toString, Nat.toList_repr] using hlist
  calc n = Nat.ofDigitChars 10 (Nat.toDigits 10 n) 0 := Nat.ofDigitChars_ten_toDigits.symm
    _ = Nat.ofDigitChars 10 (Nat.toDigits 10 n') 0 := by rw [hdigits]
    _ = n' := Nat.ofDigitChars_ten_toDigits

/-- The first free name is free, or every name that was tried is used. -/
theorem firstFree_spec (used : List String) (name : String) (limit n : Nat) :
    ∃ k ≤ limit, firstFree used name limit n = numbered name (n + k) ∧
      (∀ i < k, numbered name (n + i) ∈ used) ∧ (k < limit → numbered name (n + k) ∉ used) := by
  induction limit generalizing n with
  | zero => exact ⟨0, Nat.le_refl 0, rfl, by simp, by simp⟩
  | succ limit ih =>
    unfold firstFree
    split
    · rename_i hused
      obtain ⟨k, hk, heq, hbefore, hfree⟩ := ih (n + 1)
      refine ⟨k + 1, Nat.succ_le_succ hk, by rw [heq, Nat.add_assoc, Nat.add_comm 1 k], ?_, ?_⟩
      · intro i hi
        cases i with
        | zero => exact hused
        | succ i =>
          have := hbefore i (by omega)
          rwa [Nat.add_assoc, Nat.add_comm 1 i] at this
      · intro hlt
        have := hfree (by omega)
        rwa [Nat.add_assoc, Nat.add_comm 1 k] at this
    · rename_i hfree
      exact ⟨0, Nat.zero_le _, rfl, by simp, fun _ => hfree⟩

/-- Different names that are all used are no more than the used ones. -/
theorem numbered_count_le {used : List String} {name : String} {n k : Nat}
    (h : ∀ i < k, numbered name (n + i) ∈ used) : k ≤ used.length := by
  have hnodup : ((List.range k).map fun i => numbered name (n + i)).Nodup := by
    rw [List.Nodup, List.pairwise_map]
    apply List.nodup_range.imp
    intro i j hne hij
    have := numbered_inj hij
    omega
  have hsubset : ((List.range k).map fun i => numbered name (n + i)) ⊆ used := by
    intro x hx
    obtain ⟨i, hi, rfl⟩ := List.mem_map.mp hx
    exact h i (List.mem_range.mp hi)
  have hlength := (List.subperm_of_subset hnodup hsubset).length_le
  simpa using hlength

theorem freshName_notMem (used : List String) (name : String) : freshName used name ∉ used := by
  unfold freshName
  split
  · obtain ⟨k, hk, heq, hbefore, hfree⟩ := firstFree_spec used name used.length 1
    rw [heq]
    intro hused
    -- one more numbered name would be used than there are used names
    have hall : ∀ i < k + 1, numbered name (1 + i) ∈ used := by
      intro i hi
      rcases Nat.lt_succ_iff_lt_or_eq.mp hi with hlt | rfl
      · exact hbefore i hlt
      · exact hused
    have hcount := numbered_count_le hall
    exact hfree (by omega) hused
  · assumption

end Gateware.Lowering
