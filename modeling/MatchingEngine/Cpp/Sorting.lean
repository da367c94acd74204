import Mathlib.Data.List.GetD
import MatchingEngine.Cpp.Acts

/-!
# `std::sort`

`std::sort` may put elements with the same key in any order. When no two keys are the same there is
only one sorted order, whichever sort it is.

The model takes the sort as a parameter, `StdSort`, of which it is known only that the result is
sorted and has the same elements. The engine sorts triggered stops by their timestamps, which are
distinct, so the order in which they are processed does not depend on the sort that is used
(`StdSort.sort_eq`).
-/

namespace MatchingEngine.Cpp

section Ranges

variable {α : Type} {key : α → ℕ} {v w : List α}

/-- The keys of the elements at some positions are the keys at these positions. -/
theorem map_filterMap_getElem? (key : α → ℕ) (v : List α) : ∀ is : List ℕ,
    (∀ i ∈ is, i < v.length) →
    (is.filterMap fun i => v[i]?).map key = is.map fun i => (v.map key).getD i 0 := by
  intro is
  induction is with
  | nil => exact fun _ => rfl
  | cons i is ih =>
    intro h
    obtain ⟨hi, his⟩ := List.forall_mem_cons.mp h
    rw [List.filterMap_cons_some (List.getElem?_eq_getElem hi), List.map_cons, List.map_cons,
      ih his, List.getD_eq_getElem _ _ (by rwa [List.length_map]), List.getElem_map]

/-- The keys of a sorted range go up. -/
theorem StdSort.sort_sorted (S : StdSort) (key : α → ℕ) (v : List α) :
    (S.sort key v).Pairwise fun a b => key a ≤ key b := by
  have hplaces : ∀ i ∈ S.places (v.map key), i < v.length := fun i hi => by
    have hmem := (S.perm (v.map key)).mem_iff.mp hi
    rw [List.length_map] at hmem
    exact List.mem_range.mp hmem
  have hsorted := S.sorted (v.map key)
  rw [← map_filterMap_getElem? key v _ hplaces] at hsorted
  exact List.pairwise_map.mp hsorted

/-- A range that is in order, with no key twice, is what the sort of its elements gives. -/
theorem StdSort.sort_eq (S : StdSort) (hp : w.Perm v) (hw : w.Pairwise fun a b => key a < key b) :
    S.sort key v = w := by
  have hperm : (S.sort key v).Perm w := (Flat.perm_sort S key v).trans hp.symm
  have hnodup : (w.map key).Nodup := (List.pairwise_map.mpr (hw.imp Nat.ne_of_lt))
  refine List.Perm.eq_of_pairwise (fun a b ha hb hab hba => ?_) (S.sort_sorted key v)
    (hw.imp Nat.le_of_lt) hperm
  exact List.inj_on_of_nodup_map hnodup (hperm.mem_iff.mp ha) hb (Nat.le_antisymm hab hba)

end Ranges

end MatchingEngine.Cpp
