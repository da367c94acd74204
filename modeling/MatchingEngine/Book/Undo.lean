import MatchingEngine.Book.Step

/-!
# Cancellations undo and commute

An order that has been rested and is cancelled leaves the book as it was, also where it had a level
of its own. Two cancellations may be made in either order.

Inserting a row and removing its id again is the identity on a side (`removeId_insertRow`), and two
removals of ids commute (`removeId_comm`), whatever levels they empty on the way. `afterCancel` is
the book after a cancellation that may find nothing, and `afterCancel_comm` the statement for two of
them.
-/

namespace MatchingEngine

open Contract

section Levels

variable {t : Tree} {ls : List Level} {row : OrderRow} {id id' : UInt64}

/-- A row added is taken out again with the level that it may have come with. -/
theorem removeId_insertRow (hne : ∀ l ∈ ls, l.orders ≠ [])
    (h : ∀ o ∈ ls.flatMap Level.orders, o.id ≠ row.id) :
    removeId row.id (insertRow t row ls) = ls := by
  have hrow : [row].filter (·.id ≠ row.id) = [] := by simp
  fun_induction insertRow t row ls with
  | case1 =>
    rw [removeId_cons, hrow]
    rfl
  | case2 l ls heq =>
    have hl : l.orders.filter (·.id ≠ row.id) = l.orders :=
      List.filter_eq_self.mpr fun o ho => decide_eq_true (h o (List.mem_append_left _ ho))
    rw [removeId_cons, List.filter_append, hrow, List.append_nil, hl,
      removeId_eq_self (fun m hm => hne m (List.mem_cons_of_mem _ hm))
        fun o ho => h o (List.mem_append_right _ ho)]
    exact if_neg (hne l List.mem_cons_self)
  | case3 l ls =>
    rw [removeId_cons, hrow]
    exact removeId_eq_self hne h
  | case4 l ls _ _ ih =>
    have hl : l.orders.filter (·.id ≠ row.id) = l.orders :=
      List.filter_eq_self.mpr fun o ho => decide_eq_true (h o (List.mem_append_left _ ho))
    rw [removeId_cons, hl, ih (fun m hm => hne m (List.mem_cons_of_mem _ hm))
      fun o ho => h o (List.mem_append_right _ ho)]
    exact if_neg (hne l List.mem_cons_self)

/-- Two orders are taken out in either order. -/
theorem removeId_comm (id id' : UInt64) (ls : List Level) :
    removeId id (removeId id' ls) = removeId id' (removeId id ls) := by
  have hcomm : ∀ os : List OrderRow, (os.filter (·.id ≠ id')).filter (·.id ≠ id) =
      (os.filter (·.id ≠ id)).filter (·.id ≠ id') := fun os => by
    rw [List.filter_filter, List.filter_filter]
    exact List.filter_congr fun o _ => Bool.and_comm _ _
  -- What is left of a queue that loses one of them is what counts.
  have hnil : ∀ (i j : UInt64) (os : List OrderRow), os.filter (·.id ≠ j) = [] →
      (os.filter (·.id ≠ i)).filter (·.id ≠ j) = [] := fun i j os h => by
    rw [List.filter_filter, List.filter_congr fun o _ => Bool.and_comm _ _, ← List.filter_filter, h]
    rfl
  induction ls with
  | nil => rfl
  | cons l ls ih =>
    rw [removeId_cons, removeId_cons]
    unfold Request.relevel
    by_cases h : l.orders.filter (·.id ≠ id) = []
    · rw [if_pos h]
      by_cases h' : l.orders.filter (·.id ≠ id') = []
      · rw [if_pos h', ih]
      · rw [if_neg h', removeId_cons, ih]
        exact if_pos (hnil id' id _ h)
    · rw [if_neg h]
      by_cases h' : l.orders.filter (·.id ≠ id') = []
      · rw [if_pos h', removeId_cons, ih]
        exact (if_pos (hnil id id' _ h')).symm
      · rw [if_neg h', removeId_cons, removeId_cons, hcomm, ih]

end Levels

namespace Book

variable {b : Book} {r : Request} {row : OrderRow} {t : Tree} {id id' : UInt64}

/-- To cancel an order that has been rested undoes that. -/
theorem cancel_rest (h : b.Inv) (hid : row.id ∉ b.ids) : (b.rest row t).cancel row.id = some b := by
  have hne : ∀ s, ∀ o ∈ (b.side s).flatMap Level.orders, o.id ≠ row.id := fun s o ho he =>
    hid (he ▸ List.mem_map_of_mem ((b.orders_perm s).mem_iff.mpr (List.mem_append_left _ ho)))
  have hown := removeId_insertRow (t := t) (h.side t).nonempty (hne t)
  have hother := removeId_eq_self (h.side t.other).nonempty (hne t.other)
  have hmem : row.id ∈ (b.rest row t).ids := by
    unfold Book.ids
    rw [((rest_orders b row t).map OrderRow.id).mem_iff]
    exact List.mem_cons_self
  unfold Book.cancel
  rw [if_pos hmem]
  unfold Book.rest
  cases t with
  | bids => exact congrArg some (Book.ext hown hother)
  | asks => exact congrArg some (Book.ext hother hown)

/-- The ids after a cancellation. -/
theorem mem_cancel_ids {b' : Book} (h : b.cancel id = some b') :
    id' ∈ b'.ids ↔ id' ∈ b.ids ∧ id' ≠ id := by
  unfold Book.cancel at h
  split at h
  · cases h
    unfold Book.ids
    rw [remove_orders, List.mem_map, List.mem_map]
    constructor
    · rintro ⟨o, ho, rfl⟩
      exact ⟨⟨o, List.mem_of_mem_filter ho, rfl⟩, of_decide_eq_true (List.mem_filter.mp ho).2⟩
    · rintro ⟨⟨o, ho, rfl⟩, hne⟩
      exact ⟨o, List.mem_filter.mpr ⟨ho, decide_eq_true hne⟩, rfl⟩
  · cases h

/-- A cancellation, which leaves the book as it is when no order has the id. -/
def afterCancel (b : Book) (id : UInt64) : Book := (b.cancel id).getD b

/-- A cancellation is confirmed just when the id is there. -/
theorem isSome_cancel : (b.cancel id).isSome ↔ id ∈ b.ids := by
  unfold Book.cancel
  split
  · rename_i h
    exact iff_of_true rfl h
  · rename_i h
    exact iff_of_false Bool.false_ne_true h

/-- The ids after a cancellation, confirmed or not. -/
theorem mem_afterCancel_ids : id' ∈ (b.afterCancel id).ids ↔ id' ∈ b.ids ∧ id' ≠ id := by
  unfold afterCancel
  cases h : b.cancel id with
  | none =>
    have hid : id ∉ b.ids := fun hid => by
      have hsome := isSome_cancel.mpr hid
      rw [h] at hsome
      cases hsome
    exact ⟨fun hmem => ⟨hmem, fun he => hid (he ▸ hmem)⟩, And.left⟩
  | some b' => exact mem_cancel_ids h

/-- One cancellation does not tell on the result of another. -/
theorem isSome_cancel_after (hne : id ≠ id') :
    ((b.afterCancel id).cancel id').isSome = (b.cancel id').isSome := by
  rw [Bool.eq_iff_iff, isSome_cancel, isSome_cancel, mem_afterCancel_ids]
  exact and_iff_left hne.symm

/-- A cancellation of an id that is there. -/
theorem afterCancel_of_mem (h : id ∈ b.ids) :
    b.afterCancel id = ⟨removeId id b.bids, removeId id b.asks⟩ := by
  unfold afterCancel Book.cancel
  rw [if_pos h]
  rfl

/-- A cancellation of an id that is not there. -/
theorem afterCancel_of_not_mem (h : id ∉ b.ids) : b.afterCancel id = b := by
  unfold afterCancel Book.cancel
  rw [if_neg h]
  rfl

/-- Two cancellations are made in either order. -/
theorem afterCancel_comm (b : Book) (id id' : UInt64) :
    (b.afterCancel id).afterCancel id' = (b.afterCancel id').afterCancel id := by
  by_cases hne : id = id'
  · rw [hne]
  by_cases h : id ∈ b.ids
  · by_cases h' : id' ∈ b.ids
    · rw [afterCancel_of_mem (mem_afterCancel_ids.mpr ⟨h', Ne.symm hne⟩),
        afterCancel_of_mem (mem_afterCancel_ids.mpr ⟨h, hne⟩), afterCancel_of_mem h,
        afterCancel_of_mem h']
      exact Book.ext (removeId_comm ..) (removeId_comm ..)
    · rw [afterCancel_of_not_mem h',
        afterCancel_of_not_mem fun hx => h' (mem_afterCancel_ids.mp hx).1]
  · rw [afterCancel_of_not_mem h, afterCancel_of_not_mem fun hx => h (mem_afterCancel_ids.mp hx).1]

end Book

end MatchingEngine
