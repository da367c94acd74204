import MatchingEngine.Book.Matching

/-!
# The invariant of the book

The levels of a side are in strict order of price and none is empty, an order rests at its price and
on its side with a positive part of its quantity, ids are distinct, and every bid is below every
ask. A request or a cancellation keeps all of this.

`RowInv`, `SideInv`, and `Book.Inv` are the clauses for an order, a side, and a book. Matching cuts
a side down from its best end (`cut`), resting inserts a row in its place (`insertRow`), and
cancelling removes an id (`removeId`). For each there is a lemma on the orders as a list and one on
the invariant, and `Inv.place` and `Inv.cancel` are those for the calls.
-/

namespace MatchingEngine

open Contract

/-- An order that rests in the tree `t` at the price `price`. -/
structure RowInv (t : Tree) (price : UInt64) (o : OrderRow) : Prop where
  price_eq : o.price = price
  side_eq : o.side = t.code
  pos : 0 < o.remaining
  le_qty : o.remaining ≤ o.qty

/-- The levels of one side. -/
structure SideInv (t : Tree) (ls : List Level) : Prop where
  sorted : (ls.map Level.price).Pairwise (before t)
  nonempty : ∀ l ∈ ls, l.orders ≠ []
  row : ∀ l ∈ ls, ∀ o ∈ l.orders, RowInv t l.price o

/-- The invariant of a book. -/
structure Book.Inv (b : Book) : Prop where
  side : ∀ t, SideInv t (b.side t)
  ids : b.ids.Nodup
  uncrossed : ∀ l ∈ b.bids, ∀ m ∈ b.asks, l.price < m.price

/-- What comes before is transitive. -/
theorem before_trans {t : Tree} {p q s : UInt64} (h : before t p q) (h' : before t q s) :
    before t p s := by
  cases t <;> simp only [before] at h h' ⊢ <;> grind

/-- Of two prices one comes before the other. -/
theorem before_or {t : Tree} {p q : UInt64} (h : p ≠ q) : before t p q ∨ before t q p := by
  cases t <;> simp only [before] <;> grind

/-- No price comes before itself. -/
theorem not_before_self (t : Tree) (p : UInt64) : ¬ before t p p := by
  cases t <;> simp [before]

/-- Prices of which one comes before the other differ. -/
theorem before_ne {t : Tree} {p q : UInt64} (h : before t p q) : p ≠ q :=
  fun he => not_before_self t q (he ▸ h)

/-- Two prices do not come before each other. -/
theorem before_asymm {t : Tree} {p q : UInt64} (h : before t p q) : ¬ before t q p :=
  fun h' => not_before_self t p (before_trans h h')

/-- Priority is strict. -/
theorem better_iff {t : Tree} {p q : UInt64} : better t p q ↔ ¬ before t q p := by
  cases t <;> simp only [better, before] <;> grind

/-! ## Levels -/

section Levels

variable {ls : List Level} {id : UInt64}

variable (id) in
/-- An id is taken out of the best level and of those behind it. -/
theorem removeId_cons (l : Level) (ls : List Level) :
    removeId id (l :: ls) =
      Request.relevel l.price (l.orders.filter (·.id ≠ id)) (removeId id ls) := by
  unfold removeId Request.relevel
  rw [List.map_cons, List.filter_cons]
  by_cases h : l.orders.filter (·.id ≠ id) = []
  · rw [if_pos h, if_neg (by simpa using h)]
  · rw [if_neg h, if_pos (by simpa using h)]

/-- Levels that hold no order `id` stay as they are. -/
theorem removeId_eq_self (hne : ∀ l ∈ ls, l.orders ≠ [])
    (hid : ∀ o ∈ ls.flatMap Level.orders, o.id ≠ id) : removeId id ls = ls := by
  induction ls with
  | nil => rfl
  | cons l ls ih =>
    have hl : l.orders.filter (·.id ≠ id) = l.orders :=
      List.filter_eq_self.mpr fun o ho => decide_eq_true (hid o (List.mem_append_left _ ho))
    rw [removeId_cons, hl, ih (fun m hm => hne m (List.mem_cons_of_mem _ hm))
      fun o ho => hid o (List.mem_append_right _ ho)]
    exact if_neg (hne l List.mem_cons_self)

end Levels

namespace SideInv

variable {t : Tree} {ls left : List Level} {row : OrderRow}

/-- A side without levels. -/
theorem nil : SideInv t [] := ⟨.nil, by simp, by simp⟩

/-- A side cut by matching. -/
theorem cut (h : SideInv t ls) (hc : CutLevels ls left) : SideInv t left where
  sorted := h.sorted.sublist hc.prices
  nonempty l hl := by
    obtain ⟨m, hm, -, -, rfl | hne⟩ := hc.mem hl
    · exact h.nonempty l hm
    · exact hne
  row l hl o ho := by
    obtain ⟨m, hm, hprice, hcut, -⟩ := hc.mem hl
    rw [hprice]
    obtain ⟨p, hp, rfl | ⟨q, hq, hle, rfl⟩⟩ := hcut.mem ho
    · exact h.row m hm o hp
    · have hrow := h.row m hm p hp
      exact ⟨hrow.price_eq, hrow.side_eq, hq, UInt64.le_trans hle hrow.le_qty⟩

/-- A side has no more levels than orders. -/
theorem length_le (h : SideInv t ls) : ls.length ≤ (ls.flatMap Level.orders).length := by
  have hne := h.nonempty
  clear h
  induction ls with
  | nil => exact le_rfl
  | cons l ls ih =>
    have hpos := List.length_pos_of_ne_nil (hne l List.mem_cons_self)
    have := ih fun m hm => hne m (List.mem_cons_of_mem _ hm)
    rw [List.flatMap_cons, List.length_append, List.length_cons]
    omega

/-- A level of a side with a row added: one that was there, or the one of the row's price. -/
theorem mem_insertRow {l : Level} (hl : l ∈ insertRow t row ls) :
    l ∈ ls ∨ l.price = row.price ∧ ∃ os, l.orders = os ++ [row] ∧
      (os = [] ∨ ⟨row.price, os⟩ ∈ ls) := by
  fun_induction insertRow t row ls with
  | case1 =>
    rw [List.mem_singleton] at hl
    subst hl
    exact .inr ⟨rfl, [], rfl, .inl rfl⟩
  -- The level with the price, which the row joins.
  | case2 m ls heq =>
    rcases List.mem_cons.mp hl with rfl | hl
    · exact .inr ⟨heq.symm, m.orders, rfl, .inr (heq ▸ List.mem_cons_self)⟩
    · exact .inl (List.mem_cons_of_mem _ hl)
  -- A level of its own, before this one.
  | case3 m ls _ _ =>
    rcases List.mem_cons.mp hl with rfl | hl
    · exact .inr ⟨rfl, [], rfl, .inl rfl⟩
    · exact .inl hl
  | case4 m ls _ _ ih =>
    rcases List.mem_cons.mp hl with rfl | hl
    · exact .inl List.mem_cons_self
    · rcases ih hl with hl | ⟨hp, os, hos, hmem⟩
      · exact .inl (List.mem_cons_of_mem _ hl)
      · exact .inr ⟨hp, os, hos, hmem.imp_right (List.mem_cons_of_mem _)⟩

/-- The prices of a side, with that of the row that was inserted. -/
theorem insertRow_prices {p : UInt64} :
    p ∈ (insertRow t row ls).map Level.price ↔ p = row.price ∨ p ∈ ls.map Level.price := by
  fun_induction insertRow t row ls with
  | case1 => simp
  | case2 m ls heq => simp [heq]
  | case3 => simp
  | case4 m ls _ _ ih =>
    rw [List.map_cons, List.map_cons, List.mem_cons, ih, List.mem_cons, or_left_comm]

/-- A row is inserted where its price belongs. -/
theorem insertRow_sorted (h : (ls.map Level.price).Pairwise (before t)) :
    ((insertRow t row ls).map Level.price).Pairwise (before t) := by
  fun_induction insertRow t row ls with
  | case1 => simp
  | case2 => exact h
  | case3 m ls _ hlt =>
    refine List.pairwise_cons.mpr ⟨fun p hp => ?_, h⟩
    rcases List.mem_cons.mp hp with rfl | hp
    · exact hlt
    · exact before_trans hlt ((List.pairwise_cons.mp h).1 p hp)
  | case4 m ls hne hlt ih =>
    obtain ⟨hm, hls⟩ := List.pairwise_cons.mp h
    refine List.pairwise_cons.mpr ⟨fun p hp => ?_, ih hls⟩
    rcases insertRow_prices.mp hp with rfl | hp
    · exact (before_or hne).resolve_left hlt
    · exact hm p hp

/-- A row added keeps the orders that were there. -/
theorem insertRow_orders :
    ((insertRow t row ls).flatMap Level.orders).Perm (row :: ls.flatMap Level.orders) := by
  fun_induction insertRow t row ls with
  | case1 => exact .refl _
  | case2 m ls _ =>
    rw [List.flatMap_cons, List.append_assoc]
    exact List.perm_middle
  | case3 => exact .refl _
  | case4 m ls _ _ ih =>
    rw [List.flatMap_cons, List.flatMap_cons]
    exact (ih.append_left _).trans List.perm_middle

/-- A side with a row added. -/
theorem insertRow (h : SideInv t ls) (hrow : RowInv t row.price row) :
    SideInv t (insertRow t row ls) where
  sorted := insertRow_sorted h.sorted
  nonempty l hl := by
    rcases mem_insertRow hl with hl | ⟨-, os, hos, -⟩
    · exact h.nonempty l hl
    · simp [hos]
  row l hl o ho := by
    rcases mem_insertRow hl with hl | ⟨hp, os, hos, hmem⟩
    · exact h.row l hl o ho
    · rw [hos, List.mem_append, List.mem_singleton] at ho
      rw [hp]
      rcases ho with ho | rfl
      · rcases hmem with rfl | hmem
        · cases ho
        · exact h.row _ hmem o ho
      · exact hrow

/-- The orders of a side without an id. -/
theorem removeId_orders (id : UInt64) :
    (removeId id ls).flatMap Level.orders = (ls.flatMap Level.orders).filter (·.id ≠ id) := by
  induction ls with
  | nil => rfl
  | cons l ls ih =>
    unfold removeId at ih ⊢
    rw [List.map_cons, List.filter_cons, List.flatMap_cons, List.filter_append, ← ih]
    split
    · rfl
    · rename_i h
      simp only [ne_eq, decide_not, Bool.not_eq_true', Bool.not_eq_false, decide_eq_true_eq] at h
      simp [h]

/-- A level of a side without the order `id` was there with its orders. -/
theorem mem_removeId {id : UInt64} {l : Level} (hl : l ∈ removeId id ls) :
    ∃ m ∈ ls, l = { m with orders := m.orders.filter (·.id ≠ id) } ∧ l.orders ≠ [] := by
  unfold removeId at hl
  rw [List.mem_filter, List.mem_map] at hl
  obtain ⟨⟨m, hm, rfl⟩, hne⟩ := hl
  exact ⟨m, hm, rfl, by simpa using hne⟩

/-- A side without the order `id`. -/
theorem removeId (h : SideInv t ls) (id : UInt64) : SideInv t (removeId id ls) where
  sorted := by
    refine h.sorted.sublist ?_
    unfold MatchingEngine.removeId
    refine (List.filter_sublist.map _).trans ?_
    rw [List.map_map]
    exact .refl _
  nonempty l hl := by
    obtain ⟨-, -, -, hne⟩ := mem_removeId hl
    exact hne
  row l hl o ho := by
    obtain ⟨m, hm, rfl, -⟩ := mem_removeId hl
    exact h.row m hm o (List.mem_of_mem_filter ho)

end SideInv

/-! ## Books -/

namespace Book

variable {b : Book} {r : Request} {id : UInt64}

/-- The orders of a book are those of its bids and of its asks. -/
theorem orders_eq (b : Book) :
    b.orders = b.bids.flatMap Level.orders ++ b.asks.flatMap Level.orders := by
  unfold orders
  rw [List.flatMap_append]

/-- The orders of a book, by side. -/
theorem orders_perm (b : Book) (t : Tree) :
    b.orders.Perm ((b.side t).flatMap Level.orders ++ (b.side t.other).flatMap Level.orders) := by
  rw [orders_eq]
  cases t with
  | bids => exact .refl _
  | asks => exact List.perm_append_comm

/-- The orders of a book, counted by side. -/
theorem length_orders (b : Book) (t : Tree) : b.orders.length =
    ((b.side t).flatMap Level.orders).length + ((b.side t.other).flatMap Level.orders).length := by
  rw [(b.orders_perm t).length_eq, List.length_append]

/-- An empty book is in order. -/
theorem Inv.empty : Inv empty where
  side t := by cases t <;> exact .nil
  ids := List.nodup_nil
  uncrossed := by simp [Book.empty]

/-- The sides of a book that is in order do not cross, seen from either side. -/
theorem Inv.uncrossed_side (h : b.Inv) {t : Tree} {l m : Level} (hl : l ∈ b.side t)
    (hm : m ∈ b.side t.other) : before t m.price l.price := by
  cases t with
  | bids => exact h.uncrossed l hl m hm
  | asks => exact h.uncrossed m hm l hl

/-- Sides that do not cross, seen from one of them. -/
theorem uncrossed_of (t : Tree)
    (h : ∀ l ∈ b.side t, ∀ m ∈ b.side t.other, before t m.price l.price) :
    ∀ l ∈ b.bids, ∀ m ∈ b.asks, l.price < m.price := by
  cases t with
  | bids => exact h
  | asks => exact fun l hl m hm => h m hm l hl

/-- Levels that cross come before those that do not. -/
theorem not_crosses_of_head {ls : List Level}
    (hs : (ls.map Level.price).Pairwise (before r.side.other))
    (h : ∀ l ∈ ls.head?, ¬ r.crosses l.price) : ∀ l ∈ ls, ¬ r.crosses l.price := by
  cases ls with
  | nil => simp
  | cons l ls =>
    have hl := h l rfl
    intro m hm
    rcases List.mem_cons.mp hm with rfl | hm
    · exact hl
    · have hlm := (List.pairwise_cons.mp hs).1 _ (List.mem_map_of_mem hm)
      intro hc
      refine hl (hc.imp_right fun hc => ?_)
      rw [better_iff] at hc ⊢
      exact fun h' => hc (before_trans h' hlm)

/-- Matching replaces the other side by what is left of it. -/
theorem matchedFrom_eq {rem : UInt64} {o : Outcome (List Level)}
    (h : r.matchLevels (b.side r.side.other) rem = o) :
    b.matchedFrom r rem = ⟨b.setSide o.left r.side.other, o.rem, o.trades⟩ := by
  unfold matchedFrom
  rw [h]

/-- Matching looks at the other side only. -/
theorem matchedFrom_setSide {ls : List Level} {rem : UInt64} :
    (b.setSide ls r.side.other).matchedFrom r rem =
      ⟨b.setSide (r.matchLevels ls rem).left r.side.other, (r.matchLevels ls rem).rem,
        (r.matchLevels ls rem).trades⟩ := by
  rw [matchedFrom_eq rfl, side_setSide_self, setSide_setSide]

/-- An order that would not trade takes nothing. -/
theorem matched_of_not_crossing (hc : ¬ b.crossing r) : b.matched r = ⟨b, r.qty, []⟩ := by
  have hlevels : r.matchLevels (b.side r.side.other) r.qty = ⟨b.side r.side.other, r.qty, []⟩ := by
    unfold Book.crossing at hc
    cases hl : b.side r.side.other with
    | nil => rfl
    | cons l ls =>
      rw [hl] at hc
      rw [Request.matchLevels, if_pos (.inr fun hcl => hc ⟨l, rfl, hcl⟩)]
  unfold Book.matched
  rw [matchedFrom_eq hlevels, setSide_side]

variable (b r) in
/-- Matching cuts levels off. -/
theorem matched_cut :
    CutLevels (b.side r.side.other) (r.matchLevels (b.side r.side.other) r.qty).left :=
  Request.matchLevels_cut

/-- Matching keeps the invariant. -/
theorem Inv.matched (h : b.Inv) : (b.matched r).left.Inv where
  side t := by
    unfold Book.matched Book.matchedFrom
    rw [side_setSide]
    split
    · subst_vars
      exact (h.side _).cut Request.matchLevels_cut
    · exact h.side t
  ids := by
    -- Matching leaves a part of the orders, so their ids stay distinct.
    have hcut := b.matched_cut r
    have hb := ((b.orders_perm r.side.other).map OrderRow.id).nodup_iff.mp h.ids
    refine (((b.matched r).left.orders_perm r.side.other).map OrderRow.id).nodup_iff.mpr ?_
    unfold Book.matched Book.matchedFrom
    simp only [side_setSide_self, side_setSide_other, List.map_append] at hb ⊢
    exact hb.sublist (hcut.ids.append (.refl _))
  uncrossed := by
    refine uncrossed_of r.side fun l hl m hm => ?_
    unfold Book.matched Book.matchedFrom at hl hm
    simp only [side_setSide_self, side_setSide_other'] at hl hm
    obtain ⟨m', hm', hprice, -⟩ := Request.matchLevels_cut.mem hm
    rw [hprice]
    exact h.uncrossed_side hl hm'

/-- What matching leaves on the other side does not cross a remainder. -/
theorem matched_not_crosses (h : b.Inv) (hrem : (b.matched r).rem ≠ 0) :
    ∀ l ∈ (b.matched r).left.side r.side.other, ¬ r.crosses l.price := by
  have hs := (h.matched (r := r)).side r.side.other
  refine not_crosses_of_head hs.sorted ?_
  unfold Book.matched Book.matchedFrom
  rw [side_setSide_self]
  exact Request.matchLevels_not_crosses hrem

/-- Matching leaves no more than the quantity. -/
theorem matched_rem_le : (b.matched r).rem ≤ r.qty := Request.matchLevels_rem_le

/-- The ids that matching leaves were there. -/
theorem matched_ids : (b.matched r).left.ids ⊆ b.ids := by
  have hcut := b.matched_cut r
  intro id hid
  refine ((b.orders_perm r.side.other).map OrderRow.id).mem_iff.mpr ?_
  have hid' := (((b.matched r).left.orders_perm r.side.other).map OrderRow.id).mem_iff.mp hid
  unfold Book.matched Book.matchedFrom at hid'
  simp only [side_setSide_self, side_setSide_other, List.map_append, List.mem_append] at hid' ⊢
  exact hid'.imp_left fun h => hcut.ids.subset h

/-- The orders of a book with a row added. -/
theorem rest_orders (b : Book) (row : OrderRow) (t : Tree) :
    (b.rest row t).orders.Perm (row :: b.orders) := by
  refine ((b.rest row t).orders_perm t).trans ?_
  unfold rest
  rw [side_setSide_self, side_setSide_other]
  refine (SideInv.insertRow_orders.append_right _).trans ?_
  exact (b.orders_perm t).symm.cons row

/-- A row added that crosses nothing keeps the invariant. -/
theorem Inv.rest (h : b.Inv) {t : Tree} {row : OrderRow} (hrow : RowInv t row.price row)
    (hid : row.id ∉ b.ids) (hcross : ∀ m ∈ b.side t.other, before t m.price row.price) :
    (b.rest row t).Inv where
  side s := by
    unfold Book.rest
    rw [side_setSide]
    split
    · subst_vars
      exact (h.side _).insertRow hrow
    · exact h.side s
  ids := by
    refine ((b.rest_orders row t).map OrderRow.id).nodup_iff.mpr ?_
    exact List.nodup_cons.mpr ⟨hid, h.ids⟩
  uncrossed := by
    refine uncrossed_of t fun l hl m hm => ?_
    unfold Book.rest at hl hm
    rw [side_setSide_self] at hl
    rw [side_setSide_other] at hm
    -- A level that was there, or the one of the row's price, which crosses nothing.
    rcases SideInv.mem_insertRow hl with hl | ⟨hp, -⟩
    · exact h.uncrossed_side hl hm
    · rw [hp]
      exact hcross m hm

/-- What is left of an order that may rest is rested. -/
theorem place_of_rests (h : (b.matched r).rem ≠ 0 ∧ r.rests) :
    b.place r = { b.matched r with
      left := (b.matched r).left.rest (r.row (b.matched r).rem) r.side } := if_pos h

/-- What is left of any other order is dropped. -/
theorem place_of_not_rests (h : ¬ ((b.matched r).rem ≠ 0 ∧ r.rests)) : b.place r = b.matched r :=
  if_neg h

/-- Matching and resting keep the invariant. -/
theorem Inv.place (h : b.Inv) (hid : r.id ∉ b.ids) : (b.place r).left.Inv := by
  by_cases hrest : (b.matched r).rem ≠ 0 ∧ r.rests
  · rw [place_of_rests hrest]
    refine h.matched.rest ⟨rfl, rfl, ?_, matched_rem_le⟩ (fun hm => hid (matched_ids hm)) ?_
    · exact UInt64.pos_iff_ne_zero.mpr hrest.1
    · intro m hm
      have hnc := matched_not_crosses h hrest.1 m hm
      unfold Request.crosses at hnc
      rw [not_or, better_iff, not_not] at hnc
      revert hnc
      cases r.side <;> exact fun hnc => hnc.2
  · rw [place_of_not_rests hrest]
    exact h.matched

/-- The orders of a book without an id. -/
theorem remove_orders (b : Book) (id : UInt64) :
    (⟨removeId id b.bids, removeId id b.asks⟩ : Book).orders = b.orders.filter (·.id ≠ id) := by
  rw [orders_eq, orders_eq, List.filter_append, SideInv.removeId_orders, SideInv.removeId_orders]

/-- A cancellation keeps the invariant. -/
theorem Inv.cancel (h : b.Inv) {b' : Book} (hb : b.cancel id = some b') : b'.Inv := by
  unfold Book.cancel at hb
  split at hb
  · cases hb
    refine ⟨fun t => ?_, ?_, fun l hl m hm => ?_⟩
    · cases t with
      | bids => exact (h.side .bids).removeId id
      | asks => exact (h.side .asks).removeId id
    · unfold Book.ids
      rw [remove_orders]
      exact h.ids.sublist (List.filter_sublist.map _)
    · obtain ⟨l', hl', rfl, -⟩ := SideInv.mem_removeId hl
      obtain ⟨m', hm', rfl, -⟩ := SideInv.mem_removeId hm
      exact h.uncrossed l' hl' m' hm'
  · cases hb

end Book

end MatchingEngine
