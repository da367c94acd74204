import MatchingEngine.C.PoolOps

/-!
# The order queues

`PriceLevel_orders_InsertTail` and `PriceLevel_orders_Remove` on a heap in order. Both write the
links of the row and of its neighbours, the ends of the level's queue, and the back pointer and flag
of the row; the row lemmas say which, and the queue rules of `Lib/Chain.lean` say that the links
then spell the longer or the shorter queue.

Where a field is written more than once, the row lemmas (`ordersInsertTail_orders`,
`ordersRemove_orders`) say what the row is in the end, for each row of the heap. They need that the
rows involved are different, which the queue being in order provides. The counter and the total of
the level go along, and what is known of the total is in `C/Totals.lean`.
-/

namespace MatchingEngine.C

open Lib Contract

variable {db : EngineDb} {g : Shape} {p q : OrderPtr} {l m : LevelPtr}

namespace EngineDb

/-- `setNextOf` writes the queues only. -/
theorem setNextOf_only (prev next : Option OrderPtr) : QueueOnly db (db.setNextOf l prev next) := by
  cases prev <;> rw [setNextOf]
  · exact .setLevel fun _ => rfl
  · exact .setOrder fun _ => rfl

/-- `setPrevOf` writes the queues only. -/
theorem setPrevOf_only (next prev : Option OrderPtr) : QueueOnly db (db.setPrevOf l next prev) := by
  cases next <;> rw [setPrevOf]
  · exact .setLevel fun _ => rfl
  · exact .setOrder fun _ => rfl

/-- An insertion writes the queues only. -/
theorem ordersInsertTail_only (hin : (db.orders p).orders_inlist = false) :
    QueueOnly db (db.ordersInsertTail l p) := by
  simp only [ordersInsertTail, hin, Bool.false_eq_true, if_false]
  exact (QueueOnly.setOrder fun _ => rfl).trans <| (setNextOf_only _ _).trans <|
    (QueueOnly.setOrder fun _ => rfl).trans <| .setLevel fun _ => rfl

/-- A removal writes the queues only. -/
theorem ordersRemove_only (l : LevelPtr) (hin : (db.orders p).orders_inlist) :
    QueueOnly db (db.ordersRemove l p) := by
  simp only [ordersRemove, hin, Bool.not_true, Bool.false_eq_true, if_false]
  exact (setNextOf_only _ _).trans <| (setPrevOf_only _ _).trans <|
    (QueueOnly.setOrder fun _ => rfl).trans <| .setLevel fun _ => rfl

/-! ## Rows after an insertion -/

/-- The order rows after an insertion at the tail of `l`. -/
theorem ordersInsertTail_orders (hin : (db.orders p).orders_inlist = false)
    (ht : (db.levels l).orders_tail ≠ some p) :
    (db.ordersInsertTail l p).orders q =
      if q = p then { db.orders p with
        orders_next := none, orders_prev := (db.levels l).orders_tail
        p_price_level := some l, orders_inlist := true }
      else if (db.levels l).orders_tail = some q then { db.orders q with orders_next := some p }
      else db.orders q := by
  simp only [ordersInsertTail, hin, Bool.false_eq_true, if_false, setNextOf]
  cases htail : (db.levels l).orders_tail with
  -- An empty queue: no row before this one is written.
  | none => by_cases hq : q = p <;> simp [setOrder_orders_apply, hq]
  | some t =>
    -- The old last row is written first, and it is another row.
    have htp : p ≠ t := fun h => ht (by rw [htail, h])
    by_cases hq : q = p
    · simp [setOrder_orders_apply, hq, htp]
    · by_cases hqt : q = t
      · simp [setOrder_orders_apply, hqt, Ne.symm htp]
      · simp [setOrder_orders_apply, hq, hqt, Ne.symm hqt]

/-- The levels after an insertion at the tail of `l`. -/
theorem ordersInsertTail_levels (hin : (db.orders p).orders_inlist = false) :
    (db.ordersInsertTail l p).levels m =
      if m = l then { db.levels l with
        orders_head := if (db.levels l).orders_tail = none then some p else (db.levels l).orders_head
        orders_tail := some p
        orders_n := (db.levels l).orders_n + 1
        total_qty := (db.levels l).total_qty + (db.orders p).remaining_qty }
      else db.levels m := by
  simp only [ordersInsertTail, hin, Bool.false_eq_true, if_false, setNextOf]
  cases htail : (db.levels l).orders_tail with
  -- An empty queue: the head is set as well.
  | none => by_cases hm : m = l <;> simp [setLevel_levels_apply, hm]
  | some t =>
    by_cases hpt : p = t <;> by_cases hm : m = l <;>
      simp [setLevel_levels_apply, setOrder_orders_apply, hm, hpt]

/-! ## Rows after a removal -/

/-- The order rows after a removal from `l`. -/
theorem ordersRemove_orders (hin : (db.orders p).orders_inlist)
    (hn : (db.orders p).orders_next ≠ some p) (hp : (db.orders p).orders_prev ≠ some p)
    (hne : ∀ z, (db.orders p).orders_prev = some z → (db.orders p).orders_next ≠ some z) :
    (db.ordersRemove l p).orders q =
      if q = p then { db.orders p with
        orders_next := none, orders_prev := none, orders_inlist := false, p_price_level := none }
      else if (db.orders p).orders_prev = some q then
        { db.orders q with orders_next := (db.orders p).orders_next }
      else if (db.orders p).orders_next = some q then
        { db.orders q with orders_prev := (db.orders p).orders_prev }
      else db.orders q := by
  simp only [ordersRemove, hin, Bool.not_true, Bool.false_eq_true, if_false, setNextOf, setPrevOf]
  cases hprev : (db.orders p).orders_prev with
  | none =>
    cases hnext : (db.orders p).orders_next with
    -- The only row of the queue.
    | none => by_cases hq : q = p <;> simp [setOrder_orders_apply, hq, hprev, hnext]
    -- The first of several: the row after it is written.
    | some b =>
      have hpb : p ≠ b := fun h => hn (by rw [hnext, h])
      by_cases hq : q = p
      · simp [setOrder_orders_apply, hq, hprev, hnext, hpb]
      · by_cases hqb : q = b
        · simp [setOrder_orders_apply, hqb, hprev, hnext, Ne.symm hpb]
        · simp [setOrder_orders_apply, hq, hqb, hprev, hnext, Ne.symm hqb]
  | some a =>
    have hpa : p ≠ a := fun h => hp (by rw [hprev, h])
    cases hnext : (db.orders p).orders_next with
    -- The last of several: the row before it is written.
    | none =>
      by_cases hq : q = p
      · simp [setOrder_orders_apply, hq, hprev, hnext, hpa]
      · by_cases hqa : q = a
        · simp [setOrder_orders_apply, hqa, hprev, hnext, hpa, Ne.symm hpa]
        · simp [setOrder_orders_apply, hq, hqa, hprev, hnext, hpa, Ne.symm hqa]
    -- Between two different rows, and both are written.
    | some b =>
      have hpb : p ≠ b := fun h => hn (by rw [hnext, h])
      have hab : a ≠ b := fun h => hne a hprev (by rw [hnext, h])
      by_cases hq : q = p
      · simp [setOrder_orders_apply, hq, hprev, hnext, hpa, hpb]
      · by_cases hqa : q = a
        · simp [setOrder_orders_apply, hqa, hprev, hnext, hpa, Ne.symm hpa, hab]
        · by_cases hqb : q = b
          · simp [setOrder_orders_apply, hqb, hprev, hnext, hpa, Ne.symm hpb, Ne.symm hab, hab]
          · simp [setOrder_orders_apply, hq, hqa, hqb, hprev, hnext, hpa, Ne.symm hqa, Ne.symm hqb]

/-- The levels after a removal from `l`. -/
theorem ordersRemove_levels (hin : (db.orders p).orders_inlist)
    (hn : (db.orders p).orders_next ≠ some p) (hp : (db.orders p).orders_prev ≠ some p) :
    (db.ordersRemove l p).levels m =
      if m = l then { db.levels l with
        orders_head := if (db.orders p).orders_prev = none then (db.orders p).orders_next
          else (db.levels l).orders_head
        orders_tail := if (db.orders p).orders_next = none then (db.orders p).orders_prev
          else (db.levels l).orders_tail
        orders_n := if (db.levels l).orders_n > 0 then (db.levels l).orders_n - 1
          else (db.levels l).orders_n
        total_qty := if (db.levels l).total_qty ≥ (db.orders p).remaining_qty
          then (db.levels l).total_qty - (db.orders p).remaining_qty else 0 }
      else db.levels m := by
  simp only [ordersRemove, hin, Bool.not_true, Bool.false_eq_true, if_false, setNextOf, setPrevOf]
  cases hprev : (db.orders p).orders_prev with
  | none =>
    cases hnext : (db.orders p).orders_next with
    -- The only row of the queue.
    | none => by_cases hm : m = l <;> simp [setLevel_levels_apply, hm, hprev, hnext]
    -- The first of several: the head moves.
    | some b =>
      have hpb : p ≠ b := fun h => hn (by rw [hnext, h])
      by_cases hm : m = l <;>
        simp [setLevel_levels_apply, setOrder_orders_apply, hm, hprev, hnext, hpb]
  | some a =>
    have hpa : p ≠ a := fun h => hp (by rw [hprev, h])
    cases hnext : (db.orders p).orders_next with
    | none =>
      -- The last of several: the tail moves.
      by_cases hm : m = l <;>
        simp [setLevel_levels_apply, setOrder_orders_apply, hm, hprev, hnext, hpa]
    | some b =>
      have hpb : p ≠ b := fun h => hn (by rw [hnext, h])
      -- Between two rows, neither end moves.
      by_cases hm : m = l <;>
        simp [setLevel_levels_apply, setOrder_orders_apply, hm, hprev, hnext, hpa, hpb]
      exact ⟨rfl, rfl⟩

end EngineDb

namespace Rep

/-- The tail of a queue is not a row without an owner. -/
theorem tail_ne (h : Rep db g) (hp : (db.orders p).p_price_level = none) :
    (db.levels l).orders_tail ≠ some p := fun ht => by
  rw [(h.queues.linked l).tail_eq] at ht
  have hmem := (h.queues.mem l p).mp (List.mem_of_getLast? ht)
  rw [hp] at hmem; cases hmem

/-- `PriceLevel_orders_InsertTail` on a row in no queue. -/
theorem ordersInsertTail (h : Rep db g) (hp : p ∈ db.liveOrders) (hl : l ∈ db.liveLevels)
    (hown : (db.orders p).p_price_level = none) :
    Rep (db.ordersInsertTail l p)
      { g with queue := Function.update g.queue l (g.queue l ++ [p]) } := by
  have hin := h.inlist_false hown
  have ht := h.tail_ne (l := l) hown
  have hfresh : ∀ m, p ∉ g.queue m := fun m hm => by
    rw [h.queues.mem, hown] at hm; cases hm
  have htail : ∀ m, (db.levels m).orders_tail = (g.queue m).getLast? := fun m =>
    (h.queues.linked m).tail_eq
  refine h.of_queues ⟨fun m => ?_, fun m => ?_, fun m q => ?_, fun q => ?_⟩ (fun m q hq => ?_)
    (EngineDb.ordersInsertTail_only hin)
  · rw [EngineDb.ordersInsertTail_levels hin, Function.update_apply]
    by_cases hm : m = l
    · subst hm
      rw [if_pos rfl, if_pos rfl]
      have hne : ∀ z ∈ g.queue m, z ≠ p := fun z hz hzp => hfresh m (hzp ▸ hz)
      refine (h.queues.linked m).snoc ?_ ?_ ?_ (fun z hz => ?_) (fun z hz hz' => ?_) fun z hz => ?_
      · rw [EngineDb.nextLink, EngineDb.ordersInsertTail_orders hin ht, if_pos rfl]
      · rw [EngineDb.prevLink, EngineDb.ordersInsertTail_orders hin ht, if_pos rfl]
      · simp only [htail, List.getLast?_eq_none_iff]
      · rw [EngineDb.nextLink, EngineDb.ordersInsertTail_orders hin ht,
          if_neg (hne z (List.mem_of_getLast? hz)), if_pos (by rw [htail]; exact hz)]
      · rw [EngineDb.nextLink, EngineDb.ordersInsertTail_orders hin ht, if_neg (hne z hz),
          if_neg (by rw [htail]; exact hz')]
        rfl
      · rw [EngineDb.prevLink, EngineDb.ordersInsertTail_orders hin ht, if_neg (hne z hz)]
        split <;> rfl
    · rw [if_neg hm, if_neg hm]
      -- The rows of another queue are neither the new row nor the old tail.
      have hz : ∀ z ∈ g.queue m, z ≠ p ∧ (db.levels l).orders_tail ≠ some z := by
        refine fun z hz => ⟨fun hzp => hfresh m (hzp ▸ hz), fun hzt => hm ?_⟩
        rw [htail] at hzt
        have h₁ := (h.queues.mem m z).mp hz
        have h₂ := (h.queues.mem l z).mp (List.mem_of_getLast? hzt)
        exact Option.some.inj (h₁.symm.trans h₂)
      refine (h.queues.linked m).congr (fun z hzm => ?_) fun z hzm => ?_ <;>
        simp only [EngineDb.nextLink, EngineDb.prevLink, EngineDb.ordersInsertTail_orders hin ht,
          if_neg (hz z hzm).1, if_neg (hz z hzm).2]
  · rw [EngineDb.ordersInsertTail_levels hin, Function.update_apply]
    by_cases hm : m = l
    · subst hm
      have hlen : (g.queue m ++ [p]).length ≤ db.orderRows := by
        refine h.length_le_orderRows (List.nodup_append.mpr ⟨h.queue_nodup m, by simp, ?_⟩) ?_
        · rintro a ha b hb rfl
          exact hfresh m (by rwa [List.mem_singleton.mp hb] at ha)
        · intro z hz
          rcases List.mem_append.mp hz with hz | hz
          · exact (h.queue_live m z hz).1
          · rw [List.mem_singleton.mp hz]; exact hp
      have hcount := h.queues.count m
      have hbound := h.oPool.bound
      have h1 : (1 : UInt32).toNat = 1 := rfl
      rw [List.length_append, List.length_singleton] at hlen
      change _ ≤ db.order_pool_total_allocated.toNat at hlen
      rw [if_pos rfl, if_pos rfl, UInt32.toNat_add, h1, List.length_append, List.length_singleton]
      omega
    · rw [if_neg hm, if_neg hm]; exact h.queues.count m
  · rw [EngineDb.ordersInsertTail_orders hin ht, Function.update_apply]
    by_cases hq : q = p
    · subst hq
      rw [if_pos rfl]
      by_cases hm : m = l
      · simp [hm]
      · simp [hm, hfresh, Ne.symm hm]
    · have howner : (if (db.levels l).orders_tail = some q then
          { db.orders q with orders_next := some p } else db.orders q).p_price_level =
          (db.orders q).p_price_level := by split <;> rfl
      rw [if_neg hq, howner, ← h.queues.mem]
      by_cases hm : m = l
      · simp [hm, hq]
      · simp [hm]
  · rw [EngineDb.ordersInsertTail_orders hin ht]
    split
    · rfl
    · split <;> exact h.queues.flag q
  · rw [Function.update_apply] at hq
    split at hq
    · subst_vars
      rcases List.mem_append.mp hq with hq | hq
      · exact h.queue_live _ q hq
      · rw [List.mem_singleton.mp hq]; exact ⟨hp, hl⟩
    · exact h.queue_live m q hq

/-- The links of a queued row, where it splits its queue. -/
theorem exists_queue_split (h : Rep db g) (hp : p ∈ g.queue l) : ∃ as bs,
    g.queue l = as ++ p :: bs ∧ (as ++ p :: bs).Nodup ∧
      (db.orders p).orders_next = bs.head? ∧ (db.orders p).orders_prev = as.getLast? := by
  obtain ⟨as, bs, heq⟩ := List.append_of_mem hp
  have hlink := h.queues.linked l
  rw [heq] at hlink
  exact ⟨as, bs, heq, hlink.nodup, hlink.next_eq, hlink.prev_eq⟩

/-- `PriceLevel_orders_Remove` on a row of the level's queue. -/
theorem ordersRemove (h : Rep db g) (hp : p ∈ g.queue l) :
    Rep (db.ordersRemove l p)
      { g with queue := Function.update g.queue l ((g.queue l).erase p) } ∧
      QueueOnly db (db.ordersRemove l p) := by
  obtain ⟨as, bs, heq, hnd, hnext, hprev⟩ := h.exists_queue_split hp
  have hown := (h.queues.mem l p).mp hp
  have hin : (db.orders p).orders_inlist := by rw [h.queues.flag, hown]; rfl
  have hnd' := hnd
  rw [List.nodup_append, List.nodup_cons] at hnd'
  obtain ⟨-, ⟨hpbs, -⟩, hdisj⟩ := hnd'
  have hpas : p ∉ as := fun hm => hdisj p hm p List.mem_cons_self rfl
  have hn : (db.orders p).orders_next ≠ some p := fun hc => by
    rw [hnext] at hc; exact hpbs (List.mem_of_head? hc)
  have hpr : (db.orders p).orders_prev ≠ some p := fun hc => by
    rw [hprev] at hc; exact hpas (List.mem_of_getLast? hc)
  have hne : ∀ z, (db.orders p).orders_prev = some z → (db.orders p).orders_next ≠ some z := by
    intro z hz hz'
    rw [hprev] at hz
    rw [hnext] at hz'
    exact hdisj z (List.mem_of_getLast? hz) z (List.mem_cons_of_mem _ (List.mem_of_head? hz')) rfl
  have herase : (g.queue l).erase p = as ++ bs := by
    rw [heq, List.erase_append_right _ hpas, List.erase_cons_head]
  have honly := EngineDb.ordersRemove_only l hin
  have hrows := fun q => EngineDb.ordersRemove_orders (l := l) (q := q) hin hn hpr hne
  refine ⟨h.of_queues ⟨fun m => ?_, fun m => ?_, fun m q => ?_, fun q => ?_⟩ (fun m q hq => ?_)
    honly, honly⟩
  · rw [EngineDb.ordersRemove_levels hin hn hpr, Function.update_apply]
    by_cases hm : m = l
    · subst hm
      rw [if_pos rfl, if_pos rfl, herase]
      have hlink := h.queues.linked m
      rw [heq] at hlink
      have hz : ∀ z ∈ as ++ bs, z ≠ p := by
        rintro z hz rfl
        exact (List.mem_append.mp hz).elim hpas hpbs
      refine hlink.unlink ?_ ?_ (fun z hzl => ?_) (fun z hzf => ?_) (fun z hzm hzl => ?_)
        fun z hzm hzf => ?_
      · simp only [hprev, List.getLast?_eq_none_iff]; rfl
      · simp only [hnext, List.head?_eq_none_iff]; rfl
      · have hmem := List.mem_of_getLast? hzl
        rw [Option.mem_def] at hzl
        rw [EngineDb.nextLink, hrows, if_neg (hz z (List.mem_append_left _ hmem)), hprev, if_pos hzl]
        rfl
      · have hmem := List.mem_of_head? hzf
        rw [Option.mem_def] at hzf
        rw [EngineDb.prevLink, hrows, if_neg (hz z (List.mem_append_right _ hmem)),
          if_neg (fun hc => hne z hc (by rw [hnext]; exact hzf)), hnext, if_pos hzf]
        rfl
      · rw [Option.mem_def] at hzl
        rw [EngineDb.nextLink, hrows, if_neg (hz z hzm), hprev, if_neg hzl]
        split <;> rfl
      · rw [Option.mem_def] at hzf
        rw [EngineDb.prevLink, hrows, if_neg (hz z hzm), hnext, if_neg hzf]
        split <;> rfl
    · rw [if_neg hm, if_neg hm]
      -- The rows of another queue are neither the removed row nor its neighbours.
      have hz : ∀ z ∈ g.queue m, z ∉ g.queue l := fun z hz hzl => hm (by
        have h₁ := (h.queues.mem m z).mp hz
        have h₂ := (h.queues.mem l z).mp hzl
        exact Option.some.inj (h₁.symm.trans h₂))
      have hsame : ∀ z ∈ g.queue m, (db.ordersRemove l p).orders z = db.orders z := by
        intro z hzm
        have hzl := hz z hzm
        rw [heq, List.mem_append, List.mem_cons, not_or, not_or] at hzl
        rw [hrows, if_neg hzl.2.1, hprev, hnext,
          if_neg fun hc => hzl.1 (List.mem_of_getLast? hc),
          if_neg fun hc => hzl.2.2 (List.mem_of_head? hc)]
      refine (h.queues.linked m).congr (fun z hzm => ?_) fun z hzm => ?_
      · rw [EngineDb.nextLink, hsame z hzm]; rfl
      · rw [EngineDb.prevLink, hsame z hzm]; rfl
  · rw [EngineDb.ordersRemove_levels hin hn hpr, Function.update_apply]
    by_cases hm : m = l
    · subst hm
      have hcount := h.queues.count m
      have hlen : ((g.queue m).erase p).length = (g.queue m).length - 1 := List.length_erase_of_mem hp
      have hpos : 0 < (g.queue m).length := List.length_pos_of_mem hp
      have h1 : (1 : UInt32).toNat = 1 := rfl
      have hle : (1 : UInt32) ≤ (db.levels m).orders_n := by
        rw [UInt32.le_iff_toNat_le]; omega
      have hgt : (db.levels m).orders_n > 0 := by
        rw [gt_iff_lt, UInt32.lt_iff_toNat_lt, hcount]; exact hpos
      rw [if_pos rfl, if_pos rfl]
      simp only [hgt, if_true]
      rw [UInt32.toNat_sub_of_le _ _ hle, hcount, h1, hlen]
    · rw [if_neg hm, if_neg hm]; exact h.queues.count m
  · rw [hrows, Function.update_apply]
    by_cases hq : q = p
    · subst hq
      rw [if_pos rfl]
      by_cases hm : m = l
      · subst hm
        simp [herase, hpas, hpbs]
      · simp only [hm, if_false, h.queues.mem, hown, reduceCtorEq, iff_false, Option.some.injEq]
        exact fun hc => hm hc.symm
    · have howner : (if (db.orders p).orders_prev = some q then
          { db.orders q with orders_next := (db.orders p).orders_next }
          else if (db.orders p).orders_next = some q then
          { db.orders q with orders_prev := (db.orders p).orders_prev }
          else db.orders q).p_price_level = (db.orders q).p_price_level := by
        split
        · rfl
        · split <;> rfl
      rw [if_neg hq, howner, ← h.queues.mem]
      by_cases hm : m = l
      · subst hm
        rw [if_pos rfl, List.mem_erase_of_ne hq]
      · rw [if_neg hm]
  · rw [hrows]
    split
    · rfl
    · split
      · exact h.queues.flag q
      · split <;> exact h.queues.flag q
  · rw [Function.update_apply] at hq
    split at hq
    · subst_vars
      exact h.queue_live _ q (List.mem_of_mem_erase hq)
    · exact h.queue_live m q hq

end Rep

end MatchingEngine.C
