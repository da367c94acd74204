import MatchingEngine.C.Rows
import MatchingEngine.C.View

/-!
# The adapter

`c/gen/engine_db_adapter.c`: the operations of `engine_db.h` on the data layer, with the capacity,
the trade buffer, and the adjustment of a level's total by `ME_order_set_remaining`. On the states
that the layer keeps itself in, every operation meets its contract, so the adapter is a `Store` of
`Contract.lean`.

There is one lemma `meets_` for each operation, and `law` puts them together. A state is `Valid`
when its heap has a shape (`Rep`), the cap is the capacity, and the pools have reserved at least
that many rows. The last section starts at `ME_adapter_init`, which reserves the rows and leaves a
heap in order that stands for the empty store (`valid_init`), and goes on to everything that
operations within their preconditions reach from there.
-/

namespace MatchingEngine.C

open Lib Contract

/-- The adapter's globals, with the heap. -/
structure Adapter where
  db : EngineDb
  g_cap : UInt64
  g_trades : ℕ → TradeRow
  g_ntrades : UInt64

/-- Which of the allocations of `ME_adapter_init` succeed. -/
structure AdapterCalloc extends EngineDb.Calloc where
  more_orders : Bool
  more_levels : Bool
  trades : Bool

/-- A payload field of an order written. -/
def Order.write (r : Order) (v : UInt64) : OrderField → Order
  | .id => { r with id := v }
  | .account => { r with account_id := v }
  | .side => { r with side := v }
  | .stp_mode => { r with stp_mode := v }
  | .price => { r with price := v }
  | .qty => { r with qty := v }
  | .remaining => { r with remaining_qty := v }

namespace Adapter

/-- The first check of `ME_adapter_init`: order rows reserved up to the capacity, with `none` for
`abort`. -/
def reserveOrders (db : EngineDb) (calloc : Bool) (capacity : UInt64) : Option EngineDb :=
  if db.order_pool_total_allocated < capacity then
    let (n, db) := db.orderPoolReserveMem calloc (capacity - db.order_pool_total_allocated)
    if n = 0 then none else some db
  else some db

/-- The second check of `ME_adapter_init`: level rows reserved up to the capacity. -/
def reserveLevels (db : EngineDb) (calloc : Bool) (capacity : UInt64) : Option EngineDb :=
  if db.level_pool_total_allocated < capacity then
    let (n, db) := db.levelPoolReserveMem calloc (capacity - db.level_pool_total_allocated)
    if n = 0 then none else some db
  else some db

/-- `ME_adapter_init`. -/
def init (calloc : AdapterCalloc) (capacity : UInt64) : Option Adapter := do
  let db ← reserveOrders (EngineDb.init calloc.toCalloc) calloc.more_orders capacity
  let db ← reserveLevels db calloc.more_levels capacity
  if calloc.trades then
    some { db := db, g_cap := capacity, g_trades := fun _ => ⟨0, 0, 0, 0⟩, g_ntrades := 0 }
  else none

/-- `ME_order_set_remaining`. -/
def orderSetRemaining (db : EngineDb) (o : OrderPtr) (v : UInt64) : EngineDb :=
  let db := match (db.orders o).orders_inlist, (db.orders o).p_price_level with
    | true, some l => db.setLevel l fun w =>
        { w with total_qty := (w.total_qty - (db.orders o).remaining_qty) + v }
    | _, _ => db
  db.setOrder o fun r => { r with remaining_qty := v }

/-- `ME_order_set_*`. -/
def orderSet (db : EngineDb) (o : OrderPtr) (v : UInt64) : OrderField → EngineDb
  | .remaining => orderSetRemaining db o v
  | f => db.setOrder o fun r => r.write v f

/-- The operations of `engine_db.h`, with `none` for `abort` and for a call that does not return. -/
def exec (s : Adapter) : {α : Type} → Op α → Option (α × Adapter)
  | _, .capacity => some (s.g_cap, s)
  | _, .orderCount => some (s.db.order_pool_n, s)
  | _, .tradeReset => some ((), { s with g_ntrades := 0 })
  -- The buffer has a row more than the capacity, and a trade beyond it aborts.
  | _, .tradeEmit maker taker price qty =>
    if s.g_ntrades > s.g_cap then none
    else some ((), { s with
      g_trades := Function.update s.g_trades s.g_ntrades.toNat ⟨maker, taker, price, qty⟩
      g_ntrades := s.g_ntrades + 1 })
  -- The capacity of the adapter is checked before the pool.
  | _, .orderAlloc =>
    if s.db.order_pool_n ≥ s.g_cap then some (none, s)
    else some (s.db.orderPoolAlloc.1, { s with db := s.db.orderPoolAlloc.2 })
  | _, .orderFree o => some ((), { s with db := s.db.orderPoolFree o })
  | _, .levelAlloc =>
    if s.db.level_pool_n ≥ s.g_cap then some (none, s)
    else some (s.db.levelPoolAlloc.1, { s with db := s.db.levelPoolAlloc.2 })
  | _, .levelFree l => some ((), { s with db := s.db.levelPoolFree l })
  | _, .orderGet f o => some ((s.db.orders o).row.get f, s)
  -- Only the setter of `remaining_qty` touches anything but the row.
  | _, .orderSet f o v => some ((), { s with db := orderSet s.db o v f })
  | _, .levelGetPrice l => some ((s.db.levels l).price, s)
  | _, .levelGetCount l => some ((s.db.levels l).orders_n.toUInt64, s)
  | _, .levelSetPrice l v => some ((), { s with db := s.db.setLevel l fun w => { w with price := v } })
  -- The operations that follow links, which return unless a link goes around.
  | _, .hashFind id => (s.db.indOrderFind id).map fun r => (r, s)
  | _, .hashInsert o => (s.db.indOrderInsertMaybe o).map fun r => (r.1, { s with db := r.2 })
  | _, .hashRemove o => (s.db.indOrderRemove o).map fun db => ((), { s with db := db })
  | _, .queueInsertTail l o => some ((), { s with db := s.db.ordersInsertTail l o })
  | _, .queueRemove l o => some ((), { s with db := s.db.ordersRemove l o })
  | _, .queueFirst l => some (s.db.ordersFirst l, s)
  | _, .queueNext o => some (s.db.ordersNext o, s)
  -- The level of an order that is in no queue is not looked at.
  | _, .orderOwner o =>
    some (if (s.db.orders o).orders_inlist then (s.db.orders o).p_price_level else none, s)
  | _, .treeFind t price => (s.db.findIn t price).map fun r => (r, s)
  | _, .treeInsert t l => (s.db.insertIn t l).map fun db => ((), { s with db := db })
  | _, .treeRemove t l => (s.db.removeFrom t l).map fun db => ((), { s with db := db })
  | _, .treeBest t => (s.db.bestOf t).map fun r => (r, s)

/-- The trades in the buffer. -/
def tradeList (s : Adapter) : List TradeRow := (List.range s.g_ntrades.toNat).map s.g_trades

/-- The abstract store of the adapter's state. -/
def view (s : Adapter) : Db := { s.db.view with trades := s.tradeList }

/-- The states that the adapter keeps itself in: its heap is in order, its order pool has reserved
the capacity, and its level pool has as much of it as it has reserved. -/
structure Valid (caps : Caps) (s : Adapter) : Prop where
  rep : ∃ g, Rep s.db g
  cap_eq : s.g_cap.toNat = caps.orders
  orders_le : caps.orders ≤ s.db.orderRows
  levels_eq : caps.levels = min caps.orders s.db.levelRows

/-- The operation `op` meets its contract in the state `s`. -/
def Meets (caps : Caps) (s : Adapter) {α : Type} (op : Op α) : Prop :=
  ∃ r s', exec s op = some (r, s') ∧ Valid caps s' ∧ op.post caps s.view r s'.view

section Law

variable {caps : Caps} {s : Adapter} {db' : EngineDb} {g g' : Shape} {o : OrderPtr} {l : LevelPtr}

/-- A state stays valid when its heap stays in order and its pools keep their size. -/
theorem Valid.of_rep (hv : Valid caps s) (h' : Rep db' g')
    (ho : db'.order_pool_total_allocated = s.db.order_pool_total_allocated)
    (hl : db'.level_pool_total_allocated = s.db.level_pool_total_allocated) :
    Valid caps { s with db := db' } where
  rep := ⟨g', h'⟩
  cap_eq := hv.cap_eq
  orders_le := by rw [EngineDb.orderRows, ho]; exact hv.orders_le
  levels_eq := by rw [EngineDb.levelRows, hl]; exact hv.levels_eq

/-- The view of a changed heap, with the trades as they were. -/
theorem view_of_db {v : Db} (h : db'.view = v) :
    ({ s with db := db' } : Adapter).view = { v with trades := s.tradeList } := by
  rw [← h]; rfl

/-- The buffer holds as many trades as its counter says. -/
theorem length_tradeList : s.tradeList.length = s.g_ntrades.toNat := by
  rw [tradeList, List.length_map, List.length_range]

/-! ## Allocation -/

/-- `ME_order_alloc`. -/
theorem meets_orderAlloc (hv : Valid caps s) : Meets caps s .orderAlloc := by
  obtain ⟨g, h⟩ := hv.rep
  have hcard := h.card_liveOrders
  have hcount := h.oPool.count
  by_cases hfull : s.db.order_pool_n ≥ s.g_cap
  -- As many live rows as `g_cap`: NULL, without asking the pool.
  · refine ⟨none, s, if_pos hfull, hv, ?_, rfl⟩
    rw [ge_iff_le, UInt64.le_iff_toNat_le, hv.cap_eq, ← hcard] at hfull
    exact ⟨fun _ => hfull, fun _ => rfl⟩
  -- Below the cap, a reserved row is free, since the rows reserved reach the capacity.
  · have hroom : s.db.order_pool_n.toNat < caps.orders := by
      rw [ge_iff_le, UInt64.le_iff_toNat_le, hv.cap_eq] at hfull; omega
    obtain ⟨p, rest, hf⟩ : ∃ p rest, g.oFree = p :: rest := by
      refine List.exists_cons_of_ne_nil fun hnil => ?_
      have := hv.orders_le
      rw [hnil, List.length_nil] at hcount
      change caps.orders ≤ s.db.order_pool_total_allocated.toNat at this
      omega
    have hnl := h.head_not_live hf
    have hexec : exec s .orderAlloc = some (some p, { s with db := s.db.takeOrder p }) := by
      refine (if_neg hfull).trans ?_
      rw [h.orderPoolAlloc_eq, hf]
    refine ⟨some p, _, hexec, hv.of_rep (h.takeOrder hf) rfl rfl, ?_, if_neg hnl,
      (s.db.orders p).row, (view_of_db (h.view_takeOrder hf)).trans rfl⟩
    refine ⟨fun hc => (by cases hc), fun hc => ?_⟩
    change caps.orders ≤ s.db.liveOrders.card at hc
    omega

/-- `ME_level_alloc`. -/
theorem meets_levelAlloc (hv : Valid caps s) : Meets caps s .levelAlloc := by
  obtain ⟨g, h⟩ := hv.rep
  have hcard := h.card_liveLevels
  have hcount := h.lPool.count
  have hmin := hv.levels_eq
  change caps.levels = min caps.orders s.db.level_pool_total_allocated.toNat at hmin
  -- The adapter refuses at its capacity, and the pool when its free list is empty.
  by_cases hfull : s.db.level_pool_n ≥ s.g_cap
  · refine ⟨none, s, if_pos hfull, hv, ⟨fun _ => ?_, fun _ => rfl⟩, rfl⟩
    rw [ge_iff_le, UInt64.le_iff_toNat_le, hv.cap_eq, ← hcard] at hfull
    exact hmin ▸ (min_le_left _ _).trans hfull
  have hroom : s.db.level_pool_n.toNat < caps.orders := by
    rw [ge_iff_le, UInt64.le_iff_toNat_le, hv.cap_eq] at hfull; omega
  cases hf : g.lFree with
  | nil =>
    have hexec : exec s .levelAlloc = some (none, s) := by
      refine (if_neg hfull).trans ?_
      rw [h.levelPoolAlloc_eq, hf]
    rw [hf, List.length_nil] at hcount
    refine ⟨none, s, hexec, hv, ⟨fun _ => ?_, fun _ => rfl⟩, rfl⟩
    change caps.levels ≤ s.db.liveLevels.card
    omega
  | cons l rest =>
    have hnl := h.head_level_not_live hf
    have hexec : exec s .levelAlloc = some (some l, { s with db := s.db.takeLevel l }) := by
      refine (if_neg hfull).trans ?_
      rw [h.levelPoolAlloc_eq, hf]
    rw [hf, List.length_cons] at hcount
    refine ⟨some l, _, hexec, hv.of_rep (h.takeLevel hf) rfl rfl, ?_, if_neg hnl,
      ⟨(s.db.levels l).price⟩, (view_of_db (h.view_takeLevel hf)).trans rfl⟩
    refine ⟨fun hc => (by cases hc), fun hc => ?_⟩
    change caps.levels ≤ s.db.liveLevels.card at hc
    omega

/-- `ME_order_free`, of an order that is neither queued nor indexed any more. -/
theorem meets_orderFree (hv : Valid caps s) (hpre : (Op.orderFree o).pre caps s.view) :
    Meets caps s (.orderFree o) := by
  obtain ⟨g, h⟩ := hv.rep
  obtain ⟨hlive, hq, hh⟩ := hpre
  have hp := Rep.view_orders_isSome.mp hlive
  have hown : (s.db.orders o).p_price_level = none := by
    rw [← Option.not_isSome_iff_eq_none]
    exact fun hc => hq (h.view_queued.mpr hc)
  have hhash : (s.db.orders o).ind_order_inhash = false :=
    Bool.eq_false_iff.mpr fun hc => hh (h.mem_view_hash.mpr hc)
  exact ⟨(), _, rfl, hv.of_rep (h.orderPoolFree hp hown hhash) rfl rfl,
    (view_of_db (h.view_orderPoolFree hp hown hhash)).trans rfl⟩

/-- A level in no tree of the view has its flag clear. -/
theorem intree_false_of_view (h : Rep s.db g) (hl : ∀ t, l ∉ s.view.tree t) :
    (s.db.levels l).tree_intree = false :=
  Bool.eq_false_iff.mpr fun hc => by
    obtain ⟨t, ht⟩ := (h.trees.flag l).mp hc
    exact hl t (h.mem_tree.mpr ht)

/-- `ME_level_free`, of a level that is empty and in no tree. -/
theorem meets_levelFree (hv : Valid caps s) (hpre : (Op.levelFree l).pre caps s.view) :
    Meets caps s (.levelFree l) := by
  obtain ⟨g, h⟩ := hv.rep
  obtain ⟨hlive, ht, hq⟩ := hpre
  have hl := Rep.view_levels_isSome.mp hlive
  have hq' : g.queue l = [] := (h.queueOf_eq l).symm.trans hq
  have ht' := intree_false_of_view h ht
  exact ⟨(), _, rfl, hv.of_rep (h.levelPoolFree hl hq' ht') rfl rfl,
    (view_of_db (h.view_levelPoolFree hl hq' ht')).trans rfl⟩

/-! ## Payload -/

/-- `ME_order_get_id` and the other readers of an order. -/
theorem meets_orderGet (hv : Valid caps s) {f : OrderField}
    (hpre : (Op.orderGet f o).pre caps s.view) : Meets caps s (.orderGet f o) :=
  ⟨_, s, rfl, hv, rfl, _, Rep.view_orders_eq (Rep.view_orders_isSome.mp hpre), rfl⟩

/-- Writing a field of a live order, from a heap `db₁` with the same view. -/
theorem meets_write (hv : Valid caps s) (h : Rep s.db g) {f : OrderField} {v : UInt64}
    {db₁ : EngineDb} (ho : QueueOnly s.db db₁) (h₁ : Rep db₁ g) (hlive : o ∈ s.db.liveOrders)
    (hid : f = .id → (s.db.orders o).ind_order_inhash = false)
    (hexec : orderSet s.db o v f = db₁.setOrder o fun r => r.write v f) :
    Meets caps s (.orderSet f o v) := by
  -- A write touches the payload of the row only, none of its links and flags.
  have hw : ∀ r : Order, r.write v f = { r with
      id := (r.write v f).id, account_id := (r.write v f).account_id, side := (r.write v f).side
      stp_mode := (r.write v f).stp_mode, price := (r.write v f).price, qty := (r.write v f).qty
      remaining_qty := (r.write v f).remaining_qty } := fun r => by cases f <;> rfl
  have hrow : ∀ r : Order, (r.write v f).row = r.row.set v f := fun r => by cases f <;> rfl
  have h₂ := h₁.setOrder (p := o) (f := fun r => r.write v f) hw fun hin => by
    rw [ho.hash.flag] at hin
    cases f with
    | id => rw [hid rfl] at hin; cases hin
    | account | side | stp_mode | price | qty | remaining => rfl
  have hview := h₁.view_setOrder h₂ (fun r => by rw [hw]) (fun r => by rw [hw])
    (by rw [ho.oPool.liveOrders]; exact hlive)
  rw [hrow, ho.row, h.view_queueOnly h₁ ho rfl, ← h.view_queue] at hview
  refine ⟨(), { s with db := db₁.setOrder o fun r => r.write v f }, ?_,
    hv.of_rep h₂ ho.oPool.total ho.lPool.total, (s.db.orders o).row, Rep.view_orders_eq hlive,
    (view_of_db hview).trans rfl⟩
  rw [← hexec]; rfl

/-- `ME_order_set_id` and the other writers of an order. -/
theorem meets_orderSet (hv : Valid caps s) {f : OrderField} {v : UInt64}
    (hpre : (Op.orderSet f o v).pre caps s.view) : Meets caps s (.orderSet f o v) := by
  obtain ⟨g, h⟩ := hv.rep
  obtain ⟨hlive, hid⟩ := hpre
  have hp := Rep.view_orders_isSome.mp hlive
  have hid' : f = .id → (s.db.orders o).ind_order_inhash = false := fun hf =>
    Bool.eq_false_iff.mpr fun hin => hid hf (h.mem_view_hash.mpr hin)
  have hrefl : QueueOnly s.db s.db := ⟨rfl, fun _ => rfl, fun _ => rfl⟩
  cases f with
  | id | account | side | stp_mode | price | qty => exact meets_write hv h hrefl h hp hid' rfl
  | remaining =>
    -- The adjustment of the owner's total writes a field that the view does not show.
    cases hown : (s.db.orders o).p_price_level with
    | none =>
      have hin := h.inlist_false hown
      exact meets_write hv h hrefl h hp hid' (by simp only [orderSet, orderSetRemaining, hin]; rfl)
    | some l =>
      have hin : (s.db.orders o).orders_inlist = true := by rw [h.queues.flag, hown]; rfl
      have ho : QueueOnly s.db (s.db.setLevel l fun w =>
        { w with total_qty := (w.total_qty - (s.db.orders o).remaining_qty) + v }) :=
        .setLevel fun _ => rfl
      refine meets_write hv h ho (h.of_queues (h.queues.congr (.of_level rfl rfl rfl rfl rfl))
        h.queue_live ho) hp hid' ?_
      simp only [orderSet, orderSetRemaining, hin, hown]
      rfl

/-- `ME_level_get_price`. -/
theorem meets_levelGetPrice (hv : Valid caps s) (hpre : (Op.levelGetPrice l).pre caps s.view) :
    Meets caps s (.levelGetPrice l) :=
  ⟨_, s, rfl, hv, rfl, Rep.view_levels_eq (Rep.view_levels_isSome.mp hpre)⟩

/-- `ME_level_get_count`. -/
theorem meets_levelGetCount (hv : Valid caps s) : Meets caps s (.levelGetCount l) := by
  obtain ⟨g, h⟩ := hv.rep
  refine ⟨_, s, rfl, hv, rfl, ?_⟩
  change (s.db.levels l).orders_n.toUInt64.toNat = (s.db.queueOf l).length
  rw [UInt32.toNat_toUInt64, h.queues.count, h.queueOf_eq]

/-- `ME_level_set_price`, of a level that is in no tree. -/
theorem meets_levelSetPrice (hv : Valid caps s) {v : UInt64}
    (hpre : (Op.levelSetPrice l v).pre caps s.view) : Meets caps s (.levelSetPrice l v) := by
  obtain ⟨g, h⟩ := hv.rep
  have hl := Rep.view_levels_isSome.mp hpre.1
  have hin := intree_false_of_view h hpre.2
  exact ⟨(), _, rfl, hv.of_rep (h.setLevelPrice hin v) rfl rfl,
    (view_of_db (h.view_setLevelPrice hin hl v)).trans rfl⟩

/-! ## Index -/

/-- `ME_hash_find`. -/
theorem meets_hashFind (hv : Valid caps s) {id : UInt64} : Meets caps s (.hashFind id) := by
  obtain ⟨g, h⟩ := hv.rep
  obtain ⟨r, hr⟩ : ∃ r, s.db.indOrderFind id = some r := ⟨_, h.indOrderFind_eq id⟩
  refine ⟨r, s, by simp only [exec, hr, Option.map_some], hv, rfl, ?_⟩
  cases r with
  | none =>
    intro o ho
    have hin := h.mem_view_hash.mp ho
    exact fun hid => h.indOrderFind_none hr o hin
      ((Rep.view_orderId (h.hash_live o hin)).symm.trans hid)
  | some o =>
    obtain ⟨hin, hid⟩ := h.indOrderFind_some hr
    exact ⟨h.mem_view_hash.mpr hin, (Rep.view_orderId (h.hash_live o hin)).trans hid⟩

/-- `ME_hash_insert`, of an order that is not indexed. It is refused when its id is. -/
theorem meets_hashInsert (hv : Valid caps s) (hpre : (Op.hashInsert o).pre caps s.view) :
    Meets caps s (.hashInsert o) := by
  obtain ⟨g, h⟩ := hv.rep
  have hlive := Rep.view_orders_isSome.mp hpre.1
  have hflag : (s.db.orders o).ind_order_inhash = false :=
    Bool.eq_false_iff.mpr fun hc => hpre.2 (h.mem_view_hash.mpr hc)
  -- The code looks the id up in the bucket, the contract in the whole index.
  by_cases hdup : ∃ q, (s.db.orders q).ind_order_inhash ∧ (s.db.orders q).id = (s.db.orders o).id
  · obtain ⟨q, hq, hid⟩ := hdup
    refine ⟨false, s, ?_, hv, ?_⟩
    · simp only [exec, h.indOrderInsertMaybe_dup hflag hq hid, Option.map_some]
    · refine (if_pos ⟨q, h.mem_view_hash.mpr hq, ?_⟩).mpr ⟨rfl, rfl⟩
      exact (Rep.view_orderId (h.hash_live q hq)).trans (hid.trans (Rep.view_orderId hlive).symm)
  · have hnew : ∀ q, (s.db.orders q).ind_order_inhash →
        (s.db.orders q).id ≠ (s.db.orders o).id := fun q hq hid => hdup ⟨q, hq, hid⟩
    have h' := h.indOrderLink hlive hflag hnew rfl
    have honly : HashOnly s.db (s.db.indOrderLink o _) := EngineDb.indOrderLink_only
      (EngineDb.hashOrderId (s.db.orders o).id)
    refine ⟨true, _, ?_, hv.of_rep h' honly.total honly.lPool.total, ?_⟩
    · simp only [exec, h.indOrderInsertMaybe_new hflag hnew, Option.map_some]
    · refine (if_neg ?_).mpr ⟨rfl, ?_⟩
      · rintro ⟨q, hq, hid⟩
        have hin := h.mem_view_hash.mp hq
        exact hnew q hin ((Rep.view_orderId (h.hash_live q hin)).symm.trans
          (hid.trans (Rep.view_orderId hlive)))
      · have hview := h.view_hashOnly h' honly rfl rfl
        rw [Rep.indOrderLink_flagged h hlive, ← h.view_hash] at hview
        exact (view_of_db hview).trans rfl

/-- `ME_hash_remove`. -/
theorem meets_hashRemove (hv : Valid caps s) (hpre : (Op.hashRemove o).pre caps s.view) :
    Meets caps s (.hashRemove o) := by
  obtain ⟨g, h⟩ := hv.rep
  obtain ⟨db', b, xs, hcode, h', honly, hflagged⟩ := h.indOrderRemove (h.mem_view_hash.mp hpre)
  refine ⟨(), _, ?_, hv.of_rep h' honly.total honly.lPool.total, ?_⟩
  · simp only [exec, hcode, Option.map_some]
  · have hview := h.view_hashOnly h' honly rfl rfl
    rw [hflagged, ← h.view_hash] at hview
    exact (view_of_db hview).trans rfl

/-! ## Queues -/

/-- A row in no queue of the view has no owner. -/
theorem owner_none_of_view (h : Rep s.db g) (hq : ¬ s.view.queued o) :
    (s.db.orders o).p_price_level = none := by
  rw [← Option.not_isSome_iff_eq_none]
  exact fun hc => hq (h.view_queued.mpr hc)

/-- `ME_queue_insert_tail`, of an order that is in no queue. -/
theorem meets_queueInsertTail (hv : Valid caps s) (hpre : (Op.queueInsertTail l o).pre caps s.view) :
    Meets caps s (.queueInsertTail l o) := by
  obtain ⟨g, h⟩ := hv.rep
  obtain ⟨hl, ho, hq⟩ := hpre
  have hown := owner_none_of_view h hq
  have h' := h.ordersInsertTail (Rep.view_orders_isSome.mp ho) (Rep.view_levels_isSome.mp hl) hown
  have honly := EngineDb.ordersInsertTail_only (l := l) (h.inlist_false hown)
  refine ⟨(), _, rfl, hv.of_rep h' honly.oPool.total honly.lPool.total, ?_⟩
  have hview := h.view_queueOnly h' honly rfl
  rw [← h.view_queue] at hview
  exact (view_of_db hview).trans rfl

/-- `ME_queue_remove`. -/
theorem meets_queueRemove (hv : Valid caps s) (hpre : (Op.queueRemove l o).pre caps s.view) :
    Meets caps s (.queueRemove l o) := by
  obtain ⟨g, h⟩ := hv.rep
  obtain ⟨h', honly⟩ := h.ordersRemove (l := l) (p := o) (by rw [← h.queueOf_eq]; exact hpre)
  refine ⟨(), _, rfl, hv.of_rep h' honly.oPool.total honly.lPool.total, ?_⟩
  have hview := h.view_queueOnly h' honly rfl
  rw [← h.view_queue] at hview
  exact (view_of_db hview).trans rfl

/-- `ME_queue_first`. -/
theorem meets_queueFirst (hv : Valid caps s) : Meets caps s (.queueFirst l) := by
  obtain ⟨g, h⟩ := hv.rep
  refine ⟨_, s, rfl, hv, rfl, ?_⟩
  change (s.db.levels l).orders_head = (s.db.queueOf l).head?
  rw [h.queueOf_eq]
  exact (h.queues.linked l).fwd.start_eq

/-- What comes after an element is the head of what is behind it. -/
theorem nextIn_append {x : OrderH} {as bs : List OrderH} (hx : x ∉ as) :
    nextIn (as ++ x :: bs) x = bs.head? := by
  induction as with
  | nil => rw [List.nil_append, nextIn, if_pos rfl]
  | cons a as ih =>
    rw [List.mem_cons, not_or] at hx
    rw [List.cons_append, nextIn, if_neg (Ne.symm hx.1)]
    exact ih hx.2

/-- `ME_queue_next`. -/
theorem meets_queueNext (hv : Valid caps s) (hpre : (Op.queueNext o).pre caps s.view) :
    Meets caps s (.queueNext o) := by
  obtain ⟨g, h⟩ := hv.rep
  obtain ⟨l, hl⟩ := hpre
  refine ⟨_, s, rfl, hv, rfl, l, hl, ?_⟩
  change o ∈ s.db.queueOf l at hl
  change (s.db.orders o).orders_next = nextIn (s.db.queueOf l) o
  rw [h.queueOf_eq] at hl ⊢
  obtain ⟨as, bs, heq, hnd, hnext, -⟩ := h.exists_queue_split hl
  rw [List.nodup_append] at hnd
  rw [heq, nextIn_append fun hm => hnd.2.2 o hm o List.mem_cons_self rfl, hnext]

/-- `ME_order_owner`. -/
theorem meets_orderOwner (hv : Valid caps s) : Meets caps s (.orderOwner o) := by
  obtain ⟨g, h⟩ := hv.rep
  refine ⟨_, s, rfl, hv, rfl, ?_⟩
  cases hown : (s.db.orders o).p_price_level with
  | none =>
    -- No level: the flag is off, and the row is in no queue of the store.
    simp only [h.inlist_false hown, Bool.false_eq_true, if_false]
    exact fun hq => by
      have := h.view_queued.mp hq
      rw [hown] at this; cases this
  | some l =>
    -- The flag is on exactly where a level is set, so the row is in that level's queue.
    have hin : (s.db.orders o).orders_inlist := by rw [h.queues.flag, hown]; rfl
    simp only [hin, if_true]
    change o ∈ s.db.queueOf l
    rw [h.queueOf_eq, h.queues.mem, hown]

/-! ## Trees -/

/-- `ME_bids_find` and `ME_asks_find`. -/
theorem meets_treeFind (hv : Valid caps s) {t : Tree} {price : UInt64} :
    Meets caps s (.treeFind t price) := by
  obtain ⟨g, h⟩ := hv.rep
  obtain ⟨r, hr, hspec⟩ := h.findIn t price
  refine ⟨r, s, by simp only [exec, hr, Option.map_some], hv, rfl, ?_⟩
  cases r with
  | none =>
    intro l hl
    have hm := h.mem_tree.mp hl
    exact fun hp => hspec l hm ((Rep.view_levelPrice (h.tree_live t l hm)).symm.trans hp)
  | some l =>
    exact ⟨h.mem_tree.mpr hspec.1,
      (Rep.view_levelPrice (h.tree_live t l hspec.1)).trans hspec.2⟩

/-- A tree of the shape replaced, seen in the view. -/
theorem tree_update {t : Tree} {u : BinaryTree LevelPtr} (xs : Finset LevelPtr)
    (hu : (inorder u).toFinset = xs) (f : Tree → BinaryTree LevelPtr) :
    (fun t' => (inorder (Function.update f t u t')).toFinset) =
      Function.update (fun t' => (inorder (f t')).toFinset) t xs := by
  funext t'
  rw [Function.update_apply, Function.update_apply]
  split
  · exact hu
  · rfl

/-- `ME_bids_insert` and `ME_asks_insert`, of a level with a new price. -/
theorem meets_treeInsert (hv : Valid caps s) {t : Tree} (hpre : (Op.treeInsert t l).pre caps s.view) :
    Meets caps s (.treeInsert t l) := by
  obtain ⟨g, h⟩ := hv.rep
  obtain ⟨hlive, ht, hnew⟩ := hpre
  have hl := Rep.view_levels_isSome.mp hlive
  have hin := intree_false_of_view h ht
  obtain ⟨db', u, as, bs, hcode, honly, h', hsplit, hu⟩ := h.insertIn t hl hin fun m hm hp => by
    -- No level of the tree has the price, by the precondition.
    refine hnew m (h.mem_tree.mpr hm) ?_
    exact (Rep.view_levelPrice (h.tree_live t m hm)).trans (hp.trans (Rep.view_levelPrice hl).symm)
  refine ⟨(), _, ?_, hv.of_rep h' honly.oPool.total honly.lPool.total, ?_⟩
  · simp only [exec, hcode, Option.map_some]
  · have hview := h.view_treeOnly h' honly rfl
    rw [tree_update (insert l (inorder (g.tree t)).toFinset) (by
      ext z; rw [hu, hsplit]; simp), ← h.view_tree, ← congrFun h.view_tree t] at hview
    exact (view_of_db hview).trans rfl

/-- `ME_bids_remove` and `ME_asks_remove`. -/
theorem meets_treeRemove (hv : Valid caps s) {t : Tree} (hpre : (Op.treeRemove t l).pre caps s.view) :
    Meets caps s (.treeRemove t l) := by
  obtain ⟨g, h⟩ := hv.rep
  obtain ⟨db', u, hcode, honly, h', hu⟩ := h.removeFrom t (h.mem_tree.mp hpre)
  refine ⟨(), _, ?_, hv.of_rep h' honly.oPool.total honly.lPool.total, ?_⟩
  · simp only [exec, hcode, Option.map_some]
  · have hview := h.view_treeOnly h' honly rfl
    rw [tree_update ((inorder (g.tree t)).toFinset.erase l) (by
      ext z
      rw [hu, List.mem_toFinset, (h.tree_nodup t).mem_erase_iff, Finset.mem_erase,
        List.mem_toFinset]), ← h.view_tree, ← congrFun h.view_tree t] at hview
    exact (view_of_db hview).trans rfl

/-- `EngineDb_*_Best` returns a level with the best price of the tree. -/
theorem meets_treeBest (hv : Valid caps s) {t : Tree} : Meets caps s (.treeBest t) := by
  obtain ⟨g, h⟩ := hv.rep
  have hbest := h.bestOf_eq t
  have hmeets : ∀ r, s.db.bestOf t = some r → (Op.treeBest t).post caps s.view r s.view →
      Meets caps s (.treeBest t) :=
    fun r hr hpost => ⟨r, s, by simp only [exec, hr, Option.map_some], hv, hpost⟩
  refine hmeets _ hbest ⟨rfl, ?_⟩
  have hs := h.trees.sorted t
  have hprice : ∀ m ∈ inorder (g.tree t), s.view.levelPrice m = (s.db.levels m).price := fun m hm =>
    Rep.view_levelPrice (h.tree_live t m hm)
  have hmem : ∀ m, m ∈ s.view.tree t ↔ m ∈ inorder (g.tree t) := fun m => h.mem_tree
  -- The best bid is the last node in order, and the best ask the first.
  cases t with
  | bids =>
    rcases List.eq_nil_or_concat (inorder (g.tree .bids)) with hnil | ⟨init, l, heq⟩
    · rw [hnil]
      exact Finset.eq_empty_of_forall_notMem fun m hm => by
        have := (hmem m).mp hm; rw [hnil] at this; cases this
    · rw [List.concat_eq_append] at heq
      rw [heq] at hs hprice hmem ⊢
      rw [List.getLast?_concat]
      rw [List.pairwise_append] at hs
      refine ⟨(hmem l).mpr (by simp), fun m hm => ?_⟩
      have hm' := (hmem m).mp hm
      rw [hprice l (by simp), hprice m hm']
      change (s.db.levels m).price ≤ (s.db.levels l).price
      rcases List.mem_append.mp hm' with hmi | hml
      · exact UInt64.le_of_lt (hs.2.2 m hmi l (by simp))
      · rw [List.mem_singleton.mp hml]; exact UInt64.le_refl _
  | asks =>
    cases heq : inorder (g.tree .asks) with
    | nil =>
      exact Finset.eq_empty_of_forall_notMem fun m hm => by
        have := (hmem m).mp hm; rw [heq] at this; cases this
    | cons l rest =>
      rw [heq] at hs hprice hmem
      rw [List.pairwise_cons] at hs
      refine ⟨(hmem l).mpr (by simp), fun m hm => ?_⟩
      have hm' := (hmem m).mp hm
      rw [hprice l (by simp), hprice m hm']
      change (s.db.levels l).price ≤ (s.db.levels m).price
      rcases List.mem_cons.mp hm' with rfl | hmr
      · exact UInt64.le_refl _
      · exact UInt64.le_of_lt (hs.1 m hmr)

/-! ## Trades -/

/-- `ME_trade_reset`. -/
theorem meets_tradeReset (hv : Valid caps s) : Meets caps s .tradeReset :=
  ⟨(), _, rfl, ⟨hv.rep, hv.cap_eq, hv.orders_le, hv.levels_eq⟩, rfl⟩

/-- A trade put behind the others in the buffer. -/
theorem tradeList_emit (hn : s.g_ntrades.toNat + 1 < 2^64) (r : TradeRow) :
    ({ s with
      g_trades := Function.update s.g_trades s.g_ntrades.toNat r
      g_ntrades := s.g_ntrades + 1 } : Adapter).tradeList = s.tradeList ++ [r] := by
  have h1 : (1 : UInt64).toNat = 1 := rfl
  have hadd : (s.g_ntrades + 1).toNat = s.g_ntrades.toNat + 1 := by
    rw [UInt64.toNat_add, h1]
    omega
  unfold tradeList
  dsimp only
  rw [hadd, List.range_succ, List.map_append, List.map_singleton, Function.update_self]
  refine congrArg (· ++ [r]) (List.map_congr_left fun i hi => Function.update_of_ne ?_ _ _)
  exact (List.mem_range.mp hi).ne

/-- `ME_trade_emit`, while the buffer has room. -/
theorem meets_tradeEmit (hv : Valid caps s) {m t p q : UInt64}
    (hpre : (Op.tradeEmit m t p q).pre caps s.view) : Meets caps s (.tradeEmit m t p q) := by
  obtain ⟨g, h⟩ := hv.rep
  have hbound := h.oPool.bound
  have hcap := hv.orders_le
  change caps.orders ≤ s.db.order_pool_total_allocated.toNat at hcap
  change s.tradeList.length ≤ caps.orders at hpre
  rw [length_tradeList] at hpre
  have hroom : ¬ s.g_ntrades > s.g_cap := by
    rw [gt_iff_lt, UInt64.lt_iff_toNat_lt, hv.cap_eq]; omega
  refine ⟨(), _, if_neg hroom, ⟨hv.rep, hv.cap_eq, hv.orders_le, hv.levels_eq⟩, ?_⟩
  exact congrArg (fun ts => ({ s.db.view with trades := ts } : Db)) (tradeList_emit (by omega) _)

/-- Within its precondition every operation of the adapter returns, stays valid, and meets its
postcondition. -/
theorem law (hv : Valid caps s) {α : Type} (op : Op α)
    (hpre : op.pre caps s.view) : Meets caps s op := by
  cases op with
  | capacity => exact ⟨_, s, rfl, hv, hv.cap_eq, rfl⟩
  | orderCount =>
    obtain ⟨g, h⟩ := hv.rep
    exact ⟨_, s, rfl, hv, h.card_liveOrders.symm, rfl⟩
  | tradeReset => exact meets_tradeReset hv
  | tradeEmit m t p q => exact meets_tradeEmit hv hpre
  | orderAlloc => exact meets_orderAlloc hv
  | orderFree o => exact meets_orderFree hv hpre
  | levelAlloc => exact meets_levelAlloc hv
  | levelFree l => exact meets_levelFree hv hpre
  | orderGet f o => exact meets_orderGet hv hpre
  | orderSet f o v => exact meets_orderSet hv hpre
  | levelGetPrice l => exact meets_levelGetPrice hv hpre
  | levelGetCount l => exact meets_levelGetCount hv
  | levelSetPrice l v => exact meets_levelSetPrice hv hpre
  | hashFind id => exact meets_hashFind hv
  | hashInsert o => exact meets_hashInsert hv hpre
  | hashRemove o => exact meets_hashRemove hv hpre
  | queueInsertTail l o => exact meets_queueInsertTail hv hpre
  | queueRemove l o => exact meets_queueRemove hv hpre
  | queueFirst l => exact meets_queueFirst hv
  | queueNext o => exact meets_queueNext hv hpre
  | orderOwner o => exact meets_orderOwner hv
  | treeFind t price => exact meets_treeFind hv
  | treeInsert t l => exact meets_treeInsert hv hpre
  | treeRemove t l => exact meets_treeRemove hv hpre
  | treeBest t => exact meets_treeBest hv

end Law

/-! ## Runs -/

/-- A heap in order stands for a well-formed store. -/
theorem wf {s : Adapter} {g : Shape} (h : Rep s.db g) : s.view.WF :=
  let hw := h.view_wf
  ⟨hw.queue_live, hw.queue_nodup, hw.queue_unique, hw.hash_live, hw.hash_ids, hw.tree_live,
    hw.tree_disjoint, hw.tree_prices, hw.orders_live, hw.levels_live⟩

/-- After the reservation, the order pool has the capacity. -/
theorem reserveOrders_eq {db db' : EngineDb} {xs ys : List ℕ} {c : Bool} {capacity : UInt64}
    (hcap : capacity.toNat < 2^32)
    (h : Rep db ⟨xs, ys, fun _ => [], fun _ => [], fun _ => .nil⟩)
    (hdb : reserveOrders db c capacity = some db') :
    (∃ xs', Rep db' ⟨xs', ys, fun _ => [], fun _ => [], fun _ => .nil⟩) ∧
      capacity.toNat ≤ db'.orderRows ∧ db'.order_pool_n = db.order_pool_n ∧
      db'.level_pool_n = db.level_pool_n := by
  rw [reserveOrders] at hdb
  split at hdb
  -- Fewer rows than asked for: one chunk with the missing ones, unless `calloc` fails.
  · rename_i hlt
    have hle := UInt64.le_of_lt hlt
    have hsub := UInt64.toNat_sub_of_le _ _ hle
    have hle' := UInt64.le_iff_toNat_le.mp hle
    simp only at hdb
    split at hdb
    · cases hdb
    · rename_i hn
      cases hdb
      have htotal := EngineDb.orderPoolReserveMem_total hn
      obtain ⟨xs', h'⟩ := h.orderPoolReserveMem c (capacity - db.order_pool_total_allocated)
        (by rw [hsub]; omega)
      refine ⟨⟨xs', h'⟩, ?_, ?_, ?_⟩
      · rw [EngineDb.orderRows, htotal, UInt64.toNat_add, hsub]
        omega
      · rw [EngineDb.orderPoolReserveMem_eq]
      · rw [EngineDb.orderPoolReserveMem_eq]
  -- Enough rows at once.
  · rename_i hlt
    cases hdb
    rw [UInt64.lt_iff_toNat_lt] at hlt
    exact ⟨⟨xs, h⟩, Nat.not_lt.mp hlt, rfl, rfl⟩

/-- After the reservation, the level pool has the capacity. -/
theorem reserveLevels_eq {db db' : EngineDb} {xs ys : List ℕ} {c : Bool} {capacity : UInt64}
    (hcap : capacity.toNat < 2^32)
    (h : Rep db ⟨xs, ys, fun _ => [], fun _ => [], fun _ => .nil⟩)
    (hdb : reserveLevels db c capacity = some db') :
    (∃ ys', Rep db' ⟨xs, ys', fun _ => [], fun _ => [], fun _ => .nil⟩) ∧
      capacity.toNat ≤ db'.levelRows ∧ db'.orderRows = db.orderRows ∧
      db'.order_pool_n = db.order_pool_n ∧ db'.level_pool_n = db.level_pool_n := by
  rw [reserveLevels] at hdb
  split at hdb
  -- Fewer rows than asked for: one chunk with the missing ones, unless `calloc` fails.
  · rename_i hlt
    have hle := UInt64.le_of_lt hlt
    have hsub := UInt64.toNat_sub_of_le _ _ hle
    have hle' := UInt64.le_iff_toNat_le.mp hle
    simp only at hdb
    split at hdb
    · cases hdb
    · rename_i hn
      cases hdb
      have htotal := EngineDb.levelPoolReserveMem_total hn
      obtain ⟨ys', h'⟩ := h.levelPoolReserveMem c (capacity - db.level_pool_total_allocated)
        (by rw [hsub]; omega)
      refine ⟨⟨ys', h'⟩, ?_, ?_, ?_, ?_⟩
      · rw [EngineDb.levelRows, htotal, UInt64.toNat_add, hsub]
        omega
      · rw [EngineDb.levelPoolReserveMem_eq]; rfl
      · rw [EngineDb.levelPoolReserveMem_eq]
      · rw [EngineDb.levelPoolReserveMem_eq]
  -- Enough rows at once.
  · rename_i hlt
    cases hdb
    rw [UInt64.lt_iff_toNat_lt] at hlt
    exact ⟨⟨ys, h⟩, Nat.not_lt.mp hlt, rfl, rfl, rfl⟩

/-- The heap that `ME_adapter_init` leaves is in order, empty, and large enough. -/
theorem valid_init {calloc : AdapterCalloc} {capacity : UInt64} {s : Adapter}
    (hcap : capacity.toNat < 2^32) (hs : init calloc capacity = some s) :
    Valid (.uniform capacity.toNat) s ∧ s.view = Db.empty := by
  simp only [init, Option.bind_eq_bind, Option.bind_eq_some_iff] at hs
  obtain ⟨db₁, h₁, db₂, h₂, hs⟩ := hs
  split at hs
  · cases hs
    -- The pools are filled one after the other, on a heap with nothing in use.
    obtain ⟨xs, ys, h₀⟩ := Rep.init calloc.toCalloc
    obtain ⟨⟨xs', hrep₁⟩, hrows, hn₁, hm₁⟩ := reserveOrders_eq hcap h₀ h₁
    obtain ⟨⟨ys', hrep₂⟩, hlevels, horders, hn₂, hm₂⟩ := reserveLevels_eq hcap hrep₁ h₂
    refine ⟨⟨⟨_, hrep₂⟩, rfl, by rw [horders]; exact hrows, (min_eq_left hlevels).symm⟩, ?_⟩
    have hview := hrep₂.view_empty (by rw [hn₂, hn₁, EngineDb.init_order_pool_n])
      (by rw [hm₂, hm₁, EngineDb.init_level_pool_n])
    change ({ db₂.view with trades := [] } : Db) = _
    rw [hview]; rfl
  · cases hs

/-- The states that a run of calls from `s₀` reaches, each within its precondition. -/
inductive Reach (caps : Caps) (s₀ : Adapter) : Adapter → Prop where
  | init : Reach caps s₀ s₀
  | call {s s' : Adapter} {α : Type} (op : Op α) (r : α) (h : Reach caps s₀ s)
      (hpre : op.pre caps s.view) (hexec : exec s op = some (r, s')) : Reach caps s₀ s'

/-- Every state of a run is valid. -/
theorem Reach.valid {caps : Caps} {s₀ s : Adapter} (h₀ : Valid caps s₀)
    (h : Reach caps s₀ s) : Valid caps s := by
  induction h with
  | init => exact h₀
  | call op r _ hpre hexec ih =>
    obtain ⟨r', s'', hexec', hv, -⟩ := law ih op hpre
    rw [hexec] at hexec'
    cases hexec'
    exact hv

/-- The adapter as a storage layer, with the same capacity for orders and levels. -/
def store {calloc : AdapterCalloc} {capacity : UInt64} {s₀ : Adapter}
    (hcap : capacity.toNat < 2^32) (hs : init calloc capacity = some s₀) :
    Store (.uniform capacity.toNat) Adapter where
  exec op s := s.exec op
  init := s₀
  view := view
  valid := Valid (.uniform capacity.toNat)
  valid_init := (valid_init hcap hs).1
  view_init := (valid_init hcap hs).2
  wf _ hv := hv.rep.elim fun _ h => wf h
  law _ op hv hpre := law hv op hpre

/-- No operation reserves order rows. -/
theorem exec_rows {s s' : Adapter} {α : Type} {op : Op α} {r : α} (h : s.exec op = some (r, s')) :
    s'.db.orderRows = s.db.orderRows ∧ s'.g_cap = s.g_cap := by
  cases op with
  -- Reads and writes of the rows that are there.
  | capacity | orderCount | tradeReset | orderFree | levelFree | orderGet | levelGetPrice
  | levelGetCount | levelSetPrice | queueFirst | queueNext | orderOwner =>
    cases h
    exact ⟨rfl, rfl⟩
  | queueInsertTail | queueRemove =>
    cases h
    exact ⟨by simp, rfl⟩
  | tradeEmit =>
    simp only [exec] at h
    split at h <;> cases h
    exact ⟨rfl, rfl⟩
  -- A row leaves the free list, and the total stays.
  | orderAlloc =>
    simp only [exec] at h
    split at h
    · cases h
      exact ⟨rfl, rfl⟩
    · cases h
      refine ⟨?_, rfl⟩
      unfold EngineDb.orderPoolAlloc
      split <;> rfl
  | levelAlloc =>
    simp only [exec] at h
    split at h
    · cases h
      exact ⟨rfl, rfl⟩
    · cases h
      refine ⟨?_, rfl⟩
      unfold EngineDb.levelPoolAlloc
      split <;> rfl
  | orderSet f o v =>
    cases h
    refine ⟨?_, rfl⟩
    cases f with
    | remaining =>
      unfold orderSet orderSetRemaining
      dsimp only
      split <;> rfl
    | _ => rfl
  -- The walks leave the heap alone.
  | hashFind | treeFind | treeBest =>
    simp only [exec] at h
    obtain ⟨_, -, h⟩ := Option.map_eq_some_iff.mp h
    cases h
    exact ⟨rfl, rfl⟩
  | hashInsert =>
    simp only [exec] at h
    obtain ⟨_, hr, h⟩ := Option.map_eq_some_iff.mp h
    cases h
    exact ⟨congrArg UInt64.toNat (EngineDb.indOrderInsertMaybe_only hr).total, rfl⟩
  | hashRemove =>
    simp only [exec] at h
    obtain ⟨_, hr, h⟩ := Option.map_eq_some_iff.mp h
    cases h
    exact ⟨congrArg UInt64.toNat (EngineDb.indOrderRemove_only hr).total, rfl⟩
  | treeInsert =>
    simp only [exec] at h
    obtain ⟨_, hr, h⟩ := Option.map_eq_some_iff.mp h
    cases h
    exact ⟨EngineDb.insertIn_rows hr, rfl⟩
  | treeRemove =>
    simp only [exec] at h
    obtain ⟨_, hr, h⟩ := Option.map_eq_some_iff.mp h
    cases h
    exact ⟨EngineDb.removeFrom_rows hr, rfl⟩

end Adapter

/-- The data layer with the adapter implements the storage contract: after `ME_adapter_init` with a
capacity below `2^32`, every call within its precondition returns and meets its postcondition, on a
heap that is in order and stands for a well-formed store, and moves the numbers of live rows by its
deltas. -/
theorem adapter_implements_contract {calloc : AdapterCalloc} {capacity : UInt64} {s₀ s : Adapter}
    (hcap : capacity.toNat < 2^32) (hinit : Adapter.init calloc capacity = some s₀)
    (hreach : Adapter.Reach (.uniform capacity.toNat) s₀ s) :
    s₀.view = Db.empty ∧ (∃ g, Rep s.db g) ∧ s.view.WF ∧
      ∀ {α : Type} (op : Op α), op.pre (.uniform capacity.toNat) s.view →
        ∃ r s', s.exec op = some (r, s') ∧ op.post (.uniform capacity.toNat) s.view r s'.view ∧
          (s'.view.oLive.card : ℤ) = s.view.oLive.card + op.orderDelta r ∧
          (s'.view.lLive.card : ℤ) = s.view.lLive.card + op.levelDelta r := by
  obtain ⟨h₀, hempty⟩ := Adapter.valid_init hcap hinit
  have hv := hreach.valid h₀
  obtain ⟨g, h⟩ := hv.rep
  have hwf : s.view.WF := Adapter.wf h
  refine ⟨hempty, ⟨g, h⟩, hwf, fun op hpre => ?_⟩
  obtain ⟨r, s', hexec, -, hpost⟩ := Adapter.law hv op hpre
  exact ⟨r, s', hexec, hpost, op.post_orders_card hwf hpre hpost, op.post_levels_card hwf hpre hpost⟩

end MatchingEngine.C
