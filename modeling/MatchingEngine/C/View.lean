import MatchingEngine.C.HashOps
import MatchingEngine.C.QueueOps
import MatchingEngine.C.TreeOps

/-!
# The view after an operation

What each operation of the data layer does to the abstract store that the heap stands for. An
operation on one of the structures changes one component of the store, and writing a payload field
changes one row.

The view of a heap has the payload of the live rows, the queues, the hashed rows, and the levels of
the trees, and nothing of the links, the flags, and the free lists. So an operation that only moves
links shows as a change of one component (`view_queueOnly`, `view_hashOnly`, `view_treeOnly`), and
handing out or taking back a row as a change of the live rows.
-/

namespace MatchingEngine.C

open Lib Contract

variable {db db' : EngineDb} {g g' : Shape} {p : OrderPtr} {l : LevelPtr} {rest : List ℕ}

namespace Rep

/-- The view by shape, live rows, and flags. -/
theorem view_eq (h : Rep db g) : db.view =
    { orders := fun p => if p ∈ db.liveOrders then some (db.orders p).row else none
      levels := fun l => if l ∈ db.liveLevels then some ⟨(db.levels l).price⟩ else none
      queue := g.queue
      hash := db.flagged
      tree := fun t => (inorder (g.tree t)).toFinset
      oLive := db.liveOrders
      lLive := db.liveLevels
      trades := [] } :=
  Db.ext rfl rfl h.view_queue h.view_hash h.view_tree rfl rfl rfl

/-- The flag of a row says whether the view has it hashed. -/
theorem mem_view_hash (h : Rep db g) : p ∈ db.view.hash ↔ (db.orders p).ind_order_inhash :=
  h.mem_hashed

/-- The view after an operation on the queues. -/
theorem view_queueOnly (h : Rep db g) (h' : Rep db' g') (ho : QueueOnly db db')
    (ht : g'.tree = g.tree) : db'.view = { db.view with queue := g'.queue } := by
  rw [h'.view_eq, h.view_eq]
  simp only [ho.oPool.liveOrders, ho.lPool.liveLevels, ho.row, ho.price, ht,
    ho.hash.flagged ho.oPool.total]

/-- The view after an operation on the index. -/
theorem view_hashOnly (h : Rep db g) (h' : Rep db' g') (ho : HashOnly db db')
    (hq : g'.queue = g.queue) (ht : g'.tree = g.tree) :
    db'.view = { db.view with hash := db'.flagged } := by
  rw [h'.view_eq, h.view_eq]
  simp only [ho.oPool.liveOrders, ho.lPool.liveLevels, ho.row, ho.levels, hq, ht]

/-- The view after an operation on the trees. -/
theorem view_treeOnly (h : Rep db g) (h' : Rep db' g') (ho : TreeOnly db db')
    (hq : g'.queue = g.queue) :
    db'.view = { db.view with tree := fun t => (inorder (g'.tree t)).toFinset } := by
  rw [h'.view_eq, h.view_eq]
  simp only [ho.oPool.liveOrders, ho.lPool.liveLevels, ho.orders, ho.price, hq,
    ho.hash.flagged ho.oPool.total]

/-! ## Allocation -/

/-- The order rows that the view shows after one is allocated. -/
theorem view_takeOrder (h : Rep db g) (hf : g.oFree = p :: rest) :
    (db.takeOrder p).view = { db.view with
      orders := Function.update db.view.orders p (some (db.orders p).row)
      oLive := insert p db.view.oLive } := by
  have h' := h.takeOrder hf
  -- Taking a row off the free list writes its link and its index flag, which no view shows.
  have hrow : ∀ q, ((db.takeOrder p).orders q).row = (db.orders q).row := fun q => by
    simp only [EngineDb.takeOrder, EngineDb.setOrder_orders_apply]
    split
    · subst_vars; rfl
    · rfl
  -- The flag that is cleared was clear, as the row was dead.
  have hflag : (db.takeOrder p).flagged = db.flagged := by
    refine Finset.filter_congr fun q _ => ?_
    simp only [EngineDb.takeOrder, EngineDb.setOrder_orders_apply]
    split
    · subst_vars; simp [h.inhash_false (h.head_not_live hf)]
    · rfl
  rw [h'.view_eq, h.view_eq]
  simp only [Db.mk.injEq, h.takeOrder_liveOrders hf, hrow, hflag, true_and, and_true]
  refine ⟨funext fun q => ?_, rfl, rfl⟩
  by_cases hq : q = p <;> simp [hq]

/-- The order rows that the view shows after one is freed. -/
theorem view_orderPoolFree (h : Rep db g) (hp : p ∈ db.liveOrders)
    (hown : (db.orders p).p_price_level = none) (hhash : (db.orders p).ind_order_inhash = false) :
    (db.orderPoolFree p).view = { db.view with
      orders := Function.update db.view.orders p none
      oLive := db.view.oLive.erase p } := by
  have h' := h.orderPoolFree hp hown hhash
  -- Freeing a row writes its free link only.
  have hrow : ∀ q, ((db.orderPoolFree p).orders q).row = (db.orders q).row := fun q => by
    simp only [EngineDb.orderPoolFree, EngineDb.setOrder_orders_apply]
    split
    · subst_vars; rfl
    · rfl
  have hflag : (db.orderPoolFree p).flagged = db.flagged := by
    refine Finset.filter_congr fun q _ => ?_
    simp only [EngineDb.orderPoolFree, EngineDb.setOrder_orders_apply]
    split
    · subst_vars; rfl
    · rfl
  rw [h'.view_eq, h.view_eq]
  simp only [Db.mk.injEq, h.orderPoolFree_liveOrders hp, hrow, hflag, true_and, and_true]
  refine ⟨funext fun q => ?_, rfl, rfl⟩
  by_cases hq : q = p <;> simp [hq]

/-- The levels that the view shows after one is allocated. -/
theorem view_takeLevel (h : Rep db g) (hf : g.lFree = l :: rest) :
    (db.takeLevel l).view = { db.view with
      levels := Function.update db.view.levels l (some ⟨(db.levels l).price⟩)
      lLive := insert l db.view.lLive } := by
  have h' := h.takeLevel hf
  have hprice : ∀ m, ((db.takeLevel l).levels m).price = (db.levels m).price := fun m => by
    simp only [EngineDb.takeLevel, EngineDb.setLevel_levels_apply]
    split
    · subst_vars; rfl
    · rfl
  rw [h'.view_eq, h.view_eq]
  simp only [Db.mk.injEq, h.takeLevel_liveLevels hf, hprice, true_and, and_true]
  refine ⟨rfl, funext fun m => ?_, rfl, rfl⟩
  by_cases hm : m = l <;> simp [hm]

/-- The levels that the view shows after one is freed. -/
theorem view_levelPoolFree (h : Rep db g) (hl : l ∈ db.liveLevels) (hq : g.queue l = [])
    (ht : (db.levels l).tree_intree = false) :
    (db.levelPoolFree l).view = { db.view with
      levels := Function.update db.view.levels l none
      lLive := db.view.lLive.erase l } := by
  have h' := h.levelPoolFree hl hq ht
  have hprice : ∀ m, ((db.levelPoolFree l).levels m).price = (db.levels m).price := fun m => by
    simp only [EngineDb.levelPoolFree, EngineDb.setLevel_levels_apply]
    split
    · subst_vars; rfl
    · rfl
  rw [h'.view_eq, h.view_eq]
  simp only [Db.mk.injEq, h.levelPoolFree_liveLevels hl, hprice, true_and, and_true]
  refine ⟨rfl, funext fun m => ?_, rfl, rfl⟩
  by_cases hm : m = l <;> simp [hm]

/-! ## Payload -/

/-- Writing payload fields of an order keeps the heap in order, if a hashed order keeps its id. -/
theorem setOrder (h : Rep db g) {f : Order → Order}
    (hf : ∀ o, f o = { o with
      id := (f o).id, account_id := (f o).account_id, side := (f o).side
      stp_mode := (f o).stp_mode, price := (f o).price, qty := (f o).qty
      remaining_qty := (f o).remaining_qty })
    (hid : (db.orders p).ind_order_inhash → (f (db.orders p)).id = (db.orders p).id) :
    Rep (db.setOrder p f) g :=
  h.congr
    (.of_order rfl rfl (by rw [hf]) (by rw [hf]) fun _ => ⟨by rw [hf], by rw [hf]⟩)
    (.of_order rfl rfl rfl (by rw [hf]) fun hin => ⟨by rw [hf], hid hin⟩)
    (.of_levels rfl rfl rfl) (.of_order rfl rfl rfl rfl (by rw [hf]))
    ⟨fun _ => rfl, rfl, rfl, rfl⟩

/-- The view after payload fields of a live order are written. -/
theorem view_setOrder (h : Rep db g) {f : Order → Order} (h' : Rep (db.setOrder p f) g)
    (hfree : ∀ o, (f o).freenext = o.freenext)
    (hflag : ∀ o, (f o).ind_order_inhash = o.ind_order_inhash) (hp : p ∈ db.liveOrders) :
    (db.setOrder p f).view = { db.view with
      orders := Function.update db.view.orders p (some (f (db.orders p)).row) } := by
  have ho : SameOrderPool db (db.setOrder p f) := .of_order rfl rfl rfl rfl (hfree _)
  -- The write keeps the index flag.
  have hflagged : (db.setOrder p f).flagged = db.flagged := by
    refine Finset.filter_congr fun q _ => ?_
    rw [EngineDb.setOrder_orders_apply]
    split
    · subst_vars; rw [hflag]
    · rfl
  rw [h'.view_eq, h.view_eq]
  simp only [Db.mk.injEq, ho.liveOrders, hflagged, true_and, and_true]
  refine ⟨funext fun q => ?_, rfl, rfl⟩
  rw [Function.update_apply, EngineDb.setOrder_orders_apply]
  by_cases hq : q = p
  · rw [hq, if_pos hp, if_pos rfl, if_pos rfl]
  · rw [if_neg hq, if_neg hq]

/-- Writing the price of a level that is in no tree keeps the heap in order. -/
theorem setLevelPrice (h : Rep db g) (hl : (db.levels l).tree_intree = false) (v : UInt64) :
    Rep (db.setLevel l fun w => { w with price := v }) g :=
  h.congr (.of_level rfl rfl rfl rfl rfl) (.of_orders rfl rfl rfl)
    (.of_level rfl rfl rfl rfl fun hin => by rw [hl] at hin; cases hin)
    ⟨fun _ => rfl, rfl, rfl, rfl⟩ (.of_level rfl rfl rfl rfl rfl)

/-- The view after the price of a live level is written. -/
theorem view_setLevelPrice (h : Rep db g) (hin : (db.levels l).tree_intree = false)
    (hl : l ∈ db.liveLevels) (v : UInt64) :
    (db.setLevel l fun w => { w with price := v }).view = { db.view with
      levels := Function.update db.view.levels l (some ⟨v⟩) } := by
  have h' := h.setLevelPrice hin v
  have ho : SameLevelPool db (db.setLevel l fun w => { w with price := v }) :=
    .of_level rfl rfl rfl rfl rfl
  rw [h'.view_eq, h.view_eq]
  simp only [Db.mk.injEq, ho.liveLevels, true_and, and_true]
  refine ⟨rfl, funext fun m => ?_, rfl, rfl⟩
  rw [Function.update_apply, EngineDb.setLevel_levels_apply]
  by_cases hm : m = l
  · rw [hm, if_pos hl, if_pos rfl, if_pos rfl]
  · rw [if_neg hm, if_neg hm]

/-- A heap with nothing in it and no row in use stands for the empty store. -/
theorem view_empty {xs ys : List ℕ} (h : Rep db ⟨xs, ys, fun _ => [], fun _ => [], fun _ => .nil⟩)
    (hn : db.order_pool_n = 0) (hm : db.level_pool_n = 0) : db.view = Db.empty := by
  have ho : db.liveOrders = ∅ := Finset.card_eq_zero.mp (by rw [h.card_liveOrders, hn]; rfl)
  have hl : db.liveLevels = ∅ := Finset.card_eq_zero.mp (by rw [h.card_liveLevels, hm]; rfl)
  have hf : db.flagged = ∅ := by
    refine Finset.eq_empty_of_forall_notMem fun p hp => ?_
    have := h.hash_live p (Finset.mem_filter.mp hp).2
    rw [ho] at this
    exact Finset.notMem_empty p this
  rw [h.view_eq]
  simp [Db.empty, ho, hl, hf]

end Rep

end MatchingEngine.C
