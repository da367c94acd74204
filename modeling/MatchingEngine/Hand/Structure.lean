import MatchingEngine.Hand.Book

/-!
# The structures of the handwritten engine

What the calls of the handwritten engine keep of its heap, clause by clause: the price trees, the
queues, the index, and the counters agree with each other (`Sound`), and every row that the pools
have reserved is either free or linked (`Pooled`).

A `Layout` is what the links of a heap spell: the two trees, and the queue of each level. The
clauses of `Sound` are those of the shape that the heap has by `C/Rep.lean`, together with what the
invariant of the book says of the rows (`sound_layout`), and those of `Pooled` come from the free
lists (`pooled_layout`). `reach_sound` and `reach_pooled` say them of every state that calls reach.
-/

namespace MatchingEngine.Hand

open Contract Lib C Gen

/-- The trees and the queues that the links of a heap spell. -/
structure Layout where
  tree : Tree → BinaryTree LevelPtr
  queue : LevelPtr → List OrderPtr

namespace Layout

variable (y : Layout)

/-- The levels of a tree in ascending order of price. -/
def levels (t : Tree) : List LevelPtr := inorder (y.tree t)

/-- The order `p` rests at the level `l` of the tree `t`. -/
def Rests (t : Tree) (l : LevelPtr) (p : OrderPtr) : Prop := l ∈ y.levels t ∧ p ∈ y.queue l

/-- The resting orders. -/
def orders : List OrderPtr := (y.levels .bids ++ y.levels .asks).flatMap y.queue

/-- The orders of a layout are those that rest in it. -/
theorem mem_orders {p : OrderPtr} : p ∈ y.orders ↔ ∃ t l, y.Rests t l p := by
  unfold orders Rests
  rw [List.mem_flatMap]
  constructor
  · rintro ⟨l, hl, hp⟩
    rcases List.mem_append.mp hl with hl | hl
    · exact ⟨.bids, l, hl, hp⟩
    · exact ⟨.asks, l, hl, hp⟩
  · rintro ⟨t, l, hl, hp⟩
    refine ⟨l, List.mem_append.mpr ?_, hp⟩
    cases t
    · exact .inl hl
    · exact .inr hl

end Layout

/-- The heap is the book that it should be, with the layout `y`. -/
structure Sound (db : EngineDb) (y : Layout) : Prop where
  /-- The best bid is below the best ask. -/
  uncrossed : ∀ l m, db.bestOf .bids = some (some l) → db.bestOf .asks = some (some m) →
    (db.levels l).price < (db.levels m).price
  /-- The trees, with the links to the parents. -/
  linked : ∀ t, LinkedTree db.links (db.root t) none (y.tree t)
  sorted : ∀ t, (y.levels t).Pairwise fun l m => (db.levels l).price < (db.levels m).price
  intree : ∀ l, (db.levels l).tree_intree ↔ ∃ t, l ∈ y.levels t
  tree_count : ∀ t, (db.treeN t).toNat = (y.levels t).length
  disjoint : ∀ l, l ∈ y.levels .bids → l ∉ y.levels .asks
  nonempty : ∀ t, ∀ l ∈ y.levels t, y.queue l ≠ []
  /-- The queues, forwards and backwards. -/
  queue : ∀ l, Queue db.nextLink db.prevLink (db.levels l).orders_head (db.levels l).orders_tail
    (y.queue l)
  queue_count : ∀ l, (db.levels l).orders_n.toNat = (y.queue l).length
  row : ∀ t l p, y.Rests t l p → (db.orders p).price = (db.levels l).price ∧
    (db.orders p).side = t.code ∧ (db.orders p).p_price_level = some l ∧
    (db.orders p).orders_inlist ∧ (db.orders p).ind_order_inhash ∧
    0 < (db.orders p).remaining_qty ∧ (db.orders p).remaining_qty ≤ (db.orders p).qty
  nodup : y.orders.Nodup
  ids : ∀ p ∈ y.orders, ∀ q ∈ y.orders, (db.orders p).id = (db.orders q).id → p = q
  /-- The index finds the resting orders by their ids, and nothing else. -/
  find : ∀ id, ∃ r, db.indOrderFind id = some r ∧
    ∀ p, r = some p ↔ p ∈ y.orders ∧ (db.orders p).id = id
  order_count : db.order_pool_n.toNat = y.orders.length
  level_count : db.level_pool_n.toNat = (y.levels .bids).length + (y.levels .asks).length
  index_count : db.ind_order_n.toNat = y.orders.length

/-- Every row that the pools have reserved is free or linked, and not both: `xs` and `ys` are the
free lists, `queue` the queues, `bucket` the buckets of the index, and `tree` the trees. -/
structure Pooled (db : EngineDb) (xs ys : List ℕ) (queue : LevelPtr → List OrderPtr)
    (bucket : ℕ → List OrderPtr) (tree : Tree → BinaryTree LevelPtr) : Prop where
  order_free : Chain db.orderFreeLink db.order_pool_free xs
  level_free : Chain db.levelFreeLink db.level_pool_free ys
  order_nodup : xs.Nodup
  level_nodup : ys.Nodup
  queues : ∀ l, Queue db.nextLink db.prevLink (db.levels l).orders_head (db.levels l).orders_tail
    (queue l)
  buckets : ∀ b, Chain db.hashLink (db.ind_order_buckets b) (bucket b)
  trees : ∀ t, LinkedTree db.links (db.root t) none (tree t)
  order_lt : ∀ p ∈ xs, p < db.orderRows
  level_lt : ∀ l ∈ ys, l < db.levelRows
  order_unlinked : ∀ p ∈ xs, (∀ l, p ∉ queue l) ∧ ∀ b, p ∉ bucket b
  order_linked : ∀ p < db.orderRows, p ∉ xs → (∃! l, p ∈ queue l) ∧
    ∀ b, p ∈ bucket b ↔ b = EngineDb.hashOrderId (db.orders p).id
  level_unlinked : ∀ l ∈ ys, ∀ t, l ∉ inorder (tree t)
  level_linked : ∀ l < db.levelRows, l ∉ ys → ∃! t, l ∈ inorder (tree t)
  order_count : xs.length + db.order_pool_n.toNat = db.orderRows
  level_count : ys.length + db.level_pool_n.toNat = db.levelRows

/-! ## From the snapshot of a book -/

section Snapshot

variable {db : EngineDb} {g : Shape} {hs : Tree → List LevelH} {t : Tree} {l : LevelPtr}
  {p : OrderPtr}

/-- The layout of a shape. -/
def layoutOf (g : Shape) : Layout := ⟨g.tree, g.queue⟩

variable (h : Rep db g) (hlink : Linked db.view hs) (hinv : (db.view.book hs).Inv)

include h hlink

/-- The levels of a side of the layout are those of its tree. -/
theorem mem_levels : l ∈ (layoutOf g).levels t ↔ l ∈ hs t := by
  rw [← hlink.mem_tree]
  exact h.mem_tree.symm

/-- The levels of the trees, whatever their order. -/
theorem linked_layout : Linked db.view (layoutOf g).levels where
  wf := h.view_wf
  nodup t := h.tree_nodup t
  tree t := congrFun h.view_tree t
  queued o := by
    rw [hlink.queued]
    exact exists_congr fun t => exists_congr fun l =>
      and_congr_left fun _ => (mem_levels h hlink).symm
  hash := hlink.hash
  levels l := by
    rw [hlink.levels]
    exact exists_congr fun t => (mem_levels h hlink).symm

omit hlink in
/-- The orders of the layout, level by level. -/
theorem orders_layout : (layoutOf g).orders = Linked.handles db.view (layoutOf g).levels := by
  unfold Linked.handles Layout.orders
  rw [h.view_queue]
  rfl

/-- The resting orders are the live rows. -/
theorem mem_orders_layout : p ∈ (layoutOf g).orders ↔ p ∈ db.liveOrders := by
  rw [orders_layout h, (linked_layout h hlink).mem_handles]
  exact Iff.rfl

/-- A live order is indexed. -/
theorem inhash_of_live (hp : p ∈ db.liveOrders) : (db.orders p).ind_order_inhash := by
  have hlive : db.hashed = db.liveOrders := hlink.hash
  rw [← h.mem_hashed, hlive]
  exact hp

/-- The counter of the order pool counts the orders of the layout. -/
theorem length_orders_layout : (layoutOf g).orders.length = db.order_pool_n.toNat := by
  rw [orders_layout h, ← List.toFinset_card_of_nodup (linked_layout h hlink).handles_nodup,
    ← h.card_liveOrders]
  refine congrArg _ (Finset.ext fun p => ?_)
  rw [List.mem_toFinset, (linked_layout h hlink).mem_handles]
  exact Iff.rfl

/-- The counter of the level pool counts the levels of the layout. -/
theorem length_levels_layout : ((layoutOf g).levels .bids).length +
    ((layoutOf g).levels .asks).length = db.level_pool_n.toNat := by
  rw [← h.card_liveLevels]
  refine Eq.trans ?_ (linked_layout h hlink).card_levels.symm
  simp [Db.book]

include hinv

/-- The row of a resting order. -/
theorem row_layout (hrest : (layoutOf g).Rests t l p) :
    RowInv t (db.levels l).price (db.orders p).row := by
  obtain ⟨hl, hp⟩ := hrest
  have hmem := (mem_levels h hlink).mp hl
  have hlive := h.queue_live l p hp
  have hside := (hinv.side t).row (db.view.levelOf l) (by
    rw [Db.book_side]
    exact List.mem_map_of_mem hmem) (db.view.row p) (by
    refine List.mem_map_of_mem ?_
    rw [h.view_queue]
    exact hp)
  rw [Db.row_eq (Rep.view_orders_eq hlive.1)] at hside
  exact Rep.view_levelPrice hlive.2 ▸ hside

/-- A heap that holds a book is sound. -/
theorem sound_layout : Sound db (layoutOf g) where
  uncrossed l m hl hm := by
    rw [h.bestOf_eq] at hl hm
    have hl' := List.mem_of_getLast? (Option.some.inj hl)
    have hm' := List.mem_of_head? (Option.some.inj hm)
    have hlt := hinv.uncrossed (db.view.levelOf l) (List.mem_map_of_mem ((mem_levels h hlink).mp hl'))
      (db.view.levelOf m) (List.mem_map_of_mem ((mem_levels h hlink).mp hm'))
    rw [← Rep.view_levelPrice (h.tree_live _ l hl'), ← Rep.view_levelPrice (h.tree_live _ m hm')]
    exact hlt
  linked := h.trees.linked
  sorted := h.trees.sorted
  intree := h.trees.flag
  tree_count := h.trees.count
  disjoint := h.trees.disjoint
  nonempty t l hl hq := by
    refine (hinv.side t).nonempty (db.view.levelOf l) ?_ ?_
    · rw [Db.book_side]
      exact List.mem_map_of_mem ((mem_levels h hlink).mp hl)
    · unfold Db.levelOf
      rw [h.view_queue, show g.queue l = [] from hq]
      rfl
  queue := h.queues.linked
  queue_count := h.queues.count
  row t l p hrest := by
    have hrow := row_layout h hlink hinv hrest
    have hown := (h.queues.mem l p).mp hrest.2
    refine ⟨hrow.price_eq, hrow.side_eq, hown, ?_, ?_, hrow.pos, hrow.le_qty⟩
    · rw [h.queues.flag, hown]
      rfl
    · exact inhash_of_live h hlink (h.queue_live l p hrest.2).1
  nodup := by
    rw [orders_layout h]
    exact (linked_layout h hlink).handles_nodup
  ids p hp q hq hid := by
    rw [mem_orders_layout h hlink] at hp hq
    exact h.hash.ids p q (inhash_of_live h hlink hp) (inhash_of_live h hlink hq) hid
  find id := by
    refine ⟨_, h.indOrderFind_eq id, fun p => ?_⟩
    rw [mem_orders_layout h hlink]
    constructor
    · intro hp
      obtain ⟨hin, hid⟩ := h.indOrderFind_some ((h.indOrderFind_eq id).trans (congrArg some hp))
      exact ⟨h.hash_live p hin, hid⟩
    · rintro ⟨hp, rfl⟩
      have hfind := h.indOrderFind_of_mem (inhash_of_live h hlink hp)
      rw [h.indOrderFind_eq] at hfind
      exact Option.some.inj hfind
  order_count := (length_orders_layout h hlink).symm
  level_count := (length_levels_layout h hlink).symm
  index_count := by
    rw [h.hash_count, ← h.hashed_eq, length_orders_layout h hlink, ← h.card_liveOrders]
    exact congrArg Finset.card hlink.hash

omit hinv

/-- A heap that holds a book keeps its pools in order. -/
theorem pooled_layout : Pooled db g.oFree g.lFree g.queue g.bucket g.tree where
  order_free := h.oPool.chain
  level_free := h.lPool.chain
  order_nodup := h.oPool.nodup
  level_nodup := h.lPool.nodup
  queues := h.queues.linked
  buckets := h.hash.chain
  trees := h.trees.linked
  order_lt := h.oPool.lt
  level_lt := h.lPool.lt
  order_unlinked p hp :=
    ⟨fun l hl => (h.mem_liveOrders.mp (h.queue_live l p hl).1).2 hp,
      fun b hb => (h.mem_liveOrders.mp (h.hash_live p ((h.hash.mem b p).mp hb).1)).2 hp⟩
  order_linked p hp hfree := by
    have hlive := h.mem_liveOrders.mpr ⟨hp, hfree⟩
    obtain ⟨t, l, hl, hq⟩ := (hlink.queued p).mp hlive
    rw [h.view_queue] at hq
    refine ⟨⟨l, hq, fun m hm => ?_⟩, fun b => ?_⟩
    · rw [h.queues.mem] at hq hm
      exact Option.some.inj (hm.symm.trans hq)
    · rw [h.hash.mem]
      exact ⟨fun hb => hb.2.symm, fun hb => ⟨inhash_of_live h hlink hlive, hb.symm⟩⟩
  level_unlinked l hl t ht := (h.mem_liveLevels.mp (h.tree_live t l ht)).2 hl
  level_linked l hl hfree := by
    obtain ⟨t, ht⟩ := (hlink.levels l).mp (h.mem_liveLevels.mpr ⟨hl, hfree⟩)
    refine ⟨t, (mem_levels h hlink).mpr ht, fun u hu => ?_⟩
    by_contra hne
    have hother : u = t.other := by
      revert hne
      cases u <;> cases t <;> simp [Tree.other]
    exact hlink.not_mem_other ht (hother ▸ (mem_levels h hlink).mp hu)
  order_count := by
    rw [Nat.add_comm]
    exact h.oPool.count
  level_count := by
    rw [Nat.add_comm]
    exact h.lPool.count

end Snapshot

/-! ## Every state -/

section Reachable

variable {calloc : EngineDb.Calloc} {engine : Option Engine} {cb : Bool} {t : State}

/-- Whatever calls are made, with any requests and with the pools exhausted or not, every state they
reach is sound, and the next call returns. -/
theorem reach_sound (h : Reach (Hand.init calloc engine cb) t) :
    (∃ y, Sound t.db y) ∧ ∀ c : Call, ∃ ok t', c.exec t = some (ok, t') := by
  obtain ⟨b, hb⟩ := h.standsFor
  obtain ⟨g, hs, hrep, hlink, rfl, hinv⟩ := hb.snapshot
  refine ⟨⟨_, sound_layout hrep hlink hinv⟩, fun c => ?_⟩
  obtain ⟨ok, t', hrun, -⟩ := hb.call c nofun
  exact ⟨ok, t', hrun⟩

/-- The state after the session, with a queue of two and with levels that have been emptied. -/
theorem reach_sound_session : ∃ t, Reach (Hand.init ⟨true, true⟩ (some ⟨0, 0, false⟩) true) t ∧
    t.book = sessionBook ∧ (∃ y, Sound t.db y) ∧ ∀ c : Call, ∃ ok t', c.exec t = some (ok, t') := by
  obtain ⟨t, ht, -, hbook, -⟩ := session_run
  exact ⟨t, ht, hbook, reach_sound ht⟩

/-- Whatever calls are made, with any requests and with the pools exhausted or not, in every state
they reach no row is leaked, free twice, or linked while it is free. -/
theorem reach_pooled (h : Reach (Hand.init calloc engine cb) t) :
    ∃ xs ys queue bucket tree, Pooled t.db xs ys queue bucket tree := by
  obtain ⟨b, hb⟩ := h.standsFor
  obtain ⟨g, hs, hrep, hlink, -, -⟩ := hb.snapshot
  exact ⟨_, _, _, _, _, pooled_layout hrep hlink⟩

/-- The state after the session, with four orders in three levels, and with a free list that starts
with a row that was live before. -/
theorem reach_pooled_session : ∃ t, Reach (Hand.init ⟨true, true⟩ (some ⟨0, 0, false⟩) true) t ∧
    t.book = sessionBook ∧
    (t.db.order_pool_n, t.db.level_pool_n, t.db.order_pool_free) = (4, 3, some 4999998) ∧
    ∃ xs ys queue bucket tree, Pooled t.db xs ys queue bucket tree := by
  obtain ⟨t, ht, -, hbook, -, hpools, -⟩ := session_run
  exact ⟨t, ht, hbook, hpools, reach_pooled ht⟩

end Reachable

end MatchingEngine.Hand
