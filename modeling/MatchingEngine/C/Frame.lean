import MatchingEngine.C.Rep

/-!
# What an operation leaves alone

An operation of the data layer works on one of the five structures of the heap: the two pools, the
queues, the index, and the trees. `SameQueues` and its siblings say what the other four depend on,
and the frame rules carry their part of `Rep` over.

`HashOnly`, `QueueOnly`, and `TreeOnly` say of an operation which fields of the rows it writes, so
that everything else is untouched. They are closed under composition, and each gives the equalities
that the frame rules ask for. `of_queues`, `of_hash`, `of_trees`, `of_oPool`, and `of_lPool` then
put the changed component together with the four others.
-/

namespace MatchingEngine.C

open Lib Contract

/-- The heaps `db` and `db'` agree on what the queues depend on: the flags and back pointers of all
orders, the links of the queued ones, and the queue fields of the levels. -/
structure SameQueues (db db' : EngineDb) : Prop where
  owner : ∀ p, (db'.orders p).p_price_level = (db.orders p).p_price_level
  flag : ∀ p, (db'.orders p).orders_inlist = (db.orders p).orders_inlist
  next : ∀ p, (db.orders p).orders_inlist → (db'.orders p).orders_next = (db.orders p).orders_next
  prev : ∀ p, (db.orders p).orders_inlist → (db'.orders p).orders_prev = (db.orders p).orders_prev
  head : ∀ l, (db'.levels l).orders_head = (db.levels l).orders_head
  tail : ∀ l, (db'.levels l).orders_tail = (db.levels l).orders_tail
  n : ∀ l, (db'.levels l).orders_n = (db.levels l).orders_n

/-- The two heaps agree on what the index depends on: the flags of all orders, the links and the ids
of the flagged ones, the buckets, and the counter. -/
structure SameHash (db db' : EngineDb) : Prop where
  flag : ∀ p, (db'.orders p).ind_order_inhash = (db.orders p).ind_order_inhash
  next : ∀ p, (db.orders p).ind_order_inhash →
    (db'.orders p).ind_order_next = (db.orders p).ind_order_next
  id : ∀ p, (db.orders p).ind_order_inhash → (db'.orders p).id = (db.orders p).id
  buckets : db'.ind_order_buckets = db.ind_order_buckets
  n : db'.ind_order_n = db.ind_order_n

/-- The two heaps agree on what the trees depend on: the flags of all levels, the links and the
prices of the flagged ones, the roots, and the counters. -/
structure SameTrees (db db' : EngineDb) : Prop where
  flag : ∀ l, (db'.levels l).tree_intree = (db.levels l).tree_intree
  left : ∀ l, (db.levels l).tree_intree → (db'.levels l).tree_left = (db.levels l).tree_left
  right : ∀ l, (db.levels l).tree_intree → (db'.levels l).tree_right = (db.levels l).tree_right
  parent : ∀ l, (db.levels l).tree_intree → (db'.levels l).tree_parent = (db.levels l).tree_parent
  price : ∀ l, (db.levels l).tree_intree → (db'.levels l).price = (db.levels l).price
  root : ∀ t, db'.root t = db.root t
  n : ∀ t, db'.treeN t = db.treeN t

/-- The two heaps agree on the order pool. -/
structure SameOrderPool (db db' : EngineDb) : Prop where
  next : ∀ p, (db'.orders p).freenext = (db.orders p).freenext
  free : db'.order_pool_free = db.order_pool_free
  n : db'.order_pool_n = db.order_pool_n
  total : db'.order_pool_total_allocated = db.order_pool_total_allocated

/-- The two heaps agree on the level pool. -/
structure SameLevelPool (db db' : EngineDb) : Prop where
  next : ∀ l, (db'.levels l).freenext = (db.levels l).freenext
  free : db'.level_pool_free = db.level_pool_free
  n : db'.level_pool_n = db.level_pool_n
  total : db'.level_pool_total_allocated = db.level_pool_total_allocated

/-! ### One row rewritten -/

section Update

variable {db db' : EngineDb} {p : OrderPtr} {o : Order} {l : LevelPtr} {v : PriceLevel}

/-- A field that the new row keeps is the same in every row. -/
theorem update_field {α β : Type} {f g : ℕ → α} {x : ℕ} {a : α} (hf : g = Function.update f x a)
    (proj : α → β) (h : proj a = proj (f x)) (y : ℕ) : proj (g y) = proj (f y) := by
  rw [hf, Function.update_apply]
  split
  · subst_vars; exact h
  · rfl

/-- A field that the new row keeps where `P` holds is the same in every row where `P` holds. -/
theorem update_field_of {α β : Type} {f g : ℕ → α} {x : ℕ} {a : α} {P : α → Prop}
    (hf : g = Function.update f x a) (proj : α → β) (h : P (f x) → proj a = proj (f x)) (y : ℕ)
    (hy : P (f y)) : proj (g y) = proj (f y) := by
  rw [hf, Function.update_apply]
  split
  · subst_vars; exact h hy
  · rfl

/-- Writing an order leaves the queues alone if it keeps the flag and the owner, and the links while
it is queued. -/
theorem SameQueues.of_order (ho : db'.orders = Function.update db.orders p o)
    (hl : db'.levels = db.levels) (howner : o.p_price_level = (db.orders p).p_price_level)
    (hflag : o.orders_inlist = (db.orders p).orders_inlist)
    (hlink : (db.orders p).orders_inlist → o.orders_next = (db.orders p).orders_next ∧
      o.orders_prev = (db.orders p).orders_prev) : SameQueues db db' where
  owner := update_field ho (·.p_price_level) howner
  flag := update_field ho (·.orders_inlist) hflag
  next := update_field_of (P := (·.orders_inlist)) ho (·.orders_next) fun h => (hlink h).1
  prev := update_field_of (P := (·.orders_inlist)) ho (·.orders_prev) fun h => (hlink h).2
  head m := by rw [hl]
  tail m := by rw [hl]
  n m := by rw [hl]

/-- Writing a level leaves the queues alone if it keeps the ends and the counter of its queue. -/
theorem SameQueues.of_level (ho : db'.orders = db.orders)
    (hl : db'.levels = Function.update db.levels l v)
    (hhead : v.orders_head = (db.levels l).orders_head)
    (htail : v.orders_tail = (db.levels l).orders_tail)
    (hn : v.orders_n = (db.levels l).orders_n) : SameQueues db db' where
  owner p := by rw [ho]
  flag p := by rw [ho]
  next p _ := by rw [ho]
  prev p _ := by rw [ho]
  head := update_field hl (·.orders_head) hhead
  tail := update_field hl (·.orders_tail) htail
  n := update_field hl (·.orders_n) hn

/-- Writing an order leaves the index alone if it keeps the flag, and the link and the id while it
is indexed. -/
theorem SameHash.of_order (ho : db'.orders = Function.update db.orders p o)
    (hb : db'.ind_order_buckets = db.ind_order_buckets) (hn : db'.ind_order_n = db.ind_order_n)
    (hflag : o.ind_order_inhash = (db.orders p).ind_order_inhash)
    (hlink : (db.orders p).ind_order_inhash → o.ind_order_next = (db.orders p).ind_order_next ∧
      o.id = (db.orders p).id) : SameHash db db' where
  flag := update_field ho (·.ind_order_inhash) hflag
  next := update_field_of (P := (·.ind_order_inhash)) ho (·.ind_order_next) fun h => (hlink h).1
  id := update_field_of (P := (·.ind_order_inhash)) ho (·.id) fun h => (hlink h).2
  buckets := hb
  n := hn

/-- What writes no order leaves the index alone. -/
theorem SameHash.of_orders (ho : db'.orders = db.orders)
    (hb : db'.ind_order_buckets = db.ind_order_buckets) (hn : db'.ind_order_n = db.ind_order_n) :
    SameHash db db' where
  flag p := by rw [ho]
  next p _ := by rw [ho]
  id p _ := by rw [ho]
  buckets := hb
  n := hn

/-- Writing a level leaves the trees alone if it keeps the flag, and the links and the price while
it is in a tree. -/
theorem SameTrees.of_level (hl : db'.levels = Function.update db.levels l v)
    (hroot : db'.root = db.root) (hn : db'.treeN = db.treeN)
    (hflag : v.tree_intree = (db.levels l).tree_intree)
    (hlink : (db.levels l).tree_intree → v.tree_left = (db.levels l).tree_left ∧
      v.tree_right = (db.levels l).tree_right ∧ v.tree_parent = (db.levels l).tree_parent ∧
      v.price = (db.levels l).price) : SameTrees db db' where
  flag := update_field hl (·.tree_intree) hflag
  left := update_field_of (P := (·.tree_intree)) hl (·.tree_left) fun h => (hlink h).1
  right := update_field_of (P := (·.tree_intree)) hl (·.tree_right) fun h => (hlink h).2.1
  parent := update_field_of (P := (·.tree_intree)) hl (·.tree_parent) fun h => (hlink h).2.2.1
  price := update_field_of (P := (·.tree_intree)) hl (·.price) fun h => (hlink h).2.2.2
  root := congrFun hroot
  n := congrFun hn

/-- What writes no level leaves the trees alone. -/
theorem SameTrees.of_levels (hl : db'.levels = db.levels) (hroot : db'.root = db.root)
    (hn : db'.treeN = db.treeN) : SameTrees db db' where
  flag m := by rw [hl]
  left m _ := by rw [hl]
  right m _ := by rw [hl]
  parent m _ := by rw [hl]
  price m _ := by rw [hl]
  root := congrFun hroot
  n := congrFun hn

/-- Two operations that leave the queues alone do so together. -/
theorem SameQueues.trans {db'' : EngineDb} (h : SameQueues db db') (h' : SameQueues db' db'') :
    SameQueues db db'' where
  owner p := (h'.owner p).trans (h.owner p)
  flag p := (h'.flag p).trans (h.flag p)
  next p hp := (h'.next p (by rw [h.flag]; exact hp)).trans (h.next p hp)
  prev p hp := (h'.prev p (by rw [h.flag]; exact hp)).trans (h.prev p hp)
  head l := (h'.head l).trans (h.head l)
  tail l := (h'.tail l).trans (h.tail l)
  n l := (h'.n l).trans (h.n l)

/-- Two operations that leave the index alone do so together. -/
theorem SameHash.trans {db'' : EngineDb} (h : SameHash db db') (h' : SameHash db' db'') :
    SameHash db db'' where
  flag p := (h'.flag p).trans (h.flag p)
  next p hp := (h'.next p (by rw [h.flag]; exact hp)).trans (h.next p hp)
  id p hp := (h'.id p (by rw [h.flag]; exact hp)).trans (h.id p hp)
  buckets := h'.buckets.trans h.buckets
  n := h'.n.trans h.n

/-- Two operations that leave the trees alone do so together. -/
theorem SameTrees.trans {db'' : EngineDb} (h : SameTrees db db') (h' : SameTrees db' db'') :
    SameTrees db db'' where
  flag l := (h'.flag l).trans (h.flag l)
  left l hl := (h'.left l (by rw [h.flag]; exact hl)).trans (h.left l hl)
  right l hl := (h'.right l (by rw [h.flag]; exact hl)).trans (h.right l hl)
  parent l hl := (h'.parent l (by rw [h.flag]; exact hl)).trans (h.parent l hl)
  price l hl := (h'.price l (by rw [h.flag]; exact hl)).trans (h.price l hl)
  root t := (h'.root t).trans (h.root t)
  n t := (h'.n t).trans (h.n t)

/-- Writing an order leaves the order pool alone if it keeps the free link. -/
theorem SameOrderPool.of_order (ho : db'.orders = Function.update db.orders p o)
    (hfree : db'.order_pool_free = db.order_pool_free) (hn : db'.order_pool_n = db.order_pool_n)
    (ht : db'.order_pool_total_allocated = db.order_pool_total_allocated)
    (h : o.freenext = (db.orders p).freenext) : SameOrderPool db db' :=
  ⟨update_field ho (·.freenext) h, hfree, hn, ht⟩

/-- Writing a level leaves the level pool alone if it keeps the free link. -/
theorem SameLevelPool.of_level (hl : db'.levels = Function.update db.levels l v)
    (hfree : db'.level_pool_free = db.level_pool_free) (hn : db'.level_pool_n = db.level_pool_n)
    (ht : db'.level_pool_total_allocated = db.level_pool_total_allocated)
    (h : v.freenext = (db.levels l).freenext) : SameLevelPool db db' :=
  ⟨update_field hl (·.freenext) h, hfree, hn, ht⟩

end Update

section Frame

variable {db db' : EngineDb} {queue : LevelPtr → List OrderPtr} {bucket : ℕ → List OrderPtr}
  {tree : Tree → BinaryTree LevelPtr} {xs : List ℕ}

/-- The frame rule for the queues. -/
theorem QueuesRep.congr (h : QueuesRep db queue) (hs : SameQueues db db') :
    QueuesRep db' queue where
  linked l := by
    have hin : ∀ p ∈ queue l, (db.orders p).orders_inlist := fun p hp => by
      rw [h.flag, (h.mem l p).mp hp]; rfl
    rw [hs.head, hs.tail]
    exact (h.linked l).congr (fun p hp => hs.next p (hin p hp)) fun p hp => hs.prev p (hin p hp)
  count l := by rw [hs.n]; exact h.count l
  mem l p := by rw [hs.owner]; exact h.mem l p
  flag p := by rw [hs.owner, hs.flag]; exact h.flag p

/-- The frame rule for the index. -/
theorem HashRep.congr (h : HashRep db bucket) (hs : SameHash db db') : HashRep db' bucket where
  chain b := by
    rw [hs.buckets]
    exact (h.chain b).congr fun p hp => hs.next p ((h.mem b p).mp hp).1
  mem b p := by
    rw [h.mem, hs.flag]
    exact and_congr_right fun hp => by rw [hs.id p hp]
  ids p q hp hq hid := by
    rw [hs.flag] at hp hq
    rw [hs.id p hp, hs.id q hq] at hid
    exact h.ids p q hp hq hid

/-- The frame rule for the trees. -/
theorem TreesRep.congr (h : TreesRep db tree) (hs : SameTrees db db') : TreesRep db' tree where
  linked t := by
    have hin : ∀ l ∈ inorder (tree t), (db.levels l).tree_intree := fun l hl =>
      (h.flag l).mpr ⟨t, hl⟩
    rw [hs.root]
    exact (h.linked t).congr (fun l hl => hs.left l (hin l hl)) (fun l hl => hs.right l (hin l hl))
      fun l hl => hs.parent l (hin l hl)
  sorted t := by
    refine (h.sorted t).imp_of_mem fun {l m} hl hm hlt => ?_
    rw [hs.price l ((h.flag l).mpr ⟨t, hl⟩), hs.price m ((h.flag m).mpr ⟨t, hm⟩)]
    exact hlt
  count t := by rw [hs.n]; exact h.count t
  flag l := by rw [hs.flag]; exact h.flag l
  disjoint := h.disjoint

/-- The frame rule for the order pool. -/
theorem SameOrderPool.congr (hs : SameOrderPool db db') (h : PoolRep db.orderFreeLink
    db.order_pool_free db.order_pool_n db.order_pool_total_allocated xs) :
    PoolRep db'.orderFreeLink db'.order_pool_free db'.order_pool_n
      db'.order_pool_total_allocated xs := by
  rw [hs.free, hs.n, hs.total, show db'.orderFreeLink = db.orderFreeLink from funext hs.next]
  exact h

/-- The frame rule for the level pool. -/
theorem SameLevelPool.congr (hs : SameLevelPool db db') (h : PoolRep db.levelFreeLink
    db.level_pool_free db.level_pool_n db.level_pool_total_allocated xs) :
    PoolRep db'.levelFreeLink db'.level_pool_free db'.level_pool_n
      db'.level_pool_total_allocated xs := by
  rw [hs.free, hs.n, hs.total, show db'.levelFreeLink = db.levelFreeLink from funext hs.next]
  exact h

/-- The rows that are live are read off the pool. -/
theorem SameOrderPool.liveOrders (hs : SameOrderPool db db') : db'.liveOrders = db.liveOrders := by
  rw [EngineDb.liveOrders, EngineDb.liveOrders, EngineDb.orderRows, EngineDb.orderRows, hs.free,
    hs.total, show db'.orderFreeLink = db.orderFreeLink from funext hs.next]

/-- The levels that are live are read off the pool. -/
theorem SameLevelPool.liveLevels (hs : SameLevelPool db db') : db'.liveLevels = db.liveLevels := by
  rw [EngineDb.liveLevels, EngineDb.liveLevels, EngineDb.levelRows, EngineDb.levelRows, hs.free,
    hs.total, show db'.levelFreeLink = db.levelFreeLink from funext hs.next]

/-- The indexed orders are read off the flags. -/
theorem SameHash.flagged (hs : SameHash db db')
    (ht : db'.order_pool_total_allocated = db.order_pool_total_allocated) :
    db'.flagged = db.flagged := by
  rw [EngineDb.flagged, EngineDb.flagged, EngineDb.orderRows, EngineDb.orderRows, ht]
  exact Finset.filter_congr fun p _ => by rw [hs.flag]

end Frame

/-! ## Operations by the fields they write -/

/-- From `db` to `db'`, only the index's fields are written. -/
structure HashOnly (db db' : EngineDb) : Prop where
  globals : db' = { db with
    orders := db'.orders, ind_order_buckets := db'.ind_order_buckets, ind_order_n := db'.ind_order_n }
  orders : ∀ p, db'.orders p = { db.orders p with
    ind_order_next := (db'.orders p).ind_order_next
    ind_order_inhash := (db'.orders p).ind_order_inhash }

/-- From `db` to `db'`, only the queues' fields are written. -/
structure QueueOnly (db db' : EngineDb) : Prop where
  globals : db' = { db with orders := db'.orders, levels := db'.levels }
  orders : ∀ p, db'.orders p = { db.orders p with
    p_price_level := (db'.orders p).p_price_level
    orders_next := (db'.orders p).orders_next
    orders_prev := (db'.orders p).orders_prev
    orders_inlist := (db'.orders p).orders_inlist }
  levels : ∀ l, db'.levels l = { db.levels l with
    total_qty := (db'.levels l).total_qty
    orders_head := (db'.levels l).orders_head
    orders_tail := (db'.levels l).orders_tail
    orders_n := (db'.levels l).orders_n }

/-- From `db` to `db'`, only the trees' fields are written. -/
structure TreeOnly (db db' : EngineDb) : Prop where
  globals : db' = { db with
    levels := db'.levels, bids_root := db'.bids_root, bids_n := db'.bids_n
    asks_root := db'.asks_root, asks_n := db'.asks_n }
  levels : ∀ l, db'.levels l = { db.levels l with
    tree_parent := (db'.levels l).tree_parent
    tree_left := (db'.levels l).tree_left
    tree_right := (db'.levels l).tree_right
    tree_intree := (db'.levels l).tree_intree }

section Only

variable {db db' db'' : EngineDb} {p : OrderPtr} {l : LevelPtr}

namespace HashOnly

/-- A heap differs in nothing from itself. -/
theorem refl : HashOnly db db := ⟨rfl, fun _ => rfl⟩

/-- Two operations on the index are one that writes nothing else. -/
theorem trans (h : HashOnly db db') (h' : HashOnly db' db'') : HashOnly db db'' where
  globals := h'.globals.trans (by rw [h.globals])
  orders p := (h'.orders p).trans (by rw [h.orders p])

/-- An update of an order's link and flag in the index writes the index only. -/
theorem setOrder {f : Order → Order} (hf : ∀ o, f o = { o with
    ind_order_next := (f o).ind_order_next, ind_order_inhash := (f o).ind_order_inhash }) :
    HashOnly db (db.setOrder p f) where
  globals := rfl
  orders q := by
    rw [EngineDb.setOrder_orders_apply]
    split
    · subst_vars; exact hf _
    · rfl

/-- The levels are no part of the index. -/
theorem levels (h : HashOnly db db') : db'.levels = db.levels :=
  (congrArg EngineDb.levels h.globals).trans rfl

/-- Nothing is allocated. -/
theorem total (h : HashOnly db db') :
    db'.order_pool_total_allocated = db.order_pool_total_allocated :=
  (congrArg EngineDb.order_pool_total_allocated h.globals).trans rfl

/-- What a row holds for the contract is no part of the index. -/
theorem row (h : HashOnly db db') (p : OrderPtr) : (db'.orders p).row = (db.orders p).row := by
  rw [h.orders p]; rfl

/-- The queues are left alone. -/
theorem queues (h : HashOnly db db') : SameQueues db db' := by
  constructor <;> intros <;> first | rw [h.orders] | rw [h.levels]

/-- The trees are left alone. -/
theorem trees (h : HashOnly db db') : SameTrees db db' :=
  .of_levels h.levels ((congrArg EngineDb.root h.globals).trans rfl)
    ((congrArg EngineDb.treeN h.globals).trans rfl)

/-- The order pool is left alone. -/
theorem oPool (h : HashOnly db db') : SameOrderPool db db' :=
  ⟨fun p => by rw [h.orders], (congrArg EngineDb.order_pool_free h.globals).trans rfl,
    (congrArg EngineDb.order_pool_n h.globals).trans rfl, h.total⟩

/-- The level pool is left alone. -/
theorem lPool (h : HashOnly db db') : SameLevelPool db db' :=
  ⟨fun l => by rw [h.levels], (congrArg EngineDb.level_pool_free h.globals).trans rfl,
    (congrArg EngineDb.level_pool_n h.globals).trans rfl,
      (congrArg EngineDb.level_pool_total_allocated h.globals).trans rfl⟩

end HashOnly

namespace QueueOnly

/-- Two operations on the queues are one that writes nothing else. -/
theorem trans (h : QueueOnly db db') (h' : QueueOnly db' db'') : QueueOnly db db'' where
  globals := h'.globals.trans (by rw [h.globals])
  orders p := (h'.orders p).trans (by rw [h.orders p])
  levels l := (h'.levels l).trans (by rw [h.levels l])

/-- An update of the queue fields of an order writes the queues only. -/
theorem setOrder {f : Order → Order} (hf : ∀ o, f o = { o with
    p_price_level := (f o).p_price_level, orders_next := (f o).orders_next
    orders_prev := (f o).orders_prev, orders_inlist := (f o).orders_inlist }) :
    QueueOnly db (db.setOrder p f) where
  globals := rfl
  orders q := by
    rw [EngineDb.setOrder_orders_apply]
    split
    · subst_vars; exact hf _
    · rfl
  levels _ := rfl

/-- An update of the queue fields of a level writes the queues only. -/
theorem setLevel {f : PriceLevel → PriceLevel} (hf : ∀ v, f v = { v with
    total_qty := (f v).total_qty, orders_head := (f v).orders_head
    orders_tail := (f v).orders_tail, orders_n := (f v).orders_n }) :
    QueueOnly db (db.setLevel l f) where
  globals := rfl
  orders _ := rfl
  levels m := by
    rw [EngineDb.setLevel_levels_apply]
    split
    · subst_vars; exact hf _
    · rfl

/-- What a row holds for the contract is no part of the queues. -/
theorem row (h : QueueOnly db db') (p : OrderPtr) : (db'.orders p).row = (db.orders p).row := by
  rw [h.orders p]; rfl

/-- The price of a level is no part of its queue. -/
theorem price (h : QueueOnly db db') (l : LevelPtr) :
    (db'.levels l).price = (db.levels l).price := by rw [h.levels l]

/-- The index is left alone. -/
theorem hash (h : QueueOnly db db') : SameHash db db' where
  flag p := by rw [h.orders]
  next p _ := by rw [h.orders]
  id p _ := by rw [h.orders]
  buckets := (congrArg EngineDb.ind_order_buckets h.globals).trans rfl
  n := (congrArg EngineDb.ind_order_n h.globals).trans rfl

/-- The trees are left alone. -/
theorem trees (h : QueueOnly db db') : SameTrees db db' where
  flag l := by rw [h.levels]
  left l _ := by rw [h.levels]
  right l _ := by rw [h.levels]
  parent l _ := by rw [h.levels]
  price l _ := by rw [h.levels]
  root t := (congrArg (·.root t) h.globals).trans rfl
  n t := (congrArg (·.treeN t) h.globals).trans rfl

/-- The order pool is left alone. -/
theorem oPool (h : QueueOnly db db') : SameOrderPool db db' :=
  ⟨fun p => by rw [h.orders], (congrArg EngineDb.order_pool_free h.globals).trans rfl,
    (congrArg EngineDb.order_pool_n h.globals).trans rfl,
      (congrArg EngineDb.order_pool_total_allocated h.globals).trans rfl⟩

/-- The level pool is left alone. -/
theorem lPool (h : QueueOnly db db') : SameLevelPool db db' :=
  ⟨fun l => by rw [h.levels], (congrArg EngineDb.level_pool_free h.globals).trans rfl,
    (congrArg EngineDb.level_pool_n h.globals).trans rfl,
      (congrArg EngineDb.level_pool_total_allocated h.globals).trans rfl⟩

end QueueOnly

namespace TreeOnly

/-- Two operations on the trees are one that writes nothing else. -/
theorem trans (h : TreeOnly db db') (h' : TreeOnly db' db'') : TreeOnly db db'' where
  globals := h'.globals.trans (by rw [h.globals])
  levels l := (h'.levels l).trans (by rw [h.levels l])

/-- An update of the tree fields of a level writes the trees only. -/
theorem setLevel {f : PriceLevel → PriceLevel} (hf : ∀ v, f v = { v with
    tree_parent := (f v).tree_parent, tree_left := (f v).tree_left
    tree_right := (f v).tree_right, tree_intree := (f v).tree_intree }) :
    TreeOnly db (db.setLevel l f) where
  globals := rfl
  levels m := by
    rw [EngineDb.setLevel_levels_apply]
    split
    · subst_vars; exact hf _
    · rfl

/-- The orders are no part of the trees. -/
theorem orders (h : TreeOnly db db') : db'.orders = db.orders :=
  (congrArg EngineDb.orders h.globals).trans rfl

/-- The price of a level is not written, although the trees are in its order. -/
theorem price (h : TreeOnly db db') (l : LevelPtr) :
    (db'.levels l).price = (db.levels l).price := by rw [h.levels l]

/-- The queues are left alone. -/
theorem queues (h : TreeOnly db db') : SameQueues db db' := by
  constructor <;> intros <;> first | rw [h.orders] | rw [h.levels]

/-- The index is left alone. -/
theorem hash (h : TreeOnly db db') : SameHash db db' :=
  .of_orders h.orders ((congrArg EngineDb.ind_order_buckets h.globals).trans rfl)
    ((congrArg EngineDb.ind_order_n h.globals).trans rfl)

/-- The order pool is left alone. -/
theorem oPool (h : TreeOnly db db') : SameOrderPool db db' :=
  ⟨fun p => by rw [h.orders], (congrArg EngineDb.order_pool_free h.globals).trans rfl,
    (congrArg EngineDb.order_pool_n h.globals).trans rfl,
      (congrArg EngineDb.order_pool_total_allocated h.globals).trans rfl⟩

/-- The level pool is left alone. -/
theorem lPool (h : TreeOnly db db') : SameLevelPool db db' :=
  ⟨fun l => by rw [h.levels], (congrArg EngineDb.level_pool_free h.globals).trans rfl,
    (congrArg EngineDb.level_pool_n h.globals).trans rfl,
      (congrArg EngineDb.level_pool_total_allocated h.globals).trans rfl⟩

end TreeOnly

end Only

namespace Rep

variable {db db' : EngineDb} {g : Shape}

/-! ## One component changed -/

/-- Nothing that the shape depends on changes. -/
theorem congr (h : Rep db g) (hq : SameQueues db db') (hh : SameHash db db')
    (ht : SameTrees db db') (ho : SameOrderPool db db') (hl : SameLevelPool db db') :
    Rep db' g where
  oPool := ho.congr h.oPool
  lPool := hl.congr h.lPool
  queues := h.queues.congr hq
  hash := h.hash.congr hh
  trees := h.trees.congr ht
  queue_live := by rw [ho.liveOrders, hl.liveLevels]; exact h.queue_live
  hash_live p hp := by rw [hh.flag] at hp; rw [ho.liveOrders]; exact h.hash_live p hp
  tree_live := by rw [hl.liveLevels]; exact h.tree_live
  hash_count := by rw [hh.n, hh.flagged ho.total]; exact h.hash_count

/-- Only the queues change. -/
theorem of_queues {queue : LevelPtr → List OrderPtr} (h : Rep db g) (hq : QueuesRep db' queue)
    (hlive : ∀ l, ∀ p ∈ queue l, p ∈ db.liveOrders ∧ l ∈ db.liveLevels) (ho : QueueOnly db db') :
    Rep db' { g with queue := queue } where
  oPool := ho.oPool.congr h.oPool
  lPool := ho.lPool.congr h.lPool
  queues := hq
  hash := h.hash.congr ho.hash
  trees := h.trees.congr ho.trees
  queue_live := by rw [ho.oPool.liveOrders, ho.lPool.liveLevels]; exact hlive
  hash_live p hp := by rw [ho.hash.flag] at hp; rw [ho.oPool.liveOrders]; exact h.hash_live p hp
  tree_live := by rw [ho.lPool.liveLevels]; exact h.tree_live
  hash_count := by rw [ho.hash.n, ho.hash.flagged ho.oPool.total]; exact h.hash_count

/-- Only the index changes. -/
theorem of_hash {bucket : ℕ → List OrderPtr} (h : Rep db g) (hh : HashRep db' bucket)
    (hlive : ∀ p, (db'.orders p).ind_order_inhash → p ∈ db.liveOrders)
    (hn : db'.ind_order_n.toNat = db'.flagged.card) (ho : HashOnly db db') :
    Rep db' { g with bucket := bucket } where
  oPool := ho.oPool.congr h.oPool
  lPool := ho.lPool.congr h.lPool
  queues := h.queues.congr ho.queues
  hash := hh
  trees := h.trees.congr ho.trees
  queue_live := by rw [ho.oPool.liveOrders, ho.lPool.liveLevels]; exact h.queue_live
  hash_live := by rw [ho.oPool.liveOrders]; exact hlive
  tree_live := by rw [ho.lPool.liveLevels]; exact h.tree_live
  hash_count := hn

/-- Only the trees change. -/
theorem of_trees {tree : Tree → BinaryTree LevelPtr} (h : Rep db g) (ht : TreesRep db' tree)
    (hlive : ∀ t, ∀ l ∈ inorder (tree t), l ∈ db.liveLevels) (ho : TreeOnly db db') :
    Rep db' { g with tree := tree } where
  oPool := ho.oPool.congr h.oPool
  lPool := ho.lPool.congr h.lPool
  queues := h.queues.congr ho.queues
  hash := h.hash.congr ho.hash
  trees := ht
  queue_live := by rw [ho.oPool.liveOrders, ho.lPool.liveLevels]; exact h.queue_live
  hash_live p hp := by rw [ho.hash.flag] at hp; rw [ho.oPool.liveOrders]; exact h.hash_live p hp
  tree_live := by rw [ho.lPool.liveLevels]; exact hlive
  hash_count := by rw [ho.hash.n, ho.hash.flagged ho.oPool.total]; exact h.hash_count

/-- The order pool changes, and the rows that were queued or hashed stay live. -/
theorem of_oPool {xs : List ℕ} (h : Rep db g) (ho : PoolRep db'.orderFreeLink db'.order_pool_free
    db'.order_pool_n db'.order_pool_total_allocated xs)
    (hflagged : db'.flagged = db.flagged)
    (hlive : ∀ p ∈ db.liveOrders, (db.orders p).p_price_level.isSome ∨
      (db.orders p).ind_order_inhash → p ∈ db'.liveOrders)
    (hq : SameQueues db db') (hh : SameHash db db') (ht : SameTrees db db')
    (hl : SameLevelPool db db') : Rep db' { g with oFree := xs } where
  oPool := ho
  lPool := hl.congr h.lPool
  queues := h.queues.congr hq
  hash := h.hash.congr hh
  trees := h.trees.congr ht
  queue_live l p hp := by
    obtain ⟨hp', hl'⟩ := h.queue_live l p hp
    -- A queued row stays live because it names its level.
    rw [hl.liveLevels]
    exact ⟨hlive p hp' (.inl (by rw [(h.queues.mem l p).mp hp]; rfl)), hl'⟩
  hash_live p hp := by rw [hh.flag] at hp; exact hlive p (h.hash_live p hp) (.inr hp)
  tree_live := by rw [hl.liveLevels]; exact h.tree_live
  hash_count := by rw [hh.n, hflagged]; exact h.hash_count

/-- The level pool changes, and the levels that have a queue or are in a tree stay live. -/
theorem of_lPool {xs : List ℕ} (h : Rep db g) (hl : PoolRep db'.levelFreeLink db'.level_pool_free
    db'.level_pool_n db'.level_pool_total_allocated xs)
    (hlive : ∀ l ∈ db.liveLevels, g.queue l ≠ [] ∨ (db.levels l).tree_intree → l ∈ db'.liveLevels)
    (hq : SameQueues db db') (hh : SameHash db db') (ht : SameTrees db db')
    (ho : SameOrderPool db db') : Rep db' { g with lFree := xs } where
  oPool := ho.congr h.oPool
  lPool := hl
  queues := h.queues.congr hq
  hash := h.hash.congr hh
  trees := h.trees.congr ht
  queue_live l p hp := by
    obtain ⟨hp', hl'⟩ := h.queue_live l p hp
    -- A level with a queue stays live because the queue is not empty.
    rw [ho.liveOrders]
    exact ⟨hp', hlive l hl' (.inl (List.ne_nil_of_mem hp))⟩
  hash_live p hp := by rw [hh.flag] at hp; rw [ho.liveOrders]; exact h.hash_live p hp
  tree_live t l hl' := hlive l (h.tree_live t l hl') (.inr ((h.trees.flag l).mpr ⟨t, hl'⟩))
  hash_count := by rw [hh.n, hh.flagged ho.total]; exact h.hash_count

end Rep

end MatchingEngine.C
