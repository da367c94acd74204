import MatchingEngine.C.Heap

/-!
# The data layer

The functions of `c/src/matching_engine_gen.c` on the heap of `C/Heap.lean`: the two pools, the hash
index, the queues, and the price trees. A function that walks links returns an option, with `none`
for a call that does not return: a walk that does not end, or a dereference of `NULL`.

The functions stand in the order of the source and take the heap as an argument. A pointer is the
number of its row. The fuel of a walk along a chain or a tree is one more than the number of rows
that are reserved, so a walk that runs out of it has met some row twice and would not end.
-/

namespace MatchingEngine.C.EngineDb

/-! ## Pools -/

/-- The loop of `EngineDb_order_pool_ReserveMem`: the first `i` rows of the chunk at `base`, zeroed
by `calloc`, pushed on the free list. -/
def pushFreeOrders (db : EngineDb) (base : ℕ) : ℕ → EngineDb
  | 0 => db
  | i + 1 =>
    let db := pushFreeOrders db base i
    { db with
      -- The last row that is pushed is the first that is handed out.
      orders := Function.update db.orders (base + i) { freenext := db.order_pool_free }
      order_pool_free := some (base + i) }

/-- `EngineDb_order_pool_ReserveMem`, where `calloc` says whether the allocation succeeds. -/
def orderPoolReserveMem (db : EngineDb) (calloc : Bool) (n_orders : UInt64) : UInt64 × EngineDb :=
  if n_orders = 0 then (0, db)
  else if !calloc then (0, db)
  else
    let db := pushFreeOrders db db.order_pool_total_allocated.toNat n_orders.toNat
    (n_orders, { db with order_pool_total_allocated := db.order_pool_total_allocated + n_orders })

/-- The loop of `EngineDb_level_pool_ReserveMem`. -/
def pushFreeLevels (db : EngineDb) (base : ℕ) : ℕ → EngineDb
  | 0 => db
  | i + 1 =>
    let db := pushFreeLevels db base i
    { db with
      levels := Function.update db.levels (base + i) { freenext := db.level_pool_free }
      level_pool_free := some (base + i) }

/-- `EngineDb_level_pool_ReserveMem`. -/
def levelPoolReserveMem (db : EngineDb) (calloc : Bool) (n_levels : UInt64) : UInt64 × EngineDb :=
  if n_levels = 0 then (0, db)
  else if !calloc then (0, db)
  else
    let db := pushFreeLevels db db.level_pool_total_allocated.toNat n_levels.toNat
    (n_levels, { db with level_pool_total_allocated := db.level_pool_total_allocated + n_levels })

/-- Which of the chunk allocations of `EngineDb_Init` succeed. The code ignores their results, so a
failed one leaves its pool empty. -/
structure Calloc where
  order_chunk : Bool
  level_chunk : Bool

/-- `EngineDb_Init`, after the teardown that it starts with: the zeroed global, with the buckets and
the first chunk of each pool. The code does not check the `calloc` of the bucket array either. Here
it cannot fail: the buckets are part of the state. -/
def init (calloc : Calloc) : EngineDb :=
  let db : EngineDb := {}
  let db := (db.orderPoolReserveMem calloc.order_chunk orderChunkSize).2
  let db := (db.levelPoolReserveMem calloc.level_chunk levelChunkSize).2
  { db with bids_root := none, bids_n := 0, asks_root := none, asks_n := 0, ind_order_n := 0 }

/-- The rest of `EngineDb_order_pool_Alloc` when the free list starts with `p`. -/
def takeOrder (db : EngineDb) (p : OrderPtr) : EngineDb :=
  -- The payload keeps what the row held before: the caller writes it.
  { db.setOrder p (fun o => { o with
      freenext := none
      orders_next := none
      orders_prev := none
      orders_inlist := false
      ind_order_next := none
      ind_order_inhash := false }) with
    order_pool_free := (db.orders p).freenext
    order_pool_n := db.order_pool_n + 1 }

/-- `EngineDb_order_pool_Alloc`. -/
def orderPoolAlloc (db : EngineDb) : Option OrderPtr × EngineDb :=
  match db.order_pool_free with
  | none => (none, db)
  | some p => (some p, db.takeOrder p)

/-- `EngineDb_order_pool_Free`. -/
def orderPoolFree (db : EngineDb) (p : OrderPtr) : EngineDb :=
  -- Nothing else of the row is touched.
  { db.setOrder p (fun o => { o with freenext := db.order_pool_free }) with
    order_pool_free := some p
    order_pool_n := if db.order_pool_n > 0 then db.order_pool_n - 1 else db.order_pool_n }

/-- The rest of `EngineDb_level_pool_Alloc` when the free list starts with `l`. -/
def takeLevel (db : EngineDb) (l : LevelPtr) : EngineDb :=
  { db.setLevel l (fun v => { v with
      freenext := none
      orders_head := none
      orders_tail := none
      orders_n := 0
      total_qty := 0
      tree_parent := none
      tree_left := none
      tree_right := none
      tree_intree := false }) with
    level_pool_free := (db.levels l).freenext
    level_pool_n := db.level_pool_n + 1 }

/-- `EngineDb_level_pool_Alloc`. -/
def levelPoolAlloc (db : EngineDb) : Option LevelPtr × EngineDb :=
  match db.level_pool_free with
  | none => (none, db)
  | some l => (some l, db.takeLevel l)

/-- `EngineDb_level_pool_Free`. -/
def levelPoolFree (db : EngineDb) (l : LevelPtr) : EngineDb :=
  { db.setLevel l (fun v => { v with freenext := db.level_pool_free }) with
    level_pool_free := some l
    level_pool_n := if db.level_pool_n > 0 then db.level_pool_n - 1 else db.level_pool_n }

/-! ## Order hash index -/

/-- `hash_order_id`. -/
def hashOrderId (id : UInt64) : ℕ := (id &&& (orderHashBuckets - 1)).toUInt32.toNat

/-- The loop of `EngineDb_ind_order_Find`. -/
def indOrderFindFrom (db : EngineDb) (id : UInt64) : ℕ → Option OrderPtr → Option (Option OrderPtr)
  -- The walk has met more rows than there are, so it goes around.
  | 0, _ => none
  | _ + 1, none => some none
  | fuel + 1, some p =>
    if (db.orders p).id = id then some (some p)
    else indOrderFindFrom db id fuel (db.orders p).ind_order_next

/-- `EngineDb_ind_order_Find`. -/
def indOrderFind (db : EngineDb) (id : UInt64) : Option (Option OrderPtr) :=
  indOrderFindFrom db id db.orderFuel (db.ind_order_buckets (hashOrderId id))

/-- The insertion of `EngineDb_ind_order_InsertMaybe` at the head of the bucket `b`. -/
def indOrderLink (db : EngineDb) (row : OrderPtr) (b : ℕ) : EngineDb :=
  let db := db.setOrder row fun o => { o with ind_order_next := db.ind_order_buckets b }
  -- The head of the bucket is written between the two fields of the row, as in the source.
  let db := { db with ind_order_buckets := Function.update db.ind_order_buckets b (some row) }
  let db := db.setOrder row fun o => { o with ind_order_inhash := true }
  { db with ind_order_n := db.ind_order_n + 1 }

/-- `EngineDb_ind_order_InsertMaybe`. -/
def indOrderInsertMaybe (db : EngineDb) (row : OrderPtr) : Option (Bool × EngineDb) := do
  -- A flag, and not the bucket, says whether the row is already in.
  if (db.orders row).ind_order_inhash then return (false, db)
  if (← db.indOrderFind (db.orders row).id).isSome then return (false, db)
  return (true, db.indOrderLink row (hashOrderId (db.orders row).id))

/-- The removal of `EngineDb_ind_order_Remove` in the bucket `b`, once its variable `cur` is the row
and `prev` the one before it. -/
def indOrderUnlink (db : EngineDb) (b : ℕ) (prev : Option OrderPtr) (cur : OrderPtr) : EngineDb :=
  let db := match prev with
    | some prev => db.setOrder prev fun o => { o with ind_order_next := (db.orders cur).ind_order_next }
    | none => { db with
        ind_order_buckets :=
          Function.update db.ind_order_buckets b (db.orders cur).ind_order_next }
  let db := db.setOrder cur fun o => { o with ind_order_next := none, ind_order_inhash := false }
  { db with ind_order_n := db.ind_order_n - 1 }

/-- The loop of `EngineDb_ind_order_Remove`. -/
def indOrderRemoveFrom (db : EngineDb) (row : OrderPtr) (b : ℕ) :
    ℕ → Option OrderPtr → Option OrderPtr → Option EngineDb
  | 0, _, _ => none
  -- A row that the flag claims but the bucket lacks is left as it is.
  | _ + 1, _, none => some db
  | fuel + 1, prev, some cur =>
    if cur = row then some (db.indOrderUnlink b prev cur)
    else indOrderRemoveFrom db row b fuel (some cur) (db.orders cur).ind_order_next

/-- `EngineDb_ind_order_Remove`. -/
def indOrderRemove (db : EngineDb) (row : OrderPtr) : Option EngineDb :=
  if !(db.orders row).ind_order_inhash then some db
  else
    let b := hashOrderId (db.orders row).id
    indOrderRemoveFrom db row b db.orderFuel none (db.ind_order_buckets b)

/-! ## Order queues -/

/-- `if (prev) prev->orders_next = next; else level->orders_head = next`. -/
def setNextOf (db : EngineDb) (level : LevelPtr) (prev next : Option OrderPtr) : EngineDb :=
  match prev with
  | some prev => db.setOrder prev fun o => { o with orders_next := next }
  | none => db.setLevel level fun v => { v with orders_head := next }

/-- `if (next) next->orders_prev = prev; else level->orders_tail = prev`. -/
def setPrevOf (db : EngineDb) (level : LevelPtr) (next prev : Option OrderPtr) : EngineDb :=
  match next with
  | some next => db.setOrder next fun o => { o with orders_prev := prev }
  | none => db.setLevel level fun v => { v with orders_tail := prev }

/-- `PriceLevel_orders_InsertTail`. -/
def ordersInsertTail (db : EngineDb) (level : LevelPtr) (row : OrderPtr) : EngineDb :=
  if (db.orders row).orders_inlist then db
  else
    -- The tail is read before it is overwritten, since the row's `orders_prev` is the old one.
    let tail := (db.levels level).orders_tail
    let db := db.setOrder row fun o =>
      { o with orders_next := none, orders_prev := tail, p_price_level := some level }
    let db := db.setNextOf level tail (some row)
    let db := db.setOrder row fun o => { o with orders_inlist := true }
    db.setLevel level fun v => { v with
      orders_tail := some row
      orders_n := v.orders_n + 1
      total_qty := v.total_qty + (db.orders row).remaining_qty }

/-- `PriceLevel_orders_Remove`. -/
def ordersRemove (db : EngineDb) (level : LevelPtr) (row : OrderPtr) : EngineDb :=
  if !(db.orders row).orders_inlist then db
  else
    -- The links are read off the heap as it stands after each write.
    let db := db.setNextOf level (db.orders row).orders_prev (db.orders row).orders_next
    let db := db.setPrevOf level (db.orders row).orders_next (db.orders row).orders_prev
    let db := db.setOrder row fun o => { o with
      orders_next := none
      orders_prev := none
      orders_inlist := false
      p_price_level := none }
    db.setLevel level fun v => { v with
      orders_n := if v.orders_n > 0 then v.orders_n - 1 else v.orders_n
      -- The clamp: an aggregate that has wrapped below the row's quantity is set to zero.
      total_qty := if v.total_qty ≥ (db.orders row).remaining_qty
        then v.total_qty - (db.orders row).remaining_qty else 0 }

/-- `PriceLevel_orders_First`. -/
def ordersFirst (db : EngineDb) (level : LevelPtr) : Option OrderPtr := (db.levels level).orders_head

/-- `PriceLevel_orders_Next`. -/
def ordersNext (db : EngineDb) (row : OrderPtr) : Option OrderPtr := (db.orders row).orders_next

/-! ## Price trees -/

/-- The loop of `tree_find`. -/
def treeFind (db : EngineDb) (price : UInt64) : ℕ → Option LevelPtr → Option (Option LevelPtr)
  | 0, _ => none
  | _ + 1, none => some none
  | fuel + 1, some cur =>
    if price = (db.levels cur).price then some (some cur)
    else if price < (db.levels cur).price then treeFind db price fuel (db.levels cur).tree_left
    else treeFind db price fuel (db.levels cur).tree_right

/-- The loop of `tree_insert`: the value of `parent` when `cur` becomes `NULL`. -/
def treeDescend (db : EngineDb) (price : UInt64) :
    ℕ → Option LevelPtr → Option LevelPtr → Option (Option LevelPtr)
  | 0, _, _ => none
  | _ + 1, parent, none => some parent
  -- `parent = cur`, whichever way the walk goes on.
  | fuel + 1, _, some cur =>
    if price < (db.levels cur).price then treeDescend db price fuel (some cur) (db.levels cur).tree_left
    else treeDescend db price fuel (some cur) (db.levels cur).tree_right

/-- `tree_insert`: the new root and the new heap. -/
def treeInsert (db : EngineDb) (root : Option LevelPtr) (n : LevelPtr) :
    Option (Option LevelPtr × EngineDb) := do
  let db := db.setLevel n fun v =>
    -- The node's own links are cleared before the walk, which does not meet the node.
    { v with tree_left := none, tree_right := none, tree_parent := none, tree_intree := true }
  if root.isNone then return (some n, db)
  let parent ← treeDescend db (db.levels n).price db.levelFuel none root
  let db := db.setLevel n fun v => { v with tree_parent := parent }
  -- Not reached with `none`, since the root is not `NULL`.
  let parent ← parent
  if (db.levels n).price < (db.levels parent).price then
    return (root, db.setLevel parent fun v => { v with tree_left := some n })
  else
    return (root, db.setLevel parent fun v => { v with tree_right := some n })

/-- The block that `tree_remove` has four times: what led to `old`, a child of `par` or the root,
leads to `new`. -/
def replaceChild (db : EngineDb) (root par : Option LevelPtr) (old : LevelPtr)
    (new : Option LevelPtr) : Option LevelPtr × EngineDb :=
  match par with
  | some par =>
    if (db.levels par).tree_left = some old then
      (root, db.setLevel par fun v => { v with tree_left := new })
    -- A node that is no left child is taken for a right one, without a check.
    else (root, db.setLevel par fun v => { v with tree_right := new })
  | none => (new, db)

/-- `if (c != NULL) c->tree_parent = parent`. -/
def setParentOf (db : EngineDb) (c parent : Option LevelPtr) : EngineDb :=
  match c with
  | some c => db.setLevel c fun v => { v with tree_parent := parent }
  | none => db

/-- The loop `while (cur->tree_left != NULL) cur = cur->tree_left`. -/
def treeLeftmost (db : EngineDb) : ℕ → LevelPtr → Option LevelPtr
  | 0, _ => none
  | fuel + 1, cur =>
    match (db.levels cur).tree_left with
    | some left => treeLeftmost db fuel left
    | none => some cur

/-- The loop `while (cur->tree_right != NULL) cur = cur->tree_right`. -/
def treeRightmost (db : EngineDb) : ℕ → LevelPtr → Option LevelPtr
  | 0, _ => none
  | fuel + 1, cur =>
    match (db.levels cur).tree_right with
    | some right => treeRightmost db fuel right
    | none => some cur

/-- The part of the two-child case of `tree_remove` that takes `succ` out of its place when it is
not the right child of `n`. -/
def detachSucc (db : EngineDb) (n succ : LevelPtr) : Option EngineDb := do
  -- The right child itself: it keeps its right subtree and only takes over the left one.
  if (db.levels succ).tree_parent = some n then return db
  let parent ← (db.levels succ).tree_parent
  let db := (db.replaceChild none (some parent) succ (db.levels succ).tree_right).2
  let db := db.setParentOf (db.levels succ).tree_right (db.levels succ).tree_parent
  let db := db.setLevel succ fun v => { v with tree_right := (db.levels n).tree_right }
  return db.setParentOf (db.levels succ).tree_right (some succ)

/-- The rest of the two-child case: `succ` takes the place of `n`. -/
def graftSucc (db : EngineDb) (root : Option LevelPtr) (n succ : LevelPtr) :
    Option LevelPtr × EngineDb :=
  let (root, db) := db.replaceChild root (db.levels n).tree_parent n (some succ)
  let db := db.setLevel succ fun v => { v with tree_parent := (db.levels n).tree_parent }
  -- `tree_left` of `n` is still what it was: `replaceChild` wrote to its parent alone.
  let db := db.setLevel succ fun v => { v with tree_left := (db.levels n).tree_left }
  (root, db.setParentOf (db.levels succ).tree_left (some succ))

/-- The three cases of `tree_remove`, up to the clearing of the removed node's links. -/
def treeUnlink (db : EngineDb) (root : Option LevelPtr) (n : LevelPtr) :
    Option (Option LevelPtr × EngineDb) :=
  match (db.levels n).tree_left, (db.levels n).tree_right with
  -- No left child, so the right one, which may be `NULL`, moves up.
  | none, r =>
    let (root, db) := db.replaceChild root (db.levels n).tree_parent n r
    some (root, db.setParentOf r (db.levels n).tree_parent)
  -- A left child only, which moves up.
  | some l, none =>
    let (root, db) := db.replaceChild root (db.levels n).tree_parent n (some l)
    some (root, db.setParentOf (some l) (db.levels n).tree_parent)
  -- Both: the leftmost node of the right subtree comes in the place of `n`.
  | some _, some r => do
    let succ ← db.treeLeftmost db.levelFuel r
    let db ← db.detachSucc n succ
    return db.graftSucc root n succ

/-- `tree_remove`: the new root and the new heap. -/
def treeRemove (db : EngineDb) (root : Option LevelPtr) (n : LevelPtr) :
    Option (Option LevelPtr × EngineDb) := do
  if !(db.levels n).tree_intree then return (root, db)
  -- The links of `n` stay in place until the tree is whole again.
  let (root, db) ← db.treeUnlink root n
  return (root, db.setLevel n fun v =>
    { v with tree_left := none, tree_right := none, tree_parent := none, tree_intree := false })

/-- `EngineDb_bids_Find`. -/
def bidsFind (db : EngineDb) (price : UInt64) : Option (Option LevelPtr) :=
  db.treeFind price db.levelFuel db.bids_root

/-- `EngineDb_bids_Insert`. -/
def bidsInsert (db : EngineDb) (level : LevelPtr) : Option EngineDb := do
  let (root, db) ← db.treeInsert db.bids_root level
  return { db with bids_root := root, bids_n := db.bids_n + 1 }

/-- `EngineDb_bids_Remove`. -/
def bidsRemove (db : EngineDb) (level : LevelPtr) : Option EngineDb := do
  let (root, db) ← db.treeRemove db.bids_root level
  return { db with bids_root := root, bids_n := if db.bids_n > 0 then db.bids_n - 1 else db.bids_n }

/-- `EngineDb_bids_Best`. -/
def bidsBest (db : EngineDb) : Option (Option LevelPtr) :=
  match db.bids_root with
  | none => some none
  | some cur => (db.treeRightmost db.levelFuel cur).map some

/-- `EngineDb_asks_Find`. -/
def asksFind (db : EngineDb) (price : UInt64) : Option (Option LevelPtr) :=
  db.treeFind price db.levelFuel db.asks_root

/-- `EngineDb_asks_Insert`. -/
def asksInsert (db : EngineDb) (level : LevelPtr) : Option EngineDb := do
  let (root, db) ← db.treeInsert db.asks_root level
  return { db with asks_root := root, asks_n := db.asks_n + 1 }

/-- `EngineDb_asks_Remove`. -/
def asksRemove (db : EngineDb) (level : LevelPtr) : Option EngineDb := do
  let (root, db) ← db.treeRemove db.asks_root level
  return { db with asks_root := root, asks_n := if db.asks_n > 0 then db.asks_n - 1 else db.asks_n }

/-- `EngineDb_asks_Best`. -/
def asksBest (db : EngineDb) : Option (Option LevelPtr) :=
  match db.asks_root with
  | none => some none
  | some cur => (db.treeLeftmost db.levelFuel cur).map some

end MatchingEngine.C.EngineDb
