import MatchingEngine.C.DataLayer
import MatchingEngine.Contract
import MatchingEngine.Lib.Chain
import MatchingEngine.Lib.LinkedTree
import Mathlib.Data.List.Pairwise

/-!
# What the heap represents

`EngineDb.view` reads the abstract store of `Contract.lean` off the heap by walking its links, and
`Rep db g` says that the links are in order: from every free list, level, bucket, and tree root they
spell the lists and trees of the shape `g`, the flags and the counters agree with these, and no row
is in two places. `Rep.view_eq` computes the view of a heap from its shape, so an operation's
contract is a fact about what it does to the shape and to the payload fields.
-/

namespace MatchingEngine.C

open Lib Contract

/-- The client-visible fields of an order row. -/
def Order.row (o : Order) : OrderRow :=
  { id := o.id, account := o.account_id, side := o.side, stp_mode := o.stp_mode, price := o.price,
    qty := o.qty, remaining := o.remaining_qty }

/-- The nodes of a tree of levels in order, by walking its links to at most the depth `fuel`. -/
def EngineDb.treeWalk (db : EngineDb) : ℕ → Option LevelPtr → List LevelPtr
  | _, none => []
  | 0, _ => []
  | fuel + 1, some l =>
    treeWalk db fuel (db.levels l).tree_left ++ l :: treeWalk db fuel (db.levels l).tree_right

namespace EngineDb

variable (db : EngineDb)

/-- The number of order rows reserved. -/
def orderRows : ℕ := db.order_pool_total_allocated.toNat

/-- The number of level rows reserved. -/
def levelRows : ℕ := db.level_pool_total_allocated.toNat

/-- The root of a price tree. -/
def root : Tree → Option LevelPtr
  | .bids => db.bids_root
  | .asks => db.asks_root

/-- The node count of a price tree. -/
def treeN : Tree → UInt32
  | .bids => db.bids_n
  | .asks => db.asks_n

/-- The links of the price trees. -/
def links : Links LevelPtr where
  left l := (db.levels l).tree_left
  right l := (db.levels l).tree_right
  parent l := (db.levels l).tree_parent

/-- The forward links of the queues. -/
def nextLink (p : OrderPtr) : Option OrderPtr := (db.orders p).orders_next

/-- The backward links of the queues. -/
def prevLink (p : OrderPtr) : Option OrderPtr := (db.orders p).orders_prev

/-- The links of the hash buckets. -/
def hashLink (p : OrderPtr) : Option OrderPtr := (db.orders p).ind_order_next

/-- The links of the order free list. -/
def orderFreeLink (p : OrderPtr) : Option OrderPtr := (db.orders p).freenext

/-- The links of the level free list. -/
def levelFreeLink (l : LevelPtr) : Option LevelPtr := (db.levels l).freenext

/-- The live order rows: those reserved and not on the free list. -/
def liveOrders : Finset OrderPtr :=
  (Finset.range db.orderRows).filter
    (· ∉ walk db.orderFreeLink db.orderRows db.order_pool_free)

/-- The live level rows. -/
def liveLevels : Finset LevelPtr :=
  (Finset.range db.levelRows).filter
    (· ∉ walk db.levelFreeLink db.levelRows db.level_pool_free)

/-- The queue of a level, by following its forward links. -/
def queueOf (l : LevelPtr) : List OrderPtr :=
  walk db.nextLink db.orderRows (db.levels l).orders_head

/-- The rows that the bucket of their id leads to. -/
def hashed : Finset OrderPtr :=
  (Finset.range db.orderRows).filter fun p => p ∈ walk db.hashLink db.orderRows
    (db.ind_order_buckets (hashOrderId (db.orders p).id))

/-- The rows flagged as hashed. -/
def flagged : Finset OrderPtr :=
  (Finset.range db.orderRows).filter fun p => (db.orders p).ind_order_inhash

/-- The levels of a price tree in order of price. -/
def treeOf (t : Tree) : List LevelPtr := db.treeWalk db.levelRows (db.root t)

/-- The abstract store that the heap stands for, with no trades. -/
def view : Db where
  orders p := if p ∈ db.liveOrders then some (db.orders p).row else none
  levels l := if l ∈ db.liveLevels then some ⟨(db.levels l).price⟩ else none
  queue := db.queueOf
  hash := db.hashed
  tree t := (db.treeOf t).toFinset
  oLive := db.liveOrders
  lLive := db.liveLevels
  trades := []

end EngineDb

/-- The lists and trees that the links of a heap spell. -/
structure Shape where
  oFree : List OrderPtr
  lFree : List LevelPtr
  queue : LevelPtr → List OrderPtr
  bucket : ℕ → List OrderPtr
  tree : Tree → BinaryTree LevelPtr

/-- A pool: its free list spells `xs`, whose rows are reserved, and its counter counts the rest. -/
structure PoolRep (next : ℕ → Option ℕ) (free : Option ℕ) (n total : UInt64) (xs : List ℕ) :
    Prop where
  chain : Chain next free xs
  lt : ∀ p ∈ xs, p < total.toNat
  count : n.toNat + xs.length = total.toNat
  bound : total.toNat < 2^32

/-- The queues: the links of each level spell `queue`, its counter counts them, and an order's
flag and back pointer say which queue it is in. -/
structure QueuesRep (db : EngineDb) (queue : LevelPtr → List OrderPtr) : Prop where
  linked : ∀ l, Queue db.nextLink db.prevLink (db.levels l).orders_head (db.levels l).orders_tail
    (queue l)
  count : ∀ l, (db.levels l).orders_n.toNat = (queue l).length
  mem : ∀ l p, p ∈ queue l ↔ (db.orders p).p_price_level = some l
  flag : ∀ p, (db.orders p).orders_inlist = (db.orders p).p_price_level.isSome

/-- The hash index: the links of each bucket spell `bucket`, which holds the flagged rows whose id
hashes there, and flagged rows have distinct ids. -/
structure HashRep (db : EngineDb) (bucket : ℕ → List OrderPtr) : Prop where
  chain : ∀ b, Chain db.hashLink (db.ind_order_buckets b) (bucket b)
  mem : ∀ b p, p ∈ bucket b ↔
    (db.orders p).ind_order_inhash ∧ EngineDb.hashOrderId (db.orders p).id = b
  ids : ∀ p q, (db.orders p).ind_order_inhash → (db.orders q).ind_order_inhash →
    (db.orders p).id = (db.orders q).id → p = q

/-- The price trees: the links from each root spell `tree`, in strictly ascending order of price,
the counters count its nodes, and the flags mark the nodes of the two trees, which share none. -/
structure TreesRep (db : EngineDb) (tree : Tree → BinaryTree LevelPtr) : Prop where
  linked : ∀ t, LinkedTree db.links (db.root t) none (tree t)
  sorted : ∀ t, (inorder (tree t)).Pairwise fun l m => (db.levels l).price < (db.levels m).price
  count : ∀ t, (db.treeN t).toNat = (inorder (tree t)).length
  flag : ∀ l, (db.levels l).tree_intree ↔ ∃ t, l ∈ inorder (tree t)
  disjoint : ∀ l, l ∈ inorder (tree .bids) → l ∉ inorder (tree .asks)

/-- The heap `db` has the shape `g`. -/
structure Rep (db : EngineDb) (g : Shape) : Prop where
  oPool : PoolRep db.orderFreeLink db.order_pool_free db.order_pool_n db.order_pool_total_allocated
    g.oFree
  lPool : PoolRep db.levelFreeLink db.level_pool_free db.level_pool_n db.level_pool_total_allocated
    g.lFree
  queues : QueuesRep db g.queue
  hash : HashRep db g.bucket
  trees : TreesRep db g.tree
  /-- Only live orders are queued, in live levels. -/
  queue_live : ∀ l, ∀ p ∈ g.queue l, p ∈ db.liveOrders ∧ l ∈ db.liveLevels
  /-- Only live orders are hashed. -/
  hash_live : ∀ p, (db.orders p).ind_order_inhash → p ∈ db.liveOrders
  /-- Only live levels are in a tree. -/
  tree_live : ∀ t, ∀ l ∈ inorder (g.tree t), l ∈ db.liveLevels
  /-- The index's counter counts the flagged rows. -/
  hash_count : db.ind_order_n.toNat = db.flagged.card

namespace PoolRep

variable {next : ℕ → Option ℕ} {free : Option ℕ} {n total : UInt64} {xs : List ℕ}

/-- No row is free twice. -/
theorem nodup (h : PoolRep next free n total xs) : xs.Nodup := h.chain.nodup

/-- The free list is no longer than the pool. -/
theorem length_le (h : PoolRep next free n total xs) : xs.length ≤ total.toNat := by
  have := h.count; omega

/-- The walk along the free list finds the free rows. -/
theorem walk_eq (h : PoolRep next free n total xs) : walk next total.toNat free = xs :=
  h.chain.walk_eq h.length_le

/-- The live rows: those reserved and not free. -/
theorem card_live (h : PoolRep next free n total xs) :
    ((Finset.range total.toNat).filter (· ∉ xs)).card = n.toNat := by
  have hsub : (Finset.range total.toNat).filter (· ∉ xs) =
      Finset.range total.toNat \ xs.toFinset := by
    ext p; simp
  have hxs : xs.toFinset ⊆ Finset.range total.toNat := fun p hp =>
    Finset.mem_range.mpr (h.lt p (List.mem_toFinset.mp hp))
  rw [hsub, Finset.card_sdiff_of_subset hxs, Finset.card_range, List.toFinset_card_of_nodup h.nodup]
  have := h.count
  omega

end PoolRep

namespace Rep

variable {db : EngineDb} {g : Shape}

/-- A row is live when it is not on the free list. -/
theorem mem_liveOrders (h : Rep db g) {p : OrderPtr} :
    p ∈ db.liveOrders ↔ p < db.orderRows ∧ p ∉ g.oFree := by
  rw [EngineDb.liveOrders, Finset.mem_filter, Finset.mem_range, EngineDb.orderRows, h.oPool.walk_eq]

/-- A level is live when it is not on the free list. -/
theorem mem_liveLevels (h : Rep db g) {l : LevelPtr} :
    l ∈ db.liveLevels ↔ l < db.levelRows ∧ l ∉ g.lFree := by
  rw [EngineDb.liveLevels, Finset.mem_filter, Finset.mem_range, EngineDb.levelRows, h.lPool.walk_eq]

/-- The counter of the order pool counts the live rows. -/
theorem card_liveOrders (h : Rep db g) : db.liveOrders.card = db.order_pool_n.toNat := by
  rw [EngineDb.liveOrders, EngineDb.orderRows, h.oPool.walk_eq]
  exact h.oPool.card_live

/-- The counter of the level pool counts the live rows. -/
theorem card_liveLevels (h : Rep db g) : db.liveLevels.card = db.level_pool_n.toNat := by
  rw [EngineDb.liveLevels, EngineDb.levelRows, h.lPool.walk_eq]
  exact h.lPool.card_live

/-- A duplicate-free list of live orders is no longer than the reserved rows. -/
theorem length_le_orderRows (h : Rep db g) {xs : List OrderPtr} (hnd : xs.Nodup)
    (hxs : ∀ p ∈ xs, p ∈ db.liveOrders) : xs.length ≤ db.orderRows := by
  rw [← List.toFinset_card_of_nodup hnd, ← Finset.card_range db.orderRows]
  refine Finset.card_le_card fun p hp => Finset.mem_range.mpr ?_
  exact (h.mem_liveOrders.mp (hxs p (List.mem_toFinset.mp hp))).1

/-- A duplicate-free list of live levels is no longer than the reserved rows. -/
theorem length_le_levelRows (h : Rep db g) {xs : List LevelPtr} (hnd : xs.Nodup)
    (hxs : ∀ l ∈ xs, l ∈ db.liveLevels) : xs.length ≤ db.levelRows := by
  rw [← List.toFinset_card_of_nodup hnd, ← Finset.card_range db.levelRows]
  refine Finset.card_le_card fun l hl => Finset.mem_range.mpr ?_
  exact (h.mem_liveLevels.mp (hxs l (List.mem_toFinset.mp hl))).1

/-- No order is twice in a queue. -/
theorem queue_nodup (h : Rep db g) (l : LevelPtr) : (g.queue l).Nodup := (h.queues.linked l).nodup

/-- A queue has no more orders than there are rows. -/
theorem queue_length_le (h : Rep db g) (l : LevelPtr) : (g.queue l).length ≤ db.orderRows :=
  h.length_le_orderRows (h.queue_nodup l) fun p hp => (h.queue_live l p hp).1

/-- A bucket has no more orders than there are rows. -/
theorem bucket_length_le (h : Rep db g) (b : ℕ) : (g.bucket b).length ≤ db.orderRows :=
  h.length_le_orderRows (h.hash.chain b).nodup fun p hp =>
    h.hash_live p ((h.hash.mem b p).mp hp).1

/-- The nodes of a tree are distinct, since their prices are. -/
theorem tree_nodup (h : Rep db g) (t : Tree) : (inorder (g.tree t)).Nodup :=
  (h.trees.sorted t).imp fun {a b} hab hne => by
    subst hne; exact absurd hab (by simp)

/-- A tree has no more levels than there are rows. -/
theorem tree_length_le (h : Rep db g) (t : Tree) : (inorder (g.tree t)).length ≤ db.levelRows :=
  h.length_le_levelRows (h.tree_nodup t) (h.tree_live t)

/-- The walk along a level's links finds its queue. -/
theorem queueOf_eq (h : Rep db g) (l : LevelPtr) : db.queueOf l = g.queue l :=
  (h.queues.linked l).fwd.walk_eq (h.queue_length_le l)

/-- The hashed rows are the flagged ones. -/
theorem mem_hashed (h : Rep db g) {p : OrderPtr} :
    p ∈ db.hashed ↔ (db.orders p).ind_order_inhash = true := by
  rw [EngineDb.hashed, Finset.mem_filter, Finset.mem_range,
    (h.hash.chain _).walk_eq (h.bucket_length_le _), h.hash.mem]
  constructor
  · exact fun hp => hp.2.1
  · exact fun hp => ⟨(h.mem_liveOrders.mp (h.hash_live p hp)).1, hp, rfl⟩

/-- The hashed rows are the flagged ones. -/
theorem hashed_eq (h : Rep db g) : db.hashed = db.flagged := by
  ext p
  rw [h.mem_hashed, EngineDb.flagged, Finset.mem_filter, Finset.mem_range]
  exact ⟨fun hp => ⟨(h.mem_liveOrders.mp (h.hash_live p hp)).1, hp⟩, And.right⟩

end Rep

/-- Walking a linked tree with enough fuel lists its nodes in order. -/
theorem EngineDb.treeWalk_eq {db : EngineDb} {t : BinaryTree LevelPtr} :
    ∀ {root par : Option LevelPtr} {fuel : ℕ}, LinkedTree db.links root par t → t.height ≤ fuel →
      db.treeWalk fuel root = inorder t := by
  induction t with
  | nil =>
    intro root par fuel h _
    cases h
    cases fuel <;> rfl
  | node x l r ihl ihr =>
    intro root par fuel h hf
    obtain ⟨rfl, -, hl, hr⟩ := h
    cases fuel with
    | zero => simp [BinaryTree.height] at hf
    | succ fuel =>
      simp only [BinaryTree.height] at hf
      rw [EngineDb.treeWalk, inorder_node]
      congr 1
      -- The left side, the node, the right side, each with the fuel that is left.
      · exact ihl hl (by omega)
      · exact congrArg _ (ihr hr (by omega))

namespace Rep

variable {db : EngineDb} {g : Shape}

/-- The walk through a tree's links finds its levels in order. -/
theorem treeOf_eq (h : Rep db g) (t : Tree) : db.treeOf t = inorder (g.tree t) :=
  EngineDb.treeWalk_eq (h.trees.linked t) ((height_le_length _).trans (h.tree_length_le t))

/-- The levels of a tree are those that the walk finds. -/
theorem mem_tree (h : Rep db g) {t : Tree} {l : LevelPtr} :
    l ∈ db.view.tree t ↔ l ∈ inorder (g.tree t) := by
  rw [← h.treeOf_eq t]; exact List.mem_toFinset

/-! ## The view -/

/-- The orders that the contract sees are those of the live rows. -/
theorem view_orders (p : OrderPtr) :
    db.view.orders p = if p ∈ db.liveOrders then some (db.orders p).row else none := rfl

/-- An order is seen just when its row is live. -/
theorem view_orders_isSome {p : OrderPtr} : (db.view.orders p).isSome ↔ p ∈ db.liveOrders := by
  rw [view_orders]; split <;> simp_all

/-- A live row is seen with its values. -/
theorem view_orders_eq {p : OrderPtr} (hp : p ∈ db.liveOrders) :
    db.view.orders p = some (db.orders p).row := if_pos hp

/-- A level is seen just when its row is live. -/
theorem view_levels_isSome {l : LevelPtr} : (db.view.levels l).isSome ↔ l ∈ db.liveLevels := by
  change (if l ∈ db.liveLevels then _ else _ : Option LevelRow).isSome ↔ _
  split <;> simp_all

/-- A live level is seen with its price. -/
theorem view_levels_eq {l : LevelPtr} (hl : l ∈ db.liveLevels) :
    db.view.levels l = some ⟨(db.levels l).price⟩ := if_pos hl

/-- The id of a live row. -/
theorem view_orderId {p : OrderPtr} (hp : p ∈ db.liveOrders) :
    db.view.orderId p = (db.orders p).id := by
  rw [Db.orderId, view_orders_eq hp]; rfl

/-- The price of a live level. -/
theorem view_levelPrice {l : LevelPtr} (hl : l ∈ db.liveLevels) :
    db.view.levelPrice l = (db.levels l).price := by
  rw [Db.levelPrice, view_levels_eq hl]; rfl

/-- An order is queued when it has an owner. -/
theorem view_queued (h : Rep db g) {p : OrderPtr} :
    db.view.queued p ↔ (db.orders p).p_price_level.isSome := by
  rw [Option.isSome_iff_exists]
  exact exists_congr fun l => by rw [← h.queues.mem l p, ← h.queueOf_eq l]; rfl

/-- Two tree nodes of one price are one. -/
theorem tree_price_inj (h : Rep db g) {t : Tree} {l m : LevelPtr} (hl : l ∈ inorder (g.tree t))
    (hm : m ∈ inorder (g.tree t)) (hp : (db.levels l).price = (db.levels m).price) : l = m := by
  by_contra hne
  have hprices := (h.trees.sorted t).imp (S := fun a b => (db.levels a).price ≠ (db.levels b).price)
    fun {a b} hab heq => by rw [heq] at hab; exact absurd hab (by simp)
  have : Std.Symm fun a b => (db.levels a).price ≠ (db.levels b).price := ⟨fun _ _ h => h.symm⟩
  exact hprices.forall hl hm hne hp

/-- The view of a heap in order is well formed. -/
theorem view_wf (h : Rep db g) : db.view.WF where
  queue_live l p hp := by
    obtain ⟨h₁, h₂⟩ := h.queue_live l p (by rwa [← h.queueOf_eq l])
    exact ⟨view_orders_isSome.mpr h₁, view_levels_isSome.mpr h₂⟩
  queue_nodup l := by
    change (db.queueOf l).Nodup
    rw [h.queueOf_eq]; exact h.queue_nodup l
  queue_unique l₁ l₂ p h₁ h₂ := by
    change p ∈ db.queueOf l₁ at h₁
    change p ∈ db.queueOf l₂ at h₂
    -- A row names the one level whose queue it is in.
    rw [h.queueOf_eq, h.queues.mem] at h₁ h₂
    exact Option.some.inj (h₁.symm.trans h₂)
  hash_live p hp := view_orders_isSome.mpr (h.hash_live p (h.mem_hashed.mp hp))
  hash_ids p hp q hq hid := by
    have hp' := h.mem_hashed.mp hp
    have hq' := h.mem_hashed.mp hq
    rw [view_orderId (h.hash_live p hp'), view_orderId (h.hash_live q hq')] at hid
    exact h.hash.ids p q hp' hq' hid
  tree_live t l hl := view_levels_isSome.mpr (h.tree_live t l (h.mem_tree.mp hl))
  tree_disjoint := Finset.disjoint_left.mpr fun l hl hl' =>
    h.trees.disjoint l (h.mem_tree.mp hl) (h.mem_tree.mp hl')
  tree_prices t l hl m hm hp := by
    have hl' := h.mem_tree.mp hl
    have hm' := h.mem_tree.mp hm
    rw [view_levelPrice (h.tree_live t l hl'), view_levelPrice (h.tree_live t m hm')] at hp
    exact h.tree_price_inj hl' hm' hp
  orders_live _ := view_orders_isSome
  levels_live _ := view_levels_isSome

/-- The view's queues, index, and trees by shape. -/
theorem view_queue (h : Rep db g) : db.view.queue = g.queue := funext h.queueOf_eq

/-- The indexed orders are the flagged ones. -/
theorem view_hash (h : Rep db g) : db.view.hash = db.flagged := h.hashed_eq

/-- The trees that are seen are those of the links. -/
theorem view_tree (h : Rep db g) : db.view.tree = fun t => (inorder (g.tree t)).toFinset :=
  funext fun t => congrArg List.toFinset (h.treeOf_eq t)

end Rep

end MatchingEngine.C
