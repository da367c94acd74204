import MatchingEngine.Hand.Structure

/-!
# The invariant check

`MatchingEngine_CheckInvariants` of `c/src/matching_engine.c`, which walks the whole heap, and what
it takes for it to succeed: a sound heap whose totals are sums and whose buckets are its orders.

A function here returns `none` where the C function does not return, and else an option with `none`
for `false`. On `false` every caller returns at once, so what the C functions have added to their
accumulators by then is not modelled.
-/

namespace MatchingEngine

open Contract Lib

namespace C.EngineDb

/-! ## The code -/

/-- The loop of `validate_price_level` on its variables `ord`, `count`, `sum_qty`, and `prev`. -/
def validateQueueFrom (db : EngineDb) (lvl : LevelPtr) (expected_side : UInt64) :
    ℕ → Option OrderPtr → UInt32 → UInt64 → Option OrderPtr →
      Option (Option (UInt32 × UInt64 × Option OrderPtr))
  | 0, _, _, _, _ => none
  | _ + 1, none, count, sum_qty, prev => some (some (count, sum_qty, prev))
  | fuel + 1, some ord, count, sum_qty, prev =>
    let o := db.orders ord
    -- The links to the row before and to the level, and the payload that must agree with it.
    if o.orders_prev ≠ prev then some none
    else if o.p_price_level ≠ some lvl then some none
    else if o.price ≠ (db.levels lvl).price then some none
    else if o.side ≠ expected_side then some none
    else if o.remaining_qty = 0 ∨ o.remaining_qty > o.qty then some none
    -- The flags, and the way through the index back to this row.
    else if !o.orders_inlist then some none
    else if !o.ind_order_inhash then some none
    else (db.indOrderFind o.id).bind fun found =>
      if found ≠ some ord then some none
      else validateQueueFrom db lvl expected_side fuel o.orders_next (count + 1)
        (sum_qty + o.remaining_qty) (some ord)

/-- `validate_price_level` on a level that is not `NULL`: the new `order_count_acc`. -/
def validatePriceLevel (db : EngineDb) (lvl : LevelPtr) (expected_side : UInt64)
    (order_count_acc : UInt32) : Option (Option UInt32) :=
  if (db.levels lvl).orders_n = 0 then some none
  else
    (db.validateQueueFrom lvl expected_side db.orderFuel (db.levels lvl).orders_head 0 0 none).map
      fun r => r.bind fun (count, sum_qty, prev) =>
        if (db.levels lvl).orders_tail ≠ prev then none
        else if (db.levels lvl).orders_n ≠ count then none
        else if (db.levels lvl).total_qty ≠ sum_qty then none
        else some (order_count_acc + count)

/-- `validate_bst`, with an absent bound for one whose flag is not set: the new `node_count_acc` and
`order_count_acc`. -/
def validateBst (db : EngineDb) (side : UInt64) : ℕ → Option LevelPtr → Option LevelPtr →
    Option UInt64 → Option UInt64 → UInt32 → UInt32 → Option (Option (UInt32 × UInt32))
  | _, none, _, _, _, node_count, order_count => some (some (node_count, order_count))
  | 0, some _, _, _, _, _, _ => none
  | fuel + 1, some node, parent, min_price, max_price, node_count, order_count =>
    let v := db.levels node
    if v.tree_parent ≠ parent then some none
    else if !v.tree_intree then some none
    -- The price lies strictly between the bounds that the nodes above set.
    else if min_price.any (v.price ≤ ·) then some none
    else if max_price.any (· ≤ v.price) then some none
    else (db.validatePriceLevel node side order_count).bind fun
      | none => some none
      | some order_count =>
        -- The left side, then the right side with the counts so far.
        (validateBst db side fuel v.tree_left (some node) min_price (some v.price) (node_count + 1)
          order_count).bind fun
        | none => some none
        | some (node_count, order_count) =>
          validateBst db side fuel v.tree_right (some node) (some v.price) max_price node_count
            order_count

/-- The loop over the bucket that starts with `ord`: the new `hash_entry_count`. -/
def checkBucketFrom (db : EngineDb) : ℕ → Option OrderPtr → UInt32 → Option (Option UInt32)
  | 0, _, _ => none
  | _ + 1, none, hash_entry_count => some (some hash_entry_count)
  | fuel + 1, some ord, hash_entry_count =>
    if !(db.orders ord).ind_order_inhash then some none
    else if !(db.orders ord).orders_inlist then some none
    else if (db.orders ord).p_price_level.isNone then some none
    else checkBucketFrom db fuel (db.orders ord).ind_order_next (hash_entry_count + 1)

/-- The loop over the first `b` buckets. -/
def checkBuckets (db : EngineDb) : ℕ → Option (Option UInt32)
  | 0 => some (some 0)
  | b + 1 => (checkBuckets db b).bind fun
    | none => some none
    | some hash_entry_count =>
      db.checkBucketFrom db.orderFuel (db.ind_order_buckets b) hash_entry_count

/-- `MatchingEngine_CheckInvariants`. The buckets are always allocated. -/
def checkInvariants (db : EngineDb) : Option Bool := do
  let best_bid ← db.bidsBest
  let best_ask ← db.asksBest
  -- A crossed book.
  if best_bid.any fun bid => best_ask.any fun ask => (db.levels bid).price ≥ (db.levels ask).price then
    return false
  let some (bids_nodes, bids_orders) ← db.validateBst 0 db.levelFuel db.bids_root none none none 0 0
    | return false
  if bids_nodes ≠ db.bids_n then return false
  let some (asks_nodes, asks_orders) ← db.validateBst 1 db.levelFuel db.asks_root none none none 0 0
    | return false
  if asks_nodes ≠ db.asks_n then return false
  -- The counters of the index and of the two pools.
  let total_resting_orders := bids_orders + asks_orders
  if db.ind_order_n ≠ total_resting_orders then return false
  if db.order_pool_n ≠ total_resting_orders.toUInt64 then return false
  if db.level_pool_n ≠ (db.bids_n + db.asks_n).toUInt64 then return false
  let some hash_entry_count ← db.checkBuckets orderHashBuckets.toNat | return false
  return hash_entry_count = db.ind_order_n

end C.EngineDb

namespace Hand

open C

/-! ## What passes -/

/-- The heap passes the check, with the layout `y` and the buckets `bucket`: it is sound, the totals
of its levels are sums modulo `2^64`, the buckets hold its orders, and no walk takes more turns than
there are rows. -/
structure Exact (db : EngineDb) (y : Layout) (bucket : ℕ → List OrderPtr) : Prop where
  sound : Sound db y
  total : ∀ t, ∀ l ∈ y.levels t, (db.levels l).total_qty.toNat =
    ((y.queue l).map fun p => (db.orders p).remaining_qty.toNat).sum % 2^64
  chain : ∀ b, Chain db.hashLink (db.ind_order_buckets b) (bucket b)
  mem_bucket : ∀ b p, p ∈ bucket b ↔ p ∈ y.orders ∧ EngineDb.hashOrderId (db.orders p).id = b
  order_rows : y.orders.length ≤ db.orderRows
  level_rows : (y.levels .bids).length + (y.levels .asks).length ≤ db.levelRows
  level_bound : db.levelRows < 2^32

/-- A sum of words is the sum of their numbers modulo `2^64`. -/
theorem toNat_sum (xs : List UInt64) : xs.sum.toNat = (xs.map UInt64.toNat).sum % 2^64 := by
  induction xs with
  | nil => rfl
  | cons x xs ih =>
    rw [List.sum_cons, List.map_cons, List.sum_cons, UInt64.toNat_add, ih]
    omega

section Exact

variable {db : EngineDb} {y : Layout} {bucket : ℕ → List OrderPtr} {t : Tree} {l : LevelPtr}

/-- The walks down a tree end. -/
theorem Exact.height_le (h : Exact db y bucket) (t : Tree) : (y.tree t).height ≤ db.levelFuel := by
  have hrows := h.level_rows
  have hlen : (y.tree t).height ≤ (y.levels t).length := height_le_length _
  unfold C.EngineDb.levelFuel
  change _ ≤ db.levelRows + 1
  cases t <;> omega

/-- The queue of a level is no longer than the order rows. -/
theorem Exact.queue_length_le (h : Exact db y bucket) (hl : l ∈ y.levels t) :
    (y.queue l).length ≤ db.orderRows := by
  refine le_trans ?_ h.order_rows
  refine List.Sublist.length_le (List.sublist_flatten_of_mem (List.mem_map_of_mem ?_))
  cases t
  · exact List.mem_append_left _ hl
  · exact List.mem_append_right _ hl

/-- The walk along a queue finds every check met, whatever part of it is already behind. -/
theorem validateQueueFrom_eq (h : Sound db y) (hl : l ∈ y.levels t) {bs : List OrderPtr} :
    ∀ (as : List OrderPtr) (fuel : ℕ) (count : UInt32) (sum_qty : UInt64),
      y.queue l = as ++ bs → bs.length < fuel →
      db.validateQueueFrom l t.code fuel bs.head? count sum_qty as.getLast? =
        some (some (count + UInt32.ofNat bs.length,
          sum_qty + (bs.map fun p => (db.orders p).remaining_qty).sum, (y.queue l).getLast?)) := by
  induction bs with
  | nil =>
    intro as fuel count sum_qty hq hf
    obtain ⟨fuel, rfl⟩ := Nat.exists_eq_succ_of_ne_zero (Nat.ne_zero_of_lt hf)
    rw [hq, List.append_nil, List.map_nil, List.sum_nil]
    change some (some (count, sum_qty, _)) = some (some (count + 0, sum_qty + 0, _))
    rw [UInt32.add_zero, UInt64.add_zero]
  | cons p bs ih =>
    intro as fuel count sum_qty hq hf
    obtain ⟨fuel, rfl⟩ := Nat.exists_eq_succ_of_ne_zero (Nat.ne_zero_of_lt hf)
    have hp : p ∈ y.queue l := hq ▸ List.mem_append_right _ List.mem_cons_self
    obtain ⟨hprice, hside, hown, hin, hhash, hpos, hle⟩ := h.row t l p ⟨hl, hp⟩
    have hlinks := h.queue l
    rw [hq] at hlinks
    obtain ⟨found, hfind, hmem⟩ := h.find (db.orders p).id
    have hfound : found = some p := (hmem p).mpr ⟨y.mem_orders.mpr ⟨t, l, hl, hp⟩, rfl⟩
    -- The rest of the queue, with this row behind.
    have hstep := ih (as ++ [p]) fuel (count + 1) (sum_qty + (db.orders p).remaining_qty)
      (by rw [hq]; simp) (Nat.lt_of_succ_lt_succ hf)
    -- The remaining quantity is positive, and at most the quantity.
    have hqty : ¬ ((db.orders p).remaining_qty = 0 ∨ (db.orders p).remaining_qty >
        (db.orders p).qty) := by
      rw [not_or]
      exact ⟨UInt64.pos_iff_ne_zero.mp hpos, UInt64.not_lt.mpr hle⟩
    have hprev : (db.orders p).orders_prev = as.getLast? := hlinks.prev_eq
    have hnext : (db.orders p).orders_next = bs.head? := hlinks.next_eq
    rw [List.head?_cons, C.EngineDb.validateQueueFrom]
    rw [if_neg (not_not.mpr hprev), if_neg (not_not.mpr hown), if_neg (not_not.mpr hprice),
      if_neg (not_not.mpr hside), if_neg hqty, hin, Bool.not_true,
      if_neg Bool.false_ne_true, hhash, Bool.not_true, if_neg Bool.false_ne_true, hfind,
        Option.bind_some, if_neg (not_not.mpr hfound), hnext]
    rw [List.getLast?_concat] at hstep
    rw [hstep, List.length_cons, List.map_cons, List.sum_cons, UInt32.ofNat_add, add_assoc, add_assoc,
      add_comm (UInt32.ofNat bs.length)]
    rfl

/-- The check of a level is met, and adds its orders to the count. -/
theorem Exact.validatePriceLevel_eq (h : Exact db y bucket) (hl : l ∈ y.levels t) (acc : UInt32) :
    db.validatePriceLevel l t.code acc = some (some (acc + UInt32.ofNat (y.queue l).length)) := by
  have hlen := h.queue_length_le hl
  have hcount := h.sound.queue_count l
  have hpos := List.length_pos_of_ne_nil (h.sound.nonempty t l hl)
  -- The walk along the whole queue, from nothing counted.
  have hwalk := validateQueueFrom_eq h.sound hl [] db.orderFuel 0 0 rfl (Nat.lt_succ_of_le hlen)
  have hhead : (y.queue l).head? = (db.levels l).orders_head := (h.sound.queue l).fwd.start_eq.symm
  have htail : (y.queue l).getLast? = (db.levels l).orders_tail := (h.sound.queue l).tail_eq.symm
  have hn : (db.levels l).orders_n = 0 + UInt32.ofNat (y.queue l).length := by
    rw [UInt32.zero_add, ← hcount, UInt32.ofNat_toNat]
  -- A level of a tree has orders.
  have hne : (db.levels l).orders_n ≠ 0 := fun h0 => by
    rw [h0] at hcount
    exact hpos.ne hcount
  have htotal : (db.levels l).total_qty =
      0 + ((y.queue l).map fun p => (db.orders p).remaining_qty).sum := by
    rw [zero_add, ← UInt64.toNat_inj, toNat_sum, h.total t l hl, List.map_map]
    rfl
  rw [hhead, htail] at hwalk
  unfold C.EngineDb.validatePriceLevel
  rw [if_neg hne]
  refine (congrArg _ hwalk).trans ?_
  rw [Option.map_some, Option.bind_some]
  dsimp only
  rw [if_neg (not_not.mpr rfl), if_neg (not_not.mpr hn), if_neg (not_not.mpr htotal), UInt32.zero_add]

/-- The number of orders in the queues of a list of levels. -/
def Layout.ordersIn (y : Layout) (ls : List LevelPtr) : ℕ := (ls.flatMap y.queue).length

/-- The check of a tree is met below every node, by induction on the depth that the walk may still
go. -/
theorem validateBst_eq (h : Exact db y bucket) {u : BinaryTree LevelPtr} :
    ∀ (fuel : ℕ) (root par : Option LevelPtr) (lo hi : Option UInt64) (nodes orders : UInt32),
      LinkedTree db.links root par u → u.height ≤ fuel → (∀ l ∈ inorder u, l ∈ y.levels t) →
      ((inorder u).Pairwise fun l m => (db.levels l).price < (db.levels m).price) →
      (∀ l ∈ inorder u, ∀ p ∈ lo, p < (db.levels l).price) →
      (∀ l ∈ inorder u, ∀ p ∈ hi, (db.levels l).price < p) →
      db.validateBst t.code fuel root par lo hi nodes orders =
        some (some (nodes + UInt32.ofNat (inorder u).length,
          orders + UInt32.ofNat (y.ordersIn (inorder u)))) := by
  induction u with
  | nil =>
    intro fuel root par lo hi nodes orders hlink hf hmem hsorted hlo hhi
    cases hlink
    cases fuel <;> simp [C.EngineDb.validateBst, Layout.ordersIn]
  | node x u v ihu ihv =>
    intro fuel root par lo hi nodes orders hlink hf hmem hsorted hlo hhi
    obtain ⟨rfl, hpar, hu, hv⟩ := hlink
    obtain ⟨fuel, rfl⟩ : ∃ n, fuel = n + 1 := by
      refine Nat.exists_eq_succ_of_ne_zero fun h0 => ?_
      rw [h0] at hf
      simp [BinaryTree.height] at hf
    rw [inorder_node] at hmem hsorted hlo hhi
    obtain ⟨hsu, hsv, hcross⟩ := List.pairwise_append.mp hsorted
    obtain ⟨hxv, hsv⟩ := List.pairwise_cons.mp hsv
    have hx : x ∈ y.levels t := hmem x (by simp)
    have hin : (db.levels x).tree_intree = true := (h.sound.intree x).mpr ⟨t, hx⟩
    -- The price is above the lower bound, if there is one, and below the upper.
    have hlow : ¬ lo.any ((db.levels x).price ≤ ·) = true := by
      cases lo with
      | none => exact Bool.false_ne_true
      | some p =>
        have := hlo x (by simp) p rfl
        simpa using this
    have hhigh : ¬ hi.any (· ≤ (db.levels x).price) = true := by
      cases hi with
      | none => exact Bool.false_ne_true
      | some p =>
        have := hhi x (by simp) p rfl
        simpa using this
    simp only [BinaryTree.height] at hf
    -- The price bounds the left side from above, and the right side from below.
    have hleft := ihu fuel _ _ lo (some (db.levels x).price) (nodes + 1)
      (orders + UInt32.ofNat (y.queue x).length) hu (by omega)
      (fun l hl => hmem l (by simp [hl])) hsu (fun l hl => hlo l (by simp [hl]))
      (fun l hl p hp => by cases hp; exact hcross l hl x (by simp))
    have hright := ihv fuel _ _ (some (db.levels x).price) hi
      (nodes + 1 + UInt32.ofNat (inorder u).length)
      (orders + UInt32.ofNat (y.queue x).length + UInt32.ofNat (y.ordersIn (inorder u)))
      hv (by omega) (fun l hl => hmem l (by simp [hl])) hsv
      (fun l hl p hp => by cases hp; exact hxv l hl) (fun l hl => hhi l (by simp [hl]))
    have hl : (db.levels x).tree_left = db.links.left x := rfl
    have hr : (db.levels x).tree_right = db.links.right x := rfl
    have hp : (db.levels x).tree_parent = par := hpar
    unfold C.EngineDb.validateBst
    dsimp only
    rw [if_neg (not_not.mpr hp), hin, Bool.not_true, if_neg Bool.false_ne_true, if_neg hlow,
      if_neg hhigh, h.validatePriceLevel_eq hx, Option.bind_some, hl, hr]
    dsimp only
    rw [hleft, Option.bind_some]
    dsimp only
    rw [hright, inorder_node]
    unfold Layout.ordersIn
    simp only [List.length_append, List.length_cons, List.flatMap_append, List.flatMap_cons,
      UInt32.ofNat_add]
    congr 3
    -- The nodes and the orders are counted in another order.
    · ac_rfl
    · ac_rfl

/-- The walk along a bucket finds every check met. -/
theorem Exact.checkBucketFrom_eq (h : Exact db y bucket) {ps : List OrderPtr} :
    ∀ (fuel : ℕ) (start : Option OrderPtr) (n : UInt32), Chain db.hashLink start ps →
      (∀ p ∈ ps, p ∈ y.orders) → ps.length < fuel →
      db.checkBucketFrom fuel start n = some (some (n + UInt32.ofNat ps.length)) := by
  induction ps with
  | nil =>
    intro fuel start n hchain _ hf
    obtain ⟨fuel, rfl⟩ := Nat.exists_eq_succ_of_ne_zero (Nat.ne_zero_of_lt hf)
    cases hchain.start_eq
    change some (some n) = some (some (n + 0))
    rw [UInt32.add_zero]
  | cons p ps ih =>
    intro fuel start n hchain hmem hf
    obtain ⟨fuel, rfl⟩ := Nat.exists_eq_succ_of_ne_zero (Nat.ne_zero_of_lt hf)
    obtain ⟨t, l, hrest⟩ := y.mem_orders.mp (hmem p List.mem_cons_self)
    obtain ⟨-, -, hown, hin, hhash, -⟩ := h.sound.row t l p hrest
    obtain ⟨rfl, hchain⟩ := hchain
    -- The row rests, so it is flagged and has a level, and the walk goes on behind it.
    have hstep := ih fuel _ (n + 1) hchain (fun q hq => hmem q (List.mem_cons_of_mem _ hq))
      (Nat.lt_of_succ_lt_succ hf)
    unfold C.EngineDb.checkBucketFrom
    rw [hhash, hin, hown, Bool.not_true, if_neg Bool.false_ne_true, if_neg Bool.false_ne_true,
      Option.isNone_some, if_neg Bool.false_ne_true]
    refine hstep.trans ?_
    rw [List.length_cons, UInt32.ofNat_add, UInt32.add_assoc, UInt32.add_comm 1]
    rfl

/-- The buckets so far hold the orders so far. -/
theorem Exact.checkBuckets_eq (h : Exact db y bucket) (b : ℕ) :
    db.checkBuckets b = some (some (UInt32.ofNat ((List.range b).flatMap bucket).length)) := by
  induction b with
  | zero => rfl
  | succ b ih =>
    have hmem : ∀ p ∈ bucket b, p ∈ y.orders := fun p hp => ((h.mem_bucket b p).mp hp).1
    have hlen : (bucket b).length < db.orderFuel := by
      refine Nat.lt_succ_of_le (le_trans ?_ h.order_rows)
      exact ((h.chain b).nodup.subperm hmem).length_le
    unfold C.EngineDb.checkBuckets
    rw [ih, Option.bind_some]
    refine (h.checkBucketFrom_eq db.orderFuel _ _ (h.chain b) hmem hlen).trans ?_
    rw [List.range_succ, List.flatMap_append, List.length_append, UInt32.ofNat_add,
      List.flatMap_singleton]

/-- A hash is the number of a bucket. -/
theorem hashOrderId_lt (id : UInt64) : C.EngineDb.hashOrderId id < orderHashBuckets.toNat := by
  have hmask : (orderHashBuckets - 1).toNat < orderHashBuckets.toNat := by decide
  unfold C.EngineDb.hashOrderId
  rw [UInt64.toNat_toUInt32, UInt64.toNat_and]
  exact ((Nat.mod_le _ _).trans Nat.and_le_right).trans_lt hmask

/-- The buckets hold every order once. -/
theorem Exact.length_buckets (h : Exact db y bucket) :
    ((List.range orderHashBuckets.toNat).flatMap bucket).length = y.orders.length := by
  refine List.Perm.length_eq ((List.perm_ext_iff_of_nodup ?_ h.sound.nodup).mpr fun p => ?_)
  · refine List.nodup_flatMap.mpr ⟨fun b _ => (h.chain b).nodup, ?_⟩
    refine List.nodup_range.imp fun {a b} hab p ha hb => hab ?_
    exact ((h.mem_bucket a p).mp ha).2.symm.trans ((h.mem_bucket b p).mp hb).2
  · rw [List.mem_flatMap]
    constructor
    · rintro ⟨b, -, hp⟩
      exact ((h.mem_bucket b p).mp hp).1
    · intro hp
      refine ⟨_, List.mem_range.mpr ?_, (h.mem_bucket _ p).mpr ⟨hp, rfl⟩⟩
      exact hashOrderId_lt _

/-- The check of a whole tree is met, and counts its levels and orders. -/
theorem Exact.validateTree_eq (h : Exact db y bucket) (t : Tree) :
    db.validateBst t.code db.levelFuel (db.root t) none none none 0 0 =
      some (some (db.treeN t, UInt32.ofNat (y.ordersIn (y.levels t)))) := by
  have hwalk := validateBst_eq (t := t) h db.levelFuel (db.root t) none none none 0 0
    (h.sound.linked t) (h.height_le t) (fun l hl => hl) (h.sound.sorted t) nofun nofun
  have hcount : db.treeN t = UInt32.ofNat (inorder (y.tree t)).length := by
    have hn : (db.treeN t).toNat = (inorder (y.tree t)).length := h.sound.tree_count t
    rw [← hn, UInt32.ofNat_toNat]
  rw [hwalk, UInt32.zero_add, UInt32.zero_add, ← hcount]
  rfl

/-- The two trees hold every order. -/
theorem Layout.length_orders (y : Layout) :
    y.orders.length = y.ordersIn (y.levels .bids) + y.ordersIn (y.levels .asks) := by
  unfold Layout.orders Layout.ordersIn
  rw [List.flatMap_append, List.length_append]

/-- A heap in order passes the check. -/
theorem Exact.checkInvariants_eq (h : Exact db y bucket) : db.checkInvariants = some true := by
  have hbid : db.bidsBest = _ := C.EngineDb.bestOf_linked .bids _ (h.sound.linked .bids) (h.height_le _)
  have hask : db.asksBest = _ := C.EngineDb.bestOf_linked .asks _ (h.sound.linked .asks) (h.height_le _)
  have hbids : db.validateBst 0 db.levelFuel db.bids_root none none none 0 0 =
      some (some (db.bids_n, UInt32.ofNat (y.ordersIn (y.levels .bids)))) := h.validateTree_eq .bids
  have hasks : db.validateBst 1 db.levelFuel db.asks_root none none none 0 0 =
      some (some (db.asks_n, UInt32.ofNat (y.ordersIn (y.levels .asks)))) := h.validateTree_eq .asks
  have hbuckets := h.checkBuckets_eq orderHashBuckets.toNat
  have hindex : db.ind_order_n = UInt32.ofNat y.orders.length := by
    rw [← h.sound.index_count, UInt32.ofNat_toNat]
  -- The orders of the two sides are all the orders.
  have hresting : UInt32.ofNat (y.ordersIn (y.levels .bids)) +
      UInt32.ofNat (y.ordersIn (y.levels .asks)) = db.ind_order_n := by
    rw [hindex, y.length_orders, UInt32.ofNat_add]
  have horders : db.order_pool_n = db.ind_order_n.toUInt64 := by
    rw [← UInt64.toNat_inj, UInt32.toNat_toUInt64, h.sound.order_count, h.sound.index_count]
  have hlevels : db.level_pool_n = (db.bids_n + db.asks_n).toUInt64 := by
    have hb : db.bids_n.toNat = _ := h.sound.tree_count .bids
    have ha : db.asks_n.toNat = _ := h.sound.tree_count .asks
    have hrows := h.level_rows
    have hbound := h.level_bound
    rw [← UInt64.toNat_inj, UInt32.toNat_toUInt64, UInt32.toNat_add, h.sound.level_count, hb, ha]
    omega
  -- The test on the best prices is the one that the order of the book excludes.
  have huncrossed : ¬ (((inorder (y.tree .bids)).getLast?.any fun bid =>
      (inorder (y.tree .asks)).head?.any fun ask => (db.levels bid).price ≥ (db.levels ask).price) =
        true) := by
    intro hcross
    obtain ⟨bid, hb, hcross⟩ := (Option.any_eq_true _ _).mp hcross
    obtain ⟨ask, ha, hcross⟩ := (Option.any_eq_true _ _).mp hcross
    have hlt := h.sound.uncrossed bid ask (hbid.trans (congrArg some hb))
      (hask.trans (congrArg some ha))
    exact UInt64.not_le.mpr hlt (of_decide_eq_true hcross)
  rw [h.length_buckets, ← hindex] at hbuckets
  unfold C.EngineDb.checkInvariants
  rw [hbid, hask]
  simp only [Option.bind_eq_bind, Option.bind_some]
  rw [if_neg huncrossed, hbids]
  simp only [Option.bind_some]
  rw [if_neg (not_not.mpr rfl), hasks]
  simp only [Option.bind_some]
  rw [if_neg (not_not.mpr rfl), hresting, if_neg (not_not.mpr rfl), if_neg (not_not.mpr horders),
    if_neg (not_not.mpr hlevels), hbuckets]
  simp

end Exact

end Hand

end MatchingEngine
