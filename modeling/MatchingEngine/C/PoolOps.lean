import MatchingEngine.C.Frame

/-!
# The pools

`EngineDb_order_pool_Alloc`, `EngineDb_level_pool_Alloc`, and their `Free`s on a heap in order. A
free row is in no queue, no bucket, and no tree, and its flags say so, so handing it out or taking
it back moves one row between the free list and the live rows and changes nothing else.

Handing out is `takeOrder` and `takeLevel`, the part of the allocation after the test for an empty
list. The same two lemmas on free lists, `take` and `put`, serve both pools. A reservation pushes
the rows of a new chunk one by one (`pushFreeOrders`), which no structure sees because rows beyond
the old total are dead. The last sections start from `EngineDb_Init`, with the free lists in closed
form.
-/

namespace MatchingEngine.C

open Lib Contract

variable {db db' : EngineDb} {g : Shape} {p : OrderPtr} {l : LevelPtr} {rest : List ℕ}

/-! ## One free list -/

namespace PoolRep

variable {next next' : ℕ → Option ℕ} {free : Option ℕ} {n total : UInt64} {x : ℕ} {xs : List ℕ}

/-- The first free row taken. -/
theorem take (h : PoolRep next free n total (x :: xs)) (hc : ∀ z, z ≠ x → next' z = next z) :
    PoolRep next' (next x) (n + 1) total xs where
  chain := h.chain.2.congr fun z hz => hc z fun hzx =>
    (List.nodup_cons.mp h.nodup).1 (hzx ▸ hz)
  lt z hz := h.lt z (List.mem_cons_of_mem _ hz)
  count := by
    have hcount := h.count
    have hbound := h.bound
    have h1 : (1 : UInt64).toNat = 1 := rfl
    rw [List.length_cons] at hcount
    rw [UInt64.toNat_add, h1]
    omega
  bound := h.bound

/-- A row put back. -/
theorem put (h : PoolRep next free n total xs) (hx : next' x = free) (hlt : x < total.toNat)
    (hfresh : x ∉ xs) (hc : ∀ z, z ≠ x → next' z = next z) :
    PoolRep next' (some x) (if n > 0 then n - 1 else n) total (x :: xs) where
  chain := h.chain.cons hx fun z hz => hc z fun hzx => hfresh (hzx ▸ hz)
  lt z hz := by
    rcases List.mem_cons.mp hz with rfl | hz
    · exact hlt
    · exact h.lt z hz
  count := by
    -- Another row than those of the list is reserved, so the counter is positive.
    have hlen : (x :: xs).length ≤ total.toNat := by
      rw [← List.toFinset_card_of_nodup (List.nodup_cons.mpr ⟨hfresh, h.nodup⟩),
        ← Finset.card_range total.toNat]
      refine Finset.card_le_card fun z hz => Finset.mem_range.mpr ?_
      rcases List.mem_cons.mp (List.mem_toFinset.mp hz) with rfl | hz
      · exact hlt
      · exact h.lt z hz
    have hcount := h.count
    have h1 : (1 : UInt64).toNat = 1 := rfl
    rw [List.length_cons] at hlen ⊢
    have hpos : n > 0 := by rw [gt_iff_lt, UInt64.lt_iff_toNat_lt]; simp only [UInt64.toNat_zero]; omega
    have hle : (1 : UInt64) ≤ n := by rw [UInt64.le_iff_toNat_le]; omega
    rw [if_pos hpos, UInt64.toNat_sub_of_le _ _ hle]
    omega
  bound := h.bound

/-- A row that is not free is live. -/
theorem mem_liveOrders {xs : List ℕ} (h : PoolRep db.orderFreeLink db.order_pool_free
    db.order_pool_n db.order_pool_total_allocated xs) :
    p ∈ db.liveOrders ↔ p < db.orderRows ∧ p ∉ xs := by
  rw [EngineDb.liveOrders, Finset.mem_filter, Finset.mem_range, EngineDb.orderRows, h.walk_eq]

/-- A level that is not free is live. -/
theorem mem_liveLevels {xs : List ℕ} (h : PoolRep db.levelFreeLink db.level_pool_free
    db.level_pool_n db.level_pool_total_allocated xs) :
    l ∈ db.liveLevels ↔ l < db.levelRows ∧ l ∉ xs := by
  rw [EngineDb.liveLevels, Finset.mem_filter, Finset.mem_range, EngineDb.levelRows, h.walk_eq]

end PoolRep

namespace EngineDb

/-- The loop of `EngineDb_order_pool_ReserveMem` writes order rows and the free list. -/
theorem pushFreeOrders_eq (base i : ℕ) : db.pushFreeOrders base i = { db with
    orders := (db.pushFreeOrders base i).orders
    order_pool_free := (db.pushFreeOrders base i).order_pool_free } := by
  induction i with
  | zero => rfl
  | succ i ih => rw [pushFreeOrders, ih]

/-- Only the levels and their free list are written. -/
theorem pushFreeLevels_eq (base i : ℕ) : db.pushFreeLevels base i = { db with
    levels := (db.pushFreeLevels base i).levels
    level_pool_free := (db.pushFreeLevels base i).level_pool_free } := by
  induction i with
  | zero => rfl
  | succ i ih => rw [pushFreeLevels, ih]

/-- `EngineDb_order_pool_ReserveMem` writes the order pool. -/
theorem orderPoolReserveMem_eq (calloc : Bool) (n : UInt64) : (db.orderPoolReserveMem calloc n).2 =
    { db with
      orders := (db.orderPoolReserveMem calloc n).2.orders
      order_pool_free := (db.orderPoolReserveMem calloc n).2.order_pool_free
      order_pool_total_allocated := if calloc then db.order_pool_total_allocated + n
        else db.order_pool_total_allocated } := by
  rw [orderPoolReserveMem]
  split
  -- Nothing asked for, nothing pushed.
  · subst_vars; cases calloc <;> simp
  · cases calloc with
    -- `calloc` fails.
    | false => rfl
    | true =>
      simp only [Bool.not_true, Bool.false_eq_true, if_false, if_true]
      rw [pushFreeOrders_eq]

/-- `EngineDb_level_pool_ReserveMem` writes the level pool. -/
theorem levelPoolReserveMem_eq (calloc : Bool) (n : UInt64) : (db.levelPoolReserveMem calloc n).2 =
    { db with
      levels := (db.levelPoolReserveMem calloc n).2.levels
      level_pool_free := (db.levelPoolReserveMem calloc n).2.level_pool_free
      level_pool_total_allocated := if calloc then db.level_pool_total_allocated + n
        else db.level_pool_total_allocated } := by
  rw [levelPoolReserveMem]
  split
  -- Nothing asked for, nothing pushed.
  · subst_vars; cases calloc <;> simp
  · cases calloc with
    -- `calloc` fails.
    | false => rfl
    | true =>
      simp only [Bool.not_true, Bool.false_eq_true, if_false, if_true]
      rw [pushFreeLevels_eq]

/-- `EngineDb_Init` reserves the two first chunks, and the rest is zero. -/
theorem init_eq (calloc : Calloc) : init calloc =
    ((({} : EngineDb).orderPoolReserveMem calloc.order_chunk orderChunkSize).2.levelPoolReserveMem
      calloc.level_chunk levelChunkSize).2 := by
  rw [init, levelPoolReserveMem_eq, orderPoolReserveMem_eq]

/-- No order row is live at the start. -/
theorem init_order_pool_n (calloc : Calloc) : (init calloc).order_pool_n = 0 := by
  rw [init_eq, levelPoolReserveMem_eq, orderPoolReserveMem_eq]

/-- No level row is live at the start. -/
theorem init_level_pool_n (calloc : Calloc) : (init calloc).level_pool_n = 0 := by
  rw [init_eq, levelPoolReserveMem_eq, orderPoolReserveMem_eq]

/-- A reservation that reports rows has made them. -/
theorem orderPoolReserveMem_total {calloc : Bool} {n : UInt64}
    (h : (db.orderPoolReserveMem calloc n).1 ≠ 0) :
    (db.orderPoolReserveMem calloc n).2.order_pool_total_allocated =
      db.order_pool_total_allocated + n := by
  have hc : calloc = true := by
    cases calloc with
    | true => rfl
    | false => exact absurd (by rw [orderPoolReserveMem]; split <;> rfl) h
  rw [orderPoolReserveMem_eq, if_pos hc]

/-- A chunk adds its rows to the level pool. -/
theorem levelPoolReserveMem_total {calloc : Bool} {n : UInt64}
    (h : (db.levelPoolReserveMem calloc n).1 ≠ 0) :
    (db.levelPoolReserveMem calloc n).2.level_pool_total_allocated =
      db.level_pool_total_allocated + n := by
  have hc : calloc = true := by
    cases calloc with
    | true => rfl
    | false => exact absurd (by rw [levelPoolReserveMem]; split <;> rfl) h
  rw [levelPoolReserveMem_eq, if_pos hc]

end EngineDb

namespace Rep

/-! ## Rows that are not live -/

/-- A row that is not live is in no queue. -/
theorem owner_none (h : Rep db g) (hp : p ∉ db.liveOrders) :
    (db.orders p).p_price_level = none := by
  rcases ho : (db.orders p).p_price_level with _ | l
  · rfl
  · exact absurd (h.queue_live l p ((h.queues.mem l p).mpr ho)).1 hp

/-- A row without an owner is not in a queue. -/
theorem inlist_false (h : Rep db g) (hp : (db.orders p).p_price_level = none) :
    (db.orders p).orders_inlist = false := by rw [h.queues.flag, hp]; rfl

/-- A row that is not live is not in the index. -/
theorem inhash_false (h : Rep db g) (hp : p ∉ db.liveOrders) :
    (db.orders p).ind_order_inhash = false :=
  Bool.eq_false_iff.mpr fun hf => hp (h.hash_live p hf)

/-- A level that is not live is in no tree. -/
theorem intree_false (h : Rep db g) (hl : l ∉ db.liveLevels) :
    (db.levels l).tree_intree = false :=
  Bool.eq_false_iff.mpr fun hf => by
    obtain ⟨t, ht⟩ := (h.trees.flag l).mp hf
    exact hl (h.tree_live t l ht)

/-- A level that is not live has no queue. -/
theorem queue_nil (h : Rep db g) (hl : l ∉ db.liveLevels) : g.queue l = [] :=
  List.eq_nil_iff_forall_not_mem.mpr fun p hp => hl (h.queue_live l p hp).2

/-- The queue fields of a level without a queue. -/
theorem queue_fields_nil (h : Rep db g) (hq : g.queue l = []) :
    (db.levels l).orders_head = none ∧ (db.levels l).orders_tail = none ∧
      (db.levels l).orders_n = 0 := by
  have hlink := h.queues.linked l
  have hn := h.queues.count l
  rw [hq] at hlink hn
  exact ⟨hlink.fwd, hlink.bwd, UInt32.toNat_inj.mp hn⟩

/-- The row at the head of the order free list is not live. -/
theorem head_not_live (h : Rep db g) (hf : g.oFree = p :: rest) : p ∉ db.liveOrders := fun hp =>
  (h.mem_liveOrders.mp hp).2 (by simp [hf])

/-- The row at the head of the level free list is not live. -/
theorem head_level_not_live (h : Rep db g) (hf : g.lFree = l :: rest) : l ∉ db.liveLevels :=
  fun hl => (h.mem_liveLevels.mp hl).2 (by simp [hf])

/-! ## Orders -/

/-- The free list of the orders starts with its first row. -/
theorem order_pool_free_eq (h : Rep db g) : db.order_pool_free = g.oFree.head? :=
  h.oPool.chain.start_eq

/-- The free list of the levels starts with its first row. -/
theorem level_pool_free_eq (h : Rep db g) : db.level_pool_free = g.lFree.head? :=
  h.lPool.chain.start_eq

/-- `EngineDb_order_pool_Alloc` returns the first free row. -/
theorem orderPoolAlloc_eq (h : Rep db g) : db.orderPoolAlloc = match g.oFree with
    | [] => (none, db)
    | p :: _ => (some p, db.takeOrder p) := by
  rw [EngineDb.orderPoolAlloc, h.order_pool_free_eq]
  cases g.oFree <;> rfl

/-- The free list after an allocation. -/
theorem takeOrder_pool (h : Rep db g) (hf : g.oFree = p :: rest) :
    PoolRep (db.takeOrder p).orderFreeLink (db.takeOrder p).order_pool_free
      (db.takeOrder p).order_pool_n (db.takeOrder p).order_pool_total_allocated rest := by
  have hpool := h.oPool
  rw [hf] at hpool
  exact hpool.take fun z hz => congrArg Order.freenext (Function.update_of_ne hz _ _)

/-- The row that an allocation takes becomes live. -/
theorem takeOrder_liveOrders (h : Rep db g) (hf : g.oFree = p :: rest) :
    (db.takeOrder p).liveOrders = insert p db.liveOrders := by
  have hlt : p < db.orderRows := h.oPool.lt p (by simp [hf])
  have hnd := h.oPool.nodup
  rw [hf, List.nodup_cons] at hnd
  ext q
  rw [(h.takeOrder_pool hf).mem_liveOrders, Finset.mem_insert, h.mem_liveOrders, hf, List.mem_cons]
  change q < db.orderRows ∧ _ ↔ _
  by_cases hq : q = p
  · subst hq
    simpa [hnd.1] using hlt
  · simp [hq]

/-- `EngineDb_order_pool_Alloc` takes the first free row off the list. -/
theorem takeOrder (h : Rep db g) (hf : g.oFree = p :: rest) :
    Rep (db.takeOrder p) { g with oFree := rest } := by
  have hnl := h.head_not_live hf
  have hlist := h.inlist_false (h.owner_none hnl)
  have hhash := h.inhash_false hnl
  have hh : SameHash db (db.takeOrder p) :=
    .of_order rfl rfl rfl hhash.symm fun hin => by rw [hhash] at hin; cases hin
  refine h.of_oPool (h.takeOrder_pool hf) (hh.flagged rfl) (fun q hq _ => ?_) ?_ hh ?_ ?_
  · rw [h.takeOrder_liveOrders hf]
    exact Finset.mem_insert_of_mem hq
  · exact .of_order rfl rfl rfl hlist.symm fun hin => by rw [hlist] at hin; cases hin
  · exact .of_levels rfl rfl rfl
  · exact ⟨fun _ => rfl, rfl, rfl, rfl⟩

/-- The free list after a row is put back. -/
theorem orderPoolFree_pool (h : Rep db g) (hp : p ∈ db.liveOrders) :
    PoolRep (db.orderPoolFree p).orderFreeLink (db.orderPoolFree p).order_pool_free
      (db.orderPoolFree p).order_pool_n (db.orderPoolFree p).order_pool_total_allocated
      (p :: g.oFree) := by
  obtain ⟨hlt, hfresh⟩ := h.mem_liveOrders.mp hp
  have hlink : (db.orderPoolFree p).orderFreeLink p = db.order_pool_free := by
    simp [EngineDb.orderFreeLink, EngineDb.orderPoolFree]
  exact h.oPool.put hlink hlt hfresh fun z hz =>
    congrArg Order.freenext (Function.update_of_ne hz _ _)

/-- A row that is put back is no longer live. -/
theorem orderPoolFree_liveOrders (h : Rep db g) (hp : p ∈ db.liveOrders) :
    (db.orderPoolFree p).liveOrders = db.liveOrders.erase p := by
  ext q
  rw [(h.orderPoolFree_pool hp).mem_liveOrders, Finset.mem_erase, h.mem_liveOrders, List.mem_cons]
  change q < db.orderRows ∧ _ ↔ _
  tauto

/-- `EngineDb_order_pool_Free` puts a row that is in no queue and not in the index at the front of
the free list. -/
theorem orderPoolFree (h : Rep db g) (hp : p ∈ db.liveOrders)
    (hown : (db.orders p).p_price_level = none) (hhash : (db.orders p).ind_order_inhash = false) :
    Rep (db.orderPoolFree p) { g with oFree := p :: g.oFree } := by
  have hh : SameHash db (db.orderPoolFree p) := .of_order rfl rfl rfl rfl fun _ => ⟨rfl, rfl⟩
  refine h.of_oPool (h.orderPoolFree_pool hp) (hh.flagged rfl) (fun q hq hq' => ?_) ?_ hh ?_ ?_
  · rw [h.orderPoolFree_liveOrders hp]
    refine Finset.mem_erase.mpr ⟨fun hqp => ?_, hq⟩
    rw [hqp, hown, hhash] at hq'
    simp at hq'
  · exact .of_order rfl rfl rfl rfl fun _ => ⟨rfl, rfl⟩
  · exact .of_levels rfl rfl rfl
  · exact ⟨fun _ => rfl, rfl, rfl, rfl⟩

/-! ## Levels -/

/-- `EngineDb_level_pool_Alloc` returns the first free level. -/
theorem levelPoolAlloc_eq (h : Rep db g) : db.levelPoolAlloc = match g.lFree with
    | [] => (none, db)
    | l :: _ => (some l, db.takeLevel l) := by
  rw [EngineDb.levelPoolAlloc, h.level_pool_free_eq]
  cases g.lFree <;> rfl

/-- The free list after an allocation. -/
theorem takeLevel_pool (h : Rep db g) (hf : g.lFree = l :: rest) :
    PoolRep (db.takeLevel l).levelFreeLink (db.takeLevel l).level_pool_free
      (db.takeLevel l).level_pool_n (db.takeLevel l).level_pool_total_allocated rest := by
  have hpool := h.lPool
  rw [hf] at hpool
  exact hpool.take fun z hz => congrArg PriceLevel.freenext (Function.update_of_ne hz _ _)

/-- The level that an allocation takes becomes live. -/
theorem takeLevel_liveLevels (h : Rep db g) (hf : g.lFree = l :: rest) :
    (db.takeLevel l).liveLevels = insert l db.liveLevels := by
  have hlt : l < db.levelRows := h.lPool.lt l (by simp [hf])
  have hnd := h.lPool.nodup
  rw [hf, List.nodup_cons] at hnd
  ext m
  rw [(h.takeLevel_pool hf).mem_liveLevels, Finset.mem_insert, h.mem_liveLevels, hf, List.mem_cons]
  change m < db.levelRows ∧ _ ↔ _
  by_cases hm : m = l
  · subst hm
    simpa [hnd.1] using hlt
  · simp [hm]

/-- `EngineDb_level_pool_Alloc` takes the first free level off the list. -/
theorem takeLevel (h : Rep db g) (hf : g.lFree = l :: rest) :
    Rep (db.takeLevel l) { g with lFree := rest } := by
  have hnl := h.head_level_not_live hf
  have hin := h.intree_false hnl
  obtain ⟨hhead, htail, hn⟩ := h.queue_fields_nil (h.queue_nil hnl)
  refine h.of_lPool (h.takeLevel_pool hf) (fun m hm _ => ?_) ?_ ?_ ?_ ?_
  · rw [h.takeLevel_liveLevels hf]
    exact Finset.mem_insert_of_mem hm
  · exact .of_level rfl rfl hhead.symm htail.symm hn.symm
  · exact .of_orders rfl rfl rfl
  · exact .of_level rfl rfl rfl hin.symm fun hin' => by rw [hin] at hin'; cases hin'
  · exact ⟨fun _ => rfl, rfl, rfl, rfl⟩

/-- The free list after a level is put back. -/
theorem levelPoolFree_pool (h : Rep db g) (hl : l ∈ db.liveLevels) :
    PoolRep (db.levelPoolFree l).levelFreeLink (db.levelPoolFree l).level_pool_free
      (db.levelPoolFree l).level_pool_n (db.levelPoolFree l).level_pool_total_allocated
      (l :: g.lFree) := by
  obtain ⟨hlt, hfresh⟩ := h.mem_liveLevels.mp hl
  have hlink : (db.levelPoolFree l).levelFreeLink l = db.level_pool_free := by
    simp [EngineDb.levelFreeLink, EngineDb.levelPoolFree]
  exact h.lPool.put hlink hlt hfresh fun z hz =>
    congrArg PriceLevel.freenext (Function.update_of_ne hz _ _)

/-- A level that is put back is no longer live. -/
theorem levelPoolFree_liveLevels (h : Rep db g) (hl : l ∈ db.liveLevels) :
    (db.levelPoolFree l).liveLevels = db.liveLevels.erase l := by
  ext m
  rw [(h.levelPoolFree_pool hl).mem_liveLevels, Finset.mem_erase, h.mem_liveLevels, List.mem_cons]
  change m < db.levelRows ∧ _ ↔ _
  tauto

/-- `EngineDb_level_pool_Free` puts a level with no queue and in no tree at the front of the free
list. -/
theorem levelPoolFree (h : Rep db g) (hl : l ∈ db.liveLevels) (hq : g.queue l = [])
    (ht : (db.levels l).tree_intree = false) :
    Rep (db.levelPoolFree l) { g with lFree := l :: g.lFree } := by
  refine h.of_lPool (h.levelPoolFree_pool hl) (fun m hm hm' => ?_) ?_ ?_ ?_ ?_
  · rw [h.levelPoolFree_liveLevels hl]
    refine Finset.mem_erase.mpr ⟨fun hml => ?_, hm⟩
    rw [hml, ht] at hm'
    simp [hq] at hm'
  · exact .of_level rfl rfl rfl rfl rfl
  · exact .of_orders rfl rfl rfl
  · exact .of_level rfl rfl rfl rfl fun _ => ⟨rfl, rfl, rfl, rfl⟩
  · exact ⟨fun _ => rfl, rfl, rfl, rfl⟩

/-! ## Reserving -/

/-- The rows of a fresh chunk are not live. -/
theorem not_live_of_ge (h : Rep db g) {p : ℕ} (hp : db.orderRows ≤ p) : p ∉ db.liveOrders :=
  fun hl => Nat.not_lt.mpr hp (h.mem_liveOrders.mp hl).1

/-- A row that was not allocated is not live. -/
theorem level_not_live_of_ge (h : Rep db g) {l : ℕ} (hl : db.levelRows ≤ l) : l ∉ db.liveLevels :=
  fun hm => Nat.not_lt.mpr hl (h.mem_liveLevels.mp hm).1

/-- The loop of `EngineDb_order_pool_ReserveMem` pushes the rows of the chunk, last first, and
touches nothing that the queues and the index depend on. -/
theorem pushFreeOrders (h : Rep db g) (i : ℕ) :
    Chain (db.pushFreeOrders db.orderRows i).orderFreeLink
      (db.pushFreeOrders db.orderRows i).order_pool_free
      ((List.range' db.orderRows i).reverse ++ g.oFree) ∧
    SameQueues db (db.pushFreeOrders db.orderRows i) ∧
    SameHash db (db.pushFreeOrders db.orderRows i) := by
  induction i with
  | zero =>
    exact ⟨h.oPool.chain, .of_order (p := 0) (Function.update_eq_self _ _).symm rfl rfl rfl
      fun _ => ⟨rfl, rfl⟩, .of_orders rfl rfl rfl⟩
  | succ i ih =>
    obtain ⟨hchain, hq, hh⟩ := ih
    have hnl : db.orderRows + i ∉ db.liveOrders := h.not_live_of_ge (Nat.le_add_right _ _)
    -- A row past the total is dead, so it is in no queue and in no bucket.
    have hown := h.owner_none hnl
    rw [EngineDb.pushFreeOrders]
    generalize db.pushFreeOrders db.orderRows i = db₁ at hchain hq hh ⊢
    have hlist : (db₁.orders (db.orderRows + i)).orders_inlist = false := by
      rw [hq.flag, h.inlist_false hown]
    have hhash : (db₁.orders (db.orderRows + i)).ind_order_inhash = false := by
      rw [hh.flag, h.inhash_false hnl]
    rw [List.range'_1_concat, List.reverse_append]
    refine ⟨?_, hq.trans ?_, hh.trans ?_⟩
    -- Its own link leads to the rows pushed before it, none of which is it.
    · refine hchain.cons (by simp [EngineDb.orderFreeLink]) fun z hz => ?_
      refine congrArg Order.freenext (Function.update_of_ne (fun hzx => ?_) _ _)
      rcases List.mem_append.mp hz with hz | hz
      · have hlt := (List.mem_range'_1.mp (List.mem_reverse.mp hz)).2
        rw [hzx] at hlt
        exact absurd hlt (Nat.lt_irrefl _)
      · have hlt := h.oPool.lt z hz
        rw [hzx] at hlt
        exact absurd hlt (Nat.not_lt.mpr (Nat.le_add_right _ _))
    · refine .of_order rfl rfl ?_ hlist.symm fun hin => by rw [hlist] at hin; cases hin
      rw [hq.owner, hown]
    · exact .of_order rfl rfl rfl hhash.symm fun hin => by rw [hhash] at hin; cases hin

/-- The loop of `EngineDb_level_pool_ReserveMem`, likewise. -/
theorem pushFreeLevels (h : Rep db g) (i : ℕ) :
    Chain (db.pushFreeLevels db.levelRows i).levelFreeLink
      (db.pushFreeLevels db.levelRows i).level_pool_free
      ((List.range' db.levelRows i).reverse ++ g.lFree) ∧
    SameQueues db (db.pushFreeLevels db.levelRows i) ∧
    SameTrees db (db.pushFreeLevels db.levelRows i) := by
  induction i with
  | zero =>
    exact ⟨h.lPool.chain, .of_level (l := 0) rfl (Function.update_eq_self _ _).symm rfl rfl rfl,
      .of_levels rfl rfl rfl⟩
  | succ i ih =>
    obtain ⟨hchain, hq, ht⟩ := ih
    have hnl : db.levelRows + i ∉ db.liveLevels := h.level_not_live_of_ge (Nat.le_add_right _ _)
    -- A row past the total is dead, so its queue is empty and it is in no tree.
    obtain ⟨hhead, htail, hn⟩ := h.queue_fields_nil (h.queue_nil hnl)
    have hin₀ := h.intree_false hnl
    rw [EngineDb.pushFreeLevels]
    generalize db.pushFreeLevels db.levelRows i = db₁ at hchain hq ht ⊢
    have hin : (db₁.levels (db.levelRows + i)).tree_intree = false := by rw [ht.flag, hin₀]
    rw [List.range'_1_concat, List.reverse_append]
    refine ⟨?_, hq.trans ?_, ht.trans ?_⟩
    -- Its own link leads to the rows pushed before it, none of which is it.
    · refine hchain.cons (by simp [EngineDb.levelFreeLink]) fun z hz => ?_
      refine congrArg PriceLevel.freenext (Function.update_of_ne (fun hzx => ?_) _ _)
      rcases List.mem_append.mp hz with hz | hz
      · have hlt := (List.mem_range'_1.mp (List.mem_reverse.mp hz)).2
        rw [hzx] at hlt
        exact absurd hlt (Nat.lt_irrefl _)
      · have hlt := h.lPool.lt z hz
        rw [hzx] at hlt
        exact absurd hlt (Nat.not_lt.mpr (Nat.le_add_right _ _))
    · exact .of_level rfl rfl (by rw [hq.head, hhead]) (by rw [hq.tail, htail])
        (by rw [hq.n, hn])
    · exact .of_level rfl rfl rfl hin.symm fun hin' => by rw [hin] at hin'; cases hin'

/-- `EngineDb_order_pool_ReserveMem` of a chunk that fits. -/
theorem orderPoolReserveMem (h : Rep db g) (calloc : Bool) (n : UInt64)
    (hn : db.order_pool_total_allocated.toNat + n.toNat < 2^32) :
    ∃ xs, Rep (db.orderPoolReserveMem calloc n).2 { g with oFree := xs } := by
  by_cases h0 : n = 0
  · exact ⟨g.oFree, by rw [EngineDb.orderPoolReserveMem, if_pos h0]; exact h⟩
  cases calloc with
  | false => exact ⟨g.oFree, by rw [EngineDb.orderPoolReserveMem, if_neg h0]; exact h⟩
  | true =>
    obtain ⟨hchain, hq, hh⟩ := h.pushFreeOrders n.toNat
    refine ⟨(List.range' db.orderRows n.toNat).reverse ++ g.oFree, ?_⟩
    have hcode : (db.orderPoolReserveMem true n).2 = { db with
        orders := (db.pushFreeOrders db.orderRows n.toNat).orders
        order_pool_free := (db.pushFreeOrders db.orderRows n.toNat).order_pool_free
        order_pool_total_allocated := db.order_pool_total_allocated + n } := by
      rw [EngineDb.orderPoolReserveMem, if_neg h0]
      simp only [Bool.not_true, Bool.false_eq_true, if_false]
      rw [show db.order_pool_total_allocated.toNat = db.orderRows from rfl, EngineDb.pushFreeOrders_eq]
    rw [hcode]
    generalize db.pushFreeOrders db.orderRows n.toNat = db₁ at hchain hq hh ⊢
    -- The total does not wrap.
    have htotal : (db.order_pool_total_allocated + n).toNat =
        db.order_pool_total_allocated.toNat + n.toNat := by
      rw [UInt64.toNat_add]; omega
    have hpool : PoolRep db₁.orderFreeLink db₁.order_pool_free db.order_pool_n
        (db.order_pool_total_allocated + n) ((List.range' db.orderRows n.toNat).reverse ++
          g.oFree) := by
      refine ⟨hchain, fun z hz => ?_, ?_, by omega⟩
      · rw [htotal]
        rcases List.mem_append.mp hz with hz | hz
        · exact (List.mem_range'_1.mp (List.mem_reverse.mp hz)).2
        · have := h.oPool.lt z hz
          omega
      · have := h.oPool.count
        rw [htotal, List.length_append, List.length_reverse, List.length_range']
        omega
    -- The live rows are below the old total, so no row of the chunk is among them.
    have hflagged : ∀ q, (db₁.orders q).ind_order_inhash = (db.orders q).ind_order_inhash := hh.flag
    refine h.of_oPool hpool ?_ (fun p hp _ => ?_) ?_ ?_ (.of_levels rfl rfl rfl)
      ⟨fun _ => rfl, rfl, rfl, rfl⟩
    -- The indexed rows are the same, though the range they are counted in has grown.
    · ext q
      simp only [EngineDb.flagged, Finset.mem_filter, Finset.mem_range, EngineDb.orderRows, htotal,
        hflagged]
      refine and_congr_left fun hq => ⟨fun _ => ?_, fun hlt => ?_⟩
      · exact (h.mem_liveOrders.mp (h.hash_live q hq)).1
      · exact Nat.lt_of_lt_of_le hlt (Nat.le_add_right _ _)
    · rw [PoolRep.mem_liveOrders hpool]
      obtain ⟨hlt, hfree⟩ := h.mem_liveOrders.mp hp
      refine ⟨?_, fun hm => ?_⟩
      · change p < (db.order_pool_total_allocated + n).toNat
        rw [htotal]
        exact Nat.lt_of_lt_of_le hlt (Nat.le_add_right _ _)
      · rcases List.mem_append.mp hm with hm | hm
        · have := (List.mem_range'_1.mp (List.mem_reverse.mp hm)).1
          exact absurd hlt (Nat.not_lt.mpr this)
        · exact hfree hm
    · exact ⟨hq.owner, hq.flag, hq.next, hq.prev, fun _ => rfl, fun _ => rfl, fun _ => rfl⟩
    · exact ⟨hh.flag, hh.next, hh.id, rfl, rfl⟩

/-- `EngineDb_level_pool_ReserveMem` of a chunk that fits. -/
theorem levelPoolReserveMem (h : Rep db g) (calloc : Bool) (n : UInt64)
    (hn : db.level_pool_total_allocated.toNat + n.toNat < 2^32) :
    ∃ xs, Rep (db.levelPoolReserveMem calloc n).2 { g with lFree := xs } := by
  by_cases h0 : n = 0
  · exact ⟨g.lFree, by rw [EngineDb.levelPoolReserveMem, if_pos h0]; exact h⟩
  cases calloc with
  | false => exact ⟨g.lFree, by rw [EngineDb.levelPoolReserveMem, if_neg h0]; exact h⟩
  | true =>
    obtain ⟨hchain, hq, ht⟩ := h.pushFreeLevels n.toNat
    refine ⟨(List.range' db.levelRows n.toNat).reverse ++ g.lFree, ?_⟩
    have hcode : (db.levelPoolReserveMem true n).2 = { db with
        levels := (db.pushFreeLevels db.levelRows n.toNat).levels
        level_pool_free := (db.pushFreeLevels db.levelRows n.toNat).level_pool_free
        level_pool_total_allocated := db.level_pool_total_allocated + n } := by
      rw [EngineDb.levelPoolReserveMem, if_neg h0]
      simp only [Bool.not_true, Bool.false_eq_true, if_false]
      rw [show db.level_pool_total_allocated.toNat = db.levelRows from rfl, EngineDb.pushFreeLevels_eq]
    rw [hcode]
    generalize db.pushFreeLevels db.levelRows n.toNat = db₁ at hchain hq ht ⊢
    -- The total does not wrap.
    have htotal : (db.level_pool_total_allocated + n).toNat =
        db.level_pool_total_allocated.toNat + n.toNat := by
      rw [UInt64.toNat_add]; omega
    have hpool : PoolRep db₁.levelFreeLink db₁.level_pool_free db.level_pool_n
        (db.level_pool_total_allocated + n) ((List.range' db.levelRows n.toNat).reverse ++
          g.lFree) := by
      refine ⟨hchain, fun z hz => ?_, ?_, by omega⟩
      · rw [htotal]
        rcases List.mem_append.mp hz with hz | hz
        · exact (List.mem_range'_1.mp (List.mem_reverse.mp hz)).2
        · have := h.lPool.lt z hz
          omega
      · have := h.lPool.count
        rw [htotal, List.length_append, List.length_reverse, List.length_range']
        omega
    refine h.of_lPool hpool (fun l hl _ => ?_) ?_ (.of_orders rfl rfl rfl) ?_
      ⟨fun _ => rfl, rfl, rfl, rfl⟩
    -- The live rows are below the old total, so no row of the chunk is among them.
    · rw [PoolRep.mem_liveLevels hpool]
      obtain ⟨hlt, hfree⟩ := h.mem_liveLevels.mp hl
      refine ⟨?_, fun hm => ?_⟩
      · change l < (db.level_pool_total_allocated + n).toNat
        rw [htotal]
        exact Nat.lt_of_lt_of_le hlt (Nat.le_add_right _ _)
      · rcases List.mem_append.mp hm with hm | hm
        · have := (List.mem_range'_1.mp (List.mem_reverse.mp hm)).1
          exact absurd hlt (Nat.not_lt.mpr this)
        · exact hfree hm
    · exact ⟨fun _ => rfl, fun _ => rfl, fun _ _ => rfl, fun _ _ => rfl, hq.head, hq.tail, hq.n⟩
    · exact ⟨ht.flag, ht.left, ht.right, ht.parent, ht.price, fun t => by cases t <;> rfl,
        fun t => by cases t <;> rfl⟩

/-- The zeroed heap. -/
theorem empty : Rep {} ⟨[], [], fun _ => [], fun _ => [], fun _ => .nil⟩ where
  oPool := ⟨rfl, by simp, rfl, by decide⟩
  lPool := ⟨rfl, by simp, rfl, by decide⟩
  queues := ⟨fun _ => ⟨rfl, rfl⟩, fun _ => rfl, fun _ _ => by simp, fun _ => rfl⟩
  hash := ⟨fun _ => rfl, fun _ _ => by simp, fun _ _ hp => by simp at hp⟩
  trees := ⟨fun t => by cases t <;> rfl, fun _ => List.Pairwise.nil, fun t => by cases t <;> rfl,
    fun _ => by simp, fun _ hl => by simp at hl⟩
  queue_live _ _ hp := by simp at hp
  hash_live _ hp := by simp at hp
  tree_live _ _ hl := by simp at hl
  hash_count := rfl

/-- `EngineDb_Init` returns a heap in order, with nothing in it. -/
theorem init (calloc : EngineDb.Calloc) :
    ∃ xs ys, Rep (EngineDb.init calloc) ⟨xs, ys, fun _ => [], fun _ => [], fun _ => .nil⟩ := by
  obtain ⟨xs, h₁⟩ := empty.orderPoolReserveMem calloc.order_chunk orderChunkSize (by decide)
  obtain ⟨ys, h₂⟩ := h₁.levelPoolReserveMem calloc.level_chunk levelChunkSize (by
    rw [EngineDb.orderPoolReserveMem_eq]
    change (0 : UInt64).toNat + levelChunkSize.toNat < 2^32
    decide)
  refine ⟨xs, ys, ?_⟩
  rw [EngineDb.init_eq]
  exact h₂

end Rep

/-! ## The heap at the start -/

/-- The loops that push rows on a free list: the rows `base`, …, `base + i - 1` are pushed on
`free`, each written by `mk` with the link to the one before it. -/
def pushRows {α : Type} (mk : Option ℕ → α) (rows : ℕ → α) (free : Option ℕ) (base : ℕ) :
    ℕ → (ℕ → α) × Option ℕ
  | 0 => (rows, free)
  | i + 1 =>
    let r := pushRows mk rows free base i
    (Function.update r.1 (base + i) (mk r.2), some (base + i))

/-- The rows that a chunk pushes, in closed form: each but the first leads to the one below it. -/
theorem pushRows_eq {α : Type} (mk : Option ℕ → α) (rows : ℕ → α) (free : Option ℕ) (base i : ℕ) :
    pushRows mk rows free base i =
      (fun p => if base ≤ p ∧ p < base + i then mk (if p = base then free else some (p - 1))
        else rows p, if i = 0 then free else some (base + i - 1)) := by
  induction i with
  | zero =>
    rw [if_pos rfl]
    refine Prod.ext (funext fun p => ?_) rfl
    exact (if_neg (by omega)).symm
  | succ i ih =>
    rw [if_neg (Nat.succ_ne_zero i), pushRows, ih]
    refine Prod.ext (funext fun p => ?_) rfl
    dsimp only
    rw [Function.update_apply]
    -- The induction is on the number of rows pushed.
    by_cases hp : p = base + i
    · -- The row pushed last leads to the one before it, if there is one.
      have hin : base ≤ p ∧ p < base + (i + 1) := ⟨by omega, by omega⟩
      rw [if_pos hp, if_pos hin, hp]
      by_cases hi : i = 0
      · rw [if_pos hi, if_pos (show base + i = base by omega)]
      · rw [if_neg hi, if_neg (show ¬ base + i = base by omega)]
    · have hiff : (base ≤ p ∧ p < base + i) ↔ (base ≤ p ∧ p < base + (i + 1)) := by omega
      rw [if_neg hp]
      simp only [hiff]

namespace EngineDb

variable {db : EngineDb}

/-- The order rows after a chunk is pushed. -/
theorem pushFreeOrders_rows (base i : ℕ) : db.pushFreeOrders base i = { db with
    orders := (pushRows (fun o => { freenext := o }) db.orders db.order_pool_free base i).1
    order_pool_free :=
      (pushRows (fun o => ({ freenext := o } : Order)) db.orders db.order_pool_free base i).2 } := by
  induction i with
  | zero => rfl
  | succ i ih =>
    unfold pushFreeOrders
    rw [ih]
    rfl

/-- The level rows after a chunk is pushed. -/
theorem pushFreeLevels_rows (base i : ℕ) : db.pushFreeLevels base i = { db with
    levels := (pushRows (fun o => { freenext := o }) db.levels db.level_pool_free base i).1
    level_pool_free :=
      (pushRows (fun o => ({ freenext := o } : PriceLevel)) db.levels
        db.level_pool_free base i).2 } := by
  induction i with
  | zero => rfl
  | succ i ih =>
    unfold pushFreeLevels
    rw [ih]
    rfl

/-- Both free lists lead down from their last rows. -/
def fresh : EngineDb where
  orders p := if p < 5000000 then { freenext := if p = 0 then none else some (p - 1) } else {}
  levels p := if p < 500000 then { freenext := if p = 0 then none else some (p - 1) } else {}
  order_pool_free := some 4999999
  order_pool_total_allocated := orderChunkSize
  level_pool_free := some 499999
  level_pool_total_allocated := levelChunkSize

/-- The heap after `EngineDb_Init` in closed form, which can be evaluated without half a million
pushes. -/
theorem init_fresh : init ⟨true, true⟩ = fresh := by
  have horders : orderChunkSize.toNat = 5000000 := by decide
  have hlevels : levelChunkSize.toNat = 500000 := by decide
  have hzero : (0 : UInt64).toNat = 0 := rfl
  have horders₀ : orderChunkSize ≠ 0 := by decide
  have hlevels₀ : levelChunkSize ≠ 0 := by decide
  rw [init_eq]
  unfold levelPoolReserveMem orderPoolReserveMem
  simp only [if_neg horders₀, if_neg hlevels₀, Bool.not_true, Bool.false_eq_true, if_false,
    pushFreeOrders_rows, pushFreeLevels_rows,
    pushRows_eq, horders, hlevels, hzero]
  unfold fresh
  simp

end EngineDb

end MatchingEngine.C
