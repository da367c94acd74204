import MatchingEngine.Hand.Book

/-!
# Refused requests

A request that the handwritten matcher refuses leaves everything as it was. The matcher tries to
allocate only after it has matched, but then the pools are exhausted only if it matched nothing: a
remainder is left by matching nothing, or by using up a whole level, which frees its row and those
of its orders.

`Kept` is the frame that a refusal leaves: everything but the payload of free rows. The cases of
`StandsFor.refusal` follow the function: a check fails, the id rests, a post-only order would cross,
or nothing is matched and a pool is exhausted. In the last case a row may have been taken, written,
and given back, which is the only trace.
-/

namespace MatchingEngine.Hand

open Contract Lib C Gen

/-- Nothing has changed from `db` to `db'` but the payload of free order rows. -/
structure Kept (db db' : EngineDb) : Prop where
  orders : ∀ p ∈ db.liveOrders, db'.orders p = db.orders p
  free : db'.orderFreeLink = db.orderFreeLink
  rest : db' = { db with orders := db'.orders }

/-- Nothing was written. -/
theorem Kept.refl (db : EngineDb) : Kept db db := ⟨fun _ _ => rfl, rfl, rfl⟩

/-- A row taken from the pool, written, and given back. -/
theorem kept_orderPoolFree {db : EngineDb} {g : Shape} (h : Rep db g) {p : OrderPtr}
    (hp : db.order_pool_free = some p) (f : Order → Order) :
    Kept db (((db.takeOrder p).setOrder p f).orderPoolFree p) where
  orders q hq := by
    -- A live row is not on the free list, so it is another one.
    have hne : q ≠ p := by
      rintro rfl
      refine (h.mem_liveOrders.mp hq).2 (List.mem_of_head? ?_)
      exact h.oPool.chain.start_eq.symm.trans hp
    unfold EngineDb.orderPoolFree EngineDb.takeOrder
    simp only [EngineDb.setOrder_orders_apply, if_neg hne]
  free := by
    funext q
    unfold EngineDb.orderFreeLink EngineDb.orderPoolFree EngineDb.takeOrder
    -- The row leads to the old head of the list again.
    by_cases hq : q = p
    · subst hq
      simp only [EngineDb.setOrder_orders_self]
      rfl
    · simp only [EngineDb.setOrder_orders_apply, if_neg hq]
  rest := by
    have hbound := h.oPool.bound
    have hcount := h.oPool.count
    -- The counter goes up and down by one, without a wrap.
    have hone : (db.order_pool_n + 1).toNat = db.order_pool_n.toNat + 1 := by
      rw [UInt64.toNat_add, UInt64.toNat_one]
      omega
    have hpos : db.order_pool_n + 1 > 0 := by
      rw [gt_iff_lt, UInt64.lt_iff_toNat_lt, hone]
      exact Nat.succ_pos _
    unfold EngineDb.orderPoolFree
    change ({ db with
      orders := _
      order_pool_free := some p
      order_pool_n := if db.order_pool_n + 1 > 0 then db.order_pool_n + 1 - 1
        else db.order_pool_n + 1 } : EngineDb) = _
    rw [if_pos hpos, UInt64.add_sub_cancel, ← hp]

section Refused

variable {calloc : EngineDb.Calloc} {engine : Option Engine} {cb : Bool} {t t' : State} {b : Book}
  {q : OrderRequest} {r : Request}

/-- The generated matcher at the start of a call on the same heap. -/
theorem StandsFor.locked (h : StandsFor false calloc t b) : ∃ s db hs,
    At (Adapter.storeAs false (valid_init calloc) (view_adapterOf calloc)) s db 0 ∧ Linked db hs ∧
      db.book hs = b ∧ Locked t s t := by
  obtain ⟨s, ⟨⟨db, hs, n, hat, hlink, rfl⟩, -, -⟩, hdb⟩ := h
  obtain ⟨_, s₁, hrun, hat₁, hlink₁⟩ := returns_start (f := pure ())
    (Q := fun _ s' => At (Adapter.storeAs false (valid_init calloc) (view_adapterOf calloc)) s'
      (reset db) 0 ∧ Linked (reset db) hs) hat hlink fun s' h' hlink' => .pure ⟨h', hlink'⟩
  cases hrun
  exact ⟨_, _, hs, hat₁, hlink₁, rfl, .start (capsOf_init calloc) hat₁ rfl hdb⟩

/-- The post-only test. -/
theorem StandsFor.wouldCross_eq (h : StandsFor false calloc t b) (hd : q.decode = some r)
    {crosses : UInt64 → UInt64 → Bool}
    (hcross : ∀ p, crosses p r.price = decide (better r.side.other p r.price)) :
    wouldCross r.side.other crosses q t = some (decide (r.otype = .postOnly ∧ b.crossing r), t) := by
  obtain ⟨-, -, -, -, -, hinv⟩ := h.snapshot
  obtain ⟨s, db, hs, hat, hlink, rfl, hlocked⟩ := h.locked
  obtain ⟨c, s', ok, t₁, -, ⟨hiff, -⟩, hrun, rfl, -, rfl⟩ :=
    (returns_genCrossed hat hlink (hinv.side _) hcross).follow
      (follows_crossed (OrderRequest.decodes hd) hlocked)
  rw [hrun]
  refine congrArg (fun x => some (x, _)) ?_
  rw [Bool.eq_iff_iff, hiff, decide_eq_true_iff]

/-- The best level of a side. -/
theorem StandsFor.bestOf_eq (h : StandsFor false calloc t b) (u : Tree) :
    ∃ l, t.db.bestOf u = some l ∧ match l with
      | none => b.side u = []
      | some l => ∃ os ls, b.side u = ⟨(t.db.levels l).price, os⟩ :: ls := by
  obtain ⟨-, -, -, -, -, hinv⟩ := h.snapshot
  obtain ⟨s, db, hs, hat, hlink, rfl, hlocked⟩ := h.locked
  obtain ⟨l, s', l', t₁, -, ⟨rfl, -⟩, hrun, rfl, -, rfl⟩ :=
    (returns_treeBest hat hlink (hinv.side u)).follow
      (follows_follow (c := .treeBest u) (f := (·.bestOf u)) hlocked rfl)
  obtain ⟨l', hbest, heq⟩ := Option.map_eq_some_iff.mp (show (t₁.db.bestOf u).map (·, t₁) = _ from hrun)
  cases heq
  refine ⟨_, hbest, ?_⟩
  rw [Db.book_side]
  cases hhs : hs u with
  | nil => rfl
  | cons l ls =>
    have hlive : (db.levels l).isSome := hlink.level_live (hhs ▸ List.mem_cons_self)
    obtain ⟨g, hrep⟩ := hat.valid.1.rep
    -- The price of the handle in the store is the one in the heap.
    have hprice : db.levelPrice l = (t₁.db.levels l).price := by
      rw [← hat.view] at hlive ⊢
      rw [hlocked.db]
      exact Rep.view_levelPrice (Rep.view_levels_isSome.mp hlive)
    refine ⟨(db.queue l).map db.row, ls.map db.levelOf, ?_⟩
    rw [← hprice]
    rfl

/-- Where nothing is matched, the matching loop breaks in its first turn. -/
theorem StandsFor.rowLoop_eq (h : StandsFor false calloc t b) (hd : q.decode = some r)
    {crosses : UInt64 → UInt64 → Bool}
    (hcross : ∀ p, crosses p r.price = decide (better r.side.other p r.price))
    (hsame : b.matched r = ⟨b, r.qty, []⟩) :
    rowLoop (fun rem_qty => 0 < rem_qty) (meetLevel r.side.other crosses q) q.qty t =
      some (q.qty, t) := by
  have hq := OrderRequest.decodes hd
  have hpos : 0 < q.qty := hq.qty ▸ UInt64.pos_iff_ne_zero.mpr r.qty_ne
  have hturn : meetLevel r.side.other crosses q q.qty t = some (.done q.qty, t) := by
    obtain ⟨l, hbest, hl⟩ := h.bestOf_eq r.side.other
    -- The first turn finds the best level of the other side.
    have hfollow : follow (·.bestOf r.side.other) t = some (l, t) := by
      change (t.db.bestOf r.side.other).map (·, t) = _
      rw [hbest]
      rfl
    unfold meetLevel
    refine (run_bind hfollow _).trans ?_
    cases l with
    | none => rfl
    | some best =>
      obtain ⟨os, ls, hside⟩ := hl
      -- That level does not cross, or something would have been matched.
      have hnc : ¬ r.crosses (t.db.levels best).price := by
        have hhead := @Request.matchLevels_not_crosses r r.qty (b.side r.side.other)
        have hrem : (r.matchLevels (b.side r.side.other) r.qty).rem = r.qty :=
          congrArg Outcome.rem hsame
        have hleft : (r.matchLevels (b.side r.side.other) r.qty).left = b.side r.side.other := by
          have := congrArg (fun o => o.left.side r.side.other) hsame
          unfold Book.matched Book.matchedFrom at this
          rwa [Book.side_setSide_self] at this
        rw [hrem, hleft, hside] at hhead
        exact hhead r.qty_ne _ rfl
      -- So the test for the price breaks the loop.
      have hstop : q.order_type ≠ 1 ∧ !crosses (t.db.levels best).price q.price := by
        unfold Request.crosses at hnc
        rw [not_or] at hnc
        refine ⟨fun hc => hnc.1 ?_, ?_⟩
        · exact code_eq_one.mp (hq.otype.trans (by rw [hc]; rfl))
        · rw [← hq.price, hcross, decide_eq_false hnc.2]
          rfl
      exact (run_bind (m := read fun db => (db.levels best).price) rfl _).trans
        (congrFun (if_pos hstop) t)
  unfold rowLoop
  refine (run_bind (m := read EngineDb.orderFuel) rfl _).trans ?_
  unfold EngineDb.orderFuel loop
  rw [if_pos (decide_eq_true hpos)]
  refine (run_bind hturn _).trans rfl

/-- A search reads only the rows of levels. -/
theorem treeFind_congr {db db' : EngineDb} (h : db'.levels = db.levels) (price : UInt64) (fuel : ℕ)
    (start : Option LevelPtr) : db'.treeFind price fuel start = db.treeFind price fuel start := by
  induction fuel generalizing start with
  | zero => rfl
  | succ fuel ih =>
    cases start with
    | none => rfl
    | some cur =>
      simp only [EngineDb.treeFind, h, ih]

/-- An exhausted pool has an empty free list. -/
theorem free_eq_none {next : ℕ → Option ℕ} {free : Option ℕ} {n total : UInt64} {xs : List ℕ}
    (h : PoolRep next free n total xs) (hfull : total.toNat ≤ n.toNat) : free = none := by
  have hcount := h.count
  have hnil : xs = [] := List.length_eq_zero_iff.mp (by omega)
  rw [h.chain.start_eq, hnil]
  rfl

/-- The pool that a new order needs is exhausted. -/
def Exhausted (own : Tree) (price : UInt64) (db : EngineDb) : Prop :=
  db.order_pool_free = none ∨ db.findIn own price = some none ∧ db.level_pool_free = none

/-- A book without room has exhausted a pool. -/
theorem StandsFor.exhausted (h : StandsFor false calloc t b) (hd : q.decode = some r)
    (hroom : ¬ b.HasRoom r (capsOf (EngineDb.init calloc))) : Exhausted r.side q.price t.db := by
  obtain ⟨horders, hlevels⟩ := h.rows
  obtain ⟨hcard, hcard'⟩ := h.counts
  obtain ⟨g, hs, hrep, hlink, hbook, hinv⟩ := h.snapshot
  have hmore := hinv.levels_le
  -- Either no order row is free, or one is and the level pool is the full one.
  rcases hfree : t.db.order_pool_free with _ | p
  · exact .inl hfree
  have hlt : b.orders.length < (capsOf (EngineDb.init calloc)).orders := by
    rw [horders, hcard]
    exact (live_lt_iff hrep.oPool).mpr (by rw [hfree]; rfl)
  obtain ⟨hnew, hfull⟩ := not_or.mp fun hc => hroom ⟨hlt, hc⟩
  refine .inr ⟨?_, ?_⟩
  · obtain ⟨l, hl, hspec⟩ := hrep.findIn r.side q.price
    cases l with
    | none => exact hl
    | some l =>
      -- A level with the price would have been room enough.
      refine absurd ⟨t.db.view.levelOf l, ?_, ?_⟩ hnew
      · rw [← hbook, Db.book_side]
        exact List.mem_map_of_mem (hlink.mem_tree.mp (hrep.mem_tree.mpr hspec.1))
      · rw [(OrderRequest.decodes hd).price, ← hspec.2]
        exact Rep.view_levelPrice (hrep.tree_live _ l hspec.1)
  · refine free_eq_none hrep.lPool ?_
    change t.db.levelRows ≤ _
    omega

/-- Where a pool is exhausted, an order is not rested and nothing changes. -/
theorem StandsFor.rest_exhausted (h : StandsFor false calloc t b) {own : Tree}
    (hfull : Exhausted own q.price t.db) (rem_qty : UInt64) :
    ∃ t', rest own q rem_qty t = some (false, t') ∧ t' = { t with db := t'.db } ∧
      Kept t.db t'.db := by
  obtain ⟨g, -, hrep, -, -, -⟩ := h.snapshot
  cases hfree : t.db.order_pool_free with
  | none =>
    refine ⟨t, ?_, rfl, .refl _⟩
    -- No order row, nothing done.
    have halloc : update (fun db => some db.orderPoolAlloc) t = some (none, t) := by
      change some (t.db.orderPoolAlloc.1, { t with db := t.db.orderPoolAlloc.2 }) = _
      unfold EngineDb.orderPoolAlloc
      rw [hfree]
    exact run_bind halloc _
  | some p =>
    obtain ⟨hfind, hlevel⟩ := hfull.resolve_left (by rw [hfree]; nofun)
    have hp : t.db.orderPoolAlloc = (some p, t.db.takeOrder p) := by
      unfold EngineDb.orderPoolAlloc
      rw [hfree]
    -- The row is taken and filled in, no level can be had, and it is given back.
    let db := (t.db.takeOrder p).setOrder p fun o => { o with
      id := q.id
      account_id := q.account_id
      side := q.side.toUInt64
      stp_mode := q.stp_mode.toUInt64
      price := q.price
      qty := q.qty
      remaining_qty := rem_qty }
    have halloc : update (fun db => some db.orderPoolAlloc) t =
        some (some p, { t with db := t.db.takeOrder p }) := by
      change some (t.db.orderPoolAlloc.1, { t with db := t.db.orderPoolAlloc.2 }) = _
      rw [hp]
    have hsearch : follow (·.findIn own q.price) { t with db } =
        some (none, { t with db }) := by
      change (db.findIn own q.price).map (·, _) = _
      -- The write of the row is not seen by the search for the level.
      have hsame : db.findIn own q.price = t.db.findIn own q.price := by
        rw [EngineDb.findIn_eq, EngineDb.findIn_eq]
        refine (treeFind_congr (show db.levels = t.db.levels from rfl) _ _ _).trans ?_
        cases own <;> rfl
      rw [hsame, hfind]
      rfl
    have hno : update (fun db => some db.levelPoolAlloc) { t with db } =
        some (none, { t with db }) := by
      change some (db.levelPoolAlloc.1, { t with db := db.levelPoolAlloc.2 }) = _
      have hdb : db.level_pool_free = none := hlevel
      unfold EngineDb.levelPoolAlloc
      rw [hdb]
    refine ⟨{ t with db := db.orderPoolFree p }, ?_, rfl, kept_orderPoolFree hrep hfree _⟩
    unfold rest
    refine (run_bind halloc _).trans ?_
    refine (run_bind (show write _ { t with db := t.db.takeOrder p } = some ((), { t with db })
      from rfl) _).trans ?_
    refine (run_bind hsearch _).trans ?_
    refine (run_bind hno _).trans rfl

/-- The test of the index. -/
theorem StandsFor.indOrderFind_eq (h : StandsFor false calloc t b) (id : UInt64) :
    ∃ o, t.db.indOrderFind id = some o ∧ (o.isSome ↔ id ∈ b.ids) := by
  obtain ⟨s, db, hs, hat, hlink, rfl, hlocked⟩ := h.locked
  obtain ⟨o, s', o', t₁, -, ⟨-, hfind⟩, hrun, rfl, rfl, rfl⟩ :=
    (returns_hashFind hat hlink id).follow
      (follows_follow (c := .hashFind id) (f := (·.indOrderFind id)) hlocked rfl)
  obtain ⟨o', ho, heq⟩ :=
    Option.map_eq_some_iff.mp (show (t₁.db.indOrderFind id).map (·, t₁) = _ from hrun)
  cases heq
  refine ⟨_, ho, ?_⟩
  rcases hfind with ⟨rfl, hid⟩ | ⟨hid, p, rfl, -⟩
  · exact iff_of_false Bool.false_ne_true hid
  · exact iff_of_true rfl hid

end Refused

/-- The tree that an order rests in. -/
def OrderRequest.own (q : OrderRequest) : Tree := if q.side = 0 then .bids else .asks

/-- The comparison of the best price of the other tree with the price of an order. -/
def crossesOf : Tree → UInt64 → UInt64 → Bool
  | .bids => fun best price => best ≤ price
  | .asks => fun best price => price ≤ best

/-- A request has passed every check that comes before matching. -/
structure Passes (q : OrderRequest) (t : State) : Prop where
  valid : q.decode.isSome
  fresh : t.db.indOrderFind q.id = some none
  uncrossed : wouldCross (OrderRequest.own q).other (crossesOf (OrderRequest.own q)) q t =
    some (false, t)

section Refusal

variable {calloc : EngineDb.Calloc} {engine : Option Engine} {cb : Bool} {t t' : State} {b : Book}
  {q : OrderRequest} {r : Request}

/-- The own side of a valid request. -/
theorem OrderRequest.own_eq (hd : q.decode = some r) : OrderRequest.own q = r.side := by
  have hside : q.side = 0 ↔ r.side.code = 0 := by
    rw [(OrderRequest.decodes hd).side]
    exact (UInt8.toUInt64_inj (b := 0)).symm
  unfold OrderRequest.own
  simp only [hside]
  cases r.side <;> rfl

/-- The comparison of a side is that of the book. -/
theorem crossesOf_eq (u : Tree) (p price : UInt64) :
    crossesOf u p price = decide (better u.other p price) := by cases u <;> rfl

/-- A refused request either stops at a check, or it matches nothing and a pool is exhausted. -/
theorem StandsFor.refusal (h : StandsFor false calloc t b) (hd : q.decode = some r)
    (hexec : processOrder (some q) t = some (false, t')) :
    (t' = t ∧ ¬ Passes q t) ∨
      (rowLoop (fun rem_qty => 0 < rem_qty) (meetLevel r.side.other (crossesOf r.side) q) q.qty t =
        some (q.qty, t) ∧ Exhausted r.side q.price t.db ∧
        t' = { t with db := t'.db } ∧ Kept t.db t'.db) := by
  obtain ⟨-, -, -, -, -, hinv⟩ := h.snapshot
  obtain ⟨o, hfind, hid⟩ := h.indOrderFind_eq r.id
  have hcross := h.wouldCross_eq hd fun p => crossesOf_eq r.side p r.price
  have hown := OrderRequest.own_eq hd
  have hrun := hexec
  rw [processOrder_valid hd] at hrun
  have hread : follow (·.indOrderFind r.id) t = some (o, t) := by
    change (t.db.indOrderFind r.id).map (·, t) = _
    rw [hfind]
    rfl
  rw [run_bind hread] at hrun
  by_cases hold : o.isSome
  · -- the id is in use
    rw [if_pos hold] at hrun
    cases hrun
    refine .inl ⟨rfl, fun hp => ?_⟩
    have hfresh := hp.fresh
    rw [← (OrderRequest.decodes hd).id, hfind] at hfresh
    cases hfresh
    cases hold
  -- The id is new.
  rw [if_neg hold] at hrun
  have hside : processSide r.side r.side.other (crossesOf r.side) q t = some (false, t') := by
    cases hs : r.side <;> (rw [hs] at hrun; exact hrun)
  unfold processSide at hside
  rw [run_bind hcross] at hside
  by_cases hpost : r.otype = .postOnly ∧ b.crossing r
  · -- a post-only order would cross
    rw [decide_eq_true hpost, if_pos rfl] at hside
    cases hside
    refine .inl ⟨rfl, fun hp => ?_⟩
    have huncrossed := hp.uncrossed
    rw [hown, hcross, decide_eq_true hpost] at huncrossed
    cases huncrossed
  -- It does not cross, or may, so the checks are passed.
  rw [decide_eq_false hpost, if_neg Bool.false_ne_true] at hside
  obtain ⟨ok, t'', hcall, b', ts, hstep, -, -⟩ := h.call (.process (some q)) nofun
  cases hexec.symm.trans hcall
  generalize hok : false = ok at hstep
  cases hstep with
  | invalid hno => cases hd.symm.trans hno
  | duplicate hd' hid' =>
    cases hd.symm.trans hd'
    exact absurd (hid.mpr hid') hold
  | @ends _ r' c _ _ hd' _ hends =>
    cases hd.symm.trans hd'
    cases hends with
    | postOnly hpost' => exact absurd hpost' hpost
    | placed => cases hok
    -- The only way left to be refused: nothing matched, and no room to rest.
    | full _ hrest hroom =>
      have hsame := hinv.matched_of_full h.fits.1 h.fits.2 hrest.1 hroom
      rw [hsame] at hroom
      have hloop := h.rowLoop_eq hd (fun p => crossesOf_eq r.side p r.price) hsame
      have hfull := h.exhausted hd hroom
      obtain ⟨t₁, hrest, ht₁, hkept⟩ := h.rest_exhausted hfull q.qty
      rw [run_bind hloop] at hside
      split at hside
      · cases hrest.symm.trans hside
        exact .inr ⟨hloop, hfull, ht₁, hkept⟩
      · cases hside

/-- Refusal is atomic: a request that is refused, in whatever state of the pools, calls no callback,
counts no trade, and writes at most to the payload of a free row. If it passed the checks, then
the matching loop matched and removed nothing, and the pool that it needed was exhausted. -/
theorem refused_atomic {req : Option OrderRequest} (h : Reach (Hand.init calloc engine cb) t)
    (hexec : processOrder req t = some (false, t')) :
    t'.events = t.events ∧ t'.engine = t.engine ∧ Kept t.db t'.db ∧
      ∀ q, req = some q → Passes q t →
        rowLoop (fun rem_qty => 0 < rem_qty)
          (meetLevel (OrderRequest.own q).other (crossesOf (OrderRequest.own q)) q) q.qty t =
            some (q.qty, t) ∧ Exhausted (OrderRequest.own q) q.price t.db := by
  obtain ⟨b, hb⟩ := h.standsFor
  cases req with
  | none =>
    cases hexec
    exact ⟨rfl, rfl, .refl _, nofun⟩
  | some q =>
    cases hd : q.decode with
    | none =>
      cases hexec.symm.trans (decode_eq_none hd t)
      refine ⟨rfl, rfl, .refl _, ?_⟩
      rintro _ ⟨⟩ hp
      have := hp.valid
      rw [hd] at this
      cases this
    | some r =>
      rcases hb.refusal hd hexec with ⟨rfl, hno⟩ | ⟨hloop, hfull, ht', hkept⟩
      · refine ⟨rfl, rfl, .refl _, ?_⟩
        rintro _ ⟨⟩ hp
        exact absurd hp hno
      · refine ⟨by rw [ht'], by rw [ht'], hkept, ?_⟩
        rintro _ ⟨⟩ -
        rw [OrderRequest.own_eq hd]
        exact ⟨hloop, hfull⟩

/-- With no memory for the pools, the first order is refused. -/
theorem refused_atomic_init :
    let t := Hand.init ⟨false, false⟩ none false
    let q : OrderRequest := ⟨1, 7, 0, 0, 0, 100, 5⟩
    ∃ t', processOrder (some q) t = some (false, t') ∧
      t'.events = t.events ∧ t'.engine = t.engine ∧ Kept t.db t'.db ∧
      ∀ q', some q = some q' → Passes q' t →
        rowLoop (fun rem_qty => 0 < rem_qty)
          (meetLevel (OrderRequest.own q').other (crossesOf (OrderRequest.own q')) q') q'.qty t =
            some (q'.qty, t) ∧ Exhausted (OrderRequest.own q') q'.price t.db :=
  ⟨_, rfl, refused_atomic .init rfl⟩

end Refusal

end MatchingEngine.Hand
