import MatchingEngine.Gen.Refine
import MatchingEngine.Hand.Lockstep

/-!
# The steps of the handwritten matcher

Between two calls the heap of the handwritten matcher is one that the generated matcher, run over
the adapter, is ready for a call on. So a call returns, and does to the book that the heap stands
for what the generated matcher does.

The handwritten matcher and the generated one are run side by side by `Hand/Lockstep.lean`, on heaps
that are equal, so what `Gen/Correct.lean` knows of the one is known of the other. `Stands` says
that such a run is possible, `Steps` is what a call does to the book, and `Reach.standsFor` is the
induction on the calls. An engine without spare rows and one whose totals may wrap are covered by
the same lemmas, with the conditions as premises.
-/

namespace MatchingEngine.Hand

open Contract Lib C Gen

/-! ## Requests -/

/-- The check of the type accepts the codes of types. -/
theorem typeOk_iff (c : UInt8) : (OrderType.ofCode c.toUInt64).isSome ↔ ¬ c > 3 := by
  rw [← Gen.typeOk_iff]
  simp only [← UInt64.toNat_inj, UInt8.toNat_toUInt64, gt_iff_lt, UInt8.lt_iff_toNat_lt]
  change ((_ = 0 ∨ _ = 1) ∨ (_ = 2 ∨ _ = 3)) ↔ ¬ 3 < _
  omega

/-- The check of the side accepts the codes of sides. -/
theorem sideOk_iff (c : UInt8) : (Tree.ofCode c.toUInt64).isSome ↔ ¬ c > 1 := by
  rw [← Gen.sideOk_iff]
  simp only [← UInt64.toNat_inj, UInt8.toNat_toUInt64, gt_iff_lt, UInt8.lt_iff_toNat_lt]
  change (_ = 0 ∨ _ = 1) ↔ ¬ 1 < _
  omega

/-- The check of the mode accepts the codes of modes. -/
theorem stpOk_iff (c : UInt8) : (StpMode.ofCode c.toUInt64).isSome ↔ ¬ c > 4 := by
  rw [← Gen.stpOk_iff]
  simp only [← UInt64.toNat_inj, UInt8.toNat_toUInt64, gt_iff_lt, UInt8.lt_iff_toNat_lt]
  change ((_ = 0 ∨ _ = 1) ∨ ((_ = 2 ∨ _ = 3) ∨ _ = 4)) ↔ ¬ 4 < _
  omega

/-- The checks of `MatchingEngine_ProcessOrder` that do not need the heap. -/
theorem decode_isSome_iff (q : OrderRequest) : q.decode.isSome ↔ ¬ q.qty = 0 ∧
    ¬ (q.side > 1 ∨ q.order_type > 3 ∨ q.stp_mode > 4) ∧ ¬ (q.order_type ≠ 1 ∧ q.price = 0) := by
  have hone : q.order_type.toUInt64 = 1 ↔ q.order_type = 1 := UInt8.toUInt64_inj (b := 1)
  rw [OrderRequest.decode_isSome, typeOk_iff, sideOk_iff, stpOk_iff, ne_eq, ne_eq, hone]
  tauto

/-- A request that is not valid is refused before anything is read or written. -/
theorem decode_eq_none {q : OrderRequest} (h : q.decode = none) (s : State) :
    processOrder (some q) s = some (false, s) := by
  have hno : ¬ q.decode.isSome := by rw [h]; exact Bool.false_ne_true
  rw [decode_isSome_iff] at hno
  unfold processOrder
  dsimp only
  by_cases h0 : q.qty = 0
  · rw [if_pos h0]
    rfl
  by_cases h1 : q.side > 1 ∨ q.order_type > 3 ∨ q.stp_mode > 4
  · rw [if_neg h0, if_pos h1]
    rfl
  · have h2 : q.order_type ≠ 1 ∧ q.price = 0 := not_not.mp fun hc => hno ⟨h0, h1, hc⟩
    rw [if_neg h0, if_neg h1, if_pos h2]
    rfl

/-- `MatchingEngine_ProcessOrder` after the checks that do not need the heap. -/
theorem processOrder_valid {q : OrderRequest} {r : Request} (h : q.decode = some r) :
    processOrder (some q) = (do
      if (← follow (·.indOrderFind r.id)).isSome then return false
      else if r.side.code = 0 then processSide .bids .asks (fun best price => best ≤ price) q
      else processSide .asks .bids (fun best price => price ≤ best) q) := by
  have hd := OrderRequest.decodes h
  obtain ⟨h0, h1, h2⟩ := (decode_isSome_iff q).mp (by rw [h]; rfl)
  have hside : q.side = 0 ↔ r.side.code = 0 := by
    rw [hd.side]
    exact (UInt8.toUInt64_inj (b := 0)).symm
  unfold processOrder
  dsimp only
  rw [if_neg h0, if_neg h1, if_neg h2, hd.id]
  simp only [hside]

/-! ## Steps -/

section Step

variable {wrap : Bool} {caps : Caps} {s₀ : Adapter} {hv : Adapter.Valid caps s₀}
  {he : s₀.view = Db.empty} {t : State} {b : Book}

/-- The heap of the handwritten matcher, between two calls, stands for the book `b`: the generated
matcher is ready for a call on it. -/
def Stands (wrap : Bool) (hv : Adapter.Valid caps s₀) (he : s₀.view = Db.empty) (t : State)
    (b : Book) : Prop :=
  ∃ s, Ready (Adapter.storeAs wrap hv he) s b ∧ t.db = s.store.db

/-- Where the generated matcher returns, the handwritten one does. -/
theorem returns_of_follows {α : Type} {m : Prog (Gen.State Adapter) α} {m' : Prog State Bool}
    {s : Gen.State Adapter} {Q : α → Gen.State Adapter → Prop} {p : α → Bool} (hm : Returns m s Q)
    (h : Follows m s m' t fun c s' ok t' => ok = p c ∧ Locked t s' t') :
    Returns m' t fun ok t' => ∃ c s', Q c s' ∧ ok = p c ∧ Locked t s' t' := by
  obtain ⟨c, s', ok, t', -, hq, hrun, hok, hlocked⟩ := hm.follow h
  exact ⟨ok, t', hrun, c, s', hq, hok, hlocked⟩

/-- A valid request: it is refused if a resting order has its id, and else it ends as it would for
the generated matcher. -/
theorem returns_processValid (hcap : caps.orders + 1 < 2^64) (h : Stands wrap hv he t b)
    {q : OrderRequest} {r : Request} (hd : q.decode = some r)
    (hfits : wrap = true → r.id ∉ b.ids → b.FitsMatching r)
    (hhonest : r.rests → b.orders.length < caps.orders ∨ s₀.db.orderRows = caps.orders) :
    Returns (processOrder (some q)) t fun ok t' =>
      (r.id ∈ b.ids ∧ ok = false ∧ t' = t) ∨
      (r.id ∉ b.ids ∧ ∃ c b' ts, ok = decide (c = 0) ∧ b.Ends r caps c b' ts ∧
        Stands wrap hv he t' b' ∧ t' = { t.reports ts with db := t'.db }) := by
  obtain ⟨s, ⟨⟨db, hs, n, hat, hlink, rfl⟩, hinv, hroom⟩, hdb⟩ := h
  obtain ⟨_, s₁, hrun, hat₁, hlink₁⟩ := returns_start (f := pure ())
    (Q := fun _ s' => At (Adapter.storeAs wrap hv he) s' (reset db) 0 ∧ Linked (reset db) hs)
    hat hlink fun s' h' hlink' => .pure ⟨h', hlink'⟩
  have hdb₁ : t.db = s₁.store.db := by
    cases hrun
    exact hdb
  -- The buffer of trades is empty when the search starts.
  rw [show db.book hs = (reset db).book hs from rfl] at hinv hroom hfits hhonest ⊢
  have hts : (reset db).trades = [] := rfl
  generalize reset db = db₁ at hat₁ hlink₁ hinv hroom hfits hhonest hts ⊢
  have h₁ : Locked t s₁ t := .start hcap hat₁ hts hdb₁
  rw [processOrder_valid hd]
  obtain ⟨o, s₂, o', t₂, -, ⟨hat₂, hfind⟩, hread, rfl, rfl, rfl⟩ :=
    (returns_hashFind hat₁ hlink₁ r.id).follow
      (follows_follow (c := .hashFind r.id) (f := (·.indOrderFind r.id)) h₁ rfl)
  refine .bind (Q := fun o' t' => o' = o ∧ t' = t₂) ⟨o, t₂, hread, rfl, rfl⟩ ?_
  rintro _ t₃ ⟨rfl, rfl⟩
  -- The id rests and the request is refused, or it is new and the side decides.
  rcases hfind with ⟨rfl, hid⟩ | ⟨hid, ord, rfl, -⟩
  · have hprocess : ∀ crosses : UInt64 → UInt64 → Bool,
        (∀ p, crosses p r.price = decide (better r.side.other p r.price)) →
        Returns (processSide r.side r.side.other crosses q) t₃ fun ok t' =>
          (r.id ∈ (db₁.book hs).ids ∧ ok = false ∧ t' = t₃) ∨
          (r.id ∉ (db₁.book hs).ids ∧ ∃ c b' ts, ok = decide (c = 0) ∧
            (db₁.book hs).Ends r caps c b' ts ∧ Stands wrap hv he t' b' ∧
            t' = { t₃.reports ts with db := t'.db }) := by
      intro crosses hcross
      have hroom₁ : db₁.oLive.card ≤ caps.orders := hlink₁.card_orders.trans_le hroom
      -- What the generated matcher does, and that this one follows it.
      have hgen := returns_genProcess crosses hcap hcross hat₂ hlink₁ hinv hid hts hroom₁
      have hfollows := follows_process hcap hcross hat₂ hlink₁ hinv hts hroom₁ hid
        (fun hw => hfits hw hid) hhonest (OrderRequest.decodes hd) h₁
      refine (returns_of_follows hgen hfollows).mono ?_
      rintro ok t' ⟨c, s', ⟨db', hs', n', hat', hlink', hends⟩, hok, hlocked⟩
      refine .inr ⟨hid, c, _, _, hok, hends, ⟨s', ⟨⟨db', hs', n', hat', hlink', rfl⟩,
        hends.inv hinv hid, hends.orders_le hroom⟩, hlocked.db⟩, ?_⟩
      rw [← hat'.view, hlocked.db]
      exact hlocked.state
    change Returns (if r.side.code = 0 then _ else _) t₃ _
    cases hside : r.side with
    | bids =>
      have := hprocess (fun best price => best ≤ price) fun p => by rw [hside]; rfl
      rw [hside] at this
      exact this
    | asks =>
      have := hprocess (fun best price => price ≤ best) fun p => by rw [hside]; rfl
      rw [hside] at this
      exact this
  · exact .pure (.inl ⟨hid, rfl, rfl⟩)

/-- A cancellation. -/
theorem returns_cancelOrder (hcap : caps.orders + 1 < 2^64) (h : Stands wrap hv he t b) (id : UInt64)
    (hfits : wrap = true → b.FitsCancel id) :
    Returns (cancelOrder id) t fun ok t' => ok = (b.cancel id).isSome ∧
      Stands wrap hv he t' ((b.cancel id).getD b) ∧ t' = { t with db := t'.db } := by
  obtain ⟨s, hready, hdb⟩ := h
  refine (returns_of_follows (returns_genCancelOrder hready id)
    (follows_genCancelOrder hcap id hready hfits hdb)).mono ?_
  rintro ok t' ⟨c, s', ⟨rfl, hts, hready'⟩, rfl, hlocked⟩
  refine ⟨?_, ⟨s', ?_, hlocked.db⟩, ?_⟩
  · unfold Book.cancelled
    cases b.cancel id <;> rfl
  · unfold Book.cancelled at hready'
    cases hb : b.cancel id <;> (rw [hb] at hready'; exact hready')
  · have hstate := hlocked.state
    have htrades : s'.store.tradeList = [] := hts
    rw [htrades, ← hlocked.db] at hstate
    exact hstate

end Step

/-! ## Reports -/

/-- What the reports of the trades `ts` do to an engine object. -/
def Engine.count (e : Engine) (ts : List TradeRow) : Engine :=
  { e with
    total_trades := e.total_trades + UInt64.ofNat ts.length
    total_volume := e.total_volume + (ts.map TradeRow.qty).sum }

/-- The reports of some trades with an engine: they are counted, and the callback is told of each.
-/
theorem State.reports_eq {s : State} {e : Engine} (h : s.engine = some e) (ts : List TradeRow) :
    s.reports ts = { s with
      engine := some (e.count ts)
      events := if e.on_trade then s.events ++ ts.map eventOf else s.events } := by
  induction ts generalizing s e with
  | nil =>
    unfold Engine.count reports
    rw [List.foldl_nil, List.map_nil, List.sum_nil, List.map_nil, List.append_nil]
    change s = { s with
      engine := some { e with total_trades := e.total_trades + 0, total_volume := e.total_volume + 0 }
      events := _ }
    rw [add_zero, add_zero, ite_self, ← h]
  | cons t ts ih =>
    have hreport : s.report (eventOf t) = { s with
        engine := some { e with
          total_trades := e.total_trades + 1, total_volume := e.total_volume + t.qty }
        events := if e.on_trade then s.events ++ [eventOf t] else s.events } := by
      unfold report
      rw [h]
      rfl
    have hstep := ih (congrArg State.engine hreport)
    change (s.report (eventOf t)).reports ts = _
    rw [hstep, hreport]
    unfold Engine.count
    simp only [List.length_cons, List.map_cons, List.sum_cons, UInt64.ofNat_add, add_assoc]
    -- The first trade is counted first, where the sum counts it last.
    have hcomm : (1 : UInt64) + UInt64.ofNat ts.length = UInt64.ofNat ts.length + UInt64.ofNat 1 :=
      add_comm ..
    rw [hcomm]
    cases e.on_trade <;> simp

/-! ## Calls -/

/-- What a call does to a book over pools of the sizes `caps`: its result, the book after it, and
its trades. -/
inductive Steps (caps : Caps) (b : Book) : Call → Bool → Book → List TradeRow → Prop where
  | null : Steps caps b (.process none) false b []
  | invalid {q : OrderRequest} (hd : q.decode = none) : Steps caps b (.process (some q)) false b []
  | duplicate {q : OrderRequest} {r : Request} (hd : q.decode = some r) (hid : r.id ∈ b.ids) :
      Steps caps b (.process (some q)) false b []
  | ends {q : OrderRequest} {r : Request} {c : UInt64} {b' : Book} {ts : List TradeRow}
      (hd : q.decode = some r) (hid : r.id ∉ b.ids) (h : b.Ends r caps c b' ts) :
      Steps caps b (.process (some q)) (c = 0) b' ts
  | cancel (id : UInt64) : Steps caps b (.cancel id) (b.cancel id).isSome ((b.cancel id).getD b) []

/-- What a call takes out by self-trade prevention or cancellation fits into what is left of its
level. A request that is refused takes nothing out. -/
def Call.Fits (b : Book) : Call → Prop
  | .process none => True
  | .process (some q) => ∀ r, q.decode = some r → r.id ∉ b.ids → b.FitsMatching r
  | .cancel id => b.FitsCancel id

instance (b : Book) : ∀ c : Call, Decidable (c.Fits b)
  | .process none => inferInstanceAs (Decidable True)
  | .process (some q) =>
    inferInstanceAs (Decidable (∀ r ∈ q.decode, r.id ∉ b.ids → b.FitsMatching r))
  | .cancel id => inferInstanceAs (Decidable (b.FitsCancel id))

section Runs

variable {wrap : Bool} {caps : Caps} {s₀ : Adapter} {hv : Adapter.Valid caps s₀}
  {he : s₀.view = Db.empty} {t : State} {b : Book}

/-- A call returns and does what `Steps` says. -/
theorem returns_call (hcap : caps.orders + 1 < 2^64) (hrows : s₀.db.orderRows = caps.orders)
    (h : Stands wrap hv he t b) (c : Call) (hfits : wrap = true → c.Fits b) :
    Returns c.exec t fun ok t' => ∃ b' ts, Steps caps b c ok b' ts ∧ Stands wrap hv he t' b' ∧
      t' = { t.reports ts with db := t'.db } := by
  cases c with
  | process req =>
    cases req with
    | none => exact .pure ⟨b, [], .null, h, rfl⟩
    | some q =>
      cases hd : q.decode with
      | none => exact ⟨false, t, decode_eq_none hd t, b, [], .invalid hd, h, rfl⟩
      | some r =>
        refine (returns_processValid hcap h hd (fun hw hid => hfits hw r hd hid)
          fun _ => .inr hrows).mono fun ok t' hx => ?_
        -- A request with a resting id, and one that ends as the book says.
        rcases hx with ⟨hid, rfl, rfl⟩ | ⟨hid, c, b', ts, rfl, hends, hstands, ht'⟩
        · exact ⟨b, [], .duplicate hd hid, h, rfl⟩
        · exact ⟨b', ts, .ends hd hid hends, hstands, ht'⟩
  | cancel id =>
    refine (returns_cancelOrder hcap h id hfits).mono ?_
    rintro ok t' ⟨rfl, hstands, ht'⟩
    exact ⟨_, [], .cancel id, hstands, ht'⟩

end Runs

/-- The states that calls reach. -/
inductive Reach (t₀ : State) : State → Prop where
  | init : Reach t₀ t₀
  | call {t t' : State} {ok : Bool} (c : Call) (h : Reach t₀ t) (hexec : c.exec t = some (ok, t')) :
      Reach t₀ t'

/-- The adapter on the heap of the handwritten matcher, with all order rows as its capacity. -/
def adapterOf (db : EngineDb) : Adapter where
  db := db
  g_cap := db.order_pool_total_allocated
  g_trades _ := ⟨0, 0, 0, 0⟩
  g_ntrades := 0

/-- The sizes of the pools. -/
def capsOf (db : EngineDb) : Caps := ⟨db.orderRows, min db.orderRows db.levelRows⟩

/-- The adapter around a heap in order is in order. -/
theorem valid_adapterOf {db : EngineDb} {g : Shape} (h : Rep db g) :
    (adapterOf db).Valid (capsOf db) := ⟨⟨g, h⟩, rfl, le_rfl, rfl⟩

/-- The heap after `EngineDb_Init` is empty. -/
theorem view_init (calloc : EngineDb.Calloc) : (EngineDb.init calloc).view = Db.empty := by
  obtain ⟨xs, ys, h⟩ := Rep.init calloc
  exact h.view_empty (EngineDb.init_order_pool_n _) (EngineDb.init_level_pool_n _)

/-- The store is empty at the start. -/
theorem view_adapterOf (calloc : EngineDb.Calloc) :
    (adapterOf (EngineDb.init calloc)).view = Db.empty := by
  change ({ (EngineDb.init calloc).view with trades := [] } : Db) = _
  rw [view_init]
  rfl

/-- The adapter is in order at the start. -/
theorem valid_init (calloc : EngineDb.Calloc) :
    (adapterOf (EngineDb.init calloc)).Valid (capsOf (EngineDb.init calloc)) :=
  let ⟨_, _, h⟩ := Rep.init calloc
  valid_adapterOf h

/-- The pools of `EngineDb_Init` have fewer than `2^32` rows. -/
theorem capsOf_init (calloc : EngineDb.Calloc) :
    (capsOf (EngineDb.init calloc)).orders + 1 < 2^64 := by
  obtain ⟨_, _, h⟩ := Rep.init calloc
  have hbound := h.oPool.bound
  change (EngineDb.init calloc).order_pool_total_allocated.toNat + 1 < 2^64
  omega

/-- A sequence of calls reaches a state. -/
theorem Reach.run {t₀ : State} {cs : List Call} : ∀ {t t' : State} {oks : List Bool}, Reach t₀ t →
    Hand.run cs t = some (oks, t') → Reach t₀ t' := by
  induction cs with
  | nil =>
    intro t t' oks h hrun
    cases hrun
    exact h
  | cons c cs ih =>
    intro t t' oks h hrun
    obtain ⟨⟨ok, t₁⟩, hexec, hrest⟩ := Option.bind_eq_some_iff.mp hrun
    obtain ⟨⟨oks', t₂⟩, hrest, hret⟩ := Option.bind_eq_some_iff.mp hrest
    cases hret
    exact ih (h.call c hexec) hrest

/-- The rows of the first chunks. -/
theorem chunks_allocated :
    (EngineDb.init ⟨true, true⟩).order_pool_total_allocated = 5000000 ∧
      (EngineDb.init ⟨true, true⟩).level_pool_total_allocated = 500000 := by
  rw [EngineDb.init_eq, EngineDb.levelPoolReserveMem_eq, EngineDb.orderPoolReserveMem_eq]
  exact ⟨rfl, rfl⟩

/-- The sizes of the pools when both first chunks are allocated. -/
theorem capsOf_chunks : capsOf (EngineDb.init ⟨true, true⟩) = ⟨5000000, 500000⟩ := by
  unfold capsOf EngineDb.orderRows EngineDb.levelRows
  rw [chunks_allocated.1, chunks_allocated.2]
  rfl

section Reachable

variable {wrap : Bool} {calloc : EngineDb.Calloc} {engine : Option Engine} {cb : Bool}
  {t : State} {b : Book}

/-- The heap of a matcher that `MatchingEngine_Init` has started stands for the book `b`. -/
def StandsFor (wrap : Bool) (calloc : EngineDb.Calloc) (t : State) (b : Book) : Prop :=
  Stands wrap (valid_init calloc) (view_adapterOf calloc) t b

/-- At the start the heap stands for the empty book. -/
theorem StandsFor.init : StandsFor wrap calloc (init calloc engine cb) Book.empty :=
  ⟨_, .init (Adapter.storeAs wrap (valid_init calloc) (view_adapterOf calloc)), rfl⟩

/-- A call of a matcher that `MatchingEngine_Init` has started. -/
theorem StandsFor.call (h : StandsFor wrap calloc t b) (c : Call) (hfits : wrap = true → c.Fits b) :
    Returns c.exec t fun ok t' => ∃ b' ts, Steps (capsOf (EngineDb.init calloc)) b c ok b' ts ∧
      StandsFor wrap calloc t' b' ∧ t' = { t.reports ts with db := t'.db } :=
  returns_call (capsOf_init calloc) rfl h c hfits

/-- Every state that calls reach stands for a book. -/
theorem Reach.standsFor (h : Reach (Hand.init calloc engine cb) t) :
    ∃ b, StandsFor false calloc t b := by
  induction h with
  | init => exact ⟨_, .init⟩
  | call c _ hexec ih =>
    obtain ⟨b, hb⟩ := ih
    obtain ⟨ok, t', hrun, b', -, -, hb', -⟩ := hb.call c nofun
    rw [hexec] at hrun
    cases hrun
    exact ⟨b', hb'⟩

/-- The heap is in order, its levels and orders are those of the book, and the book is in order. -/
theorem StandsFor.snapshot (h : StandsFor wrap calloc t b) :
    ∃ g hs, Rep t.db g ∧ Linked t.db.view hs ∧ t.db.view.book hs = b ∧ b.Inv := by
  obtain ⟨s, ⟨⟨db, hs, n, hat, hlink, rfl⟩, hinv, -⟩, hdb⟩ := h
  obtain ⟨g, hrep⟩ := hat.valid.1.rep
  rw [← hdb] at hrep
  have hview : { t.db.view with trades := s.store.tradeList } = db := hdb ▸ hat.view
  subst hview
  refine ⟨g, hs, hrep, ⟨hrep.view_wf, hlink.nodup, hlink.tree, hlink.queued, hlink.hash,
    hlink.levels⟩, rfl, hinv⟩

/-- The pools keep their sizes. -/
theorem StandsFor.rows (h : StandsFor wrap calloc t b) :
    (capsOf (EngineDb.init calloc)).orders = t.db.orderRows ∧
      (capsOf (EngineDb.init calloc)).levels = min t.db.orderRows t.db.levelRows := by
  obtain ⟨s, ⟨⟨db, hs, n, hat, -, -⟩, -, -⟩, hdb⟩ := h
  have horders : t.db.orderRows = (EngineDb.init calloc).orderRows := hdb ▸ hat.valid.2.1
  have hlevels := hat.valid.1.levels_eq
  rw [← hdb] at hlevels
  exact ⟨horders.symm, by rw [horders]; exact hlevels⟩

/-- The book that a heap holds. -/
noncomputable def State.book (t : State) : Book := t.db.view.decoded

/-- The book that a heap stands for is the one that is read from it. -/
theorem StandsFor.book_eq (h : StandsFor wrap calloc t b) : t.book = b := by
  obtain ⟨g, hs, -, hlink, rfl, hinv⟩ := h.snapshot
  exact hlink.decoded hinv

/-- A matcher that has just been started has no orders. -/
theorem book_init (calloc : EngineDb.Calloc) (engine : Option Engine) (cb : Bool) :
    (Hand.init calloc engine cb).book = Book.empty := by
  have h : StandsFor false calloc (Hand.init calloc engine cb) Book.empty := .init
  exact h.book_eq

end Reachable

end MatchingEngine.Hand
