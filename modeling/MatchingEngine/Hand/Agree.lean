import MatchingEngine.Gen.Exact
import MatchingEngine.Gen.Glue
import MatchingEngine.Hand.Book
import MatchingEngine.Hand.Structure

/-!
# The two engines agree

The handwritten matcher and the generated one behind `matcher_glue.c`. As long as the generated one
has no reason of its own to refuse a request, a quantity above its gate or an order to rest when its
capacity is reached, both do to the book that their heaps hold what `Book.step` does.

The observer sees the prices, the orders, the counts, and the totals of the levels
(`Book.observed`), the result of each call, and the trades that the callback was told of. `Allowed`
is the condition on the next call, and `Together` a pair of runs in which every call is allowed. The
totals agree too, since quantities within the gate add up to less than `2^64` on either side.
-/

namespace MatchingEngine

open Contract Lib C

/-! ## What a heap shows of its book -/

/-- A level as its fields and its queue show it. -/
structure LevelView where
  price : UInt64
  orders : List OrderRow
  orders_n : UInt32
  total_qty : UInt64

/-- A book, best price first, with the counts of levels and orders. -/
structure BookView where
  side : Tree → List LevelView
  side_n : Tree → UInt32
  orders_n : UInt64
  levels_n : UInt64

/-- What the heap shows. -/
noncomputable def C.EngineDb.observed (db : EngineDb) : BookView where
  side t := (db.view.sortedHandles t).map fun l =>
    ⟨(db.levels l).price, (db.queueOf l).map fun p => (db.orders p).row, (db.levels l).orders_n,
      (db.levels l).total_qty⟩
  side_n := db.treeN
  orders_n := db.order_pool_n
  levels_n := db.level_pool_n

/-- What a level should show. -/
def Level.observed (l : Level) : LevelView :=
  ⟨l.price, l.orders, UInt32.ofNat l.orders.length, UInt64.ofNat l.total⟩

/-- What a book should show. -/
def Book.observed (b : Book) : BookView where
  side t := (b.side t).map Level.observed
  side_n t := UInt32.ofNat (b.side t).length
  orders_n := UInt64.ofNat b.orders.length
  levels_n := UInt64.ofNat (b.bids.length + b.asks.length)

/-- A word is told by its number. -/
theorem uint64_ofNat {c : UInt64} {n : ℕ} (h : c.toNat = n % 2^64) : c = UInt64.ofNat n :=
  UInt64.toNat_inj.mp (h.trans UInt64.toNat_ofNat'.symm)

/-- A half word is told by its number. -/
theorem uint32_ofNat {c : UInt32} {n : ℕ} (h : c.toNat = n) : c = UInt32.ofNat n := by
  subst h
  exact UInt32.ofNat_toNat.symm

/-- A heap with the right totals shows the book that it holds. -/
theorem observed_eq {db : EngineDb} {g : Shape} {hs : Tree → List LevelH} (h : Rep db g)
    (hlink : Linked db.view hs) (hinv : (db.view.book hs).Inv) (htotal : db.Totalled) :
    db.observed = (db.view.book hs).observed := by
  have hsound := Hand.sound_layout h hlink hinv
  have hlevel : ∀ t, ∀ l ∈ hs t, LevelView.mk (db.levels l).price
      ((db.queueOf l).map fun p => (db.orders p).row) (db.levels l).orders_n
      (db.levels l).total_qty = (db.view.levelOf l).observed := by
    intro t l hl
    have hlive := h.tree_live t l (h.mem_tree.mp (hlink.mem_tree.mpr hl))
    have hrows : ((db.queueOf l).map fun p => (db.orders p).row) = (db.queueOf l).map db.view.row := by
      refine List.map_congr_left fun p hp => ?_
      rw [h.queueOf_eq] at hp
      exact (Db.row_eq (Rep.view_orders_eq (h.queue_live l p hp).1)).symm
    have hcount : (db.levels l).orders_n.toNat = (db.view.levelOf l).orders.length := by
      refine (h.queues.count l).trans ?_
      rw [← h.queueOf_eq]
      exact (List.length_map _).symm
    rw [hrows, uint32_ofNat hcount, uint64_ofNat (htotal l hlive), ← Rep.view_levelPrice hlive]
    rfl
  have hlength : ∀ t, (db.treeN t).toNat = ((db.view.book hs).side t).length := by
    intro t
    have hnodup : ((Hand.layoutOf g).levels t).Nodup := h.tree_nodup t
    rw [hsound.tree_count, Db.book_side, List.length_map,
      ← List.toFinset_card_of_nodup (hlink.nodup t), ← List.toFinset_card_of_nodup hnodup]
    refine congrArg Finset.card (Finset.ext fun l => ?_)
    rw [List.mem_toFinset, List.mem_toFinset]
    exact Hand.mem_levels h hlink
  have horders : db.order_pool_n.toNat = (db.view.book hs).orders.length :=
    h.card_liveOrders.symm.trans hlink.card_orders
  have hlevels : db.level_pool_n.toNat =
      (db.view.book hs).bids.length + (db.view.book hs).asks.length :=
    h.card_liveLevels.symm.trans hlink.card_levels
  unfold EngineDb.observed Book.observed
  rw [hlink.sortedHandles hinv]
  congr 1
  · funext t
    rw [Db.book_side, List.map_map]
    exact List.map_congr_left (hlevel t)
  · funext t
    exact uint32_ofNat (hlength t)
  · exact (UInt64.ofNat_toNat.symm).trans (congrArg _ horders)
  · exact (UInt64.ofNat_toNat.symm).trans (congrArg _ hlevels)

/-! ## Books of small quantities -/

/-- An order fits into its queue if the queue's sum does not wrap. -/
theorem fits_of_lt {os : List OrderRow} {p : OrderRow} (hp : p ∈ os) (hlt : rowsTotal os < 2^64) :
    Fits p os := by
  have hle : p.remaining.toNat ≤ rowsTotal os :=
    List.single_le_sum (fun _ _ => Nat.zero_le _) _ (List.mem_map_of_mem hp)
  unfold Fits
  rwa [Nat.mod_eq_of_lt hlt]

namespace Request

variable (r : Request)

/-- If the rows of a queue sum up to a word, so do all that matching leaves of it. -/
theorem fitsOrders_of_lt {os : List OrderRow} (hlt : rowsTotal os < 2^64) :
    ∀ rem, r.FitsOrders os rem := by
  induction os with
  | nil => exact fun _ => trivial
  | cons p ps ih =>
    intro rem hrem
    have hrest : rowsTotal ps < 2^64 := by
      rw [rowsTotal_cons] at hlt
      omega
    have hfits : Fits p (p :: ps) := fits_of_lt List.mem_cons_self hlt
    cases r.prevention p with
    | cancelNew => trivial
    | cancelOld => exact ⟨hfits, ih hrest rem⟩
    | cancelBoth => exact hfits
    | decrement => exact fun _ => ih hrest _
    | none => exact fun _ => ih hrest _

/-- If the rows of each level sum up to a word, so do all that matching leaves of it. -/
theorem fitsLevels_of_lt {ls : List Level} (hlt : ∀ l ∈ ls, l.total < 2^64) :
    ∀ rem, r.FitsLevels ls rem := by
  induction ls with
  | nil => exact fun _ => trivial
  | cons l ls ih =>
    intro rem _ _
    refine ⟨r.fitsOrders_of_lt (hlt l List.mem_cons_self) rem, fun _ => ?_⟩
    exact ih (fun m hm => hlt m (List.mem_cons_of_mem l hm)) _

end Request

/-- What a call takes out of a book of small sums fits. -/
theorem Hand.Call.fits_of_lt {b : Book} (h : ∀ t, ∀ l ∈ b.side t, l.total < 2^64) (c : Hand.Call) :
    c.Fits b := by
  cases c with
  | process req =>
    cases req with
    | none => trivial
    | some q => exact fun r _ _ _ => r.fitsLevels_of_lt (h _) _
  | cancel id => exact fun t l hl p hp _ => MatchingEngine.fits_of_lt hp (h t l hl)

/-- An order that may rest is a limit or a post-only order. -/
theorem OrderRequest.type_of_rests {q : OrderRequest} {r : Request} (hd : q.decode = some r)
    (h : r.rests) : q.order_type = 0 ∨ q.order_type = 3 := by
  have htype := (OrderRequest.decodes hd).otype
  rcases h with hr | hr
  · exact .inl (UInt8.toUInt64_inj.mp (by rw [← htype, hr]; rfl))
  · exact .inr (UInt8.toUInt64_inj.mp (by rw [← htype, hr]; rfl))

/-- A request that the generated matcher has no reason of its own to refuse does there what it is
for. -/
theorem Book.step_eq_processed {b : Book} {cap : ℕ} {q : OrderRequest}
    (hqty : q.qty.toNat ≤ Book.qmax cap)
    (hroom : q.order_type = 0 ∨ q.order_type = 3 → b.orders.length < cap) :
    b.step (.process (some q)) = (decide ((b.processed cap q).1 = 0), (b.processed cap q).2.left,
      (b.processed cap q).2.trades) := by
  cases hd : q.decode with
  | none =>
    cases htype : OrderType.ofCode q.order_type.toUInt64 with
    | none =>
      rw [Book.processed_unsupported htype]
      simp only [Book.step, hd]
      rfl
    | some o =>
      rw [Book.processed_invalid (by rw [htype]; rfl) hd]
      simp only [Book.step, hd]
      rfl
  | some r =>
    have hnot : ¬ (r.rests ∧ cap ≤ b.orders.length) := fun hfull =>
      not_lt.mpr hfull.2 (hroom (OrderRequest.type_of_rests hd hfull.1))
    rw [Book.processed_valid hd, (OrderRequest.decodes hd).qty, if_neg (not_lt.mpr hqty), if_neg hnot]
    simp only [Book.step, hd, Book.submit]
    by_cases hid : r.id ∈ b.ids
    · rw [if_pos hid, if_pos hid]
      rfl
    rw [if_neg hid, if_neg hid]
    by_cases hpost : r.otype = .postOnly ∧ b.crossing r
    · rw [if_pos hpost, if_pos hpost]
      rfl
    · rw [if_neg hpost, if_neg hpost]
      rfl

/-- A cancellation of the book, by its code. -/
theorem Book.step_cancel (b : Book) (id : UInt64) : b.step (.cancel id) =
    (decide ((b.cancelled id).1 = 1), (b.cancelled id).2, []) := by
  cases hb : b.cancel id with
  | none => simp only [Book.step, Book.cancelled, hb]; rfl
  | some b' => simp only [Book.step, Book.cancelled, hb]; rfl

namespace Hand

open Gen

section Agree

variable {capacity : UInt64} {calloc : AdapterCalloc} {engine : Option Engine} {cb : Bool}
  {s₀ : Adapter}
  {g g' : Glue} {t t' : State} {b : Book}

/-- Both engines hold the book `b` and have reported the same. -/
structure Agrees (hcap : capacity.toNat < 2^32) (hinit : Adapter.init calloc capacity = some s₀)
    (g : Glue) (t : State) (b : Book) : Prop where
  ready : Ready (Adapter.store hcap hinit) g.gen b
  gated : Adapter.Gated capacity g.gen.store
  stands : StandsFor true ⟨true, true⟩ t b
  engine : g.engine = t.engine
  events : g.events = t.events

/-- A call that the generated matcher has no reason of its own to refuse, in the state `t` of the
other engine: the quantity is at most the gate, and no order that may rest arrives while as many
orders rest as the capacity. -/
def Allowed (capacity : UInt64) (t : State) : Call → Prop
  | .process (some q) => q.qty.toNat ≤ (2^64 - 1) / (capacity.toNat + 1) ∧
      (q.order_type = 0 ∨ q.order_type = 3 → t.db.order_pool_n < capacity)
  | _ => True

/-- What reporting does depends on the engine object and the events so far. -/
theorem reportAll_eq (he : g.engine = t.engine) (hv : g.events = t.events) :
    g.reportAll.gen = g.gen ∧ g.reportAll.engine = (t.reports g.gen.store.tradeList).engine ∧
      g.reportAll.events = (t.reports g.gen.store.tradeList).events := by
  unfold Glue.reportAll State.reports Adapter.tradeList
  rw [List.foldl_map]
  generalize hstore : g.gen.store = s
  generalize List.range s.g_ntrades.toNat = xs
  induction xs generalizing g t with
  | nil => exact ⟨rfl, he, hv⟩
  | cons i xs ih =>
    have hstep : (g.report (tradeGet s i)).gen = g.gen ∧
        (g.report (tradeGet s i)).engine = (t.report (eventOf (s.g_trades i))).engine ∧
          (g.report (tradeGet s i)).events = (t.report (eventOf (s.g_trades i))).events := by
      unfold Glue.report State.report
      rw [he]
      cases ht : t.engine with
      | none => exact ⟨rfl, he, hv⟩
      | some e =>
        refine ⟨rfl, rfl, ?_⟩
        dsimp only
        rw [hv]
        rfl
    have := ih hstep.2.1 hstep.2.2 (hstep.1 ▸ hstore)
    rw [List.foldl_cons, List.foldl_cons, hstore]
    exact ⟨this.1.trans hstep.1, this.2⟩

variable {hcap : capacity.toNat < 2^32} {hinit : Adapter.init calloc capacity = some s₀}

/-- The generated matcher refuses the quantities with which a level could sum up to more than a
word. -/
theorem Agrees.total_lt (h : Agrees hcap hinit g t b) :
    ∀ u, ∀ l ∈ b.side u, l.total < 2^64 := by
  obtain ⟨⟨db, hs, n, hat, -, rfl⟩, -, -⟩ := h.ready
  intro u l hl
  rw [Db.book_side] at hl
  obtain ⟨m, -, rfl⟩ := List.mem_map.mp hl
  have hlt := h.gated.total_lt (by omega) m
  have hview : g.gen.store.view = db := hat.view
  rw [hview] at hlt
  exact lt_of_le_of_lt (Nat.le_add_right _ _) hlt

/-- An allowed call does on the handwritten side what it is for. -/
theorem Agrees.hand (h : Agrees hcap hinit g t b) (hle : capacity.toNat ≤ 500000) {c : Call}
    (hallowed : Allowed capacity t c) : ∃ t', c.exec t = some ((b.step c).1, t') ∧
      StandsFor true ⟨true, true⟩ t' (b.step c).2.1 ∧
      t' = { t.reports (b.step c).2.2 with db := t'.db } := by
  obtain ⟨ok, t', hrun, b', ts, hsteps, hstands, ht'⟩ :=
    h.stands.call c fun _ => Call.fits_of_lt h.total_lt c
  have hstep := hsteps.eq_step_of_rests fun q r hc hd hrests => by
    subst hc
    have hlt := UInt64.lt_iff_toNat_lt.mp (hallowed.2 (OrderRequest.type_of_rests hd hrests))
    rw [← h.stands.counts.1] at hlt
    have hlevels := h.ready.inv.levels_le
    rw [capsOf_chunks]
    exact ⟨by dsimp only; omega, by dsimp only; omega⟩
  rw [hstep]
  exact ⟨t', hrun, hstands, ht'⟩

/-- An allowed call does on the generated side what it is for. -/
theorem Agrees.glue (h : Agrees hcap hinit g t b) {c : Call} (hallowed : Allowed capacity t c) :
    ∃ g', glueCall c g = some ((b.step c).1, g') ∧
      Ready (Adapter.store hcap hinit) g'.gen (b.step c).2.1 ∧
      Adapter.Gated capacity g'.gen.store ∧
      g'.engine = (t.reports (b.step c).2.2).engine ∧
      g'.events = (t.reports (b.step c).2.2).events := by
  cases c with
  | process req =>
    cases req with
    | none => exact ⟨g, rfl, h.ready, h.gated, h.engine, h.events⟩
    | some q =>
      obtain ⟨hqty, hroom⟩ := hallowed
      have hstep := Book.step_eq_processed (b := b) (q := q) hqty fun htype => by
        have hlt := UInt64.lt_iff_toNat_lt.mp (hroom htype)
        rwa [← h.stands.counts.1] at hlt
      obtain ⟨c, s', hrun, rfl, hts, hready⟩ :=
        returns_genProcessOrder (show capacity.toNat + 1 < 2^64 by omega) h.ready q
      obtain ⟨hgen, hengine, hevents⟩ := reportAll_eq (g := { g with gen := s' }) h.engine h.events
      rw [hstep]
      refine ⟨({ g with gen := s' } : Glue).reportAll, ?_, ?_, ?_, ?_, ?_⟩
      · exact congrArg (Option.map _) hrun
      · rw [hgen]
        exact hready
      · rw [hgen]
        exact h.ready.gated hcap hinit h.gated (c := .process _ _ _ _ _ _ _) hrun
      · rw [← hts]
        exact hengine
      · rw [← hts]
        exact hevents
  | cancel id =>
    obtain ⟨c, s', hrun, rfl, hts, hready⟩ := returns_genCancelOrder h.ready id
    rw [Book.step_cancel]
    exact ⟨{ g with gen := s' }, congrArg (Option.map _) hrun, hready,
      h.ready.gated hcap hinit h.gated (c := .cancel id) hrun, h.engine, h.events⟩

/-- An allowed call keeps the agreement. -/
theorem Agrees.call (h : Agrees hcap hinit g t b) (hle : capacity.toNat ≤ 500000) {c : Call}
    (hallowed : Allowed capacity t c) : ∃ ok g' t', glueCall c g = some (ok, g') ∧
      c.exec t = some (ok, t') ∧ Agrees hcap hinit g' t' (b.step c).2.1 := by
  obtain ⟨t', hrun, hstands, ht'⟩ := h.hand hle hallowed
  obtain ⟨g', hglue, hready, hgated, hengine, hevents⟩ := h.glue hallowed
  refine ⟨_, g', t', hglue, hrun, hready, hgated, hstands, ?_, ?_⟩
  · rw [hengine, ht']
  · rw [hevents, ht']

/-- Engines that agree show the same book. -/
theorem Agrees.observed (h : Agrees hcap hinit g t b) :
    g.gen.store.db.observed = t.db.observed := by
  obtain ⟨rep, hs, hrep, hlink, hbook, hinv⟩ := h.stands.snapshot
  obtain ⟨s, ⟨⟨db, hs', n, hat, -, -⟩, -, -⟩, hdb⟩ := h.stands
  have htotal : t.db.Totalled := hdb ▸ hat.valid.2.2 rfl
  obtain ⟨⟨db', hs', n', hat', hlink', hbook'⟩, -, -⟩ := h.ready
  obtain ⟨rep', hrep'⟩ := hat'.valid.rep
  have hview : { g.gen.store.db.view with trades := g.gen.store.tradeList } = db' := hat'.view
  subst hview
  have hlink'' : Linked g.gen.store.db.view hs' :=
    ⟨hrep'.view_wf, hlink'.nodup, hlink'.tree, hlink'.queued, hlink'.hash, hlink'.levels⟩
  have hbook'' : g.gen.store.db.view.book hs' = b := hbook'
  rw [observed_eq hrep hlink (hbook ▸ hinv) htotal,
    observed_eq hrep' hlink'' (hbook'' ▸ hinv) h.gated.totalled, hbook, hbook'']

/-- The states that allowed calls reach when they are made to both engines. -/
inductive Together (capacity : UInt64) (g₀ : Glue) (t₀ : State) : Glue → State → Prop where
  | init : Together capacity g₀ t₀ g₀ t₀
  | call {g g' : Glue} {t t' : State} {ok ok' : Bool} (c : Call) (h : Together capacity g₀ t₀ g t)
      (hallowed : Allowed capacity t c) (hglue : glueCall c g = some (ok, g'))
      (hhand : c.exec t = some (ok', t')) : Together capacity g₀ t₀ g' t'

/-- Calls with quantities that pass the gate, and no more than there is room for, are allowed. -/
theorem Together.run {g₀ : Glue} {t₀ : State} (h : Together capacity g₀ t₀ g t)
    (hb : Agrees hcap hinit g t b) (hle : capacity.toNat ≤ 500000) (cs : List Call)
    (hqty : ∀ q, Call.process (some q) ∈ cs → q.qty.toNat ≤ (2^64 - 1) / (capacity.toNat + 1))
    (hlen : b.orders.length + cs.length ≤ capacity.toNat) :
    ∃ g' t', Hand.run cs t = some ((b.steps cs).1, t') ∧ Together capacity g₀ t₀ g' t' := by
  induction cs generalizing g t b with
  | nil => exact ⟨g, t, rfl, h⟩
  | cons c cs ih =>
    rw [List.length_cons] at hlen
    have hcount := hb.stands.counts.1
    have hallowed : Allowed capacity t c := by
      cases c with
      | process req =>
        cases req with
        | none => trivial
        | some q =>
          refine ⟨hqty q List.mem_cons_self, fun _ => ?_⟩
          rw [UInt64.lt_iff_toNat_lt]
          omega
      | cancel id => trivial
    obtain ⟨t₁, hexec, -, -⟩ := hb.hand hle hallowed
    obtain ⟨ok, g₁, t₁', hglue, hexec', hb₁⟩ := hb.call hle hallowed
    cases hexec.symm.trans hexec'
    have hstep := b.step_orders_le c
    obtain ⟨g₂, t₂, hrun, htogether⟩ := ih (h.call c hallowed hglue hexec) hb₁
      (fun q hq => hqty q (List.mem_cons_of_mem c hq)) (by omega)
    exact ⟨g₂, t₂, run_bind_iff.mpr ⟨_, t₁, hexec, run_bind_iff.mpr ⟨_, t₂, hrun, rfl⟩⟩, htogether⟩

/-- Both engines start with the empty book. -/
theorem Agrees.init {g₀ : Glue} (hcap : capacity.toNat < 2^32)
    (hinit : glueInit calloc capacity engine cb = some g₀) :
    ∃ s₀, ∃ hs₀ : Adapter.init calloc capacity = some s₀,
      Agrees hcap hs₀ g₀ (Hand.init ⟨true, true⟩ engine cb) Book.empty := by
  obtain ⟨s₀, hs₀, rfl⟩ := Option.map_eq_some_iff.mp hinit
  exact ⟨s₀, hs₀, .init (Adapter.store hcap hs₀), .init hcap hs₀, .init, rfl, rfl⟩

/-- Both engines stand for one book, call by call. -/
theorem Together.agrees {g₀ : Glue} {hs₀ : Adapter.init calloc capacity = some s₀}
    (h₀ : Agrees hcap hs₀ g₀ (Hand.init ⟨true, true⟩ engine cb) Book.empty)
    (hle : capacity.toNat ≤ 500000)
    (h : Together capacity g₀ (Hand.init ⟨true, true⟩ engine cb) g t) :
    ∃ b, Agrees hcap hs₀ g t b := by
  induction h with
  | init => exact ⟨_, h₀⟩
  | call c _ hallowed hglue hhand ih =>
    obtain ⟨b, hb⟩ := ih
    obtain ⟨ok, g', t', hglue', hhand', hb'⟩ := hb.call hle hallowed
    cases hglue.symm.trans hglue'
    cases hhand.symm.trans hhand'
    exact ⟨_, hb'⟩

/-- The handwritten engine and the generated one agree: with a capacity of at most 500000, when both
are started and the same calls are made to both, none with a quantity above the gate or with an
order that may rest while as many orders rest as the capacity, then both have the same counters, the
same callbacks, and the same book to show, and return the same from the next such call. -/
theorem engines_agree {g₀ : Glue} (hle : capacity.toNat ≤ 500000)
    (hinit : glueInit calloc capacity engine cb = some g₀)
    (h : Together capacity g₀ (Hand.init ⟨true, true⟩ engine cb) g t) :
    g.engine = t.engine ∧ g.events = t.events ∧
      g.gen.store.db.observed = t.db.observed ∧
      ∀ c, Allowed capacity t c →
        ∃ ok g' t', glueCall c g = some (ok, g') ∧ c.exec t = some (ok, t') := by
  have hcap : capacity.toNat < 2^32 := by omega
  obtain ⟨s₀, hs₀, h₀⟩ := Agrees.init hcap hinit
  obtain ⟨b, hb⟩ := h.agrees h₀ hle
  refine ⟨hb.engine, hb.events, hb.observed, fun c hallowed => ?_⟩
  obtain ⟨ok, g', t', hglue, hhand, -⟩ := hb.call hle hallowed
  exact ⟨ok, g', t', hglue, hhand⟩

end Agree

/-- The session made to both engines, with a capacity of 16. -/
theorem engines_agree_session : ∃ g₀ g t,
    glueInit ⟨⟨true, true⟩, true, true, true⟩ 16 (some ⟨0, 0, false⟩) true = some g₀ ∧
    Together 16 g₀ (Hand.init ⟨true, true⟩ (some ⟨0, 0, false⟩) true) g t ∧
    t.book = sessionBook ∧ t.events = [⟨7, 2, 101, 2⟩, ⟨8, 2, 101, 3⟩] ∧
    g.engine = t.engine ∧ g.events = t.events ∧ g.gen.store.db.observed = t.db.observed ∧
    ∀ c, Allowed 16 t c → ∃ ok g' t', glueCall c g = some (ok, g') ∧ c.exec t = some (ok, t') := by
  have hsome : (glueInit ⟨⟨true, true⟩, true, true, true⟩ 16 (some ⟨0, 0, false⟩) true).isSome := by
    have horders : ¬ (EngineDb.init ⟨true, true⟩).order_pool_total_allocated < 16 := by
      rw [chunks_allocated.1]
      decide
    have hlevels : ¬ (EngineDb.init ⟨true, true⟩).level_pool_total_allocated < 16 := by
      rw [chunks_allocated.2]
      decide
    unfold glueInit Adapter.init Adapter.reserveOrders
    rw [if_neg horders]
    unfold Adapter.reserveLevels
    rw [Option.bind_eq_bind, Option.bind_some, if_neg hlevels]
    rfl
  obtain ⟨g₀, hinit⟩ := Option.isSome_iff_exists.mp hsome
  obtain ⟨s₀, hs₀, h₀⟩ := Agrees.init (by decide) hinit
  have hqty : ∀ q, Call.process (some q) ∈ session → q.qty.toNat ≤ (2^64 - 1) / 17 := by
    intro q hq
    simp only [session, List.mem_cons, Call.process.injEq, Option.some.injEq, reduceCtorEq,
      List.not_mem_nil, or_false, false_or] at hq
    rcases hq with rfl | rfl | rfl | rfl | rfl | rfl | rfl | rfl | rfl <;> decide
  obtain ⟨g, t, hrun, htogether⟩ := Together.init.run h₀ (by decide) session hqty (by decide)
  obtain ⟨t', -, hrun', hbook, hevents, -⟩ := session_run
  cases hrun.symm.trans hrun'
  exact ⟨g₀, g, t, hinit, htogether, hbook, hevents, engines_agree (by decide) hinit htogether⟩

end Hand

end MatchingEngine
