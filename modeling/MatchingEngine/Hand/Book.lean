import MatchingEngine.Hand.Refine

/-!
# The handwritten matcher and the abstract book

`Book.step` is what a call is for: a price-time book without pools. While neither pool is exhausted,
the handwritten matcher does to the book that its heap holds what `Book.step` does, with the same
result and the same trades.

`Book.step` decodes the request, refuses it when it is not valid or its id rests, and otherwise
matches it and rests what remains. By `Steps.eq_step` a call that finds room is such a step, and
`State.Roomy` reads off the free lists of the heap whether there is room. `hand_refines_book` is
about any number of calls before and any one call after, and a session of calls that trade and rest
is an instance.
-/

namespace MatchingEngine

open Contract Lib C

namespace Book

/-- What a call does to a book without pools: its result, the book after it, and its trades. -/
def step (b : Book) : Hand.Call → Bool × Book × List TradeRow
  | .process none => (false, b, [])
  | .process (some q) =>
    match q.decode with
    | none => (false, b, [])
    | some r =>
      match b.submit r with
      | none => (false, b, [])
      | some o => (true, o.left, o.trades)
  | .cancel id =>
    match b.cancel id with
    | none => (false, b, [])
    | some b' => (true, b', [])

/-- What some calls do to a book without pools: their results, the book after them, and their
trades. -/
def steps (b : Book) : List Hand.Call → List Bool × Book × List TradeRow
  | [] => ([], b, [])
  | c :: cs =>
    let first := b.step c
    let rest := first.2.1.steps cs
    (first.1 :: rest.1, rest.2.1, first.2.2 ++ rest.2.2)

/-- A call adds at most one order. -/
theorem step_orders_le (b : Book) (c : Hand.Call) :
    (b.step c).2.1.orders.length ≤ b.orders.length + 1 := by
  unfold step
  split
  · exact Nat.le_succ _
  · split
    · exact Nat.le_succ _
    · split
      · exact Nat.le_succ _
      · rename_i hsubmit
        exact submit_orders_le hsubmit
  · split
    · exact Nat.le_succ _
    · rename_i hcancel
      exact (cancel_orders_le hcancel).trans (Nat.le_succ _)

end Book

namespace Hand

open Gen

variable {caps : Caps} {b b' : Book} {c : Call} {ok : Bool} {ts : List TradeRow}

/-- With a row left in both pools for an order that may rest, a call does what it is for. -/
theorem Steps.eq_step_of_rests (h : Steps caps b c ok b' ts)
    (hroom : ∀ q r, c = .process (some q) → q.decode = some r → r.rests →
      b.orders.length < caps.orders ∧ b.bids.length + b.asks.length < caps.levels) :
    b.step c = (ok, b', ts) := by
  cases h with
  | null => rfl
  | invalid hd => simp only [Book.step, hd]
  | duplicate hd hid => simp only [Book.step, hd, Book.submit, if_pos hid]
  | @ends q r c b' ts hd hid h =>
    simp only [Book.step, hd, Book.submit, if_neg hid]
    cases h with
    | postOnly hpost =>
      rw [if_pos hpost]
      rfl
    | full hpost hrest hfull =>
      obtain ⟨horders, hlevels⟩ := hroom q r rfl hd hrest.2
      refine absurd ⟨?_, .inr ?_⟩ hfull
      · exact Book.matched_orders_le.trans_lt horders
      · exact Book.matched_levels_le.trans_lt hlevels
    | placed hpost =>
      rw [if_neg hpost]
      rfl
  | cancel id =>
    simp only [Book.step]
    cases b.cancel id <;> rfl

/-- With a row left in both pools, a call does what it is for. -/
theorem Steps.eq_step (h : Steps caps b c ok b' ts) (horders : b.orders.length < caps.orders)
    (hlevels : b.bids.length + b.asks.length < caps.levels) : b.step c = (ok, b', ts) :=
  h.eq_step_of_rests fun _ _ _ _ _ => ⟨horders, hlevels⟩

/-- Both pools have a row left. -/
def State.Roomy (t : State) : Prop :=
  t.db.order_pool_free.isSome ∧ t.db.level_pool_free.isSome

instance (t : State) : Decidable t.Roomy := inferInstanceAs (Decidable (_ ∧ _))

section Reachable

variable {wrap : Bool} {calloc : EngineDb.Calloc} {engine : Option Engine} {cb : Bool}
  {t t' : State}

/-- A pool has a row left just when it has fewer live rows than rows. -/
theorem live_lt_iff {next : ℕ → Option ℕ} {free : Option ℕ} {n total : UInt64} {xs : List ℕ}
    (h : PoolRep next free n total xs) : n.toNat < total.toNat ↔ free.isSome := by
  have hcount := h.count
  rw [h.chain.start_eq]
  cases xs with
  | nil =>
    rw [List.length_nil] at hcount
    exact iff_of_false (by omega) fun hsome => by cases hsome
  | cons x xs =>
    rw [List.length_cons] at hcount
    exact iff_of_true (by omega) rfl

/-- The pools' counters count the orders and the levels of the book. -/
theorem StandsFor.counts (h : StandsFor wrap calloc t b) :
    b.orders.length = t.db.order_pool_n.toNat ∧
      b.bids.length + b.asks.length = t.db.level_pool_n.toNat := by
  obtain ⟨g, hs, hrep, hlink, rfl, -⟩ := h.snapshot
  exact ⟨hlink.card_orders.symm.trans hrep.card_liveOrders,
    hlink.card_levels.symm.trans hrep.card_liveLevels⟩

/-- The book fits into the pools. -/
theorem StandsFor.fits (h : StandsFor wrap calloc t b) :
    b.orders.length ≤ (capsOf (EngineDb.init calloc)).orders ∧
      b.bids.length + b.asks.length ≤ (capsOf (EngineDb.init calloc)).levels := by
  obtain ⟨horders, hlevels⟩ := h.rows
  obtain ⟨hcard, hcard'⟩ := h.counts
  obtain ⟨g, hs, hrep, hlink, -, hinv⟩ := h.snapshot
  have hle := hrep.oPool.count
  have hle' := hrep.lPool.count
  have hmore := hinv.levels_le
  change _ + _ = t.db.orderRows at hle
  change _ + _ = t.db.levelRows at hle'
  rw [horders, hlevels]
  omega

/-- Both pools have a row left just while the book has room for an order and for a level. -/
theorem StandsFor.roomy_iff (h : StandsFor wrap calloc t b) : t.Roomy ↔
    b.orders.length < (capsOf (EngineDb.init calloc)).orders ∧
      b.bids.length + b.asks.length < (capsOf (EngineDb.init calloc)).levels := by
  obtain ⟨horders, hlevels⟩ := h.rows
  obtain ⟨hcard, hcard'⟩ := h.counts
  obtain ⟨g, hs, hrep, hlink, -, hinv⟩ := h.snapshot
  have hlt : _ < t.db.orderRows ↔ _ := live_lt_iff hrep.oPool
  have hlt' : _ < t.db.levelRows ↔ _ := live_lt_iff hrep.lPool
  have hmore := hinv.levels_le
  unfold State.Roomy
  rw [← hlt, ← hlt', horders, hlevels]
  omega

/-- While there are fewer orders than there are levels in the first chunk, both pools have room. -/
theorem StandsFor.roomy (h : StandsFor wrap ⟨true, true⟩ t b) (hlt : b.orders.length < 500000) :
    t.Roomy := by
  obtain ⟨-, -, -, -, -, hinv⟩ := h.snapshot
  have hlevels := hinv.levels_le
  refine h.roomy_iff.mpr ?_
  rw [capsOf_chunks]
  dsimp only
  omega

/-- A non-`NULL` engine stays one, with the callback that it was started with. -/
theorem Reach.engine_eq {e₀ : Engine} (h : Reach (Hand.init calloc (some e₀) cb) t) :
    ∃ e, t.engine = some e ∧ e.on_trade = cb := by
  have hstands : ∃ b, StandsFor false calloc t b := h.standsFor
  induction h with
  | init => exact ⟨_, rfl, rfl⟩
  | @call t t' ok c h hexec ih =>
    obtain ⟨b, hb⟩ := h.standsFor
    obtain ⟨e, he, hcb⟩ := ih ⟨b, hb⟩
    obtain ⟨ok', t'', hrun, b', ts, -, -, ht'⟩ := hb.call c nofun
    rw [hexec] at hrun
    cases hrun
    rw [ht', State.reports_eq he]
    exact ⟨_, rfl, hcb⟩

end Reachable

section Callback

variable {calloc : EngineDb.Calloc} {e₀ : Engine} {t : State} {b : Book}

/-- With room in both pools, a call of an engine with a callback does what it is for. -/
theorem Reach.exec_step (h : Reach (Hand.init calloc (some e₀) true) t)
    (hb : StandsFor false calloc t b) (hroom : t.Roomy) (c : Call) :
    ∃ t', c.exec t = some ((b.step c).1, t') ∧
      t'.events = t.events ++ (b.step c).2.2.map eventOf ∧
      StandsFor false calloc t' (b.step c).2.1 := by
  obtain ⟨e, he, hcb⟩ := h.engine_eq
  obtain ⟨horders, hlevels⟩ := hb.roomy_iff.mp hroom
  obtain ⟨ok, t', hrun, b', ts, hstep, hb', ht'⟩ := hb.call c nofun
  rw [hstep.eq_step horders hlevels]
  refine ⟨t', hrun, ?_, hb'⟩
  rw [ht', State.reports_eq he, if_pos hcb]

/-- While there are at most as many orders as there are levels in the first chunk, both pools have
room, so some calls do together what they are for. -/
theorem Reach.run_steps (h : Reach (Hand.init ⟨true, true⟩ (some e₀) true) t)
    (hb : StandsFor false ⟨true, true⟩ t b) (cs : List Call)
    (hlen : b.orders.length + cs.length ≤ 500000) :
    ∃ t', Hand.run cs t = some ((b.steps cs).1, t') ∧
      t'.events = t.events ++ (b.steps cs).2.2.map eventOf ∧
      StandsFor false ⟨true, true⟩ t' (b.steps cs).2.1 := by
  induction cs generalizing t b with
  | nil => exact ⟨t, rfl, (List.append_nil _).symm, hb⟩
  | cons c cs ih =>
    rw [List.length_cons] at hlen
    have hle := b.step_orders_le c
    obtain ⟨t₁, hexec, hev₁, hb₁⟩ := h.exec_step hb (hb.roomy (by omega)) c
    obtain ⟨t₂, hrun, hev₂, hb₂⟩ := ih (h.call c hexec) hb₁ (by omega)
    refine ⟨t₂, run_bind_iff.mpr ⟨_, t₁, hexec, run_bind_iff.mpr ⟨_, t₂, hrun, rfl⟩⟩, ?_, hb₂⟩
    rw [hev₂, hev₁, List.append_assoc, ← List.map_append]
    rfl

end Callback

/-- The handwritten matcher refines the abstract book: whenever calls of an engine with a callback
have reached a state with a row left in both pools, its heap holds a book in order, and every call
returns what `Book.step` returns on it, calls back for its trades, and leaves a heap that holds its
book. -/
theorem hand_refines_book {calloc : EngineDb.Calloc} {e₀ : Engine} {t : State}
    (h : Reach (Hand.init calloc (some e₀) true) t) (hroom : t.Roomy) (c : Call) :
    t.book.Inv ∧ ∃ t', c.exec t = some ((t.book.step c).1, t') ∧
      t'.events = t.events ++ (t.book.step c).2.2.map eventOf ∧ t'.book = (t.book.step c).2.1 := by
  obtain ⟨b, hb⟩ := h.standsFor
  obtain ⟨-, -, -, -, -, hinv⟩ := hb.snapshot
  obtain ⟨t', hrun, he, hb'⟩ := h.exec_step hb hroom c
  rw [hb.book_eq]
  exact ⟨hinv, t', hrun, he, hb'.book_eq⟩

/-! ## A session -/

/-- Calls that rest orders on both sides, take one out by self-trade prevention, trade twice with
another and so empty its level, decrement a third, and cancel one with its level. -/
def session : List Call :=
  [.process (some ⟨1, 7, 1, 0, 0, 101, 5⟩), .process (some ⟨2, 8, 1, 0, 0, 101, 5⟩),
    .process (some ⟨3, 9, 1, 0, 0, 102, 4⟩), .process (some ⟨4, 7, 1, 0, 0, 103, 6⟩),
    .process (some ⟨5, 6, 0, 0, 0, 99, 3⟩), .process (some ⟨6, 6, 0, 0, 0, 98, 2⟩),
    .process (some ⟨7, 7, 0, 0, 2, 101, 2⟩), .process (some ⟨8, 9, 0, 0, 4, 102, 5⟩), .cancel 5,
    .process (some ⟨10, 3, 1, 0, 0, 103, 2⟩)]

/-- The book that the session leaves: a bid, and two levels of asks, of which one is a queue of two.
-/
def sessionBook : Book where
  bids := [⟨98, [⟨6, 6, 0, 0, 98, 2, 2⟩]⟩]
  asks := [⟨102, [⟨3, 9, 1, 0, 102, 4, 2⟩]⟩,
    ⟨103, [⟨4, 7, 1, 0, 103, 6, 6⟩, ⟨10, 3, 1, 0, 103, 2, 2⟩]⟩]

/-- The state after the session. Four order rows and three level rows are live, and the row that the
second order had is the first one to be handed out again. -/
theorem session_run : ∃ t, Reach (Hand.init ⟨true, true⟩ (some ⟨0, 0, false⟩) true) t ∧
    Hand.run session (Hand.init ⟨true, true⟩ (some ⟨0, 0, false⟩) true) =
      some (List.replicate 10 true, t) ∧ t.book = sessionBook ∧
      t.events = [⟨7, 2, 101, 2⟩, ⟨8, 2, 101, 3⟩] ∧
    (t.db.order_pool_n, t.db.level_pool_n, t.db.order_pool_free) = (4, 3, some 4999998) ∧
    t.Roomy := by
  have hsteps : Book.empty.steps session =
      (List.replicate 10 true, sessionBook, [⟨2, 7, 101, 2⟩, ⟨2, 8, 101, 3⟩]) := by decide +kernel
  have hinit : Reach (Hand.init ⟨true, true⟩ (some ⟨0, 0, false⟩) true) _ := .init
  obtain ⟨t, hrun, hevents, hbook⟩ := hinit.run_steps .init session (by decide)
  rw [hsteps] at hrun hevents hbook
  -- The pools are read off the heap.
  have hpools : (Hand.run session (Hand.init ⟨true, true⟩ (some ⟨0, 0, false⟩) true)).map
      (fun r => ((r.2.db.order_pool_n, r.2.db.level_pool_n, r.2.db.order_pool_free),
        decide r.2.Roomy)) = some ((4, 3, some 4999998), true) := by
    change (Hand.run session ⟨EngineDb.init ⟨true, true⟩, some ⟨0, 0, true⟩, []⟩).map _ = _
    rw [EngineDb.init_fresh]
    decide +kernel
  rw [hrun] at hpools
  obtain ⟨hpools, hroomy⟩ := Prod.mk.inj (Option.some.inj hpools)
  exact ⟨t, hinit.run hrun, hrun, hbook.book_eq, hevents, hpools, of_decide_eq_true hroomy⟩

/-- A sale after the session that trades with the bid. -/
theorem hand_refines_book_session : ∃ t,
    Reach (Hand.init ⟨true, true⟩ (some ⟨0, 0, false⟩) true) t ∧ t.book = sessionBook ∧ t.book.Inv ∧
    ∃ t', (Call.process (some ⟨11, 8, 1, 0, 0, 98, 3⟩)).exec t = some (true, t') ∧
      t'.events = t.events ++ [⟨11, 6, 98, 2⟩] ∧
      t'.book = ⟨[], ⟨98, [⟨11, 8, 1, 0, 98, 3, 1⟩]⟩ :: sessionBook.asks⟩ := by
  obtain ⟨t, ht, -, hbook, -, -, hroomy⟩ := session_run
  obtain ⟨hinv, t', hexec, hevents, hbook'⟩ :=
    hand_refines_book ht hroomy (.process (some ⟨11, 8, 1, 0, 0, 98, 3⟩))
  rw [hbook] at hexec hevents hbook'
  exact ⟨t, ht, hbook, hinv, t', hexec, hevents, hbook'⟩

end Hand

end MatchingEngine
