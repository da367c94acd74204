import MatchingEngine.Cpp.Totality

/-!
# Refused calls leave the C++ engine as it was

A submitted order can be refused in two ways: it is rejected, or it is accepted and `processActive`
cancels it before it looks for a match. Either way the books, the dormant stops, the indexed ids,
and the last trade stay as they were. A cancel or an amend that returns false writes nothing.
-/

namespace MatchingEngine.Cpp

open Lib

namespace Flat

variable {S : StdSort} {f f' : Flat} {o a : Order} {reason : String}

/-- What `processActive` cancels an order for before it looks for a match. -/
inductive Refused (o : Order) (f : Flat) : String → Prop
  | postOnly (hpo : o.postOnly = true) (hx : wouldCross o f = true) (hpol : f.tape.poPol = .REJECT) :
      Refused o f "POST_ONLY_WOULD_CROSS"
  | fok (hpo : o.postOnly = false) (htif : o.timeInForce = .FOK) (hc : fokCheck o f = false) :
      Refused o f "FOK_NOT_SATISFIABLE"
  | minQty (hpo : o.postOnly = false) (hfok : o.timeInForce = .FOK → fokCheck o f = true)
      (hm : 0 < o.minQty) (hc : minQtyCheck o f = false) : Refused o f "MIN_QTY_NOT_SATISFIABLE"

/-- The order that `process` passes on to `processActive`: the submitted one, or a stop that fires
at once as the order it becomes. -/
def passed (o : Order) (f : Flat) : Option Order :=
  if o.orderType = .STOP_LIMIT ∨ o.orderType = .STOP_MARKET then
    if f.tape.lastPx ≠ 0 ∧ fires f.tape.lastPx o then some (trigger o f.tape).1 else none
  else some o

/-- The checks read the books and the policy. -/
theorem Refused.congr (h : Refused a f reason) (hs : ∀ b, f'.side b = f.side b)
    (hp : f'.tape.poPol = f.tape.poPol) : Refused a f' reason := by
  have hb : f'.bids = f.bids := hs .BUY
  have ha : f'.asks = f.asks := hs .SELL
  have hx : wouldCross a f' = wouldCross a f := by
    unfold wouldCross
    rw [hb, ha]
  have hfok : fokCheck a f' = fokCheck a f := by
    unfold fokCheck
    rw [hs]
  have hmin : minQtyCheck a f' = minQtyCheck a f := by
    unfold minQtyCheck
    rw [hs]
  cases h with
  | postOnly hpo hc hpol => exact .postOnly hpo (hx.trans hc) (hp.trans hpol)
  | fok hpo htif hc => exact .fok hpo htif (hfok.trans hc)
  | minQty hpo hok hm hc => exact .minQty hpo (fun ht => hfok.trans (hok ht)) hm (hmin.trans hc)

/-- An order that a check refuses is killed before it is matched. -/
theorem Refused.processActiveWith (h : Refused a f reason) (emit : ℕ → ℕ → Flat → Option Flat)
    (depth : ℕ) : processActiveWith emit a depth f = some (kill a reason f) := by
  unfold Flat.processActiveWith
  cases h with
  | postOnly hpo hx hpol =>
    unfold postOnlyPhase
    rw [if_pos hpo, if_pos hx, if_pos hpol]
  | fok hpo htif hc => rw [if_neg (by rw [hpo]; nofun), if_pos ⟨htif, by rw [hc]; nofun⟩]
  | minQty hpo hfok hm hc =>
    rw [if_neg (by rw [hpo]; nofun), if_neg fun hx => hx.2 (hfok hx.1),
      if_pos ⟨hm, by rw [hc]; nofun⟩]

/-- An order that is refused on its way in is reported and gone. -/
theorem Refused.process (hp : passed o f = some a) (h : Refused a f reason) :
    ∃ t, Flat.process S o f = some (f.withTape t) ∧ t.lastPx = f.tape.lastPx ∧ t.tid = f.tape.tid ∧
      ∃ new, t.log = f.tape.log ++ new ∧ Plain new ∧
        .event (.onOrderCancelled { a with status := .CANCELLED } reason) ∈ new := by
  unfold passed at hp
  unfold Flat.process
  split at hp
  · rename_i hstop
    split at hp
    · rename_i hfire
      cases hp
      rw [if_pos hstop, if_pos hfire]
      -- A stop that fires at once is refused as the order it turns into.
      have ha : Refused (trigger o f.tape).1 (f.withTape (trigger o f.tape).2) reason :=
        h.congr (side_withTape _ _) rfl
      have hk :=
        ha.processActiveWith (emitAndTrigger (Flat.evalStops S (processActiveIn S maxCascade))) 0
      refine ⟨_, hk, rfl, rfl, _, (List.append_assoc _ _ _).trans (List.append_assoc _ _ _), ?_, ?_⟩
      · exact List.forall_mem_cons.mpr ⟨rfl, List.forall_mem_cons.mpr
          ⟨rfl, List.forall_mem_singleton.mpr rfl⟩⟩
      · exact List.mem_cons_of_mem _ List.mem_cons_self
    · cases hp
  · rename_i hstop
    cases hp
    -- No stop.
    rw [if_neg hstop]
    have hk := h.processActiveWith (emitAndTrigger (Flat.evalStops S (processActiveIn S maxCascade))) 0
    refine ⟨_, hk, rfl, rfl, _, List.append_assoc _ _ _, ?_, List.mem_cons_self⟩
    exact List.forall_mem_cons.mpr ⟨rfl, List.forall_mem_singleton.mpr rfl⟩

/-- A call that is refused changes neither the books nor the stops nor the last trade, and it adds
entries without trades to the history. -/
structure Kept (f f' : Flat) (new : List Mark) : Prop where
  eq : ∃ t, f' = f.withTape t
  lastPx : f'.tape.lastPx = f.tape.lastPx
  tid : f'.tape.tid = f.tape.tid
  log : f'.tape.log = f.tape.log ++ new
  plain : Plain new

/-- A rejection: the id is a duplicate, or `validate` says no, and nothing but the history and the
clock is written. -/
theorem submitOrder_eq_false {i : OrderInput} (h : submitOrder S i f = some (false, f')) :
    ((∃ o ∈ f.orders, o.id = i.id) ∨ validate (f.tape.now + 1) (i.order (f.tape.now + 1)) ≠ none) ∧
      ∃ new, Kept f f' new := by
  unfold submitOrder at h
  split at h
  · rename_i hdup
    obtain ⟨o, ho, hid⟩ := List.any_eq_true.mp hdup
    cases h
    exact ⟨.inl ⟨o, ho, of_decide_eq_true hid⟩, _, ⟨_, rfl⟩, rfl, rfl, rfl,
      List.forall_mem_singleton.mpr rfl⟩
  · dsimp only at h
    cases hv : validate (f.tape.now + 1) (i.order (f.tape.now + 1)) with
    | some err =>
      rw [hv] at h
      cases h
      exact ⟨.inr nofun, _, ⟨_, rfl⟩, rfl, rfl, rfl, List.forall_mem_singleton.mpr rfl⟩
    | none =>
      rw [hv] at h
      obtain ⟨f₁, -, he⟩ := Option.map_eq_some_iff.mp h
      cases he

/-- An acceptance: the id is new, `validate` says yes, and the order goes to `process`. -/
theorem submitOrder_eq_true {i : OrderInput} (h : submitOrder S i f = some (true, f')) :
    (∀ o ∈ f.orders, o.id ≠ i.id) ∧ validate (f.tape.now + 1) (i.order (f.tape.now + 1)) = none ∧
      process S (i.order (f.tape.now + 1))
        (f.withTape (f.tape.tick.event (.onOrderAccepted (i.order (f.tape.now + 1))))).clear =
          some f' := by
  unfold submitOrder at h
  split at h
  · cases h
  · rename_i hdup
    dsimp only at h
    cases hv : validate (f.tape.now + 1) (i.order (f.tape.now + 1)) with
    | some err =>
      rw [hv] at h
      cases h
    | none =>
      rw [hv] at h
      obtain ⟨f₁, hp, he⟩ := Option.map_eq_some_iff.mp h
      cases he
      exact ⟨fun o ho hid => hdup (List.any_eq_true.mpr ⟨o, ho, decide_eq_true hid⟩), rfl, hp⟩

/-- An order that is accepted and refused. -/
theorem Refused.submitOrder {i : OrderInput} (h : Refused a f reason)
    (hp : passed (i.order (f.tape.now + 1)) f = some a)
    (hs : Flat.submitOrder S i f = some (true, f')) :
    ∃ new, Kept f f' new ∧ .event (.onOrderCancelled { a with status := .CANCELLED } reason) ∈ new := by
  obtain ⟨-, -, hs⟩ := submitOrder_eq_true hs
  -- The checks do not see that the order is announced and the trade buffer cleared.
  have ha : Refused a (f.withTape (f.tape.tick.event
      (.onOrderAccepted (i.order (f.tape.now + 1))))).clear reason :=
    h.congr (fun b => by cases b <;> rfl) rfl
  have hp : passed (i.order (f.tape.now + 1)) (f.withTape (f.tape.tick.event
      (.onOrderAccepted (i.order (f.tape.now + 1))))).clear = some a := hp
  obtain ⟨t, he, hpx, htid, new, hlog, hplain, hmem⟩ := ha.process (S := S) hp
  rw [hs] at he
  cases he
  refine ⟨_ :: new, ⟨⟨_, rfl⟩, hpx, htid, hlog.trans (List.append_assoc _ [_] new), ?_⟩,
    List.mem_cons_of_mem _ hmem⟩
  exact List.forall_mem_cons.mpr ⟨rfl, hplain⟩

end Flat

section Refusals

variable {S : StdSort} {pop : PostOnlyPolicy} {tickSz : ℤ} {s s' : Engine} {f : Flat} {i : OrderInput}
  {id : UInt64} {newPx newQty : ℤ} {r : Bool}

/-! ## Counters -/

/-- `activeOrders` counts the orders. -/
theorem Shown.activeOrders (h : Shown s f) : s.activeOrders = f.orders.length := by
  obtain ⟨G, hG, rfl, hfl⟩ := h
  have hcount := hG.standing.stored.count
  have hnil : G.flight = [] := List.map_eq_nil_iff.mp hfl
  have hlen : G.cells.length = (G.flat s.tape).orders.length := by
    unfold Layout.cells Flat.orders
    rw [hnil, List.append_nil, Layout.side_flat, Layout.side_flat, orders_levelsOf, orders_levelsOf]
    simp [spread, Layout.flat, Layout.side]
  rw [← hlen]
  unfold Engine.activeOrders
  change s.oA_ = s.oF_ + G.cells.length at hcount
  omega

/-- `activeLevels` counts the levels. -/
theorem Shown.activeLevels (h : Shown s f) : s.activeLevels = f.bids.length + f.asks.length := by
  obtain ⟨G, hG, rfl, -⟩ := h
  have hcount := hG.standing.count
  have hb : (G.flat s.tape).bids.length = G.bids.length := List.length_map _
  have ha : (G.flat s.tape).asks.length = G.asks.length := List.length_map _
  rw [List.length_append] at hcount
  unfold Engine.activeLevels
  omega

/-! ## Refused calls -/

/-- Nothing that can be seen of the engine has changed, and no trade has been executed. -/
structure Untouched (s s' : Engine) : Prop where
  view : ∀ b, s'.view b = s.view b
  stops : s'.values s'.stops_ = s.values s.stops_
  hasOrder : ∀ id, s'.hasOrder id = s.hasOrder id
  lastTradePrice : s'.lastTradePrice = s.lastTradePrice
  tradeCount : s'.tradeCount = s.tradeCount
  activeOrders : s'.activeOrders = s.activeOrders
  activeLevels : s'.activeLevels = s.activeLevels
  log : ∃ new, s'.log = s.log ++ new ∧ ∀ m ∈ new, m.isExecuted = false

/-- What is kept of the values is kept of the engine. -/
theorem Reach.untouched {new : List Mark} (hs : Reach S pop tickSz s) (hs' : Reach S pop tickSz s')
    (h : Flat.Kept s.flat s'.flat new) : Untouched s s' := by
  obtain ⟨⟨t, he⟩, hpx, htid, hlog, hplain⟩ := h
  have hside : ∀ b, s'.flat.side b = s.flat.side b := fun b => by rw [he, Flat.side_withTape]
  have horders : s'.flat.orders = s.flat.orders := by
    unfold Flat.orders
    rw [hside, hside, he, Flat.stops_withTape]
  refine ⟨fun b => ?_, congrArg Flat.stops he, fun id => ?_, hpx, congrArg (· - 1) htid, ?_,
    ?_, new, hlog,
    hplain⟩
  · have hb := hside b
    rwa [Engine.side_flat, Engine.side_flat] at hb
  · rw [Bool.eq_iff_iff, hs'.hasOrder, hs.hasOrder, horders]
  · rw [hs'.shown.1.activeOrders, hs.shown.1.activeOrders, horders]
  · rw [hs'.shown.1.activeLevels, hs.shown.1.activeLevels]
    exact congrArg₂ (fun b a : Levels => b.length + a.length) (hside .BUY) (hside .SELL)

/-- A cancel that is refused writes nothing. -/
theorem cancelOrder_eq_false (h : cancelOrder id s = some (false, s')) : s' = s := by
  obtain ⟨p, s₁, hp, h⟩ := run_bind_iff.mp h
  cases hp
  dsimp only at h
  cases hget : s.idx_.get id with
  | none =>
    rw [hget] at h
    cases h
    rfl
  | some o =>
    rw [hget] at h
    obtain ⟨c, s₁, hc, h⟩ := run_bind_iff.mp h
    obtain ⟨c', hc', he⟩ := Option.map_eq_some_iff.mp hc
    cases he
    split at h
    · -- Where the order is open the result is true.
      obtain ⟨_, s₂, -, h⟩ := run_bind_iff.mp h
      obtain ⟨_, s₃, -, h⟩ := run_bind_iff.mp h
      obtain ⟨_, s₄, -, h⟩ := run_bind_iff.mp h
      obtain ⟨_, s₅, -, h⟩ := run_bind_iff.mp h
      cases h
    · cases h
      rfl

/-- An amend that is refused writes nothing. -/
theorem amendOrder_eq_false (h : amendOrder S id newPx newQty s = some (false, s')) : s' = s := by
  obtain ⟨p, s₁, hp, h⟩ := run_bind_iff.mp h
  cases hp
  dsimp only at h
  cases hget : s.idx_.get id with
  | none =>
    rw [hget] at h
    cases h
    rfl
  | some o =>
    rw [hget] at h
    obtain ⟨c, s₁, hc, h⟩ := run_bind_iff.mp h
    obtain ⟨c', hc', he⟩ := Option.map_eq_some_iff.mp hc
    cases he
    split at h
    · cases hl : c.level with
      | none =>
        rw [hl] at h
        cases h
        rfl
      | some lv =>
        -- Where the order rests the result is true.
        rw [hl] at h
        dsimp only at h
        split at h
        · obtain ⟨_, s₂, -, h⟩ := run_bind_iff.mp h
          cases h
        · split at h
          · obtain ⟨_, s₂, -, h⟩ := run_bind_iff.mp h
            obtain ⟨_, s₃, -, h⟩ := run_bind_iff.mp h
            obtain ⟨_, s₄, -, h⟩ := run_bind_iff.mp h
            obtain ⟨_, s₅, -, h⟩ := run_bind_iff.mp h
            obtain ⟨_, s₆, -, h⟩ := run_bind_iff.mp h
            obtain ⟨_, s₇, -, h⟩ := run_bind_iff.mp h
            cases h
          · cases h
    · cases h
      rfl

/-- A submitted order that is rejected or refused leaves the engine untouched, and a cancel or an
amend that is refused leaves the very same state. `submitOrder` rejects an order just when the
engine has its id or it is not valid. -/
theorem refused_calls_untouched (hs : Reach S pop tickSz s) :
    (∀ i r s', submitOrder S i s = some (r, s') →
      (r = false ↔ s.hasOrder i.id = true ∨ validate (s.now_ + 1) (i.order (s.now_ + 1)) ≠ none) ∧
      (r = false → Untouched s s') ∧
      ∀ a reason, Flat.passed (i.order (s.now_ + 1)) s.flat = some a → Flat.Refused a s.flat reason →
        r = true → Untouched s s' ∧ ∃ new, s'.log = s.log ++ new ∧
          .event (.onOrderCancelled { a with status := .CANCELLED } reason) ∈ new) ∧
    (∀ id s', cancelOrder id s = some (false, s') → s' = s) ∧
    ∀ id newPx newQty s', amendOrder S id newPx newQty s = some (false, s') → s' = s := by
  refine ⟨fun i r s' he => ?_, fun _ _ => cancelOrder_eq_false, fun _ _ _ _ => amendOrder_eq_false⟩
  have hflat := hs.submitOrder he
  have hs' : Reach S pop tickSz s' := hs.call (.submit i) (run_bind_iff.mpr ⟨r, s', he, rfl⟩)
  refine ⟨?_, ?_, ?_⟩
  · rw [hs.hasOrder]
    cases r with
    | false => exact ⟨fun _ => (Flat.submitOrder_eq_false hflat).1, fun _ => rfl⟩
    | true =>
      obtain ⟨hnew, hv, -⟩ := Flat.submitOrder_eq_true hflat
      refine ⟨nofun, ?_⟩
      rintro (⟨o, ho, hid⟩ | hinv)
      · exact absurd hid (hnew o ho)
      · exact absurd hv hinv
  · rintro rfl
    obtain ⟨-, new, hk⟩ := Flat.submitOrder_eq_false hflat
    exact hs.untouched hs' hk
  · rintro a reason hp hr rfl
    obtain ⟨new, hk, hmem⟩ := hr.submitOrder hp hflat
    exact ⟨hs.untouched hs' hk, new, hk.log, hmem⟩

/-- An ask that is traded with in part, an iceberg behind it, and a dormant stop. -/
def oneTrade : List Call :=
  [.submit { id := 1, side := .SELL, price := 100, quantity := 5 },
    .submit { id := 2, side := .SELL, price := 101, quantity := 4, displayQty := 2 },
    .submit { id := 3, orderType := .STOP_MARKET, stopPrice := 105, quantity := 4 },
    .submit { id := 4, price := 100, quantity := 2 }]

/-- An order that must be filled at once and asks for more than there is to be seen. -/
def askTooMuch : OrderInput := { id := 9, timeInForce := .FOK, price := 101, quantity := 6 }

/-- After a trade, the order is accepted and cancelled, and nothing else happens. -/
theorem refused_calls_untouched_oneTrade : ∃ s s', Reach .insertion .REJECT 1 s ∧
    (s.tid_, s.stops_.length) = (2, 1) ∧
    submitOrder .insertion askTooMuch s = some (true, s') ∧ Untouched s s' ∧
    (∃ new, s'.log = s.log ++ new ∧ .event (.onOrderCancelled
      { askTooMuch.order 5 with status := .CANCELLED } "FOK_NOT_SATISFIABLE") ∈ new) ∧
    (∀ id s', cancelOrder id s = some (false, s') → s' = s) ∧
    ∀ id newPx newQty s', amendOrder .insertion id newPx newQty s = some (false, s') → s' = s := by
  have hsome : (runAll .insertion oneTrade (.init .REJECT 1)).map (fun r =>
      ((r.2.tid_, r.2.stops_.length), r.2.now_,
        (submitOrder .insertion askTooMuch r.2).map (·.1),
        decide ((askTooMuch.order 5).quantity ≤
          Flat.availLevels (askTooMuch.order 5) (askTooMuch.order 5).quantity (r.2.view .SELL) 0))) =
      some ((2, 1), 4, some true, false) := by decide +kernel
  obtain ⟨⟨_, s⟩, hrun, hval⟩ := Option.map_eq_some_iff.mp hsome
  obtain ⟨hcounts, hval⟩ := Prod.mk.inj hval
  obtain ⟨hnow, hval⟩ := Prod.mk.inj hval
  obtain ⟨hsubmit, havail⟩ := Prod.mk.inj hval
  obtain ⟨⟨_, s'⟩, hsubmit, rfl⟩ := Option.map_eq_some_iff.mp hsubmit
  have hs := Reach.init.runAll hrun
  have hcheck : Flat.fokCheck (askTooMuch.order 5) s.flat = false := by
    unfold Flat.fokCheck
    rw [Engine.side_flat]
    exact havail
  obtain ⟨hrequest, hcancel, hamend⟩ := refused_calls_untouched hs
  obtain ⟨-, -, hrefused⟩ := hrequest askTooMuch true s' hsubmit
  dsimp only at hnow
  rw [hnow] at hrefused
  obtain ⟨huntouched, hnew⟩ := hrefused _ _ rfl (.fok rfl rfl hcheck) rfl
  exact ⟨s, s', hs, hcounts, hsubmit, huntouched, hnew, hcancel, hamend⟩

end Refusals

end MatchingEngine.Cpp
