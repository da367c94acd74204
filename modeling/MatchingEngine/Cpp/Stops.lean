import MatchingEngine.Cpp.Amends

/-!
# No stop is missed

A trade that is reported sets the last price and lets every stop fire that it triggers, unless the
cascade is as deep as `MAX_CASCADE` lets it be. The trades of a cascade set the last price again,
and so do those that are left of the match when it returns. Whatever the last price is in the end,
it was set by a report that left no stop asleep that it triggers, or by one at the depth limit.
-/

namespace MatchingEngine.Cpp

open Lib

namespace Flat

/-- No dormant stop fires at the last price, if there is one and it was not set at the depth limit.
-/
def Waits (f : Flat) : Prop :=
  f.tape.lastPx ≠ 0 → f.tape.lastDepth < maxCascade → ∀ o ∈ f.stops, fires f.tape.lastPx o = false

/-- What decides whether a stop is missed does not change, but that stops are taken out. -/
structure Steady (f f' : Flat) : Prop where
  stops : f'.stops ⊆ f.stops
  lastPx : f'.tape.lastPx = f.tape.lastPx
  lastDepth : f'.tape.lastDepth = f.tape.lastDepth

/-- A function that leaves no stop asleep that it found awake. -/
def Waits.Kept (g : Flat → Option Flat) : Prop := ∀ f f', Waits f → g f = some f' → Waits f'

section Stops

variable {S : StdSort} {f f' f'' : Flat} {o o' : Order} {X : Special → Prop}

/-- Nothing has changed. -/
theorem Steady.refl (f : Flat) : Steady f f := ⟨fun _ h => h, rfl, rfl⟩

/-- Two parts of a call that leave the last price leave it together. -/
theorem Steady.trans (h : Steady f f') (h' : Steady f' f'') : Steady f f'' :=
  ⟨fun _ hx => h.stops (h'.stops hx), h'.lastPx.trans h.lastPx, h'.lastDepth.trans h.lastDepth⟩

/-- A stop that is missed was missed before. -/
theorem Waits.steady (h : Waits f) (hs : Steady f f') : Waits f' := by
  intro hpx hdepth o ho
  rw [hs.lastPx] at hpx ⊢
  rw [hs.lastDepth] at hdepth
  exact h hpx hdepth o (hs.stops ho)

/-! ## Matching leaves the last price and the stops -/

/-- A tape with the same last price. -/
def SamePx (t t' : Tape) : Prop := t'.lastPx = t.lastPx ∧ t'.lastDepth = t.lastDepth

/-- Self-trade prevention reports nothing. -/
theorem samePx_handleStp (inc r : Order) (t : Tape) : SamePx t (handleStp inc r t).2.2 := by
  unfold handleStp
  cases inc.stpPolicy with
  | DECREMENT =>
    dsimp only [decrement, afterDecrement]
    split
    · exact ⟨rfl, rfl⟩
    · split <;> exact ⟨rfl, rfl⟩
  | _ => exact ⟨rfl, rfl⟩

/-- A fill is not yet a report. -/
theorem samePx_fill {contra : Levels} {inc r : Order} {t : Tape} {x : Order × Fate × Tape}
    (h : fill contra inc r t = some x) : SamePx t x.2.2 := by
  rw [(fill_eq h).2]
  dsimp only [afterFill]
  split
  · exact ⟨rfl, rfl⟩
  · split <;> exact ⟨rfl, rfl⟩

/-- What every turn of matching does to the tape, the loop over a queue does. -/
theorem matchQueue_rule {R : Tape → Tape → Prop} (hrefl : ∀ t, R t t)
    (htrans : ∀ t t' t'', R t t' → R t' t'' → R t t'')
    (hstp : ∀ inc r t, R t (handleStp inc r t).2.2)
    (hfill : ∀ c inc r t x, fill c inc r t = some x → R t x.2.2) {p : ℤ} {m : Levels} :
    ∀ n inc q t x, matchQueue p m n inc q t = some x → R t x.2.2.1 := by
  intro n
  induction n with
  | zero =>
    intro inc q t x h
    unfold matchQueue at h
    cases h
  | succ n ih =>
    intro inc q t x h
    unfold matchQueue at h
    split at h
    · cases q with
      | nil =>
        cases h
        exact hrefl t
      | cons r q =>
        dsimp only at h
        split at h
        · split at h
          · cases h
            -- A conflict after which the loop stops, or goes on.
            exact hstp inc r t
          · exact htrans _ _ _ (hstp inc r t) (ih _ _ _ _ h)
        · split at h
          · cases h
          · rename_i y hy
            -- A trade, and the rest of the queue.
            exact htrans _ _ _ (hfill _ _ _ _ _ hy) (ih _ _ _ _ h)
    · cases h
      exact hrefl t

/-- And so does the loop over the levels. -/
theorem matchLevels_rule {R : Tape → Tape → Prop} (hrefl : ∀ t, R t t)
    (htrans : ∀ t t' t'', R t t' → R t' t'' → R t t'')
    (hstp : ∀ inc r t, R t (handleStp inc r t).2.2)
    (hfill : ∀ c inc r t x, fill c inc r t = some x → R t x.2.2) :
    ∀ m inc t x, matchLevels m inc t = some x → R t x.2.2 := by
  intro m
  induction m with
  | nil =>
    intro inc t x h
    cases h
    exact hrefl t
  | cons l m ih =>
    intro inc t x h
    obtain ⟨p, q⟩ := l
    unfold matchLevels at h
    split at h
    · cases hq : matchQueue p m (inc.remainingQty.toNat + q.length + 1) inc q t with
      | none =>
        rw [hq] at h
        cases h
      | some y =>
        have hqueue := matchQueue_rule hrefl htrans hstp hfill _ _ _ _ _ hq
        obtain ⟨inc₁, q₁, t₁, ret⟩ := y
        rw [hq] at h
        cases q₁ with
        | nil =>
          dsimp only at h
          split at h
          · cases h
            exact hqueue
          -- The level is used up, and the next one follows.
          · exact htrans _ _ _ hqueue (ih _ _ _ h)
        | cons o q₁ =>
          cases h
          exact hqueue
    · cases h
      exact hrefl t

/-- The sides have no part in this. -/
theorem steady_setSide (b : Side) (m : Levels) (f : Flat) : Steady f (f.setSide b m) := by
  cases b <;> exact ⟨fun _ h => h, rfl, rfl⟩

/-- Neither has the tape, but for the last price. -/
theorem Steady.withTape (h : Steady f f') {t : Tape} (ht : SamePx f.tape t) :
    Steady f (f'.withTape t) :=
  ⟨h.stops, ht.1, ht.2⟩

/-- A match reports nothing, however many trades it makes. -/
theorem steady_matchOrd (h : matchOrd o f = some (o', f')) : Steady f f' := by
  unfold matchOrd at h
  obtain ⟨x, hx, he⟩ := Option.map_eq_some_iff.mp h
  cases he
  refine (steady_setSide _ _ f).withTape
    (matchLevels_rule (fun t => ⟨rfl, rfl⟩) ?_ samePx_handleStp ?_ _ _ _ _ hx)
  · exact fun t t' t'' h h' => ⟨h'.1.trans h.1, h'.2.trans h.2⟩
  · exact fun c inc r t x hfill => samePx_fill hfill

/-- An order comes to rest. -/
theorem steady_rest (o : Order) (st : OrderStatus) (f : Flat) : Steady f (rest o st f) :=
  (steady_setSide _ _ f).withTape ⟨rfl, rfl⟩

/-- An order is killed. -/
theorem steady_kill (o : Order) (reason : String) (f : Flat) : Steady f (kill o reason f) :=
  ⟨fun _ h => h, rfl, rfl⟩

/-- An order that is done with goes. -/
theorem steady_finish (d : Option Order) (f : Flat) : Steady f (finish d f) := by
  cases d with
  | none => exact .refl f
  | some o => exact ⟨fun _ h => h, rfl, rfl⟩

/-- What is left of an order after its match is settled. -/
theorem steady_settle {hasTr : Bool} {d : Option Order} (h : settle o hasTr f = some (d, f')) :
    Steady f f' := by
  have hcancel : ∀ reason, Steady f (cancelIn o reason f).2 := fun _ => ⟨fun _ h => h, rfl, rfl⟩
  -- The times in force that let an order rest.
  have hlast : (if o.orderType = .MARKET then
        some ((cancelIn o "MARKET_NO_FULL_FILL" f).map some id)
      else some (none, rest o (if hasTr then .PARTIALLY_FILLED else .NEW) f)) = some (d, f') →
      Steady f f' := by
    intro h
    split at h <;> cases h
    · exact hcancel _
    · exact steady_rest _ _ _
  unfold settle dispose at h
  split at h
  · split at h
    · cases h
      exact .refl f
    · cases ht : o.timeInForce with
      | IOC =>
        rw [ht] at h
        cases h
        exact hcancel _
      | FOK =>
        rw [ht] at h
        cases h
      | _ =>
        rw [ht] at h
        exact hlast h
  · cases h
    exact .refl f

/-! ## The cascade -/

/-- A function that leaves no stop asleep that fires at a price. -/
def Wakes (px : ℤ) (g : Flat → Option Flat) : Prop :=
  ∀ f f', f.tape.lastPx = px → g f = some f' → Waits f'

/-- After a report every stop that the trade triggers is awake, or the report is at the depth limit.
The reports that follow do the same for theirs. -/
theorem waits_emitLoop {eval : ℤ → ℕ → Flat → Option Flat} (he : ∀ px d, Wakes px (eval px d))
    (depth : ℕ) : ∀ n i, Waits.Kept (emitLoop eval depth n i) := by
  intro n
  induction n with
  | zero =>
    intro i f f' hw h
    cases h
    exact hw
  | succ n ih =>
    intro i f f' hw h
    unfold emitLoop at h
    cases ht : f.tape.trades[i]? with
    | none =>
      rw [ht] at h
      cases h
    | some t =>
      rw [ht] at h
      dsimp only at h
      split at h
      · cases h
      · rename_i f₁ h₁
        -- The evaluation wakes what the trade triggers, or the depth rules it out.
        refine ih (i + 1) f₁ f' ?_ h
        split at h₁
        · exact he t.price depth _ f₁ rfl h₁
        · rename_i hdeep
          cases h₁
          exact fun _ hdepth => absurd hdepth hdeep

/-- A function on an order that leaves no stop asleep that it found awake. -/
def Waits.KeptBy (g : Order → ℕ → Flat → Option Flat) : Prop := ∀ o d, Waits.Kept (g o d)

/-- Every triggered stop misses none, so their sequence misses none. -/
theorem waits_activate {active : Order → ℕ → Flat → Option Flat} (ha : Waits.KeptBy active)
    (d : ℕ) : ∀ os, Waits.Kept (activate active d os) := by
  intro os
  induction os with
  | nil =>
    intro f f' hw h
    cases h
    exact hw
  | cons o os ih =>
    intro f f' hw h
    unfold activate at h
    split at h
    · cases h
    · rename_i f₁ h₁
      refine ih f₁ f' (ha _ _ _ f₁ ?_ h₁) h
      exact hw.steady ⟨fun _ h => h, rfl, rfl⟩

/-- The stops that the price fires are taken out, and the turns of those miss none. -/
theorem wakes_evalStops {active : Order → ℕ → Flat → Option Flat} (ha : Waits.KeptBy active)
    (px : ℤ) (d : ℕ) : Wakes px (evalStops S active px d) := by
  intro f f' hpx h
  unfold evalStops at h
  split at h
  · cases h
  · rename_i r hr
    have htaken := taken_takeOut _ _ _ _ _ hr fun j hj => absurd hj (Nat.not_lt_zero j)
    refine waits_activate ha d _ _ f' ?_ h
    intro _ _ o ho
    rw [show ({ f with stops := r.2 } : Flat).tape.lastPx = px from hpx]
    exact htaken.left o ho

/-! ## The pipeline -/

/-- A post-only order makes no trade. -/
theorem waits_postOnlyPhase (o : Order) : Waits.Kept (postOnlyPhase o) := by
  intro f f' hw h
  unfold postOnlyPhase at h
  split at h
  · split at h
    · cases h
      exact hw.steady (steady_kill _ _ _)
    · obtain ⟨x, hx, rfl⟩ := Option.map_eq_some_iff.mp h
      have hreprice : Steady f x.2 := by
        unfold reprice at hx
        split at hx
        · cases hx
        · cases hx
          exact ⟨fun _ h => h, rfl, rfl⟩
      exact hw.steady (hreprice.trans (steady_rest _ _ _))
  · cases h
    exact hw.steady (steady_rest _ _ _)

/-- The match of an order that is not market-to-limit reports nothing yet. -/
theorem steady_matchPlain {ts : ℕ} {d : Option Order} (h : matchPlain ts o f = some (d, f')) :
    Steady f f' := by
  obtain ⟨x, hx, h⟩ := Option.bind_eq_some_iff.mp h
  exact (steady_matchOrd hx).trans (steady_settle h)

/-- The match of a market-to-limit order reports nothing yet. -/
theorem steady_toLimit {ts : ℕ} {d : Option Order} (h : toLimit ts o f = some (d, f')) :
    Steady f f' := by
  obtain ⟨t, -, h⟩ := Option.bind_eq_some_iff.mp h
  obtain ⟨x, hx, h⟩ := Option.bind_eq_some_iff.mp h
  refine Steady.trans ?_ (steady_settle h)
  dsimp only at hx
  by_cases hc : 0 < o.remainingQty ∧ o.status ≠ .CANCELLED
  · rw [if_pos hc] at hx
    exact steady_matchOrd hx
  · rw [if_neg hc] at hx
    cases hx
    exact .refl f

/-- The phase that matches misses no stop, once its reports miss none. -/
theorem waits_matchPhase {emit : ℕ → ℕ → Flat → Option Flat} (he : ∀ ts d, Waits.Kept (emit ts d)) :
    Waits.KeptBy (matchPhase emit) := by
  intro o depth f f' hw h
  unfold matchPhase at h
  dsimp only at h
  split at h
  · obtain ⟨x, hx, h⟩ := Option.bind_eq_some_iff.mp h
    have hmatch := steady_matchOrd hx
    split at h
    · obtain ⟨d, hd, h⟩ := Option.bind_eq_some_iff.mp h
      obtain ⟨f₁, h₁, h⟩ := Option.bind_eq_some_iff.mp h
      cases h
      exact (he _ _ _ _ (hw.steady (hmatch.trans (steady_toLimit hd))) h₁).steady (steady_finish _ _)
    · cases h
      exact hw.steady (hmatch.trans (steady_kill _ _ _))
  · obtain ⟨d, hd, h⟩ := Option.bind_eq_some_iff.mp h
    obtain ⟨f₁, h₁, h⟩ := Option.bind_eq_some_iff.mp h
    cases h
    exact (he _ _ _ _ (hw.steady (steady_matchPlain hd)) h₁).steady (steady_finish _ _)

/-- By induction on the depth that is left. -/
theorem waits_processActiveIn (S : StdSort) : ∀ n, Waits.KeptBy (processActiveIn S n) := by
  intro n
  induction n with
  | zero =>
    intro o d f f' _ h
    cases h
  | succ n ih =>
    intro o depth f f' hw h
    unfold processActiveIn processActiveWith at h
    split at h
    · exact waits_postOnlyPhase o f f' hw h
    · split at h
      · cases h
        exact hw.steady (steady_kill _ _ _)
      · split at h
        · cases h
          exact hw.steady (steady_kill _ _ _)
        · refine waits_matchPhase (fun ts d => ?_) o depth f f' hw h
          exact fun f₁ f₂ => waits_emitLoop (fun px d => wakes_evalStops ih px d) d _ ts f₁ f₂

/-- `processActive` misses no stop, at any depth. -/
theorem waits_processActive (S : StdSort) : Waits.KeptBy (processActive S) :=
  waits_processActiveIn S (maxCascade + 1)

/-! ## Calls -/

/-- A stop that fires at the last price is not put to sleep. -/
theorem waits_process (S : StdSort) (o : Order) : Waits.Kept (process S o) := by
  intro f f' hw h
  unfold process at h
  split at h
  · split at h
    · refine waits_processActive S _ _ _ _ ?_ h
      exact hw.steady ⟨fun _ h => h, rfl, rfl⟩
    · rename_i hsleep
      cases h
      intro hpx hdepth x hx
      rcases List.mem_append.mp hx with hx | hx
      · exact hw hpx hdepth x hx
      · obtain rfl := List.mem_singleton.mp hx
        exact Bool.eq_false_iff.mpr fun hfires => hsleep ⟨hpx, hfires⟩
  · exact waits_processActive S _ _ _ _ hw h

/-- `submitOrder` misses no stop. A stop that falls asleep is one that the last price does not fire.
-/
theorem waits_submitOrder {i : OrderInput} {r : Bool × Flat} (hw : Waits f)
    (h : submitOrder S i f = some r) : Waits r.2 := by
  unfold submitOrder at h
  split at h
  · cases h
    exact hw.steady ⟨fun _ h => h, rfl, rfl⟩
  · dsimp only at h
    split at h
    · cases h
      exact hw.steady ⟨fun _ h => h, rfl, rfl⟩
    · obtain ⟨f', hp, rfl⟩ := Option.map_eq_some_iff.mp h
      refine waits_process S _ _ _ ?_ hp
      exact hw.steady ⟨fun _ h => h, rfl, rfl⟩

/-- A stop is taken out. -/
theorem steady_rmStop (o : Order) (f : Flat) : Steady f (f.rmStop o) := by
  unfold rmStop
  split
  · exact .refl f
  · rename_i i hi
    obtain ⟨hlt, -⟩ := List.findIdx?_eq_some_iff_getElem.mp hi
    have hat := List.getElem?_eq_getElem hlt
    exact ⟨fun x hx => (perm_swapRemove hat).mem_iff.mpr (List.mem_cons_of_mem _ hx), rfl, rfl⟩

/-- `cancelOrder` reports nothing. -/
theorem steady_cancelOrder (id : UInt64) (f : Flat) : Steady f (cancelOrder id f).2 := by
  unfold cancelOrder
  split
  · exact .refl f
  · split
    · exact (steady_setSide _ _ _).trans (steady_kill _ _ _)
    · exact .refl f
  · split
    · exact (steady_rmStop _ _).trans (steady_kill _ _ _)
    · exact .refl f

/-- `amendOrder` misses no stop. -/
theorem waits_amendOrder (hi : Inv f []) {id : UInt64} {newPx newQty : ℤ} {r : Bool × Flat}
    (hw : Waits f) (h : amendOrder S id newPx newQty f = some r) : Waits r.2 := by
  cases amends hi h with
  | missing => exact hw
  | idle => exact hw
  | shrinks => exact hw.steady (steady_setSide _ _ f)
  | reenters _ _ _ hp =>
    refine waits_processActive S _ _ _ _ (hw.steady ?_) hp
    change Steady f ((f.setSide _ _).withTape { f.tape.tick with trades := [] })
    exact (steady_setSide _ _ f).withTape ⟨rfl, rfl⟩

/-- The expiry of resting orders reports nothing. -/
theorem steady_expireResting : ∀ os (f : Flat), Steady f (expireResting os f) := by
  intro os
  induction os with
  | nil => exact .refl
  | cons o os ih =>
    intro f
    have hone : Steady f (expireOne o (f.unlink o.side o)) :=
      (steady_setSide _ _ f).trans ⟨fun _ h => h, rfl, rfl⟩
    exact hone.trans (ih _)

/-- The expiry of stops reports nothing. -/
theorem steady_expireStops : ∀ os (f : Flat), Steady f (expireStops os f) := by
  intro os
  induction os with
  | nil => exact .refl
  | cons o os ih =>
    intro f
    have hone : Steady f (expireOne o f) := ⟨fun _ h => h, rfl, rfl⟩
    exact hone.trans (ih _)

/-- `expireOrders` reports nothing. -/
theorem steady_expireOrders {t : ℕ} (h : expireOrders t f = some f') : Steady f f' := by
  have hresting := steady_expireResting ((f.bids.orders ++ f.asks.orders).filter (shouldExpire t)) f
  unfold expireOrders at h
  revert hresting h
  generalize expireResting _ f = g
  intro h hresting
  obtain ⟨r, hr, rfl⟩ := Option.map_eq_some_iff.mp h
  have htaken := taken_takeOut _ _ _ _ _ hr fun j hj => absurd hj (Nat.not_lt_zero j)
  have hout : Steady g { g with stops := r.2 } :=
    ⟨fun x hx => htaken.perm.mem_iff.mpr (List.mem_append_right _ hx), rfl, rfl⟩
  exact (hresting.trans hout).trans (steady_expireStops r.1 _)

/-- A call leaves no stop asleep that fires at the last price. -/
theorem waits_run (hi : Inv f []) (c : Call) (hw : Waits f) (h : Flat.run S c f = some f') :
    Waits f' := by
  cases c with
  | submit i =>
    obtain ⟨r, hr, rfl⟩ := Option.map_eq_some_iff.mp h
    exact waits_submitOrder hw hr
  | cancel id =>
    cases h
    exact hw.steady (steady_cancelOrder id f)
  | amend id newPx newQty =>
    obtain ⟨r, hr, rfl⟩ := Option.map_eq_some_iff.mp h
    exact waits_amendOrder hi hw hr
  | expire t => exact hw.steady (steady_expireOrders h)
  | setTime t =>
    cases h
    exact hw.steady ⟨fun _ h => h, rfl, rfl⟩
  | assignId =>
    cases h
    exact hw

end Stops

end Flat

variable {S : StdSort} {pop : PostOnlyPolicy} {tickSz : ℤ} {s : Engine}

/-- No reachable state has a stop that was missed. -/
theorem Reach.waits (hs : Reach S pop tickSz s) : s.flat.Waits := by
  induction hs with
  | init => exact fun hpx => absurd rfl hpx
  | call c hs he ih => exact Flat.waits_run hs.inv c ih (hs.run he)

/-- No dormant stop is past its trigger: where the last price is set, and was not set by a trade of
a cascade at the depth limit, every stop to buy is above it and every stop to sell is below it. -/
theorem no_missed_stop (hs : Reach S pop tickSz s) (hpx : s.lastTradePrice ≠ 0)
    (hdepth : s.lastDepth < maxCascade) : ∀ o ∈ s.values s.stops_,
      (o.side = .BUY → s.lastTradePrice < o.stopPrice) ∧
        (o.side = .SELL → o.stopPrice < s.lastTradePrice) := by
  intro o ho
  have hsleeps : fires s.lastTradePrice o = false := hs.waits hpx hdepth o ho
  unfold fires at hsleeps
  constructor
  · intro hside
    rw [hside] at hsleeps
    exact Int.not_le.mp (of_decide_eq_false hsleeps)
  · intro hside
    rw [hside] at hsleeps
    exact Int.not_le.mp (of_decide_eq_false hsleeps)

/-- A sale, and three stops: the trade at 100 wakes the first, whose trade at 105 wakes the second
and not the third. -/
def chainOfStops : List Call :=
  let stop (id : UInt64) (stopPrice quantity : ℤ) : Call := .submit
    { id, orderType := .STOP_MARKET, timeInForce := .IOC, stopPrice, quantity }
  [.submit { id := 1, side := .SELL, price := 100, quantity := 5 },
    .submit { id := 2, side := .SELL, price := 105, quantity := 5 },
    stop 3 100 2, stop 4 105 3, stop 5 110 1, .submit { id := 6, price := 100, quantity := 5 }]

/-- The state after the chain, where the third stop is still dormant. -/
theorem no_missed_stop_chain : ∃ s, Reach .insertion .REJECT 1 s ∧
    (s.stopCount = 1 ∧ s.lastTradePrice = 105 ∧ s.lastDepth = 2) ∧ ∀ o ∈ s.values s.stops_,
      (o.side = .BUY → s.lastTradePrice < o.stopPrice) ∧
        (o.side = .SELL → o.stopPrice < s.lastTradePrice) := by
  have hsome : (runAll .insertion chainOfStops (.init .REJECT 1)).map
      (fun r => (r.2.stopCount, r.2.lastTradePrice, r.2.lastDepth)) = some (1, 105, 2) := by
    decide +kernel
  obtain ⟨⟨_, s⟩, hrun, hval⟩ := Option.map_eq_some_iff.mp hsome
  simp only [Prod.mk.injEq] at hval
  refine ⟨s, Reach.init.runAll hrun, hval, no_missed_stop (Reach.init.runAll hrun) ?_ ?_⟩
  · rw [hval.2.1]
    decide
  · rw [hval.2.2]
    decide

end MatchingEngine.Cpp
