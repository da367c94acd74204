import MatchingEngine.Cpp.History

/-!
# The calls of the C++ engine return

Every call returns but one: `submitOrder` of a valid new order whose id the index cannot make room
for. So no `assert` fails, no null or freed pointer is read, and the loops and the recursion end.

The values of the engine return by `Cpp/Termination.lean`, and the heap follows them by
`Cpp/Calls.lean`. What is left is the index: `submitOrder` of a valid new order returns just when
the index takes its id (`Reach.submitOrder_returns`), and no other call inserts one.
`assertions_hold` says what the asserts of the matching loops test, of every order that rests and of
every fill.
-/

namespace MatchingEngine.Cpp

open Lib

section Totality

variable {S : StdSort} {pop : PostOnlyPolicy} {tickSz : ℤ} {s s' : Engine} {f f' : Flat}

/-- The order that `submitOrder` makes of an input is admitted when the index does not know its id
and it is valid. -/
theorem Reach.admitted (hs : Reach S pop tickSz s) (i : OrderInput) : Flat.Admitted i s.flat ↔
    s.hasOrder i.id = false ∧ validate (s.now_ + 1) (i.order (s.now_ + 1)) = none := by
  unfold Flat.Admitted
  refine and_congr ?_ Iff.rfl
  rw [← Bool.not_eq_true, hs.hasOrder]
  constructor
  · rintro h ⟨o, ho, hid⟩
    exact h o ho hid
  · intro h o ho hid
    exact h ⟨o, ho, hid⟩

/-- `submitOrder` returns, if the index has room for an id that is accepted. -/
theorem Reach.submitOrder_returns (hs : Reach S pop tickSz s) {i : OrderInput}
    (hid : Flat.Admitted i s.flat → i.id.toNat < 2 ^ 31) :
    ∃ r s', Cpp.submitOrder S i s = some (r, s') := by
  obtain ⟨r, hg⟩ := submitOrder_ends S hs.inv i
  obtain ⟨a, t, ha, -⟩ := hs.shown.1.shows.submitOrder S hs.inv hg hid
  exact ⟨a, t, ha⟩

/-- `amendOrder` returns. -/
theorem Reach.amendOrder_returns (hs : Reach S pop tickSz s) (id : UInt64) (newPx newQty : ℤ) :
    ∃ r s', Cpp.amendOrder S id newPx newQty s = some (r, s') := by
  obtain ⟨r, hg⟩ := amendOrder_ends S hs.inv id newPx newQty
  obtain ⟨a, t, ha, -⟩ := hs.shown.1.shows.amendOrder S hs.inv hg
  exact ⟨a, t, ha⟩

/-- `submitOrder` ends just when it rejects the order or the id is below `2^31`, and `amendOrder`
ends. -/
theorem calls_end (hs : Reach S pop tickSz s) :
    (∀ i : OrderInput, (∃ r s', submitOrder S i s = some (r, s')) ↔
      s.hasOrder i.id = true ∨ validate (s.now_ + 1) (i.order (s.now_ + 1)) ≠ none ∨
        i.id.toNat < 2 ^ 31) ∧
    ∀ (id : UInt64) (newPx newQty : ℤ), ∃ r s', amendOrder S id newPx newQty s = some (r, s') := by
  refine ⟨fun i => ⟨?_, fun h => hs.submitOrder_returns fun hadm => ?_⟩, hs.amendOrder_returns⟩
  · rintro ⟨r, s', he⟩
    by_contra hn
    have hadm : Flat.Admitted i s.flat := by
      rw [hs.admitted]
      refine ⟨Bool.eq_false_iff.mpr fun hx => hn (.inl hx), ?_⟩
      by_contra hx
      exact hn (.inr (.inl hx))
    rw [hs.shown.1.submitOrder_stuck hadm (by_contra fun hlt => hn (.inr (.inr (by omega))))] at he
    cases he
  · obtain ⟨hnew, hv⟩ := (hs.admitted i).mp hadm
    rcases h with h | h | h
    · exact absurd (h.symm.trans hnew) nofun
    · exact absurd hv h
    · exact h

/-- Two asks that show a slice, and two stops that fire at their prices. -/
def icebergsAndStops : List Call :=
  [.submit { id := 1, side := .SELL, price := 100, quantity := 10, displayQty := 3 },
    .submit { id := 2, side := .SELL, price := 101, quantity := 8, displayQty := 2 },
    .submit { id := 3, orderType := .STOP_MARKET, stopPrice := 100, quantity := 4 },
    .submit { id := 4, orderType := .STOP_LIMIT, price := 101, stopPrice := 101, quantity := 6 }]

/-- The calls end where a purchase reloads the icebergs and starts a cascade. -/
theorem calls_end_icebergsAndStops : ∃ s, Reach .insertion .REJECT 1 s ∧
    (s.stops_.length, s.bestAsk) = (2, 100) ∧
    (∀ i : OrderInput, (∃ r s', submitOrder .insertion i s = some (r, s')) ↔
      s.hasOrder i.id = true ∨ validate (s.now_ + 1) (i.order (s.now_ + 1)) ≠ none ∨
        i.id.toNat < 2 ^ 31) ∧
    (∀ (id : UInt64) (newPx newQty : ℤ), ∃ r s', amendOrder .insertion id newPx newQty s =
      some (r, s')) := by
  have hsome : (runAll .insertion icebergsAndStops (.init .REJECT 1)).map (fun r =>
      (r.2.stops_.length, r.2.bestAsk)) = some (2, 100) := by decide +kernel
  obtain ⟨⟨_, s⟩, hrun, hval⟩ := Option.map_eq_some_iff.mp hsome
  have hs := Reach.init.runAll hrun
  exact ⟨s, hs, hval, calls_end hs⟩

/-- The first id that the index has no room for. -/
def farOrder : OrderInput := { id := 2147483648, price := 100, quantity := 1 }

/-- A valid order with that id does not return. -/
theorem submitOrder_far_id : ¬ ∀ (s : Engine), Reach .insertion .REJECT 1 s → ∀ i : OrderInput,
    validate (s.now_ + 1) (i.order (s.now_ + 1)) = none →
      ∃ r s', submitOrder .insertion i s = some (r, s') := by
  intro h
  have hinit : Reach .insertion .REJECT 1 (.init .REJECT 1) := .init
  obtain ⟨r, s', he⟩ := h _ hinit farOrder (by decide)
  have hadm : Flat.Admitted farOrder (Engine.init .REJECT 1).flat :=
    (hinit.admitted farOrder).mpr ⟨by decide, by decide⟩
  rw [hinit.shown.1.submitOrder_stuck hadm (by decide)] at he
  cases he

/-! ## Assertions -/

/-- What a resting order shows: a slice that is there and is no more than what remains of it. -/
structure Displays (o : Order) : Prop where
  positive : 0 < o.visibleQty
  within : o.visibleQty ≤ o.remainingQty
  plain : o.displayQty = 0 → o.visibleQty = o.remainingQty
  iceberg : o.displayQty ≠ 0 → o.visibleQty ≤ o.displayQty

/-- A resting order displays a slice within its bounds. -/
theorem Resting.displays {b : Side} {p : ℤ} {o : Order} (h : Resting b p o) : Displays o :=
  ⟨h.visible, h.visible_le, h.plain, fun hd => (h.iceberg hd).2⟩

/-- A call from a state that a run reaches returns, unless the index stops it. -/
theorem Reach.returns (hs : Reach S pop tickSz s) {c : Call} (hc : c ≠ .assignId) :
    (∃ s', c.run S s = some ((), s')) ∨ ∃ i, c = .submit i ∧ s.idx_.insert i.id s.oA_ = none := by
  have hsh := hs.shown.1.shows
  cases c with
  | submit i =>
    by_cases hid : i.id.toNat < 2 ^ 31
    · obtain ⟨r, s', he⟩ := hs.submitOrder_returns (S := S) fun _ => hid
      exact .inl ⟨s', run_bind_iff.mpr ⟨r, s', he, rfl⟩⟩
    · have hsized : s.idx_.Sized := by
        obtain ⟨G, hG, -⟩ := hs.shown.1
        exact hG.standing.stored.sized
      exact .inr ⟨i, rfl, OrderIndex.insert_eq_none hsized (by omega) _⟩
  | cancel id =>
    obtain ⟨r, s', he, -⟩ := hsh.cancelOrder hs.inv id
    exact .inl ⟨s', run_bind_iff.mpr ⟨r, s', he, rfl⟩⟩
  | amend id newPx newQty =>
    obtain ⟨r, s', he⟩ := hs.amendOrder_returns id newPx newQty
    exact .inl ⟨s', run_bind_iff.mpr ⟨r, s', he, rfl⟩⟩
  | expire t =>
    obtain ⟨f', hg⟩ := run_ends S hs.inv (.expire t)
    obtain ⟨a, s', he, -⟩ := hsh.expireOrders hs.inv hg
    exact .inl ⟨s', he⟩
  | setTime t => exact .inl ⟨_, rfl⟩
  | assignId => exact absurd rfl hc

/-- In every state that a run reaches the displayed slices are positive and within what remains, and
no call from it fails an assertion: it returns, but for the index. Every fill quantity has been
positive. -/
theorem assertions_hold (hs : Reach S pop tickSz s) :
    (∀ b, ∀ l ∈ s.view b, ∀ o ∈ l.2, Displays o) ∧
    (∀ c : Call, c ≠ .assignId → (∃ s', c.run S s = some ((), s')) ∨
      ∃ i, c = .submit i ∧ s.idx_.insert i.id s.oA_ = none) ∧
    ∀ t inc r contra, .executed t inc r contra ∈ s.log →
      0 < t.quantity ∧ t.quantity = min inc.remainingQty r.visibleQty := by
  refine ⟨fun b l hl o ho => ?_, fun c hc => hs.returns hc, ?_⟩
  · have hshelf := hs.inv.sides b
    rw [Engine.side_flat] at hshelf
    exact (hshelf.rest l hl o ho).displays
  · refine hs.rule (J := fun x => ∀ t inc r contra, .executed t inc r contra ∈ x.1.tape.log →
      0 < t.quantity ∧ t.quantity = min inc.remainingQty r.visibleQty)
      (fun t inc r contra hm => absurd hm List.not_mem_nil) fun x y hi hj hact => ?_
    obtain ⟨new, hlog, -, hnew⟩ :=
      Flat.Step.executed (show Flat.Step Any (x.1, x.2) (y.1, y.2) from hact)
    intro t inc r contra hm
    rw [hlog] at hm
    rcases List.mem_append.mp hm with hm | hm
    · exact hj t inc r contra hm
    · have he := hnew t inc r contra hm
      rw [he.trade]
      exact ⟨he.positive, rfl⟩

/-- An iceberg that an incoming order reloads twice, and then a decrement. -/
def reloads : List Call :=
  [.submit { id := 1, side := .SELL, price := 100, quantity := 9, displayQty := 2, selfTradeGroup := 7,
             stpPolicy := .DECREMENT },
    .submit { id := 2, price := 100, quantity := 5 },
    .submit { id := 3, price := 100, quantity := 1, selfTradeGroup := 7, stpPolicy := .DECREMENT }]

/-- The state after the reloads and the decrement. -/
theorem assertions_hold_reloads : ∃ s, runAll .insertion reloads (.init .REJECT 1) = some ((), s) ∧
    (∀ b, ∀ l ∈ s.view b, ∀ o ∈ l.2, Displays o) ∧
    (∀ c : Call, c ≠ .assignId → (∃ s', c.run .insertion s = some ((), s')) ∨
      ∃ i, c = .submit i ∧ s.idx_.insert i.id s.oA_ = none) ∧
    ∀ t inc r contra, .executed t inc r contra ∈ s.log →
      0 < t.quantity ∧ t.quantity = min inc.remainingQty r.visibleQty := by
  have hsome : ((runAll .insertion reloads (.init .REJECT 1)).map fun r =>
      (r.2.values (r.2.queue 0)).map fun o => (o.remainingQty, o.visibleQty)) = some [(3, 2)] := by
    decide +kernel
  obtain ⟨⟨_, s⟩, hs, -⟩ := Option.map_eq_some_iff.mp hsome
  exact ⟨s, hs, assertions_hold (Reach.init.runAll hs)⟩

end Totality

end MatchingEngine.Cpp
