import MatchingEngine.Cpp.Timestamps
import MatchingEngine.Simulation.Calls

/-!
# Runs of the C++ engine beside the specification

The C++ engine and the specification start empty and are given the same orders, cancellations, and
decreases of a quantity. As long as no cascade is cut off, both make the same trades, in the same
order, and hold the same orders.

`Beside` is such a run, with the book of the specification and the trades so far. Its constructors
are the calls, each with what has to hold of it: an accepted order is no good-till-date order and
has the id that the specification would give it, and its cascade is not cut off. What a reader can
see of both, `seen` and `seenOf`, is equal by `Beside.shared`, order by order and in the same
places. A run of eight calls with an iceberg and a stop is an instance.
-/

namespace MatchingEngine.Simulation

open Cpp (Engine Flat Levels OrderInput StdSort maxCascade)
open Spec (BookState PriceLevel)

/-- The engine and the specification after the same submissions, cancellations, and decreases of a
quantity, with the trades of the specification. What the engine refuses the specification does not
get. Ids are given as the specification gives them, and no stop that is still dormant is cancelled.
-/
inductive Beside (S : StdSort) (tickSz : ℤ) : Engine → BookState → List Spec.Trade → Prop
  | init : Beside S tickSz (.init .REJECT tickSz) .empty []
  | submit {s s' : Engine} {b : BookState} {ts : List Spec.Trade} (i : OrderInput)
      (h : Beside S tickSz s b ts) (he : Cpp.submitOrder S i s = some (true, s'))
      (hid : i.id.toNat = b.nextId) (htif : i.timeInForce ≠ .GTD) (hqty : i.quantity ≤ most)
      (hcut : Flat.Uncut S i s.flat) :
      Beside S tickSz s' (Spec.process b (specOrder i b.nextId b.clock)).book
        (ts ++ (Spec.process b (specOrder i b.nextId b.clock)).trades)
  | refuse {s s' : Engine} {b : BookState} {ts : List Spec.Trade} (i : OrderInput)
      (h : Beside S tickSz s b ts) (he : Cpp.submitOrder S i s = some (false, s')) :
      Beside S tickSz s' b ts
  | cancel {s s' : Engine} {b : BookState} {ts : List Spec.Trade} (id : UInt64) (r : Bool)
      (h : Beside S tickSz s b ts) (he : Cpp.cancelOrder id s = some (r, s'))
      (hdormant : ∀ o ∈ s.flat.stops, o.id ≠ id) :
      Beside S tickSz s' ((Spec.cancelOrder b id.toNat).getD b) ts
  | reduce {s s' : Engine} {b : BookState} {ts : List Spec.Trade} (id : UInt64) (newQty : ℤ)
      (r : Bool) (h : Beside S tickSz s b ts) (he : Cpp.amendOrder S id 0 newQty s = some (r, s'))
      (hle : ∀ o ∈ s.flat.orders, o.id = id → newQty ≤ o.remainingQty) :
      Beside S tickSz s' ((Spec.amendQtyDecrease b id.toNat newQty.toNat).getD b) ts

section Views

/-- What is seen of a side: the prices, and the id, the remainder, and the visible quantity of each
order. -/
def seen (m : Levels) : List (ℤ × List (ℕ × ℤ × ℤ)) :=
  m.map fun l => (l.1, l.2.map fun o => (o.id.toNat, o.remainingQty, o.visibleQty))

/-- What is seen of a side of the specification. -/
def seenOf (ls : List PriceLevel) : List (ℤ × List (ℕ × ℤ × ℤ)) :=
  ls.map fun l =>
    ((l.price : ℤ), l.orders.map fun o => (o.id, (o.remainingQty : ℤ), (o.visibleQty : ℤ)))

/-- The terms of a dormant stop. -/
def stopTerms (o : Cpp.Order) : ℕ × Cpp.Side × Cpp.OrderType × ℤ × ℤ × ℤ :=
  (o.id.toNat, o.side, o.orderType, o.stopPrice, o.price, o.remainingQty)

/-- The terms of a dormant stop of the specification. -/
def stopTermsOf (o : Spec.Order) : ℕ × Cpp.Side × Cpp.OrderType × ℤ × ℤ × ℤ :=
  (o.id, sideOf o.side, typeOf o.orderType, o.stopPrice.getD 0, o.price.getD 0, o.remainingQty)

/-- What is seen of a queue. -/
theorem Queues.seen {p : ℕ} {qs : List Spec.Order} {q : List Cpp.Order} (h : Queues p qs q) :
    (q.map fun o => (o.id.toNat, o.remainingQty, o.visibleQty)) =
      qs.map fun o => (o.id, (o.remainingQty : ℤ), (o.visibleQty : ℤ)) := by
  induction h with
  | nil => rfl
  | cons ho _ ih => rw [List.map_cons, List.map_cons, ih, ho.id, ho.remaining, ho.visible]

/-- What is seen of a side. -/
theorem Sides.seen {ls : List PriceLevel} {m : Levels} (h : Sides ls m) :
    Simulation.seen m = seenOf ls := by
  unfold Simulation.seen seenOf
  induction h with
  | nil => rfl
  | cons hl _ ih => rw [List.map_cons, List.map_cons, ih, hl.1, hl.2.2.2.seen]

/-- What is seen of the dormant stops, which are the same ones in another order. -/
theorem Dormant.terms {os' : List Spec.Order} {os : List Cpp.Order} (h : Dormant os' os) :
    (os.map stopTerms).Perm (os'.map stopTermsOf) := by
  obtain ⟨sorted, hperm, -, -, hrel⟩ := h
  have heq : sorted.map stopTerms = os'.map stopTermsOf := by
    clear hperm
    induction hrel with
    | nil => rfl
    | @cons o' o _ _ ho _ ih =>
      obtain ⟨ho, -⟩ := ho
      have hterms : stopTerms o = stopTermsOf o' := by
        unfold stopTerms stopTermsOf
        rw [ho.id, ho.side, ho.type, ho.stopPrice.2, ho.price.2, ho.remaining]
      rw [List.map_cons, List.map_cons, ih, hterms]
  exact heq ▸ (hperm.map stopTerms).symm

end Views

section Beside

variable {S : StdSort} {tickSz : ℤ} {s s' : Engine} {b : BookState} {ts : List Spec.Trade}

/-- No dormant stop is from the future. -/
theorem stops_stamped {pop : Cpp.PostOnlyPolicy} (hs : Cpp.ReachWhere Cpp.Unset S pop tickSz s) :
    ∀ o ∈ s.flat.stops, o.timestamp ≤ s.flat.tape.now := by
  have hst := hs.induct (X := Flat.Clocked) (J := fun x => Flat.Stamped x.1 x.2)
    (fun o ho => absurd ho List.not_mem_nil) (fun _ _ hi hst hact => hst.step hi hact id)
    fun _ _ hr hj hc => hc.covers hr.inv hj
  exact fun o ho => hst o (List.mem_append_left _ (Flat.mem_orders_stop ho))

/-- What a run keeps. -/
theorem Beside.shared (h : Beside S tickSz s b ts) :
    Cpp.ReachWhere Cpp.Unset S .REJECT tickSz s ∧ Shared b s.flat ∧
      (Cpp.executed s.log).map facts = ts.map factsOf := by
  -- A submission is a call of the run.
  have hsubmit : ∀ {s s' : Engine} {i : OrderInput} {r : Bool},
      Cpp.ReachWhere Cpp.Unset S .REJECT tickSz s → Cpp.submitOrder S i s = some (r, s') →
      Cpp.ReachWhere Cpp.Unset S .REJECT tickSz s' := fun {s s' i r} hs he =>
    hs.call (.submit i) (fun _ hx => by cases hx) (Lib.run_bind_iff.mpr ⟨r, s', he, rfl⟩)
  induction h with
  | init =>
    refine ⟨.init, ?_, rfl⟩
    rw [← (Cpp.Shown.init .REJECT tickSz).eq]
    refine ⟨⟨fun s => ?_, fun s => ?_, ⟨[], .nil, .nil, .nil, .nil⟩, rfl⟩,
      ⟨fun hx => (by cases hx), rfl⟩, fun x hx => absurd hx List.not_mem_nil⟩
    · cases s <;> exact .nil
    · cases s <;> exact .nil
  -- The order is accepted by both, and both tell of the same trades.
  | submit i _ he hid htif hqty hcut ih =>
    obtain ⟨hs, hshared, hlog⟩ := ih
    obtain ⟨hv, hx⟩ := Flat.submitOrder_accepted (hs.reach.submitOrder he)
    obtain ⟨hshared', hlog'⟩ := submit_simulates hshared (stops_stamped hs) hv hid htif hqty hcut hx
    refine ⟨hsubmit hs he, hshared', hlog'.trans ?_⟩
    rw [List.map_append, ← hlog]
    rfl
  | refuse i _ he ih =>
    obtain ⟨hs, hshared, hlog⟩ := ih
    obtain ⟨hshared', htells⟩ := refuse_simulates hshared (hs.reach.submitOrder he)
    exact ⟨hsubmit hs he, hshared', (htells.executed.trans (List.append_nil _)).trans hlog⟩
  | reduce id newQty r _ he hle ih =>
    obtain ⟨hs, hshared, hlog⟩ := ih
    obtain ⟨hshared', htells⟩ := reduce_simulates hshared hs.reach.inv hle (hs.reach.amendOrder he)
    have hs' := hs.call (.amend id 0 newQty) (fun _ hx => by cases hx)
      (Lib.run_bind_iff.mpr ⟨r, _, he, rfl⟩)
    exact ⟨hs', hshared', (htells.executed.trans (List.append_nil _)).trans hlog⟩
  | cancel id r _ he hdormant ih =>
    obtain ⟨hs, hshared, hlog⟩ := ih
    obtain ⟨hshared', -, htells⟩ := cancel_simulates hshared hs.reach.inv hdormant
      (hs.reach.cancelOrder he)
    have hs' := hs.call (.cancel id) (fun _ hx => by cases hx)
      (Lib.run_bind_iff.mpr ⟨r, _, he, rfl⟩)
    refine ⟨hs', hshared', (htells.executed.trans (List.append_nil _)).trans hlog⟩

/-- The C++ engine and the specification, after the same calls, have made the same trades, with the
same prices, quantities, and orders, in the same order, and hold the same orders: the same queues at
the same prices on both sides, and the same dormant stops. They have the same last trade price, and
the next cancellation has the same answer. -/
theorem simulates_specification (h : Beside S tickSz s b ts) :
    (Cpp.executed s.log).map facts = ts.map factsOf ∧
    seen (s.view .BUY) = seenOf b.bids ∧ seen (s.view .SELL) = seenOf b.asks ∧
    (s.flat.stops.map stopTerms).Perm (b.stops.map stopTermsOf) ∧
    s.lastPx_ = b.lastTradePrice.getD 0 ∧
    ∀ id r s', (∀ o ∈ s.flat.stops, o.id ≠ id) → Cpp.cancelOrder id s = some (r, s') →
      r = (Spec.cancelOrder b id.toNat).isSome := by
  obtain ⟨hs, hshared, hlog⟩ := h.shared
  refine ⟨hlog, ?_, ?_, hshared.same.stops.terms, hshared.lastPx.2, fun id r s' hdormant he => ?_⟩
  · have hbids := (hshared.same.sides .sell).seen
    rwa [show s.flat.side (Cpp.oppositeSide (sideOf .sell)) = s.view .BUY from rfl] at hbids
  · have hasks := (hshared.same.sides .buy).seen
    rwa [show s.flat.side (Cpp.oppositeSide (sideOf .buy)) = s.view .SELL from rfl] at hasks
  · exact (cancel_simulates hshared hs.reach.inv hdormant (hs.reach.cancelOrder he)).2.1

/-- A sequence of calls on both, as long as it is a run. -/
def runBeside (S : StdSort) : List Cpp.Call → Engine → BookState → List Spec.Trade →
    Option (Engine × BookState × List Spec.Trade)
  | [], s, b, ts => some (s, b, ts)
  | .submit i :: cs, s, b, ts =>
    match Cpp.submitOrder S i s with
    | some (true, s') =>
      if i.id.toNat = b.nextId ∧ i.timeInForce ≠ .GTD ∧ i.quantity ≤ most ∧
          Flat.Uncut S i s.flat then
        runBeside S cs s' (Spec.process b (specOrder i b.nextId b.clock)).book
          (ts ++ (Spec.process b (specOrder i b.nextId b.clock)).trades)
      else none
    | some (false, s') => runBeside S cs s' b ts
    | none => none
  | .cancel id :: cs, s, b, ts =>
    match Cpp.cancelOrder id s with
    | some (_, s') =>
      if ∀ o ∈ s.flat.stops, o.id ≠ id then
        runBeside S cs s' ((Spec.cancelOrder b id.toNat).getD b) ts
      else none
    | none => none
  | .amend id newPx newQty :: cs, s, b, ts =>
    match Cpp.amendOrder S id newPx newQty s with
    | some (_, s') =>
      if newPx = 0 ∧ ∀ o ∈ s.flat.orders, o.id = id → newQty ≤ o.remainingQty then
        runBeside S cs s' ((Spec.amendQtyDecrease b id.toNat newQty.toNat).getD b) ts
      else none
    | none => none
  | _ :: _, _, _, _ => none

/-- A list of calls made to both. -/
theorem Beside.run {cs : List Cpp.Call} {x : Engine × BookState × List Spec.Trade}
    (h : Beside S tickSz s b ts) (hx : runBeside S cs s b ts = some x) :
    Beside S tickSz x.1 x.2.1 x.2.2 := by
  induction cs generalizing s b ts with
  | nil =>
    cases hx
    exact h
  | cons c cs ih =>
    cases c with
    | submit i =>
      unfold runBeside at hx
      split at hx
      · rename_i s' he
        split at hx
        · rename_i hi
          exact ih (h.submit i he hi.1 hi.2.1 hi.2.2.1 hi.2.2.2) hx
        · cases hx
      · rename_i s' he
        exact ih (h.refuse i he) hx
      · cases hx
    | cancel id =>
      unfold runBeside at hx
      split at hx
      · rename_i r s' he
        split at hx
        · rename_i hdormant
          exact ih (h.cancel id r he hdormant) hx
        · cases hx
      · cases hx
    | amend id newPx newQty =>
      unfold runBeside at hx
      split at hx
      · rename_i r s' he
        split at hx
        · rename_i hdown
          obtain ⟨rfl, hle⟩ := hdown
          exact ih (h.reduce id newQty r he hle) hx
        · cases hx
      · cases hx
    | _ => cases hx

/-- An iceberg and a plain order, a dormant stop that a market order wakes, an order that is
refused, a decrease of a quantity, and a cancellation. -/
def sliceAndStop : List Cpp.Call :=
  [.submit { id := 1, side := .SELL, price := 10, quantity := 6, displayQty := 2 },
    .submit { id := 2, side := .SELL, price := 10, quantity := 3 },
    .submit { id := 3, orderType := .STOP_LIMIT, stopPrice := 10, price := 11, quantity := 2 },
    .submit { id := 4, price := 9, quantity := 5 },
    .submit { id := 5, price := 0, quantity := 5 },
    .submit { id := 5, orderType := .MARKET, timeInForce := .IOC, quantity := 3 },
    .amend 1 0 3,
    .cancel 4]

/-- The two after the calls, the amendment and the cancellation included. -/
theorem simulates_specification_sliceAndStop : ∃ s b ts, Beside .insertion 1 s b ts ∧
    ts.map factsOf = [(10, 2, 5, 1, .BUY), (10, 1, 5, 2, .BUY), (10, 2, 3, 2, .BUY)] ∧
    (Cpp.executed s.log).map facts = ts.map factsOf ∧
    seen (s.view .SELL) = seenOf b.asks ∧ seenOf b.asks = [(10, [(1, 3, 2)])] := by
  have hsome : (runBeside .insertion sliceAndStop (.init .REJECT 1) .empty []).map (fun x =>
      decide (x.2.2.map factsOf = [(10, 2, 5, 1, .BUY), (10, 1, 5, 2, .BUY), (10, 2, 3, 2, .BUY)] ∧
      seenOf x.2.1.asks = [(10, [(1, 3, 2)])])) = some true := by
    decide +kernel
  obtain ⟨x, hrun, hval⟩ := Option.map_eq_some_iff.mp hsome
  obtain ⟨hts, hasks⟩ := of_decide_eq_true hval
  have h : Beside .insertion 1 x.1 x.2.1 x.2.2 := Beside.init.run hrun
  have hboth := simulates_specification h
  exact ⟨_, _, _, h, hts, hboth.1, hboth.2.2.1, hasks⟩

end Beside

end MatchingEngine.Simulation
