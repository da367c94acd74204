import MatchingEngine.Cpp.Resubmit
import MatchingEngine.Simulation.Cascade
import MatchingEngine.Simulation.Inputs

/-!
# The calls

What the C++ engine and the specification do with an order, a cancellation, and a decrease of a
quantity.

`process_simulates` takes an order through the pipelines of both, and puts a stop that does not fire
among the dormant ones of both. `submit_simulates`, `cancel_simulates`, and `reduce_simulates` then
say of the calls that they keep `Shared`, which is what the two have in common between two calls,
and that both tell of the same trades. The specification looks an order up on its two sides, where
the C++ engine has an index; that both find the same order is `findOrderOnBook_resting`.
-/

namespace MatchingEngine.Simulation

open Cpp (Flat Levels OrderInput StdSort maxCascade)
open Spec (BookState PriceLevel)

/-! ## A submission -/

section Submission

variable {S : StdSort} {b : BookState} {f f' : Flat} {o' : Spec.Order} {o : Cpp.Order}
  {out : Spec.ProcessResult} {fuel : ℕ}

/-- The last trade price triggers a stop in both. -/
theorem Sleeps.triggered_iff {px : ℤ} {ltp : Option ℕ} (ho : Sleeps o' o) (h : Given px ltp) :
    (px ≠ 0 ∧ Cpp.fires px o = true) ↔ Spec.shouldTrigger o' ltp = true := by
  cases ltp with
  | none =>
    rw [h.none]
    refine iff_of_false (fun hx => hx.1 rfl) fun hx => ?_
    unfold Spec.shouldTrigger at hx
    cases hx
  | some k =>
    obtain ⟨hk, hpos⟩ := h.some
    rw [hk, ho.fires_eq k]
    exact and_iff_right (by omega)

/-- A stop joins those that are younger than no other. -/
theorem Dormant.park {os' : List Spec.Order} {os : List Cpp.Order} (h : Dormant os' os)
    (ho : Sleeps o' o) (hnew' : ∀ x ∈ os', x.timestamp < o'.timestamp)
    (hnew : ∀ x ∈ os, x.timestamp < o.timestamp) : Dormant (os' ++ [o']) (os ++ [o]) := by
  obtain ⟨sorted, hperm, hsorted, hos', hrel⟩ := h
  refine ⟨sorted ++ [o], hperm.append_right _, ?_, ?_, List.rel_append hrel (.cons ho .nil)⟩
  · refine List.pairwise_append.mpr ⟨hsorted, List.pairwise_singleton _ _, fun x hx y hy => ?_⟩
    rw [List.mem_singleton.mp hy]
    exact hnew x (hperm.mem_iff.mp hx)
  · refine List.pairwise_append.mpr ⟨hos', List.pairwise_singleton _ _, fun x hx y hy => ?_⟩
    rw [List.mem_singleton.mp hy]
    exact hnew' x hx

/-- An order that is not a stop, or a stop that wakes or joins the others. -/
theorem process_simulates (h : Same b f) (hlast : Given f.tape.lastPx b.lastTradePrice)
    (ho : Stands o' o) (hfit : Fit o') (hsleeps : o'.orderType.isStop = true → Sleeps o' o)
    (hnew' : ∀ x ∈ b.stops, x.timestamp < o'.timestamp)
    (hnew : ∀ x ∈ f.stops, x.timestamp < o.timestamp)
    (hfuel : o'.remainingQty + stopWeight b.stops + 1 < fuel)
    (hx : Flat.wholeProcess S o f = some f') :
    Ran { b with stops := b.stops ++ [o'] } f (Spec.processOrder fuel o' b) f' := by
  have hwhole := simulates_whole S (maxCascade + 1)
  have htype : (o.orderType = .STOP_LIMIT ∨ o.orderType = .STOP_MARKET) ↔
      o'.orderType.isStop = true := by
    rw [ho.type]
    cases o'.orderType <;> decide
  -- What holds from a state with the same stops and trades holds from here.
  have hlater : ∀ {b₀ : BookState} {f₀ : Flat} {out : Spec.ProcessResult}, Ran b₀ f₀ out f' →
      b₀.stops = b.stops → f₀.tape.trades = f.tape.trades →
      Cpp.executed f₀.tape.log = Cpp.executed f.tape.log →
      Ran { b with stops := b.stops ++ [o'] } f out f' := by
    intro b₀ f₀ out hran hstops htrades hlog
    refine hran.after (htrades.trans (List.append_nil f.tape.trades).symm) hlog ?_
    rw [hstops]
    exact List.sublist_append_left _ _
  unfold Flat.wholeProcess at hx
  by_cases hstop : o'.orderType.isStop = true
  · have hs := hsleeps hstop
    obtain ⟨fuel, rfl⟩ := Nat.exists_eq_succ_of_ne_zero (Nat.ne_of_gt (Nat.zero_lt_of_lt hfuel))
    rw [if_pos (htype.mpr hstop)] at hx
    unfold Spec.processOrder
    rw [if_pos hstop]
    -- A stop that fires at once is processed as the order it turns into.
    by_cases hfires : Spec.shouldTrigger o' b.lastTradePrice = true
    · rw [if_pos ((hs.triggered_iff hlast).mpr hfires)] at hx
      rw [if_pos hfires]
      obtain ⟨hstands, hfit', hstop', hrem⟩ := hs.trigger b.clock f.tape
      have hnoted : Same { b with clock := b.clock + 1 } (f.withTape (Flat.trigger o f.tape).2) :=
        (h.congr { b with clock := b.clock + 1 } rfl rfl rfl).withTape
          (t := (Flat.trigger o f.tape).2) h.poPol
      have hran := hwhole _ _ _ _ _ _ fuel hx hnoted hlast hstands hfit' hstop' (by
        rw [hrem]
        change o'.remainingQty + stopWeight b.stops < fuel
        omega)
      exact hlater hran rfl rfl ((Cpp.executed_append _ _).trans (List.append_nil _))
    -- It joins the dormant stops, as the latest of them.
    · rw [if_neg (mt (hs.triggered_iff hlast).mp hfires)] at hx
      rw [if_neg hfires]
      cases hx
      refine ⟨⟨fun s => ?_, fun s => ?_, h.stops.park hs hnew' hnew, h.poPol⟩, hlast,
        (List.append_nil _).symm, List.prefix_rfl, List.Sublist.refl _⟩
      · have hside := h.sides s
        cases s <;> exact hside
      · have hside := h.sorted s
        cases s <;> exact hside
  -- No stop.
  · rw [if_neg (mt htype.mp hstop)] at hx
    have hran := hwhole _ _ _ _ _ _ fuel hx h hlast ho hfit (Bool.eq_false_iff.mpr hstop) (by omega)
    exact hlater hran rfl rfl rfl

/-- The fuel of the specification is enough. -/
theorem lt_computeProcessFuel (b : BookState) (o : Spec.Order) :
    o.remainingQty + stopWeight b.stops + 1 < Spec.computeProcessFuel b o := by
  have hle : stopWeight b.stops ≤ 2 * (b.stops.map fun o => o.remainingQty + 1).sum := by
    induction b.stops with
    | nil => exact le_refl 0
    | cons x os ih =>
      have hcons : stopWeight (x :: os) = x.remainingQty + 2 + stopWeight os := rfl
      rw [hcons, List.map_cons, List.sum_cons]
      omega
  unfold Spec.computeProcessFuel
  dsimp only
  generalize (b.stops.map fun o => o.remainingQty + 1).sum = n at hle ⊢
  generalize hm : Spec.sideProcessMeasure b.bids + Spec.sideProcessMeasure b.asks + n +
    o.remainingQty + 1 = m
  have hsquare : m ≤ m * m := Nat.le_mul_self m
  omega

end Submission

/-! ## Calls -/

/-- What the engine and the specification have in common. -/
structure Shared (b : BookState) (f : Flat) : Prop where
  same : Same b f
  lastPx : Given f.tape.lastPx b.lastTradePrice
  older : ∀ x ∈ b.stops, x.timestamp < b.clock

section Calls

variable {S : StdSort} {b : BookState} {f f' : Flat} {i : OrderInput} {id : UInt64}
  {ls : List PriceLevel} {m : Levels} {r : Bool}

/-- The bids. -/
theorem Same.bids (h : Same b f) : Sides b.bids (f.side .BUY) := h.sides .sell

/-- The asks. -/
theorem Same.asks (h : Same b f) : Sides b.asks (f.side .SELL) := h.sides .buy

/-- An order that is accepted. -/
theorem submit_simulates (h : Shared b f) (hstamp : ∀ x ∈ f.stops, x.timestamp ≤ f.tape.now)
    (hv : Cpp.validate (f.tape.now + 1) (i.order (f.tape.now + 1)) = none)
    (hid : i.id.toNat = b.nextId) (htif : i.timeInForce ≠ .GTD) (hqty : i.quantity ≤ most)
    (hcut : Flat.Uncut S i f)
    (hx : Flat.process S (i.order (f.tape.now + 1)) (Flat.accepted i f) = some f') :
    Shared (Spec.process b (specOrder i b.nextId b.clock)).book f' ∧
      (Cpp.executed f'.tape.log).map facts = (Cpp.executed f.tape.log).map facts ++
        (Spec.process b (specOrder i b.nextId b.clock)).trades.map factsOf := by
  have hvalid := Cpp.valid_of_validate hv
  obtain ⟨f₁, hwhole⟩ := Option.isSome_iff_exists.mp hcut
  obtain rfl : f₁ = f' := Option.some.inj ((Flat.process_of_whole hwhole).symm.trans hx)
  have haccepted : Same b (Flat.accepted i f) := h.same.withTape h.same.poPol
  have hran := process_simulates haccepted h.lastPx
    (stands_specOrder b.clock hvalid hid htif hqty) (fit_specOrder hvalid hqty)
    (fun hstop => sleeps_specOrder hvalid hid htif hqty (isStop_specOrder.symm.trans hstop))
    h.older (fun x hx => Nat.lt_succ_of_le (hstamp x hx)) (lt_computeProcessFuel _ _) hwhole
  have hlog : Cpp.executed (Flat.accepted i f).tape.log = Cpp.executed f.tape.log :=
    (Cpp.executed_append _ _).trans (List.append_nil _)
  refine ⟨⟨hran.same.congr _ rfl rfl rfl, hran.lastPx, fun x hx => ?_⟩,
    hran.executed.trans (by rw [hlog]; rfl)⟩
  -- The stops are the old ones and at most the new one.
  have hlt : x.timestamp < b.clock + 1 := by
    rcases List.mem_append.mp (hran.stops.subset hx) with hx | hx
    · exact Nat.lt_succ_of_lt (h.older x hx)
    · rw [List.mem_singleton.mp hx]
      exact Nat.lt_succ_self _
  exact lt_max_of_lt_right hlt

/-- A side without the order of an id. -/
theorem Sides.keep (h : Sides ls m) (id : UInt64) :
    Sides (Spec.removeLevelOrder ls id.toNat) (Levels.keep (fun o => o.id ≠ id) m) := by
  induction h with
  | nil => exact .nil
  | @cons l l' ls m hl _ ih =>
    obtain ⟨p, q⟩ := l'
    obtain ⟨rfl, hpos, -, hq⟩ := hl
    -- The queues lose the orders of the same id.
    have hfilter :
        Queues l.price (l.orders.filter (·.id ≠ id.toNat)) (q.filter fun o => o.id ≠ id) := by
      refine List.rel_filter (fun o' o ho => ?_) hq
      dsimp only
      rw [decide_eq_true_iff, decide_eq_true_iff, ← ho.id]
      exact not_congr UInt64.toNat_inj
    unfold Spec.removeLevelOrder at ih ⊢
    rw [Cpp.Levels.keep_cons, List.filterMap_cons]
    revert hfilter
    generalize (q.filter fun o => o.id ≠ id) = q'
    intro hfilter
    -- A level left empty goes from both.
    cases hos : l.orders.filter (·.id ≠ id.toNat) with
    | nil =>
      rw [hos] at hfilter
      cases hfilter
      exact ih
    | cons o os =>
      rw [hos] at hfilter
      cases hfilter with
      | cons ho hq => exact .cons ⟨rfl, hpos, List.cons_ne_nil _ _, .cons ho hq⟩ ih

/-- The same orders are found. -/
theorem Sides.search (h : Sides ls m) (id : UInt64) :
    (Spec.searchSide ls id.toNat).isSome = true ↔ ∃ o ∈ m.orders, o.id = id := by
  unfold Spec.searchSide
  rw [List.findSome?_isSome_iff]
  constructor
  · rintro ⟨l, hl, hfind⟩
    obtain ⟨⟨p, q⟩, hl', rfl, -, -, hq⟩ := exists_mem_of_mem h hl
    obtain ⟨o', ho', hid⟩ := List.find?_isSome.mp hfind
    obtain ⟨o, ho, hrest⟩ := exists_mem_of_mem hq ho'
    refine ⟨o, Cpp.Levels.mem_orders.mpr ⟨_, hl', ho⟩, UInt64.toNat_inj.mp ?_⟩
    rw [hrest.id]
    exact of_decide_eq_true hid
  · rintro ⟨o, ho, rfl⟩
    obtain ⟨l', hl', ho⟩ := Cpp.Levels.mem_orders.mp ho
    obtain ⟨l, hl, -, -, -, hq⟩ := exists_mem_of_mem h.flip hl'
    obtain ⟨o', ho', hrest⟩ := exists_mem_of_mem hq.flip ho
    exact ⟨l, hl, List.find?_isSome.mpr ⟨o', ho', decide_eq_true hrest.id.symm⟩⟩

/-- What the cancellation of a resting order leaves. -/
structure Cancelled (s : Cpp.Side) (id : UInt64) (f f' : Flat) : Prop where
  side : f'.side s = Levels.keep (fun o => o.id ≠ id) (f.side s)
  other : f'.side (Cpp.oppositeSide s) = f.side (Cpp.oppositeSide s)
  stops : f'.stops.Perm f.stops
  sorted : ∀ s, (f'.side s).Pairwise fun l l' => Cpp.better s l.1 l'.1 = true
  tells : Tells [] f.tape f'.tape

/-- The cancellation of a resting order takes it out of its queue. -/
theorem cancelled_resting {s : Cpp.Side} {o : Cpp.Order} (hi : Cpp.Inv f [])
    (ho : o ∈ (f.side s).orders) (hdormant : ∀ x ∈ f.stops, x.id ≠ o.id)
    (hx : Flat.cancelOrder o.id f = (r, f')) : r = true ∧ Cancelled s o.id f f' := by
  obtain ⟨rfl, hf'⟩ := Prod.mk.inj ((Flat.cancelOrder_resting hi ho).symm.trans hx)
  obtain ⟨hsides, hstops⟩ := Flat.cancelOrder_keep hi hx
  have hi' := hi.run (c := .cancel o.id) .insertion (congrArg some (congrArg Prod.snd hx))
  refine ⟨rfl, hsides s, ?_, ?_, fun s => (hi'.sides s).sorted, ?_⟩
  · refine (hsides _).trans (Levels.keep_all (hi.sides _).full fun x hx => ?_)
    refine decide_eq_true fun hid => ?_
    -- The id is one of an order of `s`.
    have hside := (Flat.resting_of_mem hi hx).side
    rw [Flat.eq_of_id hi (Flat.mem_orders hx) (Flat.mem_orders ho) hid,
      (Flat.resting_of_mem hi ho).side] at hside
    cases s <;> cases hside
  · refine hstops.trans (.of_eq (List.filter_eq_self.mpr fun x hx => ?_))
    exact decide_eq_true (hdormant x hx)
  · have htape : (f.unlink s o).tape = f.tape := Flat.tape_setSide _ _ _
    rw [← hf', ← htape]
    exact Tells.trans (.mark _ rfl) (.mark _ rfl)

/-- What is shared when an order is cancelled. -/
theorem Shared.cancelled {s : Spec.Side} (h : Shared b f)
    (hc : Cancelled (Cpp.oppositeSide (sideOf s)) id f f') :
    Shared (Spec.setContraLevels b s (Spec.removeLevelOrder (Spec.contraLevels b s) id.toNat))
      f' := by
  obtain ⟨hside, hother, hstops, hsorted, htells⟩ := hc
  have hkept := (h.same.sides s).keep id
  rw [← hside] at hkept
  refine ⟨⟨fun s' => ?_, hsorted, ?_, htells.poPol.trans h.same.poPol⟩, ?_, ?_⟩
  · have hs' := h.same.sides s'
    cases s <;> cases s' <;> first | exact hkept | exact hother.symm ▸ hs'
  · obtain ⟨sorted, hperm, hrest⟩ := h.same.stops
    cases s <;> exact ⟨sorted, hperm.trans hstops.symm, hrest⟩
  · rw [htells.lastPx]
    cases s <;> exact h.lastPx
  · cases s <;> exact h.older

/-- The order that is found. -/
theorem Sides.found {o' : Spec.Order} (h : Sides ls m)
    (ho : Spec.searchSide ls id.toNat = some o') :
    ∃ o ∈ m.orders, o.id = id ∧ o.remainingQty = o'.remainingQty := by
  obtain ⟨l, hl, hfind⟩ := List.exists_of_findSome?_eq_some ho
  obtain ⟨⟨p, q⟩, hl', rfl, -, -, hq⟩ := exists_mem_of_mem h hl
  obtain ⟨o, ho, hrest⟩ := exists_mem_of_mem hq (List.mem_of_find?_eq_some hfind)
  refine ⟨o, Cpp.Levels.mem_orders.mpr ⟨_, hl', ho⟩, UInt64.toNat_inj.mp ?_, hrest.remaining⟩
  rw [hrest.id]
  simpa using List.find?_some hfind

/-- No order with the id is on the book of the specification. -/
theorem findOrderOnBook_none (h : Shared b f) (hno : ∀ s, ∀ o ∈ (f.side s).orders, o.id ≠ id) :
    Spec.findOrderOnBook b id.toNat = none := by
  have hnone : ∀ {ls : List PriceLevel} {s : Cpp.Side}, Sides ls (f.side s) →
      Spec.searchSide ls id.toNat = none := by
    intro ls s hs
    refine Option.eq_none_iff_forall_ne_some.mpr fun o' ho' => ?_
    obtain ⟨o, ho, hid, -⟩ := hs.found ho'
    exact hno s o ho hid
  unfold Spec.findOrderOnBook
  rw [hnone h.same.bids, hnone h.same.asks]
  rfl

/-- A resting order is found on its side. -/
theorem findOrderOnBook_resting {s : Cpp.Side} {o : Cpp.Order} (h : Shared b f) (hi : Cpp.Inv f [])
    (ho : o ∈ (f.side s).orders) : ∃ o', Spec.findOrderOnBook b o.id.toNat = some (specSide s, o') ∧
      o.remainingQty = o'.remainingQty := by
  -- An order found with the id is the order itself.
  have hone : ∀ {ls : List PriceLevel} {s' : Cpp.Side} {o' : Spec.Order}, Sides ls (f.side s') →
      Spec.searchSide ls o.id.toNat = some o' → s' = s ∧ o.remainingQty = o'.remainingQty := by
    intro ls s' o' hs ho'
    obtain ⟨x, hx, hid, hrem⟩ := hs.found ho'
    obtain rfl := Flat.eq_of_id hi (Flat.mem_orders hx) (Flat.mem_orders ho) hid
    exact ⟨(Flat.resting_of_mem hi hx).side.symm.trans (Flat.resting_of_mem hi ho).side, hrem⟩
  have hbids := h.same.bids
  have hasks := h.same.asks
  unfold Spec.findOrderOnBook
  cases s with
  | BUY =>
    obtain ⟨o', ho'⟩ := Option.isSome_iff_exists.mp ((hbids.search o.id).mpr ⟨o, ho, rfl⟩)
    rw [ho']
    exact ⟨o', rfl, (hone hbids ho').2⟩
  | SELL =>
    obtain ⟨o', ho'⟩ := Option.isSome_iff_exists.mp ((hasks.search o.id).mpr ⟨o, ho, rfl⟩)
    -- The bids are searched first, and do not have it.
    have hnone : Spec.searchSide b.bids o.id.toNat = none := by
      refine Option.eq_none_iff_forall_ne_some.mpr fun x hx => ?_
      cases (hone hbids hx).1
    rw [hnone, ho']
    exact ⟨o', rfl, (hone hasks ho').2⟩

/-- A cancellation that is not one of a dormant stop. -/
theorem cancel_simulates (h : Shared b f) (hi : Cpp.Inv f []) (hdormant : ∀ o ∈ f.stops, o.id ≠ id)
    (hx : Flat.cancelOrder id f = (r, f')) :
    Shared ((Spec.cancelOrder b id.toNat).getD b) f' ∧ r = (Spec.cancelOrder b id.toNat).isSome ∧
      Tells [] f.tape f'.tape := by
  unfold Spec.cancelOrder
  cases hl : f.locate id with
  -- No order has the id, so neither finds one.
  | none =>
    have hnone := Cpp.locate_none hl
    unfold Flat.cancelOrder at hx
    rw [hl] at hx
    cases hx
    rw [findOrderOnBook_none h fun s o ho => hnone o (Flat.mem_orders ho)]
    exact ⟨h, rfl, .refl _⟩
  | some w =>
    cases w with
    | dormant o =>
      obtain ⟨ho, hid⟩ := Flat.mem_of_locate hl
      exact absurd hid (hdormant o ho)
    | resting s o =>
      obtain ⟨ho, rfl⟩ := Flat.mem_of_locate hl
      obtain ⟨rfl, hc⟩ := cancelled_resting hi ho hdormant hx
      obtain ⟨o', ho', -⟩ := findOrderOnBook_resting h hi ho
      rw [ho']
      cases s with
      | BUY => exact ⟨h.cancelled (s := .sell) hc, rfl, hc.tells⟩
      | SELL => exact ⟨h.cancelled (s := .buy) hc, rfl, hc.tells⟩

/-- A queue with another quantity of the order of an id. -/
theorem Queues.change {p n : ℕ} {qs : List Spec.Order} {q : List Cpp.Order} (h : Queues p qs q)
    (id : UInt64) (hn : 0 < n) (hle : ∀ o ∈ q, o.id = id → n ≤ o.remainingQty) :
    Queues p
      (qs.map fun o => if o.id = id.toNat then
        { o with remainingQty := n, visibleQty := min o.visibleQty n } else o)
      (q.map fun o => if o.id = id then
        { o with remainingQty := n, visibleQty := min o.visibleQty n } else o) := by
  induction h with
  | nil => exact .nil
  | @cons o' o qs q ho _ ih =>
    obtain ⟨hfirst, hle⟩ := List.forall_mem_cons.mp hle
    refine .cons ?_ (ih hle)
    dsimp only
    -- The order with the id gets the quantity, and the slice that fits it.
    by_cases hid : o.id = id
    · have hid' : o'.id = id.toNat := by rw [← ho.id, hid]
      have hrem := hfirst hid
      rw [ho.remaining] at hrem
      have hplain := ho.plain
      have hsmall := ho.small
      rw [if_pos hid', if_pos hid]
      refine ⟨ho.id, ho.price, rfl, ?_, ho.display, ho.group, lt_min ho.shown hn, min_le_right _ _,
        fun hd => ?_, ?_⟩
      · change min o.visibleQty n = ((min o'.visibleQty n : ℕ) : ℤ)
        rw [ho.visible]
        omega
      · change min o'.visibleQty n = n
        rw [hplain hd]
        omega
      · change n ≤ most
        omega
    · have hid' : ¬ o'.id = id.toNat := by
        rw [← ho.id]
        exact mt UInt64.toNat_inj.mp hid
      rw [if_neg hid', if_neg hid]
      exact ho

/-- A side with another quantity of the order of an id. -/
theorem Sides.change {n : ℕ} (h : Sides ls m) (id : UInt64) (hn : 0 < n)
    (hle : ∀ o ∈ m.orders, o.id = id → n ≤ o.remainingQty) :
    Sides (Spec.updateLevels ls id.toNat n) (Cpp.Flat.change id
      (fun o => { o with remainingQty := n, visibleQty := min o.visibleQty n }) m) := by
  induction h with
  | nil => exact .nil
  | @cons l l' ls m hl _ ih =>
    obtain ⟨p, q⟩ := l'
    obtain ⟨rfl, hpos, hne, hq⟩ := hl
    rw [Cpp.Levels.orders_cons] at hle
    refine .cons ⟨rfl, hpos, fun h0 => hne (List.map_eq_nil_iff.mp h0), ?_⟩
      (ih fun o ho => hle o (List.mem_append_right _ ho))
    exact Queues.change hq id hn fun o ho => hle o (List.mem_append_left _ ho)

/-- What is shared when the quantity of an order is decreased. -/
theorem Shared.reduced {s : Spec.Side} {n : ℕ} (h : Shared b f) (id : UInt64) (hn : 0 < n)
    (hle : ∀ o ∈ f.orders, o.id = id → n ≤ o.remainingQty) :
    Shared (Spec.setContraLevels b s (Spec.updateLevels (Spec.contraLevels b s) id.toNat n))
      (f.setSide (Cpp.oppositeSide (sideOf s)) (Flat.change id
        (fun o => { o with remainingQty := n, visibleQty := min o.visibleQty n })
        (f.side (Cpp.oppositeSide (sideOf s))))) := by
  have hside := (h.same.sides s).change id hn fun o ho => hle o (Flat.mem_orders ho)
  refine ⟨h.same.setContra s hside ?_, ?_, ?_⟩
  · unfold Flat.change
    exact List.pairwise_map.mpr (h.same.sorted _)
  · rw [Flat.tape_setSide]
    cases s <;> exact h.lastPx
  · cases s <;> exact h.older

/-- A decrease of a quantity. -/
theorem reduce_simulates {newQty : ℤ} (h : Shared b f) (hi : Cpp.Inv f [])
    (hle : ∀ o ∈ f.orders, o.id = id → newQty ≤ o.remainingQty)
    (hx : Flat.amendOrder S id 0 newQty f = some (r, f')) :
    Shared ((Spec.amendQtyDecrease b id.toNat newQty.toNat).getD b) f' ∧
      Tells [] f.tape f'.tape := by
  unfold Spec.amendQtyDecrease
  unfold Flat.amendOrder at hx
  cases hl : f.locate id with
  | none =>
    have hnone := Cpp.locate_none hl
    rw [hl] at hx
    cases hx
    rw [findOrderOnBook_none h fun s o ho => hnone o (Flat.mem_orders ho)]
    exact ⟨h, .refl _⟩
  | some w =>
    rw [hl] at hx
    have hmem := Flat.mem_of_locate hl
    cases w with
    | dormant o =>
      obtain ⟨ho, rfl⟩ := hmem
      cases hx
      rw [findOrderOnBook_none h fun s x hx hid => ?_]
      · exact ⟨h, .refl _⟩
      · -- No resting order is a stop.
        have htype := (hi.stops o ho).type
        rw [← Flat.eq_of_id hi (Flat.mem_orders hx) (Flat.mem_orders_stop ho) hid,
          (Flat.resting_of_mem hi hx).type] at htype
        cases htype
    | resting s o =>
      obtain ⟨ho, rfl⟩ := hmem
      obtain ⟨o', ho', hrem⟩ := findOrderOnBook_resting h hi ho
      have hlt := hle o (Flat.mem_orders ho) rfl
      rw [ho']
      dsimp only at hx ⊢
      rw [if_pos (hi.tidy.status o (Flat.mem_orders ho))] at hx
      -- A smaller quantity than what remains is written in both.
      by_cases hdn : 0 < newQty ∧ newQty < o.remainingQty
      · rw [if_pos ⟨hdn, fun hpx => lt_irrefl 0 hpx.1⟩] at hx
        cases hx
        obtain ⟨n, rfl⟩ := Int.eq_ofNat_of_zero_le (le_of_lt hdn.1)
        have hn := Int.natCast_pos.mp hdn.1
        rw [Int.toNat_natCast, if_neg (by omega)]
        have htells : Tells [] f.tape f.tape := .refl _
        cases s with
        | BUY => exact ⟨h.reduced (s := .sell) o.id hn hle, htells⟩
        | SELL => exact ⟨h.reduced (s := .buy) o.id hn hle, htells⟩
      · rw [if_neg fun hx => hdn hx.1, if_neg (by omega)] at hx
        cases hx
        -- Any other quantity is refused by both.
        rw [if_pos (by omega)]
        exact ⟨h, .refl _⟩

/-- An order that is refused. -/
theorem refuse_simulates (h : Shared b f) (hx : Flat.submitOrder S i f = some (false, f')) :
    Shared b f' ∧ Tells [] f.tape f'.tape := by
  have hnoted : ∀ t : Cpp.Tape, Tells [] f.tape t →
      Shared b (f.withTape t) ∧ Tells [] f.tape t := by
    intro t ht
    refine ⟨⟨h.same.withTape (ht.poPol.trans h.same.poPol), ?_, h.older⟩, ht⟩
    change Given t.lastPx b.lastTradePrice
    rw [ht.lastPx]
    exact h.lastPx
  unfold Flat.submitOrder at hx
  dsimp only at hx
  split at hx
  · cases hx
    exact hnoted _ (.mark _ rfl)
  · split at hx
    · cases hx
      exact hnoted _ (Tells.trans (.tick _) (.mark _ rfl))
    · obtain ⟨f₁, -, heq⟩ := Option.map_eq_some_iff.mp hx
      exact absurd (Prod.mk.inj heq).1 Bool.noConfusion

end Calls

end MatchingEngine.Simulation
