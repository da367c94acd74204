import MatchingEngine.Cpp.Twins

/-!
# An amendment that loses its place is a cancellation and a new order

`amendOrder` hands an order that loses its place to the pipeline as it is, without the checks and
the announcement of `submitOrder`. What trades are made and what is left of the book is what it
would be if the order were cancelled and a limit order with the new price and quantity submitted
under its id.
-/

namespace MatchingEngine.Cpp

open Lib

/-- The limit order that takes the place of an amended one. -/
def Order.resubmission (o : Order) (newPx newQty : ℤ) : OrderInput where
  id := o.id
  side := o.side
  orderType := .LIMIT
  timeInForce := o.timeInForce
  price := if 0 < newPx then newPx else o.price
  quantity := if 0 < newQty then newQty else o.remainingQty
  displayQty := o.displayQty
  postOnly := o.postOnly
  expireTime := o.expireTime
  selfTradeGroup := o.selfTradeGroup
  stpPolicy := o.stpPolicy

/-- What can be seen of the levels of a side: the prices, and the ids, the remaining quantities and
the visible quantities along the queues. -/
def Levels.seen (m : Levels) : List (ℤ × List (UInt64 × ℤ × ℤ)) :=
  m.map fun l => (l.1, l.2.map fun o => (o.id, o.remainingQty, o.visibleQty))

section Resubmit

variable {S : StdSort} {pop : PostOnlyPolicy} {tickSz : ℤ} {s : Engine} {f : Flat} {b : Side}
  {o : Order} {newPx newQty : ℤ}

/-- Twins are seen alike. -/
theorem seen_twin {m m' : Levels} (h : Levels.Twin m m') : m'.seen = m.seen := by
  have hqueue : ∀ {q q' : List Order}, List.Forall₂ Order.Twin q q' →
      q'.map (fun o => (o.id, o.remainingQty, o.visibleQty)) =
        q.map fun o => (o.id, o.remainingQty, o.visibleQty) := by
    intro q q' hq
    induction hq with
    | nil => rfl
    | cons ho _ ih =>
      obtain ⟨_, _, _, rfl, -⟩ := ho
      exact congrArg (_ :: ·) ih
  unfold Levels.seen
  induction h with
  | nil => rfl
  | cons hl _ ih => rw [List.map_cons, List.map_cons, ih, hl.1, hqueue hl.2]

namespace Flat

/-- The order that loses its place and the one that would replace it. -/
theorem twin_amended (h : Resting b o.price o) (now : ℕ) :
    (amended o newPx newQty now).Twin ((o.resubmission newPx newQty).order now) := by
  refine ⟨if 0 < newQty then newQty else o.remainingQty, 0, .NEW, ?_, ?_, ?_⟩
  · obtain ⟨-, -, -, htype, -, -, -, -, -, hmin, -, -⟩ := h
    unfold amended Order.resubmission OrderInput.order Order.shown
    simp only [htype, hmin]
  · have hst : o.status ≠ .CANCELLED := by
      rcases h.status with hst | hst <;> rw [hst] <;> decide
    exact iff_of_false (by decide) hst
  · exact fun hfok => absurd hfok h.tif.2

/-- A resting order rests at its own price. -/
theorem resting_of_mem (hi : Inv f []) (ho : o ∈ (f.side b).orders) : Resting b o.price o := by
  obtain ⟨l, hl, hol⟩ := Levels.mem_orders.mp ho
  have hr := (hi.sides b).rest l hl o hol
  rw [hr.price]
  exact hr

/-- What `amendOrder` does with an order that loses its place. -/
theorem amendOrder_losing (hi : Inv f []) (ho : o ∈ (f.side b).orders)
    (hlose : LosesPlace o newPx newQty) {r : Bool × Flat}
    (h : amendOrder S o.id newPx newQty f = some r) : r.1 = true ∧
      processActive S (amended o newPx newQty (f.tape.now + 1)) 0
        ((f.unlink b o).withTape f.tape.tick).clear = some r.2 := by
  have hone : ∀ {b' o'}, o' ∈ (f.side b').orders → o'.id = o.id → o' = o := fun ho' hid =>
    eq_of_id hi (mem_orders ho') (mem_orders ho) hid
  cases amends hi h with
  | missing hno => exact absurd rfl (hno b o ho)
  | shrinks ho' hid _ _ hkeep =>
    obtain rfl := hone ho' hid
    exact absurd hlose hkeep
  | idle ho' hid hkeep =>
    obtain rfl := hone ho' hid
    exact absurd hlose hkeep
  | @reenters b' o' f' ho' hid _ hp =>
    obtain rfl := hone ho' hid
    have hb : b' = b := (hi.tidy.side b' o' ho').symm.trans (hi.tidy.side b o' ho)
    subst hb
    exact ⟨rfl, hp⟩

/-- What `submitOrder` does with a limit order that it admits. -/
theorem submitOrder_limit {i : OrderInput} (hadm : Admitted i f) (htype : i.orderType = .LIMIT)
    {r : Bool × Flat} (h : submitOrder S i f = some r) : r.1 = true ∧
      processActive S (i.order (f.tape.now + 1)) 0
        (f.withTape (f.tape.tick.event (.onOrderAccepted (i.order (f.tape.now + 1))))).clear =
          some r.2 := by
  unfold submitOrder at h
  rw [if_neg fun hany => ?_] at h
  · dsimp only at h
    rw [hadm.2] at h
    dsimp only at h
    obtain ⟨f', hp, rfl⟩ := Option.map_eq_some_iff.mp h
    unfold process at hp
    rw [if_neg fun hstop => ?_] at hp
    · exact ⟨rfl, hp⟩
    · change i.orderType = _ ∨ i.orderType = _ at hstop
      rw [htype] at hstop
      rcases hstop with hstop | hstop <;> cases hstop
  · obtain ⟨x, hx, hid⟩ := List.any_eq_true.mp hany
    exact hadm.1 x hx (of_decide_eq_true hid)

/-- The engine after the amendment and after the cancellation and the submission. -/
theorem twin_resubmission (hi : Inv f []) (ho : o ∈ (f.side b).orders)
    (hlose : LosesPlace o newPx newQty)
    (hadm : Admitted (o.resubmission newPx newQty) (cancelOrder o.id f).2)
    {r r' : Bool × Flat} (h : amendOrder S o.id newPx newQty f = some r)
    (h' : submitOrder S (o.resubmission newPx newQty) (cancelOrder o.id f).2 = some r') :
    r.1 = true ∧ r'.1 = true ∧ r.2.Twin r'.2 := by
  obtain ⟨hr, hp⟩ := amendOrder_losing hi ho hlose h
  obtain ⟨hr', hp'⟩ := submitOrder_limit hadm rfl h'
  refine ⟨hr, hr', ?_⟩
  have htape : (f.unlink b o).tape = f.tape := tape_setSide _ _ _
  have hnow : (cancelOrder o.id f).2.tape.now = f.tape.now := by
    rw [cancelOrder_resting hi ho]
    change (f.unlink b o).tape.now = f.tape.now
    rw [htape]
  rw [hnow] at hp'
  have hflat : ((f.unlink b o).withTape f.tape.tick).clear.Twin ((cancelOrder o.id f).2.withTape
      ((cancelOrder o.id f).2.tape.tick.event
        (.onOrderAccepted ((o.resubmission newPx newQty).order (f.tape.now + 1))))).clear := by
    rw [cancelOrder_resting hi ho]
    refine ⟨twin_refl _, twin_refl _, rfl, ?_⟩
    change (Tape.Twin _ { ((f.unlink b o).tape.tick) with trades := [], log := _ })
    rw [htape]
    exact ⟨_, rfl⟩
  obtain ⟨w, hw, htwin⟩ := rel_some
    (twin_processActiveIn S _ (twin_amended (resting_of_mem hi ho) _) 0 hflat) hp
  obtain rfl : w = r'.2 := Option.some.inj (hw.symm.trans hp')
  exact htwin

end Flat

/-- An id of an order that rests is one that the index has room for. -/
theorem Reach.id_lt (hs : Reach S pop tickSz s) (ho : o ∈ s.flat.orders) : o.id.toNat < 2 ^ 31 := by
  have hsized : s.idx_.Sized := by
    obtain ⟨G, hG, -⟩ := hs.shown.1
    exact hG.standing.stored.sized
  have hget : s.idx_.get o.id ≠ none := by
    obtain ⟨K, hK⟩ : ∃ K, Shows K s s.flat [] := ⟨_, hs.shown.1.shows⟩
    rw [hK.get_mem ho]
    exact Option.some_ne_none _
  have hlt : ¬ s.idx_.cap_.toUInt64 ≤ o.id := fun hle => hget (if_pos hle)
  have hcap := hsized.cap_le
  have hlt := UInt64.lt_iff_toNat_lt.mp (UInt64.not_le.mp hlt)
  rw [UInt32.toNat_toUInt64] at hlt
  omega

/-- `amendOrder` where the order loses its place, and `cancelOrder` and then `submitOrder` of the
order that replaces it, when that is valid: the same trades are made, the same orders rest in the
same queues with as much left and as much visible, the same stops are dormant, and the last trade
price and the clock are the same. -/
theorem amend_eq_resubmit (hs : Reach S pop tickSz s) (ho : o ∈ (s.view b).orders)
    (hlose : LosesPlace o newPx newQty)
    (hvalid : validate (s.now_ + 1) ((o.resubmission newPx newQty).order (s.now_ + 1)) = none) :
    ∃ u v w, amendOrder S o.id newPx newQty s = some (true, u) ∧
      cancelOrder o.id s = some (true, v) ∧
      submitOrder S (o.resubmission newPx newQty) v = some (true, w) ∧ w.trades_ = u.trades_ ∧
      (∀ b, (w.view b).seen = (u.view b).seen) ∧ w.values w.stops_ = u.values u.stops_ ∧
      w.lastPx_ = u.lastPx_ ∧ w.now_ = u.now_ ∧ w.tid_ = u.tid_ := by
  have hi := hs.inv
  rw [← Engine.side_flat] at ho
  obtain ⟨r, u, hamend⟩ := hs.amendOrder_returns (S := S) o.id newPx newQty
  obtain ⟨c, v, hcancel, -⟩ := hs.shown.1.shows.cancelOrder hi o.id
  have hflat := hs.cancelOrder hcancel
  have hv : Reach S pop tickSz v := hs.call (.cancel o.id) (run_bind_iff.mpr ⟨c, v, hcancel, rfl⟩)
  obtain ⟨rfl, hcut⟩ := Prod.mk.inj (hflat.symm.trans (Flat.cancelOrder_resting hi ho))
  have hv₂ : (Flat.cancelOrder o.id s.flat).2 = v.flat := congrArg Prod.snd hflat
  -- The engine admits the new order.
  have hadm : Flat.Admitted (o.resubmission newPx newQty) v.flat := by
    constructor
    · intro x hx hid
      rw [hcut] at hx
      have hids := (hi.unlink ho).ids
      unfold Flat.ids at hids
      rw [List.map_append] at hids
      exact (List.nodup_append.mp hids).2.2 x.id (List.mem_map_of_mem hx) o.id
        (List.mem_singleton.mpr rfl) hid
    · have hnow : v.flat.tape.now = s.now_ := by
        rw [hcut]
        have htape : (s.flat.unlink b o).tape = s.flat.tape := Flat.tape_setSide _ _ _
        exact congrArg Tape.now htape
      rw [hnow]
      exact hvalid
  obtain ⟨r', w, hsubmit⟩ := hv.submitOrder_returns (S := S) (i := o.resubmission newPx newQty)
    fun _ => hs.id_lt (Flat.mem_orders ho)
  have htwin := Flat.twin_resubmission hi ho hlose (hv₂ ▸ hadm) (hs.amendOrder hamend)
    (hv₂ ▸ hv.submitOrder hsubmit)
  obtain ⟨rfl, rfl, hbids, hasks, hstops, htape⟩ := htwin
  obtain ⟨l, htape⟩ := htape
  refine ⟨u, v, w, hamend, hcancel, hsubmit, congrArg Tape.trades htape, fun b => ?_, hstops,
    congrArg Tape.lastPx htape, congrArg Tape.now htape, congrArg Tape.tid htape⟩
  cases b
  · exact seen_twin hbids
  · exact seen_twin hasks

end Resubmit

/-- A bid. -/
def bidBeforeAmend : OrderInput := { id := 1, price := 100, quantity := 5 }

/-- The bid, an ask above it, and a stop that a trade at the price of the ask triggers. -/
def beforeAmend : List Call :=
  [.submit bidBeforeAmend,
    .submit { id := 2, side := .SELL, price := 103, quantity := 3 },
    .submit
      { id := 3, orderType := .STOP_MARKET, timeInForce := .IOC, stopPrice := 102, quantity := 1 }]

/-- The bid is amended to the price of the ask. -/
theorem amend_eq_resubmit_cross : ∃ s o, Reach .insertion .REJECT 1 s ∧ o ∈ (s.view .BUY).orders ∧
    ∃ u v w, amendOrder .insertion o.id 103 0 s = some (true, u) ∧
      cancelOrder o.id s = some (true, v) ∧
      submitOrder .insertion (o.resubmission 103 0) v = some (true, w) ∧ w.trades_ = u.trades_ ∧
      (∀ b, (w.view b).seen = (u.view b).seen) ∧ w.values w.stops_ = u.values u.stops_ ∧
      w.lastPx_ = u.lastPx_ ∧ w.now_ = u.now_ ∧ w.tid_ = u.tid_ := by
  have hsome : (runAll .insertion beforeAmend (.init .REJECT 1)).map
      (fun r => ((r.2.view .BUY).orders, r.2.now_)) = some ([bidBeforeAmend.order 1], 3) := by
    decide +kernel
  obtain ⟨⟨_, s⟩, hrun, hval⟩ := Option.map_eq_some_iff.mp hsome
  obtain ⟨hview, hnow⟩ := Prod.mk.inj hval
  have ho : bidBeforeAmend.order 1 ∈ (s.view .BUY).orders := by
    rw [show (s.view .BUY).orders = _ from hview]
    exact List.mem_singleton.mpr rfl
  refine ⟨s, _, Reach.init.runAll hrun, ho, amend_eq_resubmit (Reach.init.runAll hrun) ho ?_ ?_⟩
  · exact .inl ⟨by decide, by decide⟩
  · rw [show s.now_ = 3 from hnow]
    decide

end MatchingEngine.Cpp
