import Mathlib.Data.List.Forall2
import MatchingEngine.Cpp.Removal
import MatchingEngine.Cpp.Reports
import MatchingEngine.Spec.Process

/-!
# The orders of the specification and of the C++ engine

The C++ engine writes zero where an order of the specification has nothing: no price, no display
quantity, no minimum quantity, no group, no policy. Two orders stand for each other when they say
the same in this sense. What matters of a resting order is less, since much of it is never read
again.
-/

namespace MatchingEngine.Simulation

open Cpp (Levels Tape Flat)
open Spec (PriceLevel BookState)

/-- The side of the C++ engine. -/
def sideOf : Spec.Side → Cpp.Side
  | .buy => .BUY
  | .sell => .SELL

/-- The type of the C++ engine. -/
def typeOf : Spec.OrderType → Cpp.OrderType
  | .limit => .LIMIT
  | .market => .MARKET
  | .marketToLimit => .MARKET_TO_LIMIT
  | .stopLimit => .STOP_LIMIT
  | .stopMarket => .STOP_MARKET

/-- The time in force of the C++ engine. -/
def tifOf : Spec.TimeInForce → Cpp.TimeInForce
  | .gtc => .GTC
  | .ioc => .IOC
  | .fok => .FOK
  | .day => .DAY

/-- The self-trade policy of the C++ engine. -/
def policyOf : Option Spec.STPPolicy → Cpp.STPPolicy
  | none => .NONE
  | some .cancelNewest => .CANCEL_NEWEST
  | some .cancelOldest => .CANCEL_OLDEST
  | some .cancelBoth => .CANCEL_BOTH
  | some .decrement => .DECREMENT

/-- The number is the given one, or zero for none. -/
def Given (n : ℤ) (x : Option ℕ) : Prop := x ≠ some 0 ∧ n = x.getD 0

/-- The quantities that an order may have: two of them add up to what an `int64_t` can hold. -/
def most : ℕ := 2 ^ 62

/-- An order that is worked on or dormant. -/
structure Stands (o' : Spec.Order) (o : Cpp.Order) : Prop where
  id : o.id.toNat = o'.id
  side : o.side = sideOf o'.side
  type : o.orderType = typeOf o'.orderType
  tif : o.timeInForce = tifOf o'.tif
  price : Given o.price o'.price
  stopPrice : Given o.stopPrice o'.stopPrice
  quantity : o.quantity = o'.qty
  remaining : o.remainingQty = o'.remainingQty
  minQty : Given o.minQty o'.minQty
  display : Given o.displayQty o'.displayQty
  postOnly : o.postOnly = o'.postOnly
  group : Given o.selfTradeGroup.toNat o'.stpGroup
  policy : o.stpPolicy = policyOf o'.stpPolicy
  paired : o'.stpGroup.isSome = o'.stpPolicy.isSome
  cancelled : o.status = .CANCELLED ↔ o'.status = .cancelled
  small : o'.remainingQty ≤ most

/-- An order that rests at a price. -/
structure Rests (p : ℕ) (o' : Spec.Order) (o : Cpp.Order) : Prop where
  id : o.id.toNat = o'.id
  price : o.price = p
  remaining : o.remainingQty = o'.remainingQty
  visible : o.visibleQty = o'.visibleQty
  display : Given o.displayQty o'.displayQty
  group : Given o.selfTradeGroup.toNat o'.stpGroup
  shown : 0 < o'.visibleQty
  shown_le : o'.visibleQty ≤ o'.remainingQty
  plain : o'.displayQty = none → o'.visibleQty = o'.remainingQty
  small : o'.remainingQty ≤ most

/-- A queue at a price. -/
def Queues (p : ℕ) : List Spec.Order → List Cpp.Order → Prop := List.Forall₂ (Rests p)

/-- The levels of a side. -/
def Sides : List PriceLevel → Levels → Prop :=
  List.Forall₂ fun l l' =>
    l'.1 = l.price ∧ 0 < l.price ∧ l.orders ≠ [] ∧ Queues l.price l.orders l'.2

/-- A partner of an element of two lists that go together. -/
theorem exists_mem_of_mem {α β : Type} {R : α → β → Prop} {xs : List α} {ys : List β} {x : α}
    (h : List.Forall₂ R xs ys) (hx : x ∈ xs) : ∃ y ∈ ys, R x y := by
  induction h with
  | nil => cases hx
  | cons hxy _ ih =>
    rcases List.mem_cons.mp hx with rfl | hx
    · exact ⟨_, List.mem_cons_self, hxy⟩
    · obtain ⟨y, hy, hxy⟩ := ih hx
      exact ⟨y, List.mem_cons_of_mem _ hy, hxy⟩

/-- What both tell of a trade. -/
def facts (t : Cpp.Trade) : ℤ × ℤ × ℕ × ℕ × Cpp.Side :=
  (t.price, t.quantity, t.aggressorId.toNat, t.passiveId.toNat, t.aggressorSide)

/-- What is told of a trade of the specification. -/
def factsOf (t : Spec.Trade) : ℤ × ℤ × ℕ × ℕ × Cpp.Side :=
  (t.price, t.qty, t.aggressorId, t.passiveId, sideOf t.aggressorSide)

/-- The trades made between two tapes, at the end of the history and of the buffer. -/
structure Tells (ts : List Spec.Trade) (t t' : Tape) : Prop where
  executed : (Cpp.executed t'.log).map facts = (Cpp.executed t.log).map facts ++ ts.map factsOf
  buffer : ∃ new, t'.trades = t.trades ++ new ∧ new.map facts = ts.map factsOf
  priced : ∀ x ∈ ts, 0 < x.price
  poPol : t'.poPol = t.poPol
  lastPx : t'.lastPx = t.lastPx

/-- Nothing is told. -/
theorem Tells.refl (t : Tape) : Tells [] t t :=
  ⟨(List.append_nil _).symm, ⟨[], (List.append_nil _).symm, rfl⟩,
    fun _ hx => absurd hx List.not_mem_nil, rfl, rfl⟩

/-- One part after another. -/
theorem Tells.trans {ts us : List Spec.Trade} {t t' t'' : Tape} (h : Tells ts t t')
    (h' : Tells us t' t'') : Tells (ts ++ us) t t'' where
  executed := by rw [h'.executed, h.executed, List.map_append, List.append_assoc]
  buffer := by
    obtain ⟨new, ht, hnew⟩ := h.buffer
    obtain ⟨new', ht', hnew'⟩ := h'.buffer
    refine ⟨new ++ new', ?_, ?_⟩
    · rw [ht', ht, List.append_assoc]
    · rw [List.map_append, List.map_append, hnew, hnew']
  priced x hx := (List.mem_append.mp hx).elim (h.priced x) (h'.priced x)
  poPol := h'.poPol.trans h.poPol
  lastPx := h'.lastPx.trans h.lastPx

/-- An entry that is not of a trade. -/
theorem Tells.mark (t : Tape) {m : Cpp.Mark} (hm : Cpp.executed [m] = []) :
    Tells [] t (t.mark m) where
  executed := by
    change (Cpp.executed (t.log ++ [m])).map facts = _
    rw [Cpp.executed_append, hm, List.append_nil]
    exact (List.append_nil _).symm
  buffer := ⟨[], (List.append_nil _).symm, rfl⟩
  priced _ hx := absurd hx List.not_mem_nil
  poPol := rfl
  lastPx := rfl

/-- The clock ticks. -/
theorem Tells.tick (t : Tape) : Tells [] t t.tick :=
  ⟨(List.append_nil _).symm, ⟨[], (List.append_nil _).symm, rfl⟩,
    fun _ hx => absurd hx List.not_mem_nil, rfl, rfl⟩

/-- A number that is given is positive. -/
theorem Given.some {n : ℤ} {k : ℕ} (h : Given n (some k)) : n = k ∧ 0 < k :=
  ⟨h.2, Nat.pos_of_ne_zero fun h0 => h.1 (congrArg _ h0)⟩

/-- A number that is not given is zero. -/
theorem Given.none {n : ℤ} (h : Given n none) : n = 0 := h.2

/-- A number is positive just when it is given. -/
theorem Given.pos_iff {n : ℤ} {x : Option ℕ} (h : Given n x) : 0 < n ↔ x.isSome = true := by
  cases x with
  | none =>
    rw [h.none]
    decide
  | some k =>
    obtain ⟨rfl, hk⟩ := h.some
    exact iff_of_true (Int.natCast_pos.mpr hk) rfl

section Turns

variable {inc' r' : Spec.Order} {inc r : Cpp.Order} {p tm : ℕ} {qs : List Spec.Order}
  {q : List Cpp.Order} {t : Tape}

/-- The incoming order when no more of it has changed than its remainder and its status. -/
def Changed (o o' : Spec.Order) : Prop :=
  o' = { o with remainingQty := o'.remainingQty, status := o'.status }

/-- Nothing has changed. -/
theorem Changed.refl (o : Spec.Order) : Changed o o := rfl

/-- The changes of two parts are those of one. -/
theorem Changed.trans {o o' o'' : Spec.Order} (h : Changed o o') (h' : Changed o' o'') :
    Changed o o'' := by
  unfold Changed at h h' ⊢
  rw [h', h]

/-- Both find the same orders to conflict. -/
theorem conflict_eq (hi : Stands inc' inc) (hr : Rests p r' r) :
    Cpp.stpConflict inc r = Spec.selfTradeConflict inc' r' := by
  have hg := hi.group
  have hg' := hr.group
  have hpaired := hi.paired
  unfold Cpp.stpConflict Spec.selfTradeConflict
  rw [← hpaired]
  -- Group zero of the C++ engine is no group.
  cases hx : inc'.stpGroup with
  | none =>
    rw [hx] at hg
    have h0 : inc.selfTradeGroup = 0 := UInt64.toNat_inj.mp (Int.natCast_inj.mp hg.none)
    simp [h0]
  | some k =>
    rw [hx] at hg
    obtain ⟨hk, hpos⟩ := hg.some
    have hk : inc.selfTradeGroup.toNat = k := Int.natCast_inj.mp hk
    have hne : inc.selfTradeGroup ≠ 0 := fun h0 => by
      rw [h0] at hk
      exact absurd hk (Nat.ne_of_lt hpos)
    cases hy : r'.stpGroup with
    | none =>
      rw [hy] at hg'
      have h0 : r.selfTradeGroup = 0 := UInt64.toNat_inj.mp (Int.natCast_inj.mp hg'.none)
      simp [h0]
    | some j =>
      rw [hy] at hg'
      obtain ⟨hj, hpos'⟩ := hg'.some
      have hj : r.selfTradeGroup.toNat = j := Int.natCast_inj.mp hj
      have hne' : r.selfTradeGroup ≠ 0 := fun h0 => by
        rw [h0] at hj
        exact absurd hj (Nat.ne_of_lt hpos')
      have hsame : inc.selfTradeGroup = r.selfTradeGroup ↔ k = j := by
        rw [← UInt64.toNat_inj, hk, hj]
      simp [hne, hne', hsame]

/-- Both let the order trade at the same prices. -/
theorem canMatch_eq (hi : Stands inc' inc) (p : ℕ) :
    Cpp.canMatch inc p = Spec.canMatchPrice inc' p := by
  have hprice := hi.price
  unfold Cpp.canMatch Spec.canMatchPrice
  rw [hi.side]
  cases hx : inc'.price with
  | none =>
    rw [hx] at hprice
    rw [if_pos hprice.none]
  | some k =>
    rw [hx] at hprice
    obtain ⟨hk, hpos⟩ := hprice.some
    rw [hk, if_neg (by omega)]
    cases inc'.side with
    | buy => exact decide_eq_decide.mpr Int.ofNat_le
    | sell => exact decide_eq_decide.mpr Int.ofNat_le

/-- The incoming order is done with. -/
def Done (o : Spec.Order) : Prop := o.remainingQty = 0 ∨ o.status = .cancelled

/-- The fuel that a queue takes. -/
def weight (qs : List Spec.Order) : ℕ := (qs.map fun o => o.remainingQty + 1).sum

/-- What two parts of a queue weigh. -/
theorem weight_append (qs qs' : List Spec.Order) : weight (qs ++ qs') = weight qs + weight qs' := by
  unfold weight
  rw [List.map_append, List.sum_append]

/-- What a queue weighs with its head. -/
theorem weight_cons (o : Spec.Order) (qs : List Spec.Order) :
    weight (o :: qs) = o.remainingQty + 1 + weight qs := rfl

/-- What is left of the first order of a queue is less. -/
theorem weight_settleResting {n : ℕ} {st : Spec.OrderStatus} (hn : 0 < n)
    (hle : n ≤ r'.remainingQty) :
    weight (Spec.settleResting (Spec.reduceOrder r' n) qs st tm).1 < weight (r' :: qs) := by
  have hcons := weight_cons r' qs
  unfold Spec.settleResting
  split
  · dsimp only
    omega
  · split
    · dsimp only
      rw [weight_append, hcons]
      change weight qs + (r'.remainingQty - n + 1 + 0) < _
      omega
    · dsimp only
      rw [weight_cons, hcons]
      change r'.remainingQty - n + 1 + weight qs < _
      omega

/-- What is left of a resting order that gave up `n` and stays. -/
theorem Rests.less {n : ℕ} (hr : Rests p r' r) (hn : n < r'.visibleQty)
    {st : Spec.OrderStatus} {st' : Cpp.OrderStatus} :
    Rests p { Spec.reduceOrder r' n with status := st }
      { r with
        visibleQty := r.visibleQty - n
        remainingQty := r.remainingQty - n
        status := st' } := by
  have hle := hr.shown_le
  have hplain := hr.plain
  refine ⟨hr.id, hr.price, ?_, ?_, hr.display, hr.group, ?_, ?_, fun hd => ?_, ?_⟩
  · change r.remainingQty - n = ((r'.remainingQty - n : ℕ) : ℤ)
    rw [hr.remaining]
    omega
  · change r.visibleQty - n = ((r'.visibleQty - n : ℕ) : ℤ)
    rw [hr.visible]
    omega
  · change 0 < r'.visibleQty - n
    omega
  · change r'.visibleQty - n ≤ r'.remainingQty - n
    omega
  · change r'.visibleQty - n = r'.remainingQty - n
    rw [hplain hd]
  · exact (Nat.sub_le _ _).trans hr.small

/-- An iceberg that has shown all of a slice, with the next one. -/
theorem Rests.reload {n now : ℕ} (hr : Rests p r' r) (hn : n ≤ r'.visibleQty)
    (hrem : r'.remainingQty - n ≠ 0) (hd : r'.displayQty.isSome = true)
    {st : Cpp.OrderStatus} :
    Rests p (Spec.reloadOrder (Spec.reduceOrder r' n) tm)
      { r with
        visibleQty := min r.displayQty (r.remainingQty - n)
        remainingQty := r.remainingQty - n
        status := st
        timestamp := now } := by
  obtain ⟨d, hd⟩ := Option.isSome_iff_exists.mp hd
  have hdisplay := hr.display
  rw [hd] at hdisplay
  obtain ⟨hdq, hdpos⟩ := hdisplay.some
  have hle := hr.shown_le
  have hcast : r.remainingQty - n = ((r'.remainingQty - n : ℕ) : ℤ) := by
    rw [hr.remaining]
    omega
  -- The next slice is the display quantity, or what remains if that is less.
  have hvis : (Spec.reloadOrder (Spec.reduceOrder r' n) tm).visibleQty =
      min d (r'.remainingQty - n) := by
    change min (r'.displayQty.getD 0) _ = _
    rw [hd]
    rfl
  refine ⟨hr.id, hr.price, hcast, ?_, hr.display, hr.group, ?_, ?_, fun hx => ?_, ?_⟩
  · change min r.displayQty (r.remainingQty - n) = _
    rw [hvis, hdq, hcast]
    omega
  · rw [hvis]
    exact lt_min hdpos (Nat.pos_of_ne_zero hrem)
  · rw [hvis]
    exact min_le_right _ _
  · change r'.displayQty = none at hx
    rw [hd] at hx
    cases hx
  · exact (Nat.sub_le _ _).trans hr.small

/-- An order that stays where it is still shows something. -/
theorem Rests.lt_of_stays {n : ℕ} (hr : Rests p r' r) (hn : n ≤ r'.visibleQty)
    (hrem : r'.remainingQty - n ≠ 0)
    (hv : ¬ (r'.visibleQty - n = 0 ∧ r'.displayQty.isSome = true)) : n < r'.visibleQty := by
  by_contra hge
  have hzero : r'.visibleQty - n = 0 := by omega
  cases hd : r'.displayQty with
  | none =>
    have hplain := hr.plain hd
    omega
  | some d => exact hv ⟨hzero, by rw [hd]; rfl⟩

variable (tm) in
/-- What becomes of a resting order that has traded `n`. -/
theorem afterFill_settles {n : ℕ} {rest : List Cpp.Order} (hr : Rests p r' r)
    (hn : n ≤ r'.visibleQty) (hq : Queues p qs rest) (t : Tape) :
    Queues p (Spec.settleResting (Spec.reduceOrder r' n) qs .partiallyFilled tm).1
      ((Flat.afterFill (Flat.filledBy r n) t).1.requeue rest) ∧
      Tells [] t (Flat.afterFill (Flat.filledBy r n) t).2 := by
  have hle := hr.shown_le
  have hremaining : r.remainingQty - n = ((r'.remainingQty - n : ℕ) : ℤ) := by
    rw [hr.remaining]
    omega
  have hvisible : r.visibleQty - n = ((r'.visibleQty - n : ℕ) : ℤ) := by
    rw [hr.visible]
    omega
  have hdisplay := hr.display.pos_iff
  unfold Spec.settleResting Flat.afterFill Flat.filledBy Spec.reduceOrder
  dsimp only
  -- It is used up, shows its next slice, or stays in front.
  by_cases h0 : r'.remainingQty - n = 0
  · have hzero : r.remainingQty - n = 0 := by omega
    rw [if_pos h0, if_neg (by omega), if_pos hzero]
    exact ⟨hq, .mark t rfl⟩
  by_cases hv : r'.visibleQty - n = 0 ∧ r'.displayQty.isSome = true
  · rw [if_neg h0, if_pos hv, if_pos ⟨by omega, by omega, hdisplay.mpr hv.2⟩]
    exact ⟨List.rel_append hq (.cons (hr.reload hn h0 hv.2) .nil),
      (Tells.tick t).trans (.mark _ rfl)⟩
  · have hlt := hr.lt_of_stays hn h0 hv
    rw [if_neg h0, if_neg hv, if_neg (by omega), if_neg (by omega)]
    exact ⟨.cons (hr.less hlt) hq, .refl t⟩

variable (tm) in
/-- What becomes of a resting order that was decremented by `n`. -/
theorem afterDecrement_settles {n : ℕ} {rest : List Cpp.Order} (hr : Rests p r' r)
    (hn : n ≤ r'.visibleQty) (hq : Queues p qs rest) (t : Tape) :
    Queues p (Spec.settleResting (Spec.reduceOrder r' n) qs r'.status tm).1
      ((Flat.afterDecrement (Flat.lessResting r n) t).1.requeue rest) ∧
      Tells [] t (Flat.afterDecrement (Flat.lessResting r n) t).2 := by
  have hle := hr.shown_le
  have hremaining : r.remainingQty - n = ((r'.remainingQty - n : ℕ) : ℤ) := by
    rw [hr.remaining]
    omega
  have hvisible : r.visibleQty - n = ((r'.visibleQty - n : ℕ) : ℤ) := by
    rw [hr.visible]
    omega
  have hdisplay := hr.display.pos_iff
  unfold Spec.settleResting Flat.afterDecrement Flat.lessResting Spec.reduceOrder
  dsimp only
  -- The same three cases as after a fill.
  by_cases h0 : r'.remainingQty - n = 0
  · have hzero : r.remainingQty - n = 0 := by omega
    rw [if_pos h0, if_pos hzero]
    exact ⟨hq, .mark t rfl⟩
  have hpos : r.remainingQty - n ≠ 0 := by omega
  by_cases hv : r'.visibleQty - n = 0 ∧ r'.displayQty.isSome = true
  · rw [if_neg h0, if_pos hv, if_neg hpos, if_pos ⟨by omega, hdisplay.mpr hv.2⟩]
    exact ⟨List.rel_append hq (.cons (hr.reload hn h0 hv.2) .nil),
      (Tells.tick t).trans (.mark _ rfl)⟩
  · have hlt := hr.lt_of_stays hn h0 hv
    rw [if_neg h0, if_neg hv, if_neg hpos, if_neg (by omega)]
    exact ⟨.cons (hr.less hlt) hq, .refl t⟩

/-- What a turn with the first order of a queue does in the specification, and in the C++ engine. -/
structure Turn (p : ℕ) (inc' r' : Spec.Order) (qs : List Spec.Order) (t : Tape) (m : Spec.Meeting)
    (x : Cpp.Order × List Cpp.Order × Tape) : Prop where
  changed : Changed inc' m.incoming
  incoming : Stands m.incoming x.1
  queue : Queues p m.queue x.2.1
  tells : Tells m.trades t x.2.2
  paid : m.trades.length + m.incoming.remainingQty ≤ inc'.remainingQty
  less : Done m.incoming ∨ weight m.queue < weight (r' :: qs)

/-- The incoming order, with less left of it. -/
theorem Stands.less {n : ℕ} (hi : Stands inc' inc) (hn : n ≤ inc'.remainingQty)
    {st : Spec.OrderStatus} {st' : Cpp.OrderStatus} {v : ℤ}
    (hst : st' = .CANCELLED ↔ st = .cancelled) :
    Stands { inc' with remainingQty := inc'.remainingQty - n, status := st }
      { inc with remainingQty := inc.remainingQty - n, visibleQty := v, status := st' } where
  id := hi.id
  side := hi.side
  type := hi.type
  tif := hi.tif
  price := hi.price
  stopPrice := hi.stopPrice
  quantity := hi.quantity
  remaining := by
    change inc.remainingQty - n = ((inc'.remainingQty - n : ℕ) : ℤ)
    rw [hi.remaining]
    omega
  minQty := hi.minQty
  display := hi.display
  postOnly := hi.postOnly
  group := hi.group
  policy := hi.policy
  paired := hi.paired
  cancelled := hst
  small := (Nat.sub_le _ _).trans hi.small

/-- The incoming order, cancelled. -/
theorem Stands.cancel (hi : Stands inc' inc) :
    Stands { inc' with status := .cancelled } { inc with status := .CANCELLED } :=
  ⟨hi.id, hi.side, hi.type, hi.tif, hi.price, hi.stopPrice, hi.quantity, hi.remaining, hi.minQty,
    hi.display, hi.postOnly, hi.group, hi.policy, hi.paired, iff_of_true rfl rfl, hi.small⟩

variable (tm) in
/-- A turn with an order that conflicts. -/
theorem turn_selfTrade {rest : List Cpp.Order} (hi : Stands inc' inc) (hr : Rests p r' r)
    (hq : Queues p qs rest) (hrem : inc'.remainingQty ≠ 0)
    (hc : Spec.selfTradeConflict inc' r' = true) (t : Tape) :
    Turn p inc' r' qs t (Spec.meetResting inc' r' p qs tm) ((Flat.handleStp inc r t).1,
      (Flat.handleStp inc r t).2.1.requeue rest, (Flat.handleStp inc r t).2.2) := by
  have hshown := hr.shown
  have hle := hr.shown_le
  have hcons := weight_cons r' qs
  have hpolicy := hi.policy
  have hmin : min inc.remainingQty r.visibleQty =
      ((min inc'.remainingQty r'.visibleQty : ℕ) : ℤ) := by
    rw [hi.remaining, hr.visible]
    omega
  -- A conflict is one only when the incoming order has a policy.
  obtain ⟨pol, hpol⟩ : ∃ pol, inc'.stpPolicy = some pol := by
    unfold Spec.selfTradeConflict at hc
    simp only [Bool.and_eq_true] at hc
    exact Option.isSome_iff_exists.mp hc.1.1
  have hget : inc'.stpPolicy.getD .cancelNewest = pol := by
    rw [hpol]
    rfl
  unfold Spec.meetResting Flat.handleStp
  rw [hpol] at hpolicy
  rw [if_pos hc, hget, hpolicy]
  cases pol with
  | cancelNewest =>
    exact ⟨rfl, hi.cancel, .cons hr hq, .mark t rfl, (Nat.zero_add _).le, .inl (.inr rfl)⟩
  | cancelOldest =>
    exact ⟨.refl _, hi, hq, (Tells.mark t rfl).trans (.mark _ rfl), (Nat.zero_add _).le,
      .inr (by dsimp only; omega)⟩
  | cancelBoth =>
    exact ⟨rfl, hi.cancel, hq, ((Tells.mark t rfl).trans (.mark _ rfl)).trans (.mark _ rfl),
      (Nat.zero_add _).le, .inl (.inr rfl)⟩
  -- The smaller of the two quantities, as a number and as an integer.
  | decrement =>
    have hpos : 0 < min inc'.remainingQty r'.visibleQty :=
      lt_min (Nat.pos_of_ne_zero hrem) hshown
    have hn := min_le_right inc'.remainingQty r'.visibleQty
    have hn' := min_le_left inc'.remainingQty r'.visibleQty
    dsimp only [policyOf, Flat.decrement]
    rw [hmin, if_neg (Nat.ne_of_gt hpos)]
    obtain ⟨hqueue, htells⟩ := afterDecrement_settles tm hr hn hq (t.event
      (.onOrderDecremented (Flat.lessIncoming inc (min inc'.remainingQty r'.visibleQty : ℕ))
        (Flat.lessResting r (min inc'.remainingQty r'.visibleQty : ℕ))
        (min inc'.remainingQty r'.visibleQty : ℕ)))
    refine ⟨rfl, hi.less hn' ?_, hqueue, (Tells.mark t rfl).trans htells, ?_,
      .inr (weight_settleResting hpos (hn.trans hle))⟩
    · have hzero : inc.remainingQty - (min inc'.remainingQty r'.visibleQty : ℕ) = 0 ↔
          inc'.remainingQty - min inc'.remainingQty r'.visibleQty = 0 := by
        rw [hi.remaining]
        omega
      by_cases h0 : inc'.remainingQty - min inc'.remainingQty r'.visibleQty = 0
      · rw [if_pos (hzero.mpr h0), if_pos h0]
        exact iff_of_true rfl rfl
      · rw [if_neg (mt hzero.mp h0), if_neg h0]
        exact hi.cancelled
    · exact (Nat.zero_add _).le.trans (Nat.sub_le _ _)

variable (tm) in
/-- A turn with an order that does not conflict. -/
theorem turn_fill {rest : List Cpp.Order} {contra : Levels} {x : Cpp.Order × Cpp.Fate × Tape}
    (hp : 0 < p) (hi : Stands inc' inc) (hr : Rests p r' r) (hq : Queues p qs rest)
    (hc : ¬ Spec.selfTradeConflict inc' r' = true) (hx : Flat.fill contra inc r t = some x) :
    Turn p inc' r' qs t (Spec.meetResting inc' r' p qs tm) (x.1, x.2.1.requeue rest, x.2.2) := by
  have hshown := hr.shown
  have hle := hr.shown_le
  have hmin : min inc.remainingQty r.visibleQty =
      ((min inc'.remainingQty r'.visibleQty : ℕ) : ℤ) := by
    rw [hi.remaining, hr.visible]
    omega
  unfold Flat.fill at hx
  dsimp only at hx
  rw [hmin] at hx
  split at hx
  · rename_i hpos
    cases hx
    have hpos : 0 < min inc'.remainingQty r'.visibleQty := Int.natCast_pos.mp hpos
    have hn := min_le_right inc'.remainingQty r'.visibleQty
    have hn' := min_le_left inc'.remainingQty r'.visibleQty
    unfold Spec.meetResting
    rw [if_neg hc, if_neg (Nat.ne_of_gt hshown)]
    obtain ⟨hqueue, htells⟩ := afterFill_settles tm hr hn hq
      (t.record contra (min inc'.remainingQty r'.visibleQty : ℕ) inc r)
    -- The trade of the one is that of the other, in every fact that both record.
    have htrade : Tells [Spec.fillTrade inc' r' p (min inc'.remainingQty r'.visibleQty)] t
        (t.record contra (min inc'.remainingQty r'.visibleQty : ℕ) inc r) := by
      have hfacts : facts ⟨t.tid, r.price, (min inc'.remainingQty r'.visibleQty : ℕ), inc.id, r.id,
          inc.side, t.now⟩ =
            factsOf (Spec.fillTrade inc' r' p (min inc'.remainingQty r'.visibleQty)) := by
        unfold facts factsOf Spec.fillTrade
        dsimp only
        rw [hr.price, hi.id, hr.id, hi.side]
      refine ⟨?_, ⟨[_], rfl, congrArg (fun y => [y]) hfacts⟩, ?_, rfl, rfl⟩
      swap
      · exact List.forall_mem_singleton.mpr hp
      unfold Tape.record
      rw [Cpp.executed_append, List.map_append]
      exact congrArg (_ ++ [·]) hfacts
    refine ⟨rfl, hi.less hn' hi.cancelled, hqueue, htrade.trans htells, ?_,
      .inr (weight_settleResting hpos (hn.trans hle))⟩
    change 1 + (inc'.remainingQty - min inc'.remainingQty r'.visibleQty) ≤ inc'.remainingQty
    omega
  · cases hx

end Turns

end MatchingEngine.Simulation
