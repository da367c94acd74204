import MatchingEngine.Cpp.PreCheck
import MatchingEngine.Simulation.Matching

/-!
# One order

What an order does up to the stops that its trades may trigger: the checks, the matching, and what
becomes of the remainder. `execute` of the specification and the phases of `processActive` do the
same to the books.

The checks read the levels in the same order and stop at the same order (`fokCheck_eq`,
`minQtyCheck_iff`, `wouldCross_eq`). `matchOrd_simulates` is the matching, and `settle_simulates`
what becomes of the remainder: filled, cancelled, or rested. `execute_simulates` and
`postOnly_simulates` put the pieces together for one order. The C++ engine has written its trades
into the buffer by then and has told of none of them.
-/

namespace MatchingEngine.Simulation

open Cpp (Levels Tape Flat)
open Spec (PriceLevel BookState MatchResult)

/-- What of an order decides how it goes through the pipeline. -/
structure Fit (o : Spec.Order) : Prop where
  status : o.status ≠ .cancelled
  remaining : 0 < o.remainingQty
  qty : 0 < o.qty
  qty_le : o.qty ≤ most
  minQty : ∀ k ∈ o.minQty, k ≤ most
  limit : o.orderType = .limit ∨ o.orderType = .stopLimit → o.price.isSome = true
  market : o.orderType = .stopMarket → o.price = none
  fok : o.tif = .fok → o.minQty = none ∧ o.orderType ≠ .marketToLimit
  postOnly : o.postOnly = true → o.orderType = .limit

/-- A dormant stop. -/
structure Sleeps (o' : Spec.Order) (o : Cpp.Order) : Prop where
  stands : Stands o' o
  fit : Fit o'
  stop : o'.orderType.isStop = true
  wakes : o'.stopPrice.isSome = true

/-- The dormant stops, which both can tell apart by the time: those of the C++ engine are in no
order. -/
def Dormant (os' : List Spec.Order) (os : List Cpp.Order) : Prop :=
  ∃ sorted, sorted.Perm os ∧ sorted.Pairwise (fun a b => a.timestamp < b.timestamp) ∧
    os'.Pairwise (fun a b => a.timestamp < b.timestamp) ∧ List.Forall₂ Sleeps os' sorted

/-- The books and the dormant stops. -/
structure Same (b : BookState) (f : Flat) : Prop where
  sides : ∀ s, Sides (Spec.contraLevels b s) (f.side (Cpp.oppositeSide (sideOf s)))
  sorted : ∀ s, (f.side s).Pairwise fun l l' => Cpp.better s l.1 l'.1 = true
  stops : Dormant b.stops f.stops
  poPol : f.tape.poPol = .REJECT

section Books

variable {b : BookState} {f f' : Flat} {o' : Spec.Order} {o : Cpp.Order} {t : Tape}
  {ls : List PriceLevel} {m : Levels}

/-- What else the engine writes is in no book. -/
theorem Same.withTape (h : Same b f) (ht : t.poPol = .REJECT) : Same b (f.withTape t) :=
  ⟨fun s => by cases s <;> exact h.sides _, fun s => by cases s <;> exact h.sorted _, h.stops, ht⟩

/-- What is not the books and the stops. -/
theorem Same.congr (h : Same b f) (b' : BookState) (hbids : b'.bids = b.bids)
    (hasks : b'.asks = b.asks) (hstops : b'.stops = b.stops) : Same b' f where
  sides s := by
    have hs := h.sides s
    cases s
    · rw [show Spec.contraLevels b' .buy = Spec.contraLevels b .buy from hasks]
      exact hs
    · rw [show Spec.contraLevels b' .sell = Spec.contraLevels b .sell from hbids]
      exact hs
  sorted := h.sorted
  stops := hstops ▸ h.stops
  poPol := h.poPol

/-- What matching leaves of the other side is written. -/
theorem Same.setContra (h : Same b f) (s : Spec.Side) (hm : Sides ls m)
    (hsorted : m.Pairwise fun l l' => Cpp.better (Cpp.oppositeSide (sideOf s)) l.1 l'.1 = true) :
    Same (Spec.setContraLevels b s ls) (f.setSide (Cpp.oppositeSide (sideOf s)) m) where
  sides s' := by
    have hs := h.sides s'
    cases s <;> cases s' <;> first | exact hm | exact hs
  sorted s' := by
    have hs := h.sorted s'
    cases s <;> cases s' <;> first | exact hsorted | exact hs
  stops := by cases s <;> exact h.stops
  poPol := by cases s <;> exact h.poPol

/-! ## Matching -/

/-- The results of the matching of an order. -/
structure Matched (b : BookState) (f : Flat) (o' : Spec.Order) (mr : MatchResult)
    (x : Cpp.Order × Flat) : Prop where
  changed : Changed o' mr.incoming
  incoming : Stands mr.incoming x.1
  same : Same (b.afterMatch o'.side mr) x.2
  tells : Tells mr.trades f.tape x.2.tape
  paid : mr.trades.length + mr.incoming.remainingQty ≤ o'.remainingQty

/-- The matching loop of the engine does what that of the specification does, as soon as the latter
has the fuel. -/
theorem matchOrd_simulates {x : Cpp.Order × Flat} {fuel : ℕ} (tm : ℕ) (h : Same b f)
    (ho : Stands o' o)
    (hst : o'.status ≠ .cancelled)
    (hfuel : Spec.sideProcessMeasure (Spec.contraLevels b o'.side) < fuel)
    (hx : Flat.matchOrd o f = some x) :
    Matched b f o' (Spec.doMatch fuel o' (Spec.contraLevels b o'.side) [] tm) x := by
  have hsorted := h.sorted (Cpp.oppositeSide (sideOf o'.side))
  unfold Flat.matchOrd at hx
  rw [ho.side] at hx
  obtain ⟨⟨o₁, m, t⟩, hm, rfl⟩ := Option.map_eq_some_iff.mp hx
  obtain ⟨ts, hts, hend⟩ := matchLevels_simulates (h.sides o'.side) _ _ _ hm o' [] tm fuel ho hst
    (.inr hfuel)
  rw [List.nil_append] at hts
  rw [← hts] at hend
  have hprices : (m.map (·.1)).Pairwise
      fun p p' => Cpp.better (Cpp.oppositeSide (sideOf o'.side)) p p' = true :=
    (List.pairwise_map.mpr hsorted).sublist hend.prices
  have hsame := h.setContra o'.side hend.side (List.pairwise_map.mp hprices)
  refine ⟨hend.changed, hend.incoming, ?_, hend.tells, hend.paid⟩
  exact (hsame.congr (b.afterMatch o'.side _) rfl rfl rfl).withTape
    (hend.tells.poPol.trans h.poPol)

/-! ## The checks -/

/-- The sum of `availQty` over a queue. -/
theorem availQueue_simulates {p thresh : ℕ} {qs : List Spec.Order} {q : List Cpp.Order}
    (ho : Stands o' o) (hthresh : thresh ≤ most) (hq : Queues p qs q) : ∀ a : ℕ, a < thresh → ∃ y,
      Flat.availQueue o thresh q a = y ∧ (if y.2 then (thresh : ℤ) ≤ y.1 ∧ thresh ≤ a +
        ((qs.filter fun r => ¬ Spec.selfTradeConflict o' r).map Spec.Order.visibleQty).sum
      else y.1 = (a + ((qs.filter fun r => ¬ Spec.selfTradeConflict o' r).map
        Spec.Order.visibleQty).sum : ℕ) ∧
        a + ((qs.filter fun r => ¬ Spec.selfTradeConflict o' r).map Spec.Order.visibleQty).sum <
          thresh) := by
  induction hq with
  | nil => exact fun a ha => ⟨_, rfl, rfl, ha⟩
  | @cons r' r qs q hr hq ih =>
    intro a ha
    have hmost : most = 4611686018427387904 := rfl
    have hle := hr.shown_le.trans hr.small
    -- The sum does not wrap, since it is below the threshold and every quantity is small.
    have hwrap : Cpp.wrap64 (a + r.visibleQty) = ((a + r'.visibleQty : ℕ) : ℤ) := by
      rw [hr.visible, Cpp.InRange.wrap64]
      · omega
      · exact ⟨by omega, by omega⟩
    unfold Flat.availQueue
    rw [conflict_eq ho hr, hwrap]
    -- Neither counts an order of the group, and the scan stops at the threshold.
    by_cases hc : Spec.selfTradeConflict o' r' = true
    · rw [if_pos hc, List.filter_cons_of_neg (by simpa using hc)]
      exact ih a ha
    · rw [if_neg hc, List.filter_cons_of_pos (by simpa using hc), List.map_cons, List.sum_cons]
      by_cases hge : thresh ≤ a + r'.visibleQty
      · rw [if_pos (Int.ofNat_le.mpr hge)]
        exact ⟨_, rfl, Int.ofNat_le.mpr hge, by omega⟩
      · rw [if_neg (mt Int.ofNat_le.mp hge)]
        obtain ⟨y, hy, hsum⟩ := ih (a + r'.visibleQty) (by omega)
        rw [← Nat.add_assoc]
        exact ⟨y, hy, hsum⟩

/-- The liquidity checks are those of the specification. -/
theorem availLevels_simulates {thresh : ℕ} (ho : Stands o' o) (hthresh : thresh ≤ most)
    (hm : Sides ls m)
    (hsorted : m.Pairwise fun l l' => Cpp.better (Cpp.oppositeSide o.side) l.1 l'.1 = true) :
    ∀ a : ℕ, a < thresh →
      ((thresh : ℤ) ≤ Flat.availLevels o thresh m a ↔ thresh ≤ a + Spec.availableQty o' ls) := by
  induction hm with
  | nil =>
    intro a ha
    exact Int.ofNat_le
  | @cons l l' ls m hl hm ih =>
    intro a ha
    obtain ⟨_, q⟩ := l'
    obtain ⟨rfl, -, -, hq⟩ := hl
    obtain ⟨hbehind, hsorted⟩ := List.pairwise_cons.mp hsorted
    have hsum : Spec.availableQty o' (l :: ls) = (if Spec.canMatchPrice o' l.price then
        ((l.orders.filter fun r => ¬ Spec.selfTradeConflict o' r).map Spec.Order.visibleQty).sum
        else 0) + Spec.availableQty o' ls := rfl
    unfold Flat.availLevels
    dsimp only
    rw [canMatch_eq ho, hsum]
    by_cases hcan : Spec.canMatchPrice o' l.price = true
    · obtain ⟨⟨x, full⟩, hy, hx⟩ := availQueue_simulates ho hthresh hq a ha
      rw [if_pos hcan, if_pos hcan, hy]
      cases full with
      | true =>
        obtain ⟨hx, hle⟩ := hx
        exact iff_of_true hx (by omega)
      | false =>
        obtain ⟨hx, hlt⟩ := hx
        dsimp only at hx ⊢
        rw [hx, ih hsorted _ hlt, Nat.add_assoc]
    · rw [if_neg hcan, if_neg hcan]
      -- No level behind one that is not within the limit is.
      have hnone : Spec.availableQty o' ls = 0 := by
        have hstop : Cpp.canMatch o l.price = false :=
          (canMatch_eq ho l.price).trans (Bool.eq_false_iff.mpr hcan)
        have hno : ∀ x ∈ ls, Spec.canMatchPrice o' x.price = false := by
          intro x hx
          obtain ⟨y, hy, hxy⟩ := exists_mem_of_mem hm hx
          rw [← canMatch_eq ho, ← hxy.1]
          exact Cpp.Flat.canMatch_behind hstop (hbehind y hy)
        unfold Spec.availableQty
        refine List.sum_eq_zero fun n hn => ?_
        obtain ⟨x, hx, rfl⟩ := List.mem_map.mp hn
        exact if_neg (Bool.eq_false_iff.mp (hno x hx))
      rw [hnone]
      exact Int.ofNat_le

/-- The check of a fill-or-kill order. No quantity is so large that the sum would wrap. -/
theorem fokCheck_eq (h : Same b f) (ho : Stands o' o) (hfit : Fit o') :
    Flat.fokCheck o f = Spec.fokCheck o' b := by
  have hsorted := h.sorted (Cpp.oppositeSide o.side)
  have hiff := availLevels_simulates ho hfit.qty_le (h.sides o'.side) (by rwa [← ho.side]) 0
    hfit.qty
  unfold Flat.fokCheck Spec.fokCheck
  rw [ho.quantity, ho.side]
  rw [Nat.zero_add] at hiff
  exact decide_eq_decide.mpr hiff

/-- The check of a minimum, which only an order with one is asked for. -/
theorem minQtyCheck_iff (h : Same b f) (ho : Stands o' o) (hfit : Fit o') :
    (0 < o.minQty ∧ ¬ Flat.minQtyCheck o f = true) ↔
      (o'.minQty.isSome = true ∧ ¬ Spec.minQtyCheck o' b = true) := by
  rw [ho.minQty.pos_iff]
  refine and_congr_right fun hsome => not_congr ?_
  obtain ⟨k, hk⟩ := Option.isSome_iff_exists.mp hsome
  have hmin := ho.minQty
  rw [hk] at hmin
  obtain ⟨hmin, hpos⟩ := hmin.some
  have hsorted := h.sorted (Cpp.oppositeSide o.side)
  have hiff := availLevels_simulates ho (hfit.minQty k hk) (h.sides o'.side) (by rwa [← ho.side]) 0
    hpos
  unfold Flat.minQtyCheck Spec.minQtyCheck
  rw [hk, hmin, ho.side]
  rw [Nat.zero_add] at hiff
  exact decide_eq_true_iff.trans (hiff.trans decide_eq_true_iff.symm)

/-- The same post-only orders would cross. -/
theorem wouldCross_eq (h : Same b f) (ho : Stands o' o) (hprice : o'.price.isSome = true) :
    Flat.wouldCross o f = Spec.wouldCross o' b := by
  have hside := h.sides o'.side
  obtain ⟨p, hp⟩ := Option.isSome_iff_exists.mp hprice
  have hgiven := ho.price
  rw [hp] at hgiven
  obtain ⟨hgiven, -⟩ := hgiven.some
  unfold Flat.wouldCross Spec.wouldCross
  rw [ho.side, hgiven, hp]
  -- The best price of the other side decides.
  cases hs : o'.side with
  | buy =>
    rw [hs] at hside
    change Sides b.asks f.asks at hside
    unfold Spec.bestAskPrice
    dsimp only [sideOf]
    revert hside
    generalize b.asks = ls
    generalize f.asks = m
    intro hside
    cases hside with
    | nil => rfl
    | cons hl _ =>
      dsimp only
      rw [hl.1]
      exact decide_eq_decide.mpr Int.ofNat_le
  | sell =>
    rw [hs] at hside
    change Sides b.bids f.bids at hside
    unfold Spec.bestBidPrice
    dsimp only [sideOf]
    revert hside
    generalize b.bids = ls
    generalize f.bids = m
    intro hside
    cases hside with
    | nil => rfl
    | cons hl _ =>
      dsimp only
      rw [hl.1]
      exact decide_eq_decide.mpr Int.ofNat_le

/-! ## What is left of an order -/

/-- An order queues up at its price in both. -/
theorem enqueue_simulates {p : ℕ} (side : Cpp.Side) (first : ℕ → ℕ → Bool) (hm : Sides ls m)
    (ho : Rests p o' o) (hp : 0 < p)
    (hfirst : ∀ x : ℕ, first p x = Cpp.better side p x) :
    Sides (Spec.insertBy first ls o' p) (Cpp.enqueue side o m) := by
  induction hm with
  | nil => exact .cons ⟨ho.price, hp, List.cons_ne_nil _ _, .cons ho .nil⟩ .nil
  | @cons l l' ls m hl hm ih =>
    obtain ⟨_, q⟩ := l'
    obtain ⟨rfl, hpos, hne, hq⟩ := hl
    unfold Spec.insertBy Cpp.enqueue
    rw [ho.price, hfirst]
    by_cases hbetter : Cpp.better side p l.price = true
    · rw [if_pos hbetter, if_pos hbetter]
      exact .cons ⟨rfl, hp, List.cons_ne_nil _ _, .cons ho .nil⟩ (.cons ⟨rfl, hpos, hne, hq⟩ hm)
    · rw [if_neg hbetter, if_neg hbetter]
      by_cases hsame : p = l.price
      · rw [if_pos hsame, if_pos (congrArg _ hsame)]
        have ho : Rests l.price o' o := hsame ▸ ho
        exact .cons ⟨rfl, hpos, List.append_ne_nil_of_right_ne_nil _ (List.cons_ne_nil _ _),
          List.rel_append hq (.cons ho .nil)⟩ hm
      · rw [if_neg hsame, if_neg (mt Int.natCast_inj.mp hsame)]
        exact .cons ⟨rfl, hpos, hne, hq⟩ ih

/-- An order as it rests. -/
theorem Stands.rests {p : ℕ} (hasTrades : Bool) (st : Cpp.OrderStatus) (ho : Stands o' o)
    (hp : o'.price = some p) (hrem : o'.remainingQty ≠ 0) :
    Rests p (Spec.restingForm o' hasTrades)
      { o with visibleQty := o.shown o.remainingQty, status := st } := by
  have hprice := ho.price
  rw [hp] at hprice
  have hdisplay := ho.display
  -- What it shows: all of it, or the slice of an iceberg.
  have hvisible : o.shown o.remainingQty = ((Spec.restingForm o' hasTrades).visibleQty : ℤ) ∧
      0 < (Spec.restingForm o' hasTrades).visibleQty ∧
      (Spec.restingForm o' hasTrades).visibleQty ≤ o'.remainingQty ∧
      (o'.displayQty = none → (Spec.restingForm o' hasTrades).visibleQty = o'.remainingQty) := by
    unfold Cpp.Order.shown Spec.restingForm
    rw [ho.remaining]
    cases hd : o'.displayQty with
    | none =>
      rw [hd] at hdisplay
      rw [hdisplay.none]
      dsimp only
      exact ⟨rfl, Nat.pos_of_ne_zero hrem, le_refl _, fun _ => rfl⟩
    | some d =>
      rw [hd] at hdisplay
      obtain ⟨hdq, hdpos⟩ := hdisplay.some
      rw [hdq, if_pos (Int.natCast_pos.mpr hdpos)]
      dsimp only
      refine ⟨by omega, lt_min hdpos (Nat.pos_of_ne_zero hrem), min_le_right _ _, fun hx => ?_⟩
      cases hx
  exact ⟨ho.id, hprice.some.1, ho.remaining, hvisible.1, ho.display, ho.group, hvisible.2.1,
    hvisible.2.2.1, hvisible.2.2.2, ho.small⟩

/-- An order on its side of the book. -/
theorem insertOrder_simulates {p : ℕ} {hasTrades : Bool} (h : Same b f) (hp : o'.price = some p)
    (hpos : 0 < p) (ho : Rests p (Spec.restingForm o' hasTrades) o) :
    Same (Spec.insertOrder b o' hasTrades) (f.setSide (sideOf o'.side)
      (Cpp.enqueue (sideOf o'.side) o (f.side (sideOf o'.side)))) := by
  have hsorted := Cpp.sorted_enqueue (o := o) (h.sorted (sideOf o'.side))
  revert hsorted
  unfold Spec.insertOrder
  rw [hp]
  cases o'.side with
  | buy =>
    intro hsorted
    have hside := enqueue_simulates .BUY (fun p q => q < p) (h.sides .sell) ho
      hpos fun x => decide_eq_decide.mpr Int.ofNat_lt.symm
    exact h.setContra .sell hside hsorted
  | sell =>
    intro hsorted
    have hside := enqueue_simulates .SELL (fun p q => p < q) (h.sides .buy) ho
      hpos fun x => decide_eq_decide.mpr Int.ofNat_lt.symm
    exact h.setContra .buy hside hsorted

/-- An order that comes to rest. -/
theorem rest_simulates {p : ℕ} (hasTrades : Bool) (st : Cpp.OrderStatus) (h : Same b f)
    (ho : Stands o' o) (hp : o'.price = some p) (hrem : o'.remainingQty ≠ 0) :
    Same (Spec.insertOrder b o' hasTrades) (Flat.rest o st f) ∧
      Tells [] f.tape (Flat.rest o st f).tape := by
  have hprice := ho.price
  rw [hp] at hprice
  have hset := insertOrder_simulates h hp hprice.some.2
    (ho.rests hasTrades st hp hrem)
  rw [← ho.side] at hset
  exact ⟨hset.withTape h.poPol, .mark _ rfl⟩

/-- What is done with is not rested. -/
theorem dispose_done {ts : List Spec.Trade} (h : Done o') : Spec.dispose o' b ts = b := if_pos h

/-- What is left of an order that goes on is dropped or rests. -/
theorem dispose_going {ts : List Spec.Trade} (h : ¬ Done o') : Spec.dispose o' b ts =
    if o'.tif = .ioc then b else if o'.orderType = .market then b
      else Spec.insertOrder b o' (!ts.isEmpty) := if_neg h

/-- What becomes of the remainder. The remainder of a fill-or-kill order is nothing. -/
theorem settle_simulates {d : Option Cpp.Order} {hasTr : Bool} (ts : List Spec.Trade) (h : Same b f)
    (ho : Stands o' o) (hprice : o'.orderType ≠ .market → o'.price.isSome = true)
    (hx : Flat.settle o hasTr f = some (d, f')) :
    Same (Spec.dispose o' b ts) f' ∧ Tells [] f.tape f'.tape ∧ (o'.tif = .fok → Done o') := by
  have htype : o.orderType = .MARKET ↔ o'.orderType = .market := by
    rw [ho.type]
    cases o'.orderType <;> decide
  have hrem : o.remainingQty = 0 ↔ o'.remainingQty = 0 := by
    rw [ho.remaining]
    exact Int.natCast_eq_zero
  have htif := ho.tif
  have hgone : ∀ reason, Same b (Flat.cancelIn o reason f).2 ∧
      Tells [] f.tape (Flat.cancelIn o reason f).2.tape := fun reason =>
    ⟨h.withTape h.poPol, .mark _ rfl⟩
  unfold Flat.settle at hx
  by_cases hdone : Done o'
  · have hsame : f' = f := by
      split at hx
      · rename_i hst
        have h0 := hrem.mpr (hdone.resolve_right (mt ho.cancelled.mpr hst))
        unfold Flat.dispose at hx
        rw [if_pos h0] at hx
        exact (Prod.mk.inj (Option.some.inj hx)).2.symm
      · exact (Prod.mk.inj (Option.some.inj hx)).2.symm
    rw [dispose_done hdone, hsame]
    exact ⟨h, .refl _, fun _ => hdone⟩
  · obtain ⟨hne, hst⟩ := not_or.mp hdone
    rw [dispose_going hdone]
    rw [if_pos (mt ho.cancelled.mp hst)] at hx
    unfold Flat.dispose at hx
    rw [if_neg (mt hrem.mp hne), htif] at hx
    -- What rests, once the order is neither immediate nor a market order.
    have hrest : o'.tif ≠ .ioc → o'.tif ≠ .fok → (if o.orderType = .MARKET then
        some ((Flat.cancelIn o "MARKET_NO_FULL_FILL" f).map some id) else
        some (none, Flat.rest o (if hasTr then .PARTIALLY_FILLED else .NEW) f)) = some (d, f') →
        Same (if o'.tif = .ioc then b else if o'.orderType = .market then b
          else Spec.insertOrder b o' (!ts.isEmpty)) f' ∧ Tells [] f.tape f'.tape ∧
          (o'.tif = .fok → Done o') := by
      intro hioc hfok hx
      rw [if_neg hioc]
      by_cases hm : o'.orderType = .market
      · rw [if_pos (htype.mpr hm)] at hx
        rw [if_pos hm]
        cases hx
        exact ⟨(hgone _).1, (hgone _).2, fun hf => absurd hf hfok⟩
      · obtain ⟨p, hp⟩ := Option.isSome_iff_exists.mp (hprice hm)
        rw [if_neg (mt htype.mp hm)] at hx
        rw [if_neg hm]
        cases hx
        obtain ⟨hsame, htells⟩ := rest_simulates (!ts.isEmpty)
          (if hasTr then .PARTIALLY_FILLED else .NEW) h ho hp hne
        exact ⟨hsame, htells, fun hf => absurd hf hfok⟩
    cases hf : o'.tif with
    | gtc =>
      rw [hf] at hx hrest
      exact hrest (by decide) (by decide) hx
    | day =>
      rw [hf] at hx hrest
      exact hrest (by decide) (by decide) hx
    | ioc =>
      rw [hf] at hx
      cases hx
      exact ⟨(hgone _).1, (hgone _).2, fun hx => by cases hx⟩
    | fok =>
      rw [hf] at hx
      cases hx

/-! ## An order up to its own trades -/

/-- The results of an order up to the stops that its trades may trigger. -/
structure Executed (b : BookState) (f : Flat) (o' : Spec.Order) (out : Spec.ProcessResult)
    (f' : Flat) : Prop where
  same : Same out.book f'
  tells : Tells out.trades f.tape f'.tape
  paid : out.trades.length ≤ o'.remainingQty
  stops : out.book.stops = b.stops
  lastPx : out.book.lastTradePrice =
    (out.trades.getLast?.map Spec.Trade.price).or b.lastTradePrice

/-- A trade was made. -/
theorem Tells.traded_iff {ts : List Spec.Trade} {t t' : Tape} (h : Tells ts t t') :
    t.trades.length < t'.trades.length ↔ ts ≠ [] := by
  obtain ⟨new, hbuffer, hnew⟩ := h.buffer
  have hlen := congrArg List.length hnew
  rw [List.length_map, List.length_map] at hlen
  rw [hbuffer, List.length_append, hlen, ← List.length_pos_iff]
  omega

/-- A minimum quantity is met by the first trade. -/
theorem Changed.stands_minQty {inc' : Spec.Order} {inc : Cpp.Order} (hi : Stands inc' inc)
    (hc : Changed o' inc') (ts : List Spec.Trade) :
    Stands (if o'.minQty.isSome = true ∧ ¬ ts.isEmpty = true then { inc' with minQty := none }
        else inc')
      { inc with
        minQty := if 0 < inc.minQty ∧ (!ts.isEmpty) = true then 0 else inc.minQty } := by
  have hsame : o'.minQty = inc'.minQty := by
    rw [hc]
  have hiff : (0 < inc.minQty ∧ (!ts.isEmpty) = true) ↔
      (o'.minQty.isSome = true ∧ ¬ ts.isEmpty = true) := by
    rw [hi.minQty.pos_iff, hsame, Bool.not_eq_true', Bool.not_eq_true]
  by_cases h : o'.minQty.isSome = true ∧ ¬ ts.isEmpty = true
  · rw [if_pos h, if_pos (hiff.mpr h)]
    exact ⟨hi.id, hi.side, hi.type, hi.tif, hi.price, hi.stopPrice, hi.quantity, hi.remaining,
      ⟨fun hx => (by cases hx), rfl⟩, hi.display, hi.postOnly, hi.group, hi.policy, hi.paired,
      hi.cancelled, hi.small⟩
  · rw [if_neg h, if_neg (mt hiff.mp h)]
    exact hi

/-- The fuel that the specification starts with is more than the loop needs. -/
theorem lt_computeMatchFuel (b : BookState) (side : Spec.Side) :
    Spec.sideProcessMeasure (Spec.contraLevels b side) < Spec.computeMatchFuel b side := by
  rw [computeMatchFuel_eq]
  exact Nat.lt_succ_self _

/-- The book after its trades have been noted. -/
theorem Same.afterTrades (h : Same b f) (ts : List Spec.Trade) : Same (b.afterTrades ts) f :=
  h.congr _ rfl rfl rfl

/-- What is done with the rest of an order wakes no stop. -/
theorem stops_dispose (o' : Spec.Order) (b : BookState) (ts : List Spec.Trade) :
    (Spec.dispose o' b ts).stops = b.stops ∧
      (Spec.dispose o' b ts).lastTradePrice = b.lastTradePrice := by
  unfold Spec.dispose Spec.insertOrder
  split
  · exact ⟨rfl, rfl⟩
  · split
    · exact ⟨rfl, rfl⟩
    · split
      · exact ⟨rfl, rfl⟩
      · cases o'.side <;> exact ⟨rfl, rfl⟩

/-- A match wakes no stop before its trades are reported. -/
theorem stops_afterMatch (b : BookState) (s : Spec.Side) (mr : MatchResult) :
    (b.afterMatch s mr).stops = b.stops ∧
      (b.afterMatch s mr).lastTradePrice = b.lastTradePrice := by
  cases s <;> exact ⟨rfl, rfl⟩

/-- Phase 4 of the types other than market-to-limit. -/
theorem matchPlain_simulates {d : Option Cpp.Order} (h : Same b f) (ho : Stands o' o)
    (hfit : Fit o') (hstop : o'.orderType.isStop = false) (hmtl : o'.orderType ≠ .marketToLimit)
    (hx : Flat.matchPlain f.tape.trades.length o f = some (d, f')) :
    ∃ inc mr, mr = Spec.matchOrder (Spec.computeMatchFuel b o'.side) b o' ∧
      inc = (if o'.minQty.isSome = true ∧ ¬ mr.trades.isEmpty = true then
        { mr.incoming with minQty := none } else mr.incoming) ∧
      (o'.tif = .fok → Done inc) ∧
      Executed b f o'
        ⟨(Spec.dispose inc (b.afterMatch o'.side mr) mr.trades).afterTrades mr.trades, mr.trades⟩
        f' := by
  obtain ⟨⟨o₁, f₁⟩, hm, hx⟩ := Option.bind_eq_some_iff.mp hx
  have hmatched := matchOrd_simulates (b.clock + 1) h ho hfit.status
    (lt_computeMatchFuel b o'.side) hm
  generalize hmr : Spec.doMatch (Spec.computeMatchFuel b o'.side) o' (Spec.contraLevels b o'.side)
    [] (b.clock + 1) = mr at hmatched
  obtain ⟨hchanged, hi, hsame, htells, hpaid⟩ := hmatched
  dsimp only at hx hi hsame htells
  -- Whether there were trades is read off the buffer by the one and off its result by the other.
  have htraded : decide (f.tape.trades.length < f₁.tape.trades.length) = !mr.trades.isEmpty := by
    rw [Bool.eq_iff_iff, decide_eq_true_iff, htells.traded_iff]
    cases mr.trades <;> simp
  rw [htraded] at hx
  have hstands := hchanged.stands_minQty hi mr.trades
  -- Dropping the minimum quantity changes no field that the rest depends on.
  have hfields : ∀ x : Spec.Order, x = (if o'.minQty.isSome = true ∧ ¬ mr.trades.isEmpty = true then
      { mr.incoming with minQty := none } else mr.incoming) →
      x.orderType = o'.orderType ∧ x.price = o'.price ∧ x.tif = o'.tif := by
    rintro x rfl
    split
    · rw [hchanged]
      exact ⟨rfl, rfl, rfl⟩
    · rw [hchanged]
      exact ⟨rfl, rfl, rfl⟩
  obtain ⟨htype, hprice, htif⟩ := hfields _ rfl
  obtain ⟨hsame', htells', hfok⟩ := settle_simulates mr.trades hsame hstands (fun hmarket => by
    rw [hprice]
    rw [htype] at hmarket
    refine hfit.limit (.inl ?_)
    revert hstop hmtl hmarket
    cases o'.orderType <;> simp [Spec.OrderType.isStop]) hx
  rw [htif] at hfok
  refine ⟨_, mr, hmr.symm, rfl, hfok, hsame'.afterTrades _, ?_, by dsimp only; omega, ?_, ?_⟩
  · have := htells.trans htells'
    rwa [List.append_nil] at this
  · exact (stops_dispose _ _ _).1.trans (stops_afterMatch _ _ _).1
  · refine congrArg (Option.or _) ?_
    exact (stops_dispose _ _ _).2.trans (stops_afterMatch _ _ _).2

/-- The order after the first pass of a market-to-limit order, with the price of its first trade. -/
theorem Stands.toLimit {inc' : Spec.Order} {inc : Cpp.Order} {p : ℕ} (hi : Stands inc' inc)
    (hp : 0 < p) :
    Stands { inc' with orderType := .limit, price := some p, minQty := none }
      { inc with
        price := p
        orderType := .LIMIT
        minQty := if 0 < inc.minQty then 0 else inc.minQty } := by
  have hmin : (if 0 < inc.minQty then 0 else inc.minQty) = 0 := by
    have hgiven := hi.minQty
    cases hx : inc'.minQty with
    | none =>
      rw [hx] at hgiven
      rw [hgiven.none]
      exact ite_self 0
    | some k =>
      rw [hx] at hgiven
      obtain ⟨hk, hpos⟩ := hgiven.some
      exact if_pos (by omega)
  rw [hmin]
  exact ⟨hi.id, hi.side, rfl, hi.tif, ⟨fun hx => by cases hx; exact absurd hp (lt_irrefl 0), rfl⟩,
    hi.stopPrice, hi.quantity, hi.remaining, ⟨fun hx => (by cases hx), rfl⟩, hi.display,
    hi.postOnly, hi.group, hi.policy, hi.paired, hi.cancelled, hi.small⟩

/-- A pass that the order is not in a state for. -/
theorem Matched.done {tm fuel : ℕ} (h : Same b f) (ho : Stands o' o) (hdone : Done o') :
    Matched b f o' (Spec.doMatch fuel o' (Spec.contraLevels b o'.side) [] tm) (o, f) := by
  rw [Spec.doMatch_done hdone]
  refine ⟨.refl _, ho, ?_, .refl _, (Nat.zero_add _).le⟩
  cases hs : o'.side <;> exact h.congr _ rfl rfl rfl

/-- The second pass of a market-to-limit order that has traded. -/
theorem toLimit_simulates {d : Option Cpp.Order} {mr : MatchResult} {t : Spec.Trade}
    {us : List Spec.Trade} {o₁ : Cpp.Order} {f₁ : Flat} {conv : Spec.Order}
    (h : Matched b f o' mr (o₁, f₁)) (hts : mr.trades = t :: us)
    (hconv : conv = { mr.incoming with
      orderType := .limit, price := some t.price, minQty := none })
    (hx : Flat.toLimit f.tape.trades.length o₁ f₁ = some (d, f')) :
    Executed b f o' (
      let b' := b.afterMatch o'.side mr
      if conv.remainingQty = 0 then ⟨b'.afterTrades mr.trades, mr.trades⟩
      else
        let mr₂ := Spec.doMatch (Spec.computeMatchFuel b' conv.side) conv
          (Spec.contraLevels b' conv.side) [] mr.clock
        let trades := mr.trades ++ mr₂.trades
        let b'' := b'.afterMatch o'.side mr₂
        ⟨(Spec.dispose mr₂.incoming b'' trades).afterTrades trades, trades⟩) f' := by
  obtain ⟨hchanged, hi, hsame, htells, hpaid⟩ := h
  dsimp only at hi hsame htells
  have hpos : 0 < t.price := htells.priced t (by rw [hts]; exact List.mem_cons_self)
  obtain ⟨tr, hget, hx⟩ := Option.bind_eq_some_iff.mp hx
  -- The new price is that of the first trade of the first pass.
  have hprice : tr.price = t.price := by
    obtain ⟨new, hbuffer, hnew⟩ := htells.buffer
    rw [hts] at hnew
    cases new with
    | nil => cases hnew
    | cons y new =>
      rw [hbuffer, List.getElem?_append_right (le_refl _), Nat.sub_self] at hget
      cases hget
      exact congrArg Prod.fst (List.cons.inj hnew).1
  rw [hprice] at hx
  have hstands := hi.toLimit hpos
  have hstops := stops_afterMatch b o'.side mr
  rw [← hconv] at hstands
  dsimp only at hx ⊢
  -- The converted order in its fields, which the second pass reads.
  have hside : conv.side = o'.side := by
    rw [hconv, hchanged]
  have hlimit : conv.orderType ≠ .market → conv.price.isSome = true := fun _ => by
    rw [hconv]
    rfl
  have hrem : conv.remainingQty = mr.incoming.remainingQty := by
    rw [hconv]
  obtain ⟨⟨o₃, f₂⟩, hpass, hx⟩ := Option.bind_eq_some_iff.mp hx
  by_cases h0 : conv.remainingQty = 0
  · have hzero : ¬ (0 < o₁.remainingQty ∧ o₁.status ≠ .CANCELLED) := by
      rw [hi.remaining, ← hrem, h0]
      exact fun hx => absurd hx.1 (lt_irrefl 0)
    rw [if_neg hzero] at hpass
    cases hpass
    obtain ⟨hsame', htells', -⟩ := settle_simulates mr.trades hsame hstands hlimit hx
    rw [dispose_done (.inl h0)] at hsame'
    rw [if_pos h0]
    refine ⟨hsame'.afterTrades _, ?_, by dsimp only; omega, hstops.1, ?_⟩
    · have := htells.trans htells'
      rwa [List.append_nil] at this
    · exact congrArg (Option.or _) hstops.2
  · have hpassed : Matched (b.afterMatch o'.side mr) f₁ conv
        (Spec.doMatch (Spec.computeMatchFuel (b.afterMatch o'.side mr) conv.side) conv
          (Spec.contraLevels (b.afterMatch o'.side mr) conv.side) [] mr.clock) (o₃, f₂) := by
      by_cases hst : conv.status = .cancelled
      · have hcancel : o₁.status = .CANCELLED := hstands.cancelled.mpr hst
        rw [if_neg fun hx => hx.2 hcancel] at hpass
        cases hpass
        exact .done hsame hstands (.inr hst)
      · have hgo : 0 < o₁.remainingQty ∧ o₁.status ≠ .CANCELLED := by
          refine ⟨?_, mt hstands.cancelled.mp hst⟩
          rw [hi.remaining]
          omega
        rw [if_pos hgo] at hpass
        exact matchOrd_simulates _ hsame hstands hst (lt_computeMatchFuel _ _) hpass
    rw [if_neg h0]
    generalize Spec.doMatch (Spec.computeMatchFuel (b.afterMatch o'.side mr) conv.side) conv
      (Spec.contraLevels (b.afterMatch o'.side mr) conv.side) [] mr.clock = mr₂ at hpassed ⊢
    obtain ⟨hchanged₂, hi₂, hsame₂, htells₂, hpaid₂⟩ := hpassed
    rw [hside] at hsame₂
    have hlimit₂ : mr₂.incoming.orderType ≠ .market → mr₂.incoming.price.isSome = true := by
      intro hm
      rw [hchanged₂] at hm ⊢
      exact hlimit hm
    obtain ⟨hsame', htells', -⟩ := settle_simulates (mr.trades ++ mr₂.trades) hsame₂ hi₂ hlimit₂ hx
    have hdispose := stops_dispose mr₂.incoming ((b.afterMatch o'.side mr).afterMatch o'.side mr₂)
      (mr.trades ++ mr₂.trades)
    have hstops₂ := stops_afterMatch (b.afterMatch o'.side mr) o'.side mr₂
    refine ⟨hsame'.afterTrades _, ?_, ?_, ?_, ?_⟩
    · have := (htells.trans htells₂).trans htells'
      rwa [List.append_nil] at this
    · dsimp only
      rw [List.length_append]
      omega
    · exact hdispose.1.trans (hstops₂.1.trans hstops.1)
    · exact congrArg (Option.or _) (hdispose.2.trans (hstops₂.2.trans hstops.2))

/-- An order that is killed. -/
theorem kill_simulates (h : Same b f) (reason : String) :
    Same b (Flat.kill o reason f) ∧ Tells [] f.tape (Flat.kill o reason f).tape :=
  ⟨h.withTape h.poPol, Tells.trans (.mark _ rfl) (.mark _ rfl)⟩

/-- Nothing is made of an order. -/
theorem Executed.nothing (h : Same b f') (ht : Tells [] f.tape f'.tape) :
    Executed b f o' ⟨b, []⟩ f' :=
  ⟨h, ht, Nat.zero_le _, rfl, rfl⟩

/-- The phases of `processActive` from the quantity checks on: up to the stops that its trades may
trigger, it is `execute`. -/
theorem execute_simulates {emit : ℕ → ℕ → Flat → Option Flat} {depth : ℕ} (h : Same b f)
    (ho : Stands o' o) (hfit : Fit o') (hstop : o'.orderType.isStop = false)
    (hpo : o'.postOnly = false) (hx : Flat.processActiveWith emit o depth f = some f') :
    ∃ f₁, Executed b f o' (Spec.execute o' b) f₁ ∧
      ((Spec.execute o' b).trades = [] ∧ f' = f₁ ∨
        ∃ d f₂, emit f.tape.trades.length depth f₁ = some f₂ ∧ f' = Flat.finish d f₂) := by
  have hfok : o.timeInForce = .FOK ↔ o'.tif = .fok := by
    rw [ho.tif]
    cases o'.tif <;> decide
  have hmtl : o.orderType = .MARKET_TO_LIMIT ↔ o'.orderType = .marketToLimit := by
    rw [ho.type]
    cases o'.orderType <;> decide
  unfold Flat.processActiveWith at hx
  rw [ho.postOnly, hpo, if_neg Bool.false_ne_true, fokCheck_eq h ho hfit] at hx
  unfold Spec.execute
  -- Phase 4, where the specification matches as well.
  have hplain : o'.orderType ≠ .marketToLimit → Flat.matchPhase emit o depth f = some f' →
      ∃ inc mr f₁, mr = Spec.matchOrder (Spec.computeMatchFuel b o'.side) b o' ∧
        inc = (if o'.minQty.isSome = true ∧ ¬ mr.trades.isEmpty = true then
          { mr.incoming with minQty := none } else mr.incoming) ∧ (o'.tif = .fok → Done inc) ∧
        Executed b f o' ⟨(Spec.dispose inc (b.afterMatch o'.side mr) mr.trades).afterTrades
          mr.trades, mr.trades⟩ f₁ ∧
        ∃ d f₂, emit f.tape.trades.length depth f₁ = some f₂ ∧ f' = Flat.finish d f₂ := by
    intro hm hx
    unfold Flat.matchPhase at hx
    dsimp only at hx
    rw [if_neg (mt hmtl.mp hm)] at hx
    obtain ⟨⟨d, f₁⟩, hplain, hx⟩ := Option.bind_eq_some_iff.mp hx
    obtain ⟨f₂, hemit, hx⟩ := Option.bind_eq_some_iff.mp hx
    obtain ⟨inc, mr, hmr, hinc, hdone, hend⟩ := matchPlain_simulates h ho hfit hstop hm hplain
    exact ⟨inc, mr, f₁, hmr, hinc, hdone, hend, d, f₂, hemit, (Option.some.inj hx).symm⟩
  by_cases hf : o'.tif = .fok
  · rw [if_pos hf]
    obtain ⟨hmin, hm⟩ := hfit.fok hf
    by_cases hc : Spec.fokCheck o' b = true
    · have hnone : ¬ (0 < o.minQty ∧ ¬ Flat.minQtyCheck o f = true) := fun hx => by
        have hpos := ho.minQty.pos_iff.mp hx.1
        rw [hmin] at hpos
        cases hpos
      rw [if_neg fun hx => hx.2 hc, if_neg hnone] at hx
      rw [if_neg (not_not.mpr hc)]
      obtain ⟨inc, mr, f₁, rfl, -, hdone, hend, hemit⟩ := hplain hm hx
      rw [dispose_done (hdone hf)] at hend
      exact ⟨f₁, hend, .inr hemit⟩
    · rw [if_pos ⟨hfok.mpr hf, hc⟩] at hx
      rw [if_pos hc]
      cases hx
      exact ⟨_, .nothing (kill_simulates h _).1 (kill_simulates h _).2, .inl ⟨rfl, rfl⟩⟩
  · rw [if_neg hf]
    rw [if_neg fun hx => hf (hfok.mp hx.1)] at hx
    have hcheck := minQtyCheck_iff h ho hfit
    by_cases hc : o'.minQty.isSome = true ∧ ¬ Spec.minQtyCheck o' b = true
    · rw [if_pos (hcheck.mpr hc)] at hx
      rw [if_pos hc]
      cases hx
      exact ⟨_, .nothing (kill_simulates h _).1 (kill_simulates h _).2, .inl ⟨rfl, rfl⟩⟩
    · rw [if_neg (mt hcheck.mp hc)] at hx
      rw [if_neg hc]
      by_cases hm : o'.orderType = .marketToLimit
      · rw [if_pos hm]
        unfold Flat.matchPhase at hx
        dsimp only at hx
        rw [if_pos (hmtl.mpr hm)] at hx
        obtain ⟨⟨o₁, f₁⟩, hpass, hx⟩ := Option.bind_eq_some_iff.mp hx
        have hmatched := matchOrd_simulates (b.clock + 1) h ho hfit.status
          (lt_computeMatchFuel b o'.side) hpass
        unfold Spec.executeMTL Spec.matchOrder
        generalize Spec.doMatch (Spec.computeMatchFuel b o'.side) o' (Spec.contraLevels b o'.side)
          [] (b.clock + 1) = mr at hmatched ⊢
        dsimp only at hx ⊢
        cases hts : mr.trades with
        | nil =>
          have htells := hmatched.tells
          rw [hts] at htells
          rw [if_neg (fun hlt => htells.traded_iff.mp hlt rfl)] at hx
          cases hx
          obtain ⟨hsame, htells'⟩ := kill_simulates (o := o₁) hmatched.same "MTL_NO_LIQUIDITY"
          refine ⟨_, ⟨hsame, htells.trans htells', Nat.zero_le _, ?_, ?_⟩, .inl ⟨rfl, rfl⟩⟩
          · exact (stops_afterMatch b o'.side mr).1
          · exact (stops_afterMatch b o'.side mr).2
        | cons t us =>
          have hne : mr.trades ≠ [] := by
            rw [hts]
            exact List.cons_ne_nil _ _
          rw [if_pos (hmatched.tells.traded_iff.mpr hne)] at hx
          obtain ⟨⟨d, f₂⟩, hlimit, hx⟩ := Option.bind_eq_some_iff.mp hx
          obtain ⟨f₃, hemit, hx⟩ := Option.bind_eq_some_iff.mp hx
          have hend := toLimit_simulates hmatched hts rfl hlimit
          rw [hts] at hend
          exact ⟨f₂, hend, .inr ⟨d, f₃, hemit, (Option.some.inj hx).symm⟩⟩
      · rw [if_neg hm]
        obtain ⟨inc, mr, f₁, rfl, rfl, -, hend, hemit⟩ := hplain hm hx
        exact ⟨f₁, hend, .inr hemit⟩

/-- A post-only order. -/
theorem postOnly_simulates {emit : ℕ → ℕ → Flat → Option Flat} {depth : ℕ} (h : Same b f)
    (ho : Stands o' o) (hfit : Fit o') (hpo : o'.postOnly = true)
    (hx : Flat.processActiveWith emit o depth f = some f') :
    Same (if Spec.wouldCross o' b = true then b else Spec.insertOrder b o' false) f' ∧
      Tells [] f.tape f'.tape := by
  have hprice := hfit.limit (.inl (hfit.postOnly hpo))
  obtain ⟨p, hp⟩ := Option.isSome_iff_exists.mp hprice
  unfold Flat.processActiveWith Flat.postOnlyPhase at hx
  rw [ho.postOnly, if_pos hpo, wouldCross_eq h ho hprice, if_pos h.poPol] at hx
  by_cases hc : Spec.wouldCross o' b = true
  · rw [if_pos hc] at hx ⊢
    cases hx
    exact kill_simulates h _
  · rw [if_neg hc] at hx ⊢
    cases hx
    exact rest_simulates _ _ h ho hp (Nat.ne_of_gt hfit.remaining)

end Books

end MatchingEngine.Simulation
