import MatchingEngine.Book.Step
import MatchingEngine.Spec.ProcessB

/-!
# The specification on the books of C

On a book whose orders are what C can hold (limit orders, all visible, and no stops) the matching
loop of the specification is `Request.matchLevels`, and its pipeline is `Book.place`. Neither the
fuel of the loop nor that of the cascade runs out: the loop meets each order at most once, and there
are no stops to trigger.
-/

namespace MatchingEngine.Spec

open Contract

/-- The order `inc` is the request `r` being processed. -/
structure Incoming (r : Request) (inc : Order) : Prop where
  id : inc.id = r.id.toNat
  side : inc.side = sideOfTree r.side
  price : inc.price = if r.otype = .market then none else some r.price.toNat
  stpGroup : inc.stpGroup = stpGroupOf r.account
  stpPolicy : inc.stpPolicy = stpPolicyOf r.account r.stp.code
  status : inc.status ≠ .cancelled

section Orders

variable {r : Request} {inc o : Order} {t : Tree} {p : OrderRow}

/-- Words are told apart by their numbers. -/
theorem toNat_inj {a b : UInt64} : a.toNat = b.toNat ↔ a = b := UInt64.toNat_inj

/-- The specification matches at the prices that the request crosses. -/
theorem Incoming.canMatchPrice (h : Incoming r inc) (price : UInt64) :
    canMatchPrice inc price.toNat = true ↔ r.crosses price := by
  unfold Spec.canMatchPrice Request.crosses
  rw [h.price, h.side]
  by_cases hm : r.otype = .market
  · simp [hm]
  · rw [if_neg hm]
    cases r.side <;> simp [hm, sideOfTree, Tree.other, better, UInt64.le_iff_toNat_le]

/-- All of a resting order is visible. -/
theorem visible_eq (h : orderView o = rowView t p) : o.visibleQty = p.remaining.toNat :=
  congrArg OrderView.visibleQty h

/-- What is left of a resting order is what is left of its row. -/
theorem remaining_eq (h : orderView o = rowView t p) : o.remainingQty = p.remaining.toNat :=
  congrArg OrderView.remainingQty h

/-- The id of a resting order is that of its row. -/
theorem id_eq (h : orderView o = rowView t p) : o.id = p.id.toNat := congrArg OrderView.id h

/-- The policy of a request against a resting order. -/
theorem Incoming.conflict (h : Incoming r inc) (ho : orderView o = rowView t p) :
    (if selfTradeConflict inc o then inc.stpPolicy else none) = policyOf (r.prevention p) := by
  have hg : o.stpGroup = stpGroupOf p.account := congrArg OrderView.stpGroup ho
  have hcode : StpMode.ofCode r.stp.code = some r.stp := StpMode.ofCode_eq_some.mpr rfl
  unfold selfTradeConflict Request.prevention
  rw [h.stpGroup, h.stpPolicy, hg]
  unfold stpPolicyOf stpGroupOf
  rw [hcode, Option.bind_some]
  by_cases ha : r.account = 0
  · simp [ha, policyOf]
  · by_cases hb : r.account = p.account
    · rw [← hb]
      cases r.stp <;> simp [ha, policyOf]
    · have hne : ¬ some r.account.toNat = if p.account = 0 then none else some p.account.toNat := by
        split
        · simp
        · simpa [toNat_inj] using hb
      simp [ha, hb, hne, policyOf]

/-- The two orders may trade. -/
theorem Incoming.conflict_none (h : Incoming r inc) (ho : orderView o = rowView t p)
    (hp : r.prevention p = .none) : selfTradeConflict inc o = false := by
  have hc := h.conflict ho
  rw [hp] at hc
  by_contra ht
  rw [Bool.not_eq_false] at ht
  rw [if_pos ht] at hc
  unfold selfTradeConflict at ht
  rw [hc] at ht
  cases ht

/-- The two orders are kept from trading. -/
theorem Incoming.conflict_some (h : Incoming r inc) (ho : orderView o = rowView t p)
    {m : StpMode} {x : STPPolicy} (hp : r.prevention p = m) (hm : policyOf m = some x) :
    selfTradeConflict inc o = true ∧ inc.stpPolicy = some x := by
  have hc := h.conflict ho
  rw [hp, hm] at hc
  split at hc
  · exact ⟨‹_›, hc⟩
  · cases hc

end Orders

/-! ## One meeting -/

section Meeting

variable {r : Request} {inc o : Order} {t : Tree} {p : OrderRow} {rem : UInt64} {queue : List Order}
  {st : OrderStatus} {tm : ℕ} {price : ℕ}

/-- What a request with the remainder `rem` does to a resting order that it may reduce, in the terms
of the specification: the resting order is used up, or the request is. -/
theorem settle_eq (ho : orderView o = rowView t p) (hrem : inc.remainingQty = rem.toNat) :
    settleResting (reduceOrder o (min inc.remainingQty o.visibleQty)) queue st tm =
      if p.remaining ≤ rem then (queue, tm)
      else ({ reduceOrder o rem.toNat with status := st } :: queue, tm) := by
  have hvis := visible_eq ho
  have hremo := remaining_eq ho
  unfold settleResting
  -- The smaller of the two remainders is the resting order's, or the request's.
  by_cases hfull : p.remaining ≤ rem
  · have hle := UInt64.le_iff_toNat_le.mp hfull
    rw [if_pos hfull, if_pos]
    unfold reduceOrder
    dsimp only
    omega
  · have hlt : rem.toNat < p.remaining.toNat := by
      rw [UInt64.le_iff_toNat_le] at hfull
      omega
    have hmin : min inc.remainingQty o.visibleQty = rem.toNat := by
      rw [hrem, hvis]
      exact Nat.min_eq_left hlt.le
    rw [hmin, if_neg hfull, if_neg, if_neg]
    · unfold reduceOrder
      dsimp only
      omega
    · unfold reduceOrder
      dsimp only
      omega

/-- What is left of the incoming order after it meets a row. -/
theorem left_eq (ho : orderView o = rowView t p) (hrem : inc.remainingQty = rem.toNat) :
    inc.remainingQty - min inc.remainingQty o.visibleQty =
      if p.remaining ≤ rem then (rem - p.remaining).toNat else 0 := by
  rw [hrem, visible_eq ho]
  by_cases hfull : p.remaining ≤ rem
  · have hle := UInt64.le_iff_toNat_le.mp hfull
    rw [if_pos hfull, UInt64.toNat_sub_of_le _ _ hfull, Nat.min_eq_right hle]
  · have hlt : ¬ p.remaining.toNat ≤ rem.toNat := fun hle => hfull (UInt64.le_iff_toNat_le.mpr hle)
    rw [if_neg hfull, Nat.min_eq_left (by omega), Nat.sub_self]

/-- A reduced order shows the reduced row. -/
theorem reduceOrder_view (ho : orderView o = rowView t p) (hlt : ¬ p.remaining ≤ rem) :
    orderView { reduceOrder o rem.toNat with status := st } =
      rowView t { p with remaining := p.remaining - rem } := by
  have hle : rem ≤ p.remaining := by grind
  have hvis := visible_eq ho
  have hremo := remaining_eq ho
  have hsub := UInt64.toNat_sub_of_le _ _ hle
  unfold orderView rowView at ho ⊢
  unfold reduceOrder
  simp only [OrderView.mk.injEq] at ho ⊢
  simp [ho, hsub]

/-- What is traded with a row. -/
theorem min_eq (ho : orderView o = rowView t p) (hrem : inc.remainingQty = rem.toNat) :
    min inc.remainingQty o.visibleQty =
      if p.remaining ≤ rem then p.remaining.toNat else rem.toNat := by
  rw [hrem, visible_eq ho]
  by_cases hfull : p.remaining ≤ rem
  · rw [if_pos hfull, Nat.min_eq_right (UInt64.le_iff_toNat_le.mp hfull)]
  · have hlt : ¬ p.remaining.toNat ≤ rem.toNat := fun hle => hfull (UInt64.le_iff_toNat_le.mpr hle)
    rw [if_neg hfull, Nat.min_eq_left (by omega)]

/-- A meeting, by what self-trade prevention does. -/
theorem meetResting_eq (h : Incoming r inc) (ho : orderView o = rowView t p)
    (hrem : inc.remainingQty = rem.toNat) (h0 : rem ≠ 0) (hp : p.remaining ≠ 0) :
    meetResting inc o price queue tm =
      match r.prevention p with
      | .cancelNew => ⟨{ inc with status := .cancelled }, o :: queue, [], tm⟩
      | .cancelOld => ⟨inc, queue, [], tm⟩
      | .cancelBoth => ⟨{ inc with status := .cancelled }, queue, [], tm⟩
      | .decrement =>
        if p.remaining ≤ rem then
          ⟨{ inc with
            remainingQty := (rem - p.remaining).toNat
            status := if (rem - p.remaining).toNat = 0 then .cancelled else inc.status },
            queue, [], tm⟩
        else ⟨{ inc with remainingQty := 0, status := .cancelled },
          { reduceOrder o rem.toNat with status := o.status } :: queue, [], tm⟩
      | .none =>
        if p.remaining ≤ rem then
          ⟨{ inc with remainingQty := (rem - p.remaining).toNat }, queue,
            [fillTrade inc o price p.remaining.toNat], tm⟩
        else ⟨{ inc with remainingQty := 0 },
          { reduceOrder o rem.toNat with status := .partiallyFilled } :: queue,
          [fillTrade inc o price rem.toNat], tm⟩ := by
  have hmin := min_eq ho hrem
  have hleft := left_eq ho hrem
  have hsettle : ∀ st, settleResting (reduceOrder o (min inc.remainingQty o.visibleQty)) queue st tm =
      if p.remaining ≤ rem then (queue, tm)
      else ({ reduceOrder o rem.toNat with status := st } :: queue, tm) := fun _ => settle_eq ho hrem
  -- Both show something, so no meeting takes nothing.
  have hvis : o.visibleQty ≠ 0 := by
    rw [visible_eq ho]
    exact fun hz => hp (UInt64.toNat_inj.mp hz)
  have hq : min inc.remainingQty o.visibleQty ≠ 0 := by
    have hr0 : rem.toNat ≠ 0 := fun hz => h0 (UInt64.toNat_inj.mp hz)
    rw [hrem]
    omega
  unfold meetResting
  dsimp only
  -- One case a policy: `conflict_none` and `conflict_some` say what the specification tests.
  cases hm : r.prevention p with
  | none =>
    rw [h.conflict_none ho hm, if_neg Bool.false_ne_true, if_neg hvis, hsettle, hleft, hmin]
    split <;> rfl
  | cancelNew =>
    obtain ⟨hc, hpol⟩ := h.conflict_some ho hm rfl
    rw [if_pos hc, hpol]
    rfl
  | cancelOld =>
    obtain ⟨hc, hpol⟩ := h.conflict_some ho hm rfl
    rw [if_pos hc, hpol]
    rfl
  | cancelBoth =>
    obtain ⟨hc, hpol⟩ := h.conflict_some ho hm rfl
    rw [if_pos hc, hpol]
    rfl
  | decrement =>
    obtain ⟨hc, hpol⟩ := h.conflict_some ho hm rfl
    rw [if_pos hc, hpol]
    dsimp only [Option.getD_some]
    rw [if_neg hq, hsettle, hleft]
    split <;> rfl

end Meeting

/-! ## The matching loop -/

/-- The levels of the specification show those of the tree `t`. -/
def Shows (t : Tree) (ls : List Level) (cs : List PriceLevel) : Prop :=
  cs.map levelView = ls.map (viewLevel t)

/-- The result of the loop agrees with the outcome `o`, where the loop started with the order `inc`
after the trades `ts`. -/
structure Agrees (t : Tree) (inc : Order) (ts : List Trade) (o : Outcome (List Level))
    (mr : MatchResult) : Prop where
  contra : Shows t o.left mr.contra
  trades : mr.trades.map tradeObs = ts.map tradeObs ++ o.trades.map viewTrade
  done : o.rem = 0 → mr.incoming.remainingQty = 0 ∨ mr.incoming.status = .cancelled
  rest : o.rem ≠ 0 → mr.incoming = { inc with remainingQty := o.rem.toNat }

section Loop

variable {r : Request} {inc : Order} {t : Tree} {ts : List Trade} {tm : ℕ} {fuel : ℕ}
  {cs : List PriceLevel} {ls : List Level}

/-- A level whose queue is replaced. -/
theorem Shows.requeue {price : UInt64} {os : List OrderRow} {level : PriceLevel}
    {queue : List Order} (h : Shows t ls cs) (hprice : level.price = price.toNat)
    (hq : queue.map orderView = os.map (rowView t)) :
    Shows t (Request.relevel price os ls) (requeue level queue cs) := by
  have hnil : queue.isEmpty ↔ os = [] := by
    rw [List.isEmpty_iff, ← List.map_eq_nil_iff (f := orderView), hq, List.map_eq_nil_iff]
  unfold Request.relevel Spec.requeue
  by_cases hos : os = []
  · rw [if_pos hos, if_pos (hnil.mpr hos)]
    exact h
  · rw [if_neg hos, if_neg (fun hc => hos (hnil.mp hc))]
    unfold Shows at h ⊢
    rw [List.map_cons, List.map_cons, h]
    unfold levelView viewLevel
    rw [hprice, hq]

/-- A loop that goes on after trades of its own. -/
theorem Agrees.after {inc' : Order} {us : List Trade} {vs : List TradeRow}
    {o : Outcome (List Level)} {mr : MatchResult} {x : ℕ} (h : Agrees t inc' (ts ++ us) o mr)
    (hus : us.map tradeObs = vs.map viewTrade)
    (hinc : o.rem ≠ 0 → inc' = { inc with remainingQty := x }) : Agrees t inc ts (o.after vs) mr where
  contra := h.contra
  trades := by
    rw [h.trades, List.map_append, hus]
    simp [Outcome.after]
  done := h.done
  rest hrem := by
    rw [h.rest hrem, hinc hrem]
    rfl

/-- A loop that is over after trades of its own. -/
theorem Agrees.stop {inc' : Order} {us : List Trade} {o : Outcome (List Level)}
    (hcs : Shows t o.left cs) (hrem : o.rem = 0) (hus : us.map tradeObs = o.trades.map viewTrade)
    (hinc : inc'.remainingQty = 0 ∨ inc'.status = .cancelled) :
    Agrees t inc ts o ⟨inc', cs, ts ++ us, tm⟩ where
  contra := hcs
  trades := by rw [List.map_append, hus]
  done _ := hinc
  rest h := absurd hrem h

/-- The orders of a side with a level in front, which goes when it is empty. -/
theorem relevel_orders {price : UInt64} {os : List OrderRow} :
    (Request.relevel price os ls).flatMap Level.orders = os ++ ls.flatMap Level.orders := by
  unfold Request.relevel
  split
  · subst_vars
    rfl
  · rfl

/-- A level in front is there unless it is empty. -/
theorem mem_relevel {price : UInt64} {os : List OrderRow} {l : Level}
    (h : l ∈ Request.relevel price os ls) : l ∈ ls ∨ l = ⟨price, os⟩ ∧ os ≠ [] := by
  unfold Request.relevel at h
  split at h
  · exact .inl h
  · exact (List.mem_cons.mp h).symm.imp_right fun he => ⟨he, ‹_›⟩

/-- The matching loop does what `Request.matchLevels` does, as soon as it has fuel for the
orders. -/
theorem doMatch_agrees (h : Incoming r inc) {rem : UInt64} (hrem : inc.remainingQty = rem.toNat)
    (hne : ∀ l ∈ ls, l.orders ≠ []) (hpos : ∀ l ∈ ls, ∀ p ∈ l.orders, p.remaining ≠ 0)
    (hcs : Shows t ls cs) (hfuel : (ls.flatMap Level.orders).length < fuel) :
    Agrees t inc ts (r.matchLevels ls rem) (doMatch fuel inc cs ts tm) := by
  -- Induction on the fuel. A turn uses up one order of the book or the request itself.
  induction fuel generalizing ls cs rem inc ts tm with
  | zero => cases hfuel
  | succ fuel ih =>
    by_cases h0 : rem = 0
    · have hdone : inc.remainingQty = 0 := by rw [hrem, h0]; rfl
      rw [doMatch_done (.inl hdone), h0, Request.matchLevels_zero]
      exact ⟨hcs, by simp, fun _ => .inl hdone, fun hz => absurd rfl hz⟩
    have hgo : ¬ (inc.remainingQty = 0 ∨ inc.status = .cancelled) := by
      rw [hrem, not_or]
      exact ⟨fun hz => h0 (UInt64.toNat_inj.mp hz), h.status⟩
    -- The two exits that leave everything as it is: no level, and a price that does not cross.
    have hstay : Agrees t inc ts ⟨ls, rem, []⟩ ⟨inc, cs, ts, tm⟩ :=
      ⟨hcs, by simp, fun hz => absurd hz h0, fun _ => by rw [← hrem]⟩
    unfold doMatch
    rw [if_neg hgo]
    cases ls with
    | nil =>
      obtain rfl : cs = [] := List.map_eq_nil_iff.mp hcs
      exact hstay
    | cons l ls =>
      obtain ⟨level, cs, rfl⟩ : ∃ level cs', cs = level :: cs' := by
        cases cs with
        | nil => cases hcs
        | cons level cs => exact ⟨level, cs, rfl⟩
      obtain ⟨hlevel, hcs'⟩ := List.cons_eq_cons.mp hcs
      have hprice : level.price = l.price.toNat := congrArg LevelView.price hlevel
      have horders : level.orders.map orderView = l.orders.map (rowView t) :=
        congrArg LevelView.orders hlevel
      dsimp only
      rw [hprice]
      by_cases hc : r.crosses l.price
      swap
      · rw [if_pos (fun ht => hc ((h.canMatchPrice _).mp ht)), Request.matchLevels,
          if_pos (.inr hc)]
        exact hstay
      rw [if_neg (not_not.mpr ((h.canMatchPrice _).mpr hc))]
      obtain ⟨price, os⟩ := l
      cases os with
      | nil => exact absurd rfl (hne _ List.mem_cons_self)
      | cons p os =>
        obtain ⟨resting, queue, hlo⟩ : ∃ resting queue, level.orders = resting :: queue := by
          cases hlo : level.orders with
          | nil => rw [hlo] at horders; cases horders
          | cons resting queue => exact ⟨_, _, rfl⟩
        rw [hlo] at horders ⊢
        obtain ⟨ho, hq⟩ := List.cons_eq_cons.mp horders
        have hp : p.remaining ≠ 0 := hpos _ List.mem_cons_self p List.mem_cons_self
        -- The first order reduced in its place, which is how the request can end.
        have hshow : ∀ {o'} {p' : OrderRow}, orderView o' = rowView t p' →
            Shows t (⟨price, p' :: os⟩ :: ls) (requeue level (o' :: queue) cs) := by
          intro o' p' ho'
          have hmap : (o' :: queue).map orderView = (p' :: os).map (rowView t) := by
            rw [List.map_cons, List.map_cons, ho']
            exact congrArg _ hq
          have := Shows.requeue hcs' hprice hmap
          rwa [Request.relevel, if_neg (List.cons_ne_nil _ _)] at this
        -- The first order gone and the request still matching, which is the induction hypothesis.
        have hgoOn : ∀ {rem' : UInt64} {x us vs}, x = rem'.toNat →
            us.map tradeObs = vs.map viewTrade →
            Agrees t inc ts ((r.matchLevels (Request.relevel price os ls) rem').after vs)
              (doMatch fuel { inc with remainingQty := x } (requeue level queue cs) (ts ++ us) tm) := by
          intro rem' x us vs hx hus
          have hinc : Incoming r { inc with remainingQty := x } :=
            ⟨h.id, h.side, h.price, h.stpGroup, h.stpPolicy, h.status⟩
          refine (ih hinc hx (fun l hl => ?_) (fun l hl q hq => ?_)
            (Shows.requeue hcs' hprice hq) ?_).after hus fun _ => rfl
          · rcases mem_relevel hl with hl | ⟨rfl, hos⟩
            · exact hne l (List.mem_cons_of_mem _ hl)
            · exact hos
          · rcases mem_relevel hl with hl | ⟨rfl, -⟩
            · exact hpos l (List.mem_cons_of_mem _ hl) q hq
            · exact hpos _ List.mem_cons_self q (List.mem_cons_of_mem _ hq)
          · rw [relevel_orders]
            rw [List.flatMap_cons, List.cons_append, List.length_cons] at hfuel
            omega
        -- One case a policy again, each either a stop or a step of `hgoOn`.
        rw [Request.matchLevels_order h0 hc]
        dsimp only at hc ⊢
        rw [meetResting_eq h ho hrem h0 hp]
        have hnil : ([] : List Trade).map tradeObs = ([] : List TradeRow).map viewTrade := rfl
        cases r.prevention p with
        | none =>
          dsimp only
          by_cases hfull : p.remaining ≤ rem
          · simp only [if_pos hfull]
            exact hgoOn rfl (by simp [fillTrade, tradeObs, viewTrade, h.id, id_eq ho])
          · simp only [if_neg hfull]
            rw [doMatch_done (.inl rfl)]
            refine .stop (hshow (reduceOrder_view ho hfull)) rfl ?_ (.inl rfl)
            simp [fillTrade, tradeObs, viewTrade, h.id, id_eq ho]
        | cancelNew =>
          rw [doMatch_done (.inr rfl)]
          exact .stop (hshow ho) rfl rfl (.inr rfl)
        | cancelOld =>
          exact hgoOn hrem hnil
        | cancelBoth =>
          rw [doMatch_done (.inr rfl)]
          exact .stop (Shows.requeue hcs' hprice hq) rfl rfl (.inr rfl)
        | decrement =>
          dsimp only
          by_cases hfull : p.remaining ≤ rem
          · simp only [if_pos hfull]
            by_cases hz : (rem - p.remaining).toNat = 0
            · have hz' : rem - p.remaining = 0 := UInt64.toNat_inj.mp hz
              simp only [hz', Request.matchLevels_zero]
              rw [doMatch_done (.inl rfl)]
              exact .stop (Shows.requeue hcs' hprice hq) rfl rfl (.inl rfl)
            · simp only [if_neg hz]
              exact hgoOn rfl hnil
          · simp only [if_neg hfull]
            rw [doMatch_done (.inl rfl)]
            exact .stop (hshow (reduceOrder_view ho hfull)) rfl rfl (.inl rfl)

end Loop

/-! ## Books -/

/-- The book of the specification shows the book `b`. -/
def Same (b : Book) (σ : BookState) : Prop := bookView σ = viewBook b

section Books

variable {b : Book} {σ : BookState} {r : Request} {t : Tree} {row : OrderRow} {o : Order}

/-- The levels of a tree. -/
def sideLevels (σ : BookState) : Tree → List PriceLevel
  | .bids => σ.bids
  | .asks => σ.asks

/-- The books are the same when their sides are and no stop is there. -/
theorem same_iff : Same b σ ↔ (∀ t, Shows t (b.side t) (sideLevels σ t)) ∧ σ.stops = [] := by
  unfold Same bookView viewBook Shows
  rw [BookView.mk.injEq, List.map_eq_nil_iff]
  constructor
  · rintro ⟨hb, ha, hs⟩
    refine ⟨fun t => ?_, hs⟩
    cases t with
    | bids => exact hb
    | asks => exact ha
  · rintro ⟨h, hs⟩
    exact ⟨h .bids, h .asks, hs⟩

/-- The levels that an order of the side `t` meets. -/
theorem contraLevels_eq (σ : BookState) (t : Tree) :
    contraLevels σ (sideOfTree t) = sideLevels σ t.other := by
  cases t <;> rfl

/-- What is left of the levels that an order meets is written to their side only. -/
theorem sideLevels_setContra (σ : BookState) (cs : List PriceLevel) (s t : Tree) :
    sideLevels (setContraLevels σ (sideOfTree t) cs) s =
      if s = t.other then cs else sideLevels σ s := by
  cases s <;> cases t <;> rfl

/-- The fuel of the matching loop is more than the orders that it may meet. -/
theorem lt_computeMatchFuel (h : Same b σ) (t : Tree) :
    ((b.side t.other).flatMap Level.orders).length < computeMatchFuel σ (sideOfTree t) := by
  have hshow := (same_iff.mp h).1 t.other
  have hcount : orderCount (sideLevels σ t.other) =
      ((b.side t.other).flatMap Level.orders).length := by
    have hlen := congrArg (List.map fun l : LevelView => l.orders.length) hshow
    simp only [List.map_map, Function.comp_def, levelView, viewLevel, List.length_map] at hlen
    unfold orderCount
    rw [hlen, List.length_flatMap]
  unfold computeMatchFuel
  dsimp only
  rw [contraLevels_eq, ← hcount]
  omega

/-! ## Resting -/

/-- An order inserted shows its row inserted. -/
theorem Shows.insert {first : ℕ → ℕ → Bool} {ls : List Level} {cs : List PriceLevel}
    (h : Shows t ls cs) (ho : orderView o = rowView t row)
    (hfirst : ∀ p : UInt64, first row.price.toNat p.toNat = true ↔ before t row.price p) :
    Shows t (insertRow t row ls) (insertBy first cs o row.price.toNat) := by
  induction ls generalizing cs with
  | nil =>
    obtain rfl : cs = [] := List.map_eq_nil_iff.mp h
    unfold Shows insertBy insertRow levelView viewLevel
    simp [ho]
  | cons l ls ih =>
    obtain ⟨level, cs, rfl⟩ : ∃ level cs', cs = level :: cs' := by
      cases cs with
      | nil => cases h
      | cons level cs => exact ⟨level, cs, rfl⟩
    obtain ⟨hlevel, hcs⟩ := List.cons_eq_cons.mp h
    have hprice : level.price = l.price.toNat := congrArg LevelView.price hlevel
    have horders : level.orders.map orderView = l.orders.map (rowView t) :=
      congrArg LevelView.orders hlevel
    rw [insertBy, insertRow, hprice]
    -- The three places of an insertion: at the end of this level, before it, or further on.
    by_cases heq : row.price = l.price
    · have hnot : ¬ first row.price.toNat l.price.toNat = true := fun hf =>
        before_ne ((hfirst _).mp hf) heq
      rw [if_neg hnot, if_pos (congrArg UInt64.toNat heq), if_pos heq]
      exact List.cons_eq_cons.mpr ⟨by simp [levelView, viewLevel, horders, ho], hcs⟩
    · rw [if_neg heq, if_neg (fun hc => heq (UInt64.toNat_inj.mp hc))]
      by_cases hf : before t row.price l.price
      · rw [if_pos ((hfirst _).mpr hf), if_pos hf]
        exact List.cons_eq_cons.mpr ⟨by simp [levelView, viewLevel, ho], h⟩
      · rw [if_neg (fun hc => hf ((hfirst _).mp hc)), if_neg hf]
        exact List.cons_eq_cons.mpr ⟨hlevel, ih hcs⟩

/-- An order rested. -/
theorem Same.insertOrder {ht : Bool} (h : Same b σ) (hside : o.side = sideOfTree t)
    (hprice : o.price.getD 0 = row.price.toNat)
    (ho : orderView (restingForm o ht) = rowView t row) :
    Same (b.rest row t) (insertOrder σ o ht) := by
  obtain ⟨hshow, hstops⟩ := same_iff.mp h
  unfold Spec.insertOrder Book.rest
  rw [hside, hprice]
  cases t with
  | bids =>
    refine same_iff.mpr ⟨fun s => ?_, hstops⟩
    cases s with
    | bids => exact (hshow .bids).insert ho fun p => by simp [before, UInt64.lt_iff_toNat_lt]
    | asks => exact hshow .asks
  | asks =>
    refine same_iff.mpr ⟨fun s => ?_, hstops⟩
    cases s with
    | bids => exact hshow .bids
    | asks => exact (hshow .asks).insert ho fun p => by simp [before, UInt64.lt_iff_toNat_lt]

/-! ## Processing -/

/-- The test for a post-only order that would trade. -/
theorem wouldCross_iff (h : Same b σ) (ho : Incoming r o) (hm : r.otype ≠ .market) :
    wouldCross o σ = true ↔ b.crossing r := by
  have hshow := (same_iff.mp h).1 r.side.other
  have hhead : (sideLevels σ r.side.other).head?.map PriceLevel.price =
      (b.side r.side.other).head?.map fun l => l.price.toNat := by
    have := congrArg (fun ls : List LevelView => ls.head?.map LevelView.price) hshow
    simpa [List.head?_map, Function.comp_def, levelView, viewLevel] using this
  have hcross : ∀ l : Level, r.crosses l.price ↔ better r.side.other l.price r.price := fun l =>
    or_iff_right hm
  unfold wouldCross Book.crossing bestAskPrice bestBidPrice
  simp only [hcross, ho.price, ho.side, if_neg hm]
  cases hside : r.side <;> simp only [hside, Tree.other, sideLevels, sideOfTree] at hhead ⊢ <;>
    rw [hhead] <;> simp [Option.any_map, better, UInt64.le_iff_toNat_le, Option.any_eq_true]

/-- Trades of a book without stops trigger nothing. -/
theorem processCascade_same {fuel : ℕ} {ts : List Trade} (h : Same b σ) :
    (processCascade fuel ts σ).trades = [] ∧ Same b (processCascade fuel ts σ).book := by
  induction fuel generalizing ts σ with
  | zero => unfold processCascade; exact ⟨rfl, h⟩
  | succ fuel ih =>
    cases ts with
    | nil => unfold processCascade; exact ⟨rfl, h⟩
    | cons x ts =>
      have hstops := (same_iff.mp h).2
      have hview : Same b { σ with stops := [], lastTradePrice := some x.price } := by
        unfold Same bookView at h ⊢
        rw [← h, hstops]
      unfold processCascade
      rw [hstops]
      exact ih hview

/-- The order of a request that is processed at the time `tm`. -/
def stamped (r : Request) (tm : ℕ) : Order := { mkOrder r with timestamp := tm }

/-- The order that the specification makes of a request is that request. -/
theorem incoming_stamped (r : Request) (tm : ℕ) : Incoming r (stamped r tm) :=
  ⟨rfl, rfl, rfl, rfl, rfl, nofun⟩

/-- The remainder of a request shows the row that rests. -/
theorem restingForm_view {tm : ℕ} {rem : UInt64} (ht : Bool) (hr : r.rests) :
    orderView (restingForm { stamped r tm with remainingQty := rem.toNat } ht) =
      rowView r.side (r.row rem) := by
  have hm : r.otype ≠ .market := by rcases hr with hr | hr <;> rw [hr] <;> decide
  have hi : ¬ (r.otype = .market ∨ r.otype = .ioc) := by
    rcases hr with hr | hr <;> rw [hr] <;> decide
  unfold orderView rowView restingForm stamped mkOrder Request.row
  simp only [if_neg hm, if_neg hi]

/-- Matching does what `Book.matched` does. -/
theorem matchOrder_agrees (h : Same b σ) (hinv : b.Inv) (tm : ℕ) :
    Agrees r.side.other (stamped r tm) [] (r.matchLevels (b.side r.side.other) r.qty)
      (matchOrder (computeMatchFuel σ (stamped r tm).side) σ (stamped r tm)) := by
  have hside := hinv.side r.side.other
  unfold matchOrder
  rw [(incoming_stamped r tm).side]
  refine doMatch_agrees (incoming_stamped r tm) rfl hside.nonempty (fun l hl p hp => ?_) ?_
    (lt_computeMatchFuel h r.side)
  · exact UInt64.pos_iff_ne_zero.mp (hside.row l hl p hp).pos
  · rw [contraLevels_eq]
    exact (same_iff.mp h).1 _

/-- The book after matching. -/
theorem Same.afterMatch {left : List Level} {mr : MatchResult} (h : Same b σ)
    (hm : Shows t.other left mr.contra) :
    Same (b.setSide left t.other) (σ.afterMatch (sideOfTree t) mr) := by
  obtain ⟨hshow, hstops⟩ := same_iff.mp h
  refine same_iff.mpr ⟨fun s => ?_, ?_⟩
  · have hlevels : sideLevels (σ.afterMatch (sideOfTree t) mr) s =
        sideLevels (setContraLevels σ (sideOfTree t) mr.contra) s := by cases s <;> rfl
    rw [hlevels, sideLevels_setContra, Book.side_setSide]
    split
    · subst_vars
      exact hm
    · exact hshow s
  · rw [← hstops]
    unfold BookState.afterMatch setContraLevels
    cases t <;> rfl

/-- What follows the trades of a match does not change the book. -/
theorem Same.afterTrades (h : Same b σ) (ts : List Trade) : Same b (σ.afterTrades ts) := h

/-- An order that is not post-only: its own trades and the book after them. -/
theorem execute_agrees (h : Same b σ) (hinv : b.Inv) (hpost : r.otype ≠ .postOnly) (tm : ℕ) :
    (execute (stamped r tm) σ).trades.map tradeObs = (b.place r).trades.map viewTrade ∧
      Same (b.place r).left (execute (stamped r tm) σ).book := by
  -- No request is fill-or-kill or market-to-limit, or has a minimum quantity.
  have hfok : (stamped r tm).tif ≠ .fok := by
    unfold stamped mkOrder
    dsimp only
    split <;> decide
  have hmtl : (stamped r tm).orderType ≠ .marketToLimit := by
    unfold stamped mkOrder
    dsimp only
    split <;> decide
  have hag := matchOrder_agrees h hinv tm (r := r)
  unfold execute
  rw [if_neg hfok, if_neg (fun hc => Bool.false_ne_true hc.1), if_neg hmtl]
  dsimp only
  rw [if_neg (fun hc => Bool.false_ne_true hc.1)]
  generalize matchOrder _ _ _ = mr at hag ⊢
  have hbook := h.afterMatch (t := r.side) hag.contra
  have hmatched : b.matched r = ⟨b.setSide (r.matchLevels (b.side r.side.other) r.qty).left
      r.side.other, _, _⟩ := Book.matchedFrom_eq rfl
  have htrades : mr.trades.map tradeObs = (b.matched r).trades.map viewTrade := by
    rw [hmatched]
    simpa using hag.trades
  have hside : (stamped r tm).side = sideOfTree r.side := rfl
  rw [hside]
  -- Nothing remains, a remainder rests, or one is cancelled.
  by_cases h0 : (b.matched r).rem = 0
  · rw [Book.place_of_not_rests (fun hc => hc.1 h0)]
    refine ⟨htrades, Same.afterTrades ?_ _⟩
    unfold dispose
    rw [if_pos (hag.done (by rw [hmatched] at h0; exact h0)), hmatched]
    exact hbook
  · have hinc := hag.rest (by rw [hmatched] at h0; exact h0)
    have hrem : (r.matchLevels (b.side r.side.other) r.qty).rem = (b.matched r).rem := by
      rw [hmatched]
    rw [hrem] at hinc
    have hgo : ¬ (mr.incoming.remainingQty = 0 ∨ mr.incoming.status = .cancelled) := by
      rw [hinc, not_or]
      exact ⟨fun hz => h0 (UInt64.toNat_inj.mp hz), nofun⟩
    by_cases hrest : r.rests
    · rw [Book.place_of_rests ⟨h0, hrest⟩]
      refine ⟨htrades, Same.afterTrades ?_ _⟩
      have hl : r.otype = .limit := hrest.resolve_right hpost
      -- What rests is a limit order, which has the time in force of one.
      have htif : mr.incoming.tif ≠ .ioc := by
        rw [hinc]
        unfold stamped mkOrder
        simp [hl]
      have htype : mr.incoming.orderType ≠ .market := by
        rw [hinc]
        unfold stamped mkOrder
        simp [hl]
      unfold dispose
      rw [if_neg hgo, if_neg htif, if_neg htype, hinc, hmatched]
      refine hbook.insertOrder rfl ?_ (restingForm_view _ hrest)
      unfold stamped mkOrder
      simp [hl, Request.row]
    · rw [Book.place_of_not_rests (fun hc => hrest hc.2)]
      refine ⟨htrades, Same.afterTrades ?_ _⟩
      have htif : mr.incoming.tif = .ioc := by
        rw [hinc]
        unfold stamped mkOrder
        cases ho : r.otype with
        | limit => exact absurd (.inl ho) hrest
        | postOnly => exact absurd (.inr ho) hrest
        | market | ioc => simp
      unfold dispose
      rw [if_neg hgo, if_pos htif, hmatched]
      exact hbook

/-- The pipeline of the specification on a request is `Book.place`, unless the request is post-only
and would trade. -/
theorem processWithId_agrees (h : Same b σ) (hinv : b.Inv) :
    let res := processWithId σ (mkOrder r)
    if r.otype = .postOnly ∧ b.crossing r then res.trades = [] ∧ Same b res.book
    else res.trades.map tradeObs = (b.place r).trades.map viewTrade ∧
      Same (b.place r).left res.book := by
  have hstop : (stamped r σ.clock).orderType.isStop = false := by
    unfold stamped mkOrder
    dsimp only
    split <;> rfl
  set τ : BookState := { σ with nextId := (mkOrder r).id } with hτ
  have hsame : Same b τ := h
  intro res
  -- The fuel is at least one, and no stop makes the cascade use more.
  have hres : ∃ k, Same b res.book = Same b (processOrder (k + 1) (stamped r σ.clock) τ).book ∧
      Same (b.place r).left res.book =
        Same (b.place r).left (processOrder (k + 1) (stamped r σ.clock) τ).book ∧
      res.trades = (processOrder (k + 1) (stamped r σ.clock) τ).trades := ⟨_, rfl, rfl, rfl⟩
  obtain ⟨k, h₁, h₂, h₃⟩ := hres
  rw [h₁, h₂, h₃]
  unfold processOrder
  rw [hstop, if_neg Bool.false_ne_true]
  have hpo : (stamped r σ.clock).postOnly = decide (r.otype = .postOnly) := rfl
  -- Only a post-only order is tested for crossing.
  by_cases hpost : r.otype = .postOnly
  · have hm : r.otype ≠ .market := by rw [hpost]; decide
    have hcross := wouldCross_iff hsame (incoming_stamped r σ.clock) hm
    rw [hpo, if_pos (decide_eq_true hpost)]
    by_cases hc : b.crossing r
    · rw [if_pos (hcross.mpr hc), if_pos ⟨hpost, hc⟩]
      exact ⟨rfl, hsame⟩
    · have hrest : (b.matched r).rem ≠ 0 ∧ r.rests := by
        rw [Book.matched_of_not_crossing hc]
        exact ⟨r.qty_ne, .inr hpost⟩
      rw [if_neg (fun ht => hc (hcross.mp ht)), if_neg (fun ht => hc ht.2),
        Book.place_of_rests hrest, Book.matched_of_not_crossing hc]
      refine ⟨rfl, hsame.insertOrder rfl ?_ (restingForm_view false hrest.2)⟩
      unfold stamped mkOrder
      simp [hm, Request.row]
  · rw [hpo, decide_eq_false hpost, if_neg Bool.false_ne_true, if_neg (fun hc => hpost hc.1)]
    obtain ⟨htrades, hbook⟩ := execute_agrees hsame hinv hpost σ.clock
    obtain ⟨hnone, hcascade⟩ := processCascade_same
      hbook
    dsimp only
    rw [hnone, List.append_nil]
    exact ⟨htrades, hcascade⟩

/-! ## Ids -/

/-- The orders of a side. -/
theorem Shows.orders {ls : List Level} {cs : List PriceLevel} (h : Shows t ls cs) :
    (cs.flatMap PriceLevel.orders).map orderView = (ls.flatMap Level.orders).map (rowView t) := by
  have := congrArg (List.flatMap LevelView.orders) h
  simpa [List.flatMap_map, List.map_flatMap, levelView, viewLevel] using this

/-- The ids of a side. -/
theorem Shows.ids {ls : List Level} {cs : List PriceLevel} (h : Shows t ls cs) :
    (cs.flatMap PriceLevel.orders).map Order.id =
      (ls.flatMap Level.orders).map fun o => o.id.toNat := by
  have := congrArg (List.map OrderView.id) h.orders
  rwa [List.map_map, List.map_map] at this

/-- The ids of the book. -/
theorem Same.ids (h : Same b σ) : (allBookOrders σ).map Order.id = b.ids.map UInt64.toNat := by
  have hbids : Shows .bids b.bids σ.bids := (same_iff.mp h).1 .bids
  have hasks : Shows .asks b.asks σ.asks := (same_iff.mp h).1 .asks
  unfold Book.ids allBookOrders
  rw [b.orders_eq, List.map_map, List.map_append, List.map_append, hbids.ids, hasks.ids]
  rfl

/-- Both look for a duplicate in the same ids. -/
theorem idOnBook_iff (h : Same b σ) {id : UInt64} : idOnBook σ id.toNat = true ↔ id ∈ b.ids := by
  have hmem : id.toNat ∈ (allBookOrders σ).map Order.id ↔ id ∈ b.ids := by
    rw [h.ids, List.mem_map]
    exact ⟨fun ⟨i, hi, he⟩ => UInt64.toNat_inj.mp he ▸ hi, fun hi => ⟨id, hi, rfl⟩⟩
  rw [← hmem, List.mem_map]
  unfold idOnBook
  rw [List.any_eq_true]
  simp only [decide_eq_true_eq]

/-- Both count the same orders. -/
theorem bookSize_eq (h : Same b σ) : bookSize σ = b.orders.length := by
  have := congrArg List.length h.ids
  unfold bookSize
  rw [(same_iff.mp h).2]
  simpa [Book.ids] using this

/-- A side is searched for an id. -/
theorem Shows.search {ls : List Level} {cs : List PriceLevel} {id : UInt64} (h : Shows t ls cs) :
    searchSide cs id.toNat = none ↔ ∀ o ∈ ls.flatMap Level.orders, o.id ≠ id := by
  have hspec : searchSide cs id.toNat = none ↔
      id.toNat ∉ (cs.flatMap PriceLevel.orders).map Order.id := by
    unfold searchSide
    simp only [List.findSome?_eq_none_iff, List.find?_eq_none, List.mem_map, List.mem_flatMap,
      decide_eq_true_eq]
    exact ⟨fun h ⟨o, ⟨l, hl, ho⟩, he⟩ => h l hl o ho he, fun h l hl o ho he => h ⟨o, ⟨l, hl, ho⟩, he⟩⟩
  rw [hspec, h.ids, List.mem_map]
  exact ⟨fun h o ho he => h ⟨o, ho, congrArg _ he⟩,
    fun h ⟨o, ho, he⟩ => h o ho (UInt64.toNat_inj.mp he)⟩

/-- The specification takes an id out of each level, and a level that is left empty goes. -/
theorem removeLevelOrder_cons (level : PriceLevel) (cs : List PriceLevel) (id : ℕ) :
    removeLevelOrder (level :: cs) id =
      requeue level (level.orders.filter (·.id ≠ id)) (removeLevelOrder cs id) := by
  unfold removeLevelOrder requeue
  rw [List.filterMap_cons]
  cases level.orders.filter (·.id ≠ id) <;> rfl

/-- A side without an order shows the rows without it. -/
theorem Shows.remove {ls : List Level} {cs : List PriceLevel} {id : UInt64} (h : Shows t ls cs) :
    Shows t (removeId id ls) (removeLevelOrder cs id.toNat) := by
  induction ls generalizing cs with
  | nil =>
    obtain rfl : cs = [] := List.map_eq_nil_iff.mp h
    rfl
  | cons l ls ih =>
    obtain ⟨level, cs, rfl⟩ : ∃ level cs', cs = level :: cs' := by
      cases cs with
      | nil => cases h
      | cons level cs => exact ⟨level, cs, rfl⟩
    obtain ⟨hlevel, hcs⟩ := List.cons_eq_cons.mp h
    have horders : level.orders.map orderView = l.orders.map (rowView t) :=
      congrArg LevelView.orders hlevel
    have hfilter := congrArg (List.filter fun v : OrderView => v.id ≠ id.toNat) horders
    rw [List.filter_map, List.filter_map] at hfilter
    have hrows : l.orders.filter (·.id ≠ id) =
        l.orders.filter ((fun v : OrderView => decide (v.id ≠ id.toNat)) ∘ rowView t) :=
      List.filter_congr fun p _ => decide_eq_decide.mpr (not_congr UInt64.toNat_inj.symm)
    rw [removeLevelOrder_cons, removeId_cons]
    refine (ih hcs).requeue (congrArg LevelView.price hlevel) ?_
    rw [hrows]
    exact hfilter

/-- A cancellation. -/
theorem cancelOrder_agrees (h : Same b σ) (hinv : b.Inv) (id : UInt64) :
    match b.cancel id with
    | none => cancelOrder σ id.toNat = none
    | some b' => ∃ σ', cancelOrder σ id.toNat = some σ' ∧ Same b' σ' := by
  obtain ⟨hshow, hstops⟩ := same_iff.mp h
  have hbids : Shows .bids b.bids σ.bids := hshow .bids
  have hasks : Shows .asks b.asks σ.asks := hshow .asks
  -- The id is in use when the search on one of the sides finds it.
  have hids : id ∈ b.ids ↔ ¬ ((∀ o ∈ b.bids.flatMap Level.orders, o.id ≠ id) ∧
      ∀ o ∈ b.asks.flatMap Level.orders, o.id ≠ id) := by
    unfold Book.ids
    rw [b.orders_eq, List.mem_map]
    simp only [List.mem_append]
    constructor
    · rintro ⟨o, ho, he⟩ ⟨hb, ha⟩
      exact ho.elim (fun ho => hb o ho he) fun ho => ha o ho he
    · intro hn
      by_contra hc
      exact hn ⟨fun o ho he => hc ⟨o, .inl ho, he⟩, fun o ho he => hc ⟨o, .inr ho, he⟩⟩
  unfold Book.cancel cancelOrder findOrderOnBook
  by_cases hid : id ∈ b.ids
  swap
  · obtain ⟨hb, ha⟩ := not_not.mp (fun hn => hid (hids.mpr hn))
    rw [if_neg hid, hbids.search.mpr hb, hasks.search.mpr ha]
    rfl
  rw [if_pos hid]
  dsimp only
  have hnd := hinv.ids
  unfold Book.ids at hnd
  rw [b.orders_eq, List.map_append] at hnd
  -- No id is on both sides, so one side is left as it is.
  have hdisj := (List.nodup_append'.mp hnd).2.2
  cases hb : searchSide σ.bids id.toNat with
  | some o =>
    have hask : removeId id b.asks = b.asks := by
      refine removeId_eq_self (hinv.side .asks).nonempty fun p hp he => ?_
      have hsome : ¬ ∀ q ∈ b.bids.flatMap Level.orders, q.id ≠ id := fun hn => by
        rw [hbids.search.mpr hn] at hb
        cases hb
      push Not at hsome
      obtain ⟨q, hq, hqe⟩ := hsome
      exact hdisj (List.mem_map_of_mem hq) (hqe.trans he.symm ▸ List.mem_map_of_mem hp)
    refine ⟨_, rfl, same_iff.mpr ⟨fun s => ?_, hstops⟩⟩
    cases s with
    | bids => exact hbids.remove
    | asks =>
      rw [Book.side_asks, hask]
      exact hasks
  | none =>
    have hn := hbids.search.mp hb
    have hbid : removeId id b.bids = b.bids := removeId_eq_self (hinv.side .bids).nonempty hn
    cases ha : searchSide σ.asks id.toNat with
    | none => exact absurd ⟨hn, hasks.search.mp ha⟩ (hids.mp hid)
    | some o =>
      refine ⟨_, rfl, same_iff.mpr ⟨fun s => ?_, hstops⟩⟩
      cases s with
      | bids =>
        rw [Book.side_bids, hbid]
        exact hbids
      | asks => exact hasks.remove

/-! ## The step -/

/-- The requests that may rest are those that the specification lets rest. -/
theorem requestMayRest_iff {q : OrderRequest} (hd : q.decode = some r) :
    requestMayRest q = true ↔ r.rests := by
  have ht := OrderType.ofCode_eq_some.mpr (OrderRequest.decodes hd).otype
  unfold requestMayRest Request.rests
  rw [ht]
  simp

/-- A request of the specification is one of the generated engine. -/
theorem processB_order_agrees (cap : ℕ) (h : Same b σ) (hinv : b.Inv) (q : OrderRequest) :
    let x := processB cap σ (.order q)
    x.1.code = (b.processed cap q).1 ∧
      x.2.trades.map tradeObs = (b.processed cap q).2.trades.map viewTrade ∧
        Same (b.processed cap q).2.left x.2.book := by
  unfold processB toSpec
  dsimp only
  -- The rejections in the order in which both make them: decoding, bound, duplicate, room.
  cases hd : q.decode with
  | none =>
    cases ht : OrderType.ofCode q.order_type.toUInt64 with
    | none =>
      rw [Book.processed_unsupported ht]
      exact ⟨rfl, rfl, h⟩
    | some ot =>
      rw [Book.processed_invalid (by rw [ht]; rfl) hd]
      exact ⟨rfl, rfl, h⟩
  | some r =>
    have hdec := OrderRequest.decodes hd
    rw [OrderType.ofCode_eq_some.mpr hdec.otype, Book.processed_valid hd, ← hdec.qty,
      show Book.qmax cap = qmax cap from rfl]
    dsimp only [Option.map_some]
    by_cases hq : qmax cap < r.qty.toNat
    · rw [if_pos hq, if_pos hq]
      exact ⟨rfl, rfl, h⟩
    rw [if_neg hq, if_neg hq]
    have hid : idOnBook σ (mkOrder r).id = true ↔ r.id ∈ b.ids := idOnBook_iff h
    by_cases hdup : r.id ∈ b.ids
    · rw [if_pos (hid.mpr hdup), if_pos hdup]
      exact ⟨rfl, rfl, h⟩
    rw [if_neg (fun hc => hdup (hid.mp hc)), if_neg hdup]
    have hfull : (requestMayRest q && decide (cap ≤ bookSize σ)) = true ↔
        r.rests ∧ cap ≤ b.orders.length := by
      rw [Bool.and_eq_true, requestMayRest_iff hd, decide_eq_true_iff, bookSize_eq h]
    by_cases hcap : r.rests ∧ cap ≤ b.orders.length
    · rw [if_pos (hfull.mpr hcap), if_pos hcap]
      exact ⟨rfl, rfl, h⟩
    rw [if_neg (fun hc => hcap (hfull.mp hc)), if_neg hcap]
    -- The code of the specification says whether the post-only test refuses.
    have hcode : postOnlyCode (mkOrder r) σ = if r.otype = .postOnly ∧ b.crossing r then
        .rejectedPostOnly else .accepted := by
      unfold postOnlyCode
      by_cases hp : r.otype = .postOnly
      · have hm : r.otype ≠ .market := by rw [hp]; decide
        have hcross : wouldCross (mkOrder r) σ = true ↔ b.crossing r :=
          wouldCross_iff h (incoming_stamped r 0) hm
        have hpo : (mkOrder r).postOnly = true := decide_eq_true hp
        rw [hpo, Bool.true_and]
        by_cases hc : b.crossing r
        · rw [if_pos (hcross.mpr hc), if_pos ⟨hp, hc⟩]
        · rw [if_neg (fun ht => hc (hcross.mp ht)), if_neg (fun ht => hc ht.2)]
      · have hpo : (mkOrder r).postOnly = false := decide_eq_false hp
        rw [hpo, Bool.false_and, if_neg Bool.false_ne_true, if_neg (fun hc => hp hc.1)]
    have hproc := processWithId_agrees h hinv (r := r)
    dsimp only at hproc ⊢
    rw [hcode]
    by_cases hpost : r.otype = .postOnly ∧ b.crossing r
    · rw [if_pos hpost] at hproc
      rw [if_pos hpost, if_pos hpost, hproc.1]
      exact ⟨rfl, rfl, hproc.2⟩
    · rw [if_neg hpost] at hproc
      rw [if_neg hpost, if_neg hpost]
      exact ⟨rfl, hproc⟩

/-- A cancellation of the specification is one of the generated engine. -/
theorem processB_cancel_agrees (cap : ℕ) (h : Same b σ) (hinv : b.Inv) (id : UInt64) :
    let x := processB cap σ (.cancel id)
    x.1.code = (b.cancelled id).1 ∧ x.2.trades = [] ∧ Same (b.cancelled id).2 x.2.book := by
  have hag := cancelOrder_agrees h hinv id
  unfold processB Book.cancelled
  dsimp only
  cases hc : b.cancel id with
  | none =>
    rw [hc] at hag
    rw [hag]
    exact ⟨rfl, rfl, h⟩
  | some b' =>
    rw [hc] at hag
    obtain ⟨σ', hσ, hsame⟩ := hag
    rw [hσ]
    exact ⟨rfl, rfl, hsame⟩

end Books

end MatchingEngine.Spec
