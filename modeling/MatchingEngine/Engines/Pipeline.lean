import MatchingEngine.Book.Step
import MatchingEngine.Cpp.Amends
import MatchingEngine.Engines.Matching

/-!
# The pipeline of the C++ engine on the common orders

What `submitOrder` and `cancelOrder` of the C++ engine do on the common orders, from an engine
without dormant stops that holds the orders of a book: what the book does. No stop means that a
trade that is reported triggers nothing, so the cascade is the loop that reports the trades.

The functions of the pipeline are taken in turn: matching, resting, settling the remainder, the
reports, and the whole of `processActive`. `Agree` relates the values of the C++ engine to a book of
C, and each lemma keeps it. `Plain` is what the pipeline looks at in the order of a request: a limit
or a market order, immediate or not, perhaps post-only, without a minimum quantity.
-/

namespace MatchingEngine.Engines

open Contract
open Cpp (Order Levels Tape Flat Fate Trade StdSort Inv)

/-- The C++ engine holds the orders of the book, has no dormant stop, and rejects post-only orders
that would cross. -/
structure Agree (b : Book) (f : Flat) : Prop where
  sides : ∀ t, Sides (b.side t) (f.side (sideOf t))
  stops : f.stops = []
  poPol : f.tape.poPol = .REJECT

/-- The request as the C++ engine takes it. -/
def input (r : Request) : Cpp.OrderInput where
  id := r.id
  side := sideOf r.side
  orderType := if r.otype = .market then .MARKET else .LIMIT
  timeInForce := if r.rests then .GTC else .IOC
  price := limitOf r
  quantity := r.qty.toNat
  postOnly := r.otype = .postOnly
  selfTradeGroup := r.account
  stpPolicy := policyOf r.stp

/-- An account and a self-trade prevention mode go together. -/
def Prevents (r : Request) : Prop := r.account = 0 ↔ r.stp = .none

instance (r : Request) : Decidable (Prevents r) := inferInstanceAs (Decidable (_ ↔ _))

section Pipeline

variable {S : StdSort} {b : Book} {f f' : Flat} {r : Request} {rem : UInt64} {o o' : Order}
  {t t' : Tape}

/-- The sides of the two engines are opposite together. -/
theorem opposite_sideOf (t : Tree) : Cpp.oppositeSide (sideOf t) = sideOf t.other := by
  cases t <;> rfl

/-- What else the C++ engine writes is in no book. -/
theorem Agree.withTape (h : Agree b f) (ht : t.poPol = .REJECT) : Agree b (f.withTape t) :=
  ⟨fun s => by cases s <;> exact h.sides _, h.stops, ht⟩

/-- A side of both is replaced. -/
theorem Agree.setSide (h : Agree b f) {ls : List Level} {m : Levels} (t : Tree) (hm : Sides ls m) :
    Agree (b.setSide ls t) (f.setSide (sideOf t) m) := by
  refine ⟨fun s => ?_, ?_, ?_⟩
  · by_cases hs : s = t
    · subst hs
      rw [Book.side_setSide_self, Cpp.Flat.side_setSide]
      exact hm
    · rw [Book.side_setSide, if_neg hs]
      have hside := h.sides s
      cases s <;> cases t <;> first | exact absurd rfl hs | exact hside
  · cases t <;> exact h.stops
  · cases t <;> exact h.poPol

/-! ## Matching -/

/-- The match of an order: the trades, what is left of it, and what is left of the other side. -/
theorem matchOrd_agrees (h : Agree b f) (hb : b.Inv) (hstp : Prevents r) (hi : Incoming r rem o)
    (hst : o.status ≠ .CANCELLED) : ∃ o' f', Flat.matchOrd o f = some (o', f') ∧
      Left (b.matchedFrom r rem).rem o o' ∧ Agree (b.matchedFrom r rem).left f' ∧
      Tells (b.matchedFrom r rem).trades f.tape f'.tape := by
  have hpos : ∀ l ∈ b.side r.side.other, ∀ row ∈ l.orders, row.remaining ≠ 0 := by
    intro l hl row hrow h0
    have hpos := ((hb.side r.side.other).row l hl row hrow).pos
    rw [h0] at hpos
    exact absurd hpos (UInt64.lt_irrefl 0)
  obtain ⟨⟨o', m', t'⟩, hmatch, hleft, hside, htells⟩ := matchLevels_agrees
    (fun ha hs => ha (hstp.mpr hs)) (h.sides r.side.other) hpos rem o f.tape hi hst
  refine ⟨o', (f.setSide (sideOf r.side.other) m').withTape t', ?_, hleft, ?_, htells⟩
  · unfold Flat.matchOrd
    rw [hi.side, opposite_sideOf]
    exact congrArg (Option.map _) hmatch
  · exact (h.setSide _ hside).withTape (htells.poPol.trans h.poPol)

/-! ## What is left of an order -/

/-- An order queues up in both at its price. -/
theorem enqueue_agrees {ls : List Level} {m : Levels} (s : Tree) (hm : Sides ls m) {row : OrderRow}
    (ho : Stands row.price row o) : Sides (insertRow s row ls) (Cpp.enqueue (sideOf s) o m) := by
  induction hm with
  | nil => exact .cons ⟨ho.price, .cons ho .nil⟩ .nil
  | @cons l l' ls m hl hm ih =>
    obtain ⟨_, q⟩ := l'
    obtain ⟨rfl, hq⟩ := hl
    -- The comparisons of prices are the same, as signed integers and as words.
    have hbetter :
        Cpp.better (sideOf s) o.price l.price.toNat = true ↔ before s row.price l.price := by
      rw [ho.price]
      cases s
      · exact decide_eq_true_iff.trans (Int.ofNat_lt.trans UInt64.lt_iff_toNat_lt.symm)
      · exact decide_eq_true_iff.trans (Int.ofNat_lt.trans UInt64.lt_iff_toNat_lt.symm)
    have hsame : o.price = l.price.toNat ↔ row.price = l.price := by
      rw [ho.price, Int.natCast_inj, UInt64.toNat_inj]
    unfold insertRow Cpp.enqueue
    -- At the end of this level, before it, or further on.
    by_cases he : row.price = l.price
    · have hnot : ¬ before s row.price l.price := by
        rw [he]
        exact not_before_self s l.price
      rw [if_pos he, if_neg (mt hbetter.mp hnot), if_pos (hsame.mpr he)]
      exact .cons ⟨rfl, List.rel_append hq (.cons (he ▸ ho) .nil)⟩ hm
    · rw [if_neg he]
      by_cases hbefore : before s row.price l.price
      · rw [if_pos hbefore, if_pos (hbetter.mpr hbefore)]
        exact .cons ⟨ho.price, .cons ho .nil⟩ (.cons ⟨rfl, hq⟩ hm)
      · rw [if_neg hbefore, if_neg (mt hbetter.mp hbefore), if_neg (mt hsame.mp he)]
        exact .cons ⟨rfl, hq⟩ ih

/-- The order that rests, with a status. -/
theorem rest_agrees (h : Agree b f) (hi : Incoming r rem o) (hm : r.otype ≠ .market)
    (st : Cpp.OrderStatus) : Agree (b.rest (r.row rem) r.side) (Flat.rest o st f) ∧
      Tells [] f.tape (Flat.rest o st f).tape := by
  have hshown : o.shown o.remainingQty = rem.toNat := by
    unfold Order.shown
    rw [hi.display, if_neg (lt_irrefl _), hi.remaining]
  have hprice : o.price = r.price.toNat := by
    rw [hi.price, limitOf, if_neg hm]
  unfold Flat.rest Book.rest
  dsimp only
  rw [hi.side]
  refine ⟨Agree.withTape (h.setSide r.side (enqueue_agrees r.side (h.sides r.side) ?_)) h.poPol,
    .mark _ rfl⟩
  exact ⟨hi.id, hprice, hi.remaining, hshown, hi.display, hi.group⟩

/-! ## The reports -/

/-- No stop is woken. -/
theorem evalStops_idle (active : Order → ℕ → Flat → Option Flat) (px : ℤ) (d : ℕ)
    (hf : f.stops = []) : Flat.evalStops S active px d f = some f := by
  have htake : Cpp.takeOut (Cpp.fires px) (f.stops.length + 1) 0 f.stops [] = some ([], []) := by
    rw [hf]
    rfl
  have hsort : S.sort (·.timestamp) ([] : List Order) = [] :=
    List.perm_nil.mp (Cpp.Flat.perm_sort S _ [])
  unfold Flat.evalStops
  rw [htake]
  dsimp only
  rw [hsort]
  obtain ⟨bids, asks, stops, tape⟩ := f
  obtain rfl : stops = [] := hf
  rfl

/-- The trades are reported and nothing else happens. -/
theorem emitLoop_idle (active : Order → ℕ → Flat → Option Flat) (depth : ℕ) : ∀ n i (f : Flat),
    f.stops = [] → i + n ≤ f.tape.trades.length → ∃ t,
      Flat.emitLoop (Flat.evalStops S active) depth n i f = some (f.withTape t) ∧
        Tells [] f.tape t := by
  intro n
  induction n with
  | zero => exact fun _ f _ _ => ⟨f.tape, rfl, .refl _⟩
  | succ n ih =>
    intro i f hf hlen
    have hlt : i < f.tape.trades.length := by omega
    have hidle : ∀ px t, Flat.evalStops S active px depth (f.withTape t) = some (f.withTape t) :=
      fun px t => evalStops_idle active px depth hf
    obtain ⟨t, ht, htells⟩ := ih (i + 1) (f.withTape { f.tape.event (.onTrade f.tape.trades[i]) with
      lastPx := f.tape.trades[i].price, lastDepth := depth }) hf (by
        change i + 1 + n ≤ f.tape.trades.length
        omega)
    refine ⟨t, ?_, ⟨htells.executed.trans ?_, htells.poPol⟩⟩
    · unfold Flat.emitLoop
      rw [List.getElem?_eq_getElem hlt]
      dsimp only
      rw [hidle, ite_self]
      exact ht
    · have htold := Tells.mark f.tape (m := .event (.onTrade f.tape.trades[i])) rfl
      exact (List.append_nil _).trans htold.executed

/-- Without stops, the reports of a match change the tape only. -/
theorem emitAndTrigger_idle (active : Order → ℕ → Flat → Option Flat) (start depth : ℕ)
    (hf : f.stops = []) : ∃ t,
      Flat.emitAndTrigger (Flat.evalStops S active) start depth f = some (f.withTape t) ∧
        Tells [] f.tape t := by
  unfold Flat.emitAndTrigger
  rcases Nat.le_total start f.tape.trades.length with hle | hle
  · exact emitLoop_idle active depth _ _ f hf (by omega)
  · rw [Nat.sub_eq_zero_of_le hle]
    exact ⟨f.tape, rfl, .refl _⟩

/-! ## The pipeline -/

/-- What of the incoming order decides how it goes through the pipeline. -/
structure Plain (r : Request) (o : Order) : Prop where
  type : o.orderType = if r.otype = .market then .MARKET else .LIMIT
  tif : o.timeInForce = if r.rests then .GTC else .IOC
  postOnly : o.postOnly = decide (r.otype = .postOnly)
  minQty : o.minQty = 0

/-- What matching changes of an order does not make it another order. -/
theorem Plain.alike (h : Plain r o) (ha : Flat.Alike o o') : Plain r o' := by
  rw [ha]
  exact ⟨h.type, h.tif, h.postOnly, h.minQty⟩

/-- What is left of the order rests, is cancelled, or is nothing. -/
theorem settle_agrees {rem₀ : UInt64} (h : Agree b f) (hp : Plain r o') (hi : Incoming r rem₀ o)
    (hleft : Left rem o o') (hasTr : Bool) : ∃ d f', Flat.settle o' hasTr f = some (d, f') ∧
      Agree (if rem ≠ 0 ∧ r.rests then b.rest (r.row rem) r.side else b) f' ∧
      Tells [] f.tape f'.tape := by
  -- Nothing rests, and the tape at most gains an entry.
  have hgone : ∀ m : Cpp.Mark, (rem = 0 ∨ ¬ r.rests) →
      Agree (if rem ≠ 0 ∧ r.rests then b.rest (r.row rem) r.side else b)
        (f.withTape (f.tape.mark m)) := by
    intro m hx
    rw [if_neg fun h : rem ≠ 0 ∧ r.rests => hx.elim h.1 fun hn => hn h.2]
    exact h.withTape h.poPol
  have hsame : rem = 0 → Agree (if rem ≠ 0 ∧ r.rests then b.rest (r.row rem) r.side else b) f := by
    intro h0
    rw [if_neg fun h : rem ≠ 0 ∧ r.rests => h.1 h0]
    exact h
  -- A cancelled order is not disposed of.
  by_cases hst : o'.status = .CANCELLED
  · exact ⟨_, _, if_neg (not_not.mpr hst), hsame (hleft.cancelled hst), .refl _⟩
  have hi' := hi.alike hleft.alike (hleft.going hst)
  rw [show Flat.settle o' hasTr f = Flat.dispose o' hasTr f from if_pos hst]
  by_cases h0 : rem = 0
  · have hzero : o'.remainingQty = 0 := by
      rw [hi'.remaining, h0]
      rfl
    exact ⟨_, _, if_pos hzero, hsame h0, .refl _⟩
  have hne : o'.remainingQty ≠ 0 := by
    rw [hi'.remaining]
    exact fun hx => h0 (UInt64.toNat_inj.mp (Int.natCast_inj.mp hx))
  unfold Flat.dispose
  rw [if_neg hne, hp.tif]
  -- A remainder rests, or it is cancelled as that of an IOC or market order.
  by_cases hrests : r.rests
  · have hm : r.otype ≠ .market := by
      rcases hrests with hx | hx <;> rw [hx] <;> decide
    have hlimit : o'.orderType ≠ .MARKET := by
      rw [hp.type, if_neg hm]
      decide
    obtain ⟨hagree, htells⟩ := rest_agrees h hi' hm (if hasTr then .PARTIALLY_FILLED else .NEW)
    rw [if_pos hrests, if_pos (show rem ≠ 0 ∧ r.rests from ⟨h0, hrests⟩)]
    exact ⟨_, _, if_neg hlimit, hagree, htells⟩
  · have hgone := hgone
      (.event (.onOrderCancelled { o' with status := .CANCELLED } "IOC_REMAINDER")) (.inr hrests)
    rw [if_neg hrests]
    exact ⟨_, _, rfl, hgone, .mark _ rfl⟩

/-- An order that is done with leaves both books as they are. -/
theorem finish_agrees (h : Agree b f) (d : Option Order) :
    Agree b (Flat.finish d f) ∧ Tells [] f.tape (Flat.finish d f).tape := by
  cases d with
  | none => exact ⟨h, .refl _⟩
  | some o => exact ⟨h.withTape h.poPol, .mark _ rfl⟩

/-- Both engines find the same post-only orders to cross. -/
theorem wouldCross_iff (h : Agree b f) (hi : Incoming r rem o) (hm : r.otype ≠ .market) :
    Flat.wouldCross o f = true ↔ b.crossing r := by
  have hside := h.sides r.side.other
  have hprice : o.price = r.price.toNat := by rw [hi.price, limitOf, if_neg hm]
  have hcross : ∀ l : Level, r.crosses l.price ↔ better r.side.other l.price r.price := fun l =>
    or_iff_right hm
  unfold Flat.wouldCross Book.crossing
  rw [hi.side, hprice]
  -- The best level of the other side decides, and there is none in one book just when in the other.
  cases hr : r.side with
  | bids =>
    rw [hr] at hside
    change Sides b.asks f.asks at hside
    change _ ↔ ∃ l ∈ b.asks.head?, _
    revert hside
    generalize b.asks = ls
    generalize f.asks = m
    intro hside
    cases hside with
    | nil => exact iff_of_false Bool.false_ne_true (by rintro ⟨l, hl, -⟩; cases hl)
    | @cons l l' ls m hl hm =>
      simp only [List.head?_cons, Option.mem_some, exists_eq_left', hcross, hr, sideOf, hl.1]
      exact decide_eq_true_iff.trans (better_iff_le .asks l.price r.price).symm
  | asks =>
    rw [hr] at hside
    change Sides b.bids f.bids at hside
    change _ ↔ ∃ l ∈ b.bids.head?, _
    revert hside
    generalize b.bids = ls
    generalize f.bids = m
    intro hside
    cases hside with
    | nil => exact iff_of_false Bool.false_ne_true (by rintro ⟨l, hl, -⟩; cases hl)
    | @cons l l' ls m hl hm =>
      simp only [List.head?_cons, Option.mem_some, exists_eq_left', hcross, hr, sideOf, hl.1]
      exact decide_eq_true_iff.trans (better_iff_le .bids l.price r.price).symm

/-- The phase that matches, in an engine without stops. -/
theorem matchPhase_agrees (h : Agree b f) (hb : b.Inv) (hstp : Prevents r)
    (hi : Incoming r r.qty o) (hp : Plain r o) (hst : o.status ≠ .CANCELLED)
    (active : Order → ℕ → Flat → Option Flat) : ∃ f',
      Flat.matchPhase (Flat.emitAndTrigger (Flat.evalStops S active)) o 0 f = some f' ∧
        Agree (b.place r).left f' ∧ Tells (b.place r).trades f.tape f'.tape := by
  -- The phase in its parts: matching, settling, reports, departure.
  obtain ⟨o', f₁, hmatch, hleft, hagree, htells⟩ := matchOrd_agrees h hb hstp hi hst
  have hp' := hp.alike hleft.alike
  obtain ⟨d, f₂, hsettle, hagree₂, htells₂⟩ := settle_agrees hagree hp' hi hleft
    (decide (f.tape.trades.length < f₁.tape.trades.length))
  obtain ⟨t, hemit, htells₃⟩ := emitAndTrigger_idle (S := S) active f.tape.trades.length 0
    hagree₂.stops
  obtain ⟨hagree₄, htells₄⟩ := finish_agrees
    (hagree₂.withTape (htells₃.poPol.trans hagree₂.poPol)) d
  -- No minimum quantity is there to be dropped.
  have hplain : Flat.matchPlain f.tape.trades.length o f = some (d, f₂) := by
    unfold Flat.matchPlain
    rw [hmatch]
    refine Eq.trans (congrArg (fun x => Flat.settle x _ f₁) ?_) hsettle
    change { o' with minQty := _ } = o'
    rw [if_neg fun hx : 0 < o'.minQty ∧ _ => absurd hx.1 (by rw [hp'.minQty]; decide)]
  have htype : o.orderType ≠ .MARKET_TO_LIMIT := by
    rw [hp.type]
    split <;> decide
  have htells := ((htells.trans htells₂).trans htells₃).trans htells₄
  rw [List.append_nil, List.append_nil, List.append_nil] at htells
  have hplace : (b.place r).left = if (b.matched r).rem ≠ 0 ∧ r.rests then
      (b.matched r).left.rest (r.row (b.matched r).rem) r.side else (b.matched r).left := by
    by_cases hrest : (b.matched r).rem ≠ 0 ∧ r.rests
    · rw [Book.place_of_rests hrest, if_pos hrest]
    · rw [Book.place_of_not_rests hrest, if_neg hrest]
  have htrades : (b.place r).trades = (b.matched r).trades := by
    by_cases hrest : (b.matched r).rem ≠ 0 ∧ r.rests
    · rw [Book.place_of_rests hrest]
    · rw [Book.place_of_not_rests hrest]
  refine ⟨Flat.finish d (f₂.withTape t), ?_, hplace ▸ hagree₄, htrades ▸ htells⟩
  unfold Flat.matchPhase
  dsimp only
  rw [if_neg htype, hplain]
  exact congrArg (Option.bind · _) hemit

/-- What the book does with a request of a new id: a post-only request that would cross is dropped.
-/
def taken (b : Book) (r : Request) : Outcome Book :=
  if r.otype = .postOnly ∧ b.crossing r then ⟨b, r.qty, []⟩ else b.place r

/-- `processActive` of an order of the C engine, from its post-only check to its reports. -/
theorem processActive_agrees (h : Agree b f) (hb : b.Inv) (hstp : Prevents r)
    (hi : Incoming r r.qty o) (hp : Plain r o) (hst : o.status ≠ .CANCELLED) : ∃ f',
      Flat.processActive S o 0 f = some f' ∧ Agree (taken b r).left f' ∧
        Tells (taken b r).trades f.tape f'.tape := by
  unfold Flat.processActive Flat.processActiveIn Flat.processActiveWith taken
  -- A post-only order is refused or rests, and any other goes on to match.
  by_cases hpo : r.otype = .postOnly
  · have hm : r.otype ≠ .market := by
      rw [hpo]
      decide
    rw [if_pos (by rw [hp.postOnly, hpo]; rfl)]
    unfold Flat.postOnlyPhase
    by_cases hcross : b.crossing r
    · rw [if_pos (show r.otype = .postOnly ∧ b.crossing r from ⟨hpo, hcross⟩),
        if_pos ((wouldCross_iff h hi hm).mpr hcross), if_pos h.poPol]
      exact ⟨_, rfl, h.withTape h.poPol, Tells.trans (.mark _ rfl) (.mark _ rfl)⟩
    · have hmatched := Book.matched_of_not_crossing hcross
      have hrest : (b.matched r).rem ≠ 0 ∧ r.rests := ⟨by rw [hmatched]; exact r.qty_ne, .inr hpo⟩
      rw [if_neg fun hx : r.otype = .postOnly ∧ b.crossing r => hcross hx.2,
        if_neg (mt (wouldCross_iff h hi hm).mp hcross), Book.place_of_rests hrest, hmatched]
      obtain ⟨hagree, htells⟩ := rest_agrees h hi hm .NEW
      exact ⟨_, rfl, hagree, htells⟩
  -- Both checks of phase 3 are for orders that the C engine does not have.
  · have hfok : o.timeInForce ≠ .FOK := by
      rw [hp.tif]
      split <;> decide
    have hmin : ¬ 0 < o.minQty := by
      rw [hp.minQty]
      decide
    rw [if_neg fun hx : r.otype = .postOnly ∧ b.crossing r => hpo hx.1,
      if_neg (by rw [hp.postOnly]; exact fun hx => hpo (of_decide_eq_true hx)),
      if_neg fun hx => hfok hx.1, if_neg fun hx => hmin hx.1]
    exact matchPhase_agrees h hb hstp hi hp hst _

/-! ## Calls -/

/-- The ids of a queue. -/
theorem queue_ids {p : UInt64} {os : List OrderRow} {q : List Order} (hq : Queues p os q) :
    q.map (·.id) = os.map (·.id) := by
  induction hq with
  | nil => rfl
  | cons ho _ ih => rw [List.map_cons, List.map_cons, ih, ho.id]

/-- The ids of a side. -/
theorem side_ids {ls : List Level} {m : Levels} (hm : Sides ls m) :
    m.orders.map (·.id) = (ls.flatMap Level.orders).map (·.id) := by
  induction hm with
  | nil => rfl
  | cons hl _ ih =>
    rw [Levels.orders_cons, List.flatMap_cons, List.map_append, List.map_append, ih, queue_ids hl.2]

/-- The same ids are in use. -/
theorem Agree.ids (h : Agree b f) (id : UInt64) : (∃ o ∈ f.orders, o.id = id) ↔ id ∈ b.ids := by
  have hbids := side_ids (h.sides .bids)
  have hasks := side_ids (h.sides .asks)
  have hids : f.orders.map (·.id) = b.ids := by
    unfold Flat.orders Book.ids Book.orders
    rw [h.stops, List.append_nil, List.map_append, List.flatMap_append, List.map_append]
    exact congrArg₂ _ hbids hasks
  rw [← hids]
  exact List.mem_map.symm

/-- A request of the common orders is valid for the C++ engine. -/
theorem validate_input (hstp : Prevents r) (now : ℕ) :
    Cpp.validate now ((input r).order now) = none := by
  have hquantity : r.qty.toNat ≠ 0 := Nat.ne_of_gt (toNat_pos r.qty_ne)
  have hprice : r.otype ≠ .market → r.price.toNat ≠ 0 := fun hm =>
    Nat.ne_of_gt (toNat_pos (r.price_ne hm))
  have hgroup : r.account = 0 ↔ policyOf r.stp = .NONE := by
    refine hstp.trans ?_
    cases r.stp <;> decide
  -- Each type has the fields that its rules ask for.
  cases hm : r.otype with
  | market =>
    have hrests : ¬ r.rests := by
      unfold Request.rests
      rw [hm]
      decide
    simp [Cpp.validate, input, Cpp.OrderInput.order, limitOf, hm, hrests, hquantity, hgroup]
  | limit =>
    have hrests : r.rests := .inl hm
    have hprice := hprice (by rw [hm]; decide)
    simp [Cpp.validate, input, Cpp.OrderInput.order, limitOf, hm, hrests, hquantity, hgroup, hprice]
  | ioc =>
    have hrests : ¬ r.rests := by
      unfold Request.rests
      rw [hm]
      decide
    have hprice := hprice (by rw [hm]; decide)
    simp [Cpp.validate, input, Cpp.OrderInput.order, limitOf, hm, hrests, hquantity, hgroup, hprice]
  | postOnly =>
    have hrests : r.rests := .inr hm
    have hprice := hprice (by rw [hm]; decide)
    simp [Cpp.validate, input, Cpp.OrderInput.order, limitOf, hm, hrests, hquantity, hgroup, hprice]

/-- `submitOrder` of a common order. -/
theorem submitOrder_agrees (h : Agree b f) (hb : b.Inv) (hstp : Prevents r) : ∃ f',
    Flat.submitOrder S (input r) f = some (decide (r.id ∉ b.ids), f') ∧
      Agree (if r.id ∈ b.ids then b else (taken b r).left) f' ∧
      Tells (if r.id ∈ b.ids then [] else (taken b r).trades) f.tape f'.tape := by
  have hdup : (f.orders.any fun o => o.id = (input r).id) = true ↔ r.id ∈ b.ids := by
    rw [← h.ids, List.any_eq_true]
    simp only [decide_eq_true_eq]
    rfl
  unfold Flat.submitOrder
  -- A duplicate is refused by both, before anything else.
  by_cases hid : r.id ∈ b.ids
  · rw [if_pos (hdup.mpr hid), if_pos hid, if_pos hid, decide_eq_false (not_not.mpr hid)]
    exact ⟨_, rfl, h.withTape h.poPol, .mark _ rfl⟩
  · have hi : Incoming r r.qty ((input r).order (f.tape.now + 1)) :=
      ⟨rfl, rfl, rfl, rfl, rfl, rfl, rfl⟩
    have hp : Plain r ((input r).order (f.tape.now + 1)) := ⟨rfl, rfl, rfl, rfl⟩
    have hclear : Agree b (f.withTape
        (f.tape.tick.event (.onOrderAccepted ((input r).order (f.tape.now + 1))))).clear :=
      h.withTape h.poPol
    obtain ⟨f', hrun, hagree, htells⟩ := processActive_agrees (S := S) hclear hb hstp hi hp
      fun h => by cases h
    -- No common order is a stop, so it goes on to be processed.
    have hstop : ¬ (((input r).order (f.tape.now + 1)).orderType = .STOP_LIMIT ∨
        ((input r).order (f.tape.now + 1)).orderType = .STOP_MARKET) := by
      rw [hp.type]
      split <;> decide
    rw [if_neg (mt hdup.mp hid), if_neg hid, if_neg hid, decide_eq_true hid]
    dsimp only
    rw [validate_input hstp]
    dsimp only
    refine ⟨f', ?_, hagree, ?_⟩
    · unfold Flat.process
      rw [if_neg hstop, hrun]
      rfl
    · have haccept := (Tells.mark f.tape
        (m := .event (.onOrderAccepted ((input r).order (f.tape.now + 1)))) rfl).executed
      exact ⟨htells.executed.trans (congrArg (· ++ _) (haccept.trans (List.append_nil _))),
        htells.poPol⟩

/-- A queue without an id. -/
theorem queue_keep {p : UInt64} {os : List OrderRow} {q : List Order} (id : UInt64)
    (hq : Queues p os q) : Queues p (os.filter (·.id ≠ id)) (q.filter (·.id ≠ id)) := by
  induction hq with
  | nil => exact .nil
  | @cons row o os q ho _ ih =>
    rw [List.filter_cons, List.filter_cons, ho.id]
    split
    · exact .cons ho ih
    · exact ih

/-- An order taken out of both. -/
theorem side_keep {ls : List Level} {m : Levels} (id : UInt64) (hm : Sides ls m) :
    Sides (removeId id ls) (m.keep (·.id ≠ id)) := by
  induction hm with
  | nil => exact .nil
  | @cons l l' ls m hl hm ih =>
    obtain ⟨_, q⟩ := l'
    obtain ⟨rfl, hq⟩ := hl
    have hkeep := queue_keep id hq
    rw [removeId_cons, Levels.keep_cons]
    unfold Request.relevel Cpp.front
    revert hkeep
    generalize l.orders.filter (·.id ≠ id) = os
    generalize q.filter (·.id ≠ id) = q'
    intro hkeep
    cases hkeep with
    | nil => exact ih
    | cons ho hq => exact .cons ⟨rfl, .cons ho hq⟩ ih

/-- `cancelOrder`. -/
theorem cancelOrder_agrees (h : Agree b f) (hi : Inv f []) (id : UInt64) :
    (Flat.cancelOrder id f).1 = (b.cancel id).isSome ∧
      Agree ((b.cancel id).getD b) (Flat.cancelOrder id f).2 ∧
      Tells [] f.tape (Flat.cancelOrder id f).2.tape := by
  unfold Book.cancel
  by_cases hid : id ∈ b.ids
  · obtain ⟨o, ho, rfl⟩ := (h.ids id).mpr hid
    -- There are no stops, so an order that the engine has rests on one of the sides.
    have hside : ∃ s, o ∈ (f.side s).orders := by
      unfold Flat.orders at ho
      rw [h.stops, List.append_nil] at ho
      exact (List.mem_append.mp ho).elim (fun hx => ⟨_, hx⟩) fun hx => ⟨_, hx⟩
    obtain ⟨s, ho⟩ := hside
    rw [if_pos hid, Cpp.Flat.cancelOrder_resting hi ho]
    have htape : (f.unlink s o).tape = f.tape := Cpp.Flat.tape_setSide _ _ _
    refine ⟨rfl, ⟨fun t => ?_, ?_, ?_⟩, ?_⟩
    · have hkeep := side_keep o.id (h.sides t)
      rw [← Cpp.Flat.side_unlink hi ho] at hkeep
      cases t <;> exact hkeep
    · cases s <;> exact h.stops
    · change (f.unlink s o).tape.poPol = _
      rw [htape]
      exact h.poPol
    · have htells : Tells [] (f.unlink s o).tape
          (Flat.kill o "USER_REQUESTED" (f.unlink s o)).tape :=
        Tells.trans (.mark _ rfl) (.mark _ rfl)
      rw [htape] at htells
      exact htells
  · rw [if_neg hid]
    -- The C++ engine finds no order either.
    cases hl : f.locate id with
    | none =>
      unfold Flat.cancelOrder
      rw [hl]
      exact ⟨rfl, h, .refl _⟩
    | some w =>
      have hmem := Cpp.Flat.mem_of_locate hl
      refine absurd ((h.ids id).mp ?_) hid
      cases w with
      | resting s o => exact ⟨o, Cpp.Flat.mem_orders hmem.1, hmem.2⟩
      | dormant o => exact ⟨o, Cpp.Flat.mem_orders_stop hmem.1, hmem.2⟩

end Pipeline

end MatchingEngine.Engines
