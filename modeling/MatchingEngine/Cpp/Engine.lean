import Mathlib.Data.List.Sort
import MatchingEngine.Cpp.State

/-!
# The C++ engine

The member functions of `class Engine` of `cpp_reference/src/engine.h`. A template parameter `M` is
the side of the book that it is instantiated with. A loop over a queue or over the levels of a side
takes a bound on its turns that no run from a state of the engine exceeds, and the recursion of
`processActive` through `evalStops` takes the depth that is left.

`std::sort` is not stable and its order on equal keys is not fixed, so it is a parameter.
-/

namespace MatchingEngine.Cpp

open Lib

/-- What the engine uses of `std::sort`: the places from which it takes the elements, in increasing
order of their keys. They depend on the outcomes of comparisons of keys only. -/
structure StdSort where
  /-- For the keys of a range, where the elements of the sorted range come from. -/
  places : List ℕ → List ℕ
  perm : ∀ ks, (places ks).Perm (List.range ks.length)
  sorted : ∀ ks, ((places ks).map fun i => ks.getD i 0).Pairwise (· ≤ ·)

/-- `std::sort` with a key. -/
def StdSort.sort {α : Type} (S : StdSort) (key : α → ℕ) (v : List α) : List α :=
  (S.places (v.map key)).filterMap fun i => v[i]?

/-! ## Predicates -/

/-- `canMatch`. -/
def canMatch (inc : Order) (lvPx : ℤ) : Bool :=
  if inc.price = 0 then true
  else match inc.side with
    | .BUY => lvPx ≤ inc.price
    | .SELL => inc.price ≤ lvPx

/-- `wouldCross`. -/
def wouldCross (o : Order) (s : Engine) : Bool :=
  match o.side with
  | .BUY => match s.asks_ with
    | [] => false
    | e :: _ => e.1 ≤ o.price
  | .SELL => match s.bids_ with
    | [] => false
    | e :: _ => o.price ≤ e.1

/-- `stpConflict`. -/
def stpConflict (a b : Order) : Bool :=
  a.selfTradeGroup ≠ 0 && b.selfTradeGroup ≠ 0 && a.selfTradeGroup = b.selfTradeGroup

/-- Whether a stop fires at a price: the test of `evalStops`. -/
def fires (px : ℤ) (o : Order) : Bool :=
  match o.side with
  | .BUY => o.stopPrice ≤ px
  | .SELL => px ≤ o.stopPrice

/-- `shouldTrigger`. -/
def shouldTrigger (o : Order) (s : Engine) : Bool :=
  -- Zero stands for no trade yet.
  if s.lastPx_ = 0 then false else fires s.lastPx_ o

/-- `validate`, with the clock. -/
def validate (now : ℕ) (o : Order) : Option String :=
  if o.quantity ≤ 0 then some "WF1"
  else if o.orderType = .LIMIT ∧ o.price ≤ 0 then some "WF2"
  else if o.orderType = .STOP_LIMIT ∧ o.price ≤ 0 then some "WF2A"
  else if o.orderType = .MARKET_TO_LIMIT ∧ o.price ≠ 0 then some "WF2B"
  else if (o.orderType = .MARKET ∨ o.orderType = .STOP_MARKET) ∧ o.price ≠ 0 then some "WF3"
  else if (o.orderType = .STOP_LIMIT ∨ o.orderType = .STOP_MARKET) ∧ o.stopPrice ≤ 0 then some "WF4"
  else if (o.orderType = .LIMIT ∨ o.orderType = .MARKET ∨ o.orderType = .MARKET_TO_LIMIT) ∧
      o.stopPrice ≠ 0 then some "WF5"
  else if o.timeInForce = .GTD ∧ (o.expireTime = 0 ∨ o.expireTime ≤ now) then some "WF6"
  else if o.timeInForce ≠ .GTD ∧ o.expireTime ≠ 0 then some "WF7"
  else if o.orderType = .MARKET ∧ o.timeInForce ≠ .IOC ∧ o.timeInForce ≠ .FOK then some "WF8"
  -- GTD is let through.
  else if o.orderType = .MARKET_TO_LIMIT ∧ o.timeInForce ≠ .GTC ∧ o.timeInForce ≠ .GTD ∧
      o.timeInForce ≠ .DAY then some "WF8A"
  else if o.displayQty ≠ 0 ∧ (o.displayQty ≤ 0 ∨ o.quantity < o.displayQty) then some "WF9"
  else if o.displayQty ≠ 0 ∧ o.orderType ≠ .LIMIT then some "WF10"
  else if o.postOnly ∧ o.orderType ≠ .LIMIT then some "WF13"
  else if o.postOnly ∧ (o.timeInForce = .IOC ∨ o.timeInForce = .FOK) then some "WF14"
  else if o.postOnly ∧ (o.orderType = .MARKET ∨ o.orderType = .MARKET_TO_LIMIT) then some "WF15"
  else if ¬ (o.selfTradeGroup = 0 ↔ o.stpPolicy = .NONE) then some "WF16"
  else if o.minQty ≠ 0 ∧ (o.minQty ≤ 0 ∨ o.quantity < o.minQty) then some "WF18"
  else if o.minQty ≠ 0 ∧ o.postOnly then some "WF19"
  else if o.timeInForce = .FOK ∧ o.minQty ≠ 0 then some "WF20"
  else none

/-! ## Quantity checks -/

/-- The inner loop of `availQty`, with the sum so far. The flag says that `thresh` was reached. -/
def availLevel (inc : Order) (thresh : ℤ) : ℕ → Option ℕ → ℤ → Prog Engine (ℤ × Bool)
  | _, none, avail => pure (avail, false)
  -- A walk that passes more orders than were ever allocated has come back to one of them.
  | 0, some _, _ => trap
  | n + 1, some r, avail => do
    let c ← cell r
    if stpConflict inc c.order then availLevel inc thresh n c.next avail
    -- Only displayed quantity counts, and the scan stops as soon as it has enough.
    else if thresh ≤ wrap64 (avail + c.order.visibleQty) then
      pure (wrap64 (avail + c.order.visibleQty), true)
    else availLevel inc thresh n c.next (wrap64 (avail + c.order.visibleQty))

/-- The outer loop of `availQty`, with the sum so far. -/
def availLevels (inc : Order) (thresh : ℤ) : List (ℤ × ℕ) → ℤ → Prog Engine ℤ
  | [], avail => pure avail
  | e :: m, avail =>
    if canMatch inc e.1 then do
      let l ← level e.2
      let fuel ← read (·.oA_)
      let (avail, reached) ← availLevel inc thresh fuel l.head avail
      if reached then pure avail else availLevels inc thresh m avail
    else pure avail

/-- `availQty`. -/
def availQty (inc : Order) (contra : Side) (thresh : ℤ) : Prog Engine ℤ := do
  let m ← read (·.book contra)
  availLevels inc thresh m 0

/-- `fokCheck`. -/
def fokCheck (o : Order) : Prog Engine Bool := do
  let avail ← availQty o (oppositeSide o.side) o.quantity
  pure (o.quantity ≤ avail)

/-- `minQtyCheck`. -/
def minQtyCheck (o : Order) : Prog Engine Bool := do
  let avail ← availQty o (oppositeSide o.side) o.minQty
  pure (o.minQty ≤ avail)

/-! ## Matching -/

/-- The displayed slice of a resting order is used up: it shows the next one, from the end of the
queue. -/
def reload (lv rest : ℕ) : Prog Engine Unit := do
  let t ← tick
  set rest fun o => { o with visibleQty := min o.displayQty o.remainingQty, timestamp := t }
  let r ← order rest
  mark (.reloaded r)
  remove lv rest
  pushBack lv rest

/-- `handleStp` with `DECREMENT`. -/
def decrement (inc rest : ℕ) : Prog Engine Unit := do
  let i ← order inc
  let r ← order rest
  let rq := min i.remainingQty r.visibleQty
  set inc fun o =>
    { o with remainingQty := o.remainingQty - rq, visibleQty := o.shown (o.remainingQty - rq) }
  set rest fun o =>
    { o with remainingQty := o.remainingQty - rq, visibleQty := o.visibleQty - rq }
  -- Both statuses are set before the listener is told, and only the resting order is freed here.
  set inc fun o => if o.remainingQty = 0 then { o with status := .CANCELLED } else o
  set rest fun o => if o.remainingQty = 0 then { o with status := .CANCELLED } else o
  let i ← order inc
  let r ← order rest
  mark (.event (.onOrderDecremented i r rq))
  if r.remainingQty = 0 then do
    unlink rest
    discard rest
  -- The reload of `matchAgainst`, with the level read off the order itself.
  else if r.visibleQty = 0 ∧ 0 < r.displayQty then do
    let c ← cell rest
    match c.level with
    | none => trap
    | some lv => reload lv rest
  else pure ()

/-- `handleStp`. -/
def handleStp (inc rest : ℕ) : Prog Engine Unit := do
  let i ← order inc
  match i.stpPolicy with
  | .CANCEL_NEWEST => do
    -- The resting order stays in front of its queue.
    set inc fun o => { o with status := .CANCELLED }
    notify inc fun o => .onOrderCancelled o "STP_CANCEL_NEWEST"
  | .CANCEL_OLDEST => do
    set rest fun o => { o with status := .CANCELLED }
    unlink rest
    notify rest fun o => .onOrderCancelled o "STP_CANCEL_OLDEST"
    discard rest
  | .CANCEL_BOTH => do
    set inc fun o => { o with status := .CANCELLED }
    set rest fun o => { o with status := .CANCELLED }
    unlink rest
    notify inc fun o => .onOrderCancelled o "STP_CANCEL_BOTH"
    notify rest fun o => .onOrderCancelled o "STP_CANCEL_BOTH"
    discard rest
  | .DECREMENT => decrement inc rest
  -- `default: break`.
  | .NONE => pure ()

/-- `trades_.push_back({tid_++, ...})` with the history entry of the trade. -/
def record (contra : Side) (fq : ℤ) (inc rest : Order) : Prog Engine Unit := write fun s =>
  let t : Trade := ⟨s.tid_, rest.price, fq, inc.id, rest.id, inc.side, s.now_⟩
  { s with
    trades_ := s.trades_ ++ [t]
    tid_ := s.tid_ + 1
    log := s.log ++ [.executed t inc rest (s.view contra)] }

/-- A turn of the inner loop of `matchAgainst` with an order that does not conflict. -/
def fill (contra : Side) (inc lv rest : ℕ) : Prog Engine Unit := do
  let i ← order inc
  let r ← order rest
  let fq := min i.remainingQty r.visibleQty
  -- `assert(fq > 0)`.
  if 0 < fq then do
    record contra fq i r
    set inc fun o => { o with remainingQty := o.remainingQty - fq }
    set rest fun o =>
      { o with visibleQty := o.visibleQty - fq, remainingQty := o.remainingQty - fq }
    let r ← order rest
    -- `continue`: the status is not written when the order shows a new slice.
    if r.visibleQty = 0 ∧ 0 < r.remainingQty ∧ 0 < r.displayQty then reload lv rest
    else if r.remainingQty = 0 then do
      set rest fun o => { o with status := .FILLED }
      remove lv rest
      discard rest
    else set rest fun o => { o with status := .PARTIALLY_FILLED }
  else trap

/-- The inner loop of `matchAgainst`. The result says that the incoming order is done with, by its
self-trade policy. -/
def matchLevel (contra : Side) (inc lv : ℕ) : ℕ → Prog Engine Bool
  | 0 => trap
  | n + 1 => do
    let i ← order inc
    let l ← level lv
    if 0 < i.remainingQty then
      match l.head with
      | none => pure false
      | some rest => do
        let r ← order rest
        if stpConflict i r then do
          handleStp inc rest
          let i ← order inc
          -- `return`, after the level has been closed if it is empty.
          if i.status = .CANCELLED ∨ i.remainingQty = 0 then pure true
          else matchLevel contra inc lv n
        else do
          fill contra inc lv rest
          matchLevel contra inc lv n
    else pure false

/-- `if (lv->empty()) { contra.erase(li); freeLvl(lv); }`. The result is whether it was. -/
def closeLevel (contra : Side) (li lv : ℕ) : Prog Engine Bool := do
  let l ← level lv
  match l.head with
  | some _ => pure false
  | none => do
    write fun s => s.setBook contra ((s.book contra).eraseIdx li)
    freeLvl lv
    pure true

/-- The outer loop of `matchAgainst`, from the iterator `li` on. -/
def matchLevels (contra : Side) (inc : ℕ) : ℕ → ℕ → Prog Engine Unit
  | 0, _ => trap
  | n + 1, li => do
    let i ← order inc
    let m ← read (·.book contra)
    match m[li]? with
    | none => pure ()
    | some e =>
      if 0 < i.remainingQty then do
        let l ← level e.2
        if canMatch i l.price then do
          let fuel ← read (·.oA_)
          -- Each turn takes a unit of the incoming order or removes a resting one, so the bound is
          -- not met.
          let returned ← matchLevel contra inc e.2 (i.remainingQty.toNat + fuel + 1)
          let erased ← closeLevel contra li e.2
          if returned then pure ()
          -- `erase` returns the next entry, which is then at the position `li`.
          else matchLevels contra inc n (if erased then li else li + 1)
        else pure ()
      else pure ()

/-- `matchAgainst`. -/
def matchAgainst (inc : ℕ) (contra : Side) : Prog Engine Unit := do
  let m ← read (·.book contra)
  matchLevels contra inc (m.length + 1) 0

/-- `matchOrd`. -/
def matchOrd (o : ℕ) : Prog Engine Unit := do
  let c ← order o
  matchAgainst o (oppositeSide c.side)

/-! ## What is left of an order -/

/-- `o->status = CANCELLED; L.onOrderCancelled(*o, reason);`. -/
def cancelWith (o : ℕ) (reason : String) : Prog Engine Unit := do
  set o fun c => { c with status := .CANCELLED }
  notify o fun c => .onOrderCancelled c reason

/-- The statements of `dispose` for the times in force that let an order rest. -/
def disposeResting (o : ℕ) (hasTr : Bool) : Prog Engine Unit := do
  let c ← order o
  -- No market order rests, whatever its time in force.
  if c.orderType = .MARKET then cancelWith o "MARKET_NO_FULL_FILL"
  else do
    insertOrder o
    set o fun c => { c with status := if hasTr then .PARTIALLY_FILLED else .NEW }

/-- `dispose`. -/
def dispose (o : ℕ) (hasTr : Bool) : Prog Engine Unit := do
  let c ← order o
  if c.remainingQty = 0 then set o fun c => { c with status := .FILLED }
  else match c.timeInForce with
    | .IOC => cancelWith o "IOC_REMAINDER"
    -- `assert(false && "FOK remainder after check")`.
    | .FOK => trap
    | .GTC => disposeResting o hasTr
    | .GTD => disposeResting o hasTr
    | .DAY => disposeResting o hasTr

/-! ## Trades and stops -/

/-- The loop of `emitAndTrigger`, for `n` trades from the `i`th on. -/
def emitLoop (evalStops : ℤ → ℕ → Prog Engine Unit) (depth : ℕ) : ℕ → ℕ → Prog Engine Unit
  | 0, _ => pure ()
  | n + 1, i => do
    -- The bound of the loop is the size on entry, but the trades are read again in each turn.
    let ts ← read (·.trades_)
    match ts[i]? with
    | none => trap
    | some t => do
      mark (.event (.onTrade t))
      write fun s => { s with lastPx_ := t.price, lastDepth := depth }
      (if depth < maxCascade then evalStops t.price depth else pure ())
      emitLoop evalStops depth n (i + 1)

/-- `emitAndTrigger`. -/
def emitAndTrigger (evalStops : ℤ → ℕ → Prog Engine Unit) (start depth : ℕ) : Prog Engine Unit := do
  let ts ← read (·.trades_)
  emitLoop evalStops depth (ts.length - start) start

/-- The loop of `evalStops` that takes out the stops that fire, from the `i`th on. -/
def takeStops (px : ℤ) : ℕ → ℕ → List ℕ → Prog Engine (List ℕ)
  | 0, _, _ => trap
  | n + 1, i, trig => do
    let stops ← read (·.stops_)
    match stops[i]? with
    | none => pure trig
    | some p => do
      let o ← order p
      if fires px o then do
        write fun s => { s with stops_ := swapRemove s.stops_ i }
        -- The last stop has taken the place of this one, so the position stays.
        takeStops px n i (trig ++ [p])
      else takeStops px n (i + 1) trig

/-- `std::sort` of some orders by their timestamps. -/
def sortByTime (S : StdSort) (v : List ℕ) : Prog Engine (List ℕ) :=
  read fun s => S.sort (fun p => ((s.orders p).map (·.order.timestamp)).getD 0) v

/-- A stop becomes an active order. -/
def trigger (o : ℕ) : Prog Engine Unit := do
  set o fun c => { c with status := .TRIGGERED }
  notify o .onOrderTriggered
  set o fun c =>
    { c with orderType := if c.orderType = .STOP_LIMIT then .LIMIT else .MARKET, stopPrice := 0 }

/-- The last loop of `evalStops`. -/
def activate (processActive : ℕ → ℕ → Prog Engine Unit) (depth : ℕ) : List ℕ → Prog Engine Unit
  | [] => pure ()
  | p :: ps => do
    trigger p
    processActive p (depth + 1)
    activate processActive depth ps

/-- `evalStops`. Its two early returns are for loops over no elements. -/
def evalStops (S : StdSort) (processActive : ℕ → ℕ → Prog Engine Unit) (px : ℤ) (depth : ℕ) :
    Prog Engine Unit := do
  let stops ← read (·.stops_)
  let trig ← takeStops px (stops.length + 1) 0 []
  let trig ← sortByTime S trig
  activate processActive depth trig

/-! ## The pipeline -/

/-- `o->status = CANCELLED; L.onOrderCancelled(*o, reason); idx_.erase(o->id); freeOrd(o);`. -/
def kill (o : ℕ) (reason : String) : Prog Engine Unit := do
  cancelWith o reason
  discard o

/-- The new price of a post-only order that would cross: a tick off the best price of the other
side. -/
def reprice (o : ℕ) : Prog Engine Unit := do
  let c ← order o
  let m ← read (·.book (oppositeSide c.side))
  let step ← read (·.tick_)
  match m with
  | [] => trap
  | e :: _ => do
    set o fun c =>
      { c with price := if c.side = .BUY then wrap64 (e.1 - step) else wrap64 (e.1 + step) }
    let c' ← order o
    mark (.event (.onOrderRepriced c' c.price c'.price))

/-- `insertOrder(o); o->status = NEW;`. -/
def restNew (o : ℕ) : Prog Engine Unit := do
  insertOrder o
  set o fun c => { c with status := .NEW }

/-- Phase 2 of `processActive`. -/
def postOnlyPhase (o : ℕ) : Prog Engine Unit := do
  let c ← order o
  let cross ← read (wouldCross c)
  let policy ← read (·.poPol_)
  if cross then
    if policy = .REJECT then kill o "POST_ONLY_WOULD_CROSS"
    else do
      reprice o
      restNew o
  else restNew o

/-- The end of `processActive`, where `o` may be freed already. -/
def finish (savedId : UInt64) (o : ℕ) : Prog Engine Unit := do
  -- The order may be gone, and under its id another one cannot have come in.
  let live ← read (·.idx_.has savedId)
  if live then do
    let c ← order o
    if c.status = .FILLED ∨ c.status = .CANCELLED then discard o else pure ()
  else pure ()

/-- The matching of a market-to-limit order after its first pass has made trades from the `ts`th on.
-/
def toLimit (ts o : ℕ) : Prog Engine Unit := do
  let trades ← read (·.trades_)
  match trades[ts]? with
  | none => trap
  | some t => do
    set o fun c =>
      { c with price := t.price, orderType := .LIMIT, minQty := if 0 < c.minQty then 0 else c.minQty }
    let c ← order o
    -- The second pass may cancel the order, by its self-trade policy.
    (if 0 < c.remainingQty ∧ c.status ≠ .CANCELLED then matchOrd o else pure ())
    let c ← order o
    if c.status ≠ .CANCELLED then dispose o true else pure ()

/-- Phase 4 of `processActive` for the other types. -/
def matchPlain (ts o : ℕ) : Prog Engine Unit := do
  matchOrd o
  let trades ← read (·.trades_)
  set o fun c => { c with minQty := if 0 < c.minQty ∧ ts < trades.length then 0 else c.minQty }
  let c ← order o
  if c.status ≠ .CANCELLED then dispose o (ts < trades.length) else pure ()

/-- Phase 4 of `processActive`, up to the trades and stops. -/
def matchPhase (emitAndTrigger : ℕ → ℕ → Prog Engine Unit) (o depth : ℕ) : Prog Engine Unit := do
  let trades ← read (·.trades_)
  let ts := trades.length
  let c ← order o
  if c.orderType = .MARKET_TO_LIMIT then do
    matchOrd o
    let trades ← read (·.trades_)
    if ts < trades.length then do
      toLimit ts o
      emitAndTrigger ts depth
      finish c.id o
    -- A cancellation by the self-trade policy in a pass without trades comes here too.
    else kill o "MTL_NO_LIQUIDITY"
  else do
    matchPlain ts o
    emitAndTrigger ts depth
    finish c.id o

/-- `processActive`. -/
def processActiveWith (emitAndTrigger : ℕ → ℕ → Prog Engine Unit) (o depth : ℕ) :
    Prog Engine Unit := do
  let c ← order o
  if c.postOnly then postOnlyPhase o
  else do
    let fok ← (if c.timeInForce = .FOK then fokCheck c else pure true)
    if fok then do
      let enough ← (if 0 < c.minQty then minQtyCheck c else pure true)
      if enough then matchPhase emitAndTrigger o depth
      else kill o "MIN_QTY_NOT_SATISFIABLE"
    else kill o "FOK_NOT_SATISFIABLE"

/-- `processActive`, with at most `n` calls of itself inside each other. -/
def processActiveIn (S : StdSort) : ℕ → ℕ → ℕ → Prog Engine Unit
  | 0 => fun _ _ => trap
  | n + 1 => processActiveWith (emitAndTrigger (evalStops S (processActiveIn S n)))

/-- `processActive`. At the depth `MAX_CASCADE` it does not call itself. -/
def processActive (S : StdSort) : ℕ → ℕ → Prog Engine Unit := processActiveIn S (maxCascade + 1)

/-- `process`, where `processActive` is a parameter, as in the two calls that lead to it. -/
def process (processActive : ℕ → ℕ → Prog Engine Unit) (o depth : ℕ) : Prog Engine Unit := do
  let c ← order o
  if c.orderType = .STOP_LIMIT ∨ c.orderType = .STOP_MARKET then do
    let fire ← read (shouldTrigger c)
    if fire then do
      trigger o
      processActive o depth
    else write fun s => { s with stops_ := s.stops_ ++ [o] }
  else processActive o depth

/-! ## Calls -/

/-- The order that `submitOrder` makes of its input. -/
def OrderInput.order (i : OrderInput) (timestamp : ℕ) : Order where
  id := i.id
  side := i.side
  orderType := i.orderType
  timeInForce := i.timeInForce
  price := i.price
  stopPrice := i.stopPrice
  quantity := i.quantity
  remainingQty := i.quantity
  minQty := i.minQty
  displayQty := i.displayQty
  visibleQty := if 0 < i.displayQty then min i.displayQty i.quantity else i.quantity
  postOnly := i.postOnly
  status := .NEW
  timestamp := timestamp
  expireTime := i.expireTime
  selfTradeGroup := i.selfTradeGroup
  stpPolicy := i.stpPolicy

/-- `submitOrder`. The result is whether the order was accepted. -/
def submitWith (processActive : ℕ → ℕ → Prog Engine Unit) (i : OrderInput) : Prog Engine Bool := do
  let dup ← read (·.idx_.has i.id)
  if dup then do
    -- The rejected order of a duplicate id is a blank one with the id alone.
    mark (.event (.onOrderRejected { id := i.id, status := .REJECTED } "DUPLICATE_ORDER_ID"))
    pure false
  else do
    let o ← allocOrd
    let t ← tick
    set o fun _ => i.order t
    let now ← read (·.now_)
    let c ← order o
    match validate now c with
    | some err => do
      set o fun c => { c with status := .REJECTED }
      notify o fun c => .onOrderRejected c err
      freeOrd o
      pure false
    | none => do
      onIndex (·.insert i.id o)
      notify o .onOrderAccepted
      write fun s => { s with trades_ := [] }
      process processActive o 0
      pure true

/-- Whether a status is one that `cancelOrder` and `amendOrder` go on with. -/
def OrderStatus.open : OrderStatus → Bool
  | .NEW | .PARTIALLY_FILLED => true
  | _ => false

/-- `rmStop`. -/
def rmStop (o : ℕ) : Prog Engine Unit := write fun s =>
  match s.stops_.findIdx? (· = o) with
  | none => s
  | some i => { s with stops_ := swapRemove s.stops_ i }

/-- `cancelOrder`. -/
def cancelOrder (id : UInt64) : Prog Engine Bool := do
  let p ← read (·.idx_.get id)
  match p with
  | none => pure false
  | some o => do
    let c ← cell o
    if c.order.status.open then do
      set o fun c => { c with status := .CANCELLED }
      -- A live order that is in no queue is a dormant stop.
      (match c.level with
        | some lv => removeFrom lv o c.order.side
        | none => rmStop o)
      notify o fun c => .onOrderCancelled c "USER_REQUESTED"
      discard o
      pure true
    else pure false

/-- `amendOrder`. -/
def amendWith (processActive : ℕ → ℕ → Prog Engine Unit) (id : UInt64) (newPx newQty : ℤ) :
    Prog Engine Bool := do
  let p ← read (·.idx_.get id)
  match p with
  | none => pure false
  | some o => do
    let c ← cell o
    if c.order.status.open then
      match c.level with
      | none => pure false
      | some lv =>
        let pxChg := 0 < newPx ∧ newPx ≠ c.order.price
        let qtyUp := 0 < newQty ∧ c.order.remainingQty < newQty
        let qtyDn := 0 < newQty ∧ newQty < c.order.remainingQty
        -- A decrease keeps the place in the queue, and the timestamp.
        if qtyDn ∧ ¬ pxChg then do
          set o fun c => { c with remainingQty := newQty, visibleQty := min c.visibleQty newQty }
          pure true
        else if pxChg ∨ qtyUp then do
          removeFrom lv o c.order.side
          set o fun c => { c with
            -- A price of zero or less means the old one, and so does a quantity.
            price := if 0 < newPx then newPx else c.price
            remainingQty := if 0 < newQty then newQty else c.remainingQty }
          let t ← tick
          set o fun c => { c with timestamp := t, visibleQty := c.shown c.remainingQty }
          write fun s => { s with trades_ := [] }
          processActive o 0
          pure true
        else pure true
    else pure false

/-- The test of `expireOrders`. -/
def shouldExpire (t : ℕ) (o : Order) : Bool :=
  o.timeInForce = .DAY || (o.timeInForce = .GTD && 0 < o.expireTime && o.expireTime ≤ t)

/-- The inner loop of `scan` in `expireOrders`. -/
def scanLevel (t : ℕ) : ℕ → Option ℕ → List ℕ → Prog Engine (List ℕ)
  | _, none, exp => pure exp
  | 0, some _, _ => trap
  | n + 1, some o, exp => do
    -- Nothing is unlinked while a queue is walked.
    let c ← cell o
    scanLevel t n c.next (if shouldExpire t c.order then exp ++ [o] else exp)

/-- `scan` in `expireOrders`. -/
def scan (t : ℕ) : List (ℤ × ℕ) → List ℕ → Prog Engine (List ℕ)
  | [], exp => pure exp
  | e :: m, exp => do
    let l ← level e.2
    let fuel ← read (·.oA_)
    let exp ← scanLevel t fuel l.head exp
    scan t m exp

/-- `o->status = EXPIRED; L.onOrderExpired(*o); idx_.erase(o->id); freeOrd(o);`, with `unlinked`
after the first statement. -/
def expireOne (o : ℕ) (unlinked : Prog Engine Unit) : Prog Engine Unit := do
  set o fun c => { c with status := .EXPIRED }
  unlinked
  notify o .onOrderExpired
  discard o

/-- The loop of `expireOrders` over the resting orders that expire. -/
def expireResting : List ℕ → Prog Engine Unit
  | [] => pure ()
  | o :: os => do
    let c ← cell o
    expireOne o (match c.level with
      | some lv => removeFrom lv o c.order.side
      | none => pure ())
    expireResting os

/-- The loop of `expireOrders` over the stops, from the `i`th on. -/
def expireStops (t : ℕ) : ℕ → ℕ → Prog Engine Unit
  | 0, _ => trap
  | n + 1, i => do
    let stops ← read (·.stops_)
    match stops[i]? with
    | none => pure ()
    | some p => do
      let o ← order p
      if shouldExpire t o then do
        write fun s => { s with stops_ := swapRemove s.stops_ i }
        expireOne p (pure ())
        expireStops t n i
      else expireStops t n (i + 1)

/-- `expireOrders`. -/
def expireOrders (t : ℕ) : Prog Engine Unit := do
  let bids ← read (·.bids_)
  let asks ← read (·.asks_)
  let exp ← scan t bids []
  let exp ← scan t asks exp
  expireResting exp
  let stops ← read (·.stops_)
  expireStops t (stops.length + 1) 0

/-- `setTime`. -/
def setTime (t : ℕ) : Prog Engine Unit := write fun s => { s with now_ := t }

/-- `assignId`. -/
def assignId : Prog Engine UInt64 := fun s =>
  s.idx_.assignId.map fun r => (r.1, { s with idx_ := r.2 })

/-! ## Runs -/

/-- A call of a public member function that is not an accessor. -/
inductive Call
  | submit (i : OrderInput)
  | cancel (id : UInt64)
  | amend (id : UInt64) (newPx newQty : ℤ)
  | expire (t : ℕ)
  | setTime (t : ℕ)
  | assignId
  deriving DecidableEq, Repr

/-- `submitOrder`. -/
def submitOrder (S : StdSort) : OrderInput → Prog Engine Bool := submitWith (processActive S)

/-- `amendOrder`. -/
def amendOrder (S : StdSort) : UInt64 → ℤ → ℤ → Prog Engine Bool := amendWith (processActive S)

/-- What a call does, with `processActive` as a parameter. -/
def Call.runWith (processActive : ℕ → ℕ → Prog Engine Unit) : Call → Prog Engine Unit
  | .submit i => do let _ ← submitWith processActive i
  | .cancel id => do let _ ← cancelOrder id
  | .amend id newPx newQty => do let _ ← amendWith processActive id newPx newQty
  | .expire t => expireOrders t
  | .setTime t => Cpp.setTime t
  | .assignId => do let _ ← Cpp.assignId

/-- What a call does. -/
def Call.run (S : StdSort) (c : Call) : Prog Engine Unit := c.runWith (processActive S)

/-- The engine that the constructor makes. -/
def Engine.init (pop : PostOnlyPolicy) (tickSz : ℤ) : Engine := { poPol_ := pop, tick_ := tickSz }

/-- What a sequence of calls does. -/
def runAll (S : StdSort) : List Call → Prog Engine Unit
  | [] => pure ()
  | c :: cs => do
    c.run S
    runAll S cs

variable {S : StdSort} {pop : PostOnlyPolicy} {tickSz : ℤ}

/-- The states that a run from an empty engine reaches, each between two calls. -/
inductive Reach (S : StdSort) (pop : PostOnlyPolicy) (tickSz : ℤ) : Engine → Prop
  | init : Reach S pop tickSz (.init pop tickSz)
  | call {s s' : Engine} (c : Call) (hs : Reach S pop tickSz s) (h : c.run S s = some ((), s')) :
      Reach S pop tickSz s'

/-- The states that a run reaches in which every call is made in a state that `G` relates to it. -/
inductive ReachWhere (G : Engine → Call → Prop) (S : StdSort) (pop : PostOnlyPolicy) (tickSz : ℤ) :
    Engine → Prop
  | init : ReachWhere G S pop tickSz (.init pop tickSz)
  | call {s s' : Engine} (c : Call) (hs : ReachWhere G S pop tickSz s) (hg : G s c)
      (h : c.run S s = some ((), s')) : ReachWhere G S pop tickSz s'

/-- A list of calls from a reachable state reaches a state. -/
theorem Reach.runAll {s s' : Engine} {cs : List Call} (hs : Reach S pop tickSz s)
    (h : runAll S cs s = some ((), s')) : Reach S pop tickSz s' := by
  induction cs generalizing s with
  | nil =>
    cases h
    exact hs
  | cons c cs ih =>
    obtain ⟨_, t, ht, h⟩ := run_bind_iff.mp h
    exact ih (hs.call c ht) h

/-- A sequence of calls that all meet a condition. -/
theorem ReachWhere.runAll {G : Engine → Call → Prop} {s s' : Engine} {cs : List Call}
    (hs : ReachWhere G S pop tickSz s) (hc : ∀ c ∈ cs, ∀ s, G s c)
    (h : Cpp.runAll S cs s = some ((), s')) : ReachWhere G S pop tickSz s' := by
  induction cs generalizing s with
  | nil =>
    cases h
    exact hs
  | cons c cs ih =>
    obtain ⟨_, t, ht, h⟩ := run_bind_iff.mp h
    exact ih (hs.call c (hc c List.mem_cons_self s) ht)
      (fun c' hc' => hc c' (List.mem_cons_of_mem _ hc')) h

/-- A sequence of calls that each satisfy `g` in the state they are made in. -/
def runWhere (S : StdSort) (g : Engine → Call → Bool) : List Call → Prog Engine Unit
  | [] => pure ()
  | c :: cs => do
    if g (← get) c then
      c.run S
      runWhere S g cs
    else trap

/-- A list of calls that meet a condition reaches a state of such a run. -/
theorem ReachWhere.runWhere {G : Engine → Call → Prop} {g : Engine → Call → Bool} {s s' : Engine}
    {cs : List Call} (hs : ReachWhere G S pop tickSz s) (hg : ∀ s c, g s c = true → G s c)
    (h : Cpp.runWhere S g cs s = some ((), s')) : ReachWhere G S pop tickSz s' := by
  induction cs generalizing s with
  | nil =>
    cases h
    exact hs
  | cons c cs ih =>
    change (if g s c then (do c.run S; Cpp.runWhere S g cs) else trap : Prog Engine Unit) s = _ at h
    split at h
    · rename_i hc
      obtain ⟨_, t, ht, h⟩ := run_bind_iff.mp h
      exact ih (hs.call c (hg s c hc) ht) h
    · cases h

/-- A run under a condition is a run. -/
theorem ReachWhere.reach {G : Engine → Call → Prop} {s : Engine} (hs : ReachWhere G S pop tickSz s) :
    Reach S pop tickSz s := by
  induction hs with
  | init => exact .init
  | call c _ _ h ih => exact ih.call c h

/-- The insertion sort, which is a `std::sort` like any other. -/
def StdSort.insertion : StdSort where
  places ks := (List.range ks.length).insertionSort fun i j => ks.getD i 0 ≤ ks.getD j 0
  perm ks := List.perm_insertionSort _ _
  sorted ks := by
    have : Std.Total fun i j : ℕ => ks.getD i 0 ≤ ks.getD j 0 := ⟨fun i j => Nat.le_total _ _⟩
    have : IsTrans ℕ fun i j : ℕ => ks.getD i 0 ≤ ks.getD j 0 := ⟨fun _ _ _ => Nat.le_trans⟩
    exact List.pairwise_map.mpr (List.pairwise_insertionSort _ _)

end MatchingEngine.Cpp
