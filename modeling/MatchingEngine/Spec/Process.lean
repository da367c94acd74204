import MatchingEngine.Spec.Match

/-!
# The specification: processing

The pipeline of `lean/MatchingEngine/Process.lean`. An order is held back as a dormant stop, refused
by the post-only, fill-or-kill, or minimum-quantity rule, or matched (`execute`), and then its
trades may trigger stops, which are processed in the same way (`processCascade`).

`processOrder` and `processCascade` call each other and take fuel, one unit for each order that is
processed. `computeProcessFuel` is what `process` starts them with, and `Simulation/Cascade.lean`
shows that it is enough for everything that an order sets off. The order that is processed may be a
stop that fires at once, which `convertStop` turns into the order it stands for.
-/

namespace MatchingEngine.Spec

/-- The quantities of the resting orders of some levels. -/
def sumRemaining (levels : List PriceLevel) : ℕ :=
  (levels.map fun l => (l.orders.map Order.remainingQty).sum).sum

/-- How many orders rest in some levels. -/
def orderCount (levels : List PriceLevel) : ℕ := (levels.map fun l => l.orders.length).sum

/-- The fuel for matching an order of the side `side`. -/
def computeMatchFuel (b : BookState) (side : Side) : ℕ :=
  let contra := contraLevels b side
  sumRemaining contra + orderCount contra + contra.length + 1

/-- The size of one side. -/
def sideProcessMeasure (levels : List PriceLevel) : ℕ :=
  (levels.map fun l => 1 + (l.orders.map fun o => o.remainingQty + 1).sum).sum

/-- The fuel for processing an order and all that it triggers. -/
def computeProcessFuel (b : BookState) (order : Order) : ℕ :=
  let m := sideProcessMeasure b.bids + sideProcessMeasure b.asks +
    (b.stops.map fun o => o.remainingQty + 1).sum + order.remainingQty + 1
  m * m + m + 1

/-! ## The checks before matching -/

/-- The visible quantity that the order may trade with: no conflicting orders. -/
def availableQty (inc : Order) (levels : List PriceLevel) : ℕ :=
  (levels.map fun l =>
    if canMatchPrice inc l.price then
      ((l.orders.filter fun r => ¬ selfTradeConflict inc r).map Order.visibleQty).sum
    else 0).sum

/-- `fokCheck`. -/
def fokCheck (inc : Order) (b : BookState) : Bool :=
  inc.qty ≤ availableQty inc (contraLevels b inc.side)

/-- `minQtyCheck`. -/
def minQtyCheck (inc : Order) (b : BookState) : Bool :=
  match inc.minQty with
  | none => true
  | some mq => mq ≤ availableQty inc (contraLevels b inc.side)

/-- A post-only order that would trade. -/
def wouldCross (inc : Order) (b : BookState) : Bool :=
  match inc.price, inc.side with
  | none, _ => false
  | some p, .buy => (bestAskPrice b).any fun a => a ≤ p
  | some p, .sell => (bestBidPrice b).any fun d => p ≤ d

/-! ## After matching -/

/-- The remainder of an order dropped or rested. -/
def dispose (inc : Order) (b : BookState) (trades : List Trade) : BookState :=
  if inc.remainingQty = 0 ∨ inc.status = .cancelled then b
  else if inc.tif = .ioc then b
  else if inc.orderType = .market then b
  else insertOrder b inc (!trades.isEmpty)

/-- The book after matching. -/
def BookState.afterMatch (b : BookState) (side : Side) (mr : MatchResult) : BookState :=
  { setContraLevels b side mr.contra with clock := mr.clock }

/-- The last trade price after some trades. -/
def BookState.afterTrades (b : BookState) (trades : List Trade) : BookState :=
  { b with lastTradePrice := (trades.getLast?.map Trade.price).or b.lastTradePrice }

/-- An order matched against a book. -/
def matchOrder (fuel : ℕ) (b : BookState) (inc : Order) : MatchResult :=
  doMatch fuel inc (contraLevels b inc.side) [] (b.clock + 1)

/-- `ProcessResult`. -/
structure ProcessResult where
  book : BookState
  trades : List Trade
  deriving DecidableEq, Repr

/-! ## Stops -/

/-- `OrderType.isStop`. -/
def OrderType.isStop : OrderType → Bool
  | .stopLimit | .stopMarket => true
  | _ => false

/-- The last trade price triggers the stop. -/
def shouldTrigger (stop : Order) (lastTP : Option ℕ) : Bool :=
  match lastTP, stop.stopPrice, stop.side with
  | some tp, some sp, .buy => sp ≤ tp
  | some tp, some sp, .sell => tp ≤ sp
  | _, _, _ => false

/-- A triggered stop as the order that it becomes. -/
def convertStop (stop : Order) (newTimestamp : ℕ) : Order :=
  match stop.orderType with
  | .stopLimit =>
    { stop with
      orderType := .limit, stopPrice := none, status := .new_, timestamp := newTimestamp }
  | .stopMarket =>
    { stop with
      orderType := .market, stopPrice := none, price := none, status := .new_
      timestamp := newTimestamp }
  | _ => stop

/-! ## The pipeline -/

/-- A market-to-limit order: it takes the price of its first trade as its limit. -/
def executeMTL (order : Order) (b : BookState) : ProcessResult :=
  let mr := matchOrder (computeMatchFuel b order.side) b order
  let b' := b.afterMatch order.side mr
  match mr.trades with
  | [] => ⟨b', []⟩
  | t :: _ =>
    let converted := { mr.incoming with
      orderType := .limit, price := some t.price, minQty := none }
    if converted.remainingQty = 0 then ⟨b'.afterTrades mr.trades, mr.trades⟩
    else
      let mr₂ := doMatch (computeMatchFuel b' converted.side) converted
        (contraLevels b' converted.side) [] mr.clock
      let trades := mr.trades ++ mr₂.trades
      let b'' := b'.afterMatch order.side mr₂
      ⟨(dispose mr₂.incoming b'' trades).afterTrades trades, trades⟩

/-- An order that is neither a dormant stop nor post-only, up to its own trades: the checks, the
matching, and the disposition. -/
def execute (order : Order) (b : BookState) : ProcessResult :=
  if order.tif = .fok then
    if ¬ fokCheck order b then ⟨b, []⟩
    else
      let mr := matchOrder (computeMatchFuel b order.side) b order
      ⟨(b.afterMatch order.side mr).afterTrades mr.trades, mr.trades⟩
  else if order.minQty.isSome ∧ ¬ minQtyCheck order b then ⟨b, []⟩
  else if order.orderType = .marketToLimit then executeMTL order b
  else
    let mr := matchOrder (computeMatchFuel b order.side) b order
    let inc := if order.minQty.isSome ∧ ¬ mr.trades.isEmpty then
      { mr.incoming with minQty := none } else mr.incoming
    let b' := dispose inc (b.afterMatch order.side mr) mr.trades
    ⟨b'.afterTrades mr.trades, mr.trades⟩

mutual

/-- An order and all that it triggers. -/
def processOrder (fuel : ℕ) (order : Order) (b : BookState) : ProcessResult :=
  match fuel with
  | 0 => ⟨b, []⟩
  | fuel + 1 =>
    if order.orderType.isStop then
      if shouldTrigger order b.lastTradePrice then
        processOrder fuel (convertStop order b.clock) { b with clock := b.clock + 1 }
      else ⟨{ b with stops := b.stops ++ [order] }, []⟩
    else if order.postOnly then
      if wouldCross order b then ⟨b, []⟩ else ⟨insertOrder b order false, []⟩
    else
      let own := execute order b
      let cascade := processCascade fuel own.trades own.book
      ⟨cascade.book, own.trades ++ cascade.trades⟩

/-- The stops that some trades trigger, trade by trade. -/
def processCascade (fuel : ℕ) (trades : List Trade) (b : BookState) : ProcessResult :=
  match fuel, trades with
  | 0, _ => ⟨b, []⟩
  | _, [] => ⟨b, []⟩
  | fuel + 1, t :: ts =>
    let triggered := b.stops.filter fun s => shouldTrigger s (some t.price)
    let dormant := b.stops.filter fun s => ¬ shouldTrigger s (some t.price)
    if triggered.isEmpty then processCascade fuel ts { b with lastTradePrice := some t.price }
    else
      let sorted := triggered.mergeSort fun a c => a.timestamp < c.timestamp
      let fired := processTriggeredStops fuel sorted
        { b with stops := dormant, lastTradePrice := some t.price }
      let later := processCascade fuel ts fired.book
      ⟨later.book, fired.trades ++ later.trades⟩

/-- Triggered stops, one after the other. -/
def processTriggeredStops (fuel : ℕ) (triggered : List Order) (b : BookState) : ProcessResult :=
  match fuel, triggered with
  | 0, _ => ⟨b, []⟩
  | _, [] => ⟨b, []⟩
  | fuel + 1, stop :: stops =>
    let first := processOrder fuel (convertStop stop b.clock) { b with clock := b.clock + 1 }
    let later := processTriggeredStops fuel stops first.book
    ⟨later.book, first.trades ++ later.trades⟩

end

/-- A new order: it takes the next id and the time. -/
def process (b : BookState) (order : Order) : ProcessResult :=
  let o := { order with id := b.nextId, timestamp := b.clock }
  let result := processOrder (computeProcessFuel b o) o b
  ⟨{ result.book with nextId := b.nextId + 1, clock := max result.book.clock (b.clock + 1) },
    result.trades⟩

end MatchingEngine.Spec
