import MatchingEngine.Spec.Book

/-!
# The specification: matching

The matching loop of `lean/MatchingEngine/{STP,Match}.lean`. It takes fuel, one unit for each
interaction with a resting order, and it works on the levels of the other side only, since it leaves
those of the order's own side as they are.

A turn is `meetResting`: a conflict is resolved by the policy, and otherwise the two orders trade,
after which the resting one is reloaded, kept, or gone (`settleResting`). `doMatch` takes such turns
for as long as the incoming order is not used up, the best level is within its price, and there is
fuel. `Simulation/Matching.lean` and `Spec/Agree.lean` show that the fuel is never what ends it.
-/

namespace MatchingEngine.Spec

/-- The incoming order has opted into self-trade prevention, and both orders are of one group. -/
def selfTradeConflict (inc rest : Order) : Bool :=
  inc.stpPolicy.isSome && inc.stpGroup.isSome && inc.stpGroup = rest.stpGroup

/-- The incoming order may trade at the price of a resting one. -/
def canMatchPrice (inc : Order) (restingPrice : ℕ) : Bool :=
  match inc.price, inc.side with
  | none, _ => true
  | some p, .buy => restingPrice ≤ p
  | some p, .sell => p ≤ restingPrice

/-- What matching leaves: the incoming order, the levels of the other side, the trades, and the
time. -/
structure MatchResult where
  incoming : Order
  contra : List PriceLevel
  trades : List Trade
  clock : ℕ
  deriving DecidableEq, Repr

/-- The first level with another queue, or without it if the queue is empty. -/
def requeue (level : PriceLevel) (orders : List Order) (levels : List PriceLevel) :
    List PriceLevel :=
  if orders.isEmpty then levels else { level with orders := orders } :: levels

/-- A resting order with `q` less. -/
def reduceOrder (o : Order) (q : ℕ) : Order :=
  { o with remainingQty := o.remainingQty - q, visibleQty := o.visibleQty - q }

/-- An iceberg with its next slice visible. -/
def reloadOrder (o : Order) (tm : ℕ) : Order :=
  { o with
    visibleQty := min (o.displayQty.getD 0) o.remainingQty
    timestamp := tm
    status := .partiallyFilled }

/-- The queue and the time after its first order has been reduced to `o`: the order is gone, or
reloaded at the back, or stays where it is with the status `st`. -/
def settleResting (o : Order) (queue : List Order) (st : OrderStatus) (tm : ℕ) :
    List Order × ℕ :=
  if o.remainingQty = 0 then (queue, tm)
  else if o.visibleQty = 0 ∧ o.displayQty.isSome then (queue ++ [reloadOrder o tm], tm + 1)
  else ({ o with status := st } :: queue, tm)

/-- The trade of a fill. -/
def fillTrade (inc resting : Order) (price : ℕ) (q : ℕ) : Trade :=
  { price := price, qty := q, aggressorId := inc.id, passiveId := resting.id,
    aggressorSide := inc.side, aggPostOnly := inc.postOnly, aggStpGroup := inc.stpGroup,
    pasStpGroup := resting.stpGroup, aggStpPolicy := inc.stpPolicy }

/-- What a meeting with the first order of a queue leaves: the incoming order, the queue, the trades
(at most one), and the time. -/
structure Meeting where
  incoming : Order
  queue : List Order
  trades : List Trade
  clock : ℕ
  deriving DecidableEq, Repr

/-- The incoming order meets `resting`, the first order of a queue at the price `price`: the
self-trade prevention of the two, or a fill. -/
def meetResting (inc resting : Order) (price : ℕ) (queue : List Order) (tm : ℕ) :
    Meeting :=
  let q := min inc.remainingQty resting.visibleQty
  let left := inc.remainingQty - q
  if selfTradeConflict inc resting then
    match inc.stpPolicy.getD .cancelNewest with
    | .cancelNewest => ⟨{ inc with status := .cancelled }, resting :: queue, [], tm⟩
    | .cancelOldest => ⟨inc, queue, [], tm⟩
    | .cancelBoth => ⟨{ inc with status := .cancelled }, queue, [], tm⟩
    | .decrement =>
      if q = 0 then ⟨inc, queue, [], tm⟩
      else
        let next := settleResting (reduceOrder resting q) queue resting.status tm
        ⟨{ inc with
          remainingQty := left, status := if left = 0 then .cancelled else inc.status },
          next.1, [], next.2⟩
  else if resting.visibleQty = 0 then ⟨inc, queue, [], tm⟩
  else
    let next := settleResting (reduceOrder resting q) queue .partiallyFilled tm
    ⟨{ inc with remainingQty := left }, next.1, [fillTrade inc resting price q], next.2⟩

/-- The matching loop on the levels of the other side. An order that is cancelled ends it. -/
def doMatch (fuel : ℕ) (inc : Order) (contra : List PriceLevel) (trades : List Trade)
    (tm : ℕ) : MatchResult :=
  match fuel with
  | 0 => ⟨inc, contra, trades, tm⟩
  | fuel + 1 =>
    if inc.remainingQty = 0 ∨ inc.status = .cancelled then ⟨inc, contra, trades, tm⟩
    else
      match contra with
      | [] => ⟨inc, contra, trades, tm⟩
      | level :: levels =>
        if ¬ canMatchPrice inc level.price then ⟨inc, contra, trades, tm⟩
        else
          match level.orders with
          | [] => doMatch fuel inc levels trades tm
          | resting :: queue =>
            let m := meetResting inc resting level.price queue tm
            doMatch fuel m.incoming (requeue level m.queue levels) (trades ++ m.trades) m.clock

/-- The loop is over when nothing remains of the order. -/
theorem doMatch_done {fuel : ℕ} {inc : Order} {contra : List PriceLevel} {trades : List Trade}
    {tm : ℕ} (h : inc.remainingQty = 0 ∨ inc.status = .cancelled) :
    doMatch fuel inc contra trades tm = ⟨inc, contra, trades, tm⟩ := by
  cases fuel with
  | zero => rfl
  | succ fuel =>
    unfold doMatch
    exact if_pos h

end MatchingEngine.Spec
