import Mathlib.Algebra.BigOperators.Group.List.Basic
import Mathlib.Algebra.GroupWithZero.Nat
import Mathlib.Data.List.Basic
import Mathlib.Data.Nat.Basic

/-!
# The specification: orders and books

The types of `lean/MatchingEngine/{Basic,Order,Book}.lean` with the operations on them. Prices,
quantities, ids, and times are natural numbers. A book holds its bids from the highest price down,
its asks from the lowest up, and the stop orders that have not triggered yet.

The names and the defaults are those of these files. `insertOrder` keeps a side sorted by
`insertDesc` or `insertAsc` and puts an order behind those of its price; `cancelOrder` and
`amendQtyDecrease` look for the id on the bids and then on the asks. Whether an order may be
submitted at all is `Order.wellFormed`.
-/

namespace MatchingEngine.Spec


/-- `Side`. -/
inductive Side where
  | buy | sell
  deriving DecidableEq, Repr

/-- `OrderType`. -/
inductive OrderType where
  | limit | market | marketToLimit | stopLimit | stopMarket
  deriving DecidableEq, Repr

/-- `TimeInForce`. -/
inductive TimeInForce where
  | gtc | ioc | fok | day
  deriving DecidableEq, Repr

/-- `OrderStatus`. -/
inductive OrderStatus where
  | new_ | partiallyFilled | filled | cancelled | rejected
  deriving DecidableEq, Repr

/-- `STPPolicy`. -/
inductive STPPolicy where
  | cancelNewest | cancelOldest | cancelBoth | decrement
  deriving DecidableEq, Repr

/-- An order. Market orders have no price, and an order without `displayQty` is no iceberg. -/
structure Order where
  id : ℕ
  side : Side
  orderType : OrderType
  tif : TimeInForce
  price : Option ℕ
  stopPrice : Option ℕ
  qty : ℕ
  remainingQty : ℕ
  minQty : Option ℕ
  displayQty : Option ℕ
  visibleQty : ℕ
  postOnly : Bool
  status : OrderStatus
  timestamp : ℕ
  stpGroup : Option ℕ
  stpPolicy : Option STPPolicy
  deriving DecidableEq, Repr

/-- The rules WF-1 to WF-20 for a new order. -/
def Order.wellFormed (o : Order) : Bool :=
  (0 < o.qty) &&
  (o.orderType != .limit || (o.price.isSome && o.price.any (0 < ·))) &&
  (o.orderType != .stopLimit || (o.price.isSome && o.price.any (0 < ·))) &&
  (o.orderType != .marketToLimit || o.price.isNone) &&
  (o.orderType != .market || o.price.isNone) &&
  (o.orderType != .stopMarket || o.price.isNone) &&
  (o.orderType != .stopLimit || (o.stopPrice.isSome && o.stopPrice.any (0 < ·))) &&
  (o.orderType != .stopMarket || (o.stopPrice.isSome && o.stopPrice.any (0 < ·))) &&
  (o.orderType != .limit || o.stopPrice.isNone) &&
  (o.orderType != .market || o.stopPrice.isNone) &&
  (o.orderType != .marketToLimit || o.stopPrice.isNone) &&
  (o.orderType != .market || (o.tif == .ioc || o.tif == .fok)) &&
  (o.orderType != .marketToLimit || (o.tif == .gtc || o.tif == .day)) &&
  (o.displayQty.isNone || o.displayQty.any fun d => 0 < d && d ≤ o.qty) &&
  (o.displayQty.isNone || o.orderType == .limit) &&
  (!o.postOnly || o.orderType == .limit) &&
  (!o.postOnly || (o.tif != .ioc && o.tif != .fok)) &&
  (o.orderType != .market || !o.postOnly) &&
  (o.orderType != .marketToLimit || !o.postOnly) &&
  -- A policy requires a group, but a group may stand without a policy.
  (o.stpPolicy.isNone || o.stpGroup.isSome) &&
  (o.minQty.isNone || o.minQty.any fun m => 0 < m && m ≤ o.qty) &&
  (o.minQty.isNone || !o.postOnly) &&
  (o.tif != .fok || o.minQty.isNone) &&
  (o.remainingQty == o.qty)

/-- A trade at the price of the passive order. -/
structure Trade where
  price : ℕ
  qty : ℕ
  aggressorId : ℕ
  passiveId : ℕ
  aggressorSide : Side
  aggPostOnly : Bool
  aggStpGroup : Option ℕ
  pasStpGroup : Option ℕ
  aggStpPolicy : Option STPPolicy
  deriving DecidableEq, Repr

/-- A queue of orders at one price, oldest first. -/
structure PriceLevel where
  price : ℕ
  orders : List Order
  deriving DecidableEq, Repr

/-- `BookState`: the levels of both sides in their order, and what is beside them. -/
structure BookState where
  bids : List PriceLevel
  asks : List PriceLevel
  /-- The dormant stops. -/
  stops : List Order
  lastTradePrice : Option ℕ
  nextId : ℕ
  clock : ℕ
  deriving DecidableEq, Repr

/-- The book with no orders. -/
def BookState.empty : BookState :=
  { bids := [], asks := [], stops := [], lastTradePrice := none, nextId := 1, clock := 1 }

/-- `bestBidPrice`. -/
def bestBidPrice (b : BookState) : Option ℕ := b.bids.head?.map PriceLevel.price

/-- `bestAskPrice`. -/
def bestAskPrice (b : BookState) : Option ℕ := b.asks.head?.map PriceLevel.price

/-- The orders of both sides. -/
def allBookOrders (b : BookState) : List Order :=
  b.bids.flatMap PriceLevel.orders ++ b.asks.flatMap PriceLevel.orders

/-- The side that an order of the side `s` meets. -/
def contraLevels (b : BookState) : Side → List PriceLevel
  | .buy => b.asks
  | .sell => b.bids

/-- The side that an order of the side `s` meets, replaced. -/
def setContraLevels (b : BookState) (s : Side) (levels : List PriceLevel) : BookState :=
  match s with
  | .buy => { b with asks := levels }
  | .sell => { b with bids := levels }

/-! ## Orders that rest -/

/-- An order behind those of its price, where the levels are in the order `first`. -/
def insertBy (first : ℕ → ℕ → Bool) (levels : List PriceLevel) (o : Order) (p : ℕ) :
    List PriceLevel :=
  match levels with
  | [] => [⟨p, [o]⟩]
  | l :: ls =>
    if first p l.price then ⟨p, [o]⟩ :: l :: ls
    else if p = l.price then { l with orders := l.orders ++ [o] } :: ls
    else l :: insertBy first ls o p

/-- `insertAsc`, the order of the asks. -/
def insertAsc : List PriceLevel → Order → ℕ → List PriceLevel := insertBy fun p q => p < q

/-- `insertDesc`, the order of the bids. -/
def insertDesc : List PriceLevel → Order → ℕ → List PriceLevel := insertBy fun p q => q < p

/-- An order as it rests: with its first slice visible, and without a minimum quantity. -/
def restingForm (o : Order) (hasTrades : Bool) : Order :=
  { o with
    visibleQty := match o.displayQty with
      | some d => min d o.remainingQty
      | none => o.remainingQty
    status := if hasTrades then .partiallyFilled else .new_
    minQty := none }

/-- An order put on its side of the book. -/
def insertOrder (b : BookState) (o : Order) (hasTrades : Bool) : BookState :=
  match o.side with
  | .buy => { b with bids := insertDesc b.bids (restingForm o hasTrades) (o.price.getD 0) }
  | .sell => { b with asks := insertAsc b.asks (restingForm o hasTrades) (o.price.getD 0) }

/-! ## Cancellation -/

/-- The order `oid` taken out, with its level if that leaves it empty. -/
def removeLevelOrder (levels : List PriceLevel) (oid : ℕ) : List PriceLevel :=
  levels.filterMap fun l =>
    match l.orders.filter (·.id ≠ oid) with
    | [] => none
    | os => some { l with orders := os }

/-- The order `oid` of one side. -/
def searchSide (levels : List PriceLevel) (oid : ℕ) : Option Order :=
  levels.findSome? fun l => l.orders.find? (·.id = oid)

/-- The side on which the order `oid` rests, and the order. -/
def findOrderOnBook (b : BookState) (oid : ℕ) : Option (Side × Order) :=
  match searchSide b.bids oid with
  | some o => some (.buy, o)
  | none => (searchSide b.asks oid).map fun o => (.sell, o)

/-- A resting order cancelled. -/
def cancelOrder (b : BookState) (oid : ℕ) : Option BookState :=
  match findOrderOnBook b oid with
  | none => none
  | some (.buy, _) => some { b with bids := removeLevelOrder b.bids oid }
  | some (.sell, _) => some { b with asks := removeLevelOrder b.asks oid }

/-! ## Amendment -/

/-- The order `oid` with the quantity `newQty`, in its place. -/
def updateLevels (levels : List PriceLevel) (oid newQty : ℕ) : List PriceLevel :=
  levels.map fun l => { l with
    orders := l.orders.map fun o =>
      if o.id = oid then { o with remainingQty := newQty, visibleQty := min o.visibleQty newQty }
      else o }

/-- The quantity of a resting order decreased. -/
def amendQtyDecrease (b : BookState) (oid newQty : ℕ) : Option BookState :=
  match findOrderOnBook b oid with
  | none => none
  | some (side, order) =>
    if order.remainingQty ≤ newQty ∨ newQty = 0 then none
    else
      match side with
      | .buy => some { b with bids := updateLevels b.bids oid newQty }
      | .sell => some { b with asks := updateLevels b.asks oid newQty }

end MatchingEngine.Spec
