import Mathlib.Data.UInt
import Mathlib.Data.Int.Notation
import Mathlib.Logic.Function.Basic

/-!
# The types of the C++ engine

`cpp_reference/src/types.h`. Prices and quantities are `int64_t`: they are integers, and the sums
that can leave the range wrap with `wrap64`. An order id and a self-trade group are words. An order
keeps its links apart from its values: `Cell` is `struct Order` as it stands in the heap.

The clock, the timestamps, the expiry times and the trade ids are `uint64_t` in the source and
natural numbers here. They count ticks and trades, and the two agree as long as the clock and the
trade counter stay below `2^64`. A clock that `setTime` puts at `2^64 - 1` goes to zero at the next
tick of the source, and to `2^64` here, so what is said of such a clock is not said of the source.
-/

namespace MatchingEngine.Cpp

/-- The `int64_t` that a sum of two `int64_t` wraps to. -/
def wrap64 (n : ℤ) : ℤ := n.bmod (2 ^ 64)

/-- `Side`. -/
inductive Side
  | BUY
  | SELL
  deriving DecidableEq, Repr

/-- `OrderType`. -/
inductive OrderType
  | LIMIT
  | MARKET
  | MARKET_TO_LIMIT
  | STOP_LIMIT
  | STOP_MARKET
  deriving DecidableEq, Repr

/-- `TimeInForce`. -/
inductive TimeInForce
  | GTC
  | GTD
  | IOC
  | FOK
  | DAY
  deriving DecidableEq, Repr

/-- `OrderStatus`. -/
inductive OrderStatus
  | NEW
  | PARTIALLY_FILLED
  | FILLED
  | CANCELLED
  | REJECTED
  | EXPIRED
  | TRIGGERED
  deriving DecidableEq, Repr

/-- `STPPolicy`. -/
inductive STPPolicy
  | NONE
  | CANCEL_NEWEST
  | CANCEL_OLDEST
  | CANCEL_BOTH
  | DECREMENT
  deriving DecidableEq, Repr

/-- `PostOnlyPolicy`. -/
inductive PostOnlyPolicy
  | REJECT
  | REPRICE
  deriving DecidableEq, Repr

/-- `oppositeSide`. -/
def oppositeSide : Side → Side
  | .BUY => .SELL
  | .SELL => .BUY

/-- There are two sides. -/
theorem eq_oppositeSide {b c : Side} (h : b ≠ c) : b = oppositeSide c := by
  cases b <;> cases c <;> first | rfl | exact absurd rfl h

/-- The values of `struct Order`. -/
structure Order where
  id : UInt64 := 0
  side : Side := .BUY
  orderType : OrderType := .LIMIT
  timeInForce : TimeInForce := .GTC
  price : ℤ := 0
  stopPrice : ℤ := 0
  quantity : ℤ := 0
  remainingQty : ℤ := 0
  minQty : ℤ := 0
  displayQty : ℤ := 0
  visibleQty : ℤ := 0
  postOnly : Bool := false
  status : OrderStatus := .NEW
  timestamp : ℕ := 0
  expireTime : ℕ := 0
  selfTradeGroup : UInt64 := 0
  stpPolicy : STPPolicy := .NONE
  deriving DecidableEq, Repr

/-- `struct Order`: its values and its links. A pointer is an address, with `none` for `nullptr`. -/
structure Cell where
  order : Order := {}
  prev : Option ℕ := none
  next : Option ℕ := none
  level : Option ℕ := none
  deriving DecidableEq, Repr

/-- `struct PriceLevel`. -/
structure PriceLevel where
  price : ℤ := 0
  head : Option ℕ := none
  tail : Option ℕ := none
  deriving DecidableEq, Repr

/-- `struct Trade`. -/
structure Trade where
  tradeId : ℕ
  price : ℤ
  quantity : ℤ
  aggressorId : UInt64
  passiveId : UInt64
  aggressorSide : Side
  timestamp : ℕ
  deriving DecidableEq, Repr

/-- `struct OrderInput`. -/
structure OrderInput where
  id : UInt64 := 0
  side : Side := .BUY
  orderType : OrderType := .LIMIT
  timeInForce : TimeInForce := .GTC
  price : ℤ := 0
  stopPrice : ℤ := 0
  quantity : ℤ := 0
  minQty : ℤ := 0
  displayQty : ℤ := 0
  postOnly : Bool := false
  expireTime : ℕ := 0
  selfTradeGroup : UInt64 := 0
  stpPolicy : STPPolicy := .NONE
  deriving DecidableEq, Repr

/-- A call of the listener. It does not call back into the engine. -/
inductive Event
  | onOrderAccepted (o : Order)
  | onOrderRejected (o : Order) (reason : String)
  | onTrade (t : Trade)
  | onOrderCancelled (o : Order) (reason : String)
  | onOrderExpired (o : Order)
  | onOrderTriggered (o : Order)
  | onOrderDecremented (incoming resting : Order) (quantity : ℤ)
  | onOrderRepriced (o : Order) (old new : ℤ)
  deriving DecidableEq, Repr

/-- The levels of a side, from the best one on, with the orders of each queue from its head on. -/
abbrev Levels := List (ℤ × List Order)

/-- An entry of the history of a run: a call of the listener, or one of the acts that the listener
is not told of when they happen. -/
inductive Mark
  /-- A call of the listener. -/
  | event (e : Event)
  /-- A trade is made, between the incoming order `inc` and `rest` as they are just before, when the
  other side of the book is `contra`. -/
  | executed (t : Trade) (inc rest : Order) (contra : Levels)
  /-- An order is put at the end of the queue `queue` because it comes to rest. -/
  | rested (o : Order) (queue : List Order)
  /-- An order is put at the end of its queue because its displayed slice was used up. -/
  | reloaded (o : Order)
  /-- An order that was accepted is freed. -/
  | left (o : Order)
  deriving DecidableEq, Repr

end MatchingEngine.Cpp
