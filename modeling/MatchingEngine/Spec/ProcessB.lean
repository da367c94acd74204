import MatchingEngine.Book.Step
import MatchingEngine.Spec.Process

/-!
# The specification behind the entry checks

`processB` of `lean/Bridge/ProcessB.lean`: the checks that the generated engine makes on a request,
and then `process` or `cancelOrder`. It is compared with an engine through `bookView`, which leaves
out what C does not keep: the post-only flag, the status, and the time of an order, and the last
trade price, the id counter, and the clock of a book.
-/

namespace MatchingEngine.Spec

open Contract

/-! ## Requests as orders -/

/-- The side on which the orders of a tree are. -/
def sideOfTree : Tree → Side
  | .bids => .buy
  | .asks => .sell

/-- Account 0 belongs to no group. -/
def stpGroupOf (account : UInt64) : Option ℕ :=
  if account = 0 then none else some account.toNat

/-- The policy of a mode; an order without one opts out. -/
def policyOf : StpMode → Option STPPolicy
  | .none => none
  | .cancelNew => some .cancelNewest
  | .cancelOld => some .cancelOldest
  | .cancelBoth => some .cancelBoth
  | .decrement => some .decrement

/-- The policy of an order of an account with a mode. Without a group there is none. -/
def stpPolicyOf (account mode : UInt64) : Option STPPolicy :=
  if account = 0 then none else (StpMode.ofCode mode).bind policyOf

/-- The order that a valid request stands for. -/
def mkOrder (r : Request) : Order :=
  { id := r.id.toNat
    side := sideOfTree r.side
    orderType := if r.otype = .market then .market else .limit
    tif := if r.otype = .market ∨ r.otype = .ioc then .ioc else .gtc
    price := if r.otype = .market then none else some r.price.toNat
    stopPrice := none
    qty := r.qty.toNat
    remainingQty := r.qty.toNat
    minQty := none
    displayQty := none
    visibleQty := r.qty.toNat
    postOnly := r.otype = .postOnly
    status := .new_
    timestamp := 0
    stpGroup := stpGroupOf r.account
    stpPolicy := stpPolicyOf r.account r.stp.code }

/-- The order of a `struct OrderRequest`, if it is valid. -/
def toSpec (q : OrderRequest) : Option Order := q.decode.map mkOrder

/-! ## The step -/

/-- A request to the engine. -/
inductive Req where
  | order (q : OrderRequest)
  | cancel (id : UInt64)

/-- What the checks and the pipeline make of a request. -/
inductive ResultCode where
  | accepted | cancelled | rejectedUnsupported | rejectedInvalid | rejectedDuplicate
  | rejectedCapacity | rejectedPostOnly | rejectedUnknownId
  deriving DecidableEq, Repr

/-- What the generated matcher returns for a result. -/
def ResultCode.code : ResultCode → UInt64
  | .accepted => 0
  | .cancelled => 1
  | .rejectedUnsupported => 2
  | .rejectedInvalid => 3
  | .rejectedDuplicate => 4
  | .rejectedCapacity => 5
  | .rejectedPostOnly => 6
  | .rejectedUnknownId => 7

/-- The largest quantity: that of `cap + 1` orders together fits into 64 bits. -/
def qmax (cap : ℕ) : ℕ := (2^64 - 1) / (cap + 1)

/-- Resting orders and dormant stops. -/
def bookSize (b : BookState) : ℕ := (allBookOrders b).length + b.stops.length

/-- Whether an order with the id rests. -/
def idOnBook (b : BookState) (id : ℕ) : Bool := (allBookOrders b).any (·.id = id)

/-- The type of the request can leave a resting order. -/
def requestMayRest (q : OrderRequest) : Bool :=
  OrderType.ofCode q.order_type.toUInt64 = some .limit ||
    OrderType.ofCode q.order_type.toUInt64 = some .postOnly

/-- A rejection leaves the book. -/
def rejectWith (c : ResultCode) (b : BookState) : ResultCode × ProcessResult := (c, ⟨b, []⟩)

/-- `process` with the id of the caller. -/
def processWithId (b : BookState) (o : Order) : ProcessResult := process { b with nextId := o.id } o

/-- Whether a post-only order is rejected. -/
def postOnlyCode (o : Order) (b : BookState) : ResultCode :=
  if o.postOnly && wouldCross o b then .rejectedPostOnly else .accepted

/-- A request on a book with the capacity `cap`. -/
def processB (cap : ℕ) (b : BookState) : Req → ResultCode × ProcessResult
  | .order q =>
    match OrderType.ofCode q.order_type.toUInt64, toSpec q with
    | none, _ => rejectWith .rejectedUnsupported b
    | some _, none => rejectWith .rejectedInvalid b
    | some _, some o =>
      if qmax cap < q.qty.toNat then rejectWith .rejectedInvalid b
      else if idOnBook b o.id then rejectWith .rejectedDuplicate b
      else if requestMayRest q && decide (cap ≤ bookSize b) then rejectWith .rejectedCapacity b
      else (postOnlyCode o b, processWithId b o)
  | .cancel id =>
    match cancelOrder b id.toNat with
    | none => rejectWith .rejectedUnknownId b
    | some b' => (.cancelled, ⟨b', []⟩)

/-- The results of a run. -/
def runB (cap : ℕ) : BookState → List Req → List (ResultCode × ProcessResult)
  | _, [] => []
  | b, req :: reqs => processB cap b req :: runB cap (processB cap b req).2.book reqs

/-! ## Views -/

/-- What is compared of an order. -/
structure OrderView where
  id : ℕ
  side : Side
  orderType : OrderType
  tif : TimeInForce
  price : Option ℕ
  stopPrice : Option ℕ
  qty : ℕ
  remainingQty : ℕ
  minQty : Option ℕ
  displayQty : Option ℕ
  visibleQty : ℕ
  stpGroup : Option ℕ
  stpPolicy : Option STPPolicy
  deriving DecidableEq, Repr

/-- An order as it is compared. -/
def orderView (o : Order) : OrderView :=
  { id := o.id, side := o.side, orderType := o.orderType, tif := o.tif, price := o.price,
    stopPrice := o.stopPrice, qty := o.qty, remainingQty := o.remainingQty, minQty := o.minQty,
    displayQty := o.displayQty, visibleQty := o.visibleQty, stpGroup := o.stpGroup,
    stpPolicy := o.stpPolicy }

/-- What is compared of a level. -/
structure LevelView where
  price : ℕ
  orders : List OrderView
  deriving DecidableEq, Repr

/-- A level as it is compared. -/
def levelView (l : PriceLevel) : LevelView := ⟨l.price, l.orders.map orderView⟩

/-- What is compared of a book. -/
structure BookView where
  bids : List LevelView
  asks : List LevelView
  stops : List OrderView
  deriving DecidableEq, Repr

/-- A book as it is compared. -/
def bookView (b : BookState) : BookView :=
  ⟨b.bids.map levelView, b.asks.map levelView, b.stops.map orderView⟩

/-- The view of the order of a row that rests in the tree `t`: C rests limit orders only, each with
all that remains of it visible. -/
def rowView (t : Tree) (r : OrderRow) : OrderView :=
  { id := r.id.toNat, side := sideOfTree t, orderType := .limit, tif := .gtc,
    price := some r.price.toNat, stopPrice := none, qty := r.qty.toNat,
    remainingQty := r.remaining.toNat, minQty := none, displayQty := none,
    visibleQty := r.remaining.toNat, stpGroup := stpGroupOf r.account,
    stpPolicy := stpPolicyOf r.account r.stp_mode }

/-- The view of a level of the tree `t`. -/
def viewLevel (t : Tree) (l : Level) : LevelView := ⟨l.price.toNat, l.orders.map (rowView t)⟩

/-- The view of a book of C rows. -/
def viewBook (b : Book) : BookView :=
  ⟨b.bids.map (viewLevel .bids), b.asks.map (viewLevel .asks), []⟩

/-- A trade without what C does not report. -/
def tradeObs (t : Trade) : ℕ × ℕ × ℕ × ℕ := (t.passiveId, t.aggressorId, t.price, t.qty)

/-- A trade of C. -/
def viewTrade (t : TradeRow) : ℕ × ℕ × ℕ × ℕ :=
  (t.maker.toNat, t.taker.toNat, t.price.toNat, t.qty.toNat)

/-- What a call shows: its code, its trades, and the book after it. -/
structure Obs where
  code : UInt64
  trades : List (ℕ × ℕ × ℕ × ℕ)
  book : BookView
  deriving DecidableEq, Repr

/-- What is compared of a result. -/
def obsSpec (x : ResultCode × ProcessResult) : Obs :=
  ⟨x.1.code, x.2.trades.map tradeObs, bookView x.2.book⟩

end MatchingEngine.Spec
