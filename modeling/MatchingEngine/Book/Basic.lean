import MatchingEngine.Contract

/-!
# The price-time book

What the matchers of the C engines are for, in its own terms. A side of the book is a list of price
levels, best first, and a level is a queue of orders, oldest first. An order that arrives meets the
orders of the other side from the front for as long as the prices cross. It trades with them, except
where both belong to one account and its self-trade prevention says otherwise, and a remainder rests
behind the orders of its price.
-/

namespace MatchingEngine

open Contract

/-! ## Requests -/

/-- `OrderType`. -/
inductive OrderType where
  | limit | market | ioc | postOnly
  deriving DecidableEq, Repr

/-- `StpMode`. -/
inductive StpMode where
  | none | cancelNew | cancelOld | cancelBoth | decrement
  deriving DecidableEq, Repr

/-- The code of an order type. -/
def OrderType.code : OrderType → UInt64
  | .limit => 0
  | .market => 1
  | .ioc => 2
  | .postOnly => 3

/-- The code of a self-trade prevention mode. -/
def StpMode.code : StpMode → UInt64
  | .none => 0
  | .cancelNew => 1
  | .cancelOld => 2
  | .cancelBoth => 3
  | .decrement => 4

/-- The code of the side whose orders rest in a tree: buyers in the bids, sellers in the asks. -/
def Contract.Tree.code : Tree → UInt64
  | .bids => 0
  | .asks => 1

/-- The order type of a code. -/
def OrderType.ofCode (c : UInt64) : Option OrderType :=
  [limit, market, ioc, postOnly].find? fun t => t.code = c

/-- The self-trade prevention mode of a code. -/
def StpMode.ofCode (c : UInt64) : Option StpMode :=
  [none, cancelNew, cancelOld, cancelBoth, decrement].find? fun m => m.code = c

/-- The side of a code. -/
def Contract.Tree.ofCode (c : UInt64) : Option Tree :=
  [bids, asks].find? fun t => t.code = c

/-- `struct OrderRequest`. -/
structure OrderRequest where
  id : UInt64
  account_id : UInt64
  side : UInt8
  order_type : UInt8
  stp_mode : UInt8
  price : UInt64
  qty : UInt64
  deriving DecidableEq, Repr

/-- A valid request. -/
structure Request where
  id : UInt64
  account : UInt64
  /-- The side that the order rests on; it meets the orders of the other one. -/
  side : Tree
  otype : OrderType
  stp : StpMode
  price : UInt64
  qty : UInt64
  qty_ne : qty ≠ 0
  price_ne : otype ≠ .market → price ≠ 0
  deriving DecidableEq

/-- The request that a `struct OrderRequest` stands for, if it is valid: its codes are, its quantity
is not zero, and it has a price unless it is a market order. -/
def OrderRequest.decode (r : OrderRequest) : Option Request :=
  match Tree.ofCode r.side.toUInt64, OrderType.ofCode r.order_type.toUInt64,
    StpMode.ofCode r.stp_mode.toUInt64 with
  | some side, some otype, some stp =>
    if h : r.qty ≠ 0 ∧ (otype ≠ .market → r.price ≠ 0) then
      some ⟨r.id, r.account_id, side, otype, stp, r.price, r.qty, h.1, h.2⟩
    else none
  | _, _, _ => none

namespace Request

variable (r : Request)

/-- The order may trade at the price `p`. -/
def crosses (p : UInt64) : Prop := r.otype = .market ∨ better r.side.other p r.price

instance (p : UInt64) : Decidable (r.crosses p) := inferInstanceAs (Decidable (_ ∨ _))

/-- What self-trade prevention does when the order meets `p`, where `none` lets them trade. -/
def prevention (p : OrderRow) : StpMode :=
  if r.account ≠ 0 ∧ r.account = p.account then r.stp else .none

/-- A remainder stays on the book. -/
def rests : Prop := r.otype = .limit ∨ r.otype = .postOnly

instance : Decidable r.rests := inferInstanceAs (Decidable (_ ∨ _))

/-- The row of the order when it rests with the quantity `rem`. -/
def row (rem : UInt64) : OrderRow :=
  { id := r.id, account := r.account, side := r.side.code, stp_mode := r.stp.code,
    price := r.price, qty := r.qty, remaining := rem }

end Request

/-! ## Books -/

/-- A price level: a queue of orders, oldest first. -/
structure Level where
  price : UInt64
  orders : List OrderRow
  deriving DecidableEq, Repr

/-- A book: the levels of each side, best first. -/
@[ext] structure Book where
  bids : List Level
  asks : List Level
  deriving DecidableEq, Repr

namespace Book

/-- The book with no orders. -/
def empty : Book := ⟨[], []⟩

/-- One side. -/
def side (b : Book) : Tree → List Level
  | .bids => b.bids
  | .asks => b.asks

/-- One side replaced. -/
def setSide (b : Book) (ls : List Level) : Tree → Book
  | .bids => { b with bids := ls }
  | .asks => { b with asks := ls }

/-- The orders of the book. -/
def orders (b : Book) : List OrderRow := (b.bids ++ b.asks).flatMap Level.orders

/-- The ids of the resting orders. -/
def ids (b : Book) : List UInt64 := b.orders.map OrderRow.id

/-- The bids. -/
@[simp] theorem side_bids (b : Book) : b.side .bids = b.bids := rfl

/-- The asks. -/
@[simp] theorem side_asks (b : Book) : b.side .asks = b.asks := rfl

/-- The side that was replaced. -/
@[simp] theorem side_setSide_self (b : Book) (ls : List Level) (t : Tree) :
    (b.setSide ls t).side t = ls := by
  cases t <;> rfl

/-- The other side is kept. -/
@[simp] theorem side_setSide_other (b : Book) (ls : List Level) (t : Tree) :
    (b.setSide ls t).side t.other = b.side t.other := by
  cases t <;> rfl

/-- This side is kept when the other one is replaced. -/
@[simp] theorem side_setSide_other' (b : Book) (ls : List Level) (t : Tree) :
    (b.setSide ls t.other).side t = b.side t := by
  cases t <;> rfl

/-- A side is replaced by itself. -/
@[simp] theorem setSide_side (b : Book) (t : Tree) : b.setSide (b.side t) t = b := by
  cases t <;> rfl

/-- The last replacement counts. -/
@[simp] theorem setSide_setSide (b : Book) (ls ms : List Level) (t : Tree) :
    (b.setSide ls t).setSide ms t = b.setSide ms t := by
  cases t <;> rfl

/-- A side after one is replaced. -/
theorem side_setSide (b : Book) (ls : List Level) (s t : Tree) :
    (b.setSide ls t).side s = if s = t then ls else b.side s := by
  cases s <;> cases t <;> rfl

end Book

/-! ## Matching -/

/-- What matching leaves: the passive side, the remainder of the order, and the trades. -/
structure Outcome (α : Type) where
  left : α
  rem : UInt64
  trades : List TradeRow
  deriving DecidableEq, Repr

/-- An outcome with trades before its own. -/
def Outcome.after {α : Type} (ts : List TradeRow) (o : Outcome α) : Outcome α :=
  { o with trades := ts ++ o.trades }

/-- No trades come before. -/
@[simp] theorem Outcome.after_nil {α : Type} (o : Outcome α) : o.after [] = o := rfl

/-- Trades come before trades. -/
theorem Outcome.after_after {α : Type} (ts us : List TradeRow) (o : Outcome α) :
    (o.after us).after ts = o.after (ts ++ us) := by
  unfold after
  rw [List.append_assoc]

namespace Request

variable (r : Request)

/-- The order with the remainder `rem` meets a queue at the price `price`, oldest order first. -/
def matchOrders (price : UInt64) : List OrderRow → UInt64 → Outcome (List OrderRow)
  | [], rem => ⟨[], rem, []⟩
  | p :: ps, rem =>
    if rem = 0 then ⟨p :: ps, 0, []⟩
    else
      match r.prevention p with
      | .cancelNew => ⟨p :: ps, 0, []⟩
      | .cancelOld => matchOrders price ps rem
      | .cancelBoth => ⟨ps, 0, []⟩
      | .decrement =>
        if p.remaining ≤ rem then matchOrders price ps (rem - p.remaining)
        else ⟨{ p with remaining := p.remaining - rem } :: ps, 0, []⟩
      | .none =>
        if p.remaining ≤ rem then
          (matchOrders price ps (rem - p.remaining)).after [⟨p.id, r.id, price, p.remaining⟩]
        else ⟨{ p with remaining := p.remaining - rem } :: ps, 0, [⟨p.id, r.id, price, rem⟩]⟩

/-- The order with the remainder `rem` meets the levels of the other side, best first. -/
def matchLevels : List Level → UInt64 → Outcome (List Level)
  | [], rem => ⟨[], rem, []⟩
  | l :: ls, rem =>
    if rem = 0 ∨ ¬ r.crosses l.price then ⟨l :: ls, rem, []⟩
    else
      let o := r.matchOrders l.price l.orders rem
      if o.left = [] then (matchLevels ls o.rem).after o.trades
      else ⟨{ l with orders := o.left } :: ls, o.rem, o.trades⟩

end Request

/-! ## Steps -/

/-- In the tree `t`, the price `p` has priority over `q`. -/
def before : Tree → UInt64 → UInt64 → Prop
  | .bids, p, q => q < p
  | .asks, p, q => p < q

instance (t : Tree) (p q : UInt64) : Decidable (before t p q) := by
  cases t <;> exact inferInstanceAs (Decidable (_ < _))

/-- A row behind the orders of its price, at a level of its own if there are none. -/
def insertRow (t : Tree) (row : OrderRow) : List Level → List Level
  | [] => [⟨row.price, [row]⟩]
  | l :: ls =>
    if row.price = l.price then { l with orders := l.orders ++ [row] } :: ls
    else if before t row.price l.price then ⟨row.price, [row]⟩ :: l :: ls
    else l :: insertRow t row ls

/-- The order `id` taken out, with its level if that leaves it empty. -/
def removeId (id : UInt64) (ls : List Level) : List Level :=
  (ls.map fun l => { l with orders := l.orders.filter (·.id ≠ id) }).filter (·.orders ≠ [])

namespace Book

variable (b : Book) (r : Request)

/-- The best order of the other side would trade. -/
def crossing : Prop := ∃ l ∈ (b.side r.side.other).head?, r.crosses l.price

instance : Decidable (b.crossing r) :=
  match h : (b.side r.side.other).head? with
  | none => isFalse fun ⟨l, hl, _⟩ => by rw [h] at hl; cases hl
  | some l => decidable_of_iff (r.crosses l.price)
      ⟨fun hc => ⟨l, h, hc⟩, fun ⟨m, hm, hc⟩ => by rw [h] at hm; cases hm; exact hc⟩

/-- What is left of the order matched: its remainder, its trades, and the book without what they
took. -/
def matchedFrom (rem : UInt64) : Outcome Book :=
  let o := r.matchLevels (b.side r.side.other) rem
  { o with left := b.setSide o.left r.side.other }

/-- The order matched. -/
def matched : Outcome Book := b.matchedFrom r r.qty

/-- The row `row` added to the side `t`. -/
def rest (row : OrderRow) (t : Tree) : Book := b.setSide (insertRow t row (b.side t)) t

/-- The order matched, and its remainder rested. -/
def place : Outcome Book :=
  let o := b.matched r
  if o.rem ≠ 0 ∧ r.rests then { o with left := o.left.rest (r.row o.rem) r.side } else o

/-- The pools have a row for the order, and one for a level if the order needs one. -/
def HasRoom (caps : Caps) : Prop :=
  b.orders.length < caps.orders ∧
    ((∃ l ∈ b.side r.side, l.price = r.price) ∨ b.bids.length + b.asks.length < caps.levels)

/-- A request: `none` if its id is that of a resting order, or if it is post-only and would
trade. -/
def submit : Option (Outcome Book) :=
  if r.id ∈ b.ids then none
  else if r.otype = .postOnly ∧ b.crossing r then none
  else some (b.place r)

/-- A cancellation: `none` if no resting order has the id. -/
def cancel (id : UInt64) : Option Book :=
  if id ∈ b.ids then some ⟨removeId id b.bids, removeId id b.asks⟩ else none

end Book

end MatchingEngine
