import MatchingEngine.Book.Basic
import MatchingEngine.C.TreeOps
import MatchingEngine.Lib.Total

/-!
# The handwritten matcher

`c/src/matching_engine.c` on the heap of `C/Heap.lean`. The state is the heap with the engine object
and the calls of its callback. The two sides of `MatchingEngine_ProcessOrder` are the same code on
swapped trees, so they are one definition with the trees and the comparison of prices as parameters.
A loop that takes more turns than there are rows has come back to a row, so it does not return.
-/

namespace MatchingEngine.Hand

open Contract Lib C

/-- `TradeEvent`. -/
structure TradeEvent where
  aggressor_id : UInt64
  passive_id : UInt64
  price : UInt64
  qty : UInt64
  deriving DecidableEq, Repr

/-- `MatchingEngine`, where `on_trade` says whether the callback is set. -/
structure Engine where
  total_trades : UInt64
  total_volume : UInt64
  on_trade : Bool
  deriving DecidableEq

/-- The heap, the engine object, or `none` for a `NULL` one, and the calls of the callback. -/
structure State where
  db : EngineDb
  engine : Option Engine
  events : List TradeEvent

/-- `MatchingEngine_Init`. -/
def init (calloc : EngineDb.Calloc) (engine : Option Engine) (cb : Bool) : State where
  db := EngineDb.init calloc
  engine := engine.map fun _ => { total_trades := 0, total_volume := 0, on_trade := cb }
  events := []

/-! ## Statements -/

/-- A field read. -/
def read {α : Type} (f : EngineDb → α) : Prog State α := fun s => some (f s.db, s)

/-- A function of the data layer that follows links. -/
def follow {α : Type} (f : EngineDb → Option α) : Prog State α := fun s => (f s.db).map (·, s)

/-- A write. -/
def write (f : EngineDb → EngineDb) : Prog State Unit := fun s => some ((), { s with db := f s.db })

/-- A function of the data layer that follows links and writes. -/
def update {α : Type} (f : EngineDb → Option (α × EngineDb)) : Prog State α := fun s =>
  (f s.db).map fun r => (r.1, { s with db := r.2 })

/-- A loop over rows. -/
def rowLoop {β : Type} (guard : β → Bool) (body : β → Prog State (ForInStep β)) (b : β) :
    Prog State β := do
  let n ← read EngineDb.orderFuel
  loop guard body n b

/-- `min_u64`. -/
def minU64 (a b : UInt64) : UInt64 := if a < b then a else b

/-- `PriceLevel_orders_Remove(best, p); EngineDb_ind_order_Remove(p); EngineDb_order_pool_Free(p)`.
-/
def drop (best : LevelPtr) (p : OrderPtr) : Prog State Unit := do
  write (·.ordersRemove best p)
  update fun db => (db.indOrderRemove p).map ((), ·)
  write (·.orderPoolFree p)

/-- `EngineDb_*_Remove(lvl); EngineDb_level_pool_Free(lvl)`. -/
def dropLevel (t : Tree) (lvl : LevelPtr) : Prog State Unit := do
  update fun db => (db.removeFrom t lvl).map ((), ·)
  write (·.levelPoolFree lvl)

/-- The block `if (engine)` after a fill. -/
def State.report (s : State) (e : TradeEvent) : State :=
  match s.engine with
  | none => s
  | some engine => { s with
      -- The totals wrap around.
      engine := some { engine with
        total_trades := engine.total_trades + 1
        total_volume := engine.total_volume + e.qty }
      events := if engine.on_trade then s.events ++ [e] else s.events }

/-! ## Matching -/

/-- The two branches of the inner loop that reduce both orders, which differ in what they report:
the new `rem_qty` and `passive`. -/
def reduce (best : LevelPtr) (rem_qty : UInt64) (passive : OrderPtr)
    (report : UInt64 → Prog State Unit) : Prog State (UInt64 × Option OrderPtr) := do
  let qty := minU64 rem_qty (← read fun db => (db.orders passive).remaining_qty)
  write (·.setOrder passive fun o => { o with remaining_qty := o.remaining_qty - qty })
  write (·.setLevel best fun v => { v with total_qty := v.total_qty - qty })
  report qty
  -- The successor is read before the order can leave the queue.
  let next_passive ← read (·.ordersNext passive)
  if (← read fun db => (db.orders passive).remaining_qty) = 0 then drop best passive
  return (rem_qty - qty, next_passive)

/-- The body of the inner loop, on the variables `rem_qty` and `passive`. -/
def meet (best : LevelPtr) (req : OrderRequest) :
    UInt64 × Option OrderPtr → Prog State (ForInStep (UInt64 × Option OrderPtr))
  -- Not reached: the guard of the loop is `passive != NULL`.
  | (_, none) => fun _ => none
  | (rem_qty, some passive) => do
    let account ← read fun db => (db.orders passive).account_id
    -- `STP_CANCEL_NEW`: the loop is left with nothing to match, and the remainder is not rested.
    if (req.account_id ≠ 0 ∧ req.account_id = account) ∧ req.stp_mode = 1 then
      return .done (0, some passive)
    -- `STP_CANCEL_OLD` and `STP_CANCEL_BOTH`.
    else if (req.account_id ≠ 0 ∧ req.account_id = account) ∧
        (req.stp_mode = 2 ∨ req.stp_mode = 3) then
      let next ← read (·.ordersNext passive)
      drop best passive
      if req.stp_mode = 3 then return .done (0, next) else return .yield (rem_qty, next)
    else if (req.account_id ≠ 0 ∧ req.account_id = account) ∧ req.stp_mode = 4 then
      -- `STP_DECREMENT_AND_CONTINUE`, which is reported to nobody.
      return .yield (← reduce best rem_qty passive fun _ => pure ())
    else
      -- A fill, also of an order of the same account when the mode is `STP_NONE`.
      return .yield (← reduce best rem_qty passive fun fill_qty => do
        let id ← read fun db => (db.orders passive).id
        let price ← read fun db => (db.levels best).price
        modify (·.report ⟨req.id, id, price, fill_qty⟩))

/-- The body of the outer loop on the variable `rem_qty`, with `contra` the tree that the order
meets and `crosses` the comparison of a price of it with the order's. -/
def meetLevel (contra : Tree) (crosses : UInt64 → UInt64 → Bool) (req : OrderRequest)
    (rem_qty : UInt64) : Prog State (ForInStep UInt64) := do
  match ← follow (·.bestOf contra) with
  | none => return .done rem_qty
  | some best =>
    let price ← read fun db => (db.levels best).price
    -- Price zero is no bound: a market order is told by its type.
    if req.order_type ≠ 1 ∧ !crosses price req.price then return .done rem_qty
    else
      let passive ← read (·.ordersFirst best)
      let (rem_qty, _) ← rowLoop (fun x => x.2.isSome && 0 < x.1) (meet best req) (rem_qty, passive)
      -- The level may still hold orders, when the request is used up.
      if (← read fun db => (db.levels best).orders_n) = 0 then dropLevel contra best
      return .yield rem_qty

/-! ## Resting -/

/-- The end of the code that rests an order: `ord` linked into `lvl`, and unlinked again if the
index already has its id. -/
def link (own : Tree) (lvl : LevelPtr) (ord : OrderPtr) (is_new_lvl : Bool) : Prog State Bool := do
  write (·.ordersInsertTail lvl ord)
  if ← update (·.indOrderInsertMaybe ord) then return true
  else
    write (·.ordersRemove lvl ord)
    -- A level that was there before is not taken away, also when it is empty.
    if (← read fun db => (db.levels lvl).orders_n) = 0 ∧ is_new_lvl then dropLevel own lvl
    write (·.orderPoolFree ord)
    return false

/-- The remainder `rem_qty` rested in the tree `own`. -/
def rest (own : Tree) (req : OrderRequest) (rem_qty : UInt64) : Prog State Bool := do
  match ← update fun db => some db.orderPoolAlloc with
  -- The request has been matched by now, and its trades stand.
  | none => return false
  | some ord =>
    write (·.setOrder ord fun o => { o with
      id := req.id
      account_id := req.account_id
      side := req.side.toUInt64
      stp_mode := req.stp_mode.toUInt64
      price := req.price
      qty := req.qty
      remaining_qty := rem_qty })
    match ← follow (·.findIn own req.price) with
    | some lvl => link own lvl ord false
    | none =>
      match ← update fun db => some db.levelPoolAlloc with
      | none =>
        -- The row goes back, and nothing of it is linked.
        write (·.orderPoolFree ord)
        return false
      | some lvl =>
        write (·.setLevel lvl fun v => { v with price := req.price })
        update fun db => (db.insertIn own lvl).map ((), ·)
        link own lvl ord true

/-! ## Requests -/

/-- The post-only test. -/
def wouldCross (contra : Tree) (crosses : UInt64 → UInt64 → Bool) (req : OrderRequest) :
    Prog State Bool := do
  if req.order_type = 3 then
    match ← follow (·.bestOf contra) with
    | none => return false
    | some best => return crosses (← read fun db => (db.levels best).price) req.price
  else return false

/-- One of the two branches on the side of the request. -/
def processSide (own contra : Tree) (crosses : UInt64 → UInt64 → Bool) (req : OrderRequest) :
    Prog State Bool := do
  if ← wouldCross contra crosses req then return false
  else
    let rem_qty ← rowLoop (fun rem_qty => 0 < rem_qty) (meetLevel contra crosses req) req.qty
    -- Neither an IOC nor a market order rests.
    if 0 < rem_qty ∧ req.order_type ≠ 2 ∧ req.order_type ≠ 1 then rest own req rem_qty
    else return true

/-- `MatchingEngine_ProcessOrder`, with `none` for a `NULL` request. -/
def processOrder : Option OrderRequest → Prog State Bool
  | none => return false
  | some req => do
    if req.qty = 0 then return false
    else if req.side > 1 ∨ req.order_type > 3 ∨ req.stp_mode > 4 then return false
    else if req.order_type ≠ 1 ∧ req.price = 0 then return false
    -- The id is looked up before anything is matched.
    else if (← follow (·.indOrderFind req.id)).isSome then return false
    else if req.side = 0 then processSide .bids .asks (fun best price => best ≤ price) req
    else processSide .asks .bids (fun best price => price ≤ best) req

/-- `MatchingEngine_CancelOrder`. -/
def cancelOrder (order_id : UInt64) : Prog State Bool := do
  match ← follow (·.indOrderFind order_id) with
  | none => return false
  | some ord =>
    match ← read fun db => (db.orders ord).p_price_level with
    | none => return false
    | some lvl =>
      -- The side is copied before the row is freed.
      let side ← read fun db => (db.orders ord).side
      drop lvl ord
      if (← read fun db => (db.levels lvl).orders_n) = 0 then
        if side = 0 then update fun db => (db.removeFrom .bids lvl).map ((), ·)
        else update fun db => (db.removeFrom .asks lvl).map ((), ·)
        write (·.levelPoolFree lvl)
      return true

/-- A call of the API. -/
inductive Call where
  | process (req : Option OrderRequest)
  | cancel (order_id : UInt64)

/-- A call made. -/
def Call.exec : Call → Prog State Bool
  | .process req => processOrder req
  | .cancel order_id => cancelOrder order_id

/-- The results of a run of calls. -/
def run : List Call → Prog State (List Bool)
  | [] => return []
  | c :: cs => do
    let b ← c.exec
    return b :: (← run cs)

end MatchingEngine.Hand
