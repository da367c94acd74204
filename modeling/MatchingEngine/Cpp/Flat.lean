import MatchingEngine.Cpp.Engine

/-!
# The C++ engine without its heap

The engine of `Cpp/Engine.lean` on values. A side is its levels with the orders of their queues, the
dormant stops are orders, and an order that is being worked on is an argument and a result, so there
are no addresses and no index. The functions keep the names and the branches of those of the engine,
and `none` is for what the engine traps at. `Cpp/Refine.lean` relates the two.
-/

namespace MatchingEngine.Cpp

/-- What a run writes besides the books and the stops. -/
structure Tape where
  trades : List Trade := []
  tid : ℕ := 1
  now : ℕ := 0
  lastPx : ℤ := 0
  lastDepth : ℕ := 0
  poPol : PostOnlyPolicy := .REJECT
  tickSz : ℤ := 1
  log : List Mark := []

namespace Tape

/-- An entry of the history. -/
def mark (t : Tape) (m : Mark) : Tape := { t with log := t.log ++ [m] }

/-- A call of the listener. -/
def event (t : Tape) (e : Event) : Tape := t.mark (.event e)

/-- The clock moves on. -/
def tick (t : Tape) : Tape := { t with now := t.now + 1 }

/-- A trade is made. -/
def record (t : Tape) (contra : Levels) (fq : ℤ) (inc rest : Order) : Tape :=
  let tr : Trade := ⟨t.tid, rest.price, fq, inc.id, rest.id, inc.side, t.now⟩
  { t with
    trades := t.trades ++ [tr]
    tid := t.tid + 1
    log := t.log ++ [.executed tr inc rest contra] }

end Tape

/-- The books, the dormant stops, and the rest. -/
structure Flat where
  bids : Levels := []
  asks : Levels := []
  stops : List Order := []
  tape : Tape := {}

/-- What a turn of matching does to the order at the head of the queue. -/
inductive Fate
  /-- It stays at the head. -/
  | stays (o : Order)
  /-- It leaves the engine. -/
  | goes
  /-- It moves to the end. -/
  | moves (o : Order)

/-- The queue with what has become of its head. -/
def Fate.requeue : Fate → List Order → List Order
  | stays o, q => o :: q
  | goes, q => q
  | moves o, q => q ++ [o]

/-- The elements of `v` from the `i`th on that satisfy `p`, each replaced by the last element, with
at most `n` turns: the loops over `stops_`. -/
def takeOut {α : Type} (p : α → Bool) : ℕ → ℕ → List α → List α → Option (List α × List α)
  | 0, _, _, _ => none
  | n + 1, i, v, out =>
    match v[i]? with
    | none => some (out, v)
    | some x => if p x then takeOut p n i (swapRemove v i) (out ++ [x]) else takeOut p n (i + 1) v out

/-- The levels of a side with an order at the end of the queue of its price. -/
def enqueue (b : Side) (o : Order) : Levels → Levels
  | [] => [(o.price, [o])]
  | (p, q) :: m =>
    if better b o.price p then (o.price, [o]) :: (p, q) :: m
    else if o.price = p then (p, q ++ [o]) :: m
    else (p, q) :: enqueue b o m

/-- The levels of a side without the order of an id. -/
def pull (id : UInt64) : Levels → Levels
  | [] => []
  | (p, q) :: m =>
    if q.any fun o => o.id = id then
      match q.eraseP fun o => o.id = id with
      | [] => m
      | o :: q => (p, o :: q) :: m
    else (p, q) :: pull id m

/-- The orders of some levels. -/
def Levels.orders (m : Levels) : List Order := m.flatMap (·.2)

namespace Flat

/-- The levels of a side. -/
def side (f : Flat) : Side → Levels
  | .BUY => f.bids
  | .SELL => f.asks

/-- The levels of a side, written. -/
def setSide (f : Flat) : Side → Levels → Flat
  | .BUY, m => { f with bids := m }
  | .SELL, m => { f with asks := m }

/-- The rest, written. -/
def withTape (f : Flat) (t : Tape) : Flat := { f with tape := t }

/-- The orders of the engine between two calls. -/
def orders (f : Flat) : List Order :=
  (f.side .BUY).orders ++ ((f.side .SELL).orders ++ f.stops)

/-! ## Predicates and quantity checks -/

/-- `wouldCross`. -/
def wouldCross (o : Order) (f : Flat) : Bool :=
  match o.side with
  | .BUY => match f.asks with
    | [] => false
    | l :: _ => l.1 ≤ o.price
  | .SELL => match f.bids with
    | [] => false
    | l :: _ => o.price ≤ l.1

/-- The inner loop of `availQty`. -/
def availQueue (inc : Order) (thresh : ℤ) : List Order → ℤ → ℤ × Bool
  | [], avail => (avail, false)
  | r :: q, avail =>
    if stpConflict inc r then availQueue inc thresh q avail
    else if thresh ≤ wrap64 (avail + r.visibleQty) then (wrap64 (avail + r.visibleQty), true)
    else availQueue inc thresh q (wrap64 (avail + r.visibleQty))

/-- The outer loop of `availQty`. -/
def availLevels (inc : Order) (thresh : ℤ) : Levels → ℤ → ℤ
  | [], avail => avail
  | l :: m, avail =>
    if canMatch inc l.1 then
      match availQueue inc thresh l.2 avail with
      | (avail, true) => avail
      | (avail, false) => availLevels inc thresh m avail
    else avail

/-- `fokCheck`. -/
def fokCheck (o : Order) (f : Flat) : Bool :=
  o.quantity ≤ availLevels o o.quantity (f.side (oppositeSide o.side)) 0

/-- `minQtyCheck`. -/
def minQtyCheck (o : Order) (f : Flat) : Bool :=
  o.minQty ≤ availLevels o o.minQty (f.side (oppositeSide o.side)) 0

/-! ## Matching -/

/-- `reload`. -/
def reload (rest : Order) (t : Tape) : Fate × Tape :=
  let o := { rest with
    visibleQty := min rest.displayQty rest.remainingQty
    timestamp := t.now + 1 }
  (.moves o, t.tick.mark (.reloaded o))

/-- `o->status = CANCELLED; L.onOrderCancelled(*o, reason);`. -/
def cancelWith (o : Order) (reason : String) (t : Tape) : Order × Tape :=
  let o := { o with status := .CANCELLED }
  (o, t.event (.onOrderCancelled o reason))

/-- An incoming order less `rq`, by `DECREMENT`. -/
def lessIncoming (inc : Order) (rq : ℤ) : Order :=
  { inc with
    remainingQty := inc.remainingQty - rq
    visibleQty := inc.shown (inc.remainingQty - rq)
    status := if inc.remainingQty - rq = 0 then .CANCELLED else inc.status }

/-- A resting order less `rq`, by `DECREMENT`. -/
def lessResting (rest : Order) (rq : ℤ) : Order :=
  { rest with
    remainingQty := rest.remainingQty - rq
    visibleQty := rest.visibleQty - rq
    status := if rest.remainingQty - rq = 0 then .CANCELLED else rest.status }

/-- What becomes of a resting order that was decremented. -/
def afterDecrement (r : Order) (t : Tape) : Fate × Tape :=
  if r.remainingQty = 0 then (.goes, t.mark (.left r))
  else if r.visibleQty = 0 ∧ 0 < r.displayQty then reload r t
  else (.stays r, t)

/-- `handleStp` with `DECREMENT`. -/
def decrement (inc rest : Order) (t : Tape) : Order × Fate × Tape :=
  let rq := min inc.remainingQty rest.visibleQty
  (lessIncoming inc rq, afterDecrement (lessResting rest rq)
    (t.event (.onOrderDecremented (lessIncoming inc rq) (lessResting rest rq) rq)))

/-- `handleStp`. -/
def handleStp (inc rest : Order) (t : Tape) : Order × Fate × Tape :=
  match inc.stpPolicy with
  | .CANCEL_NEWEST =>
    let c := cancelWith inc "STP_CANCEL_NEWEST" t
    (c.1, .stays rest, c.2)
  | .CANCEL_OLDEST =>
    let c := cancelWith rest "STP_CANCEL_OLDEST" t
    (inc, .goes, c.2.mark (.left c.1))
  | .CANCEL_BOTH =>
    let c := cancelWith inc "STP_CANCEL_BOTH" t
    let d := cancelWith rest "STP_CANCEL_BOTH" c.2
    (c.1, .goes, d.2.mark (.left d.1))
  | .DECREMENT => decrement inc rest t
  | .NONE => (inc, .stays rest, t)

/-- A resting order that gives up `fq` of what it shows. -/
def filledBy (rest : Order) (fq : ℤ) : Order :=
  { rest with visibleQty := rest.visibleQty - fq, remainingQty := rest.remainingQty - fq }

/-- What becomes of a resting order that has traded. -/
def afterFill (r : Order) (t : Tape) : Fate × Tape :=
  if r.visibleQty = 0 ∧ 0 < r.remainingQty ∧ 0 < r.displayQty then reload r t
  else if r.remainingQty = 0 then (.goes, t.mark (.left { r with status := .FILLED }))
  else (.stays { r with status := .PARTIALLY_FILLED }, t)

/-- A turn with an order that does not conflict, where `contra` is the side that it is on. -/
def fill (contra : Levels) (inc rest : Order) (t : Tape) : Option (Order × Fate × Tape) :=
  let fq := min inc.remainingQty rest.visibleQty
  if 0 < fq then
    some ({ inc with remainingQty := inc.remainingQty - fq },
      afterFill (filledBy rest fq) (t.record contra fq inc rest))
  else none

/-- The loop over the queue of the price `p`, where `m` are the levels after it. The flag says that
the incoming order is done with, by its self-trade policy. -/
def matchQueue (p : ℤ) (m : Levels) : ℕ → Order → List Order → Tape →
    Option (Order × List Order × Tape × Bool)
  | 0, _, _, _ => none
  | n + 1, inc, q, t =>
    if 0 < inc.remainingQty then
      match q with
      | [] => some (inc, [], t, false)
      | rest :: q =>
        if stpConflict inc rest then
          let r := handleStp inc rest t
          if r.1.status = .CANCELLED ∨ r.1.remainingQty = 0 then
            some (r.1, r.2.1.requeue q, r.2.2, true)
          else matchQueue p m n r.1 (r.2.1.requeue q) r.2.2
        else
          match fill ((p, rest :: q) :: m) inc rest t with
          | none => none
          | some r => matchQueue p m n r.1 (r.2.1.requeue q) r.2.2
    else some (inc, q, t, false)

/-- The loop over the levels of the other side. -/
def matchLevels : Levels → Order → Tape → Option (Order × Levels × Tape)
  | [], inc, t => some (inc, [], t)
  | (p, q) :: m, inc, t =>
    if 0 < inc.remainingQty ∧ canMatch inc p then
      match matchQueue p m (inc.remainingQty.toNat + q.length + 1) inc q t with
      | none => none
      | some (inc, [], t, returned) => if returned then some (inc, m, t) else matchLevels m inc t
      | some (inc, o :: q, t, _) => some (inc, (p, o :: q) :: m, t)
    else some (inc, (p, q) :: m, t)

/-- `matchOrd`. -/
def matchOrd (o : Order) (f : Flat) : Option (Order × Flat) :=
  let contra := oppositeSide o.side
  (matchLevels (f.side contra) o f.tape).map fun r => (r.1, (f.setSide contra r.2.1).withTape r.2.2)

/-! ## What is left of an order -/

/-- An order comes to rest, with a status. -/
def rest (o : Order) (st : OrderStatus) (f : Flat) : Flat :=
  let o := { o with visibleQty := o.shown o.remainingQty }
  let t := f.tape.mark (.rested o (((f.side o.side).lookup o.price).getD []))
  (f.setSide o.side (enqueue o.side { o with status := st } (f.side o.side))).withTape t

/-- An order is cancelled. -/
def cancelIn (o : Order) (reason : String) (f : Flat) : Order × Flat :=
  ((cancelWith o reason f.tape).1, f.withTape (cancelWith o reason f.tape).2)

/-- `dispose`. The order of the result, if any, does not rest. -/
def dispose (o : Order) (hasTr : Bool) (f : Flat) : Option (Option Order × Flat) :=
  if o.remainingQty = 0 then some (some { o with status := .FILLED }, f)
  else match o.timeInForce with
    | .IOC => some ((cancelIn o "IOC_REMAINDER" f).map some id)
    | .FOK => none
    | _ =>
      if o.orderType = .MARKET then some ((cancelIn o "MARKET_NO_FULL_FILL" f).map some id)
      else some (none, rest o (if hasTr then .PARTIALLY_FILLED else .NEW) f)

/-- An order that does not rest leaves. -/
def finish (o : Option Order) (f : Flat) : Flat :=
  match o with
  | none => f
  | some o => f.withTape (f.tape.mark (.left o))

/-- `kill`. -/
def kill (o : Order) (reason : String) (f : Flat) : Flat :=
  finish (some (cancelIn o reason f).1) (cancelIn o reason f).2

/-- `disposal` unless the order was cancelled. -/
def settle (o : Order) (hasTr : Bool) (f : Flat) : Option (Option Order × Flat) :=
  if o.status ≠ .CANCELLED then dispose o hasTr f else some (some o, f)

/-! ## Trades and stops -/

/-- The loop of `emitAndTrigger`. -/
def emitLoop (evalStops : ℤ → ℕ → Flat → Option Flat) (depth : ℕ) : ℕ → ℕ → Flat → Option Flat
  | 0, _, f => some f
  | n + 1, i, f =>
    match f.tape.trades[i]? with
    | none => none
    | some t =>
      let f := f.withTape { f.tape.event (.onTrade t) with lastPx := t.price, lastDepth := depth }
      match (if depth < maxCascade then evalStops t.price depth f else some f) with
      | none => none
      | some f => emitLoop evalStops depth n (i + 1) f

/-- `emitAndTrigger`. -/
def emitAndTrigger (evalStops : ℤ → ℕ → Flat → Option Flat) (start depth : ℕ) (f : Flat) :
    Option Flat :=
  emitLoop evalStops depth (f.tape.trades.length - start) start f

/-- A stop becomes an active order. -/
def trigger (o : Order) (t : Tape) : Order × Tape :=
  let o := { o with status := .TRIGGERED }
  ({ o with
      orderType := if o.orderType = .STOP_LIMIT then .LIMIT else .MARKET
      stopPrice := 0 },
    t.event (.onOrderTriggered o))

/-- The last loop of `evalStops`. -/
def activate (processActive : Order → ℕ → Flat → Option Flat) (depth : ℕ) :
    List Order → Flat → Option Flat
  | [], f => some f
  | o :: os, f =>
    match processActive (trigger o f.tape).1 (depth + 1) (f.withTape (trigger o f.tape).2) with
    | none => none
    | some f => activate processActive depth os f

/-- `evalStops`. -/
def evalStops (S : StdSort) (processActive : Order → ℕ → Flat → Option Flat) (px : ℤ) (depth : ℕ)
    (f : Flat) : Option Flat :=
  match takeOut (fires px) (f.stops.length + 1) 0 f.stops [] with
  | none => none
  | some r => activate processActive depth (S.sort (·.timestamp) r.1) { f with stops := r.2 }

/-! ## The pipeline -/

/-- The price of a post-only order that would cross. -/
def reprice (o : Order) (f : Flat) : Option (Order × Flat) :=
  match f.side (oppositeSide o.side) with
  | [] => none
  | l :: _ =>
    let o' := { o with
      price := if o.side = .BUY then wrap64 (l.1 - f.tape.tickSz) else wrap64 (l.1 + f.tape.tickSz) }
    some (o', f.withTape (f.tape.event (.onOrderRepriced o' o.price o'.price)))

/-- A post-only order that is repriced gets a price off the best one of the other side. -/
theorem reprice_eq {o : Order} {f : Flat} {l : ℤ × List Order} {m : Levels} {r : Order × Flat}
    (hside : f.side (oppositeSide o.side) = l :: m) (h : reprice o f = some r) :
    r = ({ o with
        price := if o.side = .BUY then wrap64 (l.1 - f.tape.tickSz) else wrap64 (l.1 + f.tape.tickSz) },
      f.withTape (f.tape.event (.onOrderRepriced
        { o with
          price := if o.side = .BUY then wrap64 (l.1 - f.tape.tickSz)
            else wrap64 (l.1 + f.tape.tickSz) } o.price
        (if o.side = .BUY then wrap64 (l.1 - f.tape.tickSz) else wrap64 (l.1 + f.tape.tickSz))))) := by
  unfold reprice at h
  rw [hside] at h
  exact (Option.some.inj h).symm

/-- Phase 2 of `processActive`. -/
def postOnlyPhase (o : Order) (f : Flat) : Option Flat :=
  if wouldCross o f then
    if f.tape.poPol = .REJECT then some (kill o "POST_ONLY_WOULD_CROSS" f)
    else (reprice o f).map fun r => rest r.1 .NEW r.2
  else some (rest o .NEW f)

/-- The second pass of a market-to-limit order. -/
def toLimit (ts : ℕ) (o : Order) (f : Flat) : Option (Option Order × Flat) := do
  let t ← f.tape.trades[ts]?
  let o := { o with
    price := t.price
    orderType := .LIMIT
    minQty := if 0 < o.minQty then 0 else o.minQty }
  let r ← (if 0 < o.remainingQty ∧ o.status ≠ .CANCELLED then matchOrd o f else some (o, f))
  settle r.1 true r.2

/-- Phase 4 of `processActive` for the other types. -/
def matchPlain (ts : ℕ) (o : Order) (f : Flat) : Option (Option Order × Flat) := do
  let r ← matchOrd o f
  let traded : Bool := ts < r.2.tape.trades.length
  settle { r.1 with minQty := if 0 < r.1.minQty ∧ traded then 0 else r.1.minQty } traded r.2

/-- Phase 4 of `processActive`. -/
def matchPhase (emitAndTrigger : ℕ → ℕ → Flat → Option Flat) (o : Order) (depth : ℕ) (f : Flat) :
    Option Flat :=
  let ts := f.tape.trades.length
  if o.orderType = .MARKET_TO_LIMIT then do
    let r ← matchOrd o f
    if ts < r.2.tape.trades.length then do
      let d ← toLimit ts r.1 r.2
      let f ← emitAndTrigger ts depth d.2
      some (finish d.1 f)
    else some (kill r.1 "MTL_NO_LIQUIDITY" r.2)
  else do
    let d ← matchPlain ts o f
    let f ← emitAndTrigger ts depth d.2
    some (finish d.1 f)

/-- `processActive`. -/
def processActiveWith (emitAndTrigger : ℕ → ℕ → Flat → Option Flat) (o : Order) (depth : ℕ)
    (f : Flat) : Option Flat :=
  if o.postOnly then postOnlyPhase o f
  else if o.timeInForce = .FOK ∧ ¬ fokCheck o f then some (kill o "FOK_NOT_SATISFIABLE" f)
  else if 0 < o.minQty ∧ ¬ minQtyCheck o f then some (kill o "MIN_QTY_NOT_SATISFIABLE" f)
  else matchPhase emitAndTrigger o depth f

/-- `processActive`, with at most `n` calls of itself inside each other. -/
def processActiveIn (S : StdSort) : ℕ → Order → ℕ → Flat → Option Flat
  | 0 => fun _ _ _ => none
  | n + 1 => processActiveWith (emitAndTrigger (evalStops S (processActiveIn S n)))

/-- `processActive`. -/
def processActive (S : StdSort) : Order → ℕ → Flat → Option Flat :=
  processActiveIn S (maxCascade + 1)

/-- `process`. -/
def process (S : StdSort) (o : Order) (f : Flat) : Option Flat :=
  if o.orderType = .STOP_LIMIT ∨ o.orderType = .STOP_MARKET then
    if f.tape.lastPx ≠ 0 ∧ fires f.tape.lastPx o then
      processActive S (trigger o f.tape).1 0 (f.withTape (trigger o f.tape).2)
    else some { f with stops := f.stops ++ [o] }
  else processActive S o 0 f

/-! ## Calls -/

/-- The trade buffer is cleared. -/
def clear (f : Flat) : Flat := f.withTape { f.tape with trades := [] }

/-- `submitOrder`. -/
def submitOrder (S : StdSort) (i : OrderInput) (f : Flat) : Option (Bool × Flat) :=
  if f.orders.any fun o => o.id = i.id then
    some (false, f.withTape (f.tape.event
      (.onOrderRejected { id := i.id, status := .REJECTED } "DUPLICATE_ORDER_ID")))
  else
    let o := i.order (f.tape.now + 1)
    match validate (f.tape.now + 1) o with
    | some err => some (false, f.withTape
        (f.tape.tick.event (.onOrderRejected { o with status := .REJECTED } err)))
    | none =>
      (process S o (f.withTape (f.tape.tick.event (.onOrderAccepted o))).clear).map (true, ·)

/-- Where the order of an id is: on a side or among the stops. -/
inductive Place
  | resting (b : Side) (o : Order)
  | dormant (o : Order)

/-- The order of an id and where it is. -/
def locate (f : Flat) (id : UInt64) : Option Place :=
  match f.bids.orders.find? fun o => o.id = id with
  | some o => some (.resting .BUY o)
  | none =>
    match f.asks.orders.find? fun o => o.id = id with
    | some o => some (.resting .SELL o)
    | none => (f.stops.find? fun o => o.id = id).map .dormant

/-- A resting order is taken out of its queue. -/
def unlink (b : Side) (o : Order) (f : Flat) : Flat := f.setSide b (pull o.id (f.side b))

/-- `rmStop`. -/
def rmStop (o : Order) (f : Flat) : Flat :=
  match f.stops.findIdx? fun s => s.id = o.id with
  | none => f
  | some i => { f with stops := swapRemove f.stops i }

/-- `cancelOrder`. -/
def cancelOrder (id : UInt64) (f : Flat) : Bool × Flat :=
  match f.locate id with
  | none => (false, f)
  | some (.resting b o) =>
    if o.status.open then (true, kill o "USER_REQUESTED" (f.unlink b o)) else (false, f)
  | some (.dormant o) =>
    if o.status.open then (true, kill o "USER_REQUESTED" (f.rmStop o)) else (false, f)

/-- The order that `amendOrder` makes of a resting one that loses its place. -/
def amended (o : Order) (newPx newQty : ℤ) (now : ℕ) : Order :=
  let o := { o with
    price := if 0 < newPx then newPx else o.price
    remainingQty := if 0 < newQty then newQty else o.remainingQty }
  { o with timestamp := now, visibleQty := o.shown o.remainingQty }

/-- The levels of a side with the order of an id changed where it is. -/
def change (id : UInt64) (g : Order → Order) (m : Levels) : Levels :=
  m.map fun l => (l.1, l.2.map fun o => if o.id = id then g o else o)

/-- `amendOrder`. -/
def amendOrder (S : StdSort) (id : UInt64) (newPx newQty : ℤ) (f : Flat) : Option (Bool × Flat) :=
  match f.locate id with
  | some (.resting b o) =>
    if o.status.open then
      let pxChg := 0 < newPx ∧ newPx ≠ o.price
      let qtyUp := 0 < newQty ∧ o.remainingQty < newQty
      let qtyDn := 0 < newQty ∧ newQty < o.remainingQty
      if qtyDn ∧ ¬ pxChg then
        some (true, f.setSide b (change id (fun o =>
          { o with remainingQty := newQty, visibleQty := min o.visibleQty newQty }) (f.side b)))
      else if pxChg ∨ qtyUp then
        (processActive S (amended o newPx newQty (f.tape.now + 1)) 0
          ((f.unlink b o).withTape f.tape.tick).clear).map (true, ·)
      else some (true, f)
    else some (false, f)
  | _ => some (false, f)

/-- `expireOne`. -/
def expireOne (o : Order) (f : Flat) : Flat :=
  let o := { o with status := .EXPIRED }
  f.withTape ((f.tape.event (.onOrderExpired o)).mark (.left o))

/-- The loop of `expireOrders` over the resting orders that expire. -/
def expireResting : List Order → Flat → Flat
  | [], f => f
  | o :: os, f => expireResting os (expireOne o (f.unlink o.side o))

/-- The loop of `expireOrders` over the stops. -/
def expireStops : List Order → Flat → Flat
  | [], f => f
  | o :: os, f => expireStops os (expireOne o f)

/-- `expireOrders`. -/
def expireOrders (t : ℕ) (f : Flat) : Option Flat :=
  let f := expireResting ((f.bids.orders ++ f.asks.orders).filter (shouldExpire t)) f
  (takeOut (shouldExpire t) (f.stops.length + 1) 0 f.stops []).map fun r =>
    expireStops r.1 { f with stops := r.2 }

/-- What a call does. -/
def run (S : StdSort) : Call → Flat → Option Flat
  | .submit i, f => (submitOrder S i f).map (·.2)
  | .cancel id, f => some (cancelOrder id f).2
  | .amend id newPx newQty, f => (amendOrder S id newPx newQty f).map (·.2)
  | .expire t, f => expireOrders t f
  | .setTime t, f => some (f.withTape { f.tape with now := t })
  | .assignId, f => some f

/-- The empty engine. -/
def init (pop : PostOnlyPolicy) (tickSz : ℤ) : Flat := { tape := { poPol := pop, tickSz := tickSz } }

end Flat

end MatchingEngine.Cpp
