import MatchingEngine.Cpp.OrderIndex
import MatchingEngine.Lib.Chain
import MatchingEngine.Lib.Total

/-!
# The state of the C++ engine

The members of `class Engine` of `cpp_reference/src/engine.h` and the heap that they point to, with
the statements that the member functions are made of. An address is a number, and `new` gives the
next one. A statement that reads or writes through a null or freed pointer does not return, nor does
a failed `assert`. A `std::map` is the list of its entries in the order of its comparison, and an
iterator is a position in that list.

`now_` and `tid_` are counters that the source keeps in a `uint64_t`. They are natural numbers here,
which is the same while they are below `2^64`: for so many ticks of the clock, counted from the last
`setTime`, and for so many trades.

Three fields are there for the statements of the theorems alone. `log` is the history of the run,
`lastDepth` is the cascade depth at which `lastPx_` was last written, and the entry of the history
for a trade holds the contra side of the book when the trade is made.
-/

namespace MatchingEngine.Cpp

open Lib

/-- `class Engine`, with the heap and the history. -/
structure Engine where
  orders : ℕ → Option Cell := fun _ => none
  levels : ℕ → Option PriceLevel := fun _ => none
  bids_ : List (ℤ × ℕ) := []
  asks_ : List (ℤ × ℕ) := []
  idx_ : OrderIndex := {}
  stops_ : List ℕ := []
  trades_ : List Trade := []
  now_ : ℕ := 0
  tid_ : ℕ := 1
  lastPx_ : ℤ := 0
  poPol_ : PostOnlyPolicy := .REJECT
  tick_ : ℤ := 1
  oA_ : ℕ := 0
  oF_ : ℕ := 0
  oP_ : ℕ := 0
  lA_ : ℕ := 0
  lF_ : ℕ := 0
  lP_ : ℕ := 0
  lastDepth : ℕ := 0
  log : List Mark := []

/-- `MAX_CASCADE`. -/
def maxCascade : ℕ := 10

/-! ## Maps -/

/-- The comparison of a side's map: `std::greater` for the bids and `std::less` for the asks. -/
def better : Side → ℤ → ℤ → Bool
  | .BUY, p, q => q < p
  | .SELL, p, q => p < q

/-- `m[p] = lv`. -/
def put {α : Type} (b : Side) (p : ℤ) (lv : α) : List (ℤ × α) → List (ℤ × α)
  | [] => [(p, lv)]
  | e :: m =>
    if better b p e.1 then (p, lv) :: e :: m
    else if p = e.1 then (p, lv) :: m
    else e :: put b p lv m

/-- `m.erase(p)`. -/
def erasePrice {α : Type} (p : ℤ) (m : List (ℤ × α)) : List (ℤ × α) := m.eraseP fun e => e.1 = p

/-- `v[i] = v.back(); v.pop_back()`. -/
def swapRemove {α : Type} (v : List α) (i : ℕ) : List α :=
  match v.getLast? with
  | none => v
  | some x => (v.set i x).dropLast

namespace Engine

/-- The map of a side. -/
def book (s : Engine) : Side → List (ℤ × ℕ)
  | .BUY => s.bids_
  | .SELL => s.asks_

/-- The map of a side, written. -/
def setBook (s : Engine) : Side → List (ℤ × ℕ) → Engine
  | .BUY, m => { s with bids_ := m }
  | .SELL, m => { s with asks_ := m }

/-- The addresses of the queue of a level, from its head on. -/
def queue (s : Engine) (lv : ℕ) : List ℕ :=
  match s.levels lv with
  | none => []
  | some l => walk (fun p => (s.orders p).bind (·.next)) s.oA_ l.head

/-- The values of the orders at some addresses. -/
def values (s : Engine) (ps : List ℕ) : List Order :=
  ps.filterMap fun p => (s.orders p).map (·.order)

/-- The levels of a side with the orders of their queues. -/
def view (s : Engine) (b : Side) : Levels := (s.book b).map fun e => (e.1, s.values (s.queue e.2))

/-- `time`. -/
def time (s : Engine) : ℕ := s.now_

/-- `bestBid`. -/
def bestBid (s : Engine) : ℤ := (s.bids_.head?.map (·.1)).getD 0

/-- `bestAsk`. -/
def bestAsk (s : Engine) : ℤ := (s.asks_.head?.map (·.1)).getD 0

/-- `orderCount`. -/
def orderCount (s : Engine) : ℕ := s.idx_.count_

/-- `stopCount`. -/
def stopCount (s : Engine) : ℕ := s.stops_.length

/-- `hasOrder`. -/
def hasOrder (s : Engine) (id : UInt64) : Bool := s.idx_.has id

/-- `lastTradePrice`. -/
def lastTradePrice (s : Engine) : ℤ := s.lastPx_

/-- `tradeCount`. -/
def tradeCount (s : Engine) : ℕ := s.tid_ - 1

/-- `activeOrders`. -/
def activeOrders (s : Engine) : ℕ := s.oA_ - s.oF_

/-- `activeLevels`. -/
def activeLevels (s : Engine) : ℕ := s.lA_ - s.lF_

/-- `bidLevelCount`. -/
def bidLevelCount (s : Engine) : ℕ := s.bids_.length

/-- `askLevelCount`. -/
def askLevelCount (s : Engine) : ℕ := s.asks_.length

end Engine

/-! ## Statements -/

/-- A program that does not return. -/
def trap {α : Type} : Prog Engine α := fun _ => none

/-- A member read. -/
def read {α : Type} (f : Engine → α) : Prog Engine α := fun s => some (f s, s)

/-- A member written. -/
def write (f : Engine → Engine) : Prog Engine Unit := fun s => some ((), f s)

/-- An operation of the index that changes it. -/
def onIndex (f : OrderIndex → Option OrderIndex) : Prog Engine Unit := fun s =>
  (f s.idx_).map fun i => ((), { s with idx_ := i })

/-- `*o`, with its links. -/
def cell (o : ℕ) : Prog Engine Cell := fun s => (s.orders o).map (·, s)

/-- `*o`. -/
def order (o : ℕ) : Prog Engine Order := fun s => (s.orders o).map fun c => (c.order, s)

/-- A write to `*o`. -/
def setCell (o : ℕ) (f : Cell → Cell) : Prog Engine Unit := fun s =>
  (s.orders o).map fun c => ((), { s with orders := Function.update s.orders o (some (f c)) })

/-- A write to the values of `*o`. -/
def set (o : ℕ) (f : Order → Order) : Prog Engine Unit :=
  setCell o fun c => { c with order := f c.order }

/-- `*lv`. -/
def level (lv : ℕ) : Prog Engine PriceLevel := fun s => (s.levels lv).map (·, s)

/-- A write to `*lv`. -/
def setLevel (lv : ℕ) (f : PriceLevel → PriceLevel) : Prog Engine Unit := fun s =>
  (s.levels lv).map fun l => ((), { s with levels := Function.update s.levels lv (some (f l)) })

/-- An entry of the history. -/
def mark (m : Mark) : Prog Engine Unit := write fun s => { s with log := s.log ++ [m] }

/-- A call of the listener with `*o`. -/
def notify (o : ℕ) (e : Order → Event) : Prog Engine Unit := do
  let c ← order o
  mark (.event (e c))

/-! ## Queues -/

/-- `if (p) p->next = n; else head = n;` in the queue of `lv`. -/
def linkNext (lv : ℕ) (p n : Option ℕ) : Prog Engine Unit :=
  match p with
  | some p => setCell p fun c => { c with next := n }
  | none => setLevel lv fun l => { l with head := n }

/-- `if (n) n->prev = p; else tail = p;` in the queue of `lv`. -/
def linkPrev (lv : ℕ) (n p : Option ℕ) : Prog Engine Unit :=
  match n with
  | some n => setCell n fun c => { c with prev := p }
  | none => setLevel lv fun l => { l with tail := p }

/-- `PriceLevel::pushBack`. -/
def pushBack (lv o : ℕ) : Prog Engine Unit := do
  let l ← level lv
  setCell o fun c => { c with prev := l.tail, next := none, level := some lv }
  linkNext lv l.tail (some o)
  setLevel lv fun l => { l with tail := some o }

/-- `PriceLevel::remove`. -/
def remove (lv o : ℕ) : Prog Engine Unit := do
  let c ← cell o
  linkNext lv c.prev c.next
  let c ← cell o
  linkPrev lv c.next c.prev
  setCell o fun c => { c with prev := none, next := none, level := none }

/-- `o->level->remove(o)`. -/
def unlink (o : ℕ) : Prog Engine Unit := do
  let c ← cell o
  match c.level with
  | none => trap
  | some lv => remove lv o

/-! ## Allocation and levels -/

/-- `allocOrd`. -/
def allocOrd : Prog Engine ℕ := fun s =>
  some (s.oA_, { s with
    orders := Function.update s.orders s.oA_ (some {})
    oA_ := s.oA_ + 1
    oP_ := max s.oP_ (s.oA_ + 1 - s.oF_) })

/-- `freeOrd`. -/
def freeOrd (o : ℕ) : Prog Engine Unit := fun s =>
  (s.orders o).map fun _ =>
    ((), { s with orders := Function.update s.orders o none, oF_ := s.oF_ + 1 })

/-- `allocLvl`. -/
def allocLvl (p : ℤ) : Prog Engine ℕ := fun s =>
  some (s.lA_, { s with
    levels := Function.update s.levels s.lA_ (some { price := p })
    lA_ := s.lA_ + 1
    lP_ := max s.lP_ (s.lA_ + 1 - s.lF_) })

/-- `freeLvl`. -/
def freeLvl (lv : ℕ) : Prog Engine Unit := fun s =>
  (s.levels lv).map fun _ =>
    ((), { s with levels := Function.update s.levels lv none, lF_ := s.lF_ + 1 })

/-- `tick`. `++now_` wraps in the source, and here it does not: the two agree while the clock is
below `2^64 - 1`. -/
def tick : Prog Engine ℕ := fun s => some (s.now_ + 1, { s with now_ := s.now_ + 1 })

/-- `rmLevel`. -/
def rmLevel (lv : ℕ) (b : Side) : Prog Engine Unit := do
  let l ← level lv
  write fun s => s.setBook b (erasePrice l.price (s.book b))
  freeLvl lv

/-- `lv->remove(o); if (lv->empty()) rmLevel(lv, b);`. -/
def removeFrom (lv o : ℕ) (b : Side) : Prog Engine Unit := do
  remove lv o
  let l ← level lv
  match l.head with
  | none => rmLevel lv b
  | some _ => pure ()

/-- The level of `insertSide`: the one of the price, or a new one. -/
def levelFor (p : ℤ) (b : Side) : Prog Engine ℕ := do
  let m ← read (·.book b)
  match m.lookup p with
  | some lv => pure lv
  | none => do
    let lv ← allocLvl p
    write fun s => s.setBook b (put b p lv (s.book b))
    pure lv

/-- `insertSide`. -/
def insertSide (o : ℕ) (b : Side) : Prog Engine Unit := do
  let c ← order o
  let lv ← levelFor c.price b
  pushBack lv o

/-- What an order shows of itself when it has `remaining` left: `min(displayQty, remaining)` for an
iceberg, else everything. -/
def Order.shown (o : Order) (remaining : ℤ) : ℤ :=
  if 0 < o.displayQty then min o.displayQty remaining else remaining

/-- `insertOrder`. -/
def insertOrder (o : ℕ) : Prog Engine Unit := do
  set o fun c => { c with visibleQty := c.shown c.remainingQty }
  let c ← order o
  write fun s => { s with log := s.log ++ [.rested c (((s.view c.side).lookup c.price).getD [])] }
  insertSide o c.side

/-- `idx_.erase(o->id); freeOrd(o);`. -/
def discard (o : ℕ) : Prog Engine Unit := do
  let c ← order o
  mark (.left c)
  onIndex (·.erase c.id)
  freeOrd o

end MatchingEngine.Cpp
