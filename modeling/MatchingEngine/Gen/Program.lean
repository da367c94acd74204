import MatchingEngine.Contract
import MatchingEngine.Lib.Total

/-!
# The generated matcher

`c/gen/matcher.c`, over any implementation `exec` of the operations of `engine_db.h`. A trap aborts,
so it does not return. The two loops count their turns against the capacity and trap past it. A
result is one of the codes 0 (accepted), 1 (cancelled), 2 (unsupported), 3 (invalid), 4 (duplicate),
5 (capacity), 6 (post-only), and 7 (unknown id).

The operations are a parameter, so the same programs are run over the adapter, over a store of which
only the contract is known, and over one that traps on misuse. Arithmetic is checked as in the code:
`meAdd`, `meSub`, and `meDiv` trap instead of wrapping. `boundedLoop` is the loop with its counter.
-/

namespace MatchingEngine.Gen

open Contract Lib

/-- The state of the store, with the matcher's static counter. -/
structure State (S : Type) where
  store : S
  me_ntrades : UInt64

section Program

variable {S α β : Type} (exec : {α : Type} → Op α → S → Option (α × S))

/-- A call of an operation of the store. -/
def call (op : Op α) : Prog (State S) α := fun s =>
  (exec op s.store).map fun r => (r.1, { s with store := r.2 })

/-- `me_trap`. -/
def meTrap : Prog (State S) α := fun _ => none

/-- `me_add`. -/
def meAdd (a b : UInt64) : Prog (State S) UInt64 :=
  -- The checked sum: a carry traps.
  if a.toNat + b.toNat < 2^64 then pure (a + b) else meTrap

/-- `me_sub`. -/
def meSub (a b : UInt64) : Prog (State S) UInt64 :=
  if b ≤ a then pure (a - b) else meTrap

/-- `me_div`. -/
def meDiv (a b : UInt64) : Prog (State S) UInt64 :=
  if b = 0 then meTrap else pure (a / b)

/-- `me_emit`. -/
def meEmit (m t p q : UInt64) : Prog (State S) Unit := do
  let bound ← meAdd (← call exec .capacity) 1
  -- A request that makes more trades than the capacity plus one is stopped.
  if (← get).me_ntrades ≥ bound then meTrap
  else
    call exec (.tradeEmit m t p q)
    modify fun s => { s with me_ntrades := s.me_ntrades + 1 }

/-- `gen_min_u64`. -/
def genMinU64 (a b : UInt64) : UInt64 := if a < b then a else b

/-- A loop of the matcher: it traps when it starts a turn beyond the capacity plus one. -/
def boundedLoop (guard : β → Bool) (body : β → Prog (State S) β) (b : β) : Prog (State S) β := do
  let n ← meAdd (← call exec .capacity) 1
  -- The bound counts turns, whatever they do.
  loop guard (fun b => do return .yield (← body b)) n.toNat b

/-- `ME_queue_remove(best, passive); ME_hash_remove(passive); ME_order_free(passive)`. -/
def genDrop (best : LevelH) (passive : OrderH) : Prog (State S) Unit := do
  call exec (.queueRemove best passive)
  call exec (.hashRemove passive)
  call exec (.orderFree passive)

/-- `ME_*_remove(best); ME_level_free(best)`. -/
def genDropLevel (tree : Tree) (best : LevelH) : Prog (State S) Unit := do
  call exec (.treeRemove tree best)
  call exec (.levelFree best)

/-- The two branches of the inner loop that reduce both orders, which differ in what they report:
the new `rem` and `passive`. -/
def genReduce (best : LevelH) (rem : UInt64) (passive : OrderH)
    (report : UInt64 → Prog (State S) Unit) : Prog (State S) (UInt64 × Option OrderH) := do
  let fill := genMinU64 rem (← call exec (.orderGet .remaining passive))
  -- The remainders are written before the trade is emitted.
  let rem ← meSub rem fill
  let prem ← meSub (← call exec (.orderGet .remaining passive)) fill
  call exec (.orderSet .remaining passive prem)
  report fill
  let nextp ← call exec (.queueNext passive)
  -- The row is freed last, after the successor has been read.
  if prem = 0 then genDrop exec best passive
  return (rem, nextp)

/-- `account != 0 && account == ME_order_get_account(passive)`. -/
def genSameAccount (account : UInt64) (passive : OrderH) : Prog (State S) Bool := do
  if account ≠ 0 then return account = (← call exec (.orderGet .account passive))
  else return false

/-- The body of the inner loop, on the variables `rem` and `passive`. -/
def genMeet (best : LevelH) (id account stp : UInt64) :
    UInt64 × Option OrderH → Prog (State S) (UInt64 × Option OrderH)
  -- Not reached: the guard of the loop is `passive != NULL`.
  | (_, none) => meTrap
  | (rem, some passive) => do
    if (← genSameAccount exec account passive) ∧ stp ≠ 0 then
      -- The mode 1 leaves the order in place and drops the remainder.
      if stp = 1 then return (0, some passive)
      else if stp = 2 ∨ stp = 3 then
        let next ← call exec (.queueNext passive)
        genDrop exec best passive
        return (if stp = 3 then 0 else rem, next)
      else genReduce exec best rem passive fun _ => pure ()
    else
      genReduce exec best rem passive fun fill => do
        let pid ← call exec (.orderGet .id passive)
        -- The price of the level, not the one the order carries.
        let bprice ← call exec (.levelGetPrice best)
        meEmit exec pid id bprice fill

/-- The inner loop. -/
def genMeetAll (best : LevelH) (id account stp rem : UInt64) (passive : Option OrderH) :
    Prog (State S) (UInt64 × Option OrderH) :=
  boundedLoop exec (fun x => x.2.isSome && 0 < x.1) (genMeet exec best id account stp) (rem, passive)

/-- `otype != 1 && !crosses(ME_level_get_price(best), price)`. -/
def genAway (crosses : UInt64 → UInt64 → Bool) (otype price : UInt64) (best : LevelH) :
    Prog (State S) Bool := do
  if otype ≠ 1 then return !crosses (← call exec (.levelGetPrice best)) price
  else return false

/-- The body of the outer loop, on the variables `rem` and `stop`, with `contra` the tree that the
order meets and `crosses` the comparison of a price of it with the order's. -/
def genLevel (contra : Tree) (crosses : UInt64 → UInt64 → Bool)
    (id account otype stp price : UInt64) : UInt64 × Bool → Prog (State S) (UInt64 × Bool)
  | (rem, stop) => do
    match ← call exec (.treeBest contra) with
    -- No level is left: the loop ends by its flag.
    | none => return (rem, true)
    | some best =>
      if ← genAway exec crosses otype price best then return (rem, true)
      else
        let passive ← call exec (.queueFirst best)
        let (rem, _) ← genMeetAll exec best id account stp rem passive
        -- The count is read off the level, which the turn may have emptied.
        if (← call exec (.levelGetCount best)) = 0 then genDropLevel exec contra best
        return (rem, stop)

/-- `isnew && ME_level_get_count(lvl) == 0`. -/
def genEmptied (lvl : LevelH) (isnew : Bool) : Prog (State S) Bool := do
  if isnew then return (← call exec (.levelGetCount lvl)) = 0
  else return false

/-- The end of `gen_process_buy` and `gen_process_sell`: `ord` linked into `lvl`, and unlinked again
if the index already has its id. -/
def genLink (own : Tree) (lvl : LevelH) (ord : OrderH) (isnew : Bool) : Prog (State S) UInt64 := do
  call exec (.queueInsertTail lvl ord)
  if ← call exec (.hashInsert ord) then return 0
  else
    call exec (.queueRemove lvl ord)
    if ← genEmptied exec lvl isnew then genDropLevel exec own lvl
    call exec (.orderFree ord)
    -- The code of a duplicate id.
    return 4

/-- The remainder `rem` rested in the tree `own`. -/
def genRest (own : Tree) (id account side stp price qty rem : UInt64) : Prog (State S) UInt64 := do
  match ← call exec .orderAlloc with
  -- The pool has no row: the code of a full book, after the trades have been made.
  | none => return 5
  | some ord =>
    call exec (.orderSet .id ord id)
    call exec (.orderSet .account ord account)
    call exec (.orderSet .side ord side)
    call exec (.orderSet .stp_mode ord stp)
    call exec (.orderSet .price ord price)
    call exec (.orderSet .qty ord qty)
    call exec (.orderSet .remaining ord rem)
    match ← call exec (.treeFind own price) with
    | some lvl => genLink exec own lvl ord false
    | none =>
      match ← call exec .levelAlloc with
      | none =>
        call exec (.orderFree ord)
        return 5
      | some lvl =>
        call exec (.levelSetPrice lvl price)
        call exec (.treeInsert own lvl)
        genLink exec own lvl ord true

/-- The post-only test. -/
def genCrossed (contra : Tree) (crosses : UInt64 → UInt64 → Bool) (otype price : UInt64) :
    Prog (State S) Bool := do
  if otype = 3 then
    match ← call exec (.treeBest contra) with
    | none => return false
    | some best => return crosses (← call exec (.levelGetPrice best)) price
  else return false

/-- `gen_process_buy` and `gen_process_sell`, which differ in the trees and in the comparison. -/
def genProcess (own contra : Tree) (crosses : UInt64 → UInt64 → Bool)
    (id account side otype stp price qty : UInt64) : Prog (State S) UInt64 := do
  -- The code of a refused post-only order.
  if ← genCrossed exec contra crosses otype price then return 6
  else
    let (rem, _) ← boundedLoop exec (fun x => 0 < x.1 && !x.2)
      (genLevel exec contra crosses id account otype stp price) (qty, false)
    if 0 < rem ∧ otype ≠ 2 ∧ otype ≠ 1 then genRest exec own id account side stp price qty rem
    else return 0

/-- `gen_process_buy`. -/
def genProcessBuy (id account side otype stp price qty : UInt64) : Prog (State S) UInt64 :=
  genProcess exec .bids .asks (fun best price => best ≤ price) id account side otype stp price qty

/-- `gen_process_sell`. -/
def genProcessSell (id account side otype stp price qty : UInt64) : Prog (State S) UInt64 :=
  genProcess exec .asks .bids (fun best price => price ≤ best) id account side otype stp price qty

/-- `(otype == 0 || otype == 3) && ME_capacity() <= ME_order_count()`. -/
def genFull (otype : UInt64) : Prog (State S) Bool := do
  if otype = 0 ∨ otype = 3 then
    let cap ← call exec .capacity
    let count ← call exec .orderCount
    return cap ≤ count
  else return false

/-- `gen_process_order`. -/
def genProcessOrder (id account side otype stp price qty : UInt64) : Prog (State S) UInt64 := do
  -- Each request starts a new report.
  modify fun s => { s with me_ntrades := 0 }
  call exec .tradeReset
  -- The code 2 is for the type alone, and 3 for every other field.
  if ¬ ((otype = 0 ∨ otype = 1) ∨ (otype = 2 ∨ otype = 3)) then return 2
  else if ¬ (side = 0 ∨ side = 1) then return 3
  else if ¬ ((stp = 0 ∨ stp = 1) ∨ ((stp = 2 ∨ stp = 3) ∨ stp = 4)) then return 3
  else if qty = 0 then return 3
  else if otype ≠ 1 ∧ price = 0 then return 3
  else
    let bound ← meAdd (← call exec .capacity) 1
    -- The largest quantity, such that a sum over a full book does not wrap.
    let qmax ← meDiv 18446744073709551615 bound
    if qmax < qty then return 3
    else if (← call exec (.hashFind id)).isSome then return 4
    -- Only a request that may rest is refused for lack of room.
    else if ← genFull exec otype then return 5
    else if side = 0 then genProcessBuy exec id account side otype stp price qty
    else genProcessSell exec id account side otype stp price qty

/-- `gen_cancel_order`. -/
def genCancelOrder (id : UInt64) : Prog (State S) UInt64 := do
  modify fun s => { s with me_ntrades := 0 }
  call exec .tradeReset
  match ← call exec (.hashFind id) with
  | none => return 7
  | some ord =>
    match ← call exec (.orderOwner ord) with
    | none => return 7
    | some lvl =>
      -- The side is read before the row is freed.
      let side ← call exec (.orderGet .side ord)
      genDrop exec lvl ord
      if (← call exec (.levelGetCount lvl)) = 0 then
        if side = 0 then call exec (.treeRemove .bids lvl)
        else call exec (.treeRemove .asks lvl)
        call exec (.levelFree lvl)
      return 1

end Program

end MatchingEngine.Gen
