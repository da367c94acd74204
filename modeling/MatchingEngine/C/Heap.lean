import Mathlib.Data.UInt
import Mathlib.Logic.Function.Basic

/-!
# The heap of the C engine

`struct Order`, `struct PriceLevel`, and `struct EngineDb` of `c/include/matching_engine_gen.h`,
field for field, without the chunk tables that only the teardown reads. The rows of the chunks that
the pools reserve are numbered in the order of reservation, and a pointer is an optional row number
with `none` for `NULL`. A pointer that the code has checked, or that a caller has checked, is a row
number, so the `NULL` guards of the data layer are discharged by its type.
-/

namespace MatchingEngine.C

/-- A non-`NULL` `struct Order *`. -/
abbrev OrderPtr := ℕ

/-- A non-`NULL` `struct PriceLevel *`. -/
abbrev LevelPtr := ℕ

/-- `struct Order`. The default row is what `calloc` returns. -/
structure Order where
  id : UInt64 := 0
  account_id : UInt64 := 0
  side : UInt64 := 0
  stp_mode : UInt64 := 0
  price : UInt64 := 0
  qty : UInt64 := 0
  remaining_qty : UInt64 := 0
  p_price_level : Option LevelPtr := none
  orders_next : Option OrderPtr := none
  orders_prev : Option OrderPtr := none
  orders_inlist : Bool := false
  ind_order_next : Option OrderPtr := none
  ind_order_inhash : Bool := false
  freenext : Option OrderPtr := none
  deriving DecidableEq

/-- `struct PriceLevel`. -/
structure PriceLevel where
  price : UInt64 := 0
  total_qty : UInt64 := 0
  orders_head : Option OrderPtr := none
  orders_tail : Option OrderPtr := none
  orders_n : UInt32 := 0
  tree_parent : Option LevelPtr := none
  tree_left : Option LevelPtr := none
  tree_right : Option LevelPtr := none
  tree_intree : Bool := false
  freenext : Option LevelPtr := none
  deriving DecidableEq

/-- `ORDER_HASH_BUCKETS`. -/
def orderHashBuckets : UInt64 := 8388608

/-- `ORDER_CHUNK_SIZE`. -/
def orderChunkSize : UInt64 := 5000000

/-- `LEVEL_CHUNK_SIZE`. -/
def levelChunkSize : UInt64 := 500000

/-- `struct EngineDb` with the rows that it points to. The default is the zeroed global. -/
structure EngineDb where
  orders : OrderPtr → Order := fun _ => {}
  levels : LevelPtr → PriceLevel := fun _ => {}
  ind_order_buckets : ℕ → Option OrderPtr := fun _ => none
  ind_order_n : UInt32 := 0
  bids_root : Option LevelPtr := none
  bids_n : UInt32 := 0
  asks_root : Option LevelPtr := none
  asks_n : UInt32 := 0
  order_pool_free : Option OrderPtr := none
  order_pool_n : UInt64 := 0
  order_pool_total_allocated : UInt64 := 0
  level_pool_free : Option LevelPtr := none
  level_pool_n : UInt64 := 0
  level_pool_total_allocated : UInt64 := 0

namespace EngineDb

/-- The row `p` rewritten by `f`. -/
def setOrder (db : EngineDb) (p : OrderPtr) (f : Order → Order) : EngineDb :=
  { db with orders := Function.update db.orders p (f (db.orders p)) }

/-- The level row `l` rewritten by `f`. -/
def setLevel (db : EngineDb) (l : LevelPtr) (f : PriceLevel → PriceLevel) : EngineDb :=
  { db with levels := Function.update db.levels l (f (db.levels l)) }

/-- A bound on the steps of a loop that walks order rows: a walk that takes more has come back to
a row, so in C it does not end. -/
def orderFuel (db : EngineDb) : ℕ := db.order_pool_total_allocated.toNat + 1

/-- A bound on the steps of a loop that walks level rows. -/
def levelFuel (db : EngineDb) : ℕ := db.level_pool_total_allocated.toNat + 1

section Update

variable (db : EngineDb) (p q : OrderPtr) (l m : LevelPtr) (f : Order → Order)
  (g : PriceLevel → PriceLevel)

/-- The orders after one of them is written. -/
theorem setOrder_orders : (db.setOrder p f).orders = Function.update db.orders p (f (db.orders p)) :=
  rfl

/-- The levels after one of them is written. -/
theorem setLevel_levels : (db.setLevel l g).levels = Function.update db.levels l (g (db.levels l)) :=
  rfl

/-- An order after one of them is written. -/
theorem setOrder_orders_apply :
    (db.setOrder p f).orders q = if q = p then f (db.orders p) else db.orders q := by
  rw [setOrder_orders, Function.update_apply]

/-- A level after one of them is written. -/
theorem setLevel_levels_apply :
    (db.setLevel l g).levels m = if m = l then g (db.levels l) else db.levels m := by
  rw [setLevel_levels, Function.update_apply]

/-- The order that was written. -/
@[simp] theorem setOrder_orders_self : (db.setOrder p f).orders p = f (db.orders p) := by
  rw [setOrder_orders_apply, if_pos rfl]

/-- The level that was written. -/
@[simp] theorem setLevel_levels_self : (db.setLevel l g).levels l = g (db.levels l) := by
  rw [setLevel_levels_apply, if_pos rfl]

/-- Two writes to one row. -/
theorem setOrder_setOrder (f' : Order → Order) :
    (db.setOrder p f).setOrder p f' = db.setOrder p fun o => f' (f o) := by
  unfold setOrder
  simp only [Function.update_self, Function.update_idem]

/-- A write to an order leaves the levels. -/
@[simp] theorem setOrder_levels : (db.setOrder p f).levels = db.levels := rfl

/-- A write to a level leaves the orders. -/
@[simp] theorem setLevel_orders : (db.setLevel l g).orders = db.orders := rfl

/-- A write to an order leaves the buckets. -/
@[simp] theorem setOrder_ind_order_buckets :
    (db.setOrder p f).ind_order_buckets = db.ind_order_buckets := rfl

/-- A write to a level leaves the buckets. -/
@[simp] theorem setLevel_ind_order_buckets :
    (db.setLevel l g).ind_order_buckets = db.ind_order_buckets := rfl

end Update

end EngineDb

end MatchingEngine.C
