import Mathlib.Data.Finset.Card
import Mathlib.Data.UInt
import Mathlib.Logic.Function.Basic

/-!
# The storage contract

The abstract store of `lean/Bridge/EngineDbApi.lean` and the operations of `c/gen/engine_db.h` on
it. A store is two families of rows with four indexes over them; a handle is a number, live while
its row is allocated, and allocation may hand a freed handle out again. Each operation has a
precondition, which its caller must meet, and a postcondition, which relates its result and the
stores before and after. The order of a tree's or of the hash's rows is not part of the contract, so
these are finite sets.
-/

namespace MatchingEngine.Contract

/-- An order handle. -/
abbrev OrderH := ℕ

/-- A level handle. -/
abbrev LevelH := ℕ

/-- The fields of an order that the client sees. -/
structure OrderRow where
  id : UInt64
  account : UInt64
  side : UInt64
  stp_mode : UInt64
  price : UInt64
  qty : UInt64
  remaining : UInt64
  deriving DecidableEq, Repr

/-- The field of a level that the client sees. -/
structure LevelRow where
  price : UInt64
  deriving DecidableEq, Repr

/-- The names of an order's fields, for the getters and setters `ME_order_get_*` and
`ME_order_set_*`. -/
inductive OrderField where
  | id | account | side | stp_mode | price | qty | remaining
  deriving DecidableEq, Repr

/-- The value of a field. -/
def OrderRow.get (r : OrderRow) : OrderField → UInt64
  | .id => r.id
  | .account => r.account
  | .side => r.side
  | .stp_mode => r.stp_mode
  | .price => r.price
  | .qty => r.qty
  | .remaining => r.remaining

/-- A field written. -/
def OrderRow.set (r : OrderRow) (v : UInt64) : OrderField → OrderRow
  | .id => { r with id := v }
  | .account => { r with account := v }
  | .side => { r with side := v }
  | .stp_mode => { r with stp_mode := v }
  | .price => { r with price := v }
  | .qty => { r with qty := v }
  | .remaining => { r with remaining := v }

/-- Which price tree. -/
inductive Tree where
  | bids
  | asks
  deriving DecidableEq, Repr

/-- The other tree. -/
def Tree.other : Tree → Tree
  | .bids => .asks
  | .asks => .bids

/-- A trade of the sink: the maker is the passive order and the taker the aggressor. -/
structure TradeRow where
  maker : UInt64
  taker : UInt64
  price : UInt64
  qty : UInt64
  deriving DecidableEq, Repr

/-- The abstract store. -/
@[ext] structure Db where
  orders : OrderH → Option OrderRow
  levels : LevelH → Option LevelRow
  queue : LevelH → List OrderH
  hash : Finset OrderH
  tree : Tree → Finset LevelH
  /-- The live order handles. -/
  oLive : Finset OrderH
  /-- The live level handles. -/
  lLive : Finset LevelH
  /-- The trades reported since the last reset. -/
  trades : List TradeRow

namespace Db

/-- The store with no rows. -/
def empty : Db :=
  { orders := fun _ => none, levels := fun _ => none, queue := fun _ => [], hash := ∅,
    tree := fun _ => ∅, oLive := ∅, lLive := ∅, trades := [] }

/-- The order `h` is linked into some level's queue. -/
def queued (db : Db) (h : OrderH) : Prop := ∃ l, h ∈ db.queue l

/-- The price of a level handle; only meant for live ones. -/
def levelPrice (db : Db) (l : LevelH) : UInt64 := ((db.levels l).map LevelRow.price).getD 0

/-- The id of an order handle; only meant for live ones. -/
def orderId (db : Db) (h : OrderH) : UInt64 := ((db.orders h).map OrderRow.id).getD 0

/-- The representation invariant of the abstract store. -/
structure WF (db : Db) : Prop where
  queue_live : ∀ l, ∀ h ∈ db.queue l, (db.orders h).isSome ∧ (db.levels l).isSome
  queue_nodup : ∀ l, (db.queue l).Nodup
  queue_unique : ∀ l₁ l₂ h, h ∈ db.queue l₁ → h ∈ db.queue l₂ → l₁ = l₂
  hash_live : ∀ h ∈ db.hash, (db.orders h).isSome
  hash_ids : ∀ h₁ ∈ db.hash, ∀ h₂ ∈ db.hash, db.orderId h₁ = db.orderId h₂ → h₁ = h₂
  tree_live : ∀ t, ∀ l ∈ db.tree t, (db.levels l).isSome
  tree_disjoint : Disjoint (db.tree .bids) (db.tree .asks)
  tree_prices : ∀ t, ∀ l₁ ∈ db.tree t, ∀ l₂ ∈ db.tree t,
    db.levelPrice l₁ = db.levelPrice l₂ → l₁ = l₂
  orders_live : ∀ h, (db.orders h).isSome ↔ h ∈ db.oLive
  levels_live : ∀ l, (db.levels l).isSome ↔ l ∈ db.lLive

/-- An empty store is well formed. -/
theorem wf_empty : WF empty where
  queue_live := by simp [empty]
  queue_nodup := by simp [empty]
  queue_unique := by simp [empty]
  hash_live := by simp [empty]
  hash_ids := by simp [empty]
  tree_live := by simp [empty]
  tree_disjoint := by simp [empty]
  tree_prices := by simp [empty]
  orders_live := by simp [empty]
  levels_live := by simp [empty]

end Db

/-- In the tree `t`, the price `p` has priority over `q` or equals it. -/
def better : Tree → UInt64 → UInt64 → Prop
  | .bids, p, q => q ≤ p
  | .asks, p, q => p ≤ q

instance (t : Tree) (p q : UInt64) : Decidable (better t p q) := by
  cases t <;> exact inferInstanceAs (Decidable (_ ≤ _))

/-- The element after `x` in a list. -/
def nextIn : List OrderH → OrderH → Option OrderH
  | [], _ => none
  | a :: rest, x => if a = x then rest.head? else nextIn rest x

/-- The operations of `engine_db.h`, each with the type of its result. -/
inductive Op : Type → Type where
  | capacity : Op UInt64
  | orderCount : Op UInt64
  | tradeReset : Op Unit
  | tradeEmit (maker taker price qty : UInt64) : Op Unit
  | orderAlloc : Op (Option OrderH)
  | orderFree (o : OrderH) : Op Unit
  | levelAlloc : Op (Option LevelH)
  | levelFree (l : LevelH) : Op Unit
  | orderGet (f : OrderField) (o : OrderH) : Op UInt64
  | orderSet (f : OrderField) (o : OrderH) (v : UInt64) : Op Unit
  | levelGetPrice (l : LevelH) : Op UInt64
  | levelGetCount (l : LevelH) : Op UInt64
  | levelSetPrice (l : LevelH) (v : UInt64) : Op Unit
  | hashFind (id : UInt64) : Op (Option OrderH)
  | hashInsert (o : OrderH) : Op Bool
  | hashRemove (o : OrderH) : Op Unit
  | queueInsertTail (l : LevelH) (o : OrderH) : Op Unit
  | queueRemove (l : LevelH) (o : OrderH) : Op Unit
  | queueFirst (l : LevelH) : Op (Option OrderH)
  | queueNext (o : OrderH) : Op (Option OrderH)
  | orderOwner (o : OrderH) : Op (Option LevelH)
  | treeFind (t : Tree) (price : UInt64) : Op (Option LevelH)
  | treeInsert (t : Tree) (l : LevelH) : Op Unit
  | treeRemove (t : Tree) (l : LevelH) : Op Unit
  | treeBest (t : Tree) : Op (Option LevelH)

/-- How many order rows and level rows a store holds. The trade sink holds one trade more than
orders. -/
structure Caps where
  orders : ℕ
  levels : ℕ

/-- One capacity for both kinds of rows. -/
def Caps.uniform (cap : ℕ) : Caps := ⟨cap, cap⟩

/-- The precondition of an operation on a store with the capacities `caps`. -/
def Op.pre (caps : Caps) (db : Db) : {α : Type} → Op α → Prop
  | _, .tradeEmit .. => db.trades.length ≤ caps.orders
  | _, .orderFree o => (db.orders o).isSome ∧ ¬ db.queued o ∧ o ∉ db.hash
  | _, .levelFree l => (db.levels l).isSome ∧ (∀ t, l ∉ db.tree t) ∧ db.queue l = []
  | _, .orderGet _ o => (db.orders o).isSome
  | _, .orderSet f o _ => (db.orders o).isSome ∧ (f = .id → o ∉ db.hash)
  | _, .levelGetPrice l => (db.levels l).isSome
  | _, .levelGetCount l => (db.levels l).isSome
  | _, .levelSetPrice l _ => (db.levels l).isSome ∧ ∀ t, l ∉ db.tree t
  | _, .hashInsert o => (db.orders o).isSome ∧ o ∉ db.hash
  | _, .hashRemove o => o ∈ db.hash
  | _, .queueInsertTail l o => (db.levels l).isSome ∧ (db.orders o).isSome ∧ ¬ db.queued o
  | _, .queueRemove l o => o ∈ db.queue l
  | _, .queueFirst l => (db.levels l).isSome
  | _, .queueNext o => db.queued o
  | _, .orderOwner o => (db.orders o).isSome
  | _, .treeInsert t l => (db.levels l).isSome ∧ (∀ t, l ∉ db.tree t) ∧
      ∀ l' ∈ db.tree t, db.levelPrice l' ≠ db.levelPrice l
  | _, .treeRemove t l => l ∈ db.tree t
  | _, _ => True

/-- The postcondition of an operation on a store with the capacities `caps`: its result `r` and the
store `db'` after it. -/
def Op.post (caps : Caps) (db : Db) : {α : Type} → Op α → α → Db → Prop
  | _, .capacity, r, db' => r.toNat = caps.orders ∧ db' = db
  | _, .orderCount, r, db' => r.toNat = db.oLive.card ∧ db' = db
  | _, .tradeReset, _, db' => db' = { db with trades := [] }
  | _, .tradeEmit m t p q, _, db' => db' = { db with trades := db.trades ++ [⟨m, t, p, q⟩] }
  | _, .orderAlloc, r, db' => (r = none ↔ caps.orders ≤ db.oLive.card) ∧
      match r with
      | none => db' = db
      | some o => db.orders o = none ∧ ∃ row, db' = { db with
          orders := Function.update db.orders o (some row), oLive := insert o db.oLive }
  | _, .orderFree o, _, db' => db' = { db with
      orders := Function.update db.orders o none, oLive := db.oLive.erase o }
  | _, .levelAlloc, r, db' => (r = none ↔ caps.levels ≤ db.lLive.card) ∧
      match r with
      | none => db' = db
      | some l => db.levels l = none ∧ ∃ row, db' = { db with
          levels := Function.update db.levels l (some row), lLive := insert l db.lLive }
  | _, .levelFree l, _, db' => db' = { db with
      levels := Function.update db.levels l none, lLive := db.lLive.erase l }
  | _, .orderGet f o, r, db' => db' = db ∧ ∃ row, db.orders o = some row ∧ r = row.get f
  | _, .orderSet f o v, _, db' => ∃ row, db.orders o = some row ∧
      db' = { db with orders := Function.update db.orders o (some (row.set v f)) }
  | _, .levelGetPrice l, r, db' => db' = db ∧ db.levels l = some ⟨r⟩
  | _, .levelGetCount l, r, db' => db' = db ∧ r.toNat = (db.queue l).length
  | _, .levelSetPrice l v, _, db' => db' = { db with
      levels := Function.update db.levels l (some ⟨v⟩) }
  | _, .hashFind id, r, db' => db' = db ∧
      match r with
      | none => ∀ o ∈ db.hash, db.orderId o ≠ id
      | some o => o ∈ db.hash ∧ db.orderId o = id
  | _, .hashInsert o, r, db' =>
      if ∃ o' ∈ db.hash, db.orderId o' = db.orderId o then r = false ∧ db' = db
      else r = true ∧ db' = { db with hash := insert o db.hash }
  | _, .hashRemove o, _, db' => db' = { db with hash := db.hash.erase o }
  | _, .queueInsertTail l o, _, db' => db' = { db with
      queue := Function.update db.queue l (db.queue l ++ [o]) }
  | _, .queueRemove l o, _, db' => db' = { db with
      queue := Function.update db.queue l ((db.queue l).erase o) }
  | _, .queueFirst l, r, db' => db' = db ∧ r = (db.queue l).head?
  | _, .queueNext o, r, db' => db' = db ∧ ∃ l, o ∈ db.queue l ∧ r = nextIn (db.queue l) o
  | _, .orderOwner o, r, db' => db' = db ∧
      match r with
      | none => ¬ db.queued o
      | some l => o ∈ db.queue l
  | _, .treeFind t p, r, db' => db' = db ∧
      match r with
      | none => ∀ l ∈ db.tree t, db.levelPrice l ≠ p
      | some l => l ∈ db.tree t ∧ db.levelPrice l = p
  | _, .treeInsert t l, _, db' => db' = { db with
      tree := Function.update db.tree t (insert l (db.tree t)) }
  | _, .treeRemove t l, _, db' => db' = { db with
      tree := Function.update db.tree t ((db.tree t).erase l) }
  | _, .treeBest t, r, db' => db' = db ∧
      match r with
      | none => db.tree t = ∅
      | some l => l ∈ db.tree t ∧ ∀ l' ∈ db.tree t, better t (db.levelPrice l) (db.levelPrice l')

/-- By how much an operation with result `r` moves the number of live order rows. -/
def Op.orderDelta : {α : Type} → Op α → α → ℤ
  | _, .orderAlloc, r => if r.isSome then 1 else 0
  | _, .orderFree _, _ => -1
  | _, _, _ => 0

/-- By how much an operation with result `r` moves the number of live level rows. -/
def Op.levelDelta : {α : Type} → Op α → α → ℤ
  | _, .levelAlloc, r => if r.isSome then 1 else 0
  | _, .levelFree _, _ => -1
  | _, _, _ => 0

/-- On a well-formed store, an operation moves the number of live order rows by its delta. -/
theorem Op.post_orders_card {caps : Caps} {db db' : Db} (hwf : db.WF) {α : Type} (op : Op α) {r : α}
    (hpre : op.pre caps db) (hpost : op.post caps db r db') :
    (db'.oLive.card : ℤ) = db.oLive.card + op.orderDelta r := by
  cases op with
  | orderAlloc =>
    cases r with
    | none => rw [hpost.2]; simp [orderDelta]
    | some o =>
      obtain ⟨-, hnew, row, rfl⟩ := hpost
      -- The row was dead, so it is counted anew.
      have ho : o ∉ db.oLive := fun hm => by
        rw [← hwf.orders_live, hnew] at hm; cases hm
      simp only [Finset.card_insert_of_notMem ho, orderDelta]
      simp
  | orderFree o =>
    subst hpost
    have ho := (hwf.orders_live o).mp hpre.1
    -- The row was live, so the count is positive.
    have hpos := Finset.card_pos.mpr ⟨o, ho⟩
    simp only [Finset.card_erase_of_mem ho, orderDelta]
    omega
  | levelAlloc =>
    cases r with
    | none => rw [hpost.2]; simp [orderDelta]
    | some l => obtain ⟨-, -, row, rfl⟩ := hpost; simp [orderDelta]
  | orderSet f o v => obtain ⟨row, -, rfl⟩ := hpost; simp [orderDelta]
  | hashInsert o =>
    simp only [post] at hpost
    split at hpost <;> (rw [hpost.2]; simp [orderDelta])
  | capacity | orderCount => rw [hpost.2]; simp [orderDelta]
  | tradeReset | tradeEmit | levelFree | levelSetPrice | hashRemove | queueInsertTail | queueRemove
  | treeInsert | treeRemove => subst hpost; simp [orderDelta]
  | orderGet | levelGetPrice | levelGetCount | hashFind | queueFirst | queueNext | orderOwner
  | treeFind | treeBest => rw [hpost.1]; simp [orderDelta]

/-- On a well-formed store, an operation moves the number of live level rows by its delta. -/
theorem Op.post_levels_card {caps : Caps} {db db' : Db} (hwf : db.WF) {α : Type} (op : Op α) {r : α}
    (hpre : op.pre caps db) (hpost : op.post caps db r db') :
    (db'.lLive.card : ℤ) = db.lLive.card + op.levelDelta r := by
  cases op with
  | levelAlloc =>
    cases r with
    | none => rw [hpost.2]; simp [levelDelta]
    | some l =>
      obtain ⟨-, hnew, row, rfl⟩ := hpost
      -- The row was dead, so it is counted anew.
      have hl : l ∉ db.lLive := fun hm => by
        rw [← hwf.levels_live, hnew] at hm; cases hm
      simp only [Finset.card_insert_of_notMem hl, levelDelta]
      simp
  | levelFree l =>
    subst hpost
    have hl := (hwf.levels_live l).mp hpre.1
    -- The row was live, so the count is positive.
    have hpos := Finset.card_pos.mpr ⟨l, hl⟩
    simp only [Finset.card_erase_of_mem hl, levelDelta]
    omega
  | orderAlloc =>
    cases r with
    | none => rw [hpost.2]; simp [levelDelta]
    | some o => obtain ⟨-, -, row, rfl⟩ := hpost; simp [levelDelta]
  | orderSet f o v => obtain ⟨row, -, rfl⟩ := hpost; simp [levelDelta]
  | hashInsert o =>
    simp only [post] at hpost
    split at hpost <;> (rw [hpost.2]; simp [levelDelta])
  | capacity | orderCount => rw [hpost.2]; simp [levelDelta]
  | tradeReset | tradeEmit | orderFree | levelSetPrice | hashRemove | queueInsertTail | queueRemove
  | treeInsert | treeRemove => subst hpost; simp [levelDelta]
  | orderGet | levelGetPrice | levelGetCount | hashFind | queueFirst | queueNext | orderOwner
  | treeFind | treeBest => rw [hpost.1]; simp [levelDelta]

/-- A storage layer that satisfies the contract: its operations on states of type `S`, the abstract
store that a state stands for, and the law. An operation may fail to return (`none`) outside its
precondition. -/
structure Store (caps : Caps) (S : Type) where
  /-- The operations. -/
  exec : {α : Type} → Op α → S → Option (α × S)
  /-- The initial state. -/
  init : S
  /-- The abstract store of a state. -/
  view : S → Db
  /-- The states that the layer keeps itself in. -/
  valid : S → Prop
  valid_init : valid init
  view_init : view init = Db.empty
  wf : ∀ s, valid s → (view s).WF
  /-- Within its precondition an operation returns, stays valid, and meets its postcondition. -/
  law : ∀ {α : Type} (s : S) (op : Op α), valid s → op.pre caps (view s) →
    ∃ r s', exec op s = some (r, s') ∧ valid s' ∧ op.post caps (view s) r (view s')

end MatchingEngine.Contract
