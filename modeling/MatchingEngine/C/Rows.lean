import MatchingEngine.C.HashOps
import MatchingEngine.C.TreeOps

/-!
# Rows reserved

Only the reservations change how many order rows there are: every other function of the data layer
leaves the number as it is, whatever heap it is called on.

The lemmas are one for each function that writes, from the row updates up to `insertIn_rows` and
`removeFrom_rows`. They need no invariant, so they also hold for calls outside of a precondition,
where nothing else is known of the heap. The number of rows is the fuel of every walk, so it is what
makes the bound of a walk the same before and after an operation.
-/

namespace MatchingEngine.C.EngineDb

open Contract

variable (db : EngineDb) (p : OrderPtr) (l : LevelPtr) (f : Order → Order) (g : PriceLevel → PriceLevel)

/-- A write to an order allocates no row. -/
@[simp] theorem setOrder_rows : (db.setOrder p f).orderRows = db.orderRows := rfl

/-- A write to a level allocates no row. -/
@[simp] theorem setLevel_rows : (db.setLevel l g).orderRows = db.orderRows := rfl

/-- `setNextOf` allocates no row. -/
@[simp] theorem setNextOf_rows (prev next : Option OrderPtr) :
    (db.setNextOf l prev next).orderRows = db.orderRows := by
  unfold setNextOf
  split <;> rfl

/-- `setPrevOf` allocates no row. -/
@[simp] theorem setPrevOf_rows (next prev : Option OrderPtr) :
    (db.setPrevOf l next prev).orderRows = db.orderRows := by
  unfold setPrevOf
  split <;> rfl

/-- `PriceLevel_orders_InsertTail` allocates no row. -/
@[simp] theorem ordersInsertTail_rows : (db.ordersInsertTail l p).orderRows = db.orderRows := by
  unfold ordersInsertTail
  split <;> simp

/-- `PriceLevel_orders_Remove` allocates no row. -/
@[simp] theorem ordersRemove_rows : (db.ordersRemove l p).orderRows = db.orderRows := by
  unfold ordersRemove
  split <;> simp

/-- `setParentOf` allocates no row. -/
@[simp] theorem setParentOf_rows (c parent : Option LevelPtr) :
    (db.setParentOf c parent).orderRows = db.orderRows := by
  unfold setParentOf
  split <;> rfl

/-- `replaceChild` allocates no row. -/
@[simp] theorem replaceChild_rows (root par : Option LevelPtr) (new : Option LevelPtr) :
    (db.replaceChild root par l new).2.orderRows = db.orderRows := by
  unfold replaceChild
  repeat' split
  all_goals rfl

variable {db p l}

/-- Inserting a row writes the index only. -/
theorem indOrderInsertMaybe_only {r : Bool × EngineDb} (h : db.indOrderInsertMaybe p = some r) :
    HashOnly db r.2 := by
  unfold indOrderInsertMaybe at h
  split at h
  · cases h
    exact .refl
  · obtain ⟨found, -, h⟩ := Option.bind_eq_some_iff.mp h
    split at h <;> cases h
    · exact .refl
    · exact indOrderLink_only _

/-- The walk along a bucket that takes an order out writes the index only. -/
theorem indOrderRemoveFrom_only {row : OrderPtr} {b : ℕ} {db' : EngineDb} :
    ∀ {fuel : ℕ} {prev cur : Option OrderPtr},
      db.indOrderRemoveFrom row b fuel prev cur = some db' → HashOnly db db'
  | 0, _, _, h => by cases h
  | _ + 1, _, none, h => by
    cases h
    exact .refl
  | fuel + 1, prev, some cur, h => by
    unfold indOrderRemoveFrom at h
    split at h
    · cases h
      exact indOrderUnlink_only ..
    · exact indOrderRemoveFrom_only h

/-- Removing a row writes the index only. -/
theorem indOrderRemove_only {db' : EngineDb} (h : db.indOrderRemove p = some db') :
    HashOnly db db' := by
  unfold indOrderRemove at h
  split at h
  · cases h
    exact .refl
  · exact indOrderRemoveFrom_only h

/-- `tree_insert` allocates no row. -/
theorem treeInsert_rows {root : Option LevelPtr} {r : Option LevelPtr × EngineDb}
    (h : db.treeInsert root l = some r) : r.2.orderRows = db.orderRows := by
  unfold treeInsert at h
  split at h
  · cases h
    rfl
  · obtain ⟨parent, -, h⟩ := Option.bind_eq_some_iff.mp h
    obtain ⟨parent, -, h⟩ := Option.bind_eq_some_iff.mp h
    split at h <;> (cases h; rfl)

/-- The successor of a level is detached without a row. -/
theorem detachSucc_rows {succ : LevelPtr} {db' : EngineDb} (h : db.detachSucc l succ = some db') :
    db'.orderRows = db.orderRows := by
  unfold detachSucc at h
  split at h
  · cases h
    rfl
  · obtain ⟨parent, -, h⟩ := Option.bind_eq_some_iff.mp h
    cases h
    simp

/-- A level is unlinked without a row. -/
theorem treeUnlink_rows {root : Option LevelPtr} {r : Option LevelPtr × EngineDb}
    (h : db.treeUnlink root l = some r) : r.2.orderRows = db.orderRows := by
  unfold treeUnlink at h
  split at h
  · rw [← Option.some.inj h]
    exact (setParentOf_rows ..).trans (replaceChild_rows ..)
  · rw [← Option.some.inj h]
    exact (setParentOf_rows ..).trans (replaceChild_rows ..)
  · obtain ⟨succ, -, h⟩ := Option.bind_eq_some_iff.mp h
    obtain ⟨db', hd, h⟩ := Option.bind_eq_some_iff.mp h
    cases h
    unfold graftSucc
    simp [detachSucc_rows hd]

/-- `tree_remove` allocates no row. -/
theorem treeRemove_rows {root : Option LevelPtr} {r : Option LevelPtr × EngineDb}
    (h : db.treeRemove root l = some r) : r.2.orderRows = db.orderRows := by
  unfold treeRemove at h
  split at h
  · cases h
    rfl
  · obtain ⟨⟨root', db'⟩, hu, h⟩ := Option.bind_eq_some_iff.mp h
    cases h
    exact (setLevel_rows ..).trans (treeUnlink_rows hu)

/-- `EngineDb_bids_Insert` and `EngineDb_asks_Insert` allocate no row. -/
theorem insertIn_rows {t : Tree} {db' : EngineDb} (h : db.insertIn t l = some db') :
    db'.orderRows = db.orderRows := by
  rw [insertIn_eq] at h
  obtain ⟨r, hr, h⟩ := Option.bind_eq_some_iff.mp h
  rw [← treeInsert_rows hr]
  cases t <;> (cases h; rfl)

/-- `EngineDb_bids_Remove` and `EngineDb_asks_Remove` allocate no row. -/
theorem removeFrom_rows {t : Tree} {db' : EngineDb} (h : db.removeFrom t l = some db') :
    db'.orderRows = db.orderRows := by
  rw [removeFrom_eq] at h
  obtain ⟨r, hr, h⟩ := Option.bind_eq_some_iff.mp h
  rw [← treeRemove_rows hr]
  cases t <;> (cases h; rfl)

end MatchingEngine.C.EngineDb
