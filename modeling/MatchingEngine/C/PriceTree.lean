import Mathlib.Data.List.Sort
import MatchingEngine.C.TreeOps

/-!
# The price-tree operations on any tree

`tree_find`, `tree_insert`, `tree_remove`, and the two walks on a search tree of levels, whether or
not it is one of the two of the engine: each returns, the two that write leave a search tree, and
what they do to the nodes in order is what the operation on a sorted list does.

`PriceTree` is the condition: the links spell a tree with parent links, the prices ascend in order,
and the nodes are reserved rows whose flag is set. `insert`, `remove`, `find`, `leftmost`, and
`rightmost` have one theorem each. Three levels whose root has two children are an instance, in
which a removal has to look for the successor.
-/

namespace MatchingEngine.C

open Lib

/-- The pieces around an element that is larger than those of the first piece and not larger than
those of the second are a sorted insertion. -/
theorem orderedInsert_append {α : Type*} {r : α → α → Prop} [DecidableRel r] {a : α} {xs ys : List α}
    (hxs : ∀ x ∈ xs, ¬ r a x) (hys : ∀ y ∈ ys, r a y) :
    (xs ++ ys).orderedInsert r a = xs ++ a :: ys := by
  induction xs with
  | nil =>
    cases ys with
    | nil => rfl
    | cons y ys => exact List.orderedInsert_cons_of_le r ys (hys y List.mem_cons_self)
  | cons x xs ih =>
    obtain ⟨hx, hxs⟩ := List.forall_mem_cons.mp hxs
    rw [List.cons_append, List.orderedInsert_cons, if_neg hx, ih hxs]
    rfl

/-- The links from `root` spell the tree `t`, whose nodes are levels of the pool, marked as nodes,
with prices that ascend strictly from left to right. -/
structure PriceTree (db : EngineDb) (root : Option LevelPtr) (t : BinaryTree LevelPtr) : Prop where
  linked : LinkedTree db.links root none t
  ascending : db.Ascending (inorder t)
  intree : ∀ l ∈ inorder t, (db.levels l).tree_intree = true
  rows : ∀ l ∈ inorder t, l < db.levelRows

variable {db db' : EngineDb} {root : Option LevelPtr} {t : BinaryTree LevelPtr} {n l : LevelPtr}

/-- The prices of some levels. -/
def EngineDb.prices (db : EngineDb) (xs : List LevelPtr) : List UInt64 :=
  xs.map fun l => (db.levels l).price

namespace PriceTree

/-- No price is twice in a price tree. -/
theorem nodup_prices (h : PriceTree db root t) : (db.prices (inorder t)).Nodup :=
  List.pairwise_map.mpr (h.ascending.imp fun hlt he => absurd he (UInt64.ne_of_lt hlt))

/-- No level is twice in a price tree. -/
theorem nodup (h : PriceTree db root t) : (inorder t).Nodup := h.nodup_prices.of_map _

/-- The nodes are distinct rows of the pool. -/
theorem length_le (h : PriceTree db root t) : (inorder t).length ≤ db.levelRows := by
  have hsub : (inorder t).Subperm (List.range db.levelRows) :=
    h.nodup.subperm fun l hl => List.mem_range.mpr (h.rows l hl)
  have hle := hsub.length_le
  rwa [List.length_range] at hle

/-- A price tree has fewer levels than the walks have fuel. -/
theorem length_lt (h : PriceTree db root t) : (inorder t).length < db.levelFuel :=
  Nat.lt_succ_of_le h.length_le

/-- A write of tree fields keeps levels in the order of their prices. -/
theorem ascending_of {xs : List LevelPtr} (h : TreeOnly db db') (hs : db.Ascending xs) :
    db'.Ascending xs := by
  refine hs.imp fun {l m} hlm => ?_
  rw [h.price, h.price]
  exact hlm

/-- A write of tree fields allocates no row. -/
theorem levelRows_eq (h : TreeOnly db db') : db'.levelRows = db.levelRows := by
  unfold EngineDb.levelRows
  rw [h.globals]

/-- `tree_find` returns the node of a price, if there is one. -/
theorem find (h : PriceTree db root t) (price : UInt64) :
    ∃ r, db.treeFind price db.levelFuel root = some r ∧
      ∀ l, r = some l ↔ l ∈ inorder t ∧ (db.levels l).price = price := by
  have hfuel := lt_of_le_of_lt (height_le_length t) h.length_lt
  obtain ⟨r, he, hr⟩ : ∃ r, db.treeFind price db.levelFuel root = some r ∧ _ :=
    EngineDb.treeFind_eq h.linked h.ascending hfuel
  refine ⟨r, he, fun l => ?_⟩
  cases r with
  | none => exact ⟨nofun, fun hl => absurd hl.2 (hr l hl.1)⟩
  | some m =>
    constructor
    · intro hm
      cases hm
      exact hr
    · rintro ⟨hl, hp⟩
      -- Two nodes with one price are one.
      exact congrArg some (List.inj_on_of_nodup_map h.nodup_prices hr.1 hl (hr.2.trans hp.symm))

/-- `tree_insert` of a level whose price is new puts it into its place. -/
theorem insert (h : PriceTree db root t) (hn : n < db.levelRows)
    (hnew : ∀ l ∈ inorder t, (db.levels l).price ≠ (db.levels n).price) :
    ∃ root' db' t', db.treeInsert root n = some (root', db') ∧ PriceTree db' root' t' ∧
      (inorder t').Perm (n :: inorder t) ∧
      db'.prices (inorder t') = (db.prices (inorder t)).orderedInsert (· ≤ ·) (db.levels n).price ∧
      TreeOnly db db' ∧ ∀ l ∉ n :: inorder t, db'.levels l = db.levels l := by
  have hnt : n ∉ inorder t := fun hm => hnew n hm rfl
  obtain ⟨root', db', t', as, bs, he, honly, hlink, hsplit, hsplit', has, hbs, hoff, hflag, -, -⟩ :=
    EngineDb.treeInsert_eq h.linked h.ascending hnew hnt h.length_lt h.nodup
  have hprice : ∀ xs, db'.prices xs = db.prices xs := fun xs =>
    List.map_congr_left fun l _ => honly.price l
  have hperm : (inorder t').Perm (n :: inorder t) := by
    rw [hsplit, hsplit']
    exact List.perm_middle
  refine ⟨root', db', t', he, ⟨hlink, ascending_of honly ?_, fun l hl => ?_, fun l hl => ?_⟩, hperm, ?_,
    honly, hoff⟩
  -- The new level stands between the lower and the higher prices.
  · have hasc := h.ascending
    rw [hsplit] at hasc
    rw [hsplit']
    obtain ⟨ha, hb, hab⟩ := List.pairwise_append.mp hasc
    refine List.pairwise_append.mpr ⟨ha, List.pairwise_cons.mpr ⟨hbs, hb⟩, fun l hl m hm => ?_⟩
    rcases List.mem_cons.mp hm with rfl | hm
    · exact has l hl
    · exact hab l hl m hm
  · rw [hflag]
    rcases List.mem_cons.mp (hperm.mem_iff.mp hl) with rfl | hl
    · exact if_pos rfl
    · split
      · rfl
      · exact h.intree l hl
  · rw [levelRows_eq honly]
    rcases List.mem_cons.mp (hperm.mem_iff.mp hl) with rfl | hl
    · exact hn
    · exact h.rows l hl
  · rw [hprice, hsplit, hsplit']
    unfold EngineDb.prices
    rw [List.map_append, List.map_append, List.map_cons]
    -- The prices before the new one are smaller, and those after it are not.
    refine (orderedInsert_append (fun p hp => ?_) fun p hp => ?_).symm
    · obtain ⟨l, hl, rfl⟩ := List.mem_map.mp hp
      exact UInt64.not_le.mpr (has l hl)
    · obtain ⟨l, hl, rfl⟩ := List.mem_map.mp hp
      exact UInt64.le_of_lt (hbs l hl)

/-- `tree_remove` of a node takes it out and leaves the order of the others. -/
theorem remove (h : PriceTree db root t) (hn : n ∈ inorder t) :
    ∃ root' db' t', db.treeRemove root n = some (root', db') ∧ PriceTree db' root' t' ∧
      inorder t' = (inorder t).erase n ∧ TreeOnly db db' ∧
      ∀ l ∉ inorder t, db'.levels l = db.levels l := by
  obtain ⟨root', db₁, t', he, honly, hlink, hspell, hoff⟩ :=
    EngineDb.treeUnlink_eq h.linked h.nodup hn h.length_lt.le
  -- The links of the removed node are cleared.
  set db' := db₁.setLevel n fun v =>
    { v with
      tree_left := none, tree_right := none, tree_parent := none, tree_intree := false } with hdb'
  have honly' : TreeOnly db db' := honly.treeOnly.trans (TreeOnly.setLevel fun _ => rfl)
  have hmem : ∀ l, l ∈ inorder t' ↔ l ≠ n ∧ l ∈ inorder t := fun l => by
    rw [hspell, h.nodup.mem_erase_iff]
  have hsame : ∀ l, l ≠ n → db'.levels l = db₁.levels l := fun l hl => by
    rw [hdb', EngineDb.setLevel_levels_apply, if_neg hl]
  have hne : ∀ l ∈ inorder t', l ≠ n := fun l hl => ((hmem l).mp hl).1
  refine ⟨root', db', t', ?_, ⟨?_, ascending_of honly' ?_, fun l hl => ?_, fun l hl => ?_⟩,
    hspell, honly',
    fun l hl => ?_⟩
  · rw [EngineDb.treeRemove, h.intree n hn]
    simp only [Bool.not_true, Bool.false_eq_true, if_false, he, Option.bind_eq_bind, Option.bind_some]
    rfl
  · exact hlink.congr (fun l hl => congrArg PriceLevel.tree_left (hsame l (hne l hl)))
      (fun l hl => congrArg PriceLevel.tree_right (hsame l (hne l hl)))
      fun l hl => congrArg PriceLevel.tree_parent (hsame l (hne l hl))
  · rw [hspell]
    exact h.ascending.sublist List.erase_sublist
  · rw [hsame l (hne l hl), honly.intree]
    exact h.intree l ((hmem l).mp hl).2
  · rw [levelRows_eq honly']
    exact h.rows l ((hmem l).mp hl).2
  · rw [hsame l fun hln => hl (hln ▸ hn)]
    exact honly.levels_off hoff hl

/-- The walk to the right returns the node with the highest price. -/
theorem rightmost {x : LevelPtr} (h : PriceTree db (some x) t) :
    ∃ m, db.treeRightmost db.levelFuel x = some m ∧ m ∈ inorder t ∧
      ∀ l ∈ inorder t, (db.levels l).price ≤ (db.levels m).price := by
  have hne : inorder t ≠ [] := List.ne_nil_of_mem h.linked.root_mem
  refine ⟨(inorder t).getLast hne, ?_, List.getLast_mem hne, fun l hl => ?_⟩
  · rw [EngineDb.treeRightmost_eq h.linked ((height_le_length t).trans h.length_lt.le)]
    exact List.getLast?_eq_getLast_of_ne_nil hne
  · have hasc := h.ascending
    rw [← List.dropLast_append_getLast hne] at hasc hl
    rcases List.mem_append.mp hl with hl | hl
    · exact UInt64.le_of_lt ((List.pairwise_append.mp hasc).2.2 l hl _ (List.mem_singleton.mpr rfl))
    · rw [List.mem_singleton.mp hl]
      exact UInt64.le_refl _

/-- The walk to the left returns the node with the lowest price. -/
theorem leftmost {x : LevelPtr} (h : PriceTree db (some x) t) :
    ∃ m, db.treeLeftmost db.levelFuel x = some m ∧ m ∈ inorder t ∧
      ∀ l ∈ inorder t, (db.levels m).price ≤ (db.levels l).price := by
  cases hspell : inorder t with
  -- The root is in the tree, so the tree is not empty.
  | nil => exact absurd h.linked.root_mem (by rw [hspell]; exact List.not_mem_nil)
  | cons m ms =>
    refine ⟨m, ?_, List.mem_cons_self, fun l hl => ?_⟩
    · rw [EngineDb.treeLeftmost_eq h.linked ((height_le_length t).trans h.length_lt.le), hspell]
      rfl
    · have hasc := h.ascending
      rw [hspell] at hasc
      rcases List.mem_cons.mp hl with rfl | hl
      · exact UInt64.le_refl _
      · exact UInt64.le_of_lt ((List.pairwise_cons.mp hasc).1 l hl)

end PriceTree

/-- The operations on any search tree of levels with parent links in order. -/
theorem priceTree_operations (h : PriceTree db root t) :
    (∀ n, n < db.levelRows → (∀ l ∈ inorder t, (db.levels l).price ≠ (db.levels n).price) →
      ∃ root' db' t', db.treeInsert root n = some (root', db') ∧ PriceTree db' root' t' ∧
        (inorder t').Perm (n :: inorder t) ∧
        db'.prices (inorder t') = (db.prices (inorder t)).orderedInsert (· ≤ ·) (db.levels n).price ∧
        TreeOnly db db' ∧ ∀ l ∉ n :: inorder t, db'.levels l = db.levels l) ∧
    (∀ n ∈ inorder t, ∃ root' db' t', db.treeRemove root n = some (root', db') ∧
      PriceTree db' root' t' ∧ inorder t' = (inorder t).erase n ∧ TreeOnly db db' ∧
      ∀ l ∉ inorder t, db'.levels l = db.levels l) ∧
    (∀ price, ∃ r, db.treeFind price db.levelFuel root = some r ∧
      ∀ l, r = some l ↔ l ∈ inorder t ∧ (db.levels l).price = price) ∧
    ∀ x, root = some x →
      (∃ m, db.treeRightmost db.levelFuel x = some m ∧ m ∈ inorder t ∧
        ∀ l ∈ inorder t, (db.levels l).price ≤ (db.levels m).price) ∧
      ∃ m, db.treeLeftmost db.levelFuel x = some m ∧ m ∈ inorder t ∧
        ∀ l ∈ inorder t, (db.levels m).price ≤ (db.levels l).price := by
  refine ⟨fun n => h.insert, fun n => h.remove, h.find, ?_⟩
  rintro x rfl
  exact ⟨h.rightmost, h.leftmost⟩

/-- A heap with a level, at the price 5, between two others. -/
def threeLevels : EngineDb where
  levels
    | 0 => { price := 5, tree_left := some 1, tree_right := some 2, tree_intree := true }
    | 1 => { price := 3, tree_parent := some 0, tree_intree := true }
    | 2 => { price := 8, tree_parent := some 0, tree_intree := true }
    | _ => {}
  level_pool_total_allocated := 4

/-- Its tree. -/
def threeTree : BinaryTree LevelPtr := .node 0 (.node 1 .nil .nil) (.node 2 .nil .nil)

/-- The links of the three levels spell a tree of them. -/
theorem priceTree_threeLevels : PriceTree threeLevels (some 0) threeTree where
  linked := ⟨rfl, rfl, ⟨rfl, rfl, rfl, rfl⟩, ⟨rfl, rfl, rfl, rfl⟩⟩
  ascending := by
    change List.Pairwise _ [1, 0, 2]
    decide
  intree := by
    change ∀ l ∈ [1, 0, 2], _
    decide
  rows := by
    change ∀ l ∈ [1, 0, 2], l < 4
    decide

/-- The operations on a tree of three levels. -/
theorem priceTree_operations_threeLevels :
    (∀ n, n < threeLevels.levelRows →
      (∀ l ∈ inorder threeTree, (threeLevels.levels l).price ≠ (threeLevels.levels n).price) →
      ∃ root' db' t', threeLevels.treeInsert (some 0) n = some (root', db') ∧ PriceTree db' root' t' ∧
        (inorder t').Perm (n :: inorder threeTree) ∧
        db'.prices (inorder t') = (threeLevels.prices (inorder threeTree)).orderedInsert (· ≤ ·)
          (threeLevels.levels n).price ∧
        TreeOnly threeLevels db' ∧ ∀ l ∉ n :: inorder threeTree, db'.levels l = threeLevels.levels l) ∧
    (∀ n ∈ inorder threeTree, ∃ root' db' t', threeLevels.treeRemove (some 0) n = some (root', db') ∧
      PriceTree db' root' t' ∧ inorder t' = (inorder threeTree).erase n ∧ TreeOnly threeLevels db' ∧
      ∀ l ∉ inorder threeTree, db'.levels l = threeLevels.levels l) ∧
    (∀ price, ∃ r, threeLevels.treeFind price threeLevels.levelFuel (some 0) = some r ∧
      ∀ l, r = some l ↔ l ∈ inorder threeTree ∧ (threeLevels.levels l).price = price) ∧
    ∀ x, some 0 = some x →
      (∃ m, threeLevels.treeRightmost threeLevels.levelFuel x = some m ∧ m ∈ inorder threeTree ∧
        ∀ l ∈ inorder threeTree, (threeLevels.levels l).price ≤ (threeLevels.levels m).price) ∧
      ∃ m, threeLevels.treeLeftmost threeLevels.levelFuel x = some m ∧ m ∈ inorder threeTree ∧
        ∀ l ∈ inorder threeTree, (threeLevels.levels m).price ≤ (threeLevels.levels l).price :=
  priceTree_operations priceTree_threeLevels

end MatchingEngine.C
