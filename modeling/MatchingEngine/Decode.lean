import MatchingEngine.Book.Invariant

/-!
# The book of a store

The book that an abstract store stands for, and what the updates of the matchers do to it. The trees
are finite sets of level handles, so the book is read off with a list `hs t` of the handles of each
tree. `Linked db hs` says that between two calls of a matcher nothing else is in the store: every
order is in the queue of one of these levels and in the index, and every level is in a tree.
-/

namespace MatchingEngine

open Contract

namespace Contract.Db

variable (db : Db)

/-- The row of an order handle; only meant for live ones. -/
def row (o : OrderH) : OrderRow := (db.orders o).getD ⟨0, 0, 0, 0, 0, 0, 0⟩

/-- The level of a handle. -/
def levelOf (l : LevelH) : Level := ⟨db.levelPrice l, (db.queue l).map db.row⟩

/-- The book with the handles `hs` of the levels, best first. -/
def book (hs : Tree → List LevelH) : Book := ⟨(hs .bids).map db.levelOf, (hs .asks).map db.levelOf⟩

/-- An order taken out of the level `l`, out of the index, and freed. -/
def dropOrder (l : LevelH) (o : OrderH) : Db :=
  { db with
    queue := Function.update db.queue l ((db.queue l).erase o)
    hash := db.hash.erase o
    orders := Function.update db.orders o none
    oLive := db.oLive.erase o }

/-- The row of an order replaced. -/
def setRow (o : OrderH) (r : OrderRow) : Db :=
  { db with orders := Function.update db.orders o (some r) }

/-- A level taken out of the tree `t` and freed. -/
def dropLevel (t : Tree) (l : LevelH) : Db :=
  { db with
    tree := Function.update db.tree t ((db.tree t).erase l)
    levels := Function.update db.levels l none
    lLive := db.lLive.erase l }

/-- A level at the price `p` added to the tree `t`. -/
def addLevel (t : Tree) (l : LevelH) (p : UInt64) : Db :=
  { db with
    tree := Function.update db.tree t (insert l (db.tree t))
    levels := Function.update db.levels l (some ⟨p⟩)
    lLive := insert l db.lLive }

/-- An order added to the level `l` and to the index. -/
def addOrder (l : LevelH) (o : OrderH) (r : OrderRow) : Db :=
  { db with
    queue := Function.update db.queue l (db.queue l ++ [o])
    hash := insert o db.hash
    orders := Function.update db.orders o (some r)
    oLive := insert o db.oLive }

/-- A side of the book is read from its levels. -/
@[simp] theorem book_side (hs : Tree → List LevelH) (t : Tree) :
    (db.book hs).side t = (hs t).map db.levelOf := by
  cases t <;> rfl

/-- The row of a live order. -/
theorem row_eq {db : Db} {o : OrderH} {r : OrderRow} (h : db.orders o = some r) : db.row o = r := by
  unfold row
  rw [h]
  rfl

/-- The price of a live level. -/
theorem levelPrice_eq {db : Db} {l : LevelH} {p : UInt64} (h : db.levels l = some ⟨p⟩) :
    db.levelPrice l = p := by
  unfold levelPrice
  rw [h]
  rfl

/-- The row depends on nothing else. -/
theorem row_congr {db db' : Db} {o : OrderH} (h : db'.orders o = db.orders o) :
    db'.row o = db.row o := by
  unfold row
  rw [h]

/-- A level at the same price, with the queue `q` of unchanged rows. -/
theorem levelOf_eq {db db' : Db} {l : LevelH} {q : List OrderH}
    (hp : db'.levelPrice l = db.levelPrice l) (hq : db'.queue l = q)
    (hr : ∀ o ∈ q, db'.orders o = db.orders o) :
    db'.levelOf l = ⟨db.levelPrice l, q.map db.row⟩ := by
  unfold levelOf
  rw [hp, hq, List.map_congr_left fun o ho => row_congr (hr o ho)]

end Contract.Db

/-- The store holds the levels of the handles `hs`, their orders, and nothing else. -/
structure Linked (db : Db) (hs : Tree → List LevelH) : Prop where
  wf : db.WF
  nodup : ∀ t, (hs t).Nodup
  tree : ∀ t, db.tree t = (hs t).toFinset
  queued : ∀ o, o ∈ db.oLive ↔ ∃ t, ∃ l ∈ hs t, o ∈ db.queue l
  hash : db.hash = db.oLive
  levels : ∀ l, l ∈ db.lLive ↔ ∃ t, l ∈ hs t

namespace Linked

variable {db db' : Db} {hs : Tree → List LevelH} {t : Tree} {l m : LevelH} {ls : List LevelH}
  {o : OrderH} {r : OrderRow} {p : UInt64}

/-- An empty store is linked to no levels. -/
theorem empty : Linked Db.empty fun _ => [] where
  wf := Db.wf_empty
  nodup _ := List.nodup_nil
  tree _ := rfl
  queued o := by simp [Db.empty]
  hash := rfl
  levels l := by simp [Db.empty]

/-- The levels of a tree are those that its side is read from. -/
theorem mem_tree (h : Linked db hs) : l ∈ db.tree t ↔ l ∈ hs t := by
  rw [h.tree, List.mem_toFinset]

/-- No level is on both sides. -/
theorem not_mem_other (h : Linked db hs) (hl : l ∈ hs t) : l ∉ hs t.other := by
  rw [← h.mem_tree] at hl ⊢
  cases t with
  | bids => exact Finset.disjoint_left.mp h.wf.tree_disjoint hl
  | asks => exact Finset.disjoint_right.mp h.wf.tree_disjoint hl

/-- The levels of a side are live. -/
theorem level_live (h : Linked db hs) (hl : l ∈ hs t) : (db.levels l).isSome :=
  (h.wf.levels_live l).mpr ((h.levels l).mpr ⟨t, hl⟩)

/-- The orders of a queue are live. -/
theorem order_live (h : Linked db hs) (ho : o ∈ db.queue l) : (db.orders o).isSome :=
  (h.wf.queue_live l o ho).1

/-- The orders of a queue are indexed. -/
theorem order_hashed (h : Linked db hs) (ho : o ∈ db.queue l) : o ∈ db.hash := by
  rw [h.hash, ← h.wf.orders_live]
  exact h.order_live ho

/-- An order in a queue is in the queue of one level. -/
theorem queue_inj (h : Linked db hs) (ho : o ∈ db.queue l) (ho' : o ∈ db.queue m) : l = m :=
  h.wf.queue_unique l m o ho ho'

/-- A queue is no longer than the live orders. -/
theorem queue_length_le (h : Linked db hs) (l : LevelH) :
    (db.queue l).length ≤ db.oLive.card := by
  rw [← List.toFinset_card_of_nodup (h.wf.queue_nodup l)]
  refine Finset.card_le_card fun o ho => ?_
  exact (h.wf.orders_live o).mp (h.order_live (List.mem_toFinset.mp ho))

/-- A store whose levels are the same except the first one of a side. -/
theorem book_head (h : Linked db hs) (ht : hs t = l :: ls)
    (hoff : ∀ m, m ≠ l → db'.levelOf m = db.levelOf m) :
    db'.book hs = (db.book hs).setSide (db'.levelOf l :: ls.map db.levelOf) t := by
  have hmap : ∀ {xs : List LevelH}, l ∉ xs → xs.map db'.levelOf = xs.map db.levelOf :=
    fun hl => List.map_congr_left fun m hm => hoff m fun he => hl (he ▸ hm)
  have hnd := h.nodup t
  rw [ht, List.nodup_cons] at hnd
  have hother := hmap (h.not_mem_other (ht ▸ List.mem_cons_self : l ∈ hs t))
  have hls := hmap hnd.1
  cases t <;> simp only [Db.book, Book.setSide, Tree.other, ht, List.map_cons, hls] at hother ⊢ <;>
    rw [hother]

/-! ## An order taken out -/

/-- A dropped order is missing in its own level only. -/
theorem dropOrder_levelOf (h : Linked db hs) (ho : o ∈ db.queue l) (m : LevelH) :
    (db.dropOrder l o).levelOf m =
      if m = l then ⟨db.levelPrice l, ((db.queue l).erase o).map db.row⟩ else db.levelOf m := by
  have horders : ∀ {q}, q ≠ o → (db.dropOrder l o).orders q = db.orders q :=
    fun hq => Function.update_of_ne hq _ _
  split
  · subst_vars
    refine Db.levelOf_eq rfl (Function.update_self ..) fun q hq => horders ?_
    exact ((h.wf.queue_nodup m).mem_erase_iff.mp hq).1
  · rename_i hne
    refine Db.levelOf_eq rfl (Function.update_of_ne hne _ _) fun q hq => horders fun he => ?_
    exact hne (h.queue_inj (he ▸ hq) ho)

/-- An order taken out of its queue, and trades reported. -/
theorem dropOrder {ts : List TradeRow} (h : Linked db hs) (ho : o ∈ db.queue l)
    (hwf : Db.WF { db.dropOrder l o with trades := ts }) :
    Linked { db.dropOrder l o with trades := ts } hs where
  wf := hwf
  nodup := h.nodup
  tree := h.tree
  queued q := by
    have hqueue : ∀ m, q ∈ (db.dropOrder l o).queue m ↔ q ≠ o ∧ q ∈ db.queue m := by
      intro m
      change q ∈ Function.update db.queue l ((db.queue l).erase o) m ↔ _
      rw [Function.update_apply]
      split
      · subst_vars
        exact (h.wf.queue_nodup _).mem_erase_iff
      -- An order is in one queue only, so it is not in that of another level.
      · refine ⟨fun hq => ⟨?_, hq⟩, And.right⟩
        rintro rfl
        exact absurd (h.queue_inj hq ho) ‹_›
    change q ∈ db.oLive.erase o ↔ _
    rw [Finset.mem_erase, h.queued]
    simp only [hqueue]
    tauto
  hash := by
    change db.hash.erase o = db.oLive.erase o
    rw [h.hash]
  levels := h.levels

/-! ## A level taken out -/

/-- An empty level taken out. -/
theorem dropLevel (h : Linked db hs) (hl : l ∈ hs t) (hq : db.queue l = [])
    (hwf : (db.dropLevel t l).WF) :
    Linked (db.dropLevel t l) (Function.update hs t ((hs t).erase l)) where
  wf := hwf
  nodup s := by
    rw [Function.update_apply]
    split
    · exact (h.nodup t).erase l
    · exact h.nodup s
  tree s := by
    change Function.update db.tree t _ s = _
    rw [Function.update_apply, Function.update_apply]
    split
    · rw [h.tree]
      ext m
      rw [Finset.mem_erase, List.mem_toFinset, List.mem_toFinset, (h.nodup t).mem_erase_iff]
    · exact h.tree s
  queued q := by
    change q ∈ db.oLive ↔ ∃ s, ∃ m ∈ _, q ∈ db.queue m
    rw [h.queued]
    refine exists_congr fun s => exists_congr fun m => and_congr_left fun hqm => ?_
    -- No order is in the queue of the dropped level.
    have hml : m ≠ l := fun he => by
      rw [he, hq] at hqm
      cases hqm
    rw [Function.update_apply]
    split
    · subst_vars
      rw [(h.nodup _).mem_erase_iff]
      exact ⟨fun hm => ⟨hml, hm⟩, And.right⟩
    · exact Iff.rfl
  hash := h.hash
  levels m := by
    change m ∈ db.lLive.erase l ↔ _
    rw [Finset.mem_erase, h.levels]
    simp only [Function.update_apply]
    constructor
    · rintro ⟨hml, s, hm⟩
      refine ⟨s, ?_⟩
      split
      · subst_vars
        exact (h.nodup _).mem_erase_iff.mpr ⟨hml, hm⟩
      · exact hm
    · rintro ⟨s, hm⟩
      split at hm
      · obtain ⟨hml, hm⟩ := (h.nodup t).mem_erase_iff.mp hm
        exact ⟨hml, t, hm⟩
      · rename_i hst
        refine ⟨fun he => ?_, s, hm⟩
        subst he
        -- A level is in one tree only.
        have hother : s = t.other := by
          revert hst
          cases s <;> cases t <;> simp [Tree.other]
        exact h.not_mem_other hl (hother ▸ hm)

/-- A dropped level leaves the others. -/
theorem dropLevel_levelOf (hm : m ≠ l) : (db.dropLevel t l).levelOf m = db.levelOf m := by
  refine Db.levelOf_eq ?_ rfl fun _ _ => rfl
  unfold Db.levelPrice
  exact congrArg (fun x : Option LevelRow => (x.map LevelRow.price).getD 0)
    (Function.update_of_ne hm _ _)

/-- The book without the first level of a side. -/
theorem dropLevel_book (h : Linked db hs) (ht : hs t = l :: ls) :
    (db.dropLevel t l).book (Function.update hs t ((hs t).erase l)) =
      (db.book hs).setSide (ls.map db.levelOf) t := by
  have hmap : ∀ {xs : List LevelH}, l ∉ xs →
      xs.map (db.dropLevel t l).levelOf = xs.map db.levelOf :=
    fun hl => List.map_congr_left fun m hm => dropLevel_levelOf fun he => hl (he ▸ hm)
  have hnd := h.nodup t
  rw [ht, List.nodup_cons] at hnd
  have hother := hmap (h.not_mem_other (ht ▸ List.mem_cons_self : l ∈ hs t))
  have hls := hmap hnd.1
  cases t <;> simp only [Tree.other] at hother <;>
    simp [Db.book, Book.setSide, ht, hls, hother]

/-! ## A row replaced -/

/-- A row is read in its own queue only. -/
theorem setRow_levelOf_of_not_mem (ho : o ∉ db.queue m) :
    (db.setRow o r).levelOf m = db.levelOf m :=
  Db.levelOf_eq rfl rfl fun q hq => Function.update_of_ne (fun he => ho (by rwa [← he])) _ _

/-- The level of a queue whose first order has its row replaced. -/
theorem setRow_levelOf_head {os : List OrderH} (h : Linked db hs) (hq : db.queue l = o :: os) :
    (db.setRow o r).levelOf l = ⟨db.levelPrice l, r :: os.map db.row⟩ := by
  have hnd := h.wf.queue_nodup l
  rw [hq, List.nodup_cons] at hnd
  unfold Db.levelOf
  change Level.mk (db.levelPrice l) ((db.queue l).map _) = _
  rw [hq, List.map_cons, Db.row_eq (Function.update_self ..)]
  refine congrArg (fun xs => Level.mk _ (r :: xs)) (List.map_congr_left fun q hq => ?_)
  exact Db.row_congr (Function.update_of_ne (fun he => hnd.1 (by rwa [← he])) _ _)

/-- The row of an order that stays in its queue replaced, and trades reported. -/
theorem setRow {ts : List TradeRow} (h : Linked db hs)
    (hwf : Db.WF { db.setRow o r with trades := ts }) :
    Linked { db.setRow o r with trades := ts } hs where
  wf := hwf
  nodup := h.nodup
  tree := h.tree
  queued := h.queued
  hash := h.hash
  levels := h.levels

/-- A row replaced and then taken out. -/
theorem setRow_dropOrder (db : Db) (l : LevelH) (o : OrderH) (r : OrderRow) :
    (db.setRow o r).dropOrder l o = db.dropOrder l o := by
  unfold Db.setRow Db.dropOrder
  rw [Function.update_idem]

/-! ## An order added -/

section Add

variable (h : Linked db hs) (ho : db.orders o = none)

include h ho

/-- A row that was just handed out is in no queue. -/
theorem not_queued (m : LevelH) : o ∉ db.queue m := fun hm => by
  have := h.order_live hm
  rw [ho] at this
  cases this

/-- A fresh order behind those of a level of the tree. -/
theorem addOrder (hl : l ∈ hs t) (hwf : (db.addOrder l o r).WF) :
    Linked (db.addOrder l o r) hs where
  wf := hwf
  nodup := h.nodup
  tree := h.tree
  queued q := by
    have hqueue : ∀ m, q ∈ (db.addOrder l o r).queue m ↔ q ∈ db.queue m ∨ q = o ∧ m = l := by
      intro m
      change q ∈ Function.update db.queue l (db.queue l ++ [o]) m ↔ _
      rw [Function.update_apply]
      split
      · subst_vars
        simp
      · simp [*]
    change q ∈ insert o db.oLive ↔ _
    rw [Finset.mem_insert, h.queued]
    simp only [hqueue]
    constructor
    -- The fresh order is in the queue it was put in, and the old ones are where they were.
    · rintro (rfl | ⟨s, m, hm, hq⟩)
      · exact ⟨t, l, hl, .inr ⟨rfl, rfl⟩⟩
      · exact ⟨s, m, hm, .inl hq⟩
    · rintro ⟨s, m, hm, hq | ⟨rfl, -⟩⟩
      · exact .inr ⟨s, m, hm, hq⟩
      · exact .inl rfl
  hash := by
    change insert o db.hash = insert o db.oLive
    rw [h.hash]
  levels := h.levels

/-- An added order is at the end of its own level only. -/
theorem addOrder_levelOf (m : LevelH) :
    (db.addOrder l o r).levelOf m = if m = l then ⟨db.levelPrice l, (db.queue l).map db.row ++ [r]⟩
      else db.levelOf m := by
  have horders : ∀ {q n}, q ∈ db.queue n → (db.addOrder l o r).orders q = db.orders q :=
    fun hq => Function.update_of_ne (fun he => h.not_queued ho _ (by rwa [← he])) _ _
  split
  · subst_vars
    unfold Db.levelOf
    change Level.mk (db.levelPrice m) ((Function.update db.queue m (db.queue m ++ [o]) m).map _) = _
    rw [Function.update_self, List.map_append, List.map_singleton,
      Db.row_eq (Function.update_self ..)]
    refine congrArg (fun xs => Level.mk _ (xs ++ [r])) (List.map_congr_left fun q hq => ?_)
    exact Db.row_congr (horders hq)
  · exact Db.levelOf_eq rfl (Function.update_of_ne ‹_› _ _) fun q hq => horders hq

end Add

/-- A level added to a tree, with the handle put in at any place. -/
theorem addLevel {xs : List LevelH} (h : Linked db hs) (hl : db.levels l = none)
    (hxs : xs.Perm (l :: hs t)) (hwf : (db.addLevel t l p).WF) :
    Linked (db.addLevel t l p) (Function.update hs t xs) where
  wf := hwf
  nodup s := by
    rw [Function.update_apply]
    split
    · refine hxs.nodup_iff.mpr (List.nodup_cons.mpr ⟨fun hm => ?_, h.nodup t⟩)
      have := h.level_live hm
      rw [hl] at this
      cases this
    · exact h.nodup s
  tree s := by
    change Function.update db.tree t _ s = _
    rw [Function.update_apply, Function.update_apply]
    split
    · rw [h.tree]
      ext m
      rw [Finset.mem_insert, List.mem_toFinset, List.mem_toFinset, hxs.mem_iff, List.mem_cons]
    · exact h.tree s
  queued q := by
    change q ∈ db.oLive ↔ ∃ s, ∃ m ∈ _, q ∈ db.queue m
    rw [h.queued]
    refine exists_congr fun s => exists_congr fun m => and_congr_left fun hqm => ?_
    rw [Function.update_apply]
    split
    · subst_vars
      rw [hxs.mem_iff, List.mem_cons]
      refine ⟨.inr, fun hm => hm.resolve_left fun he => ?_⟩
      -- The handle was dead, so no queue is at it.
      have := (h.wf.queue_live m q hqm).2
      rw [he, hl] at this
      cases this
    · exact Iff.rfl
  hash := h.hash
  levels m := by
    change m ∈ insert l db.lLive ↔ _
    rw [Finset.mem_insert, h.levels]
    simp only [Function.update_apply]
    constructor
    · rintro (rfl | ⟨s, hm⟩)
      · exact ⟨t, by rw [if_pos rfl, hxs.mem_iff]; exact List.mem_cons_self⟩
      · refine ⟨s, ?_⟩
        split
        · subst_vars
          exact hxs.mem_iff.mpr (List.mem_cons_of_mem _ hm)
        · exact hm
    · rintro ⟨s, hm⟩
      split at hm
      · rcases List.mem_cons.mp (hxs.mem_iff.mp hm) with rfl | hm
        · exact .inl rfl
        · exact .inr ⟨t, hm⟩
      · exact .inr ⟨s, hm⟩

/-! ## Counts -/

/-- The handles of the orders, in the order of the book. -/
def handles (db : Db) (hs : Tree → List LevelH) : List OrderH :=
  (hs .bids ++ hs .asks).flatMap db.queue

/-- The orders of the book are the live rows. -/
theorem mem_handles (h : Linked db hs) : o ∈ handles db hs ↔ o ∈ db.oLive := by
  unfold handles
  rw [h.queued, List.mem_flatMap]
  constructor
  · rintro ⟨l, hl, ho⟩
    rcases List.mem_append.mp hl with hl | hl
    · exact ⟨_, l, hl, ho⟩
    · exact ⟨_, l, hl, ho⟩
  · rintro ⟨t, l, hl, ho⟩
    refine ⟨l, List.mem_append.mpr ?_, ho⟩
    cases t with
    | bids => exact .inl hl
    | asks => exact .inr hl

/-- No level is on both sides, or twice on one. -/
theorem levels_nodup (h : Linked db hs) : (hs .bids ++ hs .asks).Nodup :=
  List.nodup_append'.mpr ⟨h.nodup _, h.nodup _, fun _ hl => h.not_mem_other hl⟩

/-- No order is twice in the book. -/
theorem handles_nodup (h : Linked db hs) : (handles db hs).Nodup := by
  refine List.nodup_flatMap.mpr ⟨fun l _ => h.wf.queue_nodup l, ?_⟩
  refine h.levels_nodup.imp fun {l m} hne o hl hm => ?_
  exact hne (h.queue_inj hl hm)

/-- The rows of the book's orders are its orders. -/
theorem handles_row (db : Db) (hs : Tree → List LevelH) :
    (handles db hs).map db.row = (db.book hs).orders := by
  unfold handles Book.orders Db.book
  simp only [List.flatMap_append, List.flatMap_map, List.map_append, List.map_flatMap]
  rfl

/-- The store holds as many orders as the book. -/
theorem card_orders (h : Linked db hs) : db.oLive.card = (db.book hs).orders.length := by
  rw [← handles_row, List.length_map, ← List.toFinset_card_of_nodup h.handles_nodup]
  refine congrArg _ (Finset.ext fun o => ?_)
  rw [List.mem_toFinset, h.mem_handles]

/-- The store holds as many levels as the book. -/
theorem card_levels (h : Linked db hs) :
    db.lLive.card = (db.book hs).bids.length + (db.book hs).asks.length := by
  have hlive : db.lLive = (hs .bids ++ hs .asks).toFinset := by
    ext l
    rw [h.levels, List.mem_toFinset, List.mem_append]
    constructor
    · rintro ⟨t, hl⟩
      cases t with
      | bids => exact .inl hl
      | asks => exact .inr hl
    · rintro (hl | hl)
      · exact ⟨_, hl⟩
      · exact ⟨_, hl⟩
  rw [hlive, List.toFinset_card_of_nodup h.levels_nodup]
  simp [Db.book]

/-- The index finds the ids of the book. -/
theorem mem_ids (h : Linked db hs) {id : UInt64} :
    id ∈ (db.book hs).ids ↔ ∃ o ∈ db.hash, db.orderId o = id := by
  unfold Book.ids
  rw [← handles_row, List.map_map, List.mem_map]
  refine exists_congr fun o => ?_
  rw [h.mem_handles, h.hash]
  refine and_congr_right fun ho => ?_
  obtain ⟨r, hr⟩ := Option.isSome_iff_exists.mp ((h.wf.orders_live o).mpr ho)
  unfold Db.orderId
  rw [Function.comp, Db.row_eq hr, hr]
  rfl

/-- Ids are distinct. -/
theorem id_inj {o q : OrderH} (h : Linked db hs) (ho : o ∈ db.oLive) (hq : q ∈ db.oLive)
    (he : (db.row q).id = (db.row o).id) : q = o := by
  obtain ⟨r, hr⟩ := Option.isSome_iff_exists.mp ((h.wf.orders_live o).mpr ho)
  obtain ⟨r', hr'⟩ := Option.isSome_iff_exists.mp ((h.wf.orders_live q).mpr hq)
  rw [Db.row_eq hr, Db.row_eq hr'] at he
  refine h.wf.hash_ids q (h.hash ▸ hq) o (h.hash ▸ ho) ?_
  unfold Db.orderId
  rw [hr, hr']
  exact he

/-! ## A cancellation -/

/-- The level of a handle without an order of the store. -/
theorem dropOrder_levelOf_filter (h : Linked db hs) (ho : o ∈ db.queue l) (m : LevelH) :
    (db.dropOrder l o).levelOf m =
      { db.levelOf m with orders := (db.levelOf m).orders.filter (·.id ≠ (db.row o).id) } := by
  have hlive : ∀ {q n}, q ∈ db.queue n → q ∈ db.oLive := fun hq =>
    (h.wf.orders_live _).mp (h.order_live hq)
  -- Resting orders have different ids, so the id tells the order from the others.
  have hne : ∀ q ∈ db.queue m, q ≠ o ↔ (db.row q).id ≠ (db.row o).id := fun q hq =>
    not_congr ⟨fun he => he ▸ rfl, h.id_inj (hlive ho) (hlive hq)⟩
  have hfilter : (db.levelOf m).orders.filter (·.id ≠ (db.row o).id) =
      ((db.queue m).filter (· ≠ o)).map db.row := by
    unfold Db.levelOf
    rw [List.filter_map]
    refine congrArg _ (List.filter_congr fun q hq => ?_)
    exact decide_eq_decide.mpr (hne q hq).symm
  rw [h.dropOrder_levelOf ho, hfilter]
  split
  · subst_vars
    rw [(h.wf.queue_nodup m).erase_eq_filter]
    refine congrArg (fun xs : List OrderH => Level.mk _ (xs.map db.row))
      (List.filter_congr fun q _ => ?_)
    rw [Bool.eq_iff_iff, bne_iff_ne, decide_eq_true_iff]
  -- The order is in no other queue.
  · have hall : (db.queue m).filter (· ≠ o) = db.queue m := by
      refine List.filter_eq_self.mpr fun q hq => decide_eq_true fun he => ?_
      exact absurd (h.queue_inj (he ▸ hq) ho) ‹_›
    rw [hall]
    rfl

/-- The book without an order: the levels that are left with one. -/
theorem removeId_side (h : Linked db hs) (ho : o ∈ db.queue l) (s : Tree) :
    removeId (db.row o).id ((db.book hs).side s) =
      ((hs s).filter fun m => (db.dropOrder l o).queue m ≠ []).map (db.dropOrder l o).levelOf := by
  unfold removeId
  rw [Db.book_side, List.map_map]
  have hmap : (hs s).map ((fun l : Level =>
      { l with orders := l.orders.filter (·.id ≠ (db.row o).id) }) ∘ db.levelOf) =
      (hs s).map (db.dropOrder l o).levelOf :=
    List.map_congr_left fun m _ => (h.dropOrder_levelOf_filter ho m).symm
  rw [hmap, List.filter_map]
  refine congrArg _ (List.filter_congr fun m _ => decide_eq_decide.mpr ?_)
  simp [Db.levelOf]

/-- The book without an order whose level keeps others. -/
theorem removeId_side_of_ne (h : Linked db hs) (ho : o ∈ db.queue l)
    (hne : ∀ m ∈ hs t, db.queue m ≠ []) (hq : (db.dropOrder l o).queue l ≠ []) :
    ((db.dropOrder l o).book hs).side t = removeId (db.row o).id ((db.book hs).side t) := by
  rw [h.removeId_side ho, Db.book_side]
  refine congrArg _ (List.filter_eq_self.mpr fun m hm => decide_eq_true ?_).symm
  by_cases hml : m = l
  · rwa [hml]
  · change Function.update db.queue l ((db.queue l).erase o) m ≠ []
    rw [Function.update_of_ne hml]
    exact hne m hm

/-- The book without an order and its level. -/
theorem removeId_side_of_nil {s : Tree} (h : Linked db hs) (hl : l ∈ hs t) (ho : o ∈ db.queue l)
    (hne : ∀ m ∈ hs s, db.queue m ≠ []) (hq : (db.dropOrder l o).queue l = []) :
    (((db.dropOrder l o).dropLevel t l).book (Function.update hs t ((hs t).erase l))).side s =
      removeId (db.row o).id ((db.book hs).side s) := by
  -- The levels without orders are the one that the order was alone in.
  have hfilter : ((hs s).filter fun m => (db.dropOrder l o).queue m ≠ []) =
      (hs s).filter (· != l) := by
    refine List.filter_congr fun m hm => ?_
    rw [Bool.eq_iff_iff, decide_eq_true_iff, bne_iff_ne]
    refine ⟨fun hm' he => hm' (he ▸ hq), fun hml => ?_⟩
    change Function.update db.queue l ((db.queue l).erase o) m ≠ []
    rw [Function.update_of_ne hml]
    exact hne m hm
  have hside : Function.update hs t ((hs t).erase l) s = (hs s).filter (· != l) := by
    rw [Function.update_apply]
    split
    · subst_vars
      exact (h.nodup _).erase_eq_filter l
    · refine (List.filter_eq_self.mpr fun m hm => bne_iff_ne.mpr fun he => ?_).symm
      have hother : s = t.other := by
        rename_i hst
        revert hst
        cases s <;> cases t <;> simp [Tree.other]
      exact h.not_mem_other hl (hother ▸ he ▸ hm)
  rw [h.removeId_side ho, Db.book_side, hside, hfilter]
  refine List.map_congr_left fun m hm => dropLevel_levelOf ?_
  exact bne_iff_ne.mp (List.mem_filter.mp hm).2

/-! ## The order of the levels -/

/-- The levels of a sorted side are the sorted handles. -/
theorem sorted_handles (hs : Tree → List LevelH) :
    (((db.book hs).side t).map Level.price).Pairwise (before t) ↔
      ((hs t).map db.levelPrice).Pairwise (before t) := by
  rw [Db.book_side, List.map_map]
  exact Iff.rfl

/-- A level of a sorted tree that is as good as every other one is the first. -/
theorem eq_head (h : Linked db hs) (hs' : ((hs t).map db.levelPrice).Pairwise (before t))
    (hl : l ∈ db.tree t) (hb : ∀ m ∈ db.tree t, better t (db.levelPrice l) (db.levelPrice m)) :
    ∃ ls, hs t = l :: ls := by
  rw [h.mem_tree] at hl
  cases hx : hs t with
  | nil =>
    rw [hx] at hl
    cases hl
  | cons x xs =>
    rw [hx] at hl hs'
    rcases List.mem_cons.mp hl with rfl | hl
    · exact ⟨xs, rfl⟩
    · have hlt := (List.pairwise_cons.mp hs').1 _ (List.mem_map_of_mem hl)
      have hx' : x ∈ db.tree t := h.mem_tree.mpr (hx ▸ List.mem_cons_self)
      exact absurd hlt (better_iff.mp (hb x hx'))

end Linked

section Insert

variable {t : Tree} {row : OrderRow} {xs : List LevelH} {l : LevelH} {f f' : LevelH → Level}

/-- A row inserted into levels none of which has its price gets a handle of its own. -/
theorem exists_insertRow (hnew : ∀ m ∈ xs, row.price ≠ (f m).price) (hf : ∀ m ∈ xs, f' m = f m)
    (hl : f' l = ⟨row.price, [row]⟩) :
    ∃ ys : List LevelH, ys.Perm (l :: xs) ∧ ys.map f' = insertRow t row (xs.map f) := by
  induction xs with
  | nil => exact ⟨[l], .refl _, by simp [insertRow, hl]⟩
  | cons x xs ih =>
    have hx := hf x List.mem_cons_self
    have hxs := fun m hm => hf m (List.mem_cons_of_mem x hm)
    rw [List.map_cons, insertRow, if_neg (hnew x List.mem_cons_self)]
    split
    · refine ⟨l :: x :: xs, .refl _, ?_⟩
      rw [List.map_cons, List.map_cons, hl, hx, List.map_congr_left hxs]
    · obtain ⟨ys, hperm, hys⟩ := ih (fun m hm => hnew m (List.mem_cons_of_mem x hm)) hxs
      refine ⟨x :: ys, (hperm.cons x).trans (.swap ..), ?_⟩
      rw [List.map_cons, hx, hys]

/-- A row inserted into sorted levels one of which has its price goes behind its orders. -/
theorem map_insertRow (hs : (xs.map fun m => (f m).price).Pairwise (before t)) (hnd : xs.Nodup)
    (hl : l ∈ xs) (hp : row.price = (f l).price)
    (hf : ∀ m, f' m = if m = l then { f m with orders := (f m).orders ++ [row] } else f m) :
    xs.map f' = insertRow t row (xs.map f) := by
  induction xs with
  | nil => cases hl
  | cons x xs ih =>
    obtain ⟨hx, hxs⟩ := List.pairwise_cons.mp hs
    obtain ⟨hnx, hnd⟩ := List.nodup_cons.mp hnd
    rw [List.map_cons, List.map_cons, insertRow]
    by_cases hxl : x = l
    · subst hxl
      -- The level with the price, which is the only one that changes.
      rw [if_pos hp, hf x, if_pos rfl]
      refine congrArg _ (List.map_congr_left fun m hm => ?_)
      rw [hf m, if_neg (show m ≠ x from fun he => hnx (he ▸ hm))]
    -- A level before it has a better price, so the row goes further down.
    · have hlt := hx _ (List.mem_map_of_mem ((List.mem_cons.mp hl).resolve_left (Ne.symm hxl)))
      rw [← hp] at hlt
      rw [if_neg (before_ne hlt).symm, if_neg (before_asymm hlt), hf x, if_neg hxl,
        ih hxs hnd ((List.mem_cons.mp hl).resolve_left (Ne.symm hxl))]

end Insert

/-! ## A row rested -/

section Rest

variable {db : Db} {hs : Tree → List LevelH} {t : Tree} {l : LevelH} {o : OrderH} {r : OrderRow}

/-- A fresh level at a fresh price keeps the store well formed. -/
theorem Contract.Db.WF.addLevel {p : UInt64} (h : db.WF) (hl : db.levels l = none)
    (hnew : ∀ m ∈ db.tree t, db.levelPrice m ≠ p) : (db.addLevel t l p).WF := by
  have hlive : ∀ m, ((db.addLevel t l p).levels m).isSome ↔ m = l ∨ (db.levels m).isSome := by
    intro m
    change (Function.update db.levels l (some ⟨p⟩) m).isSome ↔ _
    rw [Function.update_apply]
    split <;> simp [*]
  have hprice : ∀ m, (db.addLevel t l p).levelPrice m = if m = l then p else db.levelPrice m := by
    intro m
    split
    · subst_vars
      exact Db.levelPrice_eq (Function.update_self ..)
    · unfold Db.levelPrice
      exact congrArg (fun x : Option LevelRow => (x.map LevelRow.price).getD 0)
        (Function.update_of_ne ‹_› _ _)
  have htree : ∀ s m, m ∈ (db.addLevel t l p).tree s ↔ m ∈ db.tree s ∨ s = t ∧ m = l := by
    intro s m
    change m ∈ Function.update db.tree t _ s ↔ _
    rw [Function.update_apply]
    split
    · subst_vars
      rw [Finset.mem_insert, or_comm]
      simp
    · simp [*]
  -- A dead handle is in no tree.
  have hnl : ∀ s, l ∉ db.tree s := fun s hm => by
    have := h.tree_live s l hm
    rw [hl] at this
    cases this
  refine ⟨fun m q hq => ?_, h.queue_nodup, h.queue_unique, h.hash_live, h.hash_ids, fun s m hm => ?_,
    ?_, fun s m hm n hn he => ?_, h.orders_live, fun m => ?_⟩
  · have := h.queue_live m q hq
    exact ⟨this.1, (hlive m).mpr (.inr this.2)⟩
  · refine (hlive m).mpr ?_
    rcases (htree s m).mp hm with hm | ⟨-, rfl⟩
    · exact .inr (h.tree_live s m hm)
    · exact .inl rfl
  · refine Finset.disjoint_left.mpr fun m hm hm' => ?_
    -- The fresh level is in one tree only.
    rcases (htree _ m).mp hm with hm | ⟨ht, hml⟩ <;>
      rcases (htree _ m).mp hm' with hm' | ⟨ht', hml'⟩
    · exact Finset.disjoint_left.mp h.tree_disjoint hm hm'
    · exact hnl _ (hml' ▸ hm)
    · exact hnl _ (hml ▸ hm')
    · exact absurd (ht.trans ht'.symm) (by decide)
  · rw [hprice, hprice] at he
    -- No other level of the tree has the fresh price.
    have hne : ∀ {k}, k ∈ db.tree s → k ≠ l := fun hk hkl => hnl s (hkl ▸ hk)
    rcases (htree s m).mp hm with hm | ⟨hs, hml⟩ <;> rcases (htree s n).mp hn with hn | ⟨hs', hnl'⟩
    · rw [if_neg (hne hm), if_neg (hne hn)] at he
      exact h.tree_prices s m hm n hn he
    · rw [if_neg (hne hm), if_pos hnl'] at he
      exact absurd he (hnew m (hs' ▸ hm))
    · rw [if_pos hml, if_neg (hne hn)] at he
      exact absurd he.symm (hnew n (hs ▸ hn))
    · exact hml.trans hnl'.symm
  · rw [hlive, h.levels_live]
    change _ ↔ m ∈ insert l db.lLive
    rw [Finset.mem_insert]

namespace Linked

variable (h : Linked db hs) (ho : db.orders o = none)

include h ho

/-- A row rested at a level of its price. -/
theorem addOrder_book (hs' : SideInv t ((db.book hs).side t)) (hl : l ∈ hs t)
    (hp : r.price = db.levelPrice l) :
    (db.addOrder l o r).book hs = (db.book hs).rest r t := by
  have hlevel := h.addOrder_levelOf (l := l) (r := r) ho
  have hown : (hs t).map (db.addOrder l o r).levelOf = insertRow t r ((hs t).map db.levelOf) := by
    refine map_insertRow ((sorted_handles hs).mp hs'.sorted) (h.nodup t) hl hp fun m => ?_
    rw [hlevel]
    split
    · subst_vars
      rfl
    · rfl
  -- The level is not on the other side, which stays.
  have hother : (hs t.other).map (db.addOrder l o r).levelOf = (hs t.other).map db.levelOf := by
    refine List.map_congr_left fun m hm => ?_
    rw [hlevel, if_neg (show m ≠ l from fun he => h.not_mem_other hl (he ▸ hm))]
  unfold Book.rest
  rw [Db.book_side, ← hown]
  cases t <;> simp only [Tree.other] at hother <;> simp [Db.book, Book.setSide, hother]

/-- A row rested at a level of its own. -/
theorem addLevel_book (hl : db.levels l = none) (hnew : ∀ m ∈ db.tree t, db.levelPrice m ≠ r.price)
    (hwf : ((db.addLevel t l r.price).addOrder l o r).WF) :
    ∃ hs', Linked ((db.addLevel t l r.price).addOrder l o r) hs' ∧
      ((db.addLevel t l r.price).addOrder l o r).book hs' = (db.book hs).rest r t := by
  have hwf₁ := h.wf.addLevel hl hnew
  have hnil : db.queue l = [] := by
    refine List.eq_nil_iff_forall_not_mem.mpr fun q hq => ?_
    have := (h.wf.queue_live l q hq).2
    rw [hl] at this
    cases this
  have hnl : ∀ s, l ∉ hs s := fun s hm => by
    have := h.level_live hm
    rw [hl] at this
    cases this
  have hlink₁ := h.addLevel hl (.refl (l :: hs t)) hwf₁
  have hprice : (db.addLevel t l r.price).levelPrice l = r.price :=
    Db.levelPrice_eq (Function.update_self ..)
  -- The fresh level holds the one order, and the others are as they were.
  have hlevel : ∀ m, ((db.addLevel t l r.price).addOrder l o r).levelOf m =
      if m = l then ⟨r.price, [r]⟩ else db.levelOf m := by
    intro m
    rw [hlink₁.addOrder_levelOf ho]
    split
    · rw [hprice]
      change Level.mk _ ((db.queue l).map _ ++ _) = _
      rw [hnil]
      rfl
    · refine Db.levelOf_eq ?_ rfl fun _ _ => rfl
      unfold Db.levelPrice
      exact congrArg (fun x : Option LevelRow => (x.map LevelRow.price).getD 0)
        (Function.update_of_ne ‹_› _ _)
  have hold : ∀ s, ∀ m ∈ hs s, ((db.addLevel t l r.price).addOrder l o r).levelOf m = db.levelOf m :=
    fun s m hm => by rw [hlevel, if_neg (show m ≠ l from fun he => hnl s (he ▸ hm))]
  -- The handle goes where a sorted insertion puts the price.
  obtain ⟨ys, hperm, hys⟩ := exists_insertRow (t := t)
    (fun m hm => (hnew m (h.mem_tree.mpr hm)).symm) (hold t) ((hlevel l).trans (if_pos rfl))
  have hmem : l ∈ (Function.update hs t ys) t := by
    rw [Function.update_self]
    exact hperm.mem_iff.mpr List.mem_cons_self
  refine ⟨Function.update hs t ys, (h.addLevel hl hperm hwf₁).addOrder ho hmem hwf, ?_⟩
  have hother := List.map_congr_left (hold t.other)
  unfold Book.rest
  rw [Db.book_side, ← hys]
  cases t <;> simp only [Tree.other] at hother <;> simp [Db.book, Book.setSide, hother]

end Linked

end Rest

end MatchingEngine
