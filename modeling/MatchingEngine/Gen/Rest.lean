import MatchingEngine.Gen.Level

/-!
# Resting a remainder

The end of the generated matcher: a row is allocated, written, and linked into the level of its
price, which may be a new one. It fails if a pool has no row left, and then the store is as it was.

A row that has been allocated and not linked is seen by nobody: the writes to it change the payload
that the store shows and not the book (`withOrder`, `returns_write`). Where no level can be had the
row is freed again, which undoes the allocation. `returns_genLink` puts the row behind the queue of
an existing level, `returns_newLevel` inserts a level first, and `returns_genRest` is the function
with its three outcomes.
-/

namespace MatchingEngine.Gen

open Contract Lib

variable {S : Type} {caps : Caps} {st : Store caps S} {s : State S} {db : Db} {n : UInt64}
  {hs : Tree → List LevelH} {r : Request}

/-- A field of a live order is written. -/
theorem returns_orderSet (h : At st s db n) {o : OrderH} {row : OrderRow}
    (ho : db.orders o = some row) (f : OrderField) (v : UInt64) (hid : f = .id → o ∉ db.hash) :
    Returns (call st.exec (.orderSet f o v)) s fun _ s' =>
      At st s' (db.setRow o (row.set v f)) n := by
  have hpre : (Op.orderSet f o v).pre caps db := ⟨by rw [ho]; rfl, hid⟩
  refine (returns_call h _ hpre).mono ?_
  rintro _ s' ⟨_, ⟨row', hrow, rfl⟩, h'⟩
  rw [ho] at hrow
  cases hrow
  exact h'

/-- A fresh order, not yet linked. -/
def withOrder (db : Db) (o : OrderH) (row : OrderRow) : Db :=
  { db with orders := Function.update db.orders o (some row), oLive := insert o db.oLive }

/-- A row that has just been handed out is written. -/
theorem setRow_withOrder (db : Db) (o : OrderH) (row row' : OrderRow) :
    (withOrder db o row).setRow o row' = withOrder db o row' := by
  unfold withOrder Db.setRow
  rw [Function.update_idem]

/-- A row written after its allocation. -/
theorem returns_write {o : OrderH} {row : OrderRow} (h : At st s (withOrder db o row) n)
    (hh : o ∉ db.hash) (rem : UInt64)
    {f : Prog (State S) UInt64} {Q : UInt64 → State S → Prop}
    (hf : ∀ s', At st s' (withOrder db o (r.row rem)) n → Returns f s' Q) :
    Returns (do
      call st.exec (.orderSet .id o r.id)
      call st.exec (.orderSet .account o r.account)
      call st.exec (.orderSet .side o r.side.code)
      call st.exec (.orderSet .stp_mode o r.stp.code)
      call st.exec (.orderSet .price o r.price)
      call st.exec (.orderSet .qty o r.qty)
      call st.exec (.orderSet .remaining o rem)
      f) s Q := by
  have hself : ∀ row, (withOrder db o row).orders o = some row := fun _ => Function.update_self ..
  have hset : ∀ {row s} (f : OrderField) (v : UInt64), At st s (withOrder db o row) n →
      Returns (call st.exec (.orderSet f o v)) s fun _ s' =>
        At st s' (withOrder db o (row.set v f)) n := fun f v h =>
    (returns_orderSet h (hself _) f v fun _ => hh).mono fun _ _ h' => setRow_withOrder .. ▸ h'
  refine (hset .id r.id h).bind fun _ _ h => ?_
  refine (hset .account r.account h).bind fun _ _ h => ?_
  refine (hset .side r.side.code h).bind fun _ _ h => ?_
  refine (hset .stp_mode r.stp.code h).bind fun _ _ h => ?_
  refine (hset .price r.price h).bind fun _ _ h => ?_
  refine (hset .qty r.qty h).bind fun _ _ h => ?_
  exact (hset .remaining rem h).bind fun _ _ h => hf _ h

/-- A fresh order freed again. -/
theorem returns_freeOrder {o : OrderH} {row : OrderRow} (h : At st s (withOrder db o row) n)
    (hlink : Linked db hs) (ho : db.orders o = none) :
    Returns (call st.exec (.orderFree o)) s fun _ s' => At st s' db n := by
  have hlive : o ∉ db.oLive := by
    rw [← hlink.wf.orders_live, ho]
    exact Bool.false_ne_true
  have hpre : (Op.orderFree o).pre caps (withOrder db o row) := by
    refine ⟨?_, fun ⟨m, hm⟩ => hlink.not_queued ho m hm, fun hm => hlive (hlink.hash ▸ hm)⟩
    exact Option.isSome_iff_exists.mpr ⟨row, Function.update_self ..⟩
  refine (returns_call h _ hpre).mono ?_
  rintro _ s' ⟨_, rfl, h'⟩
  have hdb : ({ withOrder db o row with
      orders := Function.update (withOrder db o row).orders o none
      oLive := (withOrder db o row).oLive.erase o } : Db) = db := by
    unfold withOrder
    rw [Function.update_idem, ← ho, Function.update_eq_self, Finset.erase_insert hlive]
  exact hdb ▸ h'

/-- A fresh order linked into a level of the store and into the index. -/
theorem returns_genLink {o : OrderH} {l : LevelH} {row : OrderRow} {t : Tree} {isnew : Bool}
    (h : At st s (withOrder db o row) n) (hq : ∀ m, o ∉ db.queue m) (hh : o ∉ db.hash)
    (hl : (db.levels l).isSome)
    (hid : ∀ q ∈ db.hash, db.orderId q ≠ row.id) :
    Returns (genLink st.exec t l o isnew) s fun c s' => c = 0 ∧ At st s' (db.addOrder l o row) n := by
  have hself : (withOrder db o row).orders o = some row := Function.update_self ..
  have hsome : ((withOrder db o row).orders o).isSome :=
    Option.isSome_iff_exists.mpr ⟨row, hself⟩
  unfold genLink
  have hpre : (Op.queueInsertTail l o).pre caps (withOrder db o row) :=
    ⟨hl, hsome, fun ⟨m, hm⟩ => hq m hm⟩
  refine (returns_call h _ hpre).bind ?_
  rintro _ s₁ ⟨_, rfl, h₁⟩
  refine (returns_call h₁ (.hashInsert o) ⟨hsome, hh⟩).bind ?_
  rintro b s₂ ⟨db₂, hb, h₂⟩
  -- The id is new, so the index takes the row and nothing is rolled back.
  have hnew : ¬ ∃ q ∈ db.hash, (withOrder db o row).orderId q = (withOrder db o row).orderId o := by
    rintro ⟨q, hq', he⟩
    have hqo : q ≠ o := fun he => hh (he ▸ hq')
    refine hid q hq' ?_
    have h₁ : (withOrder db o row).orderId q = db.orderId q := by
      unfold Db.orderId
      exact congrArg (fun x : Option OrderRow => (x.map OrderRow.id).getD 0)
        (Function.update_of_ne hqo _ _)
    rw [← h₁, he]
    unfold Db.orderId
    rw [hself]
    rfl
  obtain ⟨rfl, rfl⟩ : b = true ∧ _ := (if_neg hnew).mp hb
  exact .pure ⟨rfl, h₂⟩

variable (db) in
/-- A new level allocated, priced, and put into the tree. -/
theorem returns_newLevel {l : LevelH} {t : Tree} {p : UInt64} {row : LevelRow}
    (h : At st s { db with
      levels := Function.update db.levels l (some row), lLive := insert l db.lLive } n)
    (hl : ∀ t, l ∉ db.tree t) (hnew : ∀ m ∈ db.tree t, db.levelPrice m ≠ p)
    {f : Prog (State S) UInt64} {Q : UInt64 → State S → Prop}
    (hf : ∀ s', At st s' (db.addLevel t l p) n → Returns f s' Q) :
    Returns (do
      call st.exec (.levelSetPrice l p)
      call st.exec (.treeInsert t l)
      f) s Q := by
  have hlive : ∀ {v : LevelRow}, (Function.update db.levels l (some v) l).isSome := fun {v} => by
    rw [Function.update_self]
    rfl
  refine (returns_call h (.levelSetPrice l p) ⟨hlive, hl⟩).bind ?_
  rintro _ s₁ ⟨_, rfl, h₁⟩
  dsimp only at h₁
  rw [Function.update_idem] at h₁
  refine (returns_call h₁ (.treeInsert t l) ⟨hlive, hl, fun m hm => ?_⟩).bind ?_
  · have hml : m ≠ l := fun he => hl t (he ▸ hm)
    have hm' := hnew m hm
    unfold Db.levelPrice at hm' ⊢
    simp only [Function.update_self, Function.update_of_ne hml]
    exact hm'
  · rintro _ s₂ ⟨_, rfl, h₂⟩
    exact hf s₂ h₂

/-- A remainder rested, if there is room for it. -/
theorem returns_genRest (h : At st s db n) (hlink : Linked db hs)
    (hside : SideInv r.side ((db.book hs).side r.side)) (hid : r.id ∉ (db.book hs).ids)
    (rem : UInt64) :
    Returns (genRest st.exec r.side r.id r.account r.side.code r.stp.code r.price r.qty rem) s
      fun c s' =>
        (¬ (db.book hs).HasRoom r caps ∧ c = 5 ∧ At st s' db n) ∨
        ((db.book hs).HasRoom r caps ∧ c = 0 ∧ ∃ db' hs', At st s' db' n ∧ Linked db' hs' ∧
          db'.book hs' = (db.book hs).rest (r.row rem) r.side ∧ db'.trades = db.trades) := by
  -- What `HasRoom` asks of the book, in the counts of the store.
  have hlevel : (∃ l ∈ (db.book hs).side r.side, l.price = r.price) ↔
      ∃ l ∈ db.tree r.side, db.levelPrice l = r.price := by
    rw [Db.book_side]
    simp only [List.mem_map, exists_exists_and_eq_and, ← hlink.mem_tree]
    exact Iff.rfl
  unfold Book.HasRoom
  rw [hlevel, ← hlink.card_orders, ← hlink.card_levels]
  unfold genRest
  refine (returns_call h .orderAlloc trivial).bind ?_
  rintro o s₁ ⟨db₁, ⟨hfull, hdb₁⟩, h₁⟩
  -- No row for the order.
  cases o with
  | none =>
    obtain rfl : db₁ = db := hdb₁
    have := hfull.mp rfl
    exact .pure (.inl ⟨fun hroom => absurd hroom.1 (by omega), rfl, h₁⟩)
  | some o =>
    obtain ⟨ho, row, rfl⟩ := hdb₁
    have hroom : db.oLive.card < caps.orders := by
      by_contra hc
      cases hfull.mpr (by omega)
    have hlive : o ∉ db.oLive := by
      rw [← hlink.wf.orders_live, ho]
      exact Bool.false_ne_true
    have hh : o ∉ db.hash := hlink.hash ▸ hlive
    -- A row, whose id is in no index.
    have hids : ∀ q ∈ db.hash, db.orderId q ≠ r.id := fun q hq he =>
      hid (hlink.mem_ids.mpr ⟨q, hq, he⟩)
    refine returns_write h₁ hh rem fun s₂ h₂ => ?_
    refine (returns_call h₂ (.treeFind r.side r.price) trivial).bind ?_
    rintro l s₃ ⟨_, ⟨rfl, hfind⟩, h₃⟩
    -- A level at the price, which the order joins.
    cases l with
    | some l =>
      have hl : l ∈ hs r.side := hlink.mem_tree.mp hfind.1
      refine (returns_genLink h₃ (hlink.not_queued ho) hh (hlink.level_live hl) hids).mono ?_
      rintro c s₄ ⟨rfl, h₄⟩
      refine .inr ⟨⟨hroom, .inl ⟨l, hfind⟩⟩, rfl, _, hs, h₄, hlink.addOrder ho hl h₄.wf, ?_, rfl⟩
      exact hlink.addOrder_book ho hside hl hfind.2.symm
    | none =>
      have hnew : ¬ ∃ l ∈ db.tree r.side, db.levelPrice l = r.price := fun ⟨l, hl, hp⟩ =>
        hfind l hl hp
      -- No level yet: one is allocated, or the row goes back.
      refine (returns_call h₃ .levelAlloc trivial).bind ?_
      rintro l s₄ ⟨db₄, ⟨hfull₄, hdb₄⟩, h₄⟩
      cases l with
      | none =>
        obtain rfl : db₄ = withOrder db o _ := hdb₄
        have hcard : caps.levels ≤ db.lLive.card := hfull₄.mp rfl
        refine (returns_freeOrder h₄ hlink ho).bind fun _ s₅ h₅ => .pure (.inl ⟨?_, rfl, h₅⟩)
        rintro ⟨-, hl | hl⟩
        · exact hnew hl
        · omega
      | some l =>
        obtain ⟨hl, row', rfl⟩ := hdb₄
        have hlevels : db.lLive.card < caps.levels := by
          by_contra hc
          cases hfull₄.mpr (not_lt.mp hc)
        have hnl : ∀ t, l ∉ db.tree t := fun t ht => by
          have := hlink.wf.tree_live t l ht
          rw [show db.levels l = none from hl] at this
          cases this
        refine returns_newLevel (withOrder db o (r.row rem)) h₄ hnl hfind fun s₅ h₅ => ?_
        have h₅' : At st s₅ (withOrder (db.addLevel r.side l r.price) o (r.row rem)) n := h₅
        refine (returns_genLink h₅' (hlink.not_queued ho) hh
          ?_ hids).mono ?_
        · exact Option.isSome_iff_exists.mpr ⟨_, Function.update_self ..⟩
        · rintro c s₆ ⟨rfl, h₆⟩
          obtain ⟨hs', hlink', hbook'⟩ := hlink.addLevel_book (r := r.row rem) ho hl hfind h₆.wf
          exact .inr ⟨⟨hroom, .inr hlevels⟩, rfl, _, hs', h₆, hlink', hbook', rfl⟩

end MatchingEngine.Gen
