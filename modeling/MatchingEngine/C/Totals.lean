import MatchingEngine.Book.Totals
import MatchingEngine.C.Adapter
import MatchingEngine.Decode

/-!
# The totals of the levels

`total_qty` is kept beside the queue that it sums: inserting an order adds to it, removing one
subtracts, and `ME_order_set_remaining` does both. All additions wrap, but the subtraction of
`PriceLevel_orders_Remove` stops at zero. As long as it does not stop, the total is the sum of the
remaining quantities modulo `2^64`, whatever operations are called.

`Totalled` is that equation for all levels. To prove it of the code, the adapter is also run with a
removal that wraps (`ordersRemoveWrap`), which keeps `Totalled` without a condition; `removeAs`
chooses between the two, and where no order exceeds the total of its level they are the same
function (`removeAs_eq`). There is one lemma for each operation of the adapter.
-/

namespace MatchingEngine

open Contract

namespace Contract.Db

variable {db db' : Db} {l : LevelH} {o : OrderH} {r : OrderRow}

/-- The sum of the remaining quantities of a level's orders. -/
def total (db : Db) (l : LevelH) : ℕ := (db.levelOf l).total

/-- The total of a level is the sum over its queue. -/
theorem total_eq (db : Db) (l : LevelH) :
    db.total l = ((db.queue l).map fun o => (db.row o).remaining.toNat).sum := by
  unfold total levelOf Level.total rowsTotal
  rw [List.map_map]
  rfl

/-- The total depends on the queue and on its rows. -/
theorem total_congr (hq : db'.queue l = db.queue l)
    (hr : ∀ o ∈ db.queue l, db'.orders o = db.orders o) :
    db'.total l = db.total l := by
  rw [total_eq, total_eq, hq]
  exact congrArg List.sum (List.map_congr_left fun o ho => by rw [row_congr (hr o ho)])

/-- An order of the queue adds to its total. -/
theorem total_split (ho : o ∈ db.queue l) : db.total l = (db.row o).remaining.toNat +
    (((db.queue l).erase o).map fun o => (db.row o).remaining.toNat).sum := by
  rw [total_eq]
  exact (List.sum_map_erase _ ho).symm

/-- No order has more left than its level's total. -/
theorem le_total (ho : o ∈ db.queue l) : (db.row o).remaining.toNat ≤ db.total l := by
  rw [total_split ho]
  exact Nat.le_add_right _ _

/-- A row of the queue replaced. -/
theorem total_setRow (hnd : (db.queue l).Nodup) (ho : o ∈ db.queue l) :
    (db.setRow o r).total l + (db.row o).remaining.toNat = db.total l + r.remaining.toNat := by
  have hself : (db.setRow o r).row o = r := row_eq (Function.update_self ..)
  have hsplit : (db.setRow o r).total l = _ := total_split ho
  have hrest : (((db.setRow o r).queue l).erase o).map
      (fun p => ((db.setRow o r).row p).remaining.toNat) =
      ((db.queue l).erase o).map fun p => (db.row p).remaining.toNat := by
    refine List.map_congr_left fun p hp => ?_
    have hne : p ≠ o := (hnd.mem_erase_iff.mp hp).1
    have hkeep : (db.setRow o r).orders p = db.orders p := Function.update_of_ne hne _ _
    rw [row_congr hkeep]
  rw [hsplit, hrest, hself, total_split ho]
  omega

end Contract.Db

namespace C

open Lib

/-! ## The total of a level on the heap -/

namespace EngineDb

/-- The total of every live level is right modulo `2^64`. -/
def Totalled (db : EngineDb) : Prop :=
  ∀ l ∈ db.view.lLive, (db.levels l).total_qty.toNat = db.view.total l % 2^64

variable (db : EngineDb) (p : OrderPtr) (l m : LevelPtr)

/-- A link of the queue is no total. -/
theorem setNextOf_total (prev next : Option OrderPtr) :
    ((db.setNextOf l prev next).levels m).total_qty = (db.levels m).total_qty := by
  unfold setNextOf
  split
  · rfl
  · rw [setLevel_levels_apply]
    split <;> simp_all

/-- A link back is no total. -/
theorem setPrevOf_total (next prev : Option OrderPtr) :
    ((db.setPrevOf l next prev).levels m).total_qty = (db.levels m).total_qty := by
  unfold setPrevOf
  split
  · rfl
  · rw [setLevel_levels_apply]
    split <;> simp_all

/-- A write to an order row that keeps its quantity. -/
theorem setOrder_remaining {f : Order → Order} (hf : ∀ o, (f o).remaining_qty = o.remaining_qty)
    (q : OrderPtr) : ((db.setOrder p f).orders q).remaining_qty = (db.orders q).remaining_qty := by
  rw [setOrder_orders_apply]
  split
  · subst_vars
    exact hf _
  · rfl

/-- A link of the queue is no quantity. -/
theorem setNextOf_remaining (prev next : Option OrderPtr) (q : OrderPtr) :
    ((db.setNextOf l prev next).orders q).remaining_qty = (db.orders q).remaining_qty := by
  unfold setNextOf
  split
  · exact setOrder_remaining _ _ (fun _ => by rfl) q
  · rfl

/-- A link back is no quantity. -/
theorem setPrevOf_remaining (next prev : Option OrderPtr) (q : OrderPtr) :
    ((db.setPrevOf l next prev).orders q).remaining_qty = (db.orders q).remaining_qty := by
  unfold setPrevOf
  split
  · exact setOrder_remaining _ _ (fun _ => by rfl) q
  · rfl

/-- An insertion adds the order's quantity to the total of its level. -/
theorem ordersInsertTail_total (hin : (db.orders p).orders_inlist = false) :
    ((db.ordersInsertTail l p).levels m).total_qty = if m = l
      then (db.levels l).total_qty + (db.orders p).remaining_qty else (db.levels m).total_qty := by
  unfold ordersInsertTail
  rw [hin, if_neg Bool.false_ne_true, setLevel_levels_apply]
  split
  · rw [setOrder_levels, setNextOf_total, setOrder_levels, setOrder_remaining _ _ fun _ => by rfl,
      setNextOf_remaining, setOrder_remaining _ _ fun _ => by rfl]
  · rw [setOrder_levels, setNextOf_total, setOrder_levels]

/-- A removal subtracts the order's quantity, or stops at zero. -/
theorem ordersRemove_total (hin : (db.orders p).orders_inlist = true) :
    ((db.ordersRemove l p).levels m).total_qty = if m = l
      then if (db.levels l).total_qty ≥ (db.orders p).remaining_qty
        then (db.levels l).total_qty - (db.orders p).remaining_qty else 0
      else (db.levels m).total_qty := by
  unfold ordersRemove
  rw [hin, Bool.not_true, if_neg Bool.false_ne_true, setLevel_levels_apply]
  split
  · rw [setOrder_levels, setPrevOf_total, setNextOf_total, setOrder_remaining _ _ fun _ => by rfl,
      setPrevOf_remaining, setNextOf_remaining]
  · rw [setOrder_levels, setPrevOf_total, setNextOf_total]

/-- `PriceLevel_orders_Remove` with a subtraction that wraps. -/
def ordersRemoveWrap (level : LevelPtr) (row : OrderPtr) : EngineDb :=
  (db.ordersRemove level row).setLevel level fun v =>
    { v with total_qty := (db.levels level).total_qty - (db.orders row).remaining_qty }

/-- The subtraction stops at zero only where it would wrap. -/
theorem ordersRemoveWrap_eq (hin : (db.orders p).orders_inlist = true)
    (hle : (db.orders p).remaining_qty ≤ (db.levels l).total_qty) :
    db.ordersRemoveWrap l p = db.ordersRemove l p := by
  have htotal := db.ordersRemove_total p l l hin
  rw [if_pos rfl, if_pos hle] at htotal
  unfold ordersRemoveWrap setLevel
  rw [← htotal]
  change { db.ordersRemove l p with
    levels := Function.update (db.ordersRemove l p).levels l ((db.ordersRemove l p).levels l) } = _
  rw [Function.update_eq_self]

end EngineDb

/-! ## The adapter without the stop -/

namespace Adapter

variable {caps : Caps} {s : Adapter}

/-- `PriceLevel_orders_Remove`, with a subtraction that wraps if `wrap` is set. -/
def removeAs (wrap : Bool) (db : EngineDb) (l : LevelPtr) (o : OrderPtr) : EngineDb :=
  if wrap then db.ordersRemoveWrap l o else db.ordersRemove l o

/-- The adapter, or, if `wrap` is set, the adapter whose removals wrap. -/
def performAs (wrap : Bool) : {α : Type} → Op α → Adapter → Option (α × Adapter)
  | _, .queueRemove l o, s => some ((), { s with db := removeAs wrap s.db l o })
  | _, op, s => s.exec op

/-- Where a removal does not wrap, the two adapters are one. -/
theorem removeAs_eq {wrap : Bool} {db : EngineDb} {l : LevelPtr} {o : OrderPtr}
    (h : wrap = true → (db.orders o).orders_inlist = true ∧
      (db.orders o).remaining_qty ≤ (db.levels l).total_qty) :
    removeAs wrap db l o = db.ordersRemove l o := by
  unfold removeAs
  split
  · exact db.ordersRemoveWrap_eq o l (h ‹_›).1 (h ‹_›).2
  · rfl

/-- A removal that wraps meets its contract. -/
theorem meets_queueRemoveWrap (hv : Valid caps s) {l : LevelH} {o : OrderH}
    (hpre : (Op.queueRemove l o).pre caps s.view) :
    Valid caps { s with db := s.db.ordersRemoveWrap l o } ∧ (Op.queueRemove l o).post caps s.view ()
      ({ s with db := s.db.ordersRemoveWrap l o } : Adapter).view := by
  obtain ⟨g, h⟩ := hv.rep
  obtain ⟨h', honly⟩ := h.ordersRemove (l := l) (p := o) (by rw [← h.queueOf_eq]; exact hpre)
  -- The two removals differ in the total only, which is in no queue and no view.
  have hlast : QueueOnly (s.db.ordersRemove l o) (s.db.ordersRemoveWrap l o) :=
    .setLevel fun _ => rfl
  have honly' := honly.trans hlast
  have hsame : SameQueues (s.db.ordersRemove l o) (s.db.ordersRemoveWrap l o) :=
    .of_level (l := l) rfl rfl rfl rfl rfl
  have h'' := h'.of_queues (h'.queues.congr hsame) h'.queue_live hlast
  refine ⟨hv.of_rep h'' honly'.oPool.total honly'.lPool.total, ?_⟩
  have hview := h.view_queueOnly h'' honly' rfl
  rw [← h.view_queue] at hview
  exact (view_of_db hview).trans rfl

/-! ## Every operation keeps the totals -/

variable {s' : Adapter} {l : LevelH} {o : OrderH}

/-- The totals stay right where neither they nor the queues change. -/
theorem totalled_same (ht : s.db.Totalled) (hlive : s'.view.lLive ⊆ s.view.lLive)
    (hl : ∀ l, (s'.db.levels l).total_qty = (s.db.levels l).total_qty)
    (hv : ∀ l ∈ s'.view.lLive, s'.view.total l = s.view.total l) : s'.db.Totalled := fun l hmem => by
  have hl' : (s'.db.levels l).total_qty.toNat = s.view.total l % 2^64 := hl l ▸ ht l (hlive hmem)
  rw [← hv l hmem] at hl'
  exact hl'

/-- A row that is in no queue is in no total. -/
theorem total_of_free {db' : Db} {x : Option OrderRow} (ho : ¬ s.view.queued o)
    (hq : db'.queue = s.view.queue) (hr : db'.orders = Function.update s.view.orders o x) (l : LevelH) :
    db'.total l = s.view.total l := by
  refine Db.total_congr (congrFun hq l) fun p hp => ?_
  have hne : p ≠ o := fun he => ho ⟨l, he ▸ hp⟩
  rw [hr, Function.update_of_ne hne]

/-- A row that is handed out is in no queue. -/
theorem totalled_orderAlloc (hv : Valid caps s) (ht : s.db.Totalled) {r : Option OrderH}
    (hexec : s.exec .orderAlloc = some (r, s')) (hpost : Op.orderAlloc.post caps s.view r s'.view) :
    s'.db.Totalled := by
  obtain ⟨g, h⟩ := hv.rep
  -- The totals are not written, so it is enough that the new row is in no queue.
  have hlevels : s'.db.levels = s.db.levels := by
    simp only [exec] at hexec
    split at hexec
    · cases hexec
      rfl
    · cases hexec
      unfold EngineDb.orderPoolAlloc
      split <;> rfl
  obtain ⟨-, hpost⟩ := hpost
  cases r with
  | none => exact totalled_same ht (by rw [hpost]) (fun l => by rw [hlevels]) fun l _ => by rw [hpost]
  | some o =>
    obtain ⟨ho, row, hpost⟩ := hpost
    refine totalled_same ht (by rw [hpost]) (fun l => by rw [hlevels]) fun l _ => ?_
    refine total_of_free ?_ (by rw [hpost]) (by rw [hpost]) l
    -- Rows in a queue are live, and this one was dead.
    rintro ⟨m, hm⟩
    have hsome := ((wf h).queue_live m o hm).1
    rw [ho] at hsome
    cases hsome

/-- A level that is handed out starts with a total of zero and an empty queue. -/
theorem totalled_levelAlloc (hv : Valid caps s) (ht : s.db.Totalled) {r : Option LevelH}
    (hexec : s.exec .levelAlloc = some (r, s')) (hpost : Op.levelAlloc.post caps s.view r s'.view) :
    s'.db.Totalled := by
  obtain ⟨g, h⟩ := hv.rep
  obtain ⟨-, hpost⟩ := hpost
  cases r with
  | none =>
    -- Nothing is handed out.
    have hlevels : s'.db.levels = s.db.levels := by
      simp only [exec] at hexec
      split at hexec
      · cases hexec
        rfl
      · unfold EngineDb.levelPoolAlloc at hexec
        split at hexec <;> cases hexec
        rfl
    exact totalled_same ht (by rw [hpost]) (fun l => by rw [hlevels]) fun l _ => by rw [hpost]
  | some m =>
    have hdb : s'.db = s.db.takeLevel m := by
      simp only [exec] at hexec
      split at hexec
      · cases hexec
      · unfold EngineDb.levelPoolAlloc at hexec
        split at hexec <;> cases hexec
        rfl
    obtain ⟨hm, row, hpost⟩ := hpost
    have htotal : ∀ l, s'.view.total l = s.view.total l := fun l =>
      Db.total_congr (by rw [hpost]) fun p _ => by rw [hpost]
    intro l hl
    change l ∈ s'.view.lLive at hl
    change _ = s'.view.total l % 2^64
    -- Only the total of the level that is handed out is written.
    have hqty : (s'.db.levels l).total_qty = if l = m then 0 else (s.db.levels l).total_qty := by
      rw [hdb]
      change ((Function.update s.db.levels m _) l).total_qty = _
      rw [Function.update_apply]
      split <;> rfl
    rw [htotal, hqty]
    split
    · -- A fresh level has no orders.
      subst_vars
      have hnil : s.view.queue l = [] := List.eq_nil_iff_forall_not_mem.mpr fun p hp => by
        have hsome := ((wf h).queue_live l p hp).2
        rw [hm] at hsome
        cases hsome
      rw [Db.total_eq, hnil]
      rfl
    · rw [hpost] at hl
      exact ht l ((Finset.mem_insert.mp hl).resolve_left ‹_›)

/-- A row of the view. -/
theorem view_row {row : OrderRow} (ho : s.view.orders o = some row) : (s.db.orders o).row = row := by
  change s.db.view.orders o = some row at ho
  rw [Rep.view_orders] at ho
  split at ho <;> cases ho
  rfl

/-- The quantity of a row of the view. -/
theorem view_remaining {row : OrderRow} (ho : s.view.orders o = some row) :
    (s.db.orders o).remaining_qty = row.remaining := congrArg OrderRow.remaining (view_row ho)

/-- `ME_order_set_remaining` moves the total with the quantity, and the other fields are in no
total. -/
theorem totalled_orderSet (hv : Valid caps s) (ht : s.db.Totalled) {f : OrderField} {v : UInt64}
    (hexec : s.exec (.orderSet f o v) = some ((), s'))
    (hpost : (Op.orderSet f o v).post caps s.view () s'.view) : s'.db.Totalled := by
  obtain ⟨g, h⟩ := hv.rep
  obtain ⟨row, ho, hpost⟩ := hpost
  have hrow := Db.row_eq ho
  have hset : s'.view = s.view.setRow o (row.set v f) := hpost
  have hlive : s'.view.lLive = s.view.lLive := by rw [hpost]
  -- In the sums only the level of the order can change, and by its remainder.
  have hother : ∀ l, o ∉ s.view.queue l → s'.view.total l = s.view.total l := fun l hl => by
    rw [hset]
    refine Db.total_congr rfl fun p hp => Function.update_of_ne (fun he : p = o => ?_) _ _
    exact hl (he ▸ hp)
  have hqueued : ∀ l, o ∈ s.view.queue l →
      s'.view.total l + row.remaining.toNat = s.view.total l + (row.set v f).remaining.toNat :=
        fun l hl => by
    have hsum := Db.total_setRow (r := row.set v f) ((wf h).queue_nodup l) hl
    rw [← hset, hrow] at hsum
    exact hsum
  -- The heap moves the total for the field `remaining` alone.
  by_cases hf : f = .remaining
  · subst hf
    cases hexec
    have hrem := view_remaining ho
    have hmem : ∀ l, o ∈ s.view.queue l ↔ (s.db.orders o).p_price_level = some l := fun l => by
      change o ∈ s.db.queueOf l ↔ _
      rw [h.queueOf_eq, h.queues.mem]
    -- An order in no queue is in no total.
    cases hown : (s.db.orders o).p_price_level with
    | none =>
      have hlevels : (orderSet s.db o v .remaining).levels = s.db.levels := by
        simp only [orderSet, orderSetRemaining, h.inlist_false hown]
        rfl
      refine totalled_same ht (by rw [hlive]) (fun l => congrArg (·.total_qty) (congrFun hlevels l))
        fun l _ => hother l fun hl => ?_
      rw [hmem, hown] at hl
      cases hl
    | some m =>
      have hin : (s.db.orders o).orders_inlist = true := by rw [h.queues.flag, hown]; rfl
      have hqty : ∀ l, ((orderSet s.db o v .remaining).levels l).total_qty = if l = m
          then (s.db.levels m).total_qty - row.remaining + v else (s.db.levels l).total_qty :=
            fun l => by
        simp only [orderSet, orderSetRemaining, hin, hown, hrem]
        rw [EngineDb.setOrder_levels, EngineDb.setLevel_levels_apply]
        split <;> rfl
      intro l hl
      change l ∈ Db.lLive (view _) at hl
      rw [hlive] at hl
      have htl := ht l hl
      change ((orderSet s.db o v .remaining).levels l).total_qty.toNat = Db.total (view _) l % 2^64
      rw [hqty]
      split
      · rename_i hlm
        subst hlm
        have hsum := hqueued l ((hmem l).mpr hown)
        have hle := Db.le_total ((hmem l).mpr hown)
        rw [hrow] at hle
        change _ = s.view.total l % 2^64 at htl
        change _ = _ + v.toNat at hsum
        have hlt := row.remaining.toNat_lt
        rw [UInt64.toNat_add, UInt64.toNat_sub, htl]
        omega
      · have hne : o ∉ s.view.queue l := fun hl => by
          rw [hmem, hown] at hl
          cases hl
          exact absurd rfl ‹_›
        rw [hother l hne]
        exact htl
  · have hrem : (row.set v f).remaining = row.remaining := by
      cases f <;> first | rfl | exact absurd rfl hf
    have hlevels : s'.db.levels = s.db.levels := by
      cases hexec
      cases f <;> first | rfl | exact absurd rfl hf
    refine totalled_same ht (by rw [hlive]) (fun l => by rw [hlevels]) fun l _ => ?_
    by_cases hl : o ∈ s.view.queue l
    · have := hqueued l hl
      rw [hrem] at this
      omega
    · exact hother l hl

/-- The total grows with the queue. -/
theorem totalled_queueInsertTail (hv : Valid caps s) (ht : s.db.Totalled)
    (hpre : (Op.queueInsertTail l o).pre caps s.view)
    (hexec : s.exec (.queueInsertTail l o) = some ((), s'))
    (hpost : (Op.queueInsertTail l o).post caps s.view () s'.view) : s'.db.Totalled := by
  obtain ⟨g, h⟩ := hv.rep
  obtain ⟨row, ho⟩ := Option.isSome_iff_exists.mp hpre.2.1
  have hin := h.inlist_false (owner_none_of_view h hpre.2.2)
  cases hexec
  intro m hm
  change m ∈ Db.lLive (view _) at hm
  change ((s.db.ordersInsertTail l o).levels m).total_qty.toNat = Db.total (view _) m % 2^64
  rw [hpost] at hm ⊢
  have htm := ht m hm
  change _ = s.view.total m % 2^64 at htm
  -- Total and sum both grow by the remainder, one of them modulo `2^64`.
  rw [EngineDb.ordersInsertTail_total _ _ _ _ hin, Db.total_eq]
  change _ = ((Function.update s.view.queue l (s.view.queue l ++ [o]) m).map fun p =>
    (s.view.row p).remaining.toNat).sum % 2^64
  split
  · rename_i hml
    subst hml
    rw [Function.update_self, List.map_append, List.sum_append, ← Db.total_eq, List.map_singleton,
      List.sum_singleton, Db.row_eq ho, UInt64.toNat_add, htm, view_remaining ho]
    omega
  · rename_i hml
    rw [Function.update_of_ne hml, ← Db.total_eq]
    exact htm

/-- A removal that wraps takes from the total what the queue loses. -/
theorem totalled_queueRemove (hv : Valid caps s) (ht : s.db.Totalled)
    (hpre : (Op.queueRemove l o).pre caps s.view)
    (hpost : (Op.queueRemove l o).post caps s.view ()
      ({ s with db := s.db.ordersRemoveWrap l o } : Adapter).view) :
    (s.db.ordersRemoveWrap l o).Totalled := by
  obtain ⟨g, h⟩ := hv.rep
  change o ∈ s.view.queue l at hpre
  obtain ⟨row, ho⟩ := Option.isSome_iff_exists.mp ((wf h).queue_live l o hpre).1
  have hin : (s.db.orders o).orders_inlist = true := by
    have hmem : o ∈ s.db.queueOf l := hpre
    rw [h.queueOf_eq, h.queues.mem] at hmem
    rw [h.queues.flag, hmem]
    rfl
  intro m hm
  change m ∈ Db.lLive (view { s with db := s.db.ordersRemoveWrap l o }) at hm
  change ((s.db.ordersRemoveWrap l o).levels m).total_qty.toNat =
    Db.total (view { s with db := s.db.ordersRemoveWrap l o }) m % 2^64
  rw [hpost] at hm ⊢
  have htm := ht m hm
  change _ = s.view.total m % 2^64 at htm
  unfold EngineDb.ordersRemoveWrap
  rw [EngineDb.setLevel_levels_apply, Db.total_eq]
  change _ = ((Function.update s.view.queue l ((s.view.queue l).erase o) m).map fun p =>
    (s.view.row p).remaining.toNat).sum % 2^64
  split
  · rename_i hml
    subst hml
    -- The sum loses the remainder of the order, and so does the total.
    have hsplit := Db.total_split hpre
    have hle := Db.le_total hpre
    rw [Function.update_self]
    rw [Db.row_eq ho] at hsplit hle
    dsimp only
    have hlt := row.remaining.toNat_lt
    rw [UInt64.toNat_sub, htm, view_remaining ho]
    omega
  · rename_i hml
    rw [Function.update_of_ne hml, ← Db.total_eq, EngineDb.ordersRemove_total _ _ _ _ hin, if_neg hml]
    exact htm

/-- The totals stay right where no level is allocated, no row of a queue changes, and the totals are
kept. -/
theorem totalled_frame (ht : s.db.Totalled) (hlive : s'.view.lLive ⊆ s.view.lLive)
    (hl : ∀ l, (s'.db.levels l).total_qty = (s.db.levels l).total_qty)
    (hq : s'.view.queue = s.view.queue)
    (hr : ∀ l, ∀ o ∈ s.view.queue l, s'.view.orders o = s.view.orders o) : s'.db.Totalled :=
  totalled_same ht hlive hl fun l _ => Db.total_congr (congrFun hq l) (hr l)

/-- An order that is freed is in no queue. -/
theorem totalled_orderFree (ht : s.db.Totalled) (hpre : (Op.orderFree o).pre caps s.view)
    (hexec : s.exec (.orderFree o) = some ((), s'))
    (hpost : (Op.orderFree o).post caps s.view () s'.view) : s'.db.Totalled := by
  refine totalled_frame ht (by rw [hpost]) (fun l => by cases hexec; rfl) (by rw [hpost]) ?_
  intro l p hp
  rw [hpost]
  exact Function.update_of_ne (fun he : p = o => hpre.2.1 ⟨l, he ▸ hp⟩) _ _

/-- A level that is freed has no total any more. -/
theorem totalled_levelFree (ht : s.db.Totalled) (hexec : s.exec (.levelFree l) = some ((), s'))
    (hpost : (Op.levelFree l).post caps s.view () s'.view) : s'.db.Totalled := by
  refine totalled_frame ht (by rw [hpost]; exact Finset.erase_subset _ _) (fun m => ?_)
    (by rw [hpost]) fun _ _ _ => by rw [hpost]
  cases hexec
  exact update_field (g := (s.db.levelPoolFree l).levels) rfl (·.total_qty) rfl m

/-- A price is in no total. -/
theorem totalled_levelSetPrice (ht : s.db.Totalled) {v : UInt64}
    (hexec : s.exec (.levelSetPrice l v) = some ((), s'))
    (hpost : (Op.levelSetPrice l v).post caps s.view () s'.view) : s'.db.Totalled := by
  refine totalled_frame ht (by rw [hpost]) (fun m => ?_) (by rw [hpost]) fun _ _ _ => by rw [hpost]
  cases hexec
  exact update_field (g := (s.db.setLevel l fun w => { w with price := v }).levels) rfl
    (·.total_qty) rfl m

/-- The index is in no total. -/
theorem totalled_hashInsert (ht : s.db.Totalled) {r : Bool}
    (hexec : s.exec (.hashInsert o) = some (r, s'))
    (hpost : (Op.hashInsert o).post caps s.view r s'.view) : s'.db.Totalled := by
  have hview : s'.view.queue = s.view.queue ∧ s'.view.orders = s.view.orders ∧
      s'.view.lLive = s.view.lLive := by
    simp only [Op.post] at hpost
    split at hpost <;> (rw [hpost.2]; exact ⟨rfl, rfl, rfl⟩)
  simp only [exec] at hexec
  obtain ⟨r', hr, hexec⟩ := Option.map_eq_some_iff.mp hexec
  cases hexec
  refine totalled_frame ht (by rw [hview.2.2]) (fun l => ?_) hview.1 fun _ _ _ => by rw [hview.2.1]
  exact congrArg (·.total_qty) (congrFun (EngineDb.indOrderInsertMaybe_only hr).levels l)

/-- Neither when an order leaves it. -/
theorem totalled_hashRemove (ht : s.db.Totalled) (hexec : s.exec (.hashRemove o) = some ((), s'))
    (hpost : (Op.hashRemove o).post caps s.view () s'.view) : s'.db.Totalled := by
  simp only [exec] at hexec
  obtain ⟨r', hr, hexec⟩ := Option.map_eq_some_iff.mp hexec
  cases hexec
  refine totalled_frame ht (by rw [hpost]) (fun l => ?_) (by rw [hpost]) fun _ _ _ => by rw [hpost]
  exact congrArg (·.total_qty) (congrFun (EngineDb.indOrderRemove_only hr).levels l)

/-- The trees are in no total. -/
theorem totalled_treeInsert (hv : Valid caps s) (ht : s.db.Totalled) {t : Tree}
    (hpre : (Op.treeInsert t l).pre caps s.view)
    (hexec : s.exec (.treeInsert t l) = some ((), s'))
    (hpost : (Op.treeInsert t l).post caps s.view () s'.view) : s'.db.Totalled := by
  obtain ⟨g, h⟩ := hv.rep
  obtain ⟨hlive, hno, hnew⟩ := hpre
  have hl := Rep.view_levels_isSome.mp hlive
  obtain ⟨db', u, as, bs, hcode, honly, -⟩ := h.insertIn t hl (intree_false_of_view h hno)
    fun m hm hp => by
      refine hnew m (h.mem_tree.mpr hm) ?_
      exact (Rep.view_levelPrice (h.tree_live t m hm)).trans (hp.trans (Rep.view_levelPrice hl).symm)
  simp only [exec, hcode, Option.map_some] at hexec
  cases hexec
  exact totalled_frame ht (by rw [hpost]) (fun m => by rw [honly.levels m]) (by rw [hpost])
    fun _ _ _ => by rw [hpost]

/-- Neither when a level leaves one. -/
theorem totalled_treeRemove (hv : Valid caps s) (ht : s.db.Totalled) {t : Tree}
    (hpre : (Op.treeRemove t l).pre caps s.view)
    (hexec : s.exec (.treeRemove t l) = some ((), s'))
    (hpost : (Op.treeRemove t l).post caps s.view () s'.view) : s'.db.Totalled := by
  obtain ⟨g, h⟩ := hv.rep
  obtain ⟨db', u, hcode, honly, -⟩ := h.removeFrom t (h.mem_tree.mp hpre)
  simp only [exec, hcode, Option.map_some] at hexec
  cases hexec
  exact totalled_frame ht (by rw [hpost]) (fun m => by rw [honly.levels m]) (by rw [hpost])
    fun _ _ _ => by rw [hpost]

/-- Within its precondition every operation of either adapter returns and meets its postcondition,
and those whose removals wrap keep the totals right. -/
theorem lawAs (wrap : Bool) (hv : Valid caps s) {α : Type} (op : Op α) (hpre : op.pre caps s.view) :
    ∃ r s', performAs wrap op s = some (r, s') ∧ Valid caps s' ∧ s'.db.orderRows = s.db.orderRows ∧
      op.post caps s.view r s'.view ∧ (wrap = true → s.db.Totalled → s'.db.Totalled) := by
  -- All operations but one are those of the adapter.
  have hexec : performAs wrap op s = s.exec op → (∀ r s', s.exec op = some (r, s') →
      op.post caps s.view r s'.view → s.db.Totalled → s'.db.Totalled) →
      ∃ r s', performAs wrap op s = some (r, s') ∧ Valid caps s' ∧ s'.db.orderRows = s.db.orderRows ∧
        op.post caps s.view r s'.view ∧ (wrap = true → s.db.Totalled → s'.db.Totalled) := by
    intro heq htotal
    obtain ⟨r, s', hexec, hv', hpost⟩ := law hv op hpre
    exact ⟨r, s', heq.trans hexec, hv', (exec_rows hexec).1, hpost, fun _ => htotal r s' hexec hpost⟩
  cases op with
  | capacity | orderCount | orderGet | levelGetPrice | levelGetCount | queueFirst | queueNext
  | orderOwner | tradeReset =>
    refine hexec rfl fun r s' he _ ht => ?_
    cases he
    exact ht
  | hashFind | treeFind | treeBest =>
    refine hexec rfl fun r s' he _ ht => ?_
    simp only [exec] at he
    obtain ⟨_, -, he⟩ := Option.map_eq_some_iff.mp he
    cases he
    exact ht
  | tradeEmit =>
    refine hexec rfl fun r s' he _ ht => ?_
    simp only [exec] at he
    split at he <;> cases he
    exact ht
  | orderAlloc => exact hexec rfl fun _ _ he hpost ht => totalled_orderAlloc hv ht he hpost
  | orderFree o => exact hexec rfl fun _ _ he hpost ht => totalled_orderFree ht hpre he hpost
  | levelAlloc => exact hexec rfl fun _ _ he hpost ht => totalled_levelAlloc hv ht he hpost
  | levelFree l => exact hexec rfl fun _ _ he hpost ht => totalled_levelFree ht he hpost
  | orderSet f o v => exact hexec rfl fun _ _ he hpost ht => totalled_orderSet hv ht he hpost
  | levelSetPrice l v => exact hexec rfl fun _ _ he hpost ht => totalled_levelSetPrice ht he hpost
  | hashInsert o => exact hexec rfl fun _ _ he hpost ht => totalled_hashInsert ht he hpost
  | hashRemove o => exact hexec rfl fun _ _ he hpost ht => totalled_hashRemove ht he hpost
  | queueInsertTail l o =>
    exact hexec rfl fun _ _ he hpost ht => totalled_queueInsertTail hv ht hpre he hpost
  | treeInsert t l => exact hexec rfl fun _ _ he hpost ht => totalled_treeInsert hv ht hpre he hpost
  | treeRemove t l => exact hexec rfl fun _ _ he hpost ht => totalled_treeRemove hv ht hpre he hpost
  | queueRemove l o =>
    cases wrap with
    | false =>
      obtain ⟨r, s', he, hv', hpost⟩ := law hv (.queueRemove l o) hpre
      exact ⟨r, s', he, hv', (exec_rows he).1, hpost, fun h => absurd h Bool.false_ne_true⟩
    | true =>
      obtain ⟨hv', hpost⟩ := meets_queueRemoveWrap hv hpre
      refine ⟨(), _, rfl, hv', ?_, hpost, fun _ ht => totalled_queueRemove hv ht hpre hpost⟩
      exact EngineDb.ordersRemove_rows ..

/-- An empty store has no totals. -/
theorem totalled_of_empty (he : s.view = Db.empty) : s.db.Totalled := fun l hl => by
  change l ∈ s.view.lLive at hl
  rw [he] at hl
  exact absurd hl (Finset.notMem_empty l)

/-- Either adapter from any valid and empty state as a storage layer. It reserves no more rows. -/
def storeAs (wrap : Bool) {s₀ : Adapter} (hv : Valid caps s₀) (he : s₀.view = Db.empty) :
    Store caps Adapter where
  exec := performAs wrap
  init := s₀
  view := view
  valid s := Valid caps s ∧ s.db.orderRows = s₀.db.orderRows ∧ (wrap = true → s.db.Totalled)
  valid_init := ⟨hv, rfl, fun _ => totalled_of_empty he⟩
  view_init := he
  wf _ hv := hv.1.rep.elim fun _ h => wf h
  law _ op hv hpre := by
    obtain ⟨r, s', hexec, hv', hrows, hpost, ht⟩ := lawAs wrap hv.1 op hpre
    exact ⟨r, s', hexec, ⟨hv', hrows.trans hv.2.1, fun hw => ht hw (hv.2.2 hw)⟩, hpost⟩

end Adapter

end C

end MatchingEngine
