import Mathlib.Algebra.Group.Action.Defs
import Mathlib.Algebra.Order.BigOperators.Group.List
import Mathlib.Algebra.Order.Group.Nat
import MatchingEngine.C.Totals
import MatchingEngine.Gen.Safe

/-!
# The totals of the generated matcher are exact

The gate on quantities keeps every remaining quantity at most `(2^64 - 1) / (cap + 1)`, and at most
`cap` orders rest, so the sum of a level's quantities is below `2^64`. None of the additions and
subtractions that keep `total_qty` wraps or stops at zero.

`Gated` is the condition on a store: its remaining quantities are within the gate and it holds no
more orders than the cap. Each operation that the generated matcher calls keeps it (`Gated.step`),
and `Tracked` of `Gen/Guard.lean` carries it through the programs, so it holds at each operation in
the middle of a call and not only between two. From it come the sum below `2^64`, the stored total
equal to it, and no subtraction below zero.
-/

namespace MatchingEngine

open Contract Lib

namespace C

/-- The total of every live level is the sum of the remaining quantities of its orders. -/
def EngineDb.Summed (db : EngineDb) : Prop :=
  ∀ l ∈ db.view.lLive, (db.levels l).total_qty.toNat = db.view.total l

namespace Adapter

/-- The arithmetic of an operation on a total: an order that is added does not wrap it, one that is
removed is at most the total, and one whose quantity is rewritten does both. -/
def Exact (s : Adapter) : {α : Type} → Op α → Prop
  | _, .queueInsertTail l o =>
    (s.db.levels l).total_qty.toNat + (s.db.orders o).remaining_qty.toNat < 2^64
  | _, .queueRemove l o => (s.db.orders o).remaining_qty ≤ (s.db.levels l).total_qty
  | _, .orderSet .remaining o v => ∀ l, (s.db.orders o).orders_inlist = true →
      (s.db.orders o).p_price_level = some l →
        (s.db.orders o).remaining_qty ≤ (s.db.levels l).total_qty ∧
          ((s.db.levels l).total_qty - (s.db.orders o).remaining_qty).toNat + v.toNat < 2^64
  | _, _ => True

/-- The largest quantity that the gate of the matcher admits. -/
def gate (capacity : UInt64) : UInt64 := 18446744073709551615 / (capacity + 1)

/-- As many orders as may rest, of the largest quantity, stay below `2^64`. -/
theorem gate_mul_lt {capacity : UInt64} (h : capacity.toNat + 1 < 2^64) :
    capacity.toNat * (gate capacity).toNat + (gate capacity).toNat < 2^64 := by
  have hbound : (capacity + 1).toNat = capacity.toNat + 1 := by
    rw [UInt64.toNat_add, UInt64.toNat_one, Nat.mod_eq_of_lt h]
  have hgate : (gate capacity).toNat = (2^64 - 1) / (capacity.toNat + 1) := by
    unfold gate
    rw [UInt64.toNat_div, hbound]
    rfl
  have hle := Nat.mul_div_le (2^64 - 1) (capacity.toNat + 1)
  rw [Nat.add_one_mul, ← hgate] at hle
  omega

section Remaining

variable {caps : Caps} {s s' : Adapter} {m : UInt64} {α : Type} {op : Op α} {r : α}

/-- The quantities on the heap stay at most `m` when at most `m` is written. -/
theorem exec_remaining (hv : Valid caps s) (hpre : op.pre caps s.view) (hw : op.Within m)
    (hexec : s.exec op = some (r, s')) (hle : ∀ p, (s.db.orders p).remaining_qty ≤ m) :
    ∀ p, (s'.db.orders p).remaining_qty ≤ m := by
  obtain ⟨g, h⟩ := hv.rep
  have hsame : (∀ p, (s'.db.orders p).remaining_qty = (s.db.orders p).remaining_qty) →
      ∀ p, (s'.db.orders p).remaining_qty ≤ m := fun heq p => by
    rw [heq]
    exact hle p
  -- Only a write of the field and the taking of a fresh row need an argument.
  cases op with
  | capacity | orderCount | orderGet | levelGetPrice | levelGetCount | queueFirst | queueNext
  | orderOwner | tradeReset | levelFree | levelSetPrice =>
    cases hexec
    exact hle
  | hashFind | treeFind | treeBest =>
    simp only [exec] at hexec
    obtain ⟨_, -, he⟩ := Option.map_eq_some_iff.mp hexec
    cases he
    exact hle
  | tradeEmit =>
    simp only [exec] at hexec
    split at hexec <;> cases hexec
    exact hle
  | levelAlloc =>
    simp only [exec] at hexec
    split at hexec
    · cases hexec
      exact hle
    · cases hexec
      unfold EngineDb.levelPoolAlloc
      split <;> exact hle
  -- A row that is handed out keeps its payload.
  | orderAlloc =>
    simp only [exec] at hexec
    split at hexec
    · cases hexec
      exact hle
    · cases hexec
      unfold EngineDb.orderPoolAlloc
      split
      · exact hle
      · rename_i q _
        intro p
        refine (update_field (g := (s.db.takeOrder q).orders) rfl (·.remaining_qty) rfl p).trans_le ?_
        exact hle p
  | orderFree o =>
    cases hexec
    exact hsame (update_field (g := (s.db.orderPoolFree o).orders) rfl (·.remaining_qty) rfl)
  -- The one write of a remainder, which `hw` bounds.
  | orderSet f o v =>
    cases hexec
    cases f with
    | remaining =>
      intro p
      change ((orderSetRemaining s.db o v).orders p).remaining_qty ≤ m
      unfold orderSetRemaining
      rw [EngineDb.setOrder_orders_apply]
      split
      · exact hw
      · split <;> exact hle p
    | id | account | side | stp_mode | price | qty =>
      exact hsame (update_field (f := s.db.orders) rfl (·.remaining_qty) rfl)
  | hashInsert =>
    simp only [exec] at hexec
    obtain ⟨_, hr, he⟩ := Option.map_eq_some_iff.mp hexec
    cases he
    refine hsame fun p => ?_
    exact congrArg (·.remaining_qty) ((EngineDb.indOrderInsertMaybe_only hr).orders p)
  | hashRemove =>
    simp only [exec] at hexec
    obtain ⟨_, hr, he⟩ := Option.map_eq_some_iff.mp hexec
    cases he
    refine hsame fun p => ?_
    exact congrArg (·.remaining_qty) ((EngineDb.indOrderRemove_only hr).orders p)
  | queueInsertTail l o =>
    cases hexec
    refine hsame fun p => ?_
    have hin := h.inlist_false (owner_none_of_view h hpre.2.2)
    exact congrArg (·.remaining_qty) ((EngineDb.ordersInsertTail_only hin).orders p)
  | queueRemove l o =>
    cases hexec
    refine hsame fun p => ?_
    obtain ⟨-, honly⟩ := h.ordersRemove (l := l) (p := o) (by rw [← h.queueOf_eq]; exact hpre)
    exact congrArg (·.remaining_qty) (honly.orders p)
  -- The trees and their nodes hold no quantities.
  | treeInsert t l =>
    obtain ⟨hlive, hno, hnew⟩ := hpre
    have hl := Rep.view_levels_isSome.mp hlive
    obtain ⟨db', u, as, bs, hcode, honly, -⟩ := h.insertIn t hl (intree_false_of_view h hno)
      fun m hm hp => by
        refine hnew m (h.mem_tree.mpr hm) ?_
        exact (Rep.view_levelPrice (h.tree_live t m hm)).trans (hp.trans (Rep.view_levelPrice hl).symm)
    simp only [exec, hcode, Option.map_some] at hexec
    cases hexec
    exact hsame fun p => congrArg (·.remaining_qty) (congrFun honly.orders p)
  | treeRemove t l =>
    obtain ⟨db', u, hcode, honly, -⟩ := h.removeFrom t (h.mem_tree.mp hpre)
    simp only [exec, hcode, Option.map_some] at hexec
    cases hexec
    exact hsame fun p => congrArg (·.remaining_qty) (congrFun honly.orders p)

/-- A reservation zeroes the rows that it adds. -/
theorem orderPoolReserveMem_remaining {db : EngineDb} (c : Bool) (n : UInt64)
    (hle : ∀ p, (db.orders p).remaining_qty ≤ m) :
    ∀ p, ((db.orderPoolReserveMem c n).2.orders p).remaining_qty ≤ m := by
  have hpush : ∀ i p, ((db.pushFreeOrders db.order_pool_total_allocated.toNat i).orders p).remaining_qty
      ≤ m := by
    intro i
    induction i with
    | zero => exact hle
    | succ i ih =>
      intro p
      unfold EngineDb.pushFreeOrders
      dsimp only
      rw [Function.update_apply]
      split
      · exact UInt64.zero_le
      · exact ih p
  unfold EngineDb.orderPoolReserveMem
  split
  · exact hle
  split
  · exact hle
  · exact hpush n.toNat

/-- No row of the adapter holds a quantity at the start. -/
theorem init_remaining {calloc : AdapterCalloc} {capacity : UInt64}
    (hinit : init calloc capacity = some s) : ∀ p, (s.db.orders p).remaining_qty ≤ m := by
  have hlevels : ∀ {db : EngineDb} (c : Bool) (n : UInt64),
      (db.levelPoolReserveMem c n).2.orders = db.orders := fun c n => by
    rw [EngineDb.levelPoolReserveMem_eq]
  -- The first chunk is zeroed, and so is the one that the adapter reserves.
  have hfirst : ∀ p, ((EngineDb.init calloc.toCalloc).orders p).remaining_qty ≤ m := by
    intro p
    unfold EngineDb.init
    dsimp only
    rw [hlevels]
    exact orderPoolReserveMem_remaining _ _ (fun _ => UInt64.zero_le) p
  simp only [init, Option.bind_eq_bind, Option.bind_eq_some_iff] at hinit
  obtain ⟨db₁, h₁, db₂, h₂, hs⟩ := hinit
  split at hs <;> cases hs
  have horders₁ : ∀ p, (db₁.orders p).remaining_qty ≤ m := by
    unfold reserveOrders at h₁
    split at h₁
    · dsimp only at h₁
      split at h₁ <;> cases h₁
      exact orderPoolReserveMem_remaining _ _ hfirst
    · cases h₁
      exact hfirst
  unfold reserveLevels at h₂
  split at h₂
  · dsimp only at h₂
    split at h₂ <;> cases h₂
    rw [hlevels]
    exact horders₁
  · cases h₂
    exact horders₁

end Remaining

/-! ## Exact totals -/

/-- The states that the gated matcher keeps the adapter in. -/
structure Gated (capacity : UInt64) (s : Adapter) : Prop where
  valid : Valid (.uniform capacity.toNat) s
  totalled : s.db.Totalled
  remaining : ∀ p, (s.db.orders p).remaining_qty ≤ gate capacity
  room : s.view.oLive.card ≤ capacity.toNat

section Gated

variable {capacity : UInt64} {s s' : Adapter} {l : LevelH} {o : OrderH}

/-- The store of such a state is well formed. -/
theorem Gated.wf (h : Gated capacity s) : s.view.WF := h.valid.rep.elim fun _ hrep => Adapter.wf hrep

/-- A quantity of the view is the quantity on the heap. -/
theorem row_remaining (ho : (s.view.orders o).isSome) :
    (s.view.row o).remaining = (s.db.orders o).remaining_qty := by
  obtain ⟨row, hrow⟩ := Option.isSome_iff_exists.mp ho
  rw [view_remaining hrow, Db.row_eq hrow]

/-- The sum of a queue is at most its length times the gate. -/
theorem Gated.total_le (h : Gated capacity s) (l : LevelH) :
    s.view.total l ≤ (s.view.queue l).length * (gate capacity).toNat := by
  rw [Db.total_eq]
  refine (List.sum_le_card_nsmul _ (gate capacity).toNat fun x hx => ?_).trans_eq ?_
  · obtain ⟨o, ho, rfl⟩ := List.mem_map.mp hx
    rw [row_remaining (h.wf.queue_live l o ho).1]
    exact UInt64.le_iff_toNat_le.mp (h.remaining o)
  · rw [List.length_map, smul_eq_mul]

/-- A queue has at most as many orders as the capacity. -/
theorem Gated.length_le (h : Gated capacity s) (l : LevelH) :
    (s.view.queue l).length ≤ capacity.toNat := by
  rw [← List.toFinset_card_of_nodup (h.wf.queue_nodup l)]
  refine (Finset.card_le_card fun o ho => ?_).trans h.room
  exact (h.wf.orders_live o).mp (h.wf.queue_live l o (List.mem_toFinset.mp ho)).1

/-- Every sum is small enough to stay one with another order of a quantity up to the gate. -/
theorem Gated.total_lt (hcap : capacity.toNat + 1 < 2^64) (h : Gated capacity s) (l : LevelH) :
    s.view.total l + (gate capacity).toNat < 2^64 := by
  have hmul := Nat.mul_le_mul_right (gate capacity).toNat (h.length_le l)
  have hle := h.total_le l
  have hlt := gate_mul_lt hcap
  omega

/-- The totals are exact. -/
theorem Gated.summed (hcap : capacity.toNat + 1 < 2^64) (h : Gated capacity s) : s.db.Summed := by
  intro l hl
  have hlt := h.total_lt hcap l
  rw [h.totalled l hl, Nat.mod_eq_of_lt]
  exact lt_of_le_of_lt (Nat.le_add_right _ _) hlt

/-- An order of a queue is at most its total. -/
theorem Gated.remaining_le (hcap : capacity.toNat + 1 < 2^64) (h : Gated capacity s)
    (ho : o ∈ s.view.queue l) : (s.db.orders o).remaining_qty ≤ (s.db.levels l).total_qty := by
  obtain ⟨horder, hlevel⟩ := h.wf.queue_live l o ho
  rw [UInt64.le_iff_toNat_le, h.summed hcap l ((h.wf.levels_live l).mp hlevel), ← row_remaining horder]
  exact Db.le_total ho

/-- What a call within its precondition does to a total is exact. -/
theorem Gated.exact (hcap : capacity.toNat + 1 < 2^64) (h : Gated capacity s) {α : Type} {op : Op α}
    (hpre : op.pre (.uniform capacity.toNat) s.view) (hw : op.Within (gate capacity)) :
    s.Exact op := by
  obtain ⟨g, hrep⟩ := h.valid.rep
  cases op with
  -- Every remainder is within the gate, so the sum over a full book fits.
  | queueInsertTail l o =>
    have hlt := h.total_lt hcap l
    have hle := UInt64.le_iff_toNat_le.mp (h.remaining o)
    change _ + _ < _
    rw [h.summed hcap l ((h.wf.levels_live l).mp hpre.1)]
    change s.view.total l + _ < _
    omega
  | queueRemove l o => exact h.remaining_le hcap hpre
  | orderSet f o v =>
    cases f with
    -- The old remainder goes out of the sum and the new one into it.
    | remaining =>
      intro l hin howner
      have hmem : o ∈ s.view.queue l := by
        change o ∈ s.db.queueOf l
        rw [hrep.queueOf_eq, hrep.queues.mem]
        exact howner
      have hlive := (h.wf.levels_live l).mp (h.wf.queue_live l o hmem).2
      have hle := h.remaining_le hcap hmem
      have hlt := h.total_lt hcap l
      have hv := UInt64.le_iff_toNat_le.mp hw
      refine ⟨hle, ?_⟩
      rw [UInt64.toNat_sub_of_le _ _ hle, h.summed hcap l hlive]
      change s.view.total l - _ + _ < _
      omega
    | _ => trivial
  | _ => trivial

/-- An operation whose arithmetic is exact is that of the adapter whose removals wrap. -/
theorem performAs_eq (hv : Valid (.uniform capacity.toNat) s) {α : Type} {op : Op α}
    (hpre : op.pre (.uniform capacity.toNat) s.view) (hexact : s.Exact op) :
    performAs true op s = s.exec op := by
  obtain ⟨g, hrep⟩ := hv.rep
  cases op with
  | queueRemove l o =>
    have hin : (s.db.orders o).orders_inlist = true := by
      have hmem : o ∈ s.db.queueOf l := hpre
      rw [hrep.queueOf_eq, hrep.queues.mem] at hmem
      rw [hrep.queues.flag, hmem]
      rfl
    change some ((), { s with db := removeAs true s.db l o }) = _
    rw [removeAs_eq fun _ => ⟨hin, hexact⟩]
    rfl
  | _ => rfl

/-- A call keeps the states of the gated matcher. -/
theorem Gated.step (hcap : capacity.toNat + 1 < 2^64) (h : Gated capacity s) {α : Type} {op : Op α}
    {r : α} (hpre : op.pre (.uniform capacity.toNat) s.view) (hw : op.Within (gate capacity))
    (hexec : s.exec op = some (r, s')) : Gated capacity s' := by
  obtain ⟨r', s'', hrun, hv', -, hpost, htotal⟩ := lawAs true h.valid op hpre
  rw [performAs_eq h.valid hpre (h.exact hcap hpre hw), hexec] at hrun
  cases hrun
  refine ⟨hv', htotal rfl h.totalled, exec_remaining h.valid hpre hw hexec h.remaining, ?_⟩
  have hcard := Op.post_orders_card h.wf op hpre hpost
  have hroom := h.room
  by_cases hpos : 0 < op.orderDelta r
  · -- Only an allocation adds an order, and it has found room.
    cases op with
    | orderAlloc =>
      obtain ⟨hfull, -⟩ := hpost
      have hsome : r ≠ none := fun hr => by
        rw [hr] at hpos
        exact lt_irrefl _ hpos
      have hlt : s.view.oLive.card < capacity.toNat := not_le.mp fun hle => hsome (hfull.mpr hle)
      have hone : Op.orderAlloc.orderDelta r ≤ 1 := by
        unfold Op.orderDelta
        split <;> omega
      omega
    | _ => simp [Op.orderDelta] at hpos
  · omega

/-- The calls of the gated matcher are exact. -/
theorem tracked_gated (hcap : capacity.toNat + 1 < 2^64) :
    Gen.Tracked (checked (fun op s => op.Meets (.uniform capacity.toNat) s.view)
        fun op s => Adapter.exec s op)
      (checked (fun op s => op.Meets (.uniform capacity.toNat) s.view ∧ s.db.Summed ∧ s.Exact op)
        fun op s => Adapter.exec s op) (Gated capacity) (gate capacity) := by
  intro α op s r s' hg hw he
  obtain ⟨hmeets, hexec⟩ := checked_eq_some.mp he
  refine ⟨?_, hg.step hcap hmeets.1 hw hexec, ?_⟩
  · exact checked_eq_some.mpr ⟨⟨hmeets, hg.summed hcap, hg.exact hcap hmeets.1 hw⟩, hexec⟩
  · cases op with
    | capacity =>
      cases hexec
      have hcap_eq : s.g_cap = capacity := UInt64.toNat_inj.mp hg.valid.cap_eq
      change 18446744073709551615 / (s.g_cap + 1) ≤ gate capacity
      rw [hcap_eq]
      exact UInt64.le_refl _
    | orderGet f o =>
      cases hexec
      cases f with
      | remaining => exact hg.remaining o
      | _ => trivial
    | _ => trivial

/-- The state after `ME_adapter_init`. -/
theorem Gated.init {calloc : AdapterCalloc} {s₀ : Adapter} (hcap : capacity.toNat < 2^32)
    (hinit : Adapter.init calloc capacity = some s₀) : Gated capacity s₀ where
  valid := (valid_init hcap hinit).1
  totalled := totalled_of_empty (valid_init hcap hinit).2
  remaining := init_remaining hinit
  room := by
    rw [(valid_init hcap hinit).2]
    exact Nat.zero_le _

end Gated

end Adapter

end C

namespace Gen

/-- A call of the matcher keeps the totals exact. -/
theorem Ready.gated {calloc : C.AdapterCalloc} {capacity : UInt64} {s₀ : C.Adapter}
    {s s' : State C.Adapter} {b : Book} {r : UInt64} (hcap : capacity.toNat < 2^32)
    (hinit : C.Adapter.init calloc capacity = some s₀) (h : Ready (C.Adapter.store hcap hinit) s b)
    (hg : C.Adapter.Gated capacity s.store) {c : GenCall}
    (hrun : c.run (fun op s => C.Adapter.exec s op) s = some (r, s')) :
    C.Adapter.Gated capacity s'.store := by
  have hcap' : capacity.toNat + 1 < 2^64 := by omega
  obtain ⟨r', s'', hchecked, hrun'⟩ := h.guarded hcap' c
  cases hrun.symm.trans hrun'
  exact (c.tracks (C.Adapter.tracked_gated hcap') _ _ _ hg hchecked).2.1

/-- The totals of the generated matcher over the adapter are exact: in every state that calls reach
from `ME_adapter_init` with a capacity that leaves room for one more below `2^32`, every level's
`total_qty` is the sum of its orders' remaining quantities, and a call with any arguments returns
alike when an operation whose arithmetic on a total would wrap, stop at zero, or start from a total
that is not the sum, does not return. -/
theorem totals_exact {calloc : C.AdapterCalloc} {capacity : UInt64} {s₀ : C.Adapter}
    {s : State C.Adapter} (hcap : capacity.toNat + 1 < 2^32)
    (hinit : C.Adapter.init calloc capacity = some s₀)
    (h : GenReach (GenCall.run fun op s => C.Adapter.exec s op) s₀ s) :
    s.store.db.Summed ∧ ∀ c : GenCall, ∃ r s',
      c.run (checked (fun op s => op.Meets (.uniform capacity.toNat) s.view ∧ s.db.Summed ∧ s.Exact op)
        fun op s => C.Adapter.exec s op) s = some (r, s') ∧
      c.run (fun op s => C.Adapter.exec s op) s = some (r, s') := by
  have hcap' : capacity.toNat + 1 < 2^64 := lt_trans hcap (by decide)
  have hlt : capacity.toNat < 2^32 := lt_trans (Nat.lt_succ_self _) hcap
  let st := C.Adapter.store hlt hinit
  have hready : ∀ {s}, GenReach (GenCall.run st.exec) st.init s → ∃ b, Ready st s b :=
    fun h => h.ready hcap'
  have hgated : C.Adapter.Gated capacity s.store := by
    induction h with
    | init => exact .init hlt hinit
    | call c h hrun ih =>
      obtain ⟨b, hb⟩ := hready h
      exact hb.gated hlt hinit ih hrun
  refine ⟨hgated.summed hcap', fun c => ?_⟩
  obtain ⟨b, hb⟩ := hready h
  obtain ⟨r, s', hchecked, hrun⟩ := hb.guarded hcap' c
  exact ⟨r, s', (c.tracks (C.Adapter.tracked_gated hcap') _ _ _ hgated hchecked).1, hrun⟩

/-- The state after the session, where the level of the best price holds two orders that sum to its
total. -/
theorem totals_exact_session :
    ∃ s₀ s, C.Adapter.init ⟨⟨false, false⟩, true, true, true⟩ 4 = some s₀ ∧
      GenReach (GenCall.run fun op s => C.Adapter.exec s op) s₀ s ∧
      s.store.db.queueOf 3 = [3, 2] ∧ (s.store.db.levels 3).total_qty = 7 ∧ s.store.db.Summed ∧
      ∀ c : GenCall, ∃ r s',
        c.run (checked (fun op s => op.Meets (.uniform 4) s.view ∧ s.db.Summed ∧ s.Exact op)
          fun op s => C.Adapter.exec s op) s = some (r, s') ∧
        c.run (fun op s => C.Adapter.exec s op) s = some (r, s') := by
  obtain ⟨s₀, s, hinit, hreach, -, hqueue, htotal⟩ := session_reach
  have h := totals_exact (by decide) hinit hreach
  exact ⟨s₀, s, hinit, hreach, hqueue, htotal, h⟩

end Gen

end MatchingEngine
