import Mathlib.Data.List.Nodup
import MatchingEngine.Cpp.Heap

/-!
# Where the orders of the C++ engine stand

`Standing` says where the orders of a heap are: in the queues of some levels, or loose, which are
the dormant stops and the orders that are being worked on. Every order is in one place, the index
knows all of them and no others, and the counters count them. What a statement of the engine does to
the heap is then one rule: an order moves between a queue and the loose ones, its values change
where it is, or it comes or goes. The order of the levels, and that of the loose ones, does not
matter.
-/

namespace MatchingEngine.Cpp

open Lib

/-- A level: its price, its address, and the orders of its queue with their addresses. -/
structure Row where
  price : ℤ
  addr : ℕ
  queue : List (ℕ × Order)

/-- The orders of some levels. -/
def spread (rows : List Row) : List (ℕ × Order) := rows.flatMap (·.queue)

/-- The orders of the first row and of those behind it. -/
@[simp] theorem spread_cons (r : Row) (rows : List Row) : spread (r :: rows) = r.queue ++ spread rows :=
  rfl

/-- A level in the heap: its price, its queue, and the back pointers of the orders of the queue. -/
structure RowHolds (s : Engine) (r : Row) : Prop where
  level : ∃ l, s.levels r.addr = some l ∧ l.price = r.price ∧ Spells s.orders l (r.queue.map (·.1))
  owner : ∀ e ∈ r.queue, ownerAt s.orders e.1 = some r.addr

/-- The orders of the heap: what the index and the counters know of them. -/
structure Stored (s : Engine) (cs : List (ℕ × Order)) : Prop where
  value : ∀ p o, valueAt s.orders p = some o ↔ (p, o) ∈ cs
  nodup : (cs.map (·.1)).Nodup
  fresh : ∀ e ∈ cs, e.1 < s.oA_
  count : s.oA_ = s.oF_ + cs.length
  index : ∀ id p, s.idx_.get id = some p ↔ ∃ o, (p, o) ∈ cs ∧ o.id = id
  size : s.idx_.count_ = cs.length
  sized : s.idx_.Sized

/-- The orders of the heap are in the queues of the levels `rows`, or among the `loose` ones. -/
structure Standing (s : Engine) (rows : List Row) (loose : List (ℕ × Order)) : Prop where
  stored : Stored s (spread rows ++ loose)
  row : ∀ r ∈ rows, RowHolds s r
  loose : ∀ e ∈ loose, ownerAt s.orders e.1 = none
  addrs : (rows.map (·.addr)).Nodup
  fresh : ∀ a ∈ rows.map (·.addr), a < s.lA_
  count : s.lA_ = s.lF_ + rows.length

/-! ## Rearrangement -/

/-- The order of the cells does not matter for what is stored. -/
theorem Stored.perm {s : Engine} {cs cs' : List (ℕ × Order)} (h : Stored s cs) (hp : cs.Perm cs') :
    Stored s cs' where
  value p o := (h.value p o).trans hp.mem_iff
  nodup := (hp.map _).nodup_iff.mp h.nodup
  fresh e he := h.fresh e (hp.mem_iff.mpr he)
  count := h.count.trans (by rw [hp.length_eq])
  index id p := (h.index id p).trans ⟨fun ⟨o, ho, hid⟩ => ⟨o, hp.mem_iff.mp ho, hid⟩,
    fun ⟨o, ho, hid⟩ => ⟨o, hp.mem_iff.mpr ho, hid⟩⟩
  size := h.size.trans hp.length_eq
  sized := h.sized

/-- Neither does that of the rows. -/
theorem Standing.perm {s : Engine} {rows rows' : List Row} {loose loose' : List (ℕ × Order)}
    (h : Standing s rows loose) (hr : rows.Perm rows') (hl : loose.Perm loose') :
    Standing s rows' loose' where
  stored := h.stored.perm ((hr.flatMap_right _).append hl)
  row r hm := h.row r (hr.mem_iff.mpr hm)
  loose e hm := h.loose e (hl.mem_iff.mpr hm)
  addrs := (hr.map _).nodup_iff.mp h.addrs
  fresh a hm := h.fresh a ((hr.map _).mem_iff.mpr hm)
  count := h.count.trans (by rw [hr.length_eq])

/-! ## What a statement leaves alone -/

/-- A level whose queue is not touched. -/
theorem RowHolds.congr {s s' : Engine} {r : Row} (h : RowHolds s r)
    (hl : s'.levels r.addr = s.levels r.addr)
    (hq : ∀ z ∈ r.queue.map (·.1), nextAt s'.orders z = nextAt s.orders z ∧
      prevAt s'.orders z = prevAt s.orders z ∧ ownerAt s'.orders z = ownerAt s.orders z) :
    RowHolds s' r where
  level := by
    obtain ⟨l, hs, hp, hx⟩ := h.level
    exact ⟨l, hl.trans hs, hp, hx.congr (fun z hz => (hq z hz).1) fun z hz => (hq z hz).2.1⟩
  owner e he := (hq e.1 (List.mem_map_of_mem he)).2.2.trans (h.owner e he)

/-- The heap, the index, and the counters of an engine. -/
structure SameHeap (s s' : Engine) : Prop where
  orders : s'.orders = s.orders
  levels : s'.levels = s.levels
  idx : s'.idx_ = s.idx_
  oA : s'.oA_ = s.oA_
  oF : s'.oF_ = s.oF_
  lA : s'.lA_ = s.lA_
  lF : s'.lF_ = s.lF_

/-- Only the heap matters. -/
theorem Standing.congr {s s' : Engine} {rows : List Row} {loose : List (ℕ × Order)}
    (h : Standing s rows loose) (hs : SameHeap s s') : Standing s' rows loose where
  stored := by
    obtain ⟨hv, hn, hf, hc, hi, hz, hcap⟩ := h.stored
    exact ⟨by rwa [hs.orders], hn, by rwa [hs.oA], by rwa [hs.oA, hs.oF], by rwa [hs.idx],
      by rwa [hs.idx], by rwa [hs.idx]⟩
  row r hr := (h.row r hr).congr (by rw [hs.levels]) fun z _ => by rw [hs.orders]; exact ⟨rfl, rfl, rfl⟩
  loose e he := by
    rw [hs.orders]
    exact h.loose e he
  addrs := h.addrs
  fresh a ha := by
    rw [hs.lA]
    exact h.fresh a ha
  count := by
    rw [hs.lA, hs.lF]
    exact h.count

section Rules

variable {s : Engine} {rows rest : List Row} {loose : List (ℕ × Order)} {p : ℤ} {lv x : ℕ} {o : Order}
  {q as bs : List (ℕ × Order)}

/-- The cell of an order. -/
theorem Standing.cell (h : Standing s rows loose) (hx : (x, o) ∈ spread rows ++ loose) :
    ∃ c, s.orders x = some c ∧ c.order = o :=
  cell_of_valueAt ((h.stored.value x o).mpr hx)

/-- Other levels are elsewhere and have other orders. -/
theorem Standing.apart {r : Row} (h : Standing s (r :: rest) loose) :
    ∀ r' ∈ rest, r'.addr ≠ r.addr ∧ ∀ z ∈ r'.queue.map (·.1), z ∉ r.queue.map (·.1) ∧
      ∀ e ∈ loose, z ≠ e.1 := by
  intro r' hr'
  refine ⟨fun he => (List.nodup_cons.mp h.addrs).1 (List.mem_map.mpr ⟨r', hr', he⟩),
    fun z hz => ?_⟩
  have hnd := h.stored.nodup
  rw [spread_cons, List.append_assoc, List.map_append, List.map_append] at hnd
  have hzr : z ∈ (spread rest).map (·.1) := by
    obtain ⟨e, he, rfl⟩ := List.mem_map.mp hz
    exact List.mem_map_of_mem (List.mem_flatMap.mpr ⟨r', hr', he⟩)
  refine ⟨fun hx => (List.nodup_append.mp hnd).2.2 z hx z (List.mem_append_left _ hzr) rfl, ?_⟩
  rintro e he rfl
  exact (List.nodup_append.mp (List.nodup_append.mp hnd).2.1).2.2 e.1 hzr e.1
    (List.mem_map_of_mem he) rfl

/-- An order of a queue is not loose. -/
theorem Standing.queue_loose {r : Row} (h : Standing s rows loose) (hr : r ∈ rows) :
    ∀ z ∈ r.queue.map (·.1), ∀ e ∈ loose, z ≠ e.1 := by
  intro z hz e he
  have hnd := h.stored.nodup
  rw [List.map_append] at hnd
  obtain ⟨x, hx, rfl⟩ := List.mem_map.mp hz
  exact (List.nodup_append.mp hnd).2.2 x.1 (List.mem_map_of_mem (List.mem_flatMap.mpr ⟨r, hr, hx⟩)) e.1
    (List.mem_map_of_mem he)

/-- The orders of a queue are there. -/
theorem Standing.queue_live {r : Row} (h : Standing s rows loose) (hr : r ∈ rows) :
    ∀ z ∈ r.queue.map (·.1), ∃ v, valueAt s.orders z = some v := by
  intro z hz
  obtain ⟨e, he, rfl⟩ := List.mem_map.mp hz
  exact ⟨e.2, (h.stored.value e.1 e.2).mpr (List.mem_append_left _ (List.mem_flatMap.mpr ⟨r, hr, he⟩))⟩

/-! ## The rules -/

/-- `remove`: an order of a queue is loose. -/
theorem Standing.remove (h : Standing s (⟨p, lv, as ++ (x, o) :: bs⟩ :: rest) loose) :
    ∃ h' m', Cpp.remove lv x s = some ((), { s with orders := h', levels := m' }) ∧
      Standing { s with orders := h', levels := m' } (⟨p, lv, as ++ bs⟩ :: rest) ((x, o) :: loose) := by
  obtain ⟨l, hl, hpr, hq⟩ := (h.row _ List.mem_cons_self).level
  have hlive := h.queue_live List.mem_cons_self
  have hapart := h.apart
  have hloose := h.queue_loose List.mem_cons_self
  dsimp only at hl hq hlive hapart hloose hpr
  rw [List.map_append, List.map_cons] at hq hlive hapart hloose
  obtain ⟨h', l', he, hpr', hq', hrel⟩ := remove_run hl hq hlive
  refine ⟨h', _, he, ⟨?_, ?_, ?_, h.addrs, h.fresh, h.count⟩⟩
  -- The same cells as before, in another order.
  · have hst :=
      h.stored.perm (show List.Perm _ (spread (⟨p, lv, as ++ bs⟩ :: rest) ++ (x, o) :: loose) by
      simp only [spread_cons, List.append_assoc, List.cons_append]
      refine List.Perm.append_left as ?_
      rw [← List.append_assoc, ← List.append_assoc]
      exact List.perm_middle.symm)
    obtain ⟨hv, hn, hf, hc, hi, hz, hcap⟩ := hst
    exact ⟨by rw [hrel.value]; exact hv, hn, hf, hc, hi, hz, hcap⟩
  · intro r hr
    rcases List.mem_cons.mp hr with rfl | hr
    · refine ⟨⟨l', Function.update_self .., hpr'.trans hpr, ?_⟩, fun e hx => ?_⟩
      · rw [List.map_append]
        exact hq'
      -- The order that was taken out stood in the queue once.
      · have hne : e.1 ≠ x := by
          rintro hex
          have hnd := hq.nodup
          have hmem : x ∈ as.map (·.1) ++ bs.map (·.1) := by
            rw [← hex, ← List.map_append]
            exact List.mem_map_of_mem hx
          exact (List.nodup_middle.mp hnd).notMem hmem
        rw [hrel.owner, Function.update_of_ne hne]
        refine (h.row _ List.mem_cons_self).owner e ?_
        rcases List.mem_append.mp hx with hx | hx
        · exact List.mem_append_left _ hx
        · exact List.mem_append_right _ (List.mem_cons_of_mem _ hx)
    -- Another row: its level and its orders are elsewhere in the heap.
    · obtain ⟨haddr, hz⟩ := hapart r hr
      refine (h.row r (List.mem_cons_of_mem _ hr)).congr (Function.update_of_ne haddr ..)
        fun z hzr => ?_
      have hzx := (hz z hzr).1
      refine ⟨hrel.next z hzx, hrel.prev z hzx, ?_⟩
      rw [hrel.owner, Function.update_of_ne]
      rintro rfl
      exact hzx (List.mem_append_right _ List.mem_cons_self)
  · intro e he
    rw [hrel.owner]
    rcases List.mem_cons.mp he with rfl | he
    · exact Function.update_self ..
    · rw [Function.update_of_ne]
      · exact h.loose e he
      · exact (hloose x (List.mem_append_right _ List.mem_cons_self) e he).symm

/-- `pushBack`: a loose order is the last one of a queue. -/
theorem Standing.pushBack (h : Standing s (⟨p, lv, q⟩ :: rest) ((x, o) :: loose)) :
    ∃ h' m', Cpp.pushBack lv x s = some ((), { s with orders := h', levels := m' }) ∧
      Standing { s with orders := h', levels := m' } (⟨p, lv, q ++ [(x, o)]⟩ :: rest) loose := by
  obtain ⟨l, hl, hpr, hq⟩ := (h.row _ List.mem_cons_self).level
  have hlive := h.queue_live List.mem_cons_self
  have hapart := h.apart
  have hloose := h.queue_loose List.mem_cons_self
  dsimp only at hl hq hlive hapart hloose hpr
  have hxq : x ∉ q.map (·.1) := fun hx => hloose x hx (x, o) List.mem_cons_self rfl
  have hxl : x ∉ loose.map (·.1) := by
    have hnd := h.stored.nodup
    rw [List.map_append, List.map_cons] at hnd
    exact (List.nodup_cons.mp (List.nodup_append.mp hnd).2.1).1
  obtain ⟨h', l', he, hpr', hq', hrel⟩ := pushBack_run hl hq hxq (List.forall_mem_cons.mpr
    ⟨⟨o, (h.stored.value x o).mpr (List.mem_append_right _ List.mem_cons_self)⟩, hlive⟩)
  refine ⟨h', _, he, ⟨?_, ?_, ?_, h.addrs, h.fresh, h.count⟩⟩
  · have hst := h.stored.perm (show List.Perm _ (spread (⟨p, lv, q ++ [(x, o)]⟩ :: rest) ++ loose) by
      simp only [spread_cons, List.append_assoc, List.cons_append, List.nil_append]
      exact List.Perm.append_left q List.perm_middle)
    obtain ⟨hv, hn, hf, hc, hi, hz, hcap⟩ := hst
    exact ⟨by rw [hrel.value]; exact hv, hn, hf, hc, hi, hz, hcap⟩
  · intro r hr
    rcases List.mem_cons.mp hr with rfl | hr
    · refine ⟨⟨l', Function.update_self .., hpr'.trans hpr, ?_⟩, fun e hx => ?_⟩
      · rw [List.map_append]
        exact hq'
      · rw [hrel.owner]
        rcases List.mem_append.mp hx with hx | hx
        · rw [Function.update_of_ne]
          · exact (h.row _ List.mem_cons_self).owner e hx
          · rintro hex
            exact hxq (by rw [← hex]; exact List.mem_map_of_mem hx)
        · rw [List.mem_singleton.mp hx]
          exact Function.update_self ..
    · obtain ⟨haddr, hz⟩ := hapart r hr
      refine (h.row r (List.mem_cons_of_mem _ hr)).congr (Function.update_of_ne haddr ..)
        fun z hzr => ?_
      obtain ⟨hzq, hzl⟩ := hz z hzr
      have hzx : z ≠ x := hzl (x, o) List.mem_cons_self
      have hzm : z ∉ x :: q.map (·.1) := fun hm => (List.mem_cons.mp hm).elim hzx hzq
      refine ⟨hrel.next z hzm, hrel.prev z hzm, ?_⟩
      rw [hrel.owner, Function.update_of_ne hzx]
  · intro e he
    rw [hrel.owner, Function.update_of_ne]
    · exact h.loose e (List.mem_cons_of_mem _ he)
    · rintro hex
      exact hxl (by rw [← hex]; exact List.mem_map_of_mem he)

/-- What `setCell` of the values of an order leaves alone: its links. -/
theorem set_run {g : Order → Order} {c : Cell} (hc : s.orders x = some c) :
    set x g s = some ((), { s with
      orders := Function.update s.orders x (some { c with order := g c.order }) }) := by
  unfold set setCell
  rw [hc]
  rfl

/-- The orders of the heap after the values of one of them were written. -/
theorem Stored.set {cs cs' : List (ℕ × Order)} {g : Order → Order} {c : Cell}
    (h : Stored s (cs ++ (x, o) :: cs'))
    (hc : s.orders x = some c) (hid : (g o).id = o.id) :
    Stored { s with orders := Function.update s.orders x (some { c with order := g c.order }) }
      (cs ++ (x, g o) :: cs') := by
  have hp := @List.perm_middle _ (x, o) cs cs'
  obtain ⟨hv, hn, hf, hct, hi, hz, hcap⟩ := h.perm hp
  refine Stored.perm ?_ (@List.perm_middle _ (x, g o) cs cs').symm
  have hco : c.order = o := by
    have := (hv x o).mpr List.mem_cons_self
    rw [valueAt_of_cell hc] at this
    exact Option.some.inj this
  have hx : x ∉ (cs ++ cs').map (·.1) := (List.nodup_cons.mp hn).1
  refine ⟨fun p v => ?_, hn, fun e he => ?_, hct, fun id p => (hi id p).trans ?_, hz, hcap⟩
  · rw [valueAt_update, hco]
    by_cases hpx : p = x
    · rw [hpx, Function.update_self, List.mem_cons, Option.some.injEq, Prod.mk.injEq]
      refine ⟨fun hg => .inl ⟨rfl, hg.symm⟩, fun hm => ?_⟩
      rcases hm with hm | hm
      · exact hm.2.symm
      · exact absurd (List.mem_map_of_mem hm) hx
    · rw [Function.update_of_ne hpx, hv p v, List.mem_cons, List.mem_cons]
      constructor
      · rintro (hm | hm)
        · exact absurd (Prod.mk.inj hm).1 hpx
        · exact .inr hm
      · rintro (hm | hm)
        · exact absurd (Prod.mk.inj hm).1 hpx
        · exact .inr hm
  · rcases List.mem_cons.mp he with rfl | he
    · exact hf (x, o) List.mem_cons_self
    · exact hf e (List.mem_cons_of_mem _ he)
  · constructor
    · rintro ⟨v, hm, hvid⟩
      rcases List.mem_cons.mp hm with hm | hm
      · obtain ⟨rfl, rfl⟩ := Prod.mk.inj hm
        exact ⟨g v, List.mem_cons_self, hid.trans hvid⟩
      · exact ⟨v, List.mem_cons_of_mem _ hm, hvid⟩
    · rintro ⟨v, hm, hvid⟩
      rcases List.mem_cons.mp hm with hm | hm
      · obtain ⟨rfl, rfl⟩ := Prod.mk.inj hm
        exact ⟨o, List.mem_cons_self, hid.symm.trans hvid⟩
      · exact ⟨v, List.mem_cons_of_mem _ hm, hvid⟩

/-- A write to the values of an order leaves the levels alone. -/
theorem RowHolds.set {r r' : Row} {c : Cell} (h : RowHolds s r) (hc : s.orders x = some c)
    {v : Order} (haddr : r'.addr = r.addr) (hprice : r'.price = r.price)
    (hqueue : r'.queue.map (·.1) = r.queue.map (·.1)) :
    RowHolds { s with orders := Function.update s.orders x (some { c with order := v }) } r' where
  level := by
    obtain ⟨l, hl, hp, hq⟩ := h.level
    refine ⟨l, by rw [haddr]; exact hl, hp.trans hprice.symm, ?_⟩
    unfold Spells
    rw [hqueue]
    dsimp only
    rw [nextAt_update_self (d := { c with order := v }) hc rfl,
      prevAt_update_self (d := { c with order := v }) hc rfl]
    exact hq
  owner e he := by
    dsimp only
    rw [haddr, ownerAt_update_self (d := { c with order := v }) hc rfl]
    have hm : e.1 ∈ r.queue.map (·.1) := by
      rw [← hqueue]
      exact List.mem_map_of_mem he
    obtain ⟨e', he', heq⟩ := List.mem_map.mp hm
    rw [← heq]
    exact h.owner e' he'

/-- `set` of a loose order. -/
theorem Standing.set (h : Standing s rows ((x, o) :: loose)) (g : Order → Order)
    (hid : (g o).id = o.id) :
    ∃ h', Cpp.set x g s = some ((), { s with orders := h' }) ∧
      Standing { s with orders := h' } rows ((x, g o) :: loose) := by
  obtain ⟨c, hc, -⟩ := h.cell (List.mem_append_right _ List.mem_cons_self)
  refine ⟨_, set_run hc, h.stored.set hc hid, fun r hr => (h.row r hr).set hc rfl rfl rfl, ?_, h.addrs,
    h.fresh, h.count⟩
  intro e he
  dsimp only
  rw [ownerAt_update_self (d := { c with order := g c.order }) hc rfl]
  rcases List.mem_cons.mp he with rfl | he
  · exact h.loose (x, o) List.mem_cons_self
  · exact h.loose e (List.mem_cons_of_mem _ he)

/-- `set` of an order of a queue. -/
theorem Standing.setQueued (h : Standing s (⟨p, lv, as ++ (x, o) :: bs⟩ :: rest) loose)
    (g : Order → Order) (hid : (g o).id = o.id) :
    ∃ h', Cpp.set x g s = some ((), { s with orders := h' }) ∧
      Standing { s with orders := h' } (⟨p, lv, as ++ (x, g o) :: bs⟩ :: rest) loose := by
  obtain ⟨c, hc, -⟩ := h.cell (x := x) (o := o) (by simp)
  refine ⟨_, set_run hc, ?_, ?_, ?_, h.addrs, h.fresh, h.count⟩
  · have hst := h.stored
    simp only [spread_cons, List.append_assoc, List.cons_append] at hst ⊢
    exact hst.set hc hid
  · intro r hr
    rcases List.mem_cons.mp hr with rfl | hr
    · refine (h.row _ List.mem_cons_self).set hc rfl rfl ?_
      simp only [List.map_append, List.map_cons]
    · exact (h.row r (List.mem_cons_of_mem _ hr)).set hc rfl rfl rfl
  · intro e he
    dsimp only
    rw [ownerAt_update_self (d := { c with order := g c.order }) hc rfl]
    exact h.loose e he

/-- `allocLvl`: a new level without orders. -/
theorem Standing.allocLvl (h : Standing s rows loose) (p : ℤ) :
    ∃ m' n k, Cpp.allocLvl p s = some (s.lA_, { s with levels := m', lA_ := n, lP_ := k }) ∧
      Standing { s with levels := m', lA_ := n, lP_ := k } (⟨p, s.lA_, []⟩ :: rows) loose := by
  refine ⟨_, _, _, rfl, ?_⟩
  have hfresh : ∀ r ∈ rows, r.addr ≠ s.lA_ := fun r hr =>
    (h.fresh _ (List.mem_map_of_mem hr)).ne
  obtain ⟨hv, hn, hf, hc, hi, hz, hcap⟩ := h.stored
  refine ⟨⟨hv, hn, hf, hc, hi, hz, hcap⟩, fun r hr => ?_, h.loose, ?_, fun a ha => ?_, ?_⟩
  · rcases List.mem_cons.mp hr with rfl | hr
    · exact ⟨⟨{ price := p }, Function.update_self .., rfl, rfl, rfl⟩, fun e he => absurd he
        List.not_mem_nil⟩
    · exact (h.row r hr).congr (Function.update_of_ne (hfresh r hr) ..) fun z _ => ⟨rfl, rfl, rfl⟩
  · refine List.nodup_cons.mpr ⟨fun hx => ?_, h.addrs⟩
    obtain ⟨r, hr, he⟩ := List.mem_map.mp hx
    exact hfresh r hr he
  · rcases List.mem_cons.mp ha with rfl | ha
    · exact Nat.lt_succ_self _
    · exact (h.fresh a ha).trans (Nat.lt_succ_self _)
  · have := h.count
    change s.lA_ + 1 = s.lF_ + (rows.length + 1)
    omega

/-- `freeLvl` of a level without orders. -/
theorem Standing.freeLvl (h : Standing s (⟨p, lv, []⟩ :: rest) loose) :
    ∃ m' n, Cpp.freeLvl lv s = some ((), { s with levels := m', lF_ := n }) ∧
      Standing { s with levels := m', lF_ := n } rest loose := by
  obtain ⟨l, hl, -, -⟩ := (h.row _ List.mem_cons_self).level
  have hapart := h.apart
  refine ⟨Function.update s.levels lv none, s.lF_ + 1, ?_, ?_⟩
  · unfold Cpp.freeLvl
    dsimp only at hl
    rw [hl]
    rfl
  obtain ⟨hv, hn, hf, hc, hi, hz, hcap⟩ := h.stored
  refine ⟨⟨hv, hn, hf, hc, hi, hz, hcap⟩, fun r hr => ?_, h.loose, (List.nodup_cons.mp h.addrs).2,
    fun a ha => h.fresh a (List.mem_cons_of_mem _ ha), ?_⟩
  · exact (h.row r (List.mem_cons_of_mem _ hr)).congr (Function.update_of_ne (hapart r hr).1 ..)
      fun z _ => ⟨rfl, rfl, rfl⟩
  · have hc := h.count
    rw [List.length_cons] at hc
    change s.lA_ = s.lF_ + 1 + rest.length
    omega

/-- The orders of the heap without one that is freed and erased from the index. -/
theorem Stored.erase {cs : List (ℕ × Order)} (h : Stored s ((x, o) :: cs)) :
    ∃ i', s.idx_.erase o.id = some i' ∧ Stored { s with
      orders := Function.update s.orders x none, idx_ := i', oF_ := s.oF_ + 1 } cs := by
  have hget : s.idx_.get o.id = some x := (h.index _ _).mpr ⟨o, List.mem_cons_self, rfl⟩
  have hx : x ∉ cs.map (·.1) := (List.nodup_cons.mp h.nodup).1
  obtain ⟨i', he, hget', hcount, hcap⟩ := OrderIndex.erase_run hget
  refine ⟨i', he, fun p v => ?_, (List.nodup_cons.mp h.nodup).2,
    fun e hm => h.fresh e (List.mem_cons_of_mem _ hm), ?_, fun id p => ?_, ?_, ?_⟩
  · have hold := h.value p v
    rw [List.mem_cons] at hold
    unfold valueAt at hold ⊢
    dsimp only
    by_cases hp : p = x
    · rw [hp, Function.update_self]
      refine ⟨fun hn => (nomatch hn), fun hm => absurd (List.mem_map_of_mem hm) hx⟩
    · rw [Function.update_of_ne hp, hold]
      exact ⟨fun hm => hm.resolve_left fun he => hp (Prod.mk.inj he).1, .inr⟩
  · have hc := h.count
    rw [List.length_cons] at hc
    change s.oA_ = s.oF_ + 1 + cs.length
    omega
  · rw [hget']
    by_cases hid : id = o.id
    · rw [if_pos hid]
      refine ⟨fun hn => (nomatch hn), ?_⟩
      rintro ⟨v, hm, hv⟩
      have hp := (h.index id p).mpr ⟨v, List.mem_cons_of_mem _ hm, hv⟩
      rw [hid, hget] at hp
      exact absurd (List.mem_map.mpr ⟨(p, v), hm, (Option.some.inj hp).symm⟩) hx
    · rw [if_neg hid, h.index]
      constructor
      · rintro ⟨v, hm, hv⟩
        rcases List.mem_cons.mp hm with hm | hm
        · exact absurd (by rw [← hv, (Prod.mk.inj hm).2]) hid
        · exact ⟨v, hm, hv⟩
      · rintro ⟨v, hm, hv⟩
        exact ⟨v, List.mem_cons_of_mem _ hm, hv⟩
  · have hz := h.size
    rw [List.length_cons] at hz
    change i'.count_ = _
    omega
  · change i'.Sized
    unfold OrderIndex.Sized
    rw [hcap]
    exact h.sized

/-- `discard` of a loose order. -/
theorem Standing.discard (h : Standing s rows ((x, o) :: loose)) :
    ∃ h' i' n, Cpp.discard x s = some ((), { s with
        orders := h', idx_ := i', oF_ := n, log := s.log ++ [.left o] }) ∧
      Standing { s with orders := h', idx_ := i', oF_ := n, log := s.log ++ [.left o] } rows loose := by
  obtain ⟨c, hc, hco⟩ := h.cell (List.mem_append_right _ List.mem_cons_self)
  have hst := h.stored.perm (@List.perm_middle _ (x, o) (spread rows) loose)
  obtain ⟨i', he, hst'⟩ := hst.erase
  refine ⟨Function.update s.orders x none, i', s.oF_ + 1, ?_, ?_⟩
  · unfold Cpp.discard
    rw [run_bind (show order x s = some (c.order, s) by unfold order; rw [hc]; rfl), run_bind
      (show mark _ s = some ((), _) from rfl), hco, run_bind (show onIndex _ _ = some ((), _) by
        unfold onIndex; dsimp only; rw [he]; rfl)]
    unfold freeOrd
    dsimp only
    rw [hc]
    rfl
  refine Standing.congr (s := { s with
    orders := Function.update s.orders x none, idx_ := i', oF_ := s.oF_ + 1 }) ⟨hst', fun r hr => ?_,
      fun e hm => ?_, h.addrs, h.fresh, h.count⟩ ⟨rfl, rfl, rfl, rfl, rfl, rfl, rfl⟩
  · refine (h.row r hr).congr rfl fun z hz => at_update_of_ne none ?_
    exact h.queue_loose hr z hz (x, o) List.mem_cons_self
  · have hne : e.1 ≠ x := by
      rintro hex
      exact (List.nodup_cons.mp hst.nodup).1 (List.mem_map.mpr ⟨e, List.mem_append_right _ hm, hex⟩)
    exact (at_update_of_ne none hne).2.2.trans (h.loose e (List.mem_cons_of_mem _ hm))

/-- The place of the next order is free. -/
theorem Stored.free {cs : List (ℕ × Order)} (h : Stored s cs) : s.orders s.oA_ = none := by
  cases hc : s.orders s.oA_ with
  | none => rfl
  | some c =>
    have hm := (h.value _ _).mp (valueAt_of_cell hc)
    exact absurd (h.fresh _ hm) (Nat.lt_irrefl _)

/-- A new order that the index takes up. -/
theorem Standing.born (h : Standing s rows loose) (o : Order) (hid : o.id.toNat < 2 ^ 31)
    (hnew : s.idx_.get o.id = none) : ∃ i', s.idx_.insert o.id s.oA_ = some i' ∧
      Standing { s with
        orders := Function.update s.orders s.oA_ (some { order := o })
        oA_ := s.oA_ + 1
        idx_ := i' } rows ((s.oA_, o) :: loose) := by
  obtain ⟨i', he, hget, hcount, hsized⟩ := OrderIndex.insert_run h.stored.sized hid s.oA_
  have hlt : ∀ e ∈ spread rows ++ loose, e.1 ≠ s.oA_ := fun e hm => (h.stored.fresh e hm).ne
  refine ⟨i', he, ?_, fun r hr => ?_, fun e hm => ?_, h.addrs, h.fresh, h.count⟩
  · refine Stored.perm ?_ (@List.perm_middle _ (s.oA_, o) (spread rows) loose).symm
    obtain ⟨hv, hn, hf, hc, hi, hz, -⟩ := h.stored
    refine ⟨fun p v => ?_, List.nodup_cons.mpr ⟨fun hx => ?_, hn⟩, fun e hm => ?_, ?_,
      fun id p => ?_, ?_,
      hsized⟩
    · rw [valueAt_update, List.mem_cons]
      by_cases hp : p = s.oA_
      · rw [hp, Function.update_self]
        refine ⟨fun hg => .inl (congrArg (Prod.mk _) (Option.some.inj hg).symm), fun hm => ?_⟩
        rcases hm with hm | hm
        · rw [(Prod.mk.inj hm).2]
        · exact absurd rfl (hlt _ hm)
      · rw [Function.update_of_ne hp, hv]
        exact ⟨.inr, fun hm => hm.resolve_left fun he => hp (Prod.mk.inj he).1⟩
    · obtain ⟨e, hm, hex⟩ := List.mem_map.mp hx
      exact hlt e hm hex
    · rcases List.mem_cons.mp hm with rfl | hm
      · exact Nat.lt_succ_self _
      · exact (hf e hm).trans (Nat.lt_succ_self _)
    · change s.oA_ + 1 = s.oF_ + ((spread rows ++ loose).length + 1)
      omega
    · dsimp only
      rw [hget]
      by_cases hx : id = o.id
      · rw [if_pos hx]
        refine ⟨fun hg => ⟨o, by rw [← Option.some.inj hg]; exact List.mem_cons_self, hx.symm⟩, ?_⟩
        rintro ⟨v, hm, hv'⟩
        rcases List.mem_cons.mp hm with hm | hm
        · rw [(Prod.mk.inj hm).1]
        · have := (hi id p).mpr ⟨v, hm, hv'⟩
          rw [hx, hnew] at this
          cases this
      · rw [if_neg hx, hi]
        constructor
        · rintro ⟨v, hm, hv'⟩
          exact ⟨v, List.mem_cons_of_mem _ hm, hv'⟩
        · rintro ⟨v, hm, hv'⟩
          rcases List.mem_cons.mp hm with hm | hm
          · exact absurd (by rw [← hv', (Prod.mk.inj hm).2]) hx
          · exact ⟨v, hm, hv'⟩
    · change i'.count_ = (spread rows ++ loose).length + 1
      omega
  · refine (h.row r hr).congr rfl fun z hz => at_update_of_ne _ ?_
    obtain ⟨e, hm, rfl⟩ := List.mem_map.mp hz
    exact hlt e (List.mem_append_left _ (List.mem_flatMap.mpr ⟨r, hr, hm⟩))
  · rcases List.mem_cons.mp hm with rfl | hm
    · dsimp only
      rw [ownerAt_update, Function.update_self]
    · exact (at_update_of_ne _ (hlt e (List.mem_append_right _ hm))).2.2.trans (h.loose e hm)

end Rules

end MatchingEngine.Cpp
