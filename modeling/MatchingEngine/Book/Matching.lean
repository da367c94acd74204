import MatchingEngine.Book.Basic

/-!
# What matching leaves

Matching takes orders from the front of the other side only: what it leaves is a tail of the queue
or of the levels, of which the first may be reduced (`Cut`, `CutLevels`). If it leaves a remainder,
then it stopped at the end of the side or at a price that does not cross, so either it took nothing
at all or it took a whole level with its orders.
-/

namespace MatchingEngine

open Contract

/-- `left` is a tail of the queue, of which the first order may be reduced. -/
inductive Cut : List OrderRow → List OrderRow → Prop where
  | refl (ps : List OrderRow) : Cut ps ps
  | drop {p : OrderRow} {ps left : List OrderRow} (h : Cut ps left) : Cut (p :: ps) left
  | reduce {p : OrderRow} {ps : List OrderRow} {q : UInt64} (hq : 0 < q) (hle : q ≤ p.remaining) :
      Cut (p :: ps) ({ p with remaining := q } :: ps)

/-- `left` is a tail of the levels, of which the first may have its queue cut. -/
inductive CutLevels : List Level → List Level → Prop where
  | refl (ls : List Level) : CutLevels ls ls
  | drop {l : Level} {ls left : List Level} (h : CutLevels ls left) : CutLevels (l :: ls) left
  | reduce {l : Level} {ls : List Level} {os : List OrderRow} (h : Cut l.orders os) (hne : os ≠ []) :
      CutLevels (l :: ls) ({ l with orders := os } :: ls)

namespace Cut

variable {os left : List OrderRow}

/-- No id is new in a queue that was cut. -/
theorem ids (h : Cut os left) : (left.map OrderRow.id).Sublist (os.map OrderRow.id) := by
  induction h with
  | refl => exact .refl _
  | drop _ ih => exact ih.cons _
  | reduce => exact .refl _

/-- An order that is left was there, with at least its quantity. -/
theorem mem (h : Cut os left) {o : OrderRow} (ho : o ∈ left) :
    ∃ p ∈ os, o = p ∨ ∃ q, 0 < q ∧ q ≤ p.remaining ∧ o = { p with remaining := q } := by
  induction h with
  | refl => exact ⟨o, ho, .inl rfl⟩
  | drop _ ih =>
    obtain ⟨p, hp, h⟩ := ih ho
    exact ⟨p, List.mem_cons_of_mem _ hp, h⟩
  | @reduce p ps q hq hle =>
    rcases List.mem_cons.mp ho with rfl | ho
    · exact ⟨p, List.mem_cons_self, .inr ⟨q, hq, hle, rfl⟩⟩
    · exact ⟨o, List.mem_cons_of_mem _ ho, .inl rfl⟩

end Cut

namespace CutLevels

variable {ls left : List Level}

/-- A level that is left was there, with its queue cut. -/
theorem mem (h : CutLevels ls left) {l : Level} (hl : l ∈ left) :
    ∃ m ∈ ls, l.price = m.price ∧ Cut m.orders l.orders ∧ (l = m ∨ l.orders ≠ []) := by
  induction h with
  | refl => exact ⟨l, hl, rfl, .refl _, .inl rfl⟩
  | drop _ ih =>
    obtain ⟨m, hm, h⟩ := ih hl
    exact ⟨m, List.mem_cons_of_mem _ hm, h⟩
  | @reduce m ls os h hne =>
    rcases List.mem_cons.mp hl with rfl | hl
    · exact ⟨m, List.mem_cons_self, rfl, h, .inr hne⟩
    · exact ⟨l, List.mem_cons_of_mem _ hl, rfl, .refl _, .inl rfl⟩

/-- No price is new in levels that were cut. -/
theorem prices (h : CutLevels ls left) :
    (left.map Level.price).Sublist (ls.map Level.price) := by
  induction h with
  | refl => exact .refl _
  | drop _ ih => exact ih.cons _
  | reduce => exact .refl _

/-- No id is new in levels that were cut. -/
theorem ids (h : CutLevels ls left) :
    ((left.flatMap Level.orders).map OrderRow.id).Sublist
      ((ls.flatMap Level.orders).map OrderRow.id) := by
  induction h with
  | refl => exact .refl _
  | drop _ ih =>
    rw [List.flatMap_cons, List.map_append]
    exact ih.trans (List.sublist_append_right _ _)
  | reduce h _ =>
    simp only [List.flatMap_cons, List.map_append]
    exact h.ids.append (.refl _)

end CutLevels

namespace Request

variable {r : Request} {price rem : UInt64} {os : List OrderRow} {ls : List Level}

/-! ## One queue -/

/-- Without a remainder nothing is matched. -/
@[simp] theorem matchOrders_zero : r.matchOrders price os 0 = ⟨os, 0, []⟩ := by
  cases os with
  | nil => rfl
  | cons p ps => rw [matchOrders, if_pos rfl]

/-- What is subtracted from a remainder stays positive or ends it. -/
theorem sub_pos_of_not_le {a b : UInt64} (h : ¬ a ≤ b) : 0 < a - b ∧ a - b ≤ a := by
  have hle : b ≤ a := by grind
  have hlt : b.toNat < a.toNat := by
    rw [← UInt64.lt_iff_toNat_lt]; grind
  rw [UInt64.lt_iff_toNat_lt, UInt64.le_iff_toNat_le, UInt64.toNat_sub_of_le _ _ hle]
  have h0 : (0 : UInt64).toNat = 0 := rfl
  omega

/-- Matching in a queue cuts it. -/
theorem matchOrders_cut : Cut os (r.matchOrders price os rem).left := by
  fun_induction matchOrders r price os rem with
  | case1 | case2 | case3 => exact .refl _
  | case4 _ _ _ _ _ ih => exact ih.drop
  | case5 => exact (Cut.refl _).drop
  | case6 _ _ _ _ _ _ ih => exact ih.drop
  | case7 _ _ _ _ _ h => exact .reduce (sub_pos_of_not_le h).1 (sub_pos_of_not_le h).2
  | case8 _ _ _ _ _ _ ih => exact ih.drop
  | case9 _ _ _ _ _ h => exact .reduce (sub_pos_of_not_le h).1 (sub_pos_of_not_le h).2

/-- A remainder is left only by a queue that is used up. -/
theorem matchOrders_left_nil (h : (r.matchOrders price os rem).rem ≠ 0) :
    (r.matchOrders price os rem).left = [] := by
  fun_induction matchOrders r price os rem with
  | case1 => rfl
  | case2 | case3 | case5 | case7 | case9 => exact absurd rfl h
  | case4 _ _ _ _ _ ih => exact ih h
  | case6 _ _ _ _ _ _ ih => exact ih h
  | case8 _ _ _ _ _ _ ih => exact ih h

/-- Matching in a queue leaves no larger remainder. -/
theorem matchOrders_rem_le : (r.matchOrders price os rem).rem ≤ rem := by
  have hsub : ∀ {a b c : UInt64}, b ≤ a → c ≤ a - b → c ≤ a := by
    intro a b c hb hc
    rw [UInt64.le_iff_toNat_le, UInt64.toNat_sub_of_le _ _ hb] at hc
    rw [UInt64.le_iff_toNat_le]
    omega
  fun_induction matchOrders r price os rem with
  | case1 => exact UInt64.le_refl _
  | case2 | case3 | case5 | case7 | case9 => exact UInt64.zero_le
  | case4 _ _ _ _ _ ih => exact ih
  | case6 _ _ _ _ _ h ih => exact hsub h ih
  | case8 _ _ _ _ _ h ih => exact hsub h ih

/-! ## The levels -/

/-- Matching over the levels cuts them. -/
theorem matchLevels_cut : CutLevels ls (r.matchLevels ls rem).left := by
  fun_induction matchLevels r ls rem with
  | case1 | case2 => exact .refl _
  | case3 _ _ _ _ _ _ ih => exact ih.drop
  | case4 _ _ _ _ _ h => exact .reduce matchOrders_cut h

/-- Matching over the levels leaves no larger remainder. -/
theorem matchLevels_rem_le : (r.matchLevels ls rem).rem ≤ rem := by
  fun_induction matchLevels r ls rem with
  | case1 | case2 => exact UInt64.le_refl _
  | case3 _ _ _ _ _ _ ih => exact UInt64.le_trans ih matchOrders_rem_le
  | case4 => exact matchOrders_rem_le

/-- A level that crosses and is used up. -/
theorem matchLevels_cons_nil {l : Level} (hrem : rem ≠ 0) (hc : r.crosses l.price)
    (hnil : (r.matchOrders l.price l.orders rem).left = []) :
    r.matchLevels (l :: ls) rem = (r.matchLevels ls (r.matchOrders l.price l.orders rem).rem).after
      (r.matchOrders l.price l.orders rem).trades := by
  rw [matchLevels, if_neg (not_or.mpr ⟨hrem, not_not.mpr hc⟩)]
  exact if_pos hnil

/-- A level that crosses and is not used up ends the matching. -/
theorem matchLevels_cons_ne {l : Level} (hrem : rem ≠ 0) (hc : r.crosses l.price)
    (hne : (r.matchOrders l.price l.orders rem).left ≠ []) :
    r.matchLevels (l :: ls) rem =
      ⟨{ l with orders := (r.matchOrders l.price l.orders rem).left } :: ls, 0,
        (r.matchOrders l.price l.orders rem).trades⟩ := by
  have h0 : (r.matchOrders l.price l.orders rem).rem = 0 := by
    by_contra h0
    exact hne (matchOrders_left_nil h0)
  rw [matchLevels, if_neg (not_or.mpr ⟨hrem, not_not.mpr hc⟩), ← h0]
  exact if_neg hne

/-- A remainder is left only before a price that does not cross. -/
theorem matchLevels_not_crosses (h : (r.matchLevels ls rem).rem ≠ 0) :
    ∀ l ∈ (r.matchLevels ls rem).left.head?, ¬ r.crosses l.price := by
  fun_induction matchLevels r ls rem with
  | case1 => rintro l ⟨⟩
  | case2 l ls rem hstop =>
    rintro _ ⟨⟩
    exact hstop.resolve_left h
  | case3 _ _ _ _ _ _ ih => exact ih h
  | case4 _ _ _ _ _ hne => exact absurd (matchOrders_left_nil h) hne

/-- Without a remainder no level is met. -/
@[simp] theorem matchLevels_zero : r.matchLevels ls 0 = ⟨ls, 0, []⟩ := by
  cases ls with
  | nil => rfl
  | cons l ls => rw [matchLevels, if_pos (.inl rfl)]

/-! ## One order at a time -/

/-- The levels with the queue `os` at the price `price` in front. -/
def relevel (price : UInt64) (os : List OrderRow) (ls : List Level) : List Level :=
  if os = [] then ls else ⟨price, os⟩ :: ls

/-- Matching starts in the first queue, and goes on behind it when that is used up. -/
theorem matchLevels_relevel (hc : r.crosses price) :
    r.matchLevels (relevel price os ls) rem =
      if (r.matchOrders price os rem).left = [] then
        (r.matchLevels ls (r.matchOrders price os rem).rem).after (r.matchOrders price os rem).trades
      else ⟨⟨price, (r.matchOrders price os rem).left⟩ :: ls, (r.matchOrders price os rem).rem,
        (r.matchOrders price os rem).trades⟩ := by
  unfold relevel
  by_cases hos : os = []
  · rw [if_pos hos, hos]
    rfl
  · rw [if_neg hos]
    by_cases h0 : rem = 0
    · rw [h0, matchOrders_zero, matchLevels_zero, if_neg hos]
    · rw [matchLevels, if_neg (not_or.mpr ⟨h0, not_not.mpr hc⟩)]

/-- The first order of the first level met. -/
theorem matchLevels_order {p : OrderRow} (hrem : rem ≠ 0) (hc : r.crosses price) :
    r.matchLevels (⟨price, p :: os⟩ :: ls) rem =
      match r.prevention p with
      | .cancelNew => ⟨⟨price, p :: os⟩ :: ls, 0, []⟩
      | .cancelOld => r.matchLevels (relevel price os ls) rem
      | .cancelBoth => ⟨relevel price os ls, 0, []⟩
      | .decrement =>
        if p.remaining ≤ rem then r.matchLevels (relevel price os ls) (rem - p.remaining)
        else ⟨⟨price, { p with remaining := p.remaining - rem } :: os⟩ :: ls, 0, []⟩
      | .none =>
        if p.remaining ≤ rem then
          (r.matchLevels (relevel price os ls) (rem - p.remaining)).after
            [⟨p.id, r.id, price, p.remaining⟩]
        else ⟨⟨price, { p with remaining := p.remaining - rem } :: os⟩ :: ls, 0,
          [⟨p.id, r.id, price, rem⟩]⟩ := by
  have hlevel : relevel price (p :: os) ls = ⟨price, p :: os⟩ :: ls := if_neg (List.cons_ne_nil _ _)
  rw [← hlevel, matchLevels_relevel hc, matchOrders, if_neg hrem]
  cases r.prevention p with
  | cancelNew => rfl
  | cancelOld => exact (matchLevels_relevel hc).symm
  | cancelBoth =>
    unfold relevel
    dsimp only
    split
    · rw [matchLevels_zero]
      rfl
    · rfl
  | decrement =>
    dsimp only
    by_cases hfull : p.remaining ≤ rem
    · simp only [if_pos hfull]
      exact (matchLevels_relevel hc).symm
    · simp only [if_neg hfull]
      exact if_neg (List.cons_ne_nil _ _)
  | none =>
    dsimp only
    by_cases hfull : p.remaining ≤ rem
    · simp only [if_pos hfull]
      rw [matchLevels_relevel hc]
      unfold Outcome.after
      dsimp only
      split
      · simp
      · rfl
    · simp only [if_neg hfull]
      exact if_neg (List.cons_ne_nil _ _)

/-- A remainder is left by matching that took nothing, or that took a level with its orders. -/
theorem matchLevels_progress (hne : ∀ l ∈ ls, l.orders ≠ [])
    (h : (r.matchLevels ls rem).rem ≠ 0) :
    r.matchLevels ls rem = ⟨ls, rem, []⟩ ∨
      (r.matchLevels ls rem).left.length < ls.length ∧
        ((r.matchLevels ls rem).left.flatMap Level.orders).length <
          (ls.flatMap Level.orders).length := by
  fun_induction matchLevels r ls rem with
  | case1 | case2 => exact .inl rfl
  | case3 l ls rem _ o _ ih =>
    refine .inr ?_
    have hpos : 0 < l.orders.length := List.length_pos_of_ne_nil (hne l List.mem_cons_self)
    simp only [Outcome.after, List.length_cons, List.flatMap_cons, List.length_append]
    rcases ih (fun m hm => hne m (List.mem_cons_of_mem _ hm)) h with hsame | ⟨hls, hos⟩
    · rw [hsame]
      exact ⟨Nat.lt_succ_self _, Nat.lt_add_of_pos_left hpos⟩
    · omega
  | case4 _ _ _ _ _ hnil => exact absurd (matchOrders_left_nil h) hnil

end Request

end MatchingEngine
