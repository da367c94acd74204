import MatchingEngine.Cpp.Totality

/-!
# The liquidity checks of the C++ engine

`availQty` adds up the visible quantities of the orders that an order can match, until it has
enough. The sum wraps at `2^63`, and `validate` puts no bound on a quantity, so the check is exact
and its additions stay in range just when the quantities that it comes to add up to less than
`2^63`.
-/

namespace MatchingEngine.Cpp

open Lib

/-- `availQty` over the quantities that it comes to, from the sum `a` on. -/
def scanSum (thresh : ℤ) : List ℤ → ℤ → ℤ
  | [], a => a
  | v :: vs, a => if thresh ≤ wrap64 (a + v) then wrap64 (a + v) else scanSum thresh vs (wrap64 (a + v))

/-- The sums of its additions, before they wrap. -/
def scanSums (thresh : ℤ) : List ℤ → ℤ → List ℤ
  | [], _ => []
  | v :: vs, a =>
    (a + v) :: if thresh ≤ wrap64 (a + v) then [] else scanSums thresh vs (wrap64 (a + v))

/-- An `int64_t` can hold the number. -/
def InRange (n : ℤ) : Prop := -2 ^ 63 ≤ n ∧ n < 2 ^ 63

/-- A sum in range is not wrapped. -/
theorem InRange.wrap64 {n : ℤ} (h : InRange n) : wrap64 n = n := by
  unfold Cpp.wrap64
  exact Int.bmod_eq_of_le (by have := h.1; omega) (by have := h.2; omega)

section Scan

variable {thresh a : ℤ} {vs : List ℤ}

/-- As long as the quantities before one are not enough, the sum with that one is below `2^63`. -/
def Bounded (thresh : ℤ) (vs : List ℤ) (a : ℤ) : Prop :=
  ∀ k, a + (vs.take k).sum < thresh → a + (vs.take (k + 1)).sum < 2 ^ 63

/-- Some of these quantities sum up to no less than nothing. -/
theorem sum_take_nonneg (hvs : ∀ v ∈ vs, 0 < v) (k : ℕ) : 0 ≤ (vs.take k).sum :=
  List.sum_nonneg fun v hv => (hvs v (List.mem_of_mem_take hv)).le

/-- The sums with one more quantity in front. -/
theorem bounded_cons {v : ℤ} (hlt : a < thresh) :
    Bounded thresh (v :: vs) a ↔ a + v < 2 ^ 63 ∧ Bounded thresh vs (a + v) := by
  unfold Bounded
  constructor
  · intro h
    refine ⟨by simpa using h 0 (by simpa using hlt), fun k hk => ?_⟩
    have h' := h (k + 1)
    simp only [List.take_succ_cons, List.sum_cons] at h'
    rw [add_assoc] at hk ⊢
    exact h' hk
  · rintro ⟨h0, h⟩ k hk
    cases k with
    | zero => simpa using h0
    | succ k =>
      simp only [List.take_succ_cons, List.sum_cons] at hk ⊢
      rw [← add_assoc] at hk ⊢
      exact h k hk

/-- The additions stay in range just when the quantities do, and then the check is exact. -/
theorem scan_exact (hvs : ∀ v ∈ vs, 0 < v) : ∀ {a}, 0 ≤ a → a < thresh → a < 2 ^ 63 →
    ((∀ n ∈ scanSums thresh vs a, InRange n) ↔ Bounded thresh vs a) ∧
      (Bounded thresh vs a → (thresh ≤ scanSum thresh vs a ↔ thresh ≤ a + vs.sum)) := by
  induction vs with
  | nil =>
    intro a h0 hlt h63
    have hb : Bounded thresh [] a := fun k _ => by simpa using h63
    refine ⟨⟨fun _ => hb, fun _ n hn => absurd hn List.not_mem_nil⟩, fun _ => ?_⟩
    rw [List.sum_nil, add_zero]
    exact Iff.rfl
  | cons v vs ih =>
    intro a h0 hlt h63
    obtain ⟨hv, hvs⟩ := List.forall_mem_cons.mp hvs
    have hsum : 0 ≤ vs.sum := List.sum_nonneg fun v hv => (hvs v hv).le
    rw [bounded_cons hlt]
    unfold scanSums scanSum
    rw [List.forall_mem_cons]
    by_cases hin : a + v < 2 ^ 63
    · have hrange : InRange (a + v) := ⟨by omega, hin⟩
      rw [hrange.wrap64, List.sum_cons]
      by_cases hgot : thresh ≤ a + v
      · -- The scan is over, and what comes after is not looked at.
        have hb : Bounded thresh vs (a + v) := fun k hk => by
          have := sum_take_nonneg hvs k
          omega
        rw [if_pos hgot, if_pos hgot]
        refine ⟨⟨fun _ => ⟨hin, hb⟩, fun _ => ⟨hrange, fun n hn => absurd hn List.not_mem_nil⟩⟩,
          fun _ => ?_⟩
        exact ⟨fun _ => by omega, fun _ => hgot⟩
      · rw [if_neg hgot, if_neg hgot]
        obtain ⟨hsums, hexact⟩ := ih hvs (a := a + v) (by omega) (by omega) hin
        refine ⟨⟨fun h => ⟨hin, hsums.mp h.2⟩, fun h => ⟨hrange, hsums.mpr h.2⟩⟩, fun h => ?_⟩
        rw [← add_assoc]
        exact hexact h.2
    · refine ⟨⟨fun h => absurd h.1.2 hin, fun h => absurd h.1 hin⟩, fun h => absurd h.1 hin⟩

end Scan

namespace Flat

/-! ## The additions of `availQty` -/

/-- The sums of the additions of the inner loop of `availQty`, before they wrap. -/
def addsQueue (inc : Order) (thresh : ℤ) : List Order → ℤ → List ℤ
  | [], _ => []
  | r :: q, avail =>
    if stpConflict inc r then addsQueue inc thresh q avail
    else (avail + r.visibleQty) ::
      if thresh ≤ wrap64 (avail + r.visibleQty) then []
      else addsQueue inc thresh q (wrap64 (avail + r.visibleQty))

/-- The sums of the additions of `availQty`, before they wrap. -/
def addsLevels (inc : Order) (thresh : ℤ) : Levels → ℤ → List ℤ
  | [], _ => []
  | l :: m, avail =>
    if canMatch inc l.1 then
      addsQueue inc thresh l.2 avail ++
        match availQueue inc thresh l.2 avail with
        | (_, true) => []
        | (avail, false) => addsLevels inc thresh m avail
    else []

/-- The visible quantities of the orders of a queue that an order does not conflict with. -/
def shownQueue (inc : Order) (q : List Order) : List ℤ :=
  (q.filter fun r => ¬ stpConflict inc r).map (·.visibleQty)

/-- The visible quantities of the orders that an order can match: all those of the levels within its
limit that it does not conflict with. -/
def shownLevels (inc : Order) (m : Levels) : List ℤ :=
  shownQueue inc ((m.filter fun l => canMatch inc l.1).flatMap (·.2))

variable {inc : Order} {thresh : ℤ} {m : Levels} {q : List Order} {b : Side}

/-- What two parts of a queue show. -/
theorem shownQueue_append (inc : Order) (q q' : List Order) :
    shownQueue inc (q ++ q') = shownQueue inc q ++ shownQueue inc q' := by
  unfold shownQueue
  rw [List.filter_append, List.map_append]

/-- The inner loop, before quantities `vs` of other levels. -/
theorem scan_queue (inc : Order) (thresh : ℤ) (vs : List ℤ) : ∀ (q : List Order) (avail : ℤ),
    (scanSum thresh (shownQueue inc q ++ vs) avail = match availQueue inc thresh q avail with
      | (a, true) => a
      | (a, false) => scanSum thresh vs a) ∧
    scanSums thresh (shownQueue inc q ++ vs) avail = addsQueue inc thresh q avail ++
      match availQueue inc thresh q avail with
      | (_, true) => []
      | (a, false) => scanSums thresh vs a := by
  intro q
  induction q with
  | nil => exact fun avail => ⟨rfl, rfl⟩
  | cons r q ih =>
    intro avail
    unfold availQueue addsQueue
    by_cases hc : stpConflict inc r = true
    · have hq : shownQueue inc (r :: q) = shownQueue inc q := by
        unfold shownQueue
        rw [List.filter_cons_of_neg (by simp [hc])]
      rw [if_pos hc, if_pos hc, hq]
      exact ih avail
    · have hq : shownQueue inc (r :: q) = r.visibleQty :: shownQueue inc q := by
        unfold shownQueue
        rw [List.filter_cons_of_pos (by simp [hc])]
        rfl
      rw [if_neg hc, if_neg hc, hq, List.cons_append]
      rw [scanSum, scanSums]
      by_cases hgot : thresh ≤ wrap64 (avail + r.visibleQty)
      · rw [if_pos hgot, if_pos hgot, if_pos hgot, if_pos hgot]
        exact ⟨rfl, rfl⟩
      · rw [if_neg hgot, if_neg hgot, if_neg hgot, if_neg hgot]
        obtain ⟨h₁, h₂⟩ := ih (wrap64 (avail + r.visibleQty))
        exact ⟨h₁, congrArg (_ :: ·) h₂⟩

/-- A price behind one that is not within the limit is not within it either. -/
theorem canMatch_behind {p p' : ℤ} (h : canMatch inc p = false)
    (hb : better (oppositeSide inc.side) p p' = true) : canMatch inc p' = false := by
  unfold canMatch at *
  cases hs : inc.side <;> rw [hs] at h hb <;> revert h hb <;> simp [better, oppositeSide] <;> omega

/-- No level behind one that is not within the limit is. -/
theorem shownLevels_nil {l : ℤ × List Order} (hm : Shelf (oppositeSide inc.side) (l :: m))
    (h : canMatch inc l.1 = false) : shownLevels inc (l :: m) = [] := by
  have hnone : (l :: m).filter (fun l => canMatch inc l.1) = [] := by
    refine List.filter_eq_nil_iff.mpr (List.forall_mem_cons.mpr ⟨by rw [h]; nofun, fun l' hl' => ?_⟩)
    rw [canMatch_behind h ((List.pairwise_cons.mp hm.sorted).1 l' hl')]
    nofun
  unfold shownLevels
  rw [hnone]
  rfl

/-- What the best level and those behind it show to an order that matches it. -/
theorem shownLevels_cons {l : ℤ × List Order} (h : canMatch inc l.1 = true) :
    shownLevels inc (l :: m) = shownQueue inc l.2 ++ shownLevels inc m := by
  unfold shownLevels
  rw [List.filter_cons_of_pos (p := fun l : ℤ × List Order => canMatch inc l.1) h, List.flatMap_cons,
    shownQueue_append]

/-- `availQty` adds up the visible quantities of the orders that an order can match. -/
theorem scan_levels (inc : Order) (thresh : ℤ) : ∀ {m : Levels}, Shelf (oppositeSide inc.side) m →
    ∀ avail, scanSum thresh (shownLevels inc m) avail = availLevels inc thresh m avail ∧
      scanSums thresh (shownLevels inc m) avail = addsLevels inc thresh m avail := by
  intro m
  induction m with
  | nil => exact fun _ avail => ⟨rfl, rfl⟩
  | cons l m ih =>
    intro hm avail
    cases hcan : canMatch inc l.1 with
    | false =>
      rw [shownLevels_nil hm hcan]
      unfold availLevels addsLevels
      rw [if_neg (by rw [hcan]; exact Bool.false_ne_true),
        if_neg (by rw [hcan]; exact Bool.false_ne_true)]
      exact ⟨rfl, rfl⟩
    | true =>
      obtain ⟨h₁, h₂⟩ := scan_queue inc thresh (shownLevels inc m) l.2 avail
      rw [shownLevels_cons hcan, h₁, h₂, availLevels, addsLevels, if_pos hcan, if_pos hcan]
      cases availQueue inc thresh l.2 avail with
      | mk a reached =>
        cases reached with
        | true => exact ⟨rfl, rfl⟩
        | false => exact ⟨(ih hm.tail a).1, congrArg (_ ++ ·) (ih hm.tail a).2⟩

/-- Resting orders show a positive quantity. -/
theorem shownLevels_pos {b : Side} (hm : Shelf b m) : ∀ v ∈ shownLevels inc m, 0 < v := by
  intro v hv
  obtain ⟨r, hr, rfl⟩ := List.mem_map.mp hv
  obtain ⟨l, hl, hrl⟩ := List.mem_flatMap.mp (List.mem_filter.mp hr).1
  exact (hm.rest l (List.mem_filter.mp hl).1 r hrl).visible

/-- The check for `thresh` is exact, and its additions stay in range. -/
def ExactCheck (inc : Order) (thresh : ℤ) (m : Levels) : Prop :=
  (thresh ≤ availLevels inc thresh m 0 ↔ thresh ≤ (shownLevels inc m).sum) ∧
    ∀ n ∈ addsLevels inc thresh m 0, InRange n

/-- As long as the quantities before one are not enough, the sum with that one is below `2^63`. -/
def NoOverflow (inc : Order) (thresh : ℤ) (m : Levels) : Prop :=
  ∀ k, ((shownLevels inc m).take k).sum < thresh → ((shownLevels inc m).take (k + 1)).sum < 2 ^ 63

/-- Quantities that sum to less than `2^63` do not overflow. -/
theorem noOverflow_of_sum {b : Side} (hm : Shelf b m) (h : (shownLevels inc m).sum < 2 ^ 63) :
    NoOverflow inc thresh m := by
  intro k _
  have hsplit := List.sum_take_add_sum_drop (shownLevels inc m) (k + 1)
  have hrest : 0 ≤ ((shownLevels inc m).drop (k + 1)).sum :=
    List.sum_nonneg fun v hv => (shownLevels_pos hm v (List.mem_of_mem_drop hv)).le
  omega

/-- A check is exact just when the quantities that it comes to do not overflow. -/
theorem exactCheck_iff (hm : Shelf (oppositeSide inc.side) m) (hpos : 0 < thresh) :
    ExactCheck inc thresh m ↔ NoOverflow inc thresh m := by
  obtain ⟨hsums, hexact⟩ := scan_exact (shownLevels_pos hm) (le_refl 0) hpos (by decide)
  obtain ⟨h₁, h₂⟩ := scan_levels inc thresh hm 0
  rw [h₁, zero_add] at hexact
  rw [h₂] at hsums
  have hb : Bounded thresh (shownLevels inc m) 0 ↔ NoOverflow inc thresh m := by
    unfold Bounded NoOverflow
    simp only [zero_add]
  rw [← hb, ← hsums]
  exact ⟨fun h => h.2, fun h => ⟨hexact (hsums.mp h), h⟩⟩

end Flat

section PreChecks

variable {S : StdSort} {pop : PostOnlyPolicy} {tickSz : ℤ} {s : Engine} {f : Flat} {fl : List Order}
  {o i : Order} {now : ℕ}

/-- In every state that a call of a run passes through, and for every valid order, as it was
submitted or as the order that it becomes when it triggers: each of its two checks is exact, and
adds up without overflow, just when the quantities that it comes to do not sum to `2^63` before they
are enough. -/
theorem preChecks_exact (hs : Reach S pop tickSz s) (hf : Flat.Steps Any (s.flat, []) (f, fl))
    (hv : validate now i = none) (ho : o = i ∨ o = (Flat.trigger i f.tape).1) :
    (Flat.ExactCheck o o.quantity (f.side (oppositeSide o.side)) ↔
      Flat.NoOverflow o o.quantity (f.side (oppositeSide o.side))) ∧
    (0 < o.minQty → (Flat.ExactCheck o o.minQty (f.side (oppositeSide o.side)) ↔
      Flat.NoOverflow o o.minQty (f.side (oppositeSide o.side)))) := by
  have hi : Inv f fl := hs.inv.steps hf
  have hq : 0 < o.quantity := by
    have hi := (valid_of_validate hv).quantity
    rcases ho with rfl | rfl
    · exact hi
    · exact hi
  exact ⟨Flat.exactCheck_iff (hi.sides _) hq, Flat.exactCheck_iff (hi.sides _)⟩

/-- Asks at three prices, of which the second one is of the buyer's group and the third one an
iceberg. -/
def threeAsks : List Call :=
  [.submit { id := 1, side := .SELL, price := 100, quantity := 5 },
    .submit { id := 2, side := .SELL, price := 100, quantity := 4, selfTradeGroup := 7,
               stpPolicy := .CANCEL_NEWEST },
    .submit { id := 3, side := .SELL, price := 101, quantity := 6, displayQty := 2 },
    .submit { id := 4, side := .SELL, price := 102, quantity := 10 }]

/-- An order of the group that asks for 15, and for 6 of them at once. -/
def buyPart : Order :=
  { id := 9, timeInForce := .GTC, price := 101, quantity := 15, remainingQty := 15, visibleQty := 15,
    minQty := 6, selfTradeGroup := 7, stpPolicy := .CANCEL_NEWEST }

/-- Both checks of the order come to a quantity at each of two prices. -/
theorem preChecks_exact_buyPart : ∃ s, Reach .insertion .REJECT 1 s ∧
    Flat.shownLevels buyPart (s.flat.side .SELL) = [5, 2] ∧
    Flat.ExactCheck buyPart 15 (s.flat.side .SELL) ∧
    Flat.ExactCheck buyPart 6 (s.flat.side .SELL) := by
  have hsome : (runAll .insertion threeAsks (.init .REJECT 1)).map (fun r =>
      Flat.shownLevels buyPart (r.2.view .SELL)) = some [5, 2] := by decide +kernel
  obtain ⟨⟨_, s⟩, hrun, hshown⟩ := Option.map_eq_some_iff.mp hsome
  have hs := Reach.init.runAll hrun
  have hvalid : validate 1 buyPart = none := by decide
  rw [← Engine.side_flat] at hshown
  have hexact := preChecks_exact (o := buyPart) hs .refl hvalid (.inl rfl)
  have hsum : (Flat.shownLevels buyPart (s.flat.side .SELL)).sum < 2 ^ 63 := by
    rw [hshown]
    decide
  have hno : ∀ thresh, Flat.NoOverflow buyPart thresh (s.flat.side .SELL) := fun _ =>
    Flat.noOverflow_of_sum (hs.inv.sides .SELL) hsum
  exact ⟨s, hs, hshown, hexact.1.mpr (hno _), (hexact.2 (by decide)).mpr (hno _)⟩

/-- Two asks whose quantities do not fit an `int64_t` together. -/
def hugeAsks : List Call :=
  [.submit { id := 1, side := .SELL, price := 100, quantity := 2 ^ 63 - 2 },
    .submit { id := 2, side := .SELL, price := 100, quantity := 2 ^ 63 - 2 }]

/-- The order that asks for one more than the first of them shows. -/
def hugeBuy : Order :=
  { id := 9, timeInForce := .FOK, price := 100, quantity := 2 ^ 63 - 1, remainingQty := 2 ^ 63 - 1,
    visibleQty := 2 ^ 63 - 1 }

/-- The check does not find what is there. -/
theorem hugeBuy_not_exact : ¬ ∀ (s : Engine) (o : Order), Reach .insertion .REJECT 1 s →
    validate (s.now_ + 1) o = none →
      Flat.ExactCheck o o.quantity (s.flat.side (oppositeSide o.side)) := by
  intro h
  have hview : ((runAll .insertion hugeAsks (.init .REJECT 1)).map fun r =>
      (validate (r.2.now_ + 1) hugeBuy,
        decide (hugeBuy.quantity ≤ Flat.availLevels hugeBuy hugeBuy.quantity (r.2.view .SELL) 0),
        decide (hugeBuy.quantity ≤ (Flat.shownLevels hugeBuy (r.2.view .SELL)).sum))) =
      some (none, false, true) := by
    decide +kernel
  obtain ⟨⟨_, s⟩, hrun, hv⟩ := Option.map_eq_some_iff.mp hview
  obtain ⟨hv, hv'⟩ := Prod.mk.inj hv
  obtain ⟨hno, hyes⟩ := Prod.mk.inj hv'
  have hexact := (h s hugeBuy (Reach.init.runAll hrun) hv).1
  rw [Engine.side_flat] at hexact
  exact of_decide_eq_false hno (hexact.mpr (of_decide_eq_true hyes))

end PreChecks

end MatchingEngine.Cpp
