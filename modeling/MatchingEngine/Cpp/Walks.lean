import MatchingEngine.Cpp.Acts
import MatchingEngine.Cpp.Holds

/-!
# What the C++ engine reads of its heap

The loops of the engine that read: over the queue of a level, over the levels of a side, and over
the stops. Each of them returns, leaves the state as it was, and finds what its counterpart of
`Cpp/Flat.lean` finds in the values. A queue has no more orders than were ever allocated, so the
bound of the walk is enough.
-/

namespace MatchingEngine.Cpp

open Lib

section Reads

variable {s : Engine} {G : Layout} {b : Side} {rows m : List Row} {q : List (ℕ × Order)}

/-- The orders of some addresses. -/
def Reads (s : Engine) (q : List (ℕ × Order)) : Prop := ∀ e ∈ q, valueAt s.orders e.1 = some e.2

/-- The cells of a queue hold its orders. -/
theorem Holds.reads {r : Row} (h : Holds s G) (hr : r ∈ G.side b) : Reads s r.queue := fun e he =>
  (h.standing.stored.value e.1 e.2).mpr (Layout.mem_side hr he)

/-- A queue has no more orders than were ever allocated. -/
theorem Holds.length_le {r : Row} (h : Holds s G) (hr : r ∈ G.side b) : r.queue.length ≤ s.oA_ := by
  have hcount := h.standing.stored.count
  have hsub : r.queue.Sublist (spread (G.bids ++ G.asks)) :=
    List.sublist_flatten_of_mem (List.mem_map_of_mem (Layout.mem_row hr))
  have hle := hsub.length_le
  rw [List.length_append] at hcount
  omega

/-- The values at the addresses of a queue. -/
theorem Reads.values (h : Reads s q) : s.values (q.map (·.1)) = q.map (·.2) := by
  induction q with
  | nil => rfl
  | cons e q ih =>
    obtain ⟨he, hq⟩ := List.forall_mem_cons.mp h
    unfold Engine.values at ih ⊢
    rw [List.map_cons, List.filterMap_cons, show (s.orders e.1).map (·.order) = some e.2 from he,
      ih hq]
    rfl

/-- The queue of a row. -/
theorem Holds.queue {r : Row} (h : Holds s G) (hr : r ∈ G.side b) :
    s.queue r.addr = r.queue.map (·.1) := by
  obtain ⟨l, hl, -, hq⟩ := (h.standing.row r (Layout.mem_row hr)).level
  unfold Engine.queue
  rw [hl]
  refine hq.fwd.walk_eq ?_
  rw [List.length_map]
  exact h.length_le hr

/-- The levels of a side with their orders. -/
theorem Holds.view (h : Holds s G) (b : Side) : s.view b = levelsOf (G.side b) := by
  unfold Engine.view levelsOf
  rw [h.book, List.map_map]
  refine List.map_congr_left fun r hr => ?_
  dsimp only [Function.comp_apply]
  rw [h.queue hr, (h.reads hr).values]

/-- The stops. -/
theorem Holds.dormant (h : Holds s G) : s.values s.stops_ = G.stops.map (·.2) := by
  rw [h.stops]
  exact Reads.values fun e he => (h.standing.stored.value e.1 e.2).mpr (Layout.mem_stops he)

/-- A queue from an address on. -/
theorem availLevel_run (inc : Order) (thresh : ℤ) : ∀ n q p avail, q.length ≤ n → Reads s q →
    Chain (nextAt s.orders) p (q.map (·.1)) →
    availLevel inc thresh n p avail s = some (Flat.availQueue inc thresh (q.map (·.2)) avail, s) := by
  intro n
  induction n with
  | zero =>
    intro q p avail hlen _ hc
    obtain rfl : q = [] := List.length_eq_zero_iff.mp (by omega)
    obtain rfl : p = none := hc
    rfl
  | succ n ih =>
    intro q p avail hlen hr hc
    cases q with
    | nil =>
      obtain rfl : p = none := hc
      rfl
    | cons e q =>
      obtain ⟨rfl, hc⟩ := hc
      obtain ⟨he, hq⟩ := List.forall_mem_cons.mp hr
      obtain ⟨c, hcell, hco⟩ := cell_of_valueAt he
      have hnext := nextAt_of_cell hcell
      have hrec := fun avail => ih q c.next avail (by simpa using hlen) hq (by rwa [← hnext])
      unfold availLevel
      rw [run_bind (show cell e.1 s = some (c, s) by unfold cell; rw [hcell]; rfl), hco]
      rw [List.map_cons, Flat.availQueue]
      split
      · exact hrec avail
      · split
        · rfl
        · exact hrec _

/-- The levels of a side from one on. -/
theorem availLevels_run {inc : Order} {thresh : ℤ} (h : Holds s G) : ∀ m avail,
    (∀ r ∈ m, r ∈ G.side b) →
    availLevels inc thresh (m.map fun r => (r.price, r.addr)) avail s =
      some (Flat.availLevels inc thresh (levelsOf m) avail, s) := by
  intro m
  induction m with
  | nil => exact fun avail _ => rfl
  | cons r m ih =>
    intro avail hm
    obtain ⟨hr, hm⟩ := List.forall_mem_cons.mp hm
    rw [List.map_cons, levelsOf_cons, availLevels, Flat.availLevels]
    split
    · obtain ⟨l, hl, -, -, hq⟩ := h.level hr
      have hrun := availLevel_run inc thresh s.oA_ r.queue l.head avail
        (h.length_le hr) (h.reads hr) hq.fwd
      rw [run_bind hl, run_bind (show read (·.oA_) s = some (s.oA_, s) from rfl), run_bind hrun]
      cases Flat.availQueue inc thresh (r.queue.map (·.2)) avail with
      | mk a reached =>
        cases reached with
        | true => rfl
        | false => exact ih a hm
    · rfl

/-- The walk of `availQty` over the levels finds what the values offer. -/
theorem availQty_run {inc : Order} {thresh : ℤ} (h : Holds s G) (b : Side) :
    availQty inc b thresh s = some (Flat.availLevels inc thresh (levelsOf (G.side b)) 0, s) := by
  unfold availQty
  rw [run_bind (show read (·.book b) s = some (s.book b, s) from rfl), h.book]
  exact availLevels_run h _ 0 fun r hr => hr

/-- The check of a fill-or-kill order. -/
theorem fokCheck_run {o : Order} (h : Holds s G) (t : Tape) :
    fokCheck o s = some (Flat.fokCheck o (G.flat t), s) := by
  unfold fokCheck Flat.fokCheck
  rw [run_bind (availQty_run h _), Layout.side_flat]
  rfl

/-- The check of the minimum. -/
theorem minQtyCheck_run {o : Order} (h : Holds s G) (t : Tape) :
    minQtyCheck o s = some (Flat.minQtyCheck o (G.flat t), s) := by
  unfold minQtyCheck Flat.minQtyCheck
  rw [run_bind (availQty_run h _), Layout.side_flat]
  rfl

/-- The test of a post-only order. -/
theorem wouldCross_eq {o : Order} (h : Holds s G) (t : Tape) :
    wouldCross o s = Flat.wouldCross o (G.flat t) := by
  have hasks : s.asks_ = G.asks.map fun r => (r.price, r.addr) := h.book .SELL
  have hbids : s.bids_ = G.bids.map fun r => (r.price, r.addr) := h.book .BUY
  unfold wouldCross Flat.wouldCross Layout.flat
  cases o.side with
  | BUY =>
    dsimp only
    rw [hasks]
    cases G.asks <;> rfl
  | SELL =>
    dsimp only
    rw [hbids]
    cases G.bids <;> rfl

/-- The orders of a queue that expire. -/
theorem scanLevel_run {t : ℕ} : ∀ n q p exp, q.length ≤ n → Reads s q →
    Chain (nextAt s.orders) p (q.map (·.1)) →
    scanLevel t n p exp s = some (exp ++ (q.filter fun e => shouldExpire t e.2).map (·.1), s) := by
  intro n
  induction n with
  | zero =>
    intro q p exp hlen _ hc
    obtain rfl : q = [] := List.length_eq_zero_iff.mp (by omega)
    obtain rfl : p = none := hc
    rw [List.filter_nil, List.map_nil, List.append_nil]
    rfl
  | succ n ih =>
    intro q p exp hlen hr hc
    cases q with
    | nil =>
      obtain rfl : p = none := hc
      rw [List.filter_nil, List.map_nil, List.append_nil]
      rfl
    | cons e q =>
      obtain ⟨rfl, hc⟩ := hc
      obtain ⟨he, hq⟩ := List.forall_mem_cons.mp hr
      obtain ⟨c, hcell, hco⟩ := cell_of_valueAt he
      have hnext := nextAt_of_cell hcell
      have hrec := fun exp => ih q c.next exp (by simpa using hlen) hq (by rwa [← hnext])
      unfold scanLevel
      rw [run_bind (show cell e.1 s = some (c, s) by unfold cell; rw [hcell]; rfl), hco, hrec,
        List.filter_cons]
      split
      · rw [List.append_assoc]
        rfl
      · rfl

/-- The scan of a side finds the resting orders that have expired. -/
theorem scan_run {t : ℕ} (h : Holds s G) : ∀ m exp, (∀ r ∈ m, r ∈ G.side b) →
    scan t (m.map fun r => (r.price, r.addr)) exp s =
      some (exp ++ ((spread m).filter fun e => shouldExpire t e.2).map (·.1), s) := by
  intro m
  induction m with
  | nil =>
    intro exp _
    change some (exp, s) = some (exp ++ [], s)
    rw [List.append_nil]
  | cons r m ih =>
    intro exp hm
    obtain ⟨hr, hm⟩ := List.forall_mem_cons.mp hm
    obtain ⟨l, hl, -, -, hq⟩ := h.level hr
    have hrun := scanLevel_run (t := t) s.oA_ r.queue l.head exp (h.length_le hr) (h.reads hr) hq.fwd
    rw [List.map_cons, scan, run_bind hl, run_bind (show read (·.oA_) s = some (s.oA_, s) from rfl),
      run_bind hrun, ih _ hm, spread_cons, List.filter_append, List.map_append, List.append_assoc]

end Reads

/-! ## The stops -/

/-- Removing by a swap commutes with reading the values. -/
theorem swapRemove_map {α β : Type} (f : α → β) (v : List α) (i : ℕ) :
    swapRemove (v.map f) i = (swapRemove v i).map f := by
  unfold swapRemove
  rw [List.getLast?_map]
  cases v.getLast? with
  | none => rfl
  | some x =>
    dsimp only [Option.map_some]
    rw [← List.map_set, List.map_dropLast]

/-- The scan of the stops commutes with reading the values. -/
theorem takeOut_map {α β : Type} (f : α → β) (p : β → Bool) : ∀ n i (v out : List α),
    takeOut p n i (v.map f) (out.map f) =
      (takeOut (fun x => p (f x)) n i v out).map fun r => (r.1.map f, r.2.map f) := by
  intro n
  induction n with
  | zero => exact fun _ _ _ => rfl
  | succ n ih =>
    intro i v out
    unfold takeOut
    rw [List.getElem?_map]
    cases hv : v[i]? with
    | none => rfl
    | some x =>
      dsimp only [Option.map_some]
      split
      · rw [swapRemove_map, ← ih]
        congr 1
        rw [List.map_append]
        rfl
      · exact ih _ _ _

/-- What `std::sort` does to the elements it does to what they come from. -/
theorem sort_map (S : StdSort) {α β : Type} (f : α → β) (key : β → ℕ) (v : List α) :
    S.sort key (v.map f) = (S.sort (fun x => key (f x)) v).map f := by
  unfold StdSort.sort
  rw [List.map_map, List.map_filterMap]
  refine List.filterMap_congr fun i _ => ?_
  rw [List.getElem?_map]

/-- `std::sort` sees the keys of the elements only. -/
theorem sort_congr (S : StdSort) {α : Type} {key key' : α → ℕ} {v : List α}
    (h : ∀ x ∈ v, key x = key' x) : S.sort key v = S.sort key' v := by
  unfold StdSort.sort
  rw [List.map_congr_left h]

section Stops

variable {s : Engine} {v out : List (ℕ × Order)} {px : ℤ}

/-- The loop that takes out the stops that fire. -/
theorem takeStops_run : ∀ n i v out r (s : Engine), s.stops_ = v.map (·.1) → Reads s v →
    takeOut (fun e : ℕ × Order => fires px e.2) n i v out = some r →
    takeStops px n i (out.map (·.1)) s = some (r.1.map (·.1), { s with stops_ := r.2.map (·.1) }) := by
  intro n
  induction n with
  | zero =>
    intro i v out r s _ _ h
    cases h
  | succ n ih =>
    intro i v out r s hs hr h
    unfold takeOut at h
    unfold takeStops
    rw [run_bind (show read (·.stops_) s = some (s.stops_, s) from rfl), hs, List.getElem?_map]
    cases hv : v[i]? with
    | none =>
      rw [hv] at h
      cases h
      rw [← hs]
      rfl
    | some e =>
      rw [hv] at h
      have he := hr e (List.mem_of_getElem? hv)
      obtain ⟨c, hcell, hco⟩ := cell_of_valueAt he
      dsimp only [Option.map_some] at h ⊢
      rw [run_bind (show order e.1 s = some (e.2, s) by unfold order; rw [hcell, ← hco]; rfl)]
      split at h
      · rename_i hf
        rw [if_pos hf]
        have hsub : ∀ x ∈ swapRemove v i, x ∈ v := fun x hx =>
          (Flat.perm_swapRemove hv).mem_iff.mpr (List.mem_cons_of_mem _ hx)
        have hrec := ih i (swapRemove v i) (out ++ [e]) r
          { s with stops_ := (swapRemove v i).map (·.1) } rfl (fun x hx => hr x (hsub x hx)) h
        rw [run_bind (show write _ s = some ((), { s with stops_ := (swapRemove v i).map (·.1) }) by
          unfold write
          dsimp only
          rw [hs, swapRemove_map])]
        rw [List.map_append] at hrec
        exact hrec
      · rename_i hf
        rw [if_neg hf]
        exact ih _ _ _ _ _ hs hr h

end Stops

end MatchingEngine.Cpp
