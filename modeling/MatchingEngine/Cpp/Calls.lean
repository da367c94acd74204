import MatchingEngine.Cpp.Refine

/-!
# The calls of the C++ engine refine its values

Between two calls no order is in flight. A call that returns does what its counterpart of
`Cpp/Flat.lean` does, with the same result, and every call returns but one: `submitOrder` of an
order that is valid and new, with an id that the index has no room for.

Each section has one call. Cancelling and expiring take orders out of the queues and of the vector
of stops (`Shows.takeResting`, `Shows.takeStop`); amending writes in place or starts the pipeline
again. `Shows.submitOrder` is the longest: the order gets a cell, the index is asked and told, and
the pipeline runs on it.
-/

namespace MatchingEngine.Cpp

open Lib

/-- A state between two calls, and its values. -/
def Shown (s : Engine) (f : Flat) : Prop := ∃ G, Holds s G ∧ G.flat s.tape = f ∧ G.flying = []

/-- Tests that agree on a list find the same position. -/
theorem findIdx?_congr {α : Type} {p q : α → Bool} : ∀ {v : List α}, (∀ x ∈ v, p x = q x) →
    v.findIdx? p = v.findIdx? q := by
  intro v h
  induction v with
  | nil => rfl
  | cons x v ih =>
    obtain ⟨hx, hv⟩ := List.forall_mem_cons.mp h
    rw [List.findIdx?_cons, List.findIdx?_cons, hx, ih hv]

section Calls

variable {K : UInt64 → ℕ} {s s' : Engine} {f f' : Flat} {fl : List Order} {o : Order}
  {G : Layout} {b : Side}
  {pre post : List Row} {p : ℤ} {lv x : ℕ} {as bs : List (ℕ × Order)}

/-- Between two calls no order is in flight. -/
theorem Shows.shown (h : Shows K s f []) : Shown s f := by
  obtain ⟨G, hs, -, hf, hfl⟩ := h
  exact ⟨G, hs, hf, hfl⟩

/-- The addresses of the ids are those that the index has. -/
theorem Holds.keyed (h : Holds s G) : Keyed (fun id => (s.idx_.get id).getD 0) G.cells := by
  intro e he
  have hget := (h.standing.stored.index e.2.id e.1).mpr ⟨e.2, he, rfl⟩
  dsimp only
  rw [hget]
  rfl

/-- The addresses are those of the index. -/
theorem Shown.shows (h : Shown s f) : Shows (fun id => (s.idx_.get id).getD 0) s f [] := by
  obtain ⟨G, hs, hf, hfl⟩ := h
  exact ⟨G, hs, hs.keyed, hf, hfl⟩

/-- The tape is the engine's own. -/
theorem Shown.tape (h : Shown s f) : f.tape = s.tape := h.shows.tape

/-! ## A resting order is taken out -/

/-- The rows of a side without an order that is in one queue only. -/
theorem pull_rows (hpre : ∀ e ∈ spread pre, e.2.id ≠ o.id) (has : ∀ e ∈ as, e.2.id ≠ o.id) :
    levelsOf (if as ++ bs = [] then pre ++ post else pre ++ ⟨p, lv, as ++ bs⟩ :: post) =
      pull o.id (levelsOf (pre ++ ⟨p, lv, as ++ (x, o) :: bs⟩ :: post)) := by
  induction pre with
  | nil =>
    -- The row at the front is the one with the order, which is erased from its queue.
    have hany : ((as ++ (x, o) :: bs).map (·.2)).any (fun r => decide (r.id = o.id)) = true :=
      List.any_eq_true.mpr ⟨o, by simp, by simp⟩
    have herase : ((as ++ (x, o) :: bs).map (·.2)).eraseP (fun r => decide (r.id = o.id)) =
        (as ++ bs).map (·.2) := by
      rw [List.map_append, List.eraseP_append_right _ (fun r hr => ?_), List.map_cons,
        List.eraseP_cons_of_pos (p := fun r : Order => decide (r.id = o.id)) (by simp), List.map_append]
      obtain ⟨e, he, rfl⟩ := List.mem_map.mp hr
      simpa using has e he
    rw [List.nil_append, List.nil_append, List.nil_append, levelsOf_cons, pull, if_pos hany, herase]
    -- A row left empty goes with it.
    by_cases hnil : as ++ bs = []
    · rw [if_pos hnil, hnil]
      rfl
    · rw [if_neg hnil, levelsOf_cons]
      obtain ⟨e, q, hq⟩ := List.exists_cons_of_ne_nil hnil
      rw [hq]
      rfl
  | cons r pre ih =>
    rw [spread_cons] at hpre
    obtain ⟨hr, hpre⟩ := List.forall_mem_append.mp hpre
    -- The order is not in this row, so the search goes on.
    have hany : ¬ (r.queue.map (·.2)).any (fun r => decide (r.id = o.id)) = true := by
      intro hx
      obtain ⟨r', hr', hid⟩ := List.any_eq_true.mp hx
      obtain ⟨e, he, rfl⟩ := List.mem_map.mp hr'
      exact hr e he (of_decide_eq_true hid)
    have ih := ih hpre
    simp only [List.cons_append, levelsOf_cons]
    rw [pull, if_neg hany, ← ih]
    split <;> rfl

/-- The orders of the levels, with and without their addresses. -/
theorem orders_levelsOf (rows : List Row) : (levelsOf rows).orders = (spread rows).map (·.2) := by
  unfold Levels.orders levelsOf spread
  rw [List.flatMap_map, List.map_flatMap]

/-- Where a resting order stands. -/
theorem Shows.locate (h : Shows K s f []) (hi : Inv f []) (ho : o ∈ (f.side b).orders) :
    ∃ (G : Layout) (pre : List Row) (p : ℤ) (lv : ℕ) (as bs : List (ℕ × Order)) (post : List Row),
      Holds s (G.put b (pre ++ ⟨p, lv, as ++ (K o.id, o) :: bs⟩ :: post) []) ∧
      (∀ r ∈ pre, r.price ≠ p) ∧ (∀ e ∈ spread pre ++ as, e.2.id ≠ o.id) ∧
      (∀ e ∈ bs ++ spread post, e.2.id ≠ o.id) ∧
      levelsOf (pre ++ ⟨p, lv, as ++ (K o.id, o) :: bs⟩ :: post) = f.side b ∧
      Keyed K (spread (pre ++ ⟨p, lv, as ++ (K o.id, o) :: bs⟩ :: post)) ∧
      ∀ s' m fl, Holds s' (G.put b m fl) → Keyed K (spread m) → Keyed K fl →
        Shows K s' ((f.setSide b (levelsOf m)).withTape s'.tape) (fl.map (·.2)) := by
  obtain ⟨G, hs, hk, rfl, hfl⟩ := h
  have hnil : G.flight = [] := List.map_eq_nil_iff.mp hfl
  obtain ⟨hkm, hko, hkst, -⟩ := (keyed_cells b).mp hk
  rw [Layout.side_flat] at ho
  obtain ⟨l, hl, hq⟩ := Levels.mem_orders.mp ho
  obtain ⟨r, hr, rfl⟩ := List.mem_map.mp hl
  obtain ⟨⟨x, o'⟩, he, rfl⟩ := List.mem_map.mp hq
  obtain ⟨pre, post, hrows⟩ := List.append_of_mem hr
  obtain ⟨as, bs, hqueue⟩ := List.append_of_mem he
  obtain ⟨p, lv, q⟩ := r
  dsimp only at hqueue he
  subst hqueue
  have hx : K o'.id = x := hkm (x, o') (List.mem_flatMap.mpr ⟨_, hr, he⟩)
  subst hx
  -- The ids of the side are distinct, and so are its prices.
  have hids : ((spread (G.side b)).map (·.2.id)).Nodup := by
    have hn := (((G.flat s.tape).ids_side b []).nodup_iff.mp hi.ids)
    have hn := (List.nodup_append.mp hn).2.1
    rwa [Layout.side_flat, orders_levelsOf, List.append_nil, List.map_map] at hn
  have hsort := (hi.sides b).sorted
  rw [Layout.side_flat, hrows] at hsort
  rw [hrows] at hids
  have hsp : spread (pre ++ ⟨p, lv, as ++ (K o'.id, o') :: bs⟩ :: post) =
      (spread pre ++ as) ++ (K o'.id, o') :: (bs ++ spread post) := by
    unfold spread
    rw [List.flatMap_append, List.flatMap_cons]
    simp only [List.append_assoc, List.cons_append]
  rw [hsp, List.map_append, List.map_cons] at hids
  have hout : ∀ e ∈ spread pre ++ as, e.2.id ≠ o'.id := by
    intro e he hid
    refine (List.nodup_append.mp hids).2.2 e.2.id (List.mem_map_of_mem he) o'.id List.mem_cons_self hid
  have hout' : ∀ e ∈ bs ++ spread post, e.2.id ≠ o'.id := by
    intro e he hid
    refine (List.nodup_cons.mp (List.nodup_append.mp hids).2.1).1 ?_
    rw [← hid]
    exact List.mem_map_of_mem he
  refine ⟨G, pre, p, lv, as, bs, post, ?_, fun r hr heq => ?_, hout, hout', ?_, ?_,
    fun s' m fl h' hm hf => ?_⟩
  · have hput := G.put_self b
    rw [hrows, hnil] at hput
    rwa [hput]
  · unfold levelsOf at hsort
    rw [List.map_append] at hsort
    have hb := (List.pairwise_append.mp hsort).2.2 _ (List.mem_map_of_mem hr) _
      (by rw [List.map_cons]; exact List.mem_cons_self)
    dsimp only at hb
    rw [heq] at hb
    cases b <;> simp [better] at hb
  · rw [Layout.side_flat, hrows]
  · rwa [← hrows]
  · refine ⟨_, h', ?_, ?_, by rw [Layout.flying, Layout.flight_put]⟩
    · rw [keyed_cells b, Layout.side_put, Layout.side_put_opposite, Layout.stops_put, Layout.flight_put]
      exact ⟨hm, hko, hkst, hf⟩
    · rw [Layout.flat_put]
      cases b <;> rfl

/-- An order of a queue is written where it is. -/
theorem change_rows {g : Order → Order} (hout : ∀ e ∈ spread pre ++ as, e.2.id ≠ o.id)
    (hout' : ∀ e ∈ bs ++ spread post, e.2.id ≠ o.id) :
    levelsOf (pre ++ ⟨p, lv, as ++ (x, g o) :: bs⟩ :: post) =
      Flat.change o.id g (levelsOf (pre ++ ⟨p, lv, as ++ (x, o) :: bs⟩ :: post)) := by
  obtain ⟨hpre, has⟩ := List.forall_mem_append.mp hout
  obtain ⟨hbs, hpost⟩ := List.forall_mem_append.mp hout'
  -- Queues and rows without the id stay as they are.
  have hq : ∀ q : List (ℕ × Order), (∀ e ∈ q, e.2.id ≠ o.id) →
      (q.map (·.2)).map (fun r => if r.id = o.id then g r else r) = q.map (·.2) := by
    intro q hq
    rw [List.map_map]
    exact List.map_congr_left fun e he => if_neg (hq e he)
  have hrows : ∀ rows : List Row, (∀ e ∈ spread rows, e.2.id ≠ o.id) →
      Flat.change o.id g (levelsOf rows) = levelsOf rows := by
    intro rows hr
    unfold Flat.change levelsOf
    rw [List.map_map]
    refine List.map_congr_left fun r hm => congrArg (Prod.mk r.price) ?_
    exact hq r.queue fun e he => hr e (List.mem_flatMap.mpr ⟨r, hm, he⟩)
  have happend : ∀ rows rows' : List Row, levelsOf (rows ++ rows') = levelsOf rows ++ levelsOf rows' :=
    fun _ _ => List.map_append
  rw [happend, happend, Flat.change, List.map_append]
  refine congrArg₂ _ (hrows pre hpre).symm ?_
  rw [levelsOf_cons, levelsOf_cons, List.map_cons]
  refine congrArg₂ _ ?_ (hrows post hpost).symm
  dsimp only
  rw [List.map_append, List.map_append, List.map_append, List.map_cons, List.map_cons, List.map_cons,
    hq as has, hq bs hbs, if_pos rfl]

/-- What can be done to an order of a queue: it is taken out, also after a write, or written where
it is. -/
theorem Shows.takeResting (h : Shows K s f []) (hi : Inv f []) (ho : o ∈ (f.side b).orders) :
    ∃ c lv, Cpp.cell (K o.id) s = some (c, s) ∧ c.order = o ∧ c.level = some lv ∧
      Returns (removeFrom lv (K o.id) b) s (fun _ s' => Shows K s' (f.unlink b o) [o]) ∧
      ∀ g : Order → Order, (g o).id = o.id →
        Returns (Cpp.set (K o.id) g >>= fun _ => removeFrom lv (K o.id) b) s
          (fun _ s' => Shows K s' (f.unlink b o) [g o]) ∧
        Returns (Cpp.set (K o.id) g) s
          fun _ s' => Shows K s' (f.setSide b (Flat.change o.id g (f.side b))) [] := by
  obtain ⟨G, pre, p, lv, as, bs, post, hs, hpr, hout, hout', hm, hk, hback⟩ := h.locate hi ho
  have hrow : ⟨p, lv, as ++ (K o.id, o) :: bs⟩ ∈
      (G.put b (pre ++ ⟨p, lv, as ++ (K o.id, o) :: bs⟩ :: post) []).side b := by
    rw [Layout.side_put]
    simp
  have hmem : (K o.id, o) ∈ (⟨p, lv, as ++ (K o.id, o) :: bs⟩ : Row).queue := by simp
  obtain ⟨c, hc, hco, hl, -⟩ := hs.cell (Layout.mem_side hrow hmem)
  rw [(hs.standing.row _ (Layout.mem_row hrow)).owner _ hmem] at hl
  have hkm : Keyed K
      (spread (if as ++ bs = [] then pre ++ post else pre ++ ⟨p, lv, as ++ bs⟩ :: post)) := by
    have hsub : ∀ e ∈ spread (if as ++ bs = [] then pre ++ post else pre ++ ⟨p, lv, as ++ bs⟩ :: post),
        e ∈ spread (pre ++ ⟨p, lv, as ++ (K o.id, o) :: bs⟩ :: post) := by
      intro e he
      unfold spread at he ⊢
      split at he
      · rw [List.flatMap_append] at he ⊢
        rw [List.flatMap_cons]
        simp only [List.mem_append] at he ⊢
        exact he.imp_right .inr
      · rw [List.flatMap_append, List.flatMap_cons] at he ⊢
        simp only [List.mem_append, List.mem_cons] at he ⊢
        rcases he with he | (he | he) | he
        · exact .inl he
        · exact .inr (.inl (.inl he))
        · exact .inr (.inl (.inr (.inr he)))
        · exact .inr (.inr he)
    exact fun e he => hk e (hsub e he)
  have hout₁ := List.forall_mem_append.mp hout
  -- Whatever the order has become, taking it out leaves the same rows.
  have hremove : ∀ (s₁ : Engine) (o' : Order), s₁.tape = s.tape → o'.id = o.id →
      Holds s₁ (G.put b (pre ++ ⟨p, lv, as ++ (K o.id, o') :: bs⟩ :: post) []) →
      Returns (removeFrom lv (K o.id) b) s₁ fun _ s' => Shows K s' (f.unlink b o) [o'] := by
    intro s₁ o' ht₁ hid h₁
    refine (h₁.removeFrom hpr).mono fun _ s₂ h₂ => ?_
    obtain ⟨ht₂, h₂⟩ := h₂
    have hsh := hback _ _ _ h₂ hkm (List.forall_mem_singleton.mpr (congrArg K hid))
    rw [pull_rows (o := o) hout₁.1 hout₁.2, hm, ht₂, ht₁, ← h.tape] at hsh
    unfold Flat.unlink
    cases b <;> exact hsh
  refine ⟨c, lv, hc, hco, hl.symm, hremove s o rfl rfl hs, fun g hid => ⟨?_, ?_⟩⟩
  · refine (hs.setQueued g hid).bind fun _ s₁ h₁ => ?_
    exact hremove s₁ (g o) h₁.1 hid h₁.2
  · refine (hs.setQueued g hid).mono fun _ s₁ h₁ => ?_
    obtain ⟨ht₁, h₁⟩ := h₁
    have hkg : Keyed K (spread (pre ++ ⟨p, lv, as ++ (K o.id, g o) :: bs⟩ :: post)) := by
      intro e he
      have hsp : ∀ o' : Order, spread (pre ++ ⟨p, lv, as ++ (K o.id, o') :: bs⟩ :: post) =
          (spread pre ++ as) ++ (K o.id, o') :: (bs ++ spread post) := by
        intro o'
        unfold spread
        rw [List.flatMap_append, List.flatMap_cons]
        simp only [List.append_assoc, List.cons_append]
      unfold Keyed at hk
      rw [hsp] at he hk
      rcases List.mem_append.mp he with he | he
      · exact hk e (List.mem_append_left _ he)
      · rcases List.mem_cons.mp he with rfl | he
        · exact congrArg K hid
        · exact hk e (List.mem_append_right _ (List.mem_cons_of_mem _ he))
    have hsh := hback _ _ _ h₁ hkg (fun e he => absurd he List.not_mem_nil)
    rw [change_rows hout hout', hm, ht₁, ← h.tape] at hsh
    cases b <;> exact hsh

/-- The place of a dormant stop, by its address and by its id. -/
theorem Holds.stop_place (h : Holds s G) (hk : Keyed K G.cells) (ho : o ∈ G.stops.map (·.2)) :
    ∃ i, G.stops[i]? = some (K o.id, o) ∧ s.stops_.findIdx? (· = K o.id) = some i ∧
      (G.stops.map (·.2)).findIdx? (fun r => r.id = o.id) = some i := by
  obtain ⟨e, he, rfl⟩ := List.mem_map.mp ho
  have hx : K e.2.id = e.1 := hk e (Layout.mem_stops he)
  rw [hx]
  -- Both searches are for the place of the same entry.
  have hnd := h.standing.stored.nodup
  have hsame : ∀ e' ∈ G.stops, (e'.1 = e.1 ↔ e'.2.id = e.2.id) := by
    intro e' he'
    constructor
    · intro h1
      rw [List.inj_on_of_nodup_map hnd (List.mem_append_right _ (List.mem_append_left _ he'))
        (List.mem_append_right _ (List.mem_append_left _ he)) h1]
    · intro hid
      rw [← hk e' (Layout.mem_stops he'), hid, hx]
  have hex : ∃ x ∈ G.stops, (decide (x.1 = e.1)) = true := ⟨e, he, decide_eq_true rfl⟩
  have hsome := List.findIdx?_isSome.trans (List.any_eq_true.mpr hex)
  obtain ⟨i, hi⟩ := Option.isSome_iff_exists.mp hsome
  have hi' : G.stops.findIdx? (fun x => decide (x.2.id = e.2.id)) = some i := by
    rw [← hi]
    refine findIdx?_congr fun x hx => ?_
    rw [decide_eq_decide]
    exact (hsame x hx).symm
  obtain ⟨hlt, hp, -⟩ := List.findIdx?_eq_some_iff_getElem.mp hi
  refine ⟨i, ?_, ?_, ?_⟩
  · rw [List.getElem?_eq_getElem hlt]
    exact congrArg some (List.inj_on_of_nodup_map hnd
      (List.mem_append_right _ (List.mem_append_left _ (List.getElem_mem hlt)))
      (List.mem_append_right _ (List.mem_append_left _ he)) (of_decide_eq_true hp))
  · rw [h.stops, List.findIdx?_map]
    exact hi
  · rw [List.findIdx?_map]
    exact hi'

/-- A dormant stop is written, and taken out. -/
theorem Shows.takeStop (h : Shows K s f []) (ho : o ∈ f.stops) (g : Order → Order)
    (hid : (g o).id = o.id) :
    ∃ c, Cpp.cell (K o.id) s = some (c, s) ∧ c.order = o ∧ c.level = none ∧
      Returns (Cpp.set (K o.id) g >>= fun _ => rmStop (K o.id)) s fun _ s' =>
        Shows K s' (f.rmStop o) [g o] := by
  obtain ⟨G, hs, hk, rfl, hfl⟩ := h
  have hnil : G.flight = [] := List.map_eq_nil_iff.mp hfl
  -- The stop is at the same place of both vectors.
  obtain ⟨i, hat, hi, hi'⟩ := hs.stop_place hk ho
  have hmem := List.mem_of_getElem? hat
  have hperm := Flat.perm_swapRemove hat
  have hcells := (keyed_cells .BUY).mp hk
  obtain ⟨c, hc, hco, hl, -⟩ := hs.cell (Layout.mem_stops hmem)
  rw [hs.standing.loose _ (List.mem_append_left _ hmem)] at hl
  refine ⟨c, hc, hco, hl.symm, ?_⟩
  have hst := hs.standing
  rw [hnil, List.append_nil] at hst
  obtain ⟨h', he, hst'⟩ := (hst.perm (.refl _) hperm).set g hid
  refine ⟨(), { s with orders := h', stops_ := (swapRemove G.stops i).map (·.1) }, ?_, ?_⟩
  · rw [run_bind he]
    unfold rmStop write
    dsimp only
    rw [hi]
    dsimp only
    rw [hs.stops, swapRemove_map]
  refine ⟨{ G with stops := swapRemove G.stops i, flight := [(K o.id, g o)] },
    ⟨?_, fun b => ?_, rfl⟩, ?_,
    ?_, rfl⟩
  -- Taking the index out of the vector leaves the heap alone.
  · have hsame : SameHeap { s with orders := h' }
        { s with orders := h', stops_ := (swapRemove G.stops i).map (·.1) } :=
      ⟨rfl, rfl, rfl, rfl, rfl, rfl, rfl⟩
    refine (hst'.congr hsame).perm (.refl _) ?_
    exact @List.perm_append_comm _ [(K o.id, g o)] _
  · have hb := hs.book b
    cases b <;> exact hb
  · rw [keyed_cells .BUY]
    refine ⟨hcells.1, hcells.2.1, fun e he => hcells.2.2.1 e ?_,
      List.forall_mem_singleton.mpr (congrArg K hid)⟩
    exact hperm.mem_iff.mpr (List.mem_cons_of_mem _ he)
  · unfold Flat.rmStop
    rw [show (G.flat s.tape).stops = G.stops.map (·.2) from rfl, hi']
    dsimp only
    rw [swapRemove_map]
    rfl

/-- An id that the values do not have is not in the index. -/
theorem locate_none {id : UInt64} (h : f.locate id = none) : ∀ o ∈ f.orders, o.id ≠ id := by
  unfold Flat.locate at h
  split at h
  · cases h
  · rename_i hb
    split at h
    · cases h
    · rename_i ha
      have hst := Option.map_eq_none_iff.mp h
      intro o ho
      rcases List.mem_append.mp ho with ho | ho
      · simpa using List.find?_eq_none.mp hb o ho
      · rcases List.mem_append.mp ho with ho | ho
        · simpa using List.find?_eq_none.mp ha o ho
        · simpa using List.find?_eq_none.mp hst o ho

/-- The index has the address of every order. -/
theorem Shows.get_mem (h : Shows K s f []) (ho : o ∈ f.orders) : s.idx_.get o.id = some (K o.id) := by
  rcases h.get o.id with ⟨-, -, -, hget, -⟩ | ⟨-, hno⟩
  · exact hget
  · exact absurd rfl (hno o (.inl ho))

/-- The index has no other ids. -/
theorem Shows.get_none (h : Shows K s f []) {id : UInt64} (hno : ∀ o ∈ f.orders, o.id ≠ id) :
    s.idx_.get id = none := by
  rcases h.get id with ⟨o, ho, hid, -⟩ | ⟨hget, -⟩
  · rcases ho with ho | ho
    · exact absurd hid (hno o ho)
    · exact absurd ho List.not_mem_nil
  · exact hget

/-! ## `cancelOrder` -/

/-- `cancelOrder` of a resting order, of a stop, and of an id that is no order's. -/
theorem Shows.cancelOrder (h : Shows K s f []) (hi : Inv f []) (id : UInt64) :
    Returns (Cpp.cancelOrder id) s fun r s' =>
      r = (Flat.cancelOrder id f).1 ∧ Shows K s' (Flat.cancelOrder id f).2 [] := by
  unfold Flat.cancelOrder Cpp.cancelOrder
  refine .after (show read (·.idx_.get id) s = some (s.idx_.get id, s) from rfl) ?_
  cases hl : f.locate id with
  -- No order has the id.
  | none =>
    rw [h.get_none (locate_none hl)]
    exact .pure ⟨rfl, h⟩
  | some w =>
    have hmem := Flat.mem_of_locate hl
    cases w with
    -- The order is found in its level, marked, unlinked, reported, and freed.
    | resting b o =>
      obtain ⟨hmem, rfl⟩ := hmem
      have hopen := hi.tidy.status o (Flat.mem_orders hmem)
      rw [h.get_mem (Flat.mem_orders hmem)]
      obtain ⟨c, lv, hc, hco, hlv, -, htake⟩ := h.takeResting hi hmem
      have htake := (htake (fun c => { c with status := .CANCELLED }) rfl).1
      refine .after hc ?_
      dsimp only
      rw [hco, hlv, if_pos hopen, if_pos hopen, hi.tidy.side b o hmem]
      refine htake.bind_two fun _ s₁ h₁ => ?_
      refine (Shows.notify h₁ _).bind fun _ s₂ h₂ => ?_
      exact (Shows.discard h₂).bind fun _ s₃ h₃ => .pure ⟨rfl, h₃⟩
    -- The stop is found in the vector, marked, taken out, reported, and freed.
    | dormant o =>
      obtain ⟨hmem, rfl⟩ := hmem
      have hopen := hi.tidy.status o (Flat.mem_orders_stop hmem)
      rw [h.get_mem (Flat.mem_orders_stop hmem)]
      obtain ⟨c, hc, hco, hlv, htake⟩ := h.takeStop hmem (fun c => { c with status := .CANCELLED }) rfl
      refine .after hc ?_
      dsimp only
      rw [hco, hlv, if_pos hopen, if_pos hopen]
      refine htake.bind_two fun _ s₁ h₁ => ?_
      refine (Shows.notify h₁ _).bind fun _ s₂ h₂ => ?_
      exact (Shows.discard h₂).bind fun _ s₃ h₃ => .pure ⟨rfl, h₃⟩

/-! ## `expireOrders` -/

/-- One resting order expires. -/
theorem Shows.expireOne (h : Shows K s f []) (hi : Inv f []) (ho : o ∈ (f.side o.side).orders) :
    Returns (do
        let c ← Cpp.cell (K o.id)
        Cpp.expireOne (K o.id) (match c.level with
          | some lv => removeFrom lv (K o.id) c.order.side
          | none => pure ())) s fun _ s' => Shows K s' (Flat.expireOne o (f.unlink o.side o)) [] := by
  obtain ⟨c, lv, hc, hco, hlv, -, htake⟩ := h.takeResting hi ho
  have htake := (htake (fun c => { c with status := .EXPIRED }) rfl).1
  refine .after hc ?_
  rw [hco, hlv]
  unfold Cpp.expireOne
  refine htake.bind_two fun _ s₁ h₁ => ?_
  exact (Shows.notify h₁ _).bind fun _ s₂ h₂ => Shows.discard h₂

/-- The resting orders that have expired go one by one. The induction carries the invariant, so the
next one is still in its queue. -/
theorem Shows.expireResting : ∀ os (s : Engine) (f : Flat), Shows K s f [] → Inv f [] →
    (os.map (·.id)).Nodup → (∀ o ∈ os, o ∈ (f.side o.side).orders) →
    Returns (Cpp.expireResting (os.map fun o => K o.id)) s fun _ s' =>
      Shows K s' (Flat.expireResting os f) [] ∧ Inv (Flat.expireResting os f) [] := by
  intro os
  induction os with
  | nil => exact fun s f h hi _ _ => .pure ⟨h, hi⟩
  | cons o os ih =>
    intro s f h hi hids hos
    have ho := hos o List.mem_cons_self
    rw [List.map_cons, List.nodup_cons] at hids
    rw [List.map_cons]
    unfold Cpp.expireResting
    have hst : o.status ≠ .CANCELLED := Flat.open_ne (hi.tidy.status o (Flat.mem_orders ho))
    -- The invariant survives, so that the induction can go on.
    have hi₁ : Inv (Flat.expireOne o (f.unlink o.side o)) [] :=
      (hi.unlink ho).steps (Flat.steps_expireOne (X := Any) hst)
    refine (h.expireOne hi ho).bind_two fun _ s₁ h₁ => ih s₁ _ h₁ hi₁ hids.2 fun x hx => ?_
    -- The other orders have other ids, and stay in their queues.
    have hne : x.id ≠ o.id := fun he => hids.1 (by rw [← he]; exact List.mem_map_of_mem hx)
    have hx' := hos x (List.mem_cons_of_mem _ hx)
    change x ∈ ((f.unlink o.side o).side x.side).orders
    unfold Flat.unlink
    cases hs : o.side <;> cases hs' : x.side <;> rw [hs'] at hx' <;>
      first | exact Flat.mem_pull hx' hne | exact hx'

/-- What was taken out before stays in front. -/
theorem takeOut_out {α : Type} (p : α → Bool) : ∀ n i (v out : List α),
    takeOut p n i v out = (takeOut p n i v []).map fun r => (out ++ r.1, r.2) := by
  intro n
  induction n with
  | zero => exact fun _ _ _ => rfl
  | succ n ih =>
    intro i v out
    unfold takeOut
    cases v[i]? with
    | none => exact congrArg (fun l => some (l, v)) (List.append_nil out).symm
    | some x =>
      dsimp only
      split
      -- Both sides put the element behind what was out before.
      · rw [ih i _ (out ++ [x]), ih i _ ([] ++ [x]), Option.map_map]
        refine congrArg (fun g => Option.map g _) (funext fun r => ?_)
        dsimp only [Function.comp_apply]
        rw [List.nil_append, List.append_assoc]
      · exact ih _ _ _

/-- A stop is taken out at its place. -/
theorem Shows.popStop (h : Shows K s f []) {i : ℕ} (hat : f.stops[i]? = some o) :
    s.stops_[i]? = some (K o.id) ∧ Cpp.order (K o.id) s = some (o, s) ∧
      Shows K { s with stops_ := swapRemove s.stops_ i } { f with stops := swapRemove f.stops i }
        [o] := by
  obtain ⟨G, hs, hk, rfl, hfl⟩ := h
  have hnil : G.flight = [] := List.map_eq_nil_iff.mp hfl
  have hat : (G.stops.map (·.2))[i]? = some o := hat
  rw [List.getElem?_map] at hat
  obtain ⟨⟨x, o'⟩, hplace, rfl⟩ := Option.map_eq_some_iff.mp hat
  have hmem := List.mem_of_getElem? hplace
  have hcells := (keyed_cells .BUY).mp hk
  have hx : K o'.id = x := hcells.2.2.1 _ hmem
  subst hx
  have hperm := Flat.perm_swapRemove hplace
  refine ⟨?_, hs.order (Layout.mem_stops hmem), ?_⟩
  · rw [hs.stops, List.getElem?_map, hplace]
    rfl
  -- The stop is on its own now, in no vector and no queue.
  have hw : Holds { s with stops_ := (swapRemove G.stops i).map (·.1) }
    { G with stops := swapRemove G.stops i, flight := [(K o'.id, o')] ++ G.flight } := hs.wake hperm
  refine ⟨{ G with stops := swapRemove G.stops i, flight := [(K o'.id, o')] ++ G.flight },
    ?_, ?_, ?_, ?_⟩
  · rw [hs.stops, swapRemove_map]
    exact hw
  · rw [keyed_cells .BUY]
    refine ⟨hcells.1, hcells.2.1, fun e he => ?_, fun e he => ?_⟩
    · exact hcells.2.2.1 e (hperm.mem_iff.mpr (List.mem_cons_of_mem _ he))
    · rw [hnil, List.append_nil] at he
      rw [List.mem_singleton.mp he]
  · unfold Layout.flat
    dsimp only
    rw [swapRemove_map]
    rfl
  · unfold Layout.flying
    rw [hnil]
    rfl

/-- The stops that have expired go in the order of the scan, which puts the last stop in the place
of each. -/
theorem Shows.expireStops {t : ℕ} : ∀ n i (s : Engine) (f : Flat) r, Shows K s f [] →
    takeOut (shouldExpire t) n i f.stops [] = some r →
    Returns (Cpp.expireStops t n i) s fun _ s' =>
      Shows K s' (Flat.expireStops r.1 { f with stops := r.2 }) [] := by
  intro n
  induction n with
  | zero =>
    intro i s f r _ hr
    cases hr
  | succ n ih =>
    intro i s f r h hr
    unfold takeOut at hr
    unfold Cpp.expireStops
    refine .after (show read (·.stops_) s = some (s.stops_, s) from rfl) ?_
    cases hat : f.stops[i]? with
    | none =>
      rw [hat] at hr
      cases hr
      -- The scan is over in both at once.
      have hnone : s.stops_[i]? = none := by
        obtain ⟨G, hs, -, rfl, -⟩ := h
        have hat : (G.stops.map (·.2))[i]? = none := hat
        rw [List.getElem?_map, Option.map_eq_none_iff] at hat
        rw [hs.stops, List.getElem?_map, hat]
        rfl
      rw [hnone]
      exact .pure h
    | some x =>
      rw [hat] at hr
      obtain ⟨hp, hord, h₁⟩ := h.popStop hat
      rw [hp]
      refine .after hord (.ite (fun he => ?_) fun he => ?_)
      -- Expired: it is taken out, reported and freed, and the place is looked at again.
      · dsimp only at hr
        rw [if_pos he, takeOut_out] at hr
        obtain ⟨r', hr', rfl⟩ := Option.map_eq_some_iff.mp hr
        refine .after (show write _ s = some ((), _) from rfl) ?_
        refine Returns.bind (Q := fun _ s' => Shows K s'
          (Flat.expireOne x { f with stops := swapRemove f.stops i }) []) ?_ fun _ s₂ h₂ => ?_
        · unfold Cpp.expireOne
          refine (Shows.set h₁ _ rfl).bind fun _ s₂ h₂ => ?_
          refine .after (show (pure () : Prog Engine Unit) s₂ = some ((), s₂) from rfl) ?_
          exact (Shows.notify h₂ _).bind fun _ s₃ h₃ => Shows.discard h₃
        · exact ih i s₂ _ r' h₂ hr'
      -- Not expired: the scan goes on behind it.
      · dsimp only at hr
        rw [if_neg he] at hr
        exact ih (i + 1) s f r h hr

/-- The orders that the scan of the books finds. -/
theorem Shows.scan (h : Shows K s f []) {t : ℕ} : ∃ exp, Cpp.scan t s.bids_ [] s = some (exp, s) ∧
    Cpp.scan t s.asks_ exp s =
      some (((f.bids.orders ++ f.asks.orders).filter (shouldExpire t)).map (fun o => K o.id), s) := by
  obtain ⟨G, hs, hk, rfl, -⟩ := h
  obtain ⟨hkb, hka, -⟩ := (keyed_cells .BUY).mp hk
  have hkb : Keyed K (spread G.bids) := hkb
  have hka : Keyed K (spread G.asks) := hka
  have hbids : s.bids_ = G.bids.map fun r => (r.price, r.addr) := hs.book .BUY
  have hasks : s.asks_ = G.asks.map fun r => (r.price, r.addr) := hs.book .SELL
  refine ⟨_, by rw [hbids]; exact scan_run (b := .BUY) hs _ [] fun r hr => hr, ?_⟩
  have hsell := fun exp => scan_run (t := t) (b := .SELL) hs (G.side .SELL) exp fun r hr => hr
  rw [hasks]
  refine (hsell _).trans ?_
  -- The addresses that the scan collects are those of the expired orders, in their order.
  have hfilter : ∀ {rows : List Row}, Keyed K (spread rows) →
      ((levelsOf rows).orders.filter (shouldExpire t)).map (fun o => K o.id) =
        ((spread rows).filter fun e => shouldExpire t e.2).map (·.1) := by
    intro rows hk
    rw [orders_levelsOf, List.filter_map, List.map_map]
    exact List.map_congr_left fun e he => hk e (List.mem_filter.mp he).1
  rw [List.filter_append, List.map_append, List.nil_append]
  change some (_, s) = some ((((levelsOf G.bids).orders.filter _).map _ ++
    ((levelsOf G.asks).orders.filter _).map _), s)
  rw [hfilter hkb, hfilter hka]
  rfl

/-- `expireOrders`: the two scans, and what they have found. -/
theorem Shows.expireOrders (h : Shows K s f []) (hi : Inv f []) {t : ℕ}
    (hg : Flat.expireOrders t f = some f') :
    Returns (Cpp.expireOrders t) s fun _ s' => Shows K s' f' [] := by
  obtain ⟨r, hr, rfl⟩ := Option.map_eq_some_iff.mp hg
  have hids := hi.tidy.ids
  unfold Flat.orders at hids
  rw [← List.append_assoc, List.map_append] at hids
  obtain ⟨exp, hb, ha⟩ := h.scan (t := t)
  unfold Cpp.expireOrders
  refine .after (show read (·.bids_) s = some (s.bids_, s) from rfl) ?_
  refine .after (show read (·.asks_) s = some (s.asks_, s) from rfl) (.after hb (.after ha ?_))
  refine (Shows.expireResting ((f.bids.orders ++ f.asks.orders).filter (shouldExpire t)) s f h hi
    ((List.nodup_append.mp hids).1.sublist (List.filter_sublist.map _)) fun o ho =>
      hi.tidy.mem_side (List.mem_filter.mp ho).1).bind fun _ s₁ h₁ => ?_
  refine .after (show read (·.stops_) s₁ = some (s₁.stops_, s₁) from rfl) ?_
  -- Both scans of the stops have as many turns.
  have hlen : s₁.stops_.length = (Flat.expireResting ((f.bids.orders ++ f.asks.orders).filter
      (shouldExpire t)) f).stops.length := by
    obtain ⟨G, hs, -, heq, -⟩ := h₁.1
    rw [← heq, hs.stops, List.length_map]
    exact (List.length_map _).symm
  rw [hlen]
  exact Shows.expireStops _ 0 s₁ _ r h₁.1 hr

/-! ## `amendOrder` -/

/-- The trade buffer is cleared. -/
theorem Shows.clear (h : Shows K s f fl) :
    Returns (Cpp.write fun s => { s with trades_ := [] }) s fun _ s' => Shows K s' f.clear fl := by
  refine ⟨(), _, rfl, h.congr ⟨rfl, rfl, rfl, rfl, rfl, rfl, rfl⟩ (fun b => by cases b <;> rfl) rfl ?_⟩
  rw [h.tape]
  rfl

/-- `amendOrder`: a smaller quantity in place, or the pipeline again. -/
theorem Shows.amendOrder (S : StdSort) (h : Shows K s f []) (hi : Inv f []) {id : UInt64}
    {newPx newQty : ℤ} {r : Bool × Flat} (hg : Flat.amendOrder S id newPx newQty f = some r) :
    Returns (Cpp.amendOrder S id newPx newQty) s fun r' s' => r' = r.1 ∧ Shows K s' r.2 [] := by
  unfold Flat.amendOrder at hg
  unfold Cpp.amendOrder amendWith
  refine .after (show read (·.idx_.get id) s = some (s.idx_.get id, s) from rfl) ?_
  cases hl : f.locate id with
  | none =>
    rw [hl] at hg
    cases hg
    rw [h.get_none (locate_none hl)]
    exact .pure ⟨rfl, h⟩
  | some w =>
    have hmem := Flat.mem_of_locate hl
    rw [hl] at hg
    cases w with
    -- A dormant stop is not amended.
    | dormant o =>
      cases hg
      obtain ⟨hmem, rfl⟩ := hmem
      have hopen := hi.tidy.status o (Flat.mem_orders_stop hmem)
      rw [h.get_mem (Flat.mem_orders_stop hmem)]
      obtain ⟨c, hc, hco, hlv, -⟩ := h.takeStop hmem (fun c => c) rfl
      refine .after hc ?_
      dsimp only
      rw [hco, hlv, if_pos hopen]
      exact .pure ⟨rfl, h⟩
    | resting b o =>
      obtain ⟨hmem, rfl⟩ := hmem
      have hopen := hi.tidy.status o (Flat.mem_orders hmem)
      have hside := hi.tidy.side b o hmem
      rw [h.get_mem (Flat.mem_orders hmem)]
      obtain ⟨c, lv, hc, hco, hlv, hremove, htake⟩ := h.takeResting hi hmem
      refine .after hc ?_
      dsimp only at hg ⊢
      rw [if_pos hopen] at hg
      rw [hco, hlv, if_pos hopen, hside]
      dsimp only
      -- Less quantity and the same price: in place.
      refine .ite (fun hdn => ?_) fun hdn => ?_
      · rw [if_pos hdn] at hg
        cases hg
        exact (htake _ rfl).2.bind fun _ s₁ h₁ => .pure ⟨rfl, h₁⟩
      · rw [if_neg hdn] at hg
        -- A new price or more quantity: out of the queue, a new time, and the pipeline again.
        refine .ite (fun hnew => ?_) fun hnew => ?_
        · rw [if_pos hnew] at hg
          obtain ⟨f', hp, rfl⟩ := Option.map_eq_some_iff.mp hg
          obtain ⟨l, hlm, hol⟩ := Levels.mem_orders.mp hmem
          have hr := (hi.sides b).rest l hlm o hol
          have hact : Flat.Step Any (f.unlink b o, [o]) _ :=
            .amend trivial hopen (by rw [hr.type]; rfl) hnew
          have htape : (f.unlink b o).tape = f.tape := Flat.tape_setSide _ _ _
          have hi' := ((hi.unlink hmem).step hact).step (.clear (X := Any) trivial)
          refine hremove.bind fun _ s₁ h₁ => ?_
          refine (Shows.set h₁ _ rfl).bind fun _ s₂ h₂ => ?_
          refine h₂.tick.bind fun t s₃ h₃ => ?_
          obtain ⟨rfl, h₃⟩ := h₃
          refine (Shows.set h₃ _ rfl).bind fun _ s₄ h₄ => ?_
          refine h₄.clear.bind fun _ s₅ h₅ => ?_
          rw [htape] at h₅ hi'
          refine Returns.bind (refinesOn_processActiveIn S (maxCascade + 1) s₅ _ []
            (Flat.amended o newPx newQty (f.tape.now + 1)) 0 f' h₅ hi'
            (hr.ready newPx newQty (f.tape.now + 1) _) hp) fun _ s₆ h₆ => ?_
          exact .pure ⟨rfl, h₆⟩
        · rw [if_neg hnew] at hg
          cases hg
          exact .pure ⟨rfl, h⟩

/-! ## `submitOrder` -/

/-- A new order that the index takes up. -/
theorem Shows.born (h : Shows K s f []) (hid : o.id.toNat < 2 ^ 31) (hnew : ∀ r ∈ f.orders, r.id ≠ o.id)
    (k n : ℕ) : ∃ i', s.idx_.insert o.id s.oA_ = some i' ∧
      Shows (Function.update K o.id s.oA_) { s with
        orders := Function.update s.orders s.oA_ (some { order := o })
        oA_ := s.oA_ + 1
        oP_ := k
        now_ := n
        idx_ := i' } (f.withTape { f.tape with now := n }) [o] := by
  have hget := h.get_none hnew
  obtain ⟨G, hs, hk, rfl, hfl⟩ := h
  have hnil : G.flight = [] := List.map_eq_nil_iff.mp hfl
  -- No cell has the id yet.
  have hcells : ∀ e ∈ G.cells, e.2.id ≠ o.id := by
    intro e he
    rcases Layout.mem_cells s.tape he with he | he
    · exact hnew e.2 he
    · rw [hfl] at he
      exact absurd he List.not_mem_nil
  obtain ⟨i', hins, hst⟩ := hs.standing.born o hid hget
  refine ⟨i', hins, { G with flight := [(s.oA_, o)] }, ⟨?_, fun b => ?_, hs.stops⟩, ?_, rfl, rfl⟩
  -- The counter and the clock are no part of the heap.
  · have hsame : SameHeap
        { s with
          orders := Function.update s.orders s.oA_ (some { order := o })
          oA_ := s.oA_ + 1
          idx_ := i' }
        { s with
          orders := Function.update s.orders s.oA_ (some { order := o })
          oA_ := s.oA_ + 1
          oP_ := k
          now_ := n
          idx_ := i' } := ⟨rfl, rfl, rfl, rfl, rfl, rfl, rfl⟩
    refine (hst.congr hsame).perm (.refl _) ?_
    rw [hnil, List.append_nil]
    exact @List.perm_append_comm _ [(s.oA_, o)] _
  · have hb := hs.book b
    cases b <;> exact hb
  · have hkeep : ∀ e ∈ G.cells, Function.update K o.id s.oA_ e.2.id = e.1 := fun e he =>
      (Function.update_of_ne (hcells e he) _ _).trans (hk e he)
    have h' := (keyed_cells .BUY).mp (show Keyed (Function.update K o.id s.oA_) G.cells from hkeep)
    rw [keyed_cells .BUY]
    exact ⟨h'.1, h'.2.1, h'.2.2.1, List.forall_mem_singleton.mpr (Function.update_self ..)⟩

/-- An order that was allocated and freed leaves the counters changed. -/
theorem Shows.passed (h : Shows K s f []) (k n : ℕ) (l : List Mark) :
    Shows K { s with oA_ := s.oA_ + 1, oF_ := s.oF_ + 1, oP_ := k, now_ := n, log := l }
      (f.withTape { f.tape with now := n, log := l }) [] := by
  obtain ⟨G, hs, hk, rfl, hfl⟩ := h
  refine ⟨G, ⟨?_, fun b => ?_, hs.stops⟩, hk, rfl, hfl⟩
  · obtain ⟨⟨hv, hn, hf, hc, hi, hz, hcap⟩, hrow, hloose, haddrs, hfresh, hcount⟩ := hs.standing
    refine ⟨⟨hv, hn, fun e he => (hf e he).trans (Nat.lt_succ_self _), ?_, hi, hz, hcap⟩,
      fun r hr => ?_,
      hloose, haddrs, hfresh, hcount⟩
    · change s.oA_ + 1 = s.oF_ + 1 + _
      omega
    · exact (hrow r hr).congr rfl fun z _ => ⟨rfl, rfl, rfl⟩
  · have hb := hs.book b
    cases b <;> exact hb

/-- A stop goes to sleep. -/
theorem Shows.park (h : Shows K s f [o]) :
    Shows K { s with stops_ := s.stops_ ++ [K o.id] } { f with stops := f.stops ++ [o] } [] := by
  obtain ⟨G, hs, hk, rfl, hfl⟩ := h
  obtain ⟨⟨x, o'⟩, fl, hflight, rfl, hnil⟩ := List.map_eq_cons_iff.mp hfl
  obtain rfl : fl = [] := List.map_eq_nil_iff.mp hnil
  have hcells := (keyed_cells .BUY).mp hk
  rw [hflight] at hcells
  have hx : K o'.id = x := hcells.2.2.2 _ List.mem_cons_self
  subst hx
  refine ⟨{ G with stops := G.stops ++ [(K o'.id, o')], flight := [] }, ⟨?_, fun b => ?_, ?_⟩,
    ?_, ?_, rfl⟩
  · have hsame : SameHeap s { s with stops_ := s.stops_ ++ [K o'.id] } :=
      ⟨rfl, rfl, rfl, rfl, rfl, rfl, rfl⟩
    refine (hs.standing.congr hsame).perm (.refl _) ?_
    rw [hflight, List.append_nil]
  · have hb := hs.book b
    cases b <;> exact hb
  · rw [hs.stops, List.map_append]
    rfl
  · rw [keyed_cells .BUY]
    exact ⟨hcells.1, hcells.2.1, Keyed.append.mpr ⟨hcells.2.2.1, hcells.2.2.2⟩, fun e he =>
      absurd he List.not_mem_nil⟩
  · unfold Layout.flat
    dsimp only
    rw [List.map_append]
    rfl

/-- `process` of a new order. -/
theorem Shows.process (S : StdSort) (h : Shows K s f [o]) (hi : Inv f [o]) (hst : o.status = .NEW)
    (hg : Flat.process S o f = some f') :
    Returns (Cpp.process (processActive S) (K o.id) 0) s fun _ s' => Shows K s' f' [] := by
  have hstop : o.orderType.isStop = true ↔ o.orderType = .STOP_LIMIT ∨ o.orderType = .STOP_MARKET := by
    cases o.orderType <;> decide
  unfold Flat.process at hg
  unfold Cpp.process
  refine .after h.order (.ite (fun hty => ?_) fun hty => ?_)
  · rw [if_pos hty] at hg
    have hlast : s.lastPx_ = f.tape.lastPx := by
      rw [h.tape]
      rfl
    have hfire : shouldTrigger o s = true ↔ f.tape.lastPx ≠ 0 ∧ fires f.tape.lastPx o = true := by
      unfold shouldTrigger
      rw [hlast]
      split
      · exact ⟨nofun, fun hx => absurd ‹_› hx.1⟩
      · exact ⟨fun hx => ⟨‹_›, hx⟩, And.right⟩
    refine .after (show read (shouldTrigger o) s = some (shouldTrigger o s, s) from rfl)
      (.ite (fun hf => ?_) fun hf => ?_)
    · rw [if_pos (hfire.mp hf)] at hg
      have hd := hi.head.stop (hstop.mpr hty) hst
      refine (Shows.trigger h).bind fun _ s₁ h₁ => ?_
      exact refinesOn_processActiveIn S (maxCascade + 1) s₁ _ [] (Flat.trigger o f.tape).1 0 f' h₁
        (hi.step (.trigger (X := Any) hd.type)) (Flat.ready_trigger ⟨hd.type, hd.postOnly⟩ _) hg
    · rw [if_neg fun hx => hf (hfire.mpr hx)] at hg
      cases hg
      exact ⟨(), _, rfl, h.park⟩
  · rw [if_neg hty] at hg
    have hst' : o.status ≠ .CANCELLED := by
      rw [hst]
      nofun
    exact refinesOn_processActiveIn S (maxCascade + 1) s f [] o 0 f' h hi
      (ready_any hst' (Bool.eq_false_iff.mpr fun hx => hty (hstop.mp hx))) hg

/-- A member is read. -/
theorem read_run {α : Type} (g : Engine → α) (s : Engine) : read g s = some (g s, s) := rfl

/-- The clock ticks. -/
theorem tick_run (s : Engine) : tick s = some (s.now_ + 1, { s with now_ := s.now_ + 1 }) := rfl

/-- An order at an address is read. -/
theorem order_run {c : Cell} (h : s.orders x = some c) : order x s = some (c.order, s) := by
  unfold order
  rw [h]
  rfl

/-- The listener is told of an order at an address. -/
theorem notify_run {c : Cell} (h : s.orders x = some c) (e : Order → Event) :
    notify x e s = some ((), { s with log := s.log ++ [.event (e c.order)] }) := by
  unfold notify
  rw [run_bind (order_run h)]
  rfl

/-- The cell at an address is given back. -/
theorem freeOrd_run {c : Cell} (h : s.orders x = some c) :
    freeOrd x s =
      some ((), { s with orders := Function.update s.orders x none, oF_ := s.oF_ + 1 }) := by
  unfold freeOrd
  rw [h]
  rfl

/-- The statements of `submitOrder` up to the check of a new order. -/
theorem submitWith_alloc (active : ℕ → ℕ → Prog Engine Unit) (h : Shows K s f []) {i : OrderInput}
    (hnew : ∀ o ∈ f.orders, o.id ≠ i.id) {s₁ : Engine} (hs₁ : s₁ = { s with
      orders := Function.update s.orders s.oA_ (some { order := i.order (f.tape.now + 1) })
      oA_ := s.oA_ + 1
      oP_ := max s.oP_ (s.oA_ + 1 - s.oF_)
      now_ := f.tape.now + 1 }) :
    submitWith active i s = (match validate (f.tape.now + 1) (i.order (f.tape.now + 1)) with
      | some err => do
        set s.oA_ fun c => { c with status := .REJECTED }
        notify s.oA_ fun c => .onOrderRejected c err
        freeOrd s.oA_
        pure false
      | none => do
        onIndex (·.insert i.id s.oA_)
        notify s.oA_ .onOrderAccepted
        write fun s => { s with trades_ := [] }
        process active s.oA_ 0
        pure true : Prog Engine Bool) s₁ := by
  have hnow : f.tape.now = s.now_ := by
    rw [h.tape]
    rfl
  have hhas : s.idx_.has i.id = false := by
    unfold OrderIndex.has
    rw [h.get_none hnew]
    rfl
  subst hs₁
  rw [hnow]
  unfold submitWith
  rw [run_bind (read_run _ _), hhas, if_neg Bool.false_ne_true,
    run_bind (show allocOrd s = some (s.oA_, _) from rfl), run_bind (tick_run _),
    run_bind (set_run (Function.update_self ..)), run_bind (read_run _ _),
    run_bind (order_run (Function.update_self ..))]
  dsimp only
  rewrite [Function.update_idem]
  cases validate (s.now_ + 1) (i.order (s.now_ + 1)) <;> rfl

/-- The statements of `submitOrder` after the index has taken up an order. -/
theorem Shows.accepted (S : StdSort) (h : Shows K s f [o])
    (hi : Inv (f.withTape (f.tape.event (.onOrderAccepted o))).clear [o]) (hst : o.status = .NEW)
    (hg : Flat.process S o (f.withTape (f.tape.event (.onOrderAccepted o))).clear = some f') :
    Returns (do
      Cpp.notify (K o.id) .onOrderAccepted
      Cpp.write fun s => { s with trades_ := [] }
      Cpp.process (processActive S) (K o.id) 0
      pure true) s fun r' s' => r' = true ∧ Shown s' f' := by
  refine (h.notify .onOrderAccepted).bind fun _ s₁ h₁ => ?_
  refine h₁.clear.bind fun _ s₂ h₂ => ?_
  exact (h₂.process S hi hst hg).bind fun _ s₃ h₃ => .pure ⟨rfl, h₃.shown⟩

/-- `submitOrder`, whether the order is a duplicate, is rejected, or goes on to `process`. -/
theorem Shows.submitOrder (S : StdSort) (h : Shows K s f []) (hi : Inv f []) {i : OrderInput}
    {r : Bool × Flat} (hg : Flat.submitOrder S i f = some r)
    (hid : Flat.Admitted i f → i.id.toNat < 2 ^ 31) :
    Returns (Cpp.submitOrder S i) s fun r' s' => r' = r.1 ∧ Shown s' r.2 := by
  unfold Flat.submitOrder at hg
  split at hg
  · rename_i hdup
    cases hg
    obtain ⟨o, ho, hid⟩ := List.any_eq_true.mp hdup
    have hget := h.get_mem ho
    rw [of_decide_eq_true hid] at hget
    unfold Cpp.submitOrder submitWith
    refine .after (show read (·.idx_.has i.id) s = some (s.idx_.has i.id, s) from rfl) ?_
    unfold OrderIndex.has
    rw [hget]
    exact (h.mark _).bind fun _ s₁ h₁ => .pure ⟨rfl, h₁.shown⟩
  · rename_i hdup
    have hnew : ∀ o ∈ f.orders, o.id ≠ i.id := fun o ho hid =>
      hdup (List.any_eq_true.mpr ⟨o, ho, decide_eq_true hid⟩)
    have hrun := submitWith_alloc (processActive S) h hnew rfl
    dsimp only at hg
    cases hv : validate (f.tape.now + 1) (i.order (f.tape.now + 1)) with
    | some err =>
      rw [hv] at hg hrun
      cases hg
      dsimp only at hrun
      have hfree : s.orders s.oA_ = none := by
        obtain ⟨G, hs, -⟩ := h
        exact hs.standing.stored.free
      refine ⟨false, { s with
        oA_ := s.oA_ + 1
        oF_ := s.oF_ + 1
        oP_ := max s.oP_ (s.oA_ + 1 - s.oF_)
        now_ := f.tape.now + 1
        log := s.log ++ [.event (.onOrderRejected
          { i.order (f.tape.now + 1) with status := .REJECTED } err)] }, ?_, rfl, ?_⟩
      · refine hrun.trans ?_
        rw [run_bind (set_run (Function.update_self ..)),
          run_bind (notify_run (Function.update_self ..) _),
          run_bind (freeOrd_run (Function.update_self ..))]
        dsimp only
        rw [Function.update_idem, Function.update_idem, ← hfree, Function.update_eq_self]
        rfl
      · have hp := h.passed (max s.oP_ (s.oA_ + 1 - s.oF_)) (f.tape.now + 1) (s.log ++
          [.event (.onOrderRejected { i.order (f.tape.now + 1) with status := .REJECTED } err)])
        have ht : f.tape.log = s.log := by
          rw [h.tape]
          rfl
        rw [← ht] at hp ⊢
        exact hp.shown
    | none =>
      rw [hv] at hg hrun
      obtain ⟨f', hp, rfl⟩ := Option.map_eq_some_iff.mp hg
      dsimp only at hrun
      obtain ⟨i', hins, hborn⟩ := h.born (o := i.order (f.tape.now + 1)) (hid ⟨hnew, hv⟩) hnew
        (max s.oP_ (s.oA_ + 1 - s.oF_)) (f.tape.now + 1)
      have hkey : Function.update K (i.order (f.tape.now + 1)).id s.oA_ (i.order (f.tape.now + 1)).id =
        s.oA_ := Function.update_self ..
      have hi₁ : Inv (f.withTape f.tape.tick) [] := hi.withTape
      have hi₂ := (hi₁.step (.accept (X := Any) i hnew hv trivial)).step (.clear (X := Any) trivial)
      have hpass := hborn.accepted S hi₂ rfl hp
      rw [hkey] at hpass
      obtain ⟨a, s', he, hq⟩ := hpass
      refine ⟨a, s', hrun.trans ?_, hq⟩
      rw [run_bind (show onIndex (·.insert i.id s.oA_) _ = some ((), _) by
        unfold onIndex
        dsimp only
        rw [show s.idx_.insert i.id s.oA_ = some i' from hins]
        rfl)]
      exact he

end Calls

end MatchingEngine.Cpp
