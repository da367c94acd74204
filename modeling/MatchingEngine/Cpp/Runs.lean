import MatchingEngine.Cpp.Calls

/-!
# Runs of the C++ engine and of its values

What the engine is made of, without its heap, is `Engine.flat`. In every state that a run reaches it
has the invariant, and a call takes it where the counterpart of `Cpp/Flat.lean` takes it. What is
proved of the acts of `Cpp/Lifecycle.lean` is so proved of the runs of the engine.

`Reach` is a run of any calls, and `ReachWhere` one whose calls meet a condition in the state they
are made in. `ReachWhere.rule` is the induction: what holds at the start and is kept by every act
that the calls may make holds in every state of such a run. The theorems on runs choose the property
and the condition.
-/

namespace MatchingEngine.Cpp

open Lib

/-- The books, the dormant stops, and the rest of a state, without the heap. -/
def Engine.flat (s : Engine) : Flat where
  bids := s.view .BUY
  asks := s.view .SELL
  stops := s.values s.stops_
  tape := s.tape

/-- A side of the values is what the engine shows of it. -/
@[simp] theorem Engine.side_flat (s : Engine) (b : Side) : s.flat.side b = s.view b := by
  cases b <;> rfl

section Runs

variable {S : StdSort} {pop : PostOnlyPolicy} {tickSz : ℤ} {s s' : Engine} {f f' : Flat} {c : Call}
  {i : OrderInput} {id : UInt64} {newPx newQty : ℤ} {r : Bool}

/-- A state shows its own values and no others. -/
theorem Shown.eq (h : Shown s f) : f = s.flat := by
  obtain ⟨G, hs, rfl, -⟩ := h
  have hb := hs.view .BUY
  have ha := hs.view .SELL
  unfold Layout.flat Engine.flat
  rw [hb, ha, hs.dormant]
  rfl

/-- The engine starts without orders. -/
theorem Shown.init (pop : PostOnlyPolicy) (tickSz : ℤ) :
    Shown (.init pop tickSz) (Flat.init pop tickSz) := by
  have hstored : Stored (.init pop tickSz) [] := by
    refine ⟨fun p o => ?_, .nil, fun e he => absurd he List.not_mem_nil, rfl, fun id p => ?_, rfl, ?_⟩
    · exact ⟨fun h => absurd h (Option.some_ne_none o).symm, fun h => absurd h List.not_mem_nil⟩
    · constructor
      · intro h
        change (if _ then none else none) = some p at h
        rw [ite_self] at h
        cases h
      · rintro ⟨o, ho, -⟩
        exact absurd ho List.not_mem_nil
    · exact ⟨20, le_refl _, by decide, rfl⟩
  refine ⟨{}, ⟨⟨hstored, fun r hr => absurd hr List.not_mem_nil, fun e he => absurd he List.not_mem_nil,
    .nil, fun a ha => absurd ha List.not_mem_nil, rfl⟩, fun b => by cases b <;> rfl, rfl⟩, rfl, rfl⟩

/-- An order that is valid and new, with an id from `2^31` on: the index does not return. -/
theorem Shown.submitOrder_stuck (h : Shown s f) (hadm : Flat.Admitted i f) (hid : 2 ^ 31 ≤ i.id.toNat) :
    submitOrder S i s = none := by
  have hsized : s.idx_.Sized := by
    obtain ⟨G, hs, -⟩ := h
    exact hs.standing.stored.sized
  unfold submitOrder
  rw [submitWith_alloc _ h.shows hadm.1 rfl, hadm.2]
  change ((onIndex (·.insert i.id s.oA_)) >>= _) _ = none
  unfold onIndex
  change Option.bind (Option.map _ (OrderIndex.insert s.idx_ i.id s.oA_)) _ = none
  rw [OrderIndex.insert_eq_none hsized hid]
  rfl

/-- What `submitOrder` returns, its values return. -/
theorem Shown.submitOrder (h : Shown s f) (hi : Inv f []) (he : submitOrder S i s = some (r, s')) :
    ∃ f', Flat.submitOrder S i f = some (r, f') ∧ Shown s' f' := by
  obtain ⟨⟨r', f'⟩, hg⟩ := submitOrder_ends S hi i
  have hid : Flat.Admitted i f → i.id.toNat < 2 ^ 31 := by
    intro hadm
    by_contra hn
    rw [h.submitOrder_stuck hadm (by omega)] at he
    cases he
  obtain ⟨a, t, ha, rfl, ht⟩ := h.shows.submitOrder S hi hg hid
  rw [he] at ha
  obtain ⟨rfl, rfl⟩ := Prod.mk.inj (Option.some.inj ha)
  exact ⟨f', hg, ht⟩

/-- What `amendOrder` returns, its values return. -/
theorem Shown.amendOrder (h : Shown s f) (hi : Inv f [])
    (he : amendOrder S id newPx newQty s = some (r, s')) :
    ∃ f', Flat.amendOrder S id newPx newQty f = some (r, f') ∧ Shown s' f' := by
  obtain ⟨⟨r', f'⟩, hg⟩ := amendOrder_ends S hi id newPx newQty
  obtain ⟨a, t, ha, rfl, ht⟩ := h.shows.amendOrder S hi hg
  rw [he] at ha
  obtain ⟨rfl, rfl⟩ := Prod.mk.inj (Option.some.inj ha)
  exact ⟨f', hg, ht.shown⟩

/-- What `cancelOrder` returns, its values return. -/
theorem Shown.cancelOrder (h : Shown s f) (hi : Inv f []) (he : cancelOrder id s = some (r, s')) :
    ∃ f', Flat.cancelOrder id f = (r, f') ∧ Shown s' f' := by
  obtain ⟨a, t, ha, rfl, ht⟩ := h.shows.cancelOrder hi id
  rw [he] at ha
  obtain ⟨rfl, rfl⟩ := Prod.mk.inj (Option.some.inj ha)
  exact ⟨_, rfl, ht.shown⟩

/-- `assignId` writes the counter and the free ids of the index, which are no values. -/
theorem Shown.assignId {id : UInt64} (h : Shown s f) (he : assignId s = some (id, s')) :
    Shown s' f := by
  obtain ⟨G, hs, rfl, hfl⟩ := h
  obtain ⟨⟨id', i'⟩, ha, he⟩ := Option.map_eq_some_iff.mp he
  obtain ⟨rfl, rfl⟩ := Prod.mk.inj he
  obtain ⟨⟨hv, hn, hf, hc, hx, hz, hcap⟩, hrow, hloose, haddrs, hfresh, hcount⟩ := hs.standing
  have hlike := OrderIndex.assignId_like hcap ha
  refine ⟨G,
    ⟨⟨⟨hv, hn, hf, hc, fun id p => ?_, ?_, hlike.sized⟩, fun r hr => ?_, hloose, haddrs, hfresh,
    hcount⟩, fun b => ?_, hs.stops⟩, rfl, hfl⟩
  · exact (show i'.get id = s.idx_.get id from hlike.get id) ▸ hx id p
  · exact hlike.count.trans hz
  · exact (hrow r hr).congr rfl fun z _ => ⟨rfl, rfl, rfl⟩
  · have hb := hs.book b
    cases b <;> exact hb

/-- A call does to the values what its counterpart does. -/
theorem Shown.run (h : Shown s f) (hi : Inv f []) (he : c.run S s = some ((), s')) :
    ∃ f', Flat.run S c f = some f' ∧ Shown s' f' := by
  cases c with
  | submit i =>
    obtain ⟨r, t, ht, he⟩ := run_bind_iff.mp he
    cases he
    obtain ⟨f', hg, hsh⟩ := h.submitOrder hi ht
    exact ⟨f', Option.map_eq_some_iff.mpr ⟨_, hg, rfl⟩, hsh⟩
  | cancel id =>
    obtain ⟨r, t, ht, he⟩ := run_bind_iff.mp he
    cases he
    obtain ⟨f', hg, hsh⟩ := h.cancelOrder hi ht
    exact ⟨f', congrArg (fun x : Bool × Flat => some x.2) hg, hsh⟩
  | amend id newPx newQty =>
    obtain ⟨r, t, ht, he⟩ := run_bind_iff.mp he
    cases he
    obtain ⟨f', hg, hsh⟩ := h.amendOrder hi ht
    exact ⟨f', Option.map_eq_some_iff.mpr ⟨_, hg, rfl⟩, hsh⟩
  | expire t =>
    obtain ⟨f', hg⟩ := run_ends S hi (.expire t)
    obtain ⟨a, u, ha, hu⟩ := h.shows.expireOrders hi hg
    have he : expireOrders t s = some ((), s') := he
    rw [he] at ha
    obtain ⟨-, rfl⟩ := Prod.mk.inj (Option.some.inj ha)
    exact ⟨f', hg, hu.shown⟩
  | setTime t =>
    cases he
    refine ⟨_, rfl, ?_⟩
    have hsame : SameHeap s { s with now_ := t } := ⟨rfl, rfl, rfl, rfl, rfl, rfl, rfl⟩
    have hsh := h.shows.congr (t := { f.tape with now := t }) hsame (fun b => by cases b <;> rfl) rfl
      (by rw [h.tape]; rfl)
    exact hsh.shown
  | assignId =>
    obtain ⟨id, t, ht, he⟩ := run_bind_iff.mp he
    cases he
    exact ⟨f, rfl, h.assignId ht⟩

/-- In every state that a run reaches the values have the invariant. -/
theorem Reach.shown (hs : Reach S pop tickSz s) : Shown s s.flat ∧ Inv s.flat [] := by
  have hex : ∃ f, Shown s f ∧ Inv f [] := by
    induction hs with
    | init => exact ⟨_, .init pop tickSz, .init pop tickSz⟩
    | call c hs he ih =>
      obtain ⟨f, hsh, hi⟩ := ih
      obtain ⟨f', hg, hsh'⟩ := hsh.run hi he
      exact ⟨f', hsh', hi.run S hg⟩
  obtain ⟨f, hsh, hi⟩ := hex
  obtain rfl := hsh.eq
  exact ⟨hsh, hi⟩

/-- Every reachable state is in order. -/
theorem Reach.inv (hs : Reach S pop tickSz s) : Inv s.flat [] := hs.shown.2

/-- A call from a state that a run reaches. -/
theorem Reach.run (hs : Reach S pop tickSz s) (he : c.run S s = some ((), s')) :
    Flat.run S c s.flat = some s'.flat := by
  obtain ⟨f', hg, hsh⟩ := hs.shown.1.run hs.inv he
  obtain rfl := hsh.eq
  exact hg

/-- `submitOrder` from a reachable state. -/
theorem Reach.submitOrder (hs : Reach S pop tickSz s) (he : Cpp.submitOrder S i s = some (r, s')) :
    Flat.submitOrder S i s.flat = some (r, s'.flat) := by
  obtain ⟨f', hg, hsh⟩ := hs.shown.1.submitOrder hs.inv he
  obtain rfl := hsh.eq
  exact hg

/-- `amendOrder` from a reachable state. -/
theorem Reach.amendOrder (hs : Reach S pop tickSz s)
    (he : Cpp.amendOrder S id newPx newQty s = some (r, s')) :
    Flat.amendOrder S id newPx newQty s.flat = some (r, s'.flat) := by
  obtain ⟨f', hg, hsh⟩ := hs.shown.1.amendOrder hs.inv he
  obtain rfl := hsh.eq
  exact hg

/-- `cancelOrder` from a reachable state. -/
theorem Reach.cancelOrder (hs : Reach S pop tickSz s) (he : Cpp.cancelOrder id s = some (r, s')) :
    Flat.cancelOrder id s.flat = (r, s'.flat) := by
  obtain ⟨f', hg, hsh⟩ := hs.shown.1.cancelOrder hs.inv he
  obtain rfl := hsh.eq
  exact hg

/-- A call is a sequence of acts. -/
theorem Reach.steps (hs : Reach S pop tickSz s) (he : c.run S s = some ((), s'))
    {X : Special → Prop} (hX : Flat.Covers X s.flat c) : Flat.Steps X (s.flat, []) (s'.flat, []) :=
  Flat.steps_run S hs.inv.tidy (hs.run he) hX

/-- What an act keeps holds in every state of a run, when the calls of the run are acts that `X`
allows wherever it holds. -/
theorem ReachWhere.induct {R : Engine → Call → Prop} {X : Special → Prop} {J : Flat × List Order → Prop}
    (hs : ReachWhere R S pop tickSz s) (hinit : J (.init pop tickSz, []))
    (hstep : ∀ x y, Inv x.1 x.2 → J x → Flat.Step X x y → J y)
    (hcov : ∀ s c, Reach S pop tickSz s → J (s.flat, []) → R s c → Flat.Covers X s.flat c) :
    J (s.flat, []) := by
  have hrun : ∀ {x y : Flat × List Order}, Inv x.1 x.2 → J x → Flat.Steps X x y → J y := by
    intro x y hi hj hsteps
    have hboth : Inv y.1 y.2 ∧ J y := by
      induction hsteps with
      | refl => exact ⟨hi, hj⟩
      | tail _ hact ih => exact ⟨ih.1.step hact, hstep _ _ ih.1 ih.2 hact⟩
    exact hboth.2
  have hboth : Reach S pop tickSz s ∧ J (s.flat, []) := by
    induction hs with
    | init =>
      rw [← (Shown.init pop tickSz).eq]
      exact ⟨.init, hinit⟩
    | call c _ hr he ih =>
      exact ⟨ih.1.call c he, hrun ih.1.inv ih.2 (ih.1.steps he (hcov _ c ih.1 ih.2 hr))⟩
  exact hboth.2

/-- The same where the acts of a call are allowed in any reachable state. -/
theorem ReachWhere.rule {R : Engine → Call → Prop} {X : Special → Prop} {J : Flat × List Order → Prop}
    (hs : ReachWhere R S pop tickSz s) (hinit : J (.init pop tickSz, []))
    (hstep : ∀ x y, Inv x.1 x.2 → J x → Flat.Step X x y → J y)
    (hcov : ∀ s c, Reach S pop tickSz s → R s c → Flat.Covers X s.flat c) : J (s.flat, []) :=
  hs.induct hinit hstep fun s c hr _ hg => hcov s c hr hg

/-- A run without a condition. -/
theorem Reach.where (hs : Reach S pop tickSz s) : ReachWhere (fun _ _ => True) S pop tickSz s := by
  induction hs with
  | init => exact .init
  | call c _ he ih => exact ih.call c trivial he

/-- What an act keeps holds in every state of a run. -/
theorem Reach.rule {J : Flat × List Order → Prop} (hs : Reach S pop tickSz s)
    (hinit : J (.init pop tickSz, [])) (hstep : ∀ x y, Inv x.1 x.2 → J x → Flat.Step Any x y → J y) :
    J (s.flat, []) :=
  hs.where.rule hinit hstep fun _ c hr _ => covers_any hr.inv c

/-- The engine has an order of an id when the values have one. -/
theorem Reach.hasOrder (hs : Reach S pop tickSz s) (id : UInt64) :
    s.hasOrder id = true ↔ ∃ o ∈ s.flat.orders, o.id = id := by
  have hsh := hs.shown.1.shows
  unfold Engine.hasOrder OrderIndex.has
  constructor
  · intro h
    by_contra hn
    rw [hsh.get_none fun o ho hid => hn ⟨o, ho, hid⟩] at h
    cases h
  · rintro ⟨o, ho, rfl⟩
    rw [hsh.get_mem ho]
    rfl

end Runs

end MatchingEngine.Cpp
