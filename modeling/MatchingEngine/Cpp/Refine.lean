import MatchingEngine.Cpp.Turns

/-!
# The C++ engine refines its values

`Shows` says that a state of the engine has the books, the stops, the orders in flight, and the tape
of a state of `Cpp/Flat.lean`, and that every order is at the address that its id has during the
call. Whenever a function of `Cpp/Flat.lean` returns from a state with the invariant, its
counterpart of `Cpp/Engine.lean` returns as well, and its last state shows what the function
returned.
-/

namespace MatchingEngine.Cpp

open Lib

/-- The values, the orders in flight, and the addresses of a state of the engine. -/
def Shows (K : UInt64 → ℕ) (s : Engine) (f : Flat) (fl : List Order) : Prop :=
  ∃ G, Holds s G ∧ Keyed K G.cells ∧ G.flat s.tape = f ∧ G.flying = fl

section Frame

variable {K : UInt64 → ℕ} {s : Engine} {f : Flat} {fl : List Order} {o : Order} {G : Layout}

/-- Two parts of a queue are at their addresses. -/
theorem Keyed.append {q q' : List (ℕ × Order)} : Keyed K (q ++ q') ↔ Keyed K q ∧ Keyed K q' :=
  List.forall_mem_append

/-- An order and those behind it are at their addresses. -/
theorem Keyed.cons {e : ℕ × Order} {q : List (ℕ × Order)} :
    Keyed K (e :: q) ↔ K e.2.id = e.1 ∧ Keyed K q := List.forall_mem_cons

/-- The place in the queue does not matter for the address. -/
theorem Keyed.perm {q q' : List (ℕ × Order)} (h : Keyed K q) (hp : q.Perm q') : Keyed K q' :=
  fun e he => h e (hp.mem_iff.mpr he)

/-- The addresses of a queue are those of its ids. -/
theorem Keyed.addrs {q : List (ℕ × Order)} (h : Keyed K q) :
    q.map (·.1) = (q.map (·.2)).map fun o => K o.id := by
  rw [List.map_map]
  exact List.map_congr_left fun e he => (h e he).symm

/-- The orders of a layout, with those of a side first. -/
theorem keyed_cells (b : Side) : Keyed K G.cells ↔ Keyed K (spread (G.side b)) ∧
    Keyed K (spread (G.side (oppositeSide b))) ∧ Keyed K G.stops ∧ Keyed K G.flight := by
  unfold Layout.cells spread
  rw [List.flatMap_append, Keyed.append, Keyed.append, Keyed.append]
  cases b with
  | BUY => exact and_assoc
  | SELL => exact ⟨fun ⟨⟨h, h'⟩, hr⟩ => ⟨h', h, hr⟩, fun ⟨h', h, hr⟩ => ⟨⟨h, h'⟩, hr⟩⟩

/-- The tape is the engine's own. -/
theorem Shows.tape (h : Shows K s f fl) : f.tape = s.tape := by
  obtain ⟨G, -, -, rfl, -⟩ := h
  rfl

/-- A side of a state that shows `f`, where an order is in flight, and the state again once that
side and the flight have changed. -/
theorem Shows.frame (h : Shows K s f (o :: fl)) (b : Side) :
    ∃ (G : Layout) (m : List Row) (fl' : List (ℕ × Order)),
    Holds s (G.put b m ((K o.id, o) :: fl')) ∧ Keyed K (spread m) ∧ Keyed K fl' ∧
    levelsOf m = f.side b ∧ fl'.map (·.2) = fl ∧ ∀ s' m' fl'', Holds s' (G.put b m' fl'') →
      Keyed K (spread m') → Keyed K fl'' →
      Shows K s' ((f.setSide b (levelsOf m')).withTape s'.tape) (fl''.map (·.2)) := by
  obtain ⟨G, hs, hk, rfl, hfl⟩ := h
  obtain ⟨hkm, hko, hkst, hkf⟩ := (keyed_cells b).mp hk
  obtain ⟨⟨x, o'⟩, fl', hflight, rfl, hmap⟩ := List.map_eq_cons_iff.mp hfl
  rw [hflight, Keyed.cons] at hkf
  obtain ⟨hx, hkf⟩ := hkf
  dsimp only at hx
  subst hx
  -- The layout, seen as one side and one flight put into the rest.
  rw [← G.put_self b, hflight] at hs
  refine ⟨G, G.side b, fl', hs, hkm, hkf, (Layout.side_flat _).symm, hmap,
    fun s' m' fl'' h' hm' hf' => ?_⟩
  refine ⟨_, h', ?_, ?_, by rw [Layout.flying, Layout.flight_put]⟩
  · rw [keyed_cells b, Layout.side_put, Layout.side_put_opposite, Layout.stops_put, Layout.flight_put]
    exact ⟨hm', hko, hkst, hf'⟩
  · rw [Layout.flat_put]
    cases b <;> rfl

/-! ## Statements -/

/-- Writing back what is there changes nothing. -/
theorem Flat.setSide_withTape_self (f : Flat) (b : Side) :
    (f.setSide b (f.side b)).withTape f.tape = f := by
  cases b <;> rfl

/-- A state that differs in nothing that the values or the heap see. -/
theorem Shows.congr {s' : Engine} {t : Tape} (h : Shows K s f fl) (hs : SameHeap s s')
    (hb : ∀ b, s'.book b = s.book b) (hst : s'.stops_ = s.stops_) (ht : s'.tape = t) :
    Shows K s' (f.withTape t) fl := by
  obtain ⟨G, hg, hk, rfl, hfl⟩ := h
  subst ht
  exact ⟨G, hg.congr hs hb hst, hk, rfl, hfl⟩

/-- The order in flight is read. -/
theorem Shows.order (h : Shows K s f (o :: fl)) : Cpp.order (K o.id) s = some (o, s) := by
  obtain ⟨G, m, fl', hs, -⟩ := h.frame .BUY
  exact hs.orderFlying

/-- The order in flight is written. Its id stays, so its address does. -/
theorem Shows.set (h : Shows K s f (o :: fl)) (g : Order → Order) (hid : (g o).id = o.id) :
    Returns (Cpp.set (K o.id) g) s fun _ s' => Shows K s' f (g o :: fl) := by
  obtain ⟨G, m, fl', hs, hkm, hkf, hm, rfl, hback⟩ := h.frame .BUY
  refine (hs.set g hid).mono fun _ s' h' => ?_
  have hsh := hback _ _ _ h'.2 hkm (Keyed.cons.mpr ⟨congrArg K hid, hkf⟩)
  rw [hm, h'.1, ← h.tape, Flat.setSide_withTape_self] at hsh
  exact hsh

/-- The order in flight leaves the engine. -/
theorem Shows.discard (h : Shows K s f (o :: fl)) :
    Returns (Cpp.discard (K o.id)) s fun _ s' => Shows K s' (f.finish (some o)) fl := by
  obtain ⟨G, m, fl', hs, hkm, hkf, hm, rfl, hback⟩ := h.frame .BUY
  refine hs.discard.mono fun _ s' h' => ?_
  have hsh := hback _ _ _ h'.2 hkm hkf
  rw [hm, h'.1, ← h.tape] at hsh
  exact hsh

/-- The history is written. -/
theorem Shows.mark (h : Shows K s f fl) (e : Mark) :
    Returns (Cpp.mark e) s fun _ s' => Shows K s' (f.withTape (f.tape.mark e)) fl := by
  refine ⟨(), _, rfl, h.congr ⟨rfl, rfl, rfl, rfl, rfl, rfl, rfl⟩ (fun b => by cases b <;> rfl) rfl ?_⟩
  rw [h.tape]
  rfl

/-- The listener is told of the order in flight. -/
theorem Shows.notify (h : Shows K s f (o :: fl)) (e : Order → Event) :
    Returns (Cpp.notify (K o.id) e) s fun _ s' =>
      Shows K s' (f.withTape (f.tape.event (e o))) (o :: fl) := by
  unfold Cpp.notify
  exact .after h.order (h.mark _)

/-- The clock ticks. -/
theorem Shows.tick (h : Shows K s f fl) :
    Returns Cpp.tick s fun t s' => t = f.tape.now + 1 ∧ Shows K s' (f.withTape f.tape.tick) fl := by
  refine ⟨_, _, rfl, ?_, h.congr ⟨rfl, rfl, rfl, rfl, rfl, rfl, rfl⟩
    (fun b => by cases b <;> rfl) rfl ?_⟩
  · rw [h.tape]
    rfl
  · rw [h.tape]
    rfl

/-- The order in flight is cancelled and told of. -/
theorem Shows.cancelWith (h : Shows K s f (o :: fl)) (reason : String) :
    Returns (Cpp.cancelWith (K o.id) reason) s fun _ s' =>
      Shows K s' (Flat.cancelIn o reason f).2 ((Flat.cancelIn o reason f).1 :: fl) := by
  unfold Cpp.cancelWith
  exact (h.set _ rfl).bind fun _ s₁ h₁ => h₁.notify _

/-- The order in flight is killed. -/
theorem Shows.kill (h : Shows K s f (o :: fl)) (reason : String) :
    Returns (Cpp.kill (K o.id) reason) s fun _ s' => Shows K s' (Flat.kill o reason f) fl := by
  unfold Cpp.kill
  exact (h.cancelWith reason).bind fun _ s₁ h₁ => h₁.discard

/-- The order in flight becomes what it was a stop for. -/
theorem Shows.trigger (h : Shows K s f (o :: fl)) :
    Returns (Cpp.trigger (K o.id)) s fun _ s' =>
      Shows K s' (f.withTape (Flat.trigger o f.tape).2) ((Flat.trigger o f.tape).1 :: fl) := by
  unfold Cpp.trigger
  refine (h.set _ rfl).bind fun _ s₁ h₁ => ?_
  refine (h₁.notify _).bind fun _ s₂ h₂ => ?_
  exact h₂.set _ rfl

/-! ## Orders that come to rest -/

/-- `insertOrder`, and a write to the status after it. -/
theorem Shows.rest (h : Shows K s f (o :: fl)) (hsides : ∀ b, Shelf b (f.side b)) (st : OrderStatus) :
    Returns (insertOrder (K o.id) >>= fun _ => Cpp.set (K o.id) fun c => { c with status := st }) s
      fun _ s' => Shows K s' (f.rest o st) fl := by
  obtain ⟨G, m, fl', hs, hkm, hkf, hm, rfl, hback⟩ := h.frame o.side
  have hsort := (hsides o.side).sorted
  rw [← hm] at hsort
  have hranked : Ranked o.side m := List.pairwise_map.mp hsort
  have ht := h.tape
  refine Returns.bind (Q := fun _ s' => ∃ pre lv q post, s'.tape = f.tape.mark (.rested
      { o with visibleQty := o.shown o.remainingQty } (((f.side o.side).lookup o.price).getD [])) ∧
      Holds s' (G.put o.side (pre ++ ⟨o.price, lv,
        q ++ [(K o.id, { o with visibleQty := o.shown o.remainingQty })]⟩ :: post) fl') ∧
      (∀ o' : Order, o'.price = o.price → enqueue o.side o' (levelsOf m) =
        levelsOf (pre ++ ⟨o.price, lv, q ++ [(K o.id, o')]⟩ :: post)) ∧
      spread m = spread pre ++ (q ++ spread post)) ?_ ?_
  -- The insertion: a queue of the side gets the order as its last one.
  · unfold insertOrder
    refine (hs.set _ rfl).bind fun _ s₁ h₁ => ?_
    obtain ⟨ht₁, h₁⟩ := h₁
    refine .after h₁.orderFlying ?_
    refine (h₁.write ⟨rfl, rfl, rfl, rfl, rfl, rfl, rfl⟩ (fun b => by cases b <;> rfl) rfl).bind
      fun _ s₂ h₂ => ?_
    obtain ⟨ht₂, h₂⟩ := h₂
    refine (h₂.insertSide hranked).mono fun _ s₃ h₃ => ?_
    obtain ⟨ht₃, pre, lv, q, post, h₃, henq, hsp⟩ := h₃
    refine ⟨pre, lv, q, post, ?_, h₃, henq, hsp⟩
    have hview := h₁.view o.side
    rw [Layout.side_put, hm] at hview
    rw [ht₃, ht₂, ht, ← ht₁, ← hview]
    rfl
  · rintro _ s₁ ⟨pre, lv, q, post, ht₁, h₁, henq, hsp⟩
    refine (h₁.setQueued (fun c => { c with status := st }) rfl).mono fun _ s₂ h₂ => ?_
    obtain ⟨ht₂, h₂⟩ := h₂
    dsimp only at h₂
    -- The status is written where the order now is, under the same address.
    have hk : Keyed K (spread (pre ++ ⟨o.price, lv, q ++ [(K o.id,
        { o with visibleQty := o.shown o.remainingQty, status := st })]⟩ :: post)) := by
      rw [hsp, Keyed.append, Keyed.append] at hkm
      unfold spread
      rw [List.flatMap_append, List.flatMap_cons, Keyed.append, Keyed.append, Keyed.append]
      exact ⟨hkm.1, ⟨hkm.2.1, List.forall_mem_singleton.mpr rfl⟩, hkm.2.2⟩
    have hsh := hback _ _ _ h₂ hk hkf
    rw [← henq { o with visibleQty := o.shown o.remainingQty, status := st } rfl, hm, ht₂, ht₁] at hsh
    exact hsh

/-- `matchOrd`. -/
theorem Shows.matchOrd {o' : Order} {f' : Flat} (h : Shows K s f (o :: fl)) (hi : Inv f (o :: fl))
    (he : Flat.matchOrd o f = some (o', f')) :
    Returns (Cpp.matchOrd (K o.id)) s fun _ s' => Shows K s' f' (o' :: fl) := by
  -- The match keeps the id, so the address in the index stays good.
  obtain ⟨o₁, f₁, he₁, hend⟩ := matchOrd_ends hi
  rw [he] at he₁
  obtain ⟨rfl, rfl⟩ := Prod.mk.inj (Option.some.inj he₁)
  have hid : o'.id = o.id := by rw [hend.alike]
  obtain ⟨⟨i, m', t⟩, hm', he⟩ := Option.map_eq_some_iff.mp he
  obtain ⟨rfl, rfl⟩ := Prod.mk.inj he
  obtain ⟨G, m, fl', hs, hkm, hkf, hm, rfl, hback⟩ := h.frame (oppositeSide o.side)
  rw [← hm, h.tape] at hm'
  have hbk := hs.book (oppositeSide o.side)
  rw [Layout.side_put] at hbk
  unfold Cpp.matchOrd matchAgainst
  refine .after h.order (.after (show read (·.book (oppositeSide o.side)) s = some (_, s) from rfl) ?_)
  refine (matchLevels_run m _ o s i m' t ?_ hs hkm hm').mono fun _ s₁ h₁ => ?_
  · dsimp only
    rw [hbk, List.length_map]
    exact Nat.lt_succ_self _
  · obtain ⟨rfl, m'', rfl, hkm'', h₁⟩ := h₁
    exact hback _ _ _ h₁ hkm'' (Keyed.cons.mpr ⟨congrArg K hid, hkf⟩)

/-! ## What is left of an order -/

/-- The end of `dispose`: a market order that is not filled is cancelled, and any other order comes
to rest. -/
theorem Shows.disposeResting (h : Shows K s f (o :: fl)) (hi : Inv f (o :: fl)) (hasTr : Bool)
    {d : Option Order} {f' : Flat} (he : (if o.orderType = .MARKET then
      some ((Flat.cancelIn o "MARKET_NO_FULL_FILL" f).map some id)
      else some (none, f.rest o (if hasTr then .PARTIALLY_FILLED else .NEW))) = some (d, f')) :
    Returns (Cpp.disposeResting (K o.id) hasTr) s fun _ s' => Shows K s' f' (d.toList ++ fl) ∧
      ∀ x ∈ d, x.id = o.id := by
  unfold Cpp.disposeResting
  refine .after h.order (.ite (fun hm => ?_) fun hm => ?_)
  · rw [if_pos hm] at he
    cases he
    refine (h.cancelWith _).mono fun _ s₁ h₁ => ⟨h₁, ?_⟩
    rintro x ⟨⟩
    rfl
  · rw [if_neg hm] at he
    cases he
    exact (h.rest hi.sides _).mono fun _ s₁ h₁ => ⟨h₁, fun x hx => absurd hx (Option.not_mem_none x)⟩

/-- `dispose`, branch by branch. -/
theorem Shows.dispose (h : Shows K s f (o :: fl)) (hi : Inv f (o :: fl)) {hasTr : Bool}
    {d : Option Order} {f' : Flat} (he : Flat.dispose o hasTr f = some (d, f')) :
    Returns (Cpp.dispose (K o.id) hasTr) s fun _ s' => Shows K s' f' (d.toList ++ fl) ∧
      ∀ x ∈ d, x.id = o.id := by
  unfold Flat.dispose at he
  unfold Cpp.dispose
  refine .after h.order (.ite (fun hr => ?_) fun hr => ?_)
  · rw [if_pos hr] at he
    cases he
    -- Filled.
    refine (h.set _ rfl).mono fun _ s₁ h₁ => ⟨h₁, ?_⟩
    rintro x ⟨⟩
    rfl
  · rw [if_neg hr] at he
    cases htif : o.timeInForce with
    | IOC =>
      rw [htif] at he
      cases he
      -- An immediate order is cancelled with its remainder.
      refine (h.cancelWith _).mono fun _ s₁ h₁ => ⟨h₁, ?_⟩
      rintro x ⟨⟩
      rfl
    | FOK =>
      rw [htif] at he
      cases he
    | GTC =>
      rw [htif] at he
      exact h.disposeResting hi hasTr he
    | GTD =>
      rw [htif] at he
      exact h.disposeResting hi hasTr he
    | DAY =>
      rw [htif] at he
      exact h.disposeResting hi hasTr he

/-- What follows a match: `dispose`, unless the order was cancelled by it. -/
theorem Shows.settle (h : Shows K s f (o :: fl)) (hi : Inv f (o :: fl)) {hasTr : Bool}
    {d : Option Order} {f' : Flat} (he : Flat.settle o hasTr f = some (d, f')) :
    Returns (do
        let c ← Cpp.order (K o.id)
        if c.status ≠ .CANCELLED then Cpp.dispose (K o.id) hasTr else pure ()) s fun _ s' =>
      Shows K s' f' (d.toList ++ fl) ∧ ∀ x ∈ d, x.id = o.id := by
  unfold Flat.settle at he
  refine .after h.order (.ite (fun hst => ?_) fun hst => ?_)
  · rw [if_pos hst] at he
    exact h.dispose hi he
  · rw [if_neg hst] at he
    cases he
    refine .pure ⟨h, ?_⟩
    rintro x ⟨⟩
    rfl

/-- The prices of a side. -/
theorem Shows.book (h : Shows K s f fl) (b : Side) :
    (s.book b).map (·.1) = (f.side b).map (·.1) := by
  obtain ⟨G, hs, -, rfl, -⟩ := h
  rw [hs.book, Layout.side_flat, levelsOf, List.map_map, List.map_map]
  rfl

/-- The engine crosses where its values do. -/
theorem Shows.wouldCross (h : Shows K s f fl) (o : Order) :
    Cpp.wouldCross o s = Flat.wouldCross o f := by
  obtain ⟨G, hs, -, rfl, -⟩ := h
  exact wouldCross_eq hs _

/-- A post-only order gets the price that its values get. -/
theorem Shows.reprice (h : Shows K s f (o :: fl)) {o' : Order} {f' : Flat}
    (he : Flat.reprice o f = some (o', f')) :
    Returns (Cpp.reprice (K o.id)) s fun _ s' => Shows K s' f' (o' :: fl) ∧ o'.id = o.id := by
  unfold Flat.reprice at he
  have hbk := h.book (oppositeSide o.side)
  unfold Cpp.reprice
  refine .after h.order (.after (show read (·.book (oppositeSide o.side)) s = some (_, s) from rfl)
    (.after (show read (·.tick_) s = some (s.tick_, s) from rfl) ?_))
  -- The tick of the engine is the one of the tape, and its best row the best level.
  have htick : s.tick_ = f.tape.tickSz := by
    rw [h.tape]
    rfl
  cases hside : f.side (oppositeSide o.side) with
  | nil =>
    rw [hside] at he
    cases he
  | cons l m =>
    rw [hside] at he hbk
    obtain ⟨e, es, hes, hp, -⟩ := List.map_eq_cons_iff.mp hbk
    dsimp only at he ⊢
    rw [hes, htick]
    simp only [Option.some.injEq, Prod.mk.injEq] at he
    obtain ⟨rfl, rfl⟩ := he
    refine (h.set _ rfl).bind fun _ s₁ h₁ => ?_
    refine .after h₁.order ?_
    refine (h₁.mark _).mono fun _ s₂ h₂ => ?_
    rw [hp] at h₂
    exact ⟨h₂, rfl⟩

/-- The phase of the post-only orders, by the policy. -/
theorem Shows.postOnlyPhase (h : Shows K s f (o :: fl)) (hi : Inv f (o :: fl)) {f' : Flat}
    (he : Flat.postOnlyPhase o f = some f') :
    Returns (Cpp.postOnlyPhase (K o.id)) s fun _ s' => Shows K s' f' fl := by
  unfold Flat.postOnlyPhase at he
  unfold Cpp.postOnlyPhase
  refine .after h.order (.after (show read (Cpp.wouldCross o) s = some (_, s) from rfl)
    (.after (show read (·.poPol_) s = some (s.poPol_, s) from rfl) ?_))
  have hpol : s.poPol_ = f.tape.poPol := by
    rw [h.tape]
    rfl
  rw [h.wouldCross, hpol]
  refine .ite (fun hc => ?_) fun hc => ?_
  · rw [if_pos hc] at he
    refine .ite (fun hp => ?_) fun hp => ?_
    · rw [if_pos hp] at he
      cases he
      exact h.kill _
    · rw [if_neg hp] at he
      obtain ⟨⟨o', f₁⟩, hrep, he⟩ := Option.map_eq_some_iff.mp he
      cases he
      refine (h.reprice hrep).bind fun _ s₁ h₁ => ?_
      obtain ⟨h₁, hid⟩ := h₁
      -- Repricing leaves the sides as they are.
      have hsides : ∀ b, Shelf b (f₁.side b) := by
        intro b
        unfold Flat.reprice at hrep
        split at hrep
        · cases hrep
        · simp only [Option.some.injEq, Prod.mk.injEq] at hrep
          obtain ⟨-, rfl⟩ := hrep
          rw [Flat.side_withTape]
          exact hi.sides b
      rw [← hid]
      exact h₁.rest hsides .NEW
  · rw [if_neg hc] at he
    cases he
    exact h.rest hi.sides .NEW

/-- The trades of the call. -/
theorem Shows.trades (h : Shows K s f fl) : s.trades_ = f.tape.trades := by
  rw [h.tape]
  rfl

/-- What matching leaves of the invariant. -/
theorem Inv.matchOrd {o' : Order} {f' : Flat} (hi : Inv f (o :: fl))
    (he : Flat.matchOrd o f = some (o', f'))
    (hpo : o.postOnly = false) (hst : o.status ≠ .CANCELLED) (hstop : o.orderType.isStop = false) :
    Inv f' (o' :: fl) ∧ o'.id = o.id := by
  obtain ⟨hsteps, hend, -⟩ := Flat.steps_matchOrd (X := Any) fl he hpo hst hstop
  exact ⟨hi.steps hsteps, by rw [hend.alike]⟩

/-- The match of an order that is not market-to-limit. -/
theorem Shows.matchPlain (h : Shows K s f (o :: fl)) (hi : Inv f (o :: fl)) (hr : Flat.Ready Any o f)
    (hpo : o.postOnly = false) {ts : ℕ} {d : Option Order} {f' : Flat}
    (he : Flat.matchPlain ts o f = some (d, f')) :
    Returns (Cpp.matchPlain ts (K o.id)) s fun _ s' => Shows K s' f' (d.toList ++ fl) ∧
      ∀ x ∈ d, x.id = o.id := by
  obtain ⟨⟨o₁, f₁⟩, hm, he⟩ := Option.bind_eq_some_iff.mp he
  obtain ⟨hi₁, hid⟩ := hi.matchOrd hm hpo hr.status hr.notStop
  dsimp only at he
  unfold Cpp.matchPlain
  refine (h.matchOrd hi hm).bind fun _ s₁ h₁ => ?_
  rw [← hid] at *
  refine .after (show read (·.trades_) s₁ = some (s₁.trades_, s₁) from rfl) ?_
  rw [h₁.trades]
  refine (h₁.set _ rfl).bind fun _ s₂ h₂ => ?_
  -- Whether a trade was made is read off the buffer of trades, and it lifts the minimum.
  have hi₂ : Inv f₁ ({ o₁ with minQty := if 0 < o₁.minQty ∧
      (decide (ts < f₁.tape.trades.length)) = true then 0 else o₁.minQty } :: fl) := by
    split
    · exact hi₁.step (.loosen (X := Any))
    · exact hi₁
  have hd : ∀ b : Bool, (b = true ↔ ts < f₁.tape.trades.length) →
      { o₁ with minQty := if 0 < o₁.minQty ∧ ts < f₁.tape.trades.length then 0 else o₁.minQty } =
      { o₁ with minQty := if 0 < o₁.minQty ∧ b = true then 0 else o₁.minQty } := by
    intro b hb
    simp only [hb]
  rw [hd _ decide_eq_true_iff] at h₂
  exact h₂.settle hi₂ he

/-- The match of a market-to-limit order, which looks at the price of the first trade of the match.
-/
theorem Shows.toLimit (h : Shows K s f (o :: fl)) (hi : Inv f (o :: fl))
    (htype : o.orderType = .MARKET_TO_LIMIT) (hpo : o.postOnly = false) {ts : ℕ} {d : Option Order}
    {f' : Flat} (he : Flat.toLimit ts o f = some (d, f')) :
    Returns (Cpp.toLimit ts (K o.id)) s fun _ s' => Shows K s' f' (d.toList ++ fl) ∧
      ∀ x ∈ d, x.id = o.id := by
  obtain ⟨t, ht, he⟩ := Option.bind_eq_some_iff.mp he
  obtain ⟨⟨o₁, f₁⟩, hm, he⟩ := Option.bind_eq_some_iff.mp he
  have hi₁ := hi.step (.toLimit (X := Any) htype (List.mem_of_getElem? ht))
  dsimp only at he hm
  unfold Cpp.toLimit
  refine .after (show read (·.trades_) s = some (s.trades_, s) from rfl) ?_
  rw [h.trades, ht]
  refine (h.set _ rfl).bind fun _ s₁ h₁ => ?_
  refine .after h₁.order ?_
  dsimp only
  -- The second match, where something remains to be matched.
  have hpass : Returns (if 0 < o.remainingQty ∧ o.status ≠ .CANCELLED then Cpp.matchOrd (K o.id)
      else pure ()) s₁ fun _ s' => Shows K s' f₁ (o₁ :: fl) ∧ Inv f₁ (o₁ :: fl) ∧ o₁.id = o.id := by
    refine .ite (fun hgo => ?_) fun hgo => ?_
    · rw [if_pos hgo] at hm
      exact (h₁.matchOrd hi₁ hm).mono fun _ s₂ h₂ => ⟨h₂, hi₁.matchOrd hm hpo hgo.2 rfl⟩
    · rw [if_neg hgo] at hm
      simp only [Option.some.injEq, Prod.mk.injEq] at hm
      obtain ⟨rfl, rfl⟩ := hm
      exact .pure ⟨h₁, hi₁, rfl⟩
  refine hpass.bind fun _ s₂ h₂ => ?_
  obtain ⟨h₂, hi₂, hid⟩ := h₂
  rw [← hid]
  exact h₂.settle hi₂ he

/-! ## Trades and stops -/

/-- Whenever `g` returns, so does `m`. -/
def Refines (K : UInt64 → ℕ) (m : Prog Engine Unit) (g : Flat → Option Flat) : Prop :=
  ∀ s f fl f', Shows K s f fl → Inv f fl → g f = some f' → Returns m s fun _ s' => Shows K s' f' fl

/-- `Refines`, for a program that works on an order. -/
def RefinesOn (K : UInt64 → ℕ) (m : ℕ → ℕ → Prog Engine Unit)
    (g : Order → ℕ → Flat → Option Flat) : Prop :=
  ∀ s f fl o depth f', Shows K s f (o :: fl) → Inv f (o :: fl) → Flat.Ready Any o f →
    g o depth f = some f' → Returns (m (K o.id) depth) s fun _ s' => Shows K s' f' fl

/-- The reports of a match, by induction on the number of trades that are still to be told of. -/
theorem refines_emitLoop {eval : ℤ → ℕ → Prog Engine Unit} {eval' : ℤ → ℕ → Flat → Option Flat}
    {depth : ℕ} (he : ∀ px, Refines K (eval px depth) (eval' px depth))
    (ha : ∀ px d, Flat.Acts Any (eval' px d)) :
    ∀ n i, Refines K (emitLoop eval depth n i) (Flat.emitLoop eval' depth n i) := by
  intro n
  induction n with
  | zero =>
    intro i s f fl f' h _ hg
    cases hg
    exact .pure h
  | succ n ih =>
    intro i s f fl f' h hi hg
    unfold Flat.emitLoop at hg
    unfold emitLoop
    refine .after (show read (·.trades_) s = some (s.trades_, s) from rfl) ?_
    rw [h.trades]
    cases ht : f.tape.trades[i]? with
    | none =>
      rw [ht] at hg
      cases hg
    | some t =>
      rw [ht] at hg
      dsimp only at hg ⊢
      have hi₁ := hi.step (.report (X := Any) depth (List.mem_of_getElem? ht))
      refine (h.mark _).bind fun _ s₁ h₁ => ?_
      -- The last price and the depth are written, which no layout shows.
      have h₂ : Shows K { s₁ with lastPx_ := t.price, lastDepth := depth } (f.withTape
          { f.tape.event (.onTrade t) with lastPx := t.price, lastDepth := depth }) fl := by
        refine h₁.congr (t := { f.tape.event (.onTrade t) with lastPx := t.price, lastDepth := depth })
          ⟨rfl, rfl, rfl, rfl, rfl, rfl, rfl⟩ (fun b => by cases b <;> rfl) rfl ?_
        have ht₁ : s₁.tape = f.tape.event (.onTrade t) := h₁.tape.symm
        rw [← ht₁]
        rfl
      refine .after (show write _ s₁ = some ((), { s₁ with lastPx_ := t.price, lastDepth := depth })
        from rfl) ?_
      split at hg
      · cases hg
      · rename_i f₂ hg₂
        refine Returns.bind (Q := fun _ s' => Shows K s' f₂ fl ∧ Inv f₂ fl) ?_ fun _ s₃ h₃ => ?_
        -- The stops are evaluated while the depth allows it.
        · refine .ite (fun hd => ?_) fun hd => ?_
          · rw [if_pos hd] at hg₂
            exact (he _ _ _ _ _ h₂ hi₁ hg₂).mono fun _ s₃ h₃ =>
              ⟨h₃, hi₁.steps ((ha _ _ _ _ hi₁.stopsOk hg₂).1 fl)⟩
          · rw [if_neg hd] at hg₂
            cases hg₂
            exact .pure ⟨h₂, hi₁⟩
        · exact ih _ _ _ _ _ h₃.1 h₃.2 hg

/-- Stops are taken out. -/
theorem Holds.wake {out stops : List (ℕ × Order)} (h : Holds s G) (hp : G.stops.Perm (out ++ stops)) :
    Holds { s with stops_ := stops.map (·.1) }
      { G with stops := stops, flight := out ++ G.flight } where
  standing := by
    have hsame : SameHeap s { s with stops_ := stops.map (·.1) } := ⟨rfl, rfl, rfl, rfl, rfl, rfl, rfl⟩
    refine (h.standing.congr hsame).perm (.refl _) ?_
    refine (hp.append_right _).trans ?_
    rw [List.append_assoc, ← List.append_assoc, ← List.append_assoc]
    exact List.perm_append_comm.append_right _
  book b := by
    have hb := h.book b
    cases b <;> exact hb
  stops := rfl

/-- The triggered stops, by induction on those whose turn has not come. -/
theorem refines_activate {active : ℕ → ℕ → Prog Engine Unit} {active' : Order → ℕ → Flat → Option Flat}
    (he : RefinesOn K active active')
    (ha : ∀ o d f f', Flat.StopsOk f.stops → active' o d f = some f' → Flat.Ready Any o f →
      (∀ fl, Flat.Steps Any (f, o :: fl) (f', fl)) ∧ ∀ s ∈ f'.stops, s ∈ f.stops) {depth : ℕ} :
    ∀ os s f fl f', Shows K s f (os ++ fl) → Inv f (os ++ fl) → (∀ o ∈ os, Dormant o) →
      Flat.activate active' depth os f = some f' →
      Returns (activate active depth (os.map fun o => K o.id)) s fun _ s' => Shows K s' f' fl := by
  intro os
  induction os with
  | nil =>
    intro s f fl f' h _ _ hg
    cases hg
    exact .pure h
  | cons o os ih =>
    intro s f fl f' h hi hos hg
    have ho := hos o List.mem_cons_self
    have hr := Flat.ready_trigger (X := Any) ⟨ho.type, ho.postOnly⟩ f
    have hi₁ := hi.step (show Flat.Step Any (f, o :: (os ++ fl)) _ from .trigger ho.type)
    unfold Flat.activate at hg
    rw [List.map_cons]
    unfold activate
    split at hg
    · cases hg
    · rename_i f₁ hg₁
      -- Each stop is triggered and goes through the pipeline before the next one.
      refine (Shows.trigger h).bind fun _ s₁ h₁ => ?_
      refine (he _ _ _ _ _ _ h₁ hi₁ hr hg₁).bind fun _ s₂ h₂ => ?_
      have hi₂ := hi₁.steps ((ha _ _ _ _ hi₁.stopsOk hg₁ hr).1 (os ++ fl))
      exact ih _ _ _ _ h₂ hi₂ (fun x hx => hos x (List.mem_cons_of_mem _ hx)) hg

/-- The evaluation of the stops: the scan, the sort, and the turns. -/
theorem refines_evalStops (S : StdSort) {active : ℕ → ℕ → Prog Engine Unit}
    {active' : Order → ℕ → Flat → Option Flat} (he : RefinesOn K active active')
    (ha : ∀ o d f f', Flat.StopsOk f.stops → active' o d f = some f' → Flat.Ready Any o f →
      (∀ fl, Flat.Steps Any (f, o :: fl) (f', fl)) ∧ ∀ s ∈ f'.stops, s ∈ f.stops) (px : ℤ) (depth : ℕ) :
    Refines K (evalStops S active px depth) (Flat.evalStops S active' px depth) := by
  rintro s _ _ f' ⟨G, hs, hk, rfl, rfl⟩ hi hg
  unfold Flat.evalStops at hg
  have hmap := takeOut_map (·.2) (fires px) ((G.flat s.tape).stops.length + 1) 0 G.stops []
  have hstops : (G.flat s.tape).stops = G.stops.map (·.2) := rfl
  rw [hstops] at hg hmap
  rw [List.map_nil] at hmap
  rw [hmap] at hg
  cases hr : takeOut (fun e : ℕ × Order => fires px e.2) ((G.stops.map (·.2)).length + 1) 0 G.stops []
    with
  | none =>
    rw [hr] at hg
    cases hg
  | some r =>
    rw [hr] at hg
    dsimp only [Option.map_some] at hg
    have htaken := Flat.taken_takeOut _ _ _ _ _ hr fun j hj => absurd hj (Nat.not_lt_zero j)
    have hperm : G.stops.Perm (r.1 ++ r.2) := htaken.perm
    have hread : Reads s G.stops := fun e hx => (hs.standing.stored.value e.1 e.2).mpr
      (Layout.mem_stops hx)
    have hrun : takeStops px _ _ _ s = _ := takeStops_run _ _ _ _ _ s hs.stops hread hr
    have hsort := Flat.perm_sort S (fun e : ℕ × Order => e.2.timestamp) r.1
    have hcells := (keyed_cells .BUY).mp hk
    have hkr := hcells.2.2.1.perm hperm
    -- The stops that fire, in the order in which they are worked on.
    have hkey : S.sort (fun p => ((s.orders p).map (·.order.timestamp)).getD 0) (r.1.map (·.1)) =
        (S.sort (·.2.timestamp) r.1).map (·.1) := by
      rw [sort_map]
      congr 1
      refine sort_congr S fun e hx => ?_
      have hval := hread e (hperm.mem_iff.mpr (List.mem_append_left _ hx))
      obtain ⟨c, hc, hco⟩ := cell_of_valueAt hval
      rw [hc, ← hco]
      rfl
    rw [sort_map S (fun e : ℕ × Order => e.2) fun o : Order => o.timestamp] at hg
    unfold evalStops
    refine .after (show read (·.stops_) s = some (s.stops_, s) from rfl) ?_
    rw [hs.stops, List.length_map]
    rw [List.length_map] at hrun
    refine .after hrun ?_
    refine .after (show sortByTime S (r.1.map (·.1)) _ = some ((S.sort (·.2.timestamp) r.1).map (·.1),
      { s with stops_ := r.2.map (·.1) }) by
        unfold sortByTime read
        dsimp only
        rw [hkey]) ?_
    have hs' := hs.wake ((hperm.trans (hsort.symm.append_right r.2)))
    have hwake : (G.stops.map (·.2)).Perm
        ((S.sort (fun e : ℕ × Order => e.2.timestamp) r.1).map (·.2) ++ r.2.map (·.2)) := by
      rw [← List.map_append]
      exact (hperm.trans (hsort.symm.append_right r.2)).map _
    have hi' := hi.step (Flat.Step.wake (X := Any) hwake)
    have hk' := (Keyed.append.mp hkr).1.perm hsort.symm
    rw [hk'.addrs]
    refine refines_activate he ha _ _ _ G.flying _ ⟨_, hs', ?_, rfl, ?_⟩ hi' ?_ hg
    · rw [keyed_cells .BUY]
      exact ⟨hcells.1, hcells.2.1, (Keyed.append.mp hkr).2, Keyed.append.mpr ⟨hk', hcells.2.2.2⟩⟩
    · exact List.map_append
    · intro o ho
      obtain ⟨e, hx, rfl⟩ := List.mem_map.mp ho
      refine hi.stops e.2 (List.mem_map_of_mem ?_)
      exact hperm.mem_iff.mpr (List.mem_append_left _ (hsort.mem_iff.mp hx))

/-! ## The pipeline -/

/-- The other orders in flight do not matter. -/
theorem Inv.ground (hi : Inv f fl) : Inv f [] where
  sides := hi.sides
  stops := hi.stops
  flight _ ho := absurd ho List.not_mem_nil
  ids := hi.ids.sublist (((List.nil_sublist fl).append_left f.orders).map _)

/-- An order of a layout is one of the values. -/
theorem Layout.mem_cells {e : ℕ × Order} (t : Tape) (he : e ∈ G.cells) :
    e.2 ∈ (G.flat t).orders ∨ e.2 ∈ G.flying := by
  have hside : ∀ {rows : List Row}, e ∈ spread rows → e.2 ∈ (levelsOf rows).orders := by
    intro rows he
    obtain ⟨r, hr, hq⟩ := List.mem_flatMap.mp he
    exact List.mem_flatMap.mpr ⟨_, List.mem_map_of_mem hr, List.mem_map_of_mem hq⟩
  unfold Layout.cells spread at he
  rw [List.flatMap_append] at he
  rcases List.mem_append.mp he with he | he
  · rcases List.mem_append.mp he with he | he
    · exact .inl (List.mem_append_left _ (hside he))
    · exact .inl (List.mem_append_right _ (List.mem_append_left _ (hside he)))
  · rcases List.mem_append.mp he with he | he
    · exact .inl (List.mem_append_right _ (List.mem_append_right _ (List.mem_map_of_mem he)))
    · exact .inr (List.mem_map_of_mem he)

/-- What the index knows of an id. -/
theorem Shows.get (h : Shows K s f fl) (id : UInt64) :
    (∃ o, (o ∈ f.orders ∨ o ∈ fl) ∧ o.id = id ∧ s.idx_.get id = some (K id) ∧
      Cpp.order (K id) s = some (o, s)) ∨
    s.idx_.get id = none ∧ ∀ o, o ∈ f.orders ∨ o ∈ fl → o.id ≠ id := by
  obtain ⟨G, hs, hk, rfl, rfl⟩ := h
  cases hg : s.idx_.get id with
  | some p =>
    obtain ⟨o, ho, rfl⟩ := (hs.standing.stored.index id p).mp hg
    have hp : K o.id = p := hk (p, o) ho
    subst hp
    exact .inl ⟨o, Layout.mem_cells _ ho, rfl, rfl, hs.order ho⟩
  | none =>
    refine .inr ⟨rfl, fun o ho hid => ?_⟩
    -- An order with the id would have a cell, and the index would know it.
    have hcell : ∃ p, (p, o) ∈ G.cells := by
      have hside : ∀ b, o ∈ ((G.flat s.tape).side b).orders → ∃ p, (p, o) ∈ G.cells := by
        intro b hb
        rw [Layout.side_flat] at hb
        obtain ⟨l, hl, hq⟩ := Levels.mem_orders.mp hb
        obtain ⟨r, hr, rfl⟩ := List.mem_map.mp hl
        obtain ⟨e, he, rfl⟩ := List.mem_map.mp hq
        exact ⟨e.1, Layout.mem_side hr he⟩
      rcases ho with ho | ho
      · rcases List.mem_append.mp ho with hb | ho
        · exact hside .BUY hb
        · rcases List.mem_append.mp ho with ha | ho
          · exact hside .SELL ha
          · obtain ⟨e, he, rfl⟩ := List.mem_map.mp ho
            exact ⟨e.1, Layout.mem_stops he⟩
      · obtain ⟨e, he, rfl⟩ := List.mem_map.mp ho
        exact ⟨e.1, Layout.mem_flight he⟩
    obtain ⟨p, hp⟩ := hcell
    have := (hs.standing.stored.index id p).mpr ⟨o, hp, hid⟩
    rw [hg] at this
    cases this

/-- The end of `processActive`: an order that has come to rest stays, wherever it is by now. -/
theorem Shows.finish {id : UInt64} {d : Option Order} (h : Shows K s f (d.toList ++ fl))
    (hi : Inv f (d.toList ++ fl)) (hd : ∀ x ∈ d, x.id = id) (hdone : ∀ x ∈ d, Flat.Done x)
    (hfl : ∀ x ∈ fl, x.id ≠ id) :
    Returns (Cpp.finish id (K id)) s fun _ s' => Shows K s' (f.finish d) fl := by
  unfold Cpp.finish
  refine .after (show read (·.idx_.has id) s = some (s.idx_.has id, s) from rfl) ?_
  unfold OrderIndex.has
  cases d with
  | some x =>
    obtain rfl := hd x rfl
    -- The order is done with, and is still where its id leads to.
    rcases h.get x.id with ⟨o, -, -, hget, -⟩ | ⟨-, hno⟩
    · rw [hget]
      refine .after (Shows.order h) (.ite (fun _ => Shows.discard h) fun hn => absurd ?_ hn)
      exact hdone x rfl
    · exact absurd rfl (hno x (.inr List.mem_cons_self))
  | none =>
    -- The order rests: its status is open, so nothing is freed, or the id leads nowhere.
    rcases h.get id with ⟨o, ho, hid, hget, hord⟩ | ⟨hget, -⟩
    · rw [hget]
      refine .after hord (.ite (fun hst => ?_) fun _ => .pure h)
      rcases ho with ho | ho
      · have hopen := hi.ground.tidy.status o ho
        rcases hst with hst | hst <;> (rw [hst] at hopen; cases hopen)
      · exact absurd hid (hfl o ho)
    · rw [hget]
      exact .pure h

/-- The orders in flight beside the one that is worked on have other ids. -/
theorem Inv.flight_ne (hi : Inv f (o :: fl)) : ∀ x ∈ fl, x.id ≠ o.id := by
  intro x hx hid
  have hn := hi.ids
  unfold Flat.ids at hn
  rw [List.map_append, List.map_cons] at hn
  exact (List.nodup_cons.mp (List.nodup_append.mp hn).2.1).1 (hid ▸ List.mem_map_of_mem hx)

/-- The phase that matches, once its reports refine theirs. -/
theorem refines_matchPhase {emit : ℕ → ℕ → Prog Engine Unit} {emit' : ℕ → ℕ → Flat → Option Flat}
    (he : ∀ start depth, Refines K (emit start depth) (emit' start depth))
    (ha : ∀ start depth, Flat.Acts Any (emit' start depth)) {depth : ℕ} {f' : Flat}
    (h : Shows K s f (o :: fl)) (hi : Inv f (o :: fl)) (hr : Flat.Ready Any o f)
    (hpo : o.postOnly = false) (hmin : 0 < o.minQty → Flat.minQtyCheck o f = true)
    (hg : Flat.matchPhase emit' o depth f = some f') :
    Returns (matchPhase emit (K o.id) depth) s fun _ s' => Shows K s' f' fl := by
  have hne := hi.flight_ne
  unfold Flat.matchPhase at hg
  unfold matchPhase
  refine .after (show read (·.trades_) s = some (s.trades_, s) from rfl) (.after h.order ?_)
  rw [h.trades]
  dsimp only at hg ⊢
  -- A market-to-limit order matches twice, and any other once.
  refine .ite (fun htype => ?_) fun htype => ?_
  · rw [if_pos htype] at hg
    obtain ⟨⟨o₁, f₁⟩, hm, hg⟩ := Option.bind_eq_some_iff.mp hg
    obtain ⟨hi₁, hid⟩ := hi.matchOrd hm hpo hr.status hr.notStop
    obtain ⟨-, hend, -⟩ := Flat.steps_matchOrd (X := Any) fl hm hpo hr.status hr.notStop
    refine (h.matchOrd hi hm).bind fun _ s₁ h₁ => ?_
    refine .after (show read (·.trades_) s₁ = some (s₁.trades_, s₁) from rfl) ?_
    rw [h₁.trades]
    refine .ite (fun hts => ?_) fun hts => ?_
    · rw [if_pos hts] at hg
      obtain ⟨⟨d, f₂⟩, hl, hg⟩ := Option.bind_eq_some_iff.mp hg
      obtain ⟨f₃, hemit, hg⟩ := Option.bind_eq_some_iff.mp hg
      cases hg
      have htype₁ : o₁.orderType = .MARKET_TO_LIMIT := by rw [hend.alike, htype]
      have hpo₁ : o₁.postOnly = false := by rw [hend.alike.postOnly, hpo]
      obtain ⟨hsteps, hdone, -⟩ := Flat.steps_toLimit (X := Any) fl hl htype₁ hpo₁
        fun _ => .inr (.inl trivial)
      have hi₂ := hi₁.steps hsteps
      have hpass := h₁.toLimit hi₁ htype₁ hpo₁ hl
      rw [hid] at hpass
      refine hpass.bind fun _ s₂ h₂ => ?_
      obtain ⟨h₂, hd⟩ := h₂
      refine (he _ _ _ _ _ _ h₂ hi₂ hemit).bind fun _ s₃ h₃ => ?_
      exact h₃.finish (hi₂.steps ((ha _ _ _ _ hi₂.stopsOk hemit).1 _)) hd hdone hne
    · rw [if_neg hts] at hg
      cases hg
      rw [← hid]
      exact h₁.kill _
  · rw [if_neg htype] at hg
    obtain ⟨⟨d, f₂⟩, hl, hg⟩ := Option.bind_eq_some_iff.mp hg
    obtain ⟨f₃, hemit, hg⟩ := Option.bind_eq_some_iff.mp hg
    cases hg
    obtain ⟨hsteps, hdone, -⟩ := Flat.steps_matchPlain (X := Any) fl hl hr hpo htype hmin
    have hi₂ := hi.steps hsteps
    refine (h.matchPlain hi hr hpo hl).bind fun _ s₂ h₂ => ?_
    obtain ⟨h₂, hd⟩ := h₂
    refine (he _ _ _ _ _ _ h₂ hi₂ hemit).bind fun _ s₃ h₃ => ?_
    exact h₃.finish (hi₂.steps ((ha _ _ _ _ hi₂.stopsOk hemit).1 _)) hd hdone hne

/-- The check of a fill-or-kill order reads what the values hold. -/
theorem Shows.fokCheck (h : Shows K s f fl) (o : Order) :
    Cpp.fokCheck o s = some (Flat.fokCheck o f, s) := by
  obtain ⟨G, hs, -, rfl, -⟩ := h
  exact fokCheck_run hs _

/-- The check of the minimum reads what the values hold. -/
theorem Shows.minQtyCheck (h : Shows K s f fl) (o : Order) :
    Cpp.minQtyCheck o s = some (Flat.minQtyCheck o f, s) := by
  obtain ⟨G, hs, -, rfl, -⟩ := h
  exact minQtyCheck_run hs _

/-- `processActive` once its reports refine theirs, phase by phase. -/
theorem refinesOn_processActiveWith {emit : ℕ → ℕ → Prog Engine Unit}
    {emit' : ℕ → ℕ → Flat → Option Flat}
    (he : ∀ start depth, Refines K (emit start depth) (emit' start depth))
    (ha : ∀ start depth, Flat.Acts Any (emit' start depth)) :
    RefinesOn K (processActiveWith emit) (Flat.processActiveWith emit') := by
  intro s f fl o depth f' h hi hr hg
  unfold Flat.processActiveWith at hg
  unfold processActiveWith
  refine .after h.order (.ite (fun hpo => ?_) fun hpo => ?_)
  · rw [if_pos hpo] at hg
    exact h.postOnlyPhase hi hg
  · rw [if_neg hpo] at hg
    refine .after (show (if o.timeInForce = .FOK then Cpp.fokCheck o else pure true) s =
      some (if o.timeInForce = .FOK then Flat.fokCheck o f else true, s) by
        split
        · exact h.fokCheck o
        · rfl) ?_
    by_cases hfok : o.timeInForce = .FOK ∧ ¬ Flat.fokCheck o f = true
    · rw [if_pos hfok] at hg
      cases hg
      rw [if_pos hfok.1]
      exact .ite (fun hx => absurd hx hfok.2) fun _ => h.kill _
    · rw [if_neg hfok] at hg
      have hok : (if o.timeInForce = .FOK then Flat.fokCheck o f else true) = true := by
        split
        · exact not_not.mp fun hx => hfok ⟨‹_›, hx⟩
        · rfl
      rw [hok]
      refine .ite (fun _ => ?_) fun hx => absurd rfl hx
      refine .after (show (if 0 < o.minQty then Cpp.minQtyCheck o else pure true) s =
        some (if 0 < o.minQty then Flat.minQtyCheck o f else true, s) by
          split
          · exact h.minQtyCheck o
          · rfl) ?_
      by_cases hmin : 0 < o.minQty ∧ ¬ Flat.minQtyCheck o f = true
      · rw [if_pos hmin] at hg
        cases hg
        rw [if_pos hmin.1]
        exact .ite (fun hx => absurd hx hmin.2) fun _ => h.kill _
      · rw [if_neg hmin] at hg
        have hok : (if 0 < o.minQty then Flat.minQtyCheck o f else true) = true := by
          split
          · exact not_not.mp fun hx => hmin ⟨‹_›, hx⟩
          · rfl
        rw [hok]
        refine .ite (fun _ => ?_) fun hx => absurd rfl hx
        exact refines_matchPhase he ha h hi hr (Bool.eq_false_iff.mpr hpo)
          (fun hpos => not_not.mp fun hx => hmin ⟨hpos, hx⟩) hg

/-- The reports at any depth are acts. -/
theorem Flat.acts_emitAndTrigger (S : StdSort) (n start depth : ℕ) : Flat.Acts Any
    (Flat.emitAndTrigger (Flat.evalStops S (Flat.processActiveIn S n)) start depth) :=
      fun f₁ f₂ hs₁ h₁ =>
  Flat.acts_emitLoop (Flat.acts_evalStops S (Flat.acts_processActiveIn S n)) depth _ _ f₁ f₂ hs₁ h₁

/-- `processActive`, by induction on the depth that is left. -/
theorem refinesOn_processActiveIn (S : StdSort) : ∀ n,
    RefinesOn K (processActiveIn S n) (Flat.processActiveIn S n) := by
  intro n
  induction n with
  | zero =>
    intro s f fl o depth f' _ _ _ hg
    cases hg
  | succ n ih =>
    refine refinesOn_processActiveWith (fun start depth => ?_) (Flat.acts_emitAndTrigger S n)
    intro s f fl f' h hi hg
    unfold emitAndTrigger
    refine .after (show read (·.trades_) s = some (s.trades_, s) from rfl) ?_
    rw [h.trades]
    exact refines_emitLoop (fun px => refines_evalStops S ih (Flat.acts_processActiveIn S n) px depth)
      (Flat.acts_evalStops S (Flat.acts_processActiveIn S n)) _ _ _ _ _ _ h hi hg

end Frame

end MatchingEngine.Cpp
