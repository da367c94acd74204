import MatchingEngine.Cpp.Lifecycle

/-!
# Every call is a sequence of acts

One lemma for each function of `Cpp/Flat.lean`: where it returns, the state before and the state
after are joined by `Steps`. The premises of the acts come from what the function has tested, and
for an order that comes to rest from what the matching loop tells where it ends: that no level of
the other side is within the order's limit any more.
-/

namespace MatchingEngine.Cpp

namespace Flat

open Relation

/-- The side that was written is read. -/
@[simp] theorem side_setSide (f : Flat) (b : Side) (m : Levels) : (f.setSide b m).side b = m := by
  cases b <;> rfl

/-- Writing the opposite side leaves this one. -/
@[simp] theorem side_setSide_opposite (f : Flat) (b : Side) (m : Levels) :
    (f.setSide (oppositeSide b) m).side b = f.side b := by
  cases b <;> rfl

/-- Writing this side leaves the opposite one. -/
@[simp] theorem side_setSide_opposite' (f : Flat) (b : Side) (m : Levels) :
    (f.setSide b m).side (oppositeSide b) = f.side (oppositeSide b) := by
  cases b <;> rfl

/-- The last write of a side counts. -/
@[simp] theorem setSide_setSide (f : Flat) (b : Side) (m m' : Levels) :
    (f.setSide b m).setSide b m' = f.setSide b m' := by
  cases b <;> rfl

/-- Writing what is there changes nothing. -/
@[simp] theorem setSide_side (f : Flat) (b : Side) : f.setSide b (f.side b) = f := by
  cases b <;> rfl

/-- The sides do not depend on the tape. -/
@[simp] theorem side_withTape (f : Flat) (t : Tape) (b : Side) : (f.withTape t).side b = f.side b := by
  cases b <;> rfl

/-- A side and the tape are written in either order. -/
@[simp] theorem setSide_withTape (f : Flat) (t : Tape) (b : Side) (m : Levels) :
    (f.withTape t).setSide b m = (f.setSide b m).withTape t := by
  cases b <;> rfl

/-- The last tape counts. -/
@[simp] theorem withTape_withTape (f : Flat) (t t' : Tape) :
    (f.withTape t).withTape t' = f.withTape t' := rfl

/-- Writing the tape that is there changes nothing. -/
@[simp] theorem withTape_self (f : Flat) : f.withTape f.tape = f := rfl

/-- The tape that was written is read. -/
@[simp] theorem tape_withTape (f : Flat) (t : Tape) : (f.withTape t).tape = t := rfl

/-- The stops do not depend on the tape. -/
@[simp] theorem stops_withTape (f : Flat) (t : Tape) : (f.withTape t).stops = f.stops := rfl

/-- Writing a side leaves the tape. -/
@[simp] theorem tape_setSide (f : Flat) (b : Side) (m : Levels) : (f.setSide b m).tape = f.tape := by
  cases b <;> rfl

/-- Writing a side leaves the stops. -/
@[simp] theorem stops_setSide (f : Flat) (b : Side) (m : Levels) :
    (f.setSide b m).stops = f.stops := by
  cases b <;> rfl

/-! ## Matching -/

/-- What matching changes of the incoming order: what is left of it and its status. -/
def Alike (o o' : Order) : Prop :=
  o' = { o with remainingQty := o'.remainingQty, visibleQty := o'.visibleQty, status := o'.status }

/-- Matching may change nothing. -/
theorem Alike.refl (o : Order) : Alike o o := rfl

/-- The changes of two matches are those of one. -/
theorem Alike.trans {o o' o'' : Order} (h : Alike o o') (h' : Alike o' o'') : Alike o o'' := by
  unfold Alike at *
  rw [h', h]

/-- What matching changes does not matter for the prices that an order matches at. -/
theorem Alike.canMatch {o o' : Order} (h : Alike o o') (p : ℤ) : canMatch o' p = canMatch o p := by
  rw [h]
  rfl

/-- What matching changes does not matter for the orders that an order conflicts with. -/
theorem Alike.conflict {o o' : Order} (h : Alike o o') (r : Order) :
    stpConflict o' r = stpConflict o r := by
  rw [h]
  rfl

/-- Matching keeps the side. -/
theorem Alike.side {o o' : Order} (h : Alike o o') : o'.side = o.side := by rw [h]

/-- Matching keeps an order post-only or not. -/
theorem Alike.postOnly {o o' : Order} (h : Alike o o') : o'.postOnly = o.postOnly := by rw [h]

/-- A decrement changes what is left of the incoming order. -/
theorem alike_decrement (inc rest : Order) (t : Tape) : Alike inc (decrement inc rest t).1 := rfl

/-- Each policy changes what is left of the incoming order, or its status. -/
theorem alike_handleStp (inc rest : Order) (t : Tape) : Alike inc (handleStp inc rest t).1 := by
  unfold handleStp
  split
  · rfl
  · rfl
  · rfl
  · exact alike_decrement inc rest t
  · rfl

/-- A fill changes what is left of the incoming order, and not its status. -/
theorem alike_fill {contra : Levels} {inc rest : Order} {t : Tape} {r : Order × Fate × Tape}
    (h : fill contra inc rest t = some r) : Alike inc r.1 ∧ r.1.status = inc.status := by
  rw [(fill_eq h).2]
  exact ⟨rfl, rfl⟩

/-- A self-trade policy leaves the status of the incoming order alone or cancels it. -/
theorem status_handleStp (inc rest : Order) (t : Tape) (hrem : 0 < inc.remainingQty) :
    (handleStp inc rest t).1.status = .CANCELLED ∨
      (handleStp inc rest t).1.status = inc.status ∧ (handleStp inc rest t).1.remainingQty ≠ 0 := by
  have hdec : (decrement inc rest t).1.status = .CANCELLED ∨
      (decrement inc rest t).1.status = inc.status ∧ (decrement inc rest t).1.remainingQty ≠ 0 := by
    by_cases h0 : inc.remainingQty - min inc.remainingQty rest.visibleQty = 0
    · exact .inl (if_pos h0)
    · exact .inr ⟨if_neg h0, h0⟩
  unfold handleStp
  split
  · exact .inl rfl
  · exact .inr ⟨rfl, hrem.ne'⟩
  · exact .inl rfl
  · exact hdec
  · exact .inr ⟨rfl, hrem.ne'⟩

/-- How a loop of matching ends: the incoming order was cancelled, or its status is as it was. -/
structure Ended (inc inc' : Order) (cancelled : Prop) : Prop where
  alike : Alike inc inc'
  status : inc'.status = .CANCELLED ∧ cancelled ∨ inc'.status = inc.status ∧ ¬ cancelled

variable {X : Special → Prop}

/-- The loop over a queue. -/
theorem steps_matchQueue (fl : List Order) (f : Flat) {p : ℤ} {m : Levels} : ∀ n inc q t inc' q' t' ret,
    matchQueue p m n inc q t = some (inc', q', t', ret) → canMatch inc p = true →
    inc.postOnly = false → inc.status ≠ .CANCELLED → inc.orderType.isStop = false →
    Steps X ((f.setSide (oppositeSide inc.side) (front p q m)).withTape t, inc :: fl)
        ((f.setSide (oppositeSide inc.side) (front p q' m)).withTape t', inc' :: fl) ∧
      Ended inc inc' (ret = true) ∧ (ret = false → q' = [] ∨ ¬ 0 < inc'.remainingQty) := by
  intro n
  induction n with
  | zero =>
    intro inc q t inc' q' t' ret h
    unfold matchQueue at h
    cases h
  | succ n ih =>
    intro inc q t inc' q' t' ret h hm hpo hst hstop
    unfold matchQueue at h
    split at h
    · rename_i hrem
      cases q with
      | nil =>
        simp only [Option.some.injEq, Prod.mk.injEq] at h
        obtain ⟨rfl, rfl, rfl, rfl⟩ := h
        -- The queue is used up.
        exact ⟨.refl, ⟨.refl _, .inr ⟨rfl, Bool.false_ne_true⟩⟩, fun _ => .inl rfl⟩
      | cons rest q =>
        dsimp only at h
        split at h
        · rename_i hc
          -- A conflict: one act, after which the loop stops or goes on with what it left.
          have hact : Step X ((f.setSide (oppositeSide inc.side) (front p (rest :: q) m)).withTape t,
              inc :: fl) _ :=
            .selfTrade ((side_withTape _ _ _).trans (side_setSide _ _ _)) hrem hm hc hst hstop hpo
          rw [setSide_withTape, setSide_setSide, withTape_withTape, tape_withTape] at hact
          have halike := alike_handleStp inc rest t
          have hstatus := status_handleStp inc rest t hrem
          split at h
          · rename_i hdone
            simp only [Option.some.injEq, Prod.mk.injEq] at h
            obtain ⟨rfl, rfl, rfl, rfl⟩ := h
            refine ⟨.single hact, ⟨halike, .inl ⟨?_, rfl⟩⟩, (absurd ·.symm Bool.false_ne_true)⟩
            rcases hstatus with hs | ⟨-, hs⟩
            · exact hs
            · exact hdone.resolve_right hs
          · rename_i hgo
            -- The order was not cancelled, so the loop may go on.
            have hst' : (handleStp inc rest t).1.status ≠ .CANCELLED := fun hx => hgo (.inl hx)
            obtain ⟨hsteps, hend, hexit⟩ := ih _ _ _ _ _ _ _ h (by rw [halike.canMatch, hm])
              (by rw [halike.postOnly, hpo]) hst' (by rw [halike, hstop])
            rw [halike.side] at hsteps
            refine ⟨hsteps.head hact, ⟨halike.trans hend.alike, ?_⟩, hexit⟩
            rw [← (hstatus.resolve_left hst').1]
            exact hend.status
        · rename_i hc
          cases hfill : fill ((p, rest :: q) :: m) inc rest t with
          | none =>
            rw [hfill] at h
            cases h
          | some r =>
            obtain ⟨i, fate, t₁⟩ := r
            rw [hfill] at h
            obtain ⟨halike, hstatus⟩ := alike_fill hfill
            -- A trade: one act, which leaves the status alone.
            have hact : Step X ((f.setSide (oppositeSide inc.side)
                (front p (rest :: q) m)).withTape t, inc :: fl) _ :=
              .trade ((side_withTape _ _ _).trans (side_setSide _ _ _)) hrem hm
                (Bool.eq_false_iff.mpr hc) hpo hst hstop hfill
            rw [setSide_withTape, setSide_setSide, withTape_withTape] at hact
            obtain ⟨hsteps, hend, hexit⟩ := ih _ _ _ _ _ _ _ h (by rw [halike.canMatch, hm])
              (by rw [halike.postOnly, hpo]) (by rw [hstatus]; exact hst) (by rw [halike, hstop])
            rw [halike.side] at hsteps
            refine ⟨hsteps.head hact, ⟨halike.trans hend.alike, ?_⟩, hexit⟩
            rw [← hstatus]
            exact hend.status
    · rename_i hrem
      simp only [Option.some.injEq, Prod.mk.injEq] at h
      obtain ⟨rfl, rfl, rfl, rfl⟩ := h
      -- The incoming order is used up.
      exact ⟨.refl, ⟨.refl _, .inr ⟨rfl, Bool.false_ne_true⟩⟩, fun _ => .inr hrem⟩

/-- No level of the side within the limit of an order that has something left. -/
def Spent (o : Order) (m : Levels) : Prop :=
  0 < o.remainingQty → o.status ≠ .CANCELLED → ∀ l ∈ m.head?, canMatch o l.1 = false

/-- The loop over the levels. -/
theorem steps_matchLevels (fl : List Order) (f : Flat) : ∀ m inc t inc' m' t',
    matchLevels m inc t = some (inc', m', t') → inc.postOnly = false → inc.status ≠ .CANCELLED →
    inc.orderType.isStop = false →
    Steps X ((f.setSide (oppositeSide inc.side) m).withTape t, inc :: fl)
        ((f.setSide (oppositeSide inc.side) m').withTape t', inc' :: fl) ∧
      Ended inc inc' (inc'.status = .CANCELLED) ∧ Spent inc' m' := by
  intro m
  induction m with
  | nil =>
    intro inc t inc' m' t' h hpo hst hstop
    unfold matchLevels at h
    simp only [Option.some.injEq, Prod.mk.injEq] at h
    obtain ⟨rfl, rfl, rfl⟩ := h
    exact ⟨.refl, ⟨.refl _, .inr ⟨rfl, hst⟩⟩, fun _ _ _ hl => absurd hl (Option.not_mem_none _)⟩
  | cons l m ih =>
    intro inc t inc' m' t' h hpo hst hstop
    obtain ⟨p, q⟩ := l
    unfold matchLevels at h
    split at h
    · rename_i hgo
      -- The first level without the orders that it turns out not to have.
      have hfront : Steps X ((f.setSide (oppositeSide inc.side) ((p, q) :: m)).withTape t, inc :: fl)
          ((f.setSide (oppositeSide inc.side) (front p q m)).withTape t, inc :: fl) := by
        cases q with
        | cons o q => exact .refl
        | nil =>
          have hact : Step X ((f.setSide (oppositeSide inc.side) ((p, []) :: m)).withTape t,
              inc :: fl) _ :=
            .drop ((side_withTape _ _ _).trans (side_setSide _ _ _))
          rw [setSide_withTape, setSide_setSide] at hact
          exact .single hact
      cases hq : matchQueue p m (inc.remainingQty.toNat + q.length + 1) inc q t with
      | none =>
        rw [hq] at h
        cases h
      | some r =>
        obtain ⟨inc₁, q₁, t₁, ret⟩ := r
        obtain ⟨hsteps, hend, hexit⟩ := steps_matchQueue (X := X) fl f _ _ _ _ _ _ _ _ hq
          hgo.2 hpo hst hstop
        rw [hq] at h
        have hended : ret = true → inc₁.status = .CANCELLED := fun hret =>
          (hend.status.resolve_right fun hx => hx.2 hret).1
        cases q₁ with
        | nil =>
          dsimp only at h
          split at h
          · rename_i hret
            simp only [Option.some.injEq, Prod.mk.injEq] at h
            obtain ⟨rfl, rfl, rfl⟩ := h
            refine ⟨hfront.trans hsteps, ⟨hend.alike, ?_⟩, fun _ hx => absurd (hended hret) hx⟩
            exact .inl ⟨hended hret, hended hret⟩
          · rename_i hret
            have hst₁ := (hend.status.resolve_left fun hx => hret hx.2).1
            obtain ⟨hsteps₂, hend₂, hspent⟩ := ih _ _ _ _ _ h (by rw [hend.alike.postOnly, hpo])
              (by rw [hst₁]; exact hst) (by rw [hend.alike, hstop])
            rw [hend.alike.side] at hsteps₂
            refine ⟨(hfront.trans hsteps).trans hsteps₂, ⟨hend.alike.trans hend₂.alike, ?_⟩, hspent⟩
            rw [← hst₁]
            exact hend₂.status
        | cons o q₁ =>
          simp only [Option.some.injEq, Prod.mk.injEq] at h
          obtain ⟨rfl, rfl, rfl⟩ := h
          refine ⟨hfront.trans hsteps, ⟨hend.alike, ?_⟩, fun hrem hx => ?_⟩
          · rcases hend.status with ⟨hs, -⟩ | ⟨hs, -⟩
            · exact .inl ⟨hs, hs⟩
            · exact .inr ⟨hs, by rw [hs]; exact hst⟩
          · cases ret with
            | true => exact absurd (hended rfl) hx
            | false => exact absurd hrem ((hexit rfl).resolve_left (List.cons_ne_nil _ _))
    · rename_i hgo
      simp only [Option.some.injEq, Prod.mk.injEq] at h
      obtain ⟨rfl, rfl, rfl⟩ := h
      refine ⟨.refl, ⟨.refl _, .inr ⟨rfl, hst⟩⟩, fun hrem _ l hl => ?_⟩
      obtain rfl : (p, q) = l := Option.some.inj hl
      exact Bool.eq_false_iff.mpr fun hx => hgo ⟨hrem, hx⟩

/-- `matchOrd` leaves the stops alone, and the other side of the book. -/
theorem steps_matchOrd (fl : List Order) {f f' : Flat} {o o' : Order} (h : matchOrd o f = some (o', f'))
    (hpo : o.postOnly = false) (hst : o.status ≠ .CANCELLED) (hstop : o.orderType.isStop = false) :
    Steps X (f, o :: fl) (f', o' :: fl) ∧ Ended o o' (o'.status = .CANCELLED) ∧
      Spent o' (f'.side (oppositeSide o.side)) ∧ f'.stops = f.stops := by
  obtain ⟨⟨i, m, t⟩, hm, he⟩ := Option.map_eq_some_iff.mp h
  cases he
  obtain ⟨hsteps, hend, hspent⟩ := steps_matchLevels (X := X) fl f _ _ _ _ _ _ hm hpo hst hstop
  rw [setSide_side, withTape_self] at hsteps
  refine ⟨hsteps, hend, ?_, ?_⟩
  · rw [side_withTape, side_setSide]
    exact hspent
  · rw [stops_withTape, stops_setSide]

/-- What `matchOrd` writes. -/
theorem adds_matchOrd {f f' : Flat} {o o' : Order} (h : matchOrd o f = some (o', f')) :
    Adds f.tape f'.tape := by
  obtain ⟨⟨i, m, t⟩, hm, he⟩ := Option.map_eq_some_iff.mp h
  cases he
  exact adds_matchLevels _ _ _ _ _ _ hm

/-- `matchOrd` leaves the side of the order alone, and its timestamp. -/
theorem Aged.matchOrd {f f' : Flat} {o o' : Order} (ha : Aged X o f)
    (h : Flat.matchOrd o f = some (o', f')) (hend : Ended o o' (o'.status = .CANCELLED))
    (hst : o'.status ≠ .CANCELLED) : Aged X o' f' := by
  obtain ⟨⟨i, m, t⟩, hm, he⟩ := Option.map_eq_some_iff.mp h
  cases he
  have hstatus := (hend.status.resolve_left fun hx => hst hx.2).1
  rcases ha with ha | ha | ha
  · exact .inl (hstatus.trans ha)
  · exact .inr (.inl ha)
  · refine .inr (.inr fun x hx => ?_)
    rw [hend.alike.side, side_withTape, side_setSide_opposite] at hx
    rw [hend.alike]
    exact ha x hx

/-! ## What is left of an order -/

/-- An order that `dispose` does not put to rest is done with. -/
def Done (o : Order) : Prop := o.status = .FILLED ∨ o.status = .CANCELLED

/-- What `dispose` does is an act in each of its branches: the order rests with nothing of the other
side within its limit, or it is cancelled and is done with. -/
theorem steps_dispose {f f' : Flat} {o : Order} {d : Option Order} {hasTr : Bool} {fl : List Order}
    (h : dispose o hasTr f = some (d, f')) (hst : o.status ≠ .CANCELLED)
    (hstop : o.orderType.isStop = false) (htype : o.orderType ≠ .MARKET_TO_LIMIT)
    (hmin : 0 < o.remainingQty → o.status ≠ .CANCELLED → o.minQty ≤ 0)
    (hspent : Spent o (f.side (oppositeSide o.side)))
    (hfresh : Fresh X (if hasTr then .PARTIALLY_FILLED else .NEW) o f) :
    Steps X (f, o :: fl) (f', d.toList ++ fl) ∧ (∀ x ∈ d, Done x) ∧ f'.stops = f.stops := by
  -- Neither a market order nor one that stops or converts: it may rest.
  have hrest : o.remainingQty ≠ 0 → o.timeInForce ≠ .IOC ∧ o.timeInForce ≠ .FOK →
      o.orderType ≠ .MARKET →
      Steps X (f, o :: fl) (f.rest o (if hasTr then .PARTIALLY_FILLED else .NEW), fl) := by
    intro hrem htif hmkt
    have hs : (if hasTr then OrderStatus.PARTIALLY_FILLED else .NEW) = .NEW ∨
        (if hasTr then OrderStatus.PARTIALLY_FILLED else .NEW) = .PARTIALLY_FILLED := by
      cases hasTr
      · exact .inl rfl
      · exact .inr rfl
    refine .single (.rest hs hst hrem ?_ htif (fun hpos => hmin hpos hst) (fun hpos => hspent hpos hst)
      hfresh)
    cases hty : o.orderType <;> rw [hty] at hstop htype hmkt <;> first | rfl | contradiction
  -- Those of the three last times in force rest, unless they are market orders.
  have hresting : o.remainingQty ≠ 0 → o.timeInForce ≠ .IOC ∧ o.timeInForce ≠ .FOK →
      (if o.orderType = .MARKET then some ((cancelIn o "MARKET_NO_FULL_FILL" f).map some id)
        else some (none, Flat.rest o (if hasTr then .PARTIALLY_FILLED else .NEW) f)) = some (d, f') →
      Steps X (f, o :: fl) (f', d.toList ++ fl) ∧ (∀ x ∈ d, Done x) ∧ f'.stops = f.stops := by
    intro hr htif h
    split at h
    · cases h
      refine ⟨.single (.cancel _ hst htype hstop), ?_, rfl⟩
      rintro x ⟨⟩
      exact .inr rfl
    · rename_i hmkt
      cases h
      exact ⟨hrest hr htif hmkt, fun x hx => absurd hx (Option.not_mem_none x), stops_setSide _ _ _⟩
  unfold dispose at h
  split at h
  · rename_i hr
    cases h
    refine ⟨.single (.filled hr hst), ?_, rfl⟩
    rintro x ⟨⟩
    exact .inl rfl
  · rename_i hr
    cases htif : o.timeInForce with
    | IOC =>
      rw [htif] at h
      cases h
      refine ⟨.single (.cancel _ hst htype hstop), ?_, rfl⟩
      rintro x ⟨⟩
      exact .inr rfl
    -- Such an order with a remainder stops at the assertion.
    | FOK =>
      rw [htif] at h
      cases h
    | GTC =>
      rw [htif] at h
      exact hresting hr (by rw [htif]; decide) h
    | GTD =>
      rw [htif] at h
      exact hresting hr (by rw [htif]; decide) h
    | DAY =>
      rw [htif] at h
      exact hresting hr (by rw [htif]; decide) h

/-- What is left of an order after a match rests, is cancelled, or was nothing. -/
theorem steps_settle (fl : List Order) {f f' : Flat} {o : Order} {d : Option Order} {hasTr : Bool}
    (h : settle o hasTr f = some (d, f')) (hstop : o.orderType.isStop = false)
    (htype : o.orderType ≠ .MARKET_TO_LIMIT)
    (hmin : 0 < o.remainingQty → o.status ≠ .CANCELLED → o.minQty ≤ 0)
    (hspent : Spent o (f.side (oppositeSide o.side)))
    (hfresh : o.status ≠ .CANCELLED → Fresh X (if hasTr then .PARTIALLY_FILLED else .NEW) o f) :
    Steps X (f, o :: fl) (f', d.toList ++ fl) ∧ (∀ x ∈ d, Done x) ∧ f'.stops = f.stops := by
  unfold settle at h
  split at h
  · rename_i hst
    exact steps_dispose h hst hstop htype hmin hspent (hfresh hst)
  · rename_i hst
    cases h
    refine ⟨.refl, ?_, rfl⟩
    rintro x ⟨⟩
    exact .inr (not_not.mp hst)

/-- An order that is done with leaves the engine. -/
theorem steps_finish {f : Flat} {d : Option Order} {fl : List Order} (hd : ∀ x ∈ d, Done x) :
    Steps X (f, d.toList ++ fl) (f.finish d, fl) := by
  cases d with
  | none => exact .refl
  | some o =>
    exact .single (.leave (hd o rfl))

/-! ## A minimum quantity that is met lets a trade happen -/

/-- A queue stays part of itself with its first order put back. -/
theorem subset_requeue (fate : Fate) (q : List Order) : q ⊆ fate.requeue q := by
  cases fate with
  | stays o => exact List.subset_cons_self o q
  | goes => exact List.Subset.refl q
  | moves o => exact List.subset_append_left q [o]

/-- Where the loop over a queue makes no trade and does not stop the incoming order, every order of
the queue is of its group. -/
theorem conflicts_matchQueue {p : ℤ} {m : Levels} : ∀ n inc q t inc' q' t',
    matchQueue p m n inc q t = some (inc', q', t', false) →
    t'.trades.length ≤ t.trades.length → 0 < inc'.remainingQty →
    ∀ r ∈ q, stpConflict inc r = true := by
  intro n
  induction n with
  | zero =>
    intro inc q t inc' q' t' h
    unfold matchQueue at h
    cases h
  | succ n ih =>
    intro inc q t inc' q' t' h hlen hrem r hr
    unfold matchQueue at h
    split at h
    · cases q with
      | nil => cases hr
      | cons rest q =>
        dsimp only at h
        split at h
        · rename_i hc
          split at h
          · simp only [Option.some.injEq, Prod.mk.injEq, Bool.true_eq_false, and_false] at h
          · rcases List.mem_cons.mp hr with rfl | hr
            · exact hc
            · rw [← (alike_handleStp inc rest t).conflict]
              -- The conflict left the others in the queue, and the group is the same.
              exact ih _ _ _ _ _ _ h (by rwa [trades_handleStp]) hrem r (subset_requeue _ _ hr)
        · -- A trade would be made.
          cases hfill : fill ((p, rest :: q) :: m) inc rest t with
          | none =>
            rw [hfill] at h
            cases h
          | some x =>
            rw [hfill] at h
            have hle := (adds_matchQueue _ _ _ _ _ _ _ _ h).grows
            rw [length_trades_fill hfill] at hle
            omega
    · rename_i hn
      simp only [Option.some.injEq, Prod.mk.injEq] at h
      obtain ⟨rfl, -, -, -⟩ := h
      exact absurd hrem hn

/-- Of a queue of the order's own group, nothing can be had. -/
theorem availQueue_conflicts {inc : Order} {thresh : ℤ} {q : List Order} (avail : ℤ)
    (h : ∀ r ∈ q, stpConflict inc r = true) : availQueue inc thresh q avail = (avail, false) := by
  induction q with
  | nil => rfl
  | cons r q ih =>
    unfold availQueue
    rw [if_pos (h r List.mem_cons_self)]
    exact ih fun r hr => h r (List.mem_cons_of_mem _ hr)

/-- What can be had of a queue does not depend on what matching changes. -/
theorem Alike.availQueue {o o' : Order} (h : Alike o o') (thresh : ℤ) (q : List Order) (avail : ℤ) :
    availQueue o' thresh q avail = availQueue o thresh q avail := by
  induction q generalizing avail with
  | nil => rfl
  | cons r q ih =>
    unfold Flat.availQueue
    rw [h.conflict, ih, ih]

/-- What can be had of the levels does not depend on what matching changes. -/
theorem Alike.availLevels {o o' : Order} (h : Alike o o') (thresh : ℤ) (m : Levels) (avail : ℤ) :
    availLevels o' thresh m avail = availLevels o thresh m avail := by
  induction m generalizing avail with
  | nil => rfl
  | cons l m ih =>
    unfold Flat.availLevels
    rw [h.canMatch, h.availQueue]
    congr 1
    split
    · rfl
    · exact ih _

/-- Where matching makes no trade and leaves something of an order that is not cancelled, nothing
was available to it. -/
theorem avail_matchLevels (thresh : ℤ) : ∀ m inc t inc' m' t',
    matchLevels m inc t = some (inc', m', t') → inc.postOnly = false → inc.status ≠ .CANCELLED →
    inc.orderType.isStop = false →
    t'.trades.length ≤ t.trades.length → 0 < inc'.remainingQty → inc'.status ≠ .CANCELLED →
    availLevels inc thresh m 0 = 0 := by
  intro m
  induction m with
  | nil => exact fun _ _ _ _ _ _ _ _ _ _ _ _ => rfl
  | cons l m ih =>
    intro inc t inc' m' t' h hpo hst hstop hlen hrem hst'
    obtain ⟨p, q⟩ := l
    unfold matchLevels at h
    unfold availLevels
    split at h
    · rename_i hgo
      rw [if_pos hgo.2]
      cases hq : matchQueue p m (inc.remainingQty.toNat + q.length + 1) inc q t with
      | none =>
        rw [hq] at h
        cases h
      | some r =>
        obtain ⟨inc₁, q₁, t₁, ret⟩ := r
        obtain ⟨-, hend, hexit⟩ := steps_matchQueue (X := fun _ => False) [] {} _ _ _ _ _ _ _ _
          hq hgo.2 hpo hst hstop
        have hle := (adds_matchQueue _ _ _ _ _ _ _ _ hq).grows
        rw [hq] at h
        cases ret with
        | true =>
          have hc : inc₁.status = .CANCELLED := (hend.status.resolve_right fun hx => hx.2 rfl).1
          cases q₁ <;>
          · simp only [if_true, Option.some.injEq, Prod.mk.injEq] at h
            obtain ⟨rfl, -, -⟩ := h
            exact absurd hc hst'
        | false =>
          cases q₁ with
          | nil =>
            dsimp only at h
            rw [if_neg Bool.false_ne_true] at h
            have hle₂ := (adds_matchLevels _ _ _ _ _ _ h).grows
            have hst₁ : inc₁.status = inc.status :=
              (hend.status.resolve_left fun hx => Bool.false_ne_true hx.2).1
            have hpos : 0 < inc₁.remainingQty := by
              by_contra hn
              -- Then the loop over the other levels ends at once.
              cases m with
              | nil =>
                unfold matchLevels at h
                simp only [Option.some.injEq, Prod.mk.injEq] at h
                obtain ⟨rfl, -, -⟩ := h
                exact hn hrem
              | cons l m =>
                unfold matchLevels at h
                rw [if_neg fun hx => hn hx.1] at h
                simp only [Option.some.injEq, Prod.mk.injEq] at h
                obtain ⟨rfl, -, -⟩ := h
                exact hn hrem
            have hall := conflicts_matchQueue _ _ _ _ _ _ _ hq (by omega) hpos
            rw [availQueue_conflicts 0 hall]
            have hrec := ih inc₁ t₁ inc' m' t' h (by rw [hend.alike.postOnly, hpo])
              (by rw [hst₁]; exact hst) (by rw [hend.alike, hstop]) (by omega) hrem hst'
            rwa [hend.alike.availLevels] at hrec
          | cons o q₁ =>
            simp only [Option.some.injEq, Prod.mk.injEq] at h
            obtain ⟨rfl, -, -⟩ := h
            exact absurd hrem ((hexit rfl).resolve_left (List.cons_ne_nil _ _))
    · rename_i hgo
      simp only [Option.some.injEq, Prod.mk.injEq] at h
      obtain ⟨rfl, -, -⟩ := h
      rw [if_neg fun hx => hgo ⟨hrem, hx⟩]

/-- An order that passed the check of its minimum quantity and has something left has traded. -/
theorem traded_of_minQtyCheck {f f' : Flat} {o o' : Order} (h : matchOrd o f = some (o', f'))
    (hpo : o.postOnly = false) (hst : o.status ≠ .CANCELLED) (hstop : o.orderType.isStop = false)
    (hmin : 0 < o.minQty)
    (hcheck : minQtyCheck o f = true) (hrem : 0 < o'.remainingQty) (hst' : o'.status ≠ .CANCELLED) :
    f.tape.trades.length < f'.tape.trades.length := by
  obtain ⟨⟨i, m, t⟩, hm, he⟩ := Option.map_eq_some_iff.mp h
  cases he
  by_contra hlen
  have hzero := avail_matchLevels o.minQty _ _ _ _ _ _ hm hpo hst hstop (Nat.le_of_not_lt hlen)
    hrem hst'
  have hle := of_decide_eq_true hcheck
  omega

/-! ## The pipeline -/

/-- The dormant stops are stops, and none is post-only. -/
def StopsOk (os : List Order) : Prop :=
  ∀ o ∈ os, o.orderType.isStop = true ∧ o.postOnly = false

/-- From a state with such stops, what returns is a sequence of acts, and no stop is added. -/
def Acts (X : Special → Prop) (g : Flat → Option Flat) : Prop :=
  ∀ f f', StopsOk f.stops → g f = some f' →
    (∀ fl, Steps X (f, fl) (f', fl)) ∧ ∀ o ∈ f'.stops, o ∈ f.stops

/-- What `processActive` needs of an order, and which special acts it may lead to. -/
structure Ready (X : Special → Prop) (o : Order) (f : Flat) : Prop where
  status : o.status ≠ .CANCELLED
  notStop : o.orderType.isStop = false
  reprice : o.postOnly = true → wouldCross o f = true → f.tape.poPol ≠ .REJECT →
    ∀ l ∈ (f.side (oppositeSide o.side)).head?, X (.reprice o l.1)
  recancel : o.orderType = .MARKET_TO_LIMIT → o.stpPolicy ≠ .DECREMENT →
    (0 < o.minQty → minQtyCheck o f = true) → ∀ r,
    matchOrd o f = some r → r.1.status = .CANCELLED →
    ¬ f.tape.trades.length < r.2.tape.trades.length → X .recancel
  unsold : X .renewed ∨ sold o.id f.tape.log = false
  aged : Aged X o f

/-- An order that is ready for the pipeline may come to rest as new. -/
theorem Ready.fresh {o : Order} {f : Flat} (h : Ready X o f) : Fresh X .NEW o f :=
  ⟨fun _ => h.unsold, h.aged⟩

/-- A post-only order comes to rest, is repriced, or is cancelled. -/
theorem steps_postOnlyPhase (fl : List Order) {f f' : Flat} {o : Order}
    (h : postOnlyPhase o f = some f') (hr : Ready X o f) (hpo : o.postOnly = true) :
    Steps X (f, o :: fl) (f', fl) ∧ f'.stops = f.stops := by
  unfold postOnlyPhase at h
  split at h
  · rename_i hcross
    split at h
    · cases h
      exact ⟨.single (.kill _ hr.status), rfl⟩
    · rename_i hpol
      obtain ⟨⟨o', f₁⟩, hrep, he⟩ := Option.map_eq_some_iff.mp h
      cases he
      -- It is repriced against the best level of the other side.
      unfold Flat.reprice at hrep
      cases hside : f.side (oppositeSide o.side) with
      | nil =>
        rw [hside] at hrep
        cases hrep
      | cons l m =>
        refine ⟨.single (.reprice hpo hr.status hside (hr.reprice hpo hcross hpol l ?_) hrep
          hr.fresh), ?_⟩
        · rw [hside]
          rfl
        · rw [hside] at hrep
          cases hrep
          exact stops_setSide _ _ _
  -- It does not cross, and rests as it is.
  · rename_i hcross
    cases h
    exact ⟨.single (.passive hpo hr.status (Bool.eq_false_iff.mpr hcross) hr.fresh),
      stops_setSide _ _ _⟩

/-- The match of an order that is not market-to-limit, and what is done with its rest. -/
theorem steps_matchPlain (fl : List Order) {f f' : Flat} {o : Order} {d : Option Order}
    (h : matchPlain f.tape.trades.length o f = some (d, f')) (hr : Ready X o f)
    (hpo : o.postOnly = false) (htype : o.orderType ≠ .MARKET_TO_LIMIT)
    (hmin : 0 < o.minQty → minQtyCheck o f = true) :
    Steps X (f, o :: fl) (f', d.toList ++ fl) ∧ (∀ x ∈ d, Done x) ∧ f'.stops = f.stops := by
  obtain ⟨⟨o₁, f₁⟩, hm, h⟩ := Option.bind_eq_some_iff.mp h
  obtain ⟨hsteps, hend, hspent, hstops⟩ := steps_matchOrd (X := X) fl hm hpo hr.status hr.notStop
  dsimp only at h
  have hty : o₁.orderType = o.orderType := by rw [hend.alike]
  have hmq : o₁.minQty = o.minQty := by rw [hend.alike]
  have hside : o₁.side = o.side := by rw [hend.alike]
  -- The minimum quantity is dropped, or it stays as it is.
  have hloosen : Steps X (f₁, o₁ :: fl) (f₁, { o₁ with minQty := if 0 < o₁.minQty ∧
      (decide (f.tape.trades.length < f₁.tape.trades.length)) = true then 0 else o₁.minQty } ::
        fl) := by
    split
    · exact .single .loosen
    · exact .refl
  -- As a new order it rests when the match has made no trade.
  have hunsold : (if decide (f.tape.trades.length < f₁.tape.trades.length) = true then
      OrderStatus.PARTIALLY_FILLED else .NEW) = .NEW → X .renewed ∨ sold o₁.id f₁.tape.log = false := by
    intro hnew
    refine hr.unsold.imp id fun hsold => ?_
    have hlen : ¬ f.tape.trades.length < f₁.tape.trades.length := by
      intro hlt
      rw [decide_eq_true hlt] at hnew
      cases hnew
    obtain ⟨new, hlog, hplain⟩ := (adds_matchOrd hm).plain (Nat.le_of_not_lt hlen)
    rw [hlog, show o₁.id = o.id by rw [hend.alike]]
    exact hplain.sold hsold
  have haged : o₁.status ≠ .CANCELLED → Aged X o₁ f₁ := hr.aged.matchOrd hm hend
  obtain ⟨hsteps₂, hdone, hstops₂⟩ := steps_settle (X := X) fl h (by rw [hty]; exact hr.notStop)
    (by rw [hty]; exact htype) (fun hrem hst => by
      dsimp only
      split
      · exact le_refl _
      · rename_i hn
        by_contra hpos
        have hpos : 0 < o₁.minQty := by omega
        refine hn ⟨hpos, decide_eq_true ?_⟩
        exact traded_of_minQtyCheck hm hpo hr.status hr.notStop (by rwa [← hmq])
          (hmin (by rwa [← hmq])) hrem hst)
    (by
      change Spent o₁ (f₁.side (oppositeSide o₁.side))
      rw [hside]
      exact hspent)
    fun hst => ⟨hunsold, haged hst⟩
  exact ⟨(hsteps.trans hloosen).trans hsteps₂, hdone, by rw [hstops₂, hstops]⟩

/-- The match of a market-to-limit order, and its turn into a limit order. -/
theorem steps_toLimit (fl : List Order) {f f' : Flat} {o : Order} {d : Option Order} {ts : ℕ}
    (h : toLimit ts o f = some (d, f')) (htype : o.orderType = .MARKET_TO_LIMIT)
    (hpo : o.postOnly = false) (haged : o.status ≠ .CANCELLED → Aged X o f) :
    Steps X (f, o :: fl) (f', d.toList ++ fl) ∧ (∀ x ∈ d, Done x) ∧ f'.stops = f.stops := by
  obtain ⟨t, ht, h⟩ := Option.bind_eq_some_iff.mp h
  have hact : Step X (f, o :: fl) _ := .toLimit htype (List.mem_of_getElem? ht)
  obtain ⟨⟨o₁, f₁⟩, hm, h⟩ := Option.bind_eq_some_iff.mp h
  dsimp only at h hm
  -- The minimum quantity is taken off before the order may rest.
  have hzero : ∀ n : ℤ, (if 0 < n then 0 else n) ≤ 0 := by
    intro n
    split <;> omega
  split at hm
  · rename_i hgo
    obtain ⟨hsteps, hend, hspent₁, hstops⟩ := steps_matchOrd (X := X) fl hm hpo hgo.2 rfl
    have hside : o₁.side = o.side := by rw [hend.alike]
    obtain ⟨hsteps₂, hdone, hstops₂⟩ := steps_settle (X := X) fl h (by rw [hend.alike]; rfl)
      (by rw [hend.alike]; nofun) (fun _ _ => by rw [hend.alike]; exact hzero _)
      (by rw [hside]; exact hspent₁) fun hst =>
        ⟨nofun, Aged.matchOrd (by exact haged hgo.2) hm hend hst⟩
    exact ⟨(hsteps.trans hsteps₂).head hact, hdone, by rw [hstops₂, hstops]⟩
  -- Nothing remains, or the order was cancelled: no second match.
  · rename_i hgo
    simp only [Option.some.injEq, Prod.mk.injEq] at hm
    obtain ⟨rfl, rfl⟩ := hm
    obtain ⟨hsteps₂, hdone, hstops₂⟩ := steps_settle (X := X) fl h rfl nofun
      (fun _ _ => hzero _) (fun hrem hst => absurd ⟨hrem, hst⟩ hgo) fun hst => ⟨nofun, haged hst⟩
    exact ⟨hsteps₂.head hact, hdone, hstops₂⟩

/-- The phase that matches is a sequence of acts, once its reports are. -/
theorem acts_matchPhase {emit : ℕ → ℕ → Flat → Option Flat}
    (he : ∀ start depth, Acts X (emit start depth))
    {f f' : Flat} {o : Order} {depth : ℕ} (hs : StopsOk f.stops)
    (h : matchPhase emit o depth f = some f') (hr : Ready X o f) (hpo : o.postOnly = false)
    (hmin : 0 < o.minQty → minQtyCheck o f = true) :
    (∀ fl, Steps X (f, o :: fl) (f', fl)) ∧ ∀ s ∈ f'.stops, s ∈ f.stops := by
  unfold matchPhase at h
  dsimp only at h
  split at h
  -- A market-to-limit order: the match, the turn into a limit order, and the reports.
  · rename_i htype
    obtain ⟨⟨o₁, f₁⟩, hm, h⟩ := Option.bind_eq_some_iff.mp h
    dsimp only at h
    obtain ⟨-, hend, -, hstops⟩ := steps_matchOrd (X := X) [] hm hpo hr.status hr.notStop
    split at h
    · obtain ⟨⟨d, f₂⟩, hl, h⟩ := Option.bind_eq_some_iff.mp h
      obtain ⟨f₃, hemit, h⟩ := Option.bind_eq_some_iff.mp h
      cases h
      have hty : o₁.orderType = .MARKET_TO_LIMIT := by rw [hend.alike, htype]
      have hl' := fun fl => steps_toLimit (X := X) fl hl hty (by rw [hend.alike.postOnly, hpo])
        fun hst => hr.aged.matchOrd hm hend hst
      obtain ⟨-, hdone, hstops₂⟩ := hl' []
      have hst : f₂.stops = f.stops := by rw [hstops₂, hstops]
      obtain ⟨hsteps, hsub⟩ := he _ _ f₂ f₃ (by rw [hst]; exact hs) hemit
      refine ⟨fun fl => ?_, fun s hx => ?_⟩
      · have h₁ := (steps_matchOrd (X := X) fl hm hpo hr.status hr.notStop).1
        exact ((h₁.trans (hl' fl).1).trans (hsteps _)).trans (steps_finish hdone)
      · rw [← hst]
        refine hsub s ?_
        cases d with
        | none => exact hx
        | some x => exact hx
    -- Without a trade it is cancelled, which may be the second time.
    · rename_i hno
      cases h
      refine ⟨fun fl => ?_, fun s hx => by rw [← hstops]; exact hx⟩
      have h₁ := (steps_matchOrd (X := X) fl hm hpo hr.status hr.notStop).1
      refine h₁.tail ?_
      by_cases hc : o₁.status = .CANCELLED
      · refine .recancel _ (by rw [hend.alike, htype]) hc ?_
        rw [show o₁.stpPolicy = o.stpPolicy by rw [hend.alike]]
        exact or_iff_not_imp_left.mpr fun hd => hr.recancel htype hd hmin _ hm hc hno
      · exact .kill _ hc
  -- Any other type: the match, the disposition, and the reports.
  · rename_i htype
    obtain ⟨⟨d, f₂⟩, hl, h⟩ := Option.bind_eq_some_iff.mp h
    obtain ⟨f₃, hemit, h⟩ := Option.bind_eq_some_iff.mp h
    cases h
    have hl' := fun fl => steps_matchPlain (X := X) fl hl hr hpo htype hmin
    obtain ⟨-, hdone, hst⟩ := hl' []
    obtain ⟨hsteps, hsub⟩ := he _ _ f₂ f₃ (by rw [hst]; exact hs) hemit
    refine ⟨fun fl => ((hl' fl).1.trans (hsteps _)).trans (steps_finish hdone), fun s hx => ?_⟩
    rw [← hst]
    refine hsub s ?_
    cases d with
    | none => exact hx
    | some x => exact hx

/-- `processActive` is a sequence of acts, once its reports are: one lemma above for each of its
phases. -/
theorem acts_processActiveWith {emit : ℕ → ℕ → Flat → Option Flat}
    (he : ∀ start depth, Acts X (emit start depth)) {f f' : Flat} {o : Order} {depth : ℕ}
    (hs : StopsOk f.stops) (h : processActiveWith emit o depth f = some f') (hr : Ready X o f) :
    (∀ fl, Steps X (f, o :: fl) (f', fl)) ∧ ∀ s ∈ f'.stops, s ∈ f.stops := by
  unfold processActiveWith at h
  split at h
  · rename_i hpo
    have hstops := (steps_postOnlyPhase [] h hr hpo).2
    exact ⟨fun fl => (steps_postOnlyPhase fl h hr hpo).1, fun s hx => by rwa [← hstops]⟩
  · rename_i hpo
    split at h
    -- Killed before it is matched, for want of quantity.
    · cases h
      exact ⟨fun fl => .single (.kill _ hr.status), fun s hx => hx⟩
    · split at h
      · cases h
        exact ⟨fun fl => .single (.kill _ hr.status), fun s hx => hx⟩
      · rename_i hmin
        refine acts_matchPhase he hs h hr (Bool.eq_false_iff.mpr hpo) fun hpos => ?_
        exact not_not.mp fun hn => hmin ⟨hpos, hn⟩

/-! ## The loops over the stops -/

section TakeOut

variable {α : Type} {p : α → Bool}

/-- The vector without the element whose place the last one takes. -/
theorem perm_swapRemove {v : List α} {i : ℕ} {x : α} (h : v[i]? = some x) :
    v.Perm (x :: swapRemove v i) := by
  rcases List.eq_nil_or_concat' v with rfl | ⟨w, y, rfl⟩
  · cases h
  · obtain ⟨hlt, hx⟩ := List.getElem?_eq_some_iff.mp h
    unfold swapRemove
    rw [List.getLast?_concat]
    dsimp only
    rw [List.length_append, List.length_singleton] at hlt
    -- The last element takes the place, or was at it.
    rcases Nat.lt_succ_iff_lt_or_eq.mp hlt with hi | rfl
    · rw [List.set_append_left _ _ hi, List.dropLast_concat]
      rw [List.getElem_append_left hi] at hx
      have hw := List.take_append_drop i w
      rw [List.drop_eq_getElem_cons hi, hx] at hw
      rw [List.set_eq_take_append_cons_drop, if_pos hi]
      calc w ++ [y]
        _ |>.Perm (y :: w) := List.perm_append_singleton y w
        _ = y :: (w.take i ++ x :: w.drop (i + 1)) := by rw [hw]
        _ |>.Perm (y :: x :: (w.take i ++ w.drop (i + 1))) := List.perm_middle.cons y
        _ |>.Perm (x :: y :: (w.take i ++ w.drop (i + 1))) := List.Perm.swap x y _
        _ |>.Perm (x :: (w.take i ++ y :: w.drop (i + 1))) := List.perm_middle.symm.cons x
    · rw [List.getElem_concat_length rfl] at hx
      subst hx
      rw [List.set_append_right _ _ (Nat.le_refl _), Nat.sub_self, List.set_cons_zero,
        List.dropLast_concat]
      exact List.perm_append_singleton y w

/-- The elements before the place are where they were. -/
theorem getElem?_swapRemove {v : List α} {i j : ℕ} (hi : i < v.length) (hj : j < i) :
    (swapRemove v i)[j]? = v[j]? := by
  unfold swapRemove
  cases hl : v.getLast? with
  | none => rfl
  | some y =>
    dsimp only
    rw [List.getElem?_dropLast, List.length_set, if_pos (by omega), List.getElem?_set_ne (by omega)]

/-- The vector is one shorter after a removal. -/
theorem length_swapRemove {v : List α} {i : ℕ} {x : α} (h : v[i]? = some x) :
    (swapRemove v i).length + 1 = v.length := by
  rw [(perm_swapRemove h).length_eq, List.length_cons]

/-- What a loop over the stops takes out, and what it leaves. -/
structure Taken (p : α → Bool) (v out : List α) (r : List α × List α) : Prop where
  perm : (out ++ v).Perm (r.1 ++ r.2)
  out : ∀ x ∈ r.1, x ∈ out ∨ p x = true
  left : ∀ x ∈ r.2, p x = false

/-- What the scan takes out and what it leaves, by induction on the number of stops that it still
has to see. -/
theorem taken_takeOut : ∀ n i v out r, takeOut p n i v out = some r →
    (∀ j < i, ∀ x ∈ v[j]?, p x = false) → Taken p v out r := by
  intro n
  induction n with
  | zero => nofun
  | succ n ih =>
    intro i v out r h hbefore
    unfold takeOut at h
    cases hv : v[i]? with
    | none =>
      rw [hv] at h
      cases h
      refine ⟨.refl _, fun x hx => .inl hx, fun x hx => ?_⟩
      obtain ⟨j, hj⟩ := List.mem_iff_getElem?.mp hx
      dsimp only at hj
      refine hbefore j ?_ x hj
      -- The scan is at the end: every place is behind it.
      have hlt := (List.getElem?_eq_some_iff.mp hj).1
      have hlen := List.getElem?_eq_none_iff.mp hv
      omega
    | some x =>
      rw [hv] at h
      have hlt := (List.getElem?_eq_some_iff.mp hv).1
      dsimp only at h
      split at h
      · rename_i hp
        -- Taken out: the place is looked at again, with the last element at it.
        have ht := ih _ _ _ _ h fun j hj y hy =>
          hbefore j hj y (by rwa [getElem?_swapRemove hlt hj] at hy)
        refine ⟨?_, fun y hy => ?_, ht.left⟩
        · refine List.Perm.trans ?_ ht.perm
          rw [List.append_assoc]
          exact (perm_swapRemove hv).append_left out
        · rcases ht.out y hy with hy | hy
          · rcases List.mem_append.mp hy with hy | hy
            · exact .inl hy
            · rw [List.mem_singleton.mp hy]
              exact .inr hp
          · exact .inr hy
      · rename_i hp
        -- Left where it is: the scan goes on behind it.
        refine ih _ _ _ _ h fun j hj y hy => ?_
        rcases Nat.lt_succ_iff_lt_or_eq.mp hj with hj | rfl
        · exact hbefore j hj y hy
        · rw [hv] at hy
          cases hy
          exact Bool.eq_false_iff.mpr hp

/-- As many turns as there are elements from the place on, and one more, are enough. -/
theorem takeOut_isSome : ∀ n i (v out : List α), i ≤ v.length → v.length < n + i →
    (takeOut p n i v out).isSome = true := by
  intro n
  induction n with
  | zero =>
    intro i v out hi h
    omega
  | succ n ih =>
    intro i v out hi h
    unfold takeOut
    cases hv : v[i]? with
    | none => rfl
    | some x =>
      have hlt := (List.getElem?_eq_some_iff.mp hv).1
      -- A turn takes one out or goes one further.
      have hlen := length_swapRemove hv
      dsimp only
      split
      · exact ih _ _ _ (by omega) (by omega)
      · exact ih _ _ _ (by omega) (by omega)

end TakeOut

/-- The elements of a list by their places. -/
theorem filterMap_getElem? {α : Type} (v : List α) :
    (List.range v.length).filterMap (fun i => v[i]?) = v := by
  induction v with
  | nil => rfl
  | cons x v ih =>
    rw [List.length_cons, List.range_succ_eq_map]
    change x :: (List.map Nat.succ _).filterMap _ = _
    rw [List.filterMap_map]
    exact congrArg (x :: ·) ih

/-- What `std::sort` returns has the elements that it was given. -/
theorem perm_sort (S : StdSort) {α : Type} (key : α → ℕ) (v : List α) : (S.sort key v).Perm v := by
  have hp := (S.perm (v.map key)).filterMap fun i => v[i]?
  rw [List.length_map, filterMap_getElem?] at hp
  exact hp

/-! ## The cascade -/

/-- The reports from `i` on are acts, and so is each evaluation after them. -/
theorem acts_emitLoop {eval : ℤ → ℕ → Flat → Option Flat} (he : ∀ px depth, Acts X (eval px depth))
    (depth : ℕ) : ∀ n i, Acts X (emitLoop eval depth n i) := by
  intro n
  induction n with
  | zero =>
    intro i f f' _ h
    cases h
    exact ⟨fun _ => .refl, fun _ hx => hx⟩
  | succ n ih =>
    intro i f f' hs h
    unfold emitLoop at h
    cases ht : f.tape.trades[i]? with
    | none =>
      rw [ht] at h
      cases h
    | some t =>
      rw [ht] at h
      dsimp only at h
      have hact : ∀ fl, Step X (f, fl) _ := fun fl => .report depth (List.mem_of_getElem? ht)
      have hbelow : ∀ f₁ f₂, StopsOk f₁.stops →
          (if depth < maxCascade then eval t.price depth f₁ else some f₁) = some f₂ →
          (∀ fl, Steps X (f₁, fl) (f₂, fl)) ∧ ∀ o ∈ f₂.stops, o ∈ f₁.stops := by
        intro f₁ f₂ hs₁ h₁
        split at h₁
        · exact he _ _ _ _ hs₁ h₁
        · cases h₁
          exact ⟨fun _ => .refl, fun _ hx => hx⟩
      split at h
      · cases h
      · rename_i f₂ h₂
        obtain ⟨hsteps, hsub⟩ := hbelow _ _ (by exact hs) h₂
        obtain ⟨hsteps₂, hsub₂⟩ := ih _ _ _ (fun o ho => hs o (hsub o ho)) h
        exact ⟨fun fl => ((hsteps fl).trans (hsteps₂ fl)).head (hact fl), fun o ho =>
          hsub o (hsub₂ o ho)⟩

/-- What a stop is after it was triggered can be processed. -/
theorem ready_trigger {s : Order} (hs : s.orderType.isStop = true ∧ s.postOnly = false) (f : Flat) :
    Ready X (trigger s f.tape).1 (f.withTape (trigger s f.tape).2) where
  status := nofun
  notStop := by
    change OrderType.isStop (if s.orderType = .STOP_LIMIT then _ else _) = false
    split <;> rfl
  reprice h := absurd h (by rw [show (trigger s f.tape).1.postOnly = false from hs.2]; nofun)
  recancel h := by
    change (if s.orderType = .STOP_LIMIT then OrderType.LIMIT else .MARKET) = _ at h
    split at h <;> cases h
  unsold := .inr (sold_started (decide_eq_true rfl))
  aged := .inl rfl

/-- The triggered stops are in flight until it is their turn, and each turn is a sequence of acts.
-/
theorem acts_activate {active : Order → ℕ → Flat → Option Flat}
    (ha : ∀ o depth f f', StopsOk f.stops → active o depth f = some f' → Ready X o f →
      (∀ fl, Steps X (f, o :: fl) (f', fl)) ∧ ∀ s ∈ f'.stops, s ∈ f.stops) (depth : ℕ) :
    ∀ os f f', StopsOk os → StopsOk f.stops → activate active depth os f = some f' →
      (∀ fl, Steps X (f, os ++ fl) (f', fl)) ∧ ∀ s ∈ f'.stops, s ∈ f.stops := by
  intro os
  induction os with
  | nil =>
    intro f f' _ _ h
    cases h
    exact ⟨fun _ => .refl, fun _ hx => hx⟩
  | cons o os ih =>
    intro f f' hos hs h
    unfold activate at h
    cases h₁ : active (trigger o f.tape).1 (depth + 1) (f.withTape (trigger o f.tape).2) with
    | none =>
      rw [h₁] at h
      cases h
    | some f₁ =>
      rw [h₁] at h
      have ho := hos o List.mem_cons_self
      obtain ⟨hsteps, hsub⟩ := ha _ _ _ _ (by exact hs) h₁ (ready_trigger ho _)
      obtain ⟨hsteps₂, hsub₂⟩ := ih _ _ (fun x hx => hos x (List.mem_cons_of_mem _ hx))
        (fun x hx => hs x (hsub x hx)) h
      exact ⟨fun fl => ((hsteps _).trans (hsteps₂ fl)).head (.trigger ho.1),
        fun x hx => hsub x (hsub₂ x hx)⟩

/-- `evalStops` takes the triggered stops out, and they go through the pipeline one by one. -/
theorem acts_evalStops (S : StdSort) {active : Order → ℕ → Flat → Option Flat}
    (ha : ∀ o depth f f', StopsOk f.stops → active o depth f = some f' → Ready X o f →
      (∀ fl, Steps X (f, o :: fl) (f', fl)) ∧ ∀ s ∈ f'.stops, s ∈ f.stops) (px : ℤ) (depth : ℕ) :
    Acts X (evalStops S active px depth) := by
  intro f f' hs h
  unfold evalStops at h
  cases ht : takeOut (fires px) (f.stops.length + 1) 0 f.stops [] with
  | none =>
    rw [ht] at h
    cases h
  | some r =>
    rw [ht] at h
    have htaken := taken_takeOut _ _ _ _ _ ht fun j hj => absurd hj (Nat.not_lt_zero j)
    have hperm : f.stops.Perm (r.1 ++ r.2) := htaken.perm
    have hsub : ∀ o ∈ r.1 ++ r.2, o ∈ f.stops := fun o ho => hperm.mem_iff.mpr ho
    have hsort := perm_sort S (·.timestamp) r.1
    obtain ⟨hsteps, hsub₂⟩ := acts_activate ha depth _ { f with stops := r.2 } f'
      (fun o ho => hs o (hsub o (List.mem_append_left _ (hsort.mem_iff.mp ho))))
      (fun o ho => hs o (hsub o (List.mem_append_right _ ho))) h
    refine ⟨fun fl => ?_, fun o ho => hsub o (List.mem_append_right _ (hsub₂ o ho))⟩
    exact ((hsteps fl).head (.perm (hsort.symm.append_right fl))).head (.wake hperm)

/-- By induction on the depth that is left. -/
theorem acts_processActiveIn (S : StdSort) : ∀ n o depth f f', StopsOk f.stops →
    processActiveIn S n o depth f = some f' → Ready X o f →
    (∀ fl, Steps X (f, o :: fl) (f', fl)) ∧ ∀ s ∈ f'.stops, s ∈ f.stops := by
  intro n
  induction n with
  | zero =>
    intro o depth f f' _ h
    unfold processActiveIn at h
    cases h
  | succ n ih =>
    intro o depth f f' hs h hr
    refine acts_processActiveWith (fun start d => ?_) hs h hr
    intro f₁ f₂ hs₁ h₁
    exact acts_emitLoop (acts_evalStops S ih) d _ _ f₁ f₂ hs₁ h₁

/-! ## Calls -/

/-- What holds between two calls and the acts of a call rest on: the ids are distinct, an order is
open and on its own side, and the stops are stops. -/
structure Tidy (f : Flat) : Prop where
  ids : (f.orders.map (·.id)).Nodup
  status : ∀ o ∈ f.orders, o.status.open = true
  side : ∀ b, ∀ o ∈ (f.side b).orders, o.side = b
  stops : StopsOk f.stops

/-- A resting order rests on its own side. -/
theorem Tidy.mem_side {f : Flat} {o : Order} (ht : Tidy f) (ho : o ∈ f.bids.orders ++ f.asks.orders) :
    o ∈ (f.side o.side).orders := by
  rcases List.mem_append.mp ho with hb | ha
  · rw [ht.side .BUY o hb]
    exact hb
  · rw [ht.side .SELL o ha]
    exact ha

/-- An open order is not cancelled. -/
theorem open_ne {st : OrderStatus} (h : st.open = true) : st ≠ .CANCELLED := by
  rintro rfl
  cases h

/-- An order of a side is an order of the engine. -/
theorem mem_orders {f : Flat} {b : Side} {o : Order} (h : o ∈ (f.side b).orders) : o ∈ f.orders := by
  cases b with
  | BUY => exact List.mem_append_left _ h
  | SELL => exact List.mem_append_right _ (List.mem_append_left _ h)

/-- A dormant stop is an order of the engine. -/
theorem mem_orders_stop {f : Flat} {o : Order} (h : o ∈ f.stops) : o ∈ f.orders :=
  List.mem_append_right _ (List.mem_append_right _ h)

/-- `process` is a sequence of acts: a stop falls asleep, and any other order goes through the
pipeline. -/
theorem steps_process (S : StdSort) {f f' : Flat} {o : Order} (hs : StopsOk f.stops)
    (h : process S o f = some f') (hst : o.status = .NEW)
    (hpo : o.orderType.isStop = true → o.postOnly = false)
    (hr : o.orderType.isStop = false → Ready X o f) : Steps X (f, [o]) (f', []) := by
  unfold process at h
  have hstop : o.orderType.isStop = true ↔ o.orderType = .STOP_LIMIT ∨ o.orderType = .STOP_MARKET := by
    cases o.orderType <;> decide
  split at h
  · rename_i hty
    have hty := hstop.mpr hty
    split at h
    · obtain ⟨hsteps, -⟩ := acts_processActiveIn (X := X) S _ _ _ _ _ (by exact hs) h
        (ready_trigger ⟨hty, hpo hty⟩ _)
      exact (hsteps []).head (.trigger hty)
    · cases h
      exact .single (.park hty hst)
  · rename_i hty
    have hty : o.orderType.isStop = false := Bool.eq_false_iff.mpr fun hx => hty (hstop.mp hx)
    exact (acts_processActiveIn S _ _ _ _ _ hs h (hr hty)).1 []

/-- Whether `submitOrder` comes to the index with an order that it takes up. -/
def Admitted (i : OrderInput) (f : Flat) : Prop :=
  (∀ o ∈ f.orders, o.id ≠ i.id) ∧ validate (f.tape.now + 1) (i.order (f.tape.now + 1)) = none

/-- `submitOrder` is a sequence of acts, the first of which takes the order in unless it is
rejected. -/
theorem steps_submitOrder (S : StdSort) {f : Flat} {i : OrderInput} {r : Bool × Flat}
    (hs : StopsOk f.stops) (h : submitOrder S i f = some r) (hX : X .clear) (hX' : X .accept)
    (hr : Admitted i f → i.orderType.isStop = false → Ready X (i.order (f.tape.now + 1))
      (f.withTape (f.tape.tick.event (.onOrderAccepted (i.order (f.tape.now + 1))))).clear) :
    Steps X (f, []) (r.2, []) := by
  unfold submitOrder at h
  split at h
  · cases h
    exact .single (.reject _ _)
  · rename_i hdup
    dsimp only at h
    cases hv : validate (f.tape.now + 1) (i.order (f.tape.now + 1)) with
    | some err =>
      rw [hv] at h
      cases h
      exact (ReflTransGen.single Step.tick).tail (.reject _ _)
    | none =>
      rw [hv] at h
      obtain ⟨f', hp, he⟩ := Option.map_eq_some_iff.mp h
      cases he
      have hfresh : ∀ o ∈ f.orders, o.id ≠ i.id := fun o ho hid =>
        hdup (List.any_eq_true.mpr ⟨o, ho, decide_eq_true hid⟩)
      have hacc := Step.accept (X := X) (f := f.withTape f.tape.tick) i hfresh hv hX'
      have hsteps := steps_process (X := X) S (by exact hs) hp rfl (valid_of_validate hv).stop_postOnly
        (hr ⟨hfresh, hv⟩)
      exact ((hsteps.head (.clear hX)).head hacc).head .tick

/-- What `locate` finds is there. -/
theorem mem_of_locate {f : Flat} {id : UInt64} {w : Place} (h : f.locate id = some w) :
    match w with
    | .resting b o => o ∈ (f.side b).orders ∧ o.id = id
    | .dormant o => o ∈ f.stops ∧ o.id = id := by
  unfold locate at h
  split at h
  · rename_i o ho
    cases h
    exact ⟨List.mem_of_find?_eq_some ho, by simpa using List.find?_some ho⟩
  · split at h
    · rename_i o ho
      cases h
      exact ⟨List.mem_of_find?_eq_some ho, by simpa using List.find?_some ho⟩
    · obtain ⟨o, ho, he⟩ := Option.map_eq_some_iff.mp h
      cases he
      exact ⟨List.mem_of_find?_eq_some ho, by simpa using List.find?_some ho⟩

/-- Taking out an order keeps those of other ids. -/
theorem mem_pull {id : UInt64} {m : Levels} {x : Order} (h : x ∈ m.orders) (hid : x.id ≠ id) :
    x ∈ (pull id m).orders := by
  induction m with
  | nil => cases h
  | cons l m ih =>
    obtain ⟨p, q⟩ := l
    unfold pull
    rcases List.mem_append.mp h with hq | hm
    · have hq' : x ∈ q.eraseP fun o => o.id = id :=
        (List.mem_eraseP_of_neg (by simpa using hid)).mpr hq
      split
      · split
        · rename_i hnil
          rw [hnil] at hq'
          cases hq'
        · rename_i o q' hcons
          rw [hcons] at hq'
          exact List.mem_append_left _ hq'
      · exact List.mem_append_left _ hq
    · split
      · split
        · exact hm
        · exact List.mem_append_right _ hm
      · exact List.mem_append_right _ (ih hm)

/-- `rmStop` of a dormant stop takes it out. -/
theorem perm_rmStop {f : Flat} {o : Order} (hids : (f.stops.map (·.id)).Nodup) (ho : o ∈ f.stops) :
    ∃ stops, f.rmStop o = { f with stops := stops } ∧ f.stops.Perm ([o] ++ stops) := by
  unfold rmStop
  cases hi : f.stops.findIdx? fun s => s.id = o.id with
  | none =>
    have := List.findIdx?_eq_none_iff.mp hi o ho
    simp at this
  | some i =>
    obtain ⟨hlt, hid, -⟩ := List.findIdx?_eq_some_iff_getElem.mp hi
    have hx : f.stops[i] = o := List.inj_on_of_nodup_map hids (List.getElem_mem hlt) ho
      (by simpa using hid)
    refine ⟨_, rfl, perm_swapRemove ?_⟩
    rw [List.getElem?_eq_getElem hlt, hx]

/-- `cancelOrder` is a sequence of acts. -/
theorem steps_cancelOrder {f : Flat} (ht : Tidy f) (hX : X .unlink) (id : UInt64) :
    Steps X (f, []) ((cancelOrder id f).2, []) := by
  unfold cancelOrder
  cases hl : f.locate id with
  | none => exact .refl
  | some w =>
    have hmem := mem_of_locate hl
    cases w with
    | resting b o =>
      dsimp only
      split
      · rename_i hopen
        exact (ReflTransGen.single (Step.unlink hmem.1 hX)).tail (.kill _ (open_ne hopen))
      · exact .refl
    | dormant o =>
      dsimp only
      split
      · rename_i hopen
        have hids : (f.stops.map (·.id)).Nodup := by
          have h := ht.ids
          unfold orders at h
          rw [List.map_append, List.map_append] at h
          exact (List.nodup_append.mp (List.nodup_append.mp h).2.1).2.1
        obtain ⟨stops, he, hperm⟩ := perm_rmStop hids hmem.1
        rw [he]
        exact (ReflTransGen.single (Step.wake hperm)).tail (.kill _ (open_ne hopen))
      · exact .refl

/-- `amendOrder` is a sequence of acts: the order stays in its place with a smaller quantity, or
goes through the pipeline again. -/
theorem steps_amendOrder (S : StdSort) {f : Flat} {id : UInt64} {newPx newQty : ℤ} {r : Bool × Flat}
    (ht : Tidy f) (hX : X .amend) (hX' : X .clear) (hX'' : X .unlink)
    (h : amendOrder S id newPx newQty f = some r)
    (hr : ∀ b o, f.locate id = some (.resting b o) →
      Ready X (amended o newPx newQty (f.tape.now + 1)) ((f.unlink b o).withTape f.tape.tick).clear) :
    Steps X (f, []) (r.2, []) := by
  unfold amendOrder at h
  split at h
  · rename_i b o hl
    have hmem := mem_of_locate hl
    have hr' := hr b o hl
    split at h
    · rename_i hopen
      dsimp only at h
      split at h
      · rename_i hdn
        cases h
        rw [← hmem.2]
        exact .single (.shrink hX hmem.1 hdn.1.1 hdn.1.2)
      · split at h
        · rename_i hnew
          obtain ⟨f', hp, he⟩ := Option.map_eq_some_iff.mp h
          cases he
          have hstops : StopsOk (f.unlink b o).stops := by
            rw [show (f.unlink b o).stops = f.stops from stops_setSide _ _ _]
            exact ht.stops
          obtain ⟨hsteps, -⟩ := acts_processActiveIn (X := X) S _ _ _ _ _ (by exact hstops) hp hr'
          have htape : (f.unlink b o).tape = f.tape := tape_setSide _ _ _
          have hact : Step X (f.unlink b o, [o]) _ := .amend hX hopen hr'.notStop hnew
          rw [htape] at hact
          exact (((hsteps []).head (.clear hX')).head hact).head (.unlink hmem.1 hX'')
        · cases h
          exact .refl
    · cases h
      exact .refl
  · cases h
    exact .refl

/-- One order expires. -/
theorem steps_expireOne {f : Flat} {o : Order} {fl : List Order} (hst : o.status ≠ .CANCELLED) :
    Steps X (f, o :: fl) (expireOne o f, fl) :=
  .single (.expire hst)

/-- The resting orders that have expired go one by one. No two have the same id, so each is still
there when it is its turn. -/
theorem steps_expireResting (hX : X .unlink) : ∀ os (f : Flat), (os.map (·.id)).Nodup →
    (∀ o ∈ os, o.status ≠ .CANCELLED ∧ o ∈ (f.side o.side).orders) →
    Steps X (f, []) (expireResting os f, []) := by
  intro os
  induction os with
  | nil => exact fun _ _ _ => .refl
  | cons o os ih =>
    intro f hids hos
    obtain ⟨hst, ho⟩ := hos o List.mem_cons_self
    rw [List.map_cons, List.nodup_cons] at hids
    refine ReflTransGen.head (.unlink ho hX) ((steps_expireOne hst).trans (ih _ hids.2 fun x hx => ?_))
    obtain ⟨hxs, hx'⟩ := hos x (List.mem_cons_of_mem _ hx)
    have hne : x.id ≠ o.id := fun he => hids.1 (by rw [← he]; exact List.mem_map_of_mem hx)
    refine ⟨hxs, ?_⟩
    change x ∈ ((f.unlink o.side o).side x.side).orders
    unfold unlink
    cases hs : o.side <;> cases hs' : x.side <;> rw [hs'] at hx' <;>
      first | exact mem_pull hx' hne | exact hx'

/-- The dormant stops that have expired go one by one. -/
theorem steps_expireStops : ∀ os (f : Flat), (∀ o ∈ os, o.status ≠ .CANCELLED) →
    Steps X (f, os) (expireStops os f, []) := by
  intro os
  induction os with
  | nil => exact fun _ _ => .refl
  | cons o os ih =>
    intro f hos
    exact (steps_expireOne (hos o List.mem_cons_self)).trans
      (ih _ fun x hx => hos x (List.mem_cons_of_mem _ hx))

/-- The expiry of resting orders leaves the stops. -/
theorem stops_expireResting : ∀ os (f : Flat), (expireResting os f).stops = f.stops := by
  intro os
  induction os with
  | nil => exact fun _ => rfl
  | cons o os ih =>
    intro f
    exact (ih _).trans (stops_setSide _ _ _)

/-- `expireOrders` is a sequence of acts. -/
theorem steps_expireOrders {f f' : Flat} {t : ℕ} (ht : Tidy f) (hX : X .unlink)
    (h : expireOrders t f = some f') :
    Steps X (f, []) (f', []) := by
  obtain ⟨r, hr, he⟩ := Option.map_eq_some_iff.mp h
  cases he
  have hids := ht.ids
  unfold orders at hids
  rw [← List.append_assoc, List.map_append] at hids
  have hsteps := steps_expireResting hX ((f.bids.orders ++ f.asks.orders).filter (shouldExpire t)) f
    ((List.nodup_append.mp hids).1.sublist (List.filter_sublist.map _)) fun o ho => by
      rcases List.mem_append.mp (List.mem_filter.mp ho).1 with hb | ha
      · have hside : o.side = .BUY := ht.side .BUY o hb
        exact ⟨open_ne (ht.status o (mem_orders (b := .BUY) hb)), by rw [hside]; exact hb⟩
      · have hside : o.side = .SELL := ht.side .SELL o ha
        exact ⟨open_ne (ht.status o (mem_orders (b := .SELL) ha)), by rw [hside]; exact ha⟩
  have htaken := taken_takeOut _ _ _ _ _ hr fun j hj => absurd hj (Nat.not_lt_zero j)
  have hperm := htaken.perm
  rw [stops_expireResting] at hperm
  have hact : Step X (expireResting ((f.bids.orders ++ f.asks.orders).filter (shouldExpire t)) f,
      []) _ :=
    .wake (by rw [stops_expireResting]; exact hperm)
  rw [List.append_nil] at hact
  refine hsteps.trans ((steps_expireStops _ _ fun o ho => ?_).head hact)
  exact open_ne (ht.status o (mem_orders_stop (hperm.mem_iff.mpr (List.mem_append_left _ ho))))

/-- The special acts that a call needs allowed. -/
def Covers (X : Special → Prop) (f : Flat) : Call → Prop
  | .submit i => X .clear ∧ X .accept ∧ (Admitted i f → i.orderType.isStop = false →
      Ready X (i.order (f.tape.now + 1))
      (f.withTape (f.tape.tick.event (.onOrderAccepted (i.order (f.tape.now + 1))))).clear)
  | .amend id newPx newQty => X .amend ∧ X .clear ∧ X .unlink ∧
      ∀ b o, f.locate id = some (.resting b o) →
      Ready X (amended o newPx newQty (f.tape.now + 1)) ((f.unlink b o).withTape f.tape.tick).clear
  | .cancel _ | .expire _ => X .unlink
  | .setTime _ => X .setTime
  | .assignId => True

/-- A call is a sequence of acts. -/
theorem steps_run (S : StdSort) {f f' : Flat} {c : Call} (ht : Tidy f) (h : run S c f = some f')
    (hX : Covers X f c) : Steps X (f, []) (f', []) := by
  cases c with
  | submit i =>
    obtain ⟨r, hr, he⟩ := Option.map_eq_some_iff.mp h
    cases he
    exact steps_submitOrder S ht.stops hr hX.1 hX.2.1 hX.2.2
  | cancel id =>
    cases h
    exact steps_cancelOrder ht hX id
  | amend id newPx newQty =>
    obtain ⟨r, hr, he⟩ := Option.map_eq_some_iff.mp h
    cases he
    exact steps_amendOrder S ht hX.1 hX.2.1 hX.2.2.1 hr hX.2.2.2
  | expire t => exact steps_expireOrders ht hX h
  | setTime t =>
    cases h
    exact .single (.setTime t hX)
  | assignId =>
    cases h
    exact .refl

end Flat

end MatchingEngine.Cpp
