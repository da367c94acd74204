import MatchingEngine.Simulation.Orders

/-!
# The matching loops

The specification takes one order off the other side with each unit of fuel, and the C++ engine
loops over the queue of a level and then over the levels. The loop over a queue is a number of
units, so the loop over the levels is what is done with the fuel of `computeMatchFuel`, which is
never used up.
-/

namespace MatchingEngine.Simulation

open Cpp (Levels Tape Flat)
open Spec (PriceLevel BookState MatchResult Meeting doMatch sideProcessMeasure)

section Fuel

variable {lvl : PriceLevel} {ls : List PriceLevel} {qs : List Spec.Order}

/-- What the best level and those behind it measure. -/
theorem measure_cons (l : PriceLevel) (ls : List PriceLevel) :
    sideProcessMeasure (l :: ls) = 1 + weight l.orders + sideProcessMeasure ls := rfl

/-- A queue that is not empty keeps its level. -/
theorem requeue_cons (lvl : PriceLevel) (o : Spec.Order) (qs : List Spec.Order)
    (ls : List PriceLevel) :
    Spec.requeue lvl (o :: qs) ls = { lvl with orders := o :: qs } :: ls := rfl

/-- A queue measures no more in its level than by itself and the level. -/
theorem measure_requeue_le (lvl : PriceLevel) (qs : List Spec.Order) (ls : List PriceLevel) :
    sideProcessMeasure (Spec.requeue lvl qs ls) ≤ 1 + weight qs + sideProcessMeasure ls := by
  cases qs with
  | nil =>
    change sideProcessMeasure ls ≤ _
    omega
  | cons o qs => exact (measure_cons { lvl with orders := o :: qs } ls).le

/-- The fuel for matching is more than the size of the other side. -/
theorem computeMatchFuel_eq (b : BookState) (side : Spec.Side) :
    Spec.computeMatchFuel b side = sideProcessMeasure (Spec.contraLevels b side) + 1 := by
  unfold Spec.computeMatchFuel
  refine congrArg (· + 1) ?_
  generalize Spec.contraLevels b side = ls
  induction ls with
  | nil => rfl
  | cons l ls ih =>
    have hweight : weight l.orders =
        (l.orders.map Spec.Order.remainingQty).sum + l.orders.length := by
      unfold weight
      induction l.orders with
      | nil => rfl
      | cons o os ih =>
        simp only [List.map_cons, List.sum_cons, List.length_cons, ih]
        omega
    have hsum : Spec.sumRemaining (l :: ls) =
        (l.orders.map Spec.Order.remainingQty).sum + Spec.sumRemaining ls := rfl
    have hcount : Spec.orderCount (l :: ls) = l.orders.length + Spec.orderCount ls := rfl
    rw [measure_cons, hsum, hcount, hweight, List.length_cons, ← ih]
    omega

end Fuel

section Loops

variable {lvl : PriceLevel} {ls : List PriceLevel} {m : Levels}

/-- A unit of fuel. -/
theorem doMatch_turn {fuel tm : ℕ} {inc r : Spec.Order} {qs : List Spec.Order}
    {trades : List Spec.Trade} (hgo : ¬ Done inc)
    (hcan : Spec.canMatchPrice inc lvl.price = true) :
    doMatch (fuel + 1) inc (Spec.requeue lvl (r :: qs) ls) trades tm =
      doMatch fuel (Spec.meetResting inc r lvl.price qs tm).incoming
        (Spec.requeue lvl (Spec.meetResting inc r lvl.price qs tm).queue ls)
        (trades ++ (Spec.meetResting inc r lvl.price qs tm).trades)
        (Spec.meetResting inc r lvl.price qs tm).clock := by
  rw [requeue_cons]
  conv_lhs => unfold doMatch
  exact (if_neg hgo).trans (if_neg (not_not.mpr hcan))

/-- The results of the loop over a queue: what the specification does with less fuel. -/
structure QueueEnd (lvl : PriceLevel) (ls : List PriceLevel) (inc' : Spec.Order) (t : Tape)
    (fuel : ℕ) (y : Meeting) (x : Cpp.Order × List Cpp.Order × Tape × Bool) : Prop where
  changed : Changed inc' y.incoming
  incoming : Stands y.incoming x.1
  queue : Queues lvl.price y.queue x.2.1
  tells : Tells y.trades t x.2.2.1
  paid : y.trades.length + y.incoming.remainingQty ≤ inc'.remainingQty
  enough : Done y.incoming ∨ sideProcessMeasure (Spec.requeue lvl y.queue ls) < fuel
  returned : x.2.2.2 = true → Done y.incoming
  going : x.2.2.2 = false → y.incoming.status ≠ .cancelled ∧
    (y.queue = [] ∨ y.incoming.remainingQty = 0)

/-- A turn before others. -/
theorem QueueEnd.after {inc' r' : Spec.Order} {qs : List Spec.Order} {t : Tape} {fuel : ℕ}
    {m y : Meeting} {z : Cpp.Order × List Cpp.Order × Tape}
    {x : Cpp.Order × List Cpp.Order × Tape × Bool} (hturn : Turn lvl.price inc' r' qs t m z)
    (h : QueueEnd lvl ls m.incoming z.2.2 fuel y x) :
    QueueEnd lvl ls inc' t fuel { y with trades := m.trades ++ y.trades } x where
  changed := hturn.changed.trans h.changed
  incoming := h.incoming
  queue := h.queue
  tells := hturn.tells.trans h.tells
  paid := by
    have hpaid := hturn.paid
    have hpaid' := h.paid
    simp only [List.length_append]
    omega
  enough := h.enough
  returned := h.returned
  going := h.going

variable (ls) in
/-- The loop over a queue. -/
theorem matchQueue_simulates (hp : 0 < lvl.price) : ∀ n inc q t x,
    Flat.matchQueue lvl.price m n inc q t = some x →
    ∀ inc' qs trades tm fuel, Stands inc' inc → inc'.status ≠ .cancelled →
    Spec.canMatchPrice inc' lvl.price = true → Queues lvl.price qs q →
    Done inc' ∨ sideProcessMeasure (Spec.requeue lvl qs ls) < fuel → ∃ y fuel',
      doMatch fuel inc' (Spec.requeue lvl qs ls) trades tm =
        doMatch fuel' y.incoming (Spec.requeue lvl y.queue ls) (trades ++ y.trades) y.clock ∧
      QueueEnd lvl ls inc' t fuel' y x := by
  intro n
  induction n with
  | zero =>
    intro inc q t x h
    cases h
  | succ n ih =>
    intro inc q t x h inc' qs trades tm fuel hi hst hcan hq hfuel
    have hgo : 0 < inc.remainingQty ↔ inc'.remainingQty ≠ 0 := by
      rw [hi.remaining]
      omega
    have hstop : x = (inc, q, t, false) → (qs = [] ∨ inc'.remainingQty = 0) → ∃ y fuel',
        doMatch fuel inc' (Spec.requeue lvl qs ls) trades tm =
          doMatch fuel' y.incoming (Spec.requeue lvl y.queue ls) (trades ++ y.trades) y.clock ∧
        QueueEnd lvl ls inc' t fuel' y x := by
      rintro rfl hend
      exact ⟨⟨inc', qs, [], tm⟩, fuel, by rw [List.append_nil], .refl _, hi, hq, .refl t,
        (Nat.zero_add _).le, hfuel, fun hx => absurd hx Bool.false_ne_true, fun _ => ⟨hst, hend⟩⟩
    unfold Flat.matchQueue at h
    split at h
    · rename_i hpos
      have hnot : ¬ Done inc' := not_or.mpr ⟨hgo.mp hpos, hst⟩
      cases hq with
      | nil => exact hstop (Option.some.inj h).symm (.inl rfl)
      | @cons r' r qs q hr hq =>
        have hfuel := hfuel.resolve_left hnot
        obtain ⟨fuel, rfl⟩ := Nat.exists_eq_succ_of_ne_zero (Nat.ne_of_gt (Nat.zero_lt_of_lt hfuel))
        have hmeasure : 1 + weight (r' :: qs) + sideProcessMeasure ls < fuel + 1 := hfuel
        have hqueue := measure_requeue_le lvl
          (Spec.meetResting inc' r' lvl.price qs tm).queue ls
        rw [doMatch_turn hnot hcan]
        -- What the loop does after a turn.
        have hnext : ∀ {z}, Turn lvl.price inc' r' qs t
            (Spec.meetResting inc' r' lvl.price qs tm) z → z.1.status ≠ .CANCELLED →
            Flat.matchQueue lvl.price m n z.1 z.2.1 z.2.2 = some x → ∃ y fuel',
              doMatch fuel (Spec.meetResting inc' r' lvl.price qs tm).incoming
                (Spec.requeue lvl (Spec.meetResting inc' r' lvl.price qs tm).queue ls)
                (trades ++ (Spec.meetResting inc' r' lvl.price qs tm).trades)
                (Spec.meetResting inc' r' lvl.price qs tm).clock =
              doMatch fuel' y.incoming (Spec.requeue lvl y.queue ls) (trades ++ y.trades) y.clock ∧
              QueueEnd lvl ls inc' t fuel' y x := by
          intro z hturn hzst hz
          have hcan' : Spec.canMatchPrice (Spec.meetResting inc' r' lvl.price qs tm).incoming
              lvl.price = true := by
            rw [hturn.changed]
            exact hcan
          obtain ⟨y, fuel', heq, hend⟩ := ih _ _ _ _ hz _ _
            (trades ++ (Spec.meetResting inc' r' lvl.price qs tm).trades)
            (Spec.meetResting inc' r' lvl.price qs tm).clock fuel hturn.incoming
            (mt hturn.incoming.cancelled.mpr hzst) hcan' hturn.queue
            (hturn.less.imp_right fun hless => by omega)
          refine ⟨_, fuel', heq.trans ?_, hend.after hturn⟩
          rw [List.append_assoc]
        dsimp only at h
        split at h
        · rename_i hc
          have hturn := turn_selfTrade tm hi hr hq (hgo.mp hpos)
            ((conflict_eq hi hr).symm.trans hc) t
          have hdone : (Flat.handleStp inc r t).1.status = .CANCELLED ∨
              (Flat.handleStp inc r t).1.remainingQty = 0 ↔
              Done (Spec.meetResting inc' r' lvl.price qs tm).incoming := by
            rw [hturn.incoming.cancelled, hturn.incoming.remaining, or_comm]
            exact or_congr_left Int.natCast_eq_zero
          split at h
          · rename_i hend
            cases h
            exact ⟨_, fuel, rfl, hturn.changed, hturn.incoming, hturn.queue, hturn.tells,
              hturn.paid, .inl (hdone.mp hend), fun _ => hdone.mp hend, Bool.noConfusion⟩
          · rename_i hend
            exact hnext hturn (not_or.mp hend).1 h
        · rename_i hc
          split at h
          · cases h
          · rename_i z hz
            have hturn := turn_fill tm hp hi hr hq
              (mt (conflict_eq hi hr).trans hc) hz
            refine hnext hturn ?_ h
            rw [(Flat.fill_eq hz).2]
            exact mt hi.cancelled.mp hst
    · rename_i hpos
      exact hstop (Option.some.inj h).symm (.inr (not_not.mp (mt hgo.mpr hpos)))

/-- The results of the loop over the levels. -/
structure SideEnd (inc' : Spec.Order) (prices : List ℤ) (t : Tape) (ts : List Spec.Trade)
    (mr : MatchResult) (x : Cpp.Order × Levels × Tape) : Prop where
  changed : Changed inc' mr.incoming
  incoming : Stands mr.incoming x.1
  side : Sides mr.contra x.2.1
  prices : (x.2.1.map (·.1)).Sublist prices
  tells : Tells ts t x.2.2
  paid : ts.length + mr.incoming.remainingQty ≤ inc'.remainingQty

/-- The loop over the levels. -/
theorem matchLevels_simulates {ls : List PriceLevel} {m : Levels} (hm : Sides ls m) :
    ∀ inc t x, Flat.matchLevels m inc t = some x → ∀ inc' trades tm fuel, Stands inc' inc →
    inc'.status ≠ .cancelled → Done inc' ∨ sideProcessMeasure ls < fuel → ∃ ts,
      (doMatch fuel inc' ls trades tm).trades = trades ++ ts ∧
      SideEnd inc' (m.map (·.1)) t ts (doMatch fuel inc' ls trades tm) x := by
  -- Induction on the levels, with `matchQueue_simulates` for the first of them.
  induction hm with
  | nil =>
    intro inc t x h inc' trades tm fuel hi hst hfuel
    cases h
    have hnil : doMatch fuel inc' [] trades tm = ⟨inc', [], trades, tm⟩ := by
      cases fuel with
      | zero => rfl
      | succ fuel =>
        unfold doMatch
        rw [ite_self]
    rw [hnil]
    exact ⟨[], (List.append_nil _).symm, .refl _, hi, .nil, .refl _, .refl t, (Nat.zero_add _).le⟩
  | @cons l l' ls m hl hm ih =>
    intro inc t x h inc' trades tm fuel hi hst hfuel
    obtain ⟨_, q⟩ := l'
    obtain ⟨rfl, hpos, hne, hq⟩ := hl
    have hgo : 0 < inc.remainingQty ↔ inc'.remainingQty ≠ 0 := by
      rw [hi.remaining]
      omega
    have hstop : doMatch fuel inc' (l :: ls) trades tm = ⟨inc', l :: ls, trades, tm⟩ →
        x = (inc, (↑l.price, q) :: m, t) → ∃ ts,
        (doMatch fuel inc' (l :: ls) trades tm).trades = trades ++ ts ∧
        SideEnd inc' (((↑l.price, q) :: m).map (·.1)) t ts
          (doMatch fuel inc' (l :: ls) trades tm) x := by
      rintro heq rfl
      rw [heq]
      exact ⟨[], (List.append_nil _).symm, .refl _, hi, .cons ⟨rfl, hpos, hne, hq⟩ hm, .refl _,
        .refl t, (Nat.zero_add _).le⟩
    -- The specification puts back what is left of a queue after each meeting, the C++ loop does so
    -- once.
    have hrequeue : l :: ls = Spec.requeue l l.orders ls := by
      obtain ⟨p, os⟩ := l
      cases os with
      | nil => exact absurd rfl hne
      | cons o os => rfl
    unfold Flat.matchLevels at h
    split at h
    · rename_i hgoes
      have hcan : Spec.canMatchPrice inc' l.price = true :=
        (canMatch_eq hi l.price).symm.trans hgoes.2
      cases hy : Flat.matchQueue l.price m (inc.remainingQty.toNat + q.length + 1) inc q t with
      | none =>
        rw [hy] at h
        cases h
      | some z =>
        rw [hy] at h
        rw [hrequeue] at hfuel ⊢
        obtain ⟨y, fuel', heq, hend⟩ := matchQueue_simulates ls hpos _ _ _ _ _ hy inc' l.orders
          trades tm fuel hi hst hcan hq hfuel
        obtain ⟨inc₁, q₁, t₁, ret⟩ := z
        obtain ⟨inc₁', qs₁, ts, tm₁⟩ := y
        obtain ⟨hchanged, hi₁, hq₁, htells, hpaid, henough, hret, hgoing⟩ := hend
        dsimp only at *
        rw [heq]
        -- An empty level is taken off by both, and one with orders ends the matching.
        cases hq₁ with
        | nil =>
          rw [show Spec.requeue l [] ls = ls from rfl] at henough ⊢
          dsimp only at h
          split at h
          · rename_i hback
            cases h
            have hdone := hret hback
            rw [Spec.doMatch_done hdone]
            exact ⟨ts, rfl, hchanged, hi₁, hm, List.sublist_cons_self _ _, htells, hpaid⟩
          · rename_i hback
            obtain ⟨hst₁, -⟩ := hgoing (Bool.eq_false_iff.mpr hback)
            obtain ⟨us, hus, hend⟩ := ih _ _ _ h inc₁' (trades ++ ts) tm₁ fuel' hi₁ hst₁ henough
            refine ⟨ts ++ us, ?_, hchanged.trans hend.changed, hend.incoming, hend.side,
              hend.prices.cons _, htells.trans hend.tells, ?_⟩
            · rw [← List.append_assoc]
              exact hus
            · have hpaid' := hend.paid
              rw [List.length_append]
              omega
        | @cons o' o qs₁ q₁ ho hq₁ =>
          cases h
          have hdone : Done inc₁' := by
            cases ret with
            | true => exact hret rfl
            | false =>
              rcases (hgoing rfl).2 with hx | hx
              · cases hx
              · exact .inl hx
          rw [Spec.doMatch_done hdone]
          exact ⟨ts, rfl, hchanged, hi₁,
            .cons ⟨rfl, hpos, List.cons_ne_nil _ _, .cons ho hq₁⟩ hm, .refl _, htells, hpaid⟩
    · rename_i hstay
      refine hstop ?_ (Option.some.inj h).symm
      -- The C++ loop stops where the specification is done or finds no match.
      by_cases hdone : Done inc'
      · exact Spec.doMatch_done hdone
      · have hrem : 0 < inc.remainingQty := hgo.mpr (not_or.mp hdone).1
        have hcan : ¬ Spec.canMatchPrice inc' l.price = true := fun hc =>
          hstay ⟨hrem, (canMatch_eq hi l.price).trans hc⟩
        cases fuel with
        | zero => rfl
        | succ fuel =>
          unfold doMatch
          exact (if_neg hdone).trans (if_pos hcan)

end Loops

end MatchingEngine.Simulation
