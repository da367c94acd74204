import MatchingEngine.Cpp.Queues
import MatchingEngine.Cpp.Runs

/-!
# Timestamps go up along a queue

The clock only moves on, and an order is stamped when it is submitted, when it shows its next slice,
and when an amendment costs it its place, so it is younger than all orders it comes to rest behind.
Only a stop is not stamped again when it is triggered: it comes to rest with the time of its
submission. In a run in which every triggered stop comes to rest behind older orders, the timestamps
of every queue go up from the head to the tail.
-/

namespace MatchingEngine.Cpp

open Lib

namespace Flat

variable {X : Special → Prop} {f f' : Flat} {fl fl' : List Order}

/-! ## The clock -/

/-- What follows a fill does not turn the clock back. -/
theorem now_afterFill (r : Order) (t : Tape) : t.now ≤ (afterFill r t).2.now := by
  unfold afterFill
  split
  · exact Nat.le_succ _
  · split <;> exact le_refl t.now

/-- Neither does what follows a decrement. -/
theorem now_afterDecrement (r : Order) (t : Tape) : t.now ≤ (afterDecrement r t).2.now := by
  unfold afterDecrement
  split
  · exact le_refl t.now
  · split
    · exact Nat.le_succ _
    · exact le_refl t.now

/-- Nor does self-trade prevention. -/
theorem now_handleStp (inc r : Order) (t : Tape) : t.now ≤ (handleStp inc r t).2.2.now := by
  unfold handleStp
  split
  · exact le_refl t.now
  · exact le_refl t.now
  · exact le_refl t.now
  · exact now_afterDecrement _ (t.event _)
  · exact le_refl t.now

/-- Nor a fill as a whole. -/
theorem now_fill {contra : Levels} {inc r : Order} {t : Tape} {x : Order × Fate × Tape}
    (h : fill contra inc r t = some x) : t.now ≤ x.2.2.now := by
  rw [(fill_eq h).2]
  exact now_afterFill _ (t.record _ _ _ _)

/-- The clock moves on. -/
theorem Step.clock (h : Step X (f, fl) (f', fl')) (hX : ¬ X .setTime) : f.tape.now ≤ f'.tape.now := by
  cases h with
  | trade hside hrem hm hc hpo hst hstop hfill => exact now_fill hfill
  | selfTrade => exact now_handleStp _ _ _
  | drop => rw [tape_setSide]
  | reprice hpo hold hside hX' hrep =>
    obtain ⟨-, rfl⟩ := Prod.mk.inj (reprice_eq hside hrep)
    exact le_refl f.tape.now
  | tick => exact Nat.le_succ _
  | setTime t hset => exact absurd hset hX
  | unlink =>
    unfold Flat.unlink
    rw [tape_setSide]
  | amend => exact Nat.le_succ _
  | shrink => rw [tape_setSide]
  | _ => exact le_refl f.tape.now

/-! ## No order is from the future -/

/-- Every order of the engine and of the flight has a timestamp that the clock has reached. -/
def Stamped (f : Flat) (fl : List Order) : Prop := ∀ o ∈ f.orders ++ fl, o.timestamp ≤ f.tape.now

/-- No resting order is younger than the clock. -/
theorem Stamped.side {b : Side} {o : Order} (h : Stamped f fl) (ho : o ∈ (f.side b).orders) :
    o.timestamp ≤ f.tape.now := h o (List.mem_append_left _ (mem_orders ho))

/-- Matching keeps the timestamp of the incoming order. -/
theorem Alike.timestamp {o o' : Order} (h : Alike o o') : o'.timestamp = o.timestamp := by rw [h]

/-- An act keeps the timestamps of the orders that do not rest after it, or stamps them. -/
theorem Step.stamps (h : Step X (f, fl) (f', fl')) : ∀ o ∈ f'.stops ++ fl',
    (∃ x ∈ f.orders ++ fl, x.timestamp = o.timestamp) ∨ o.timestamp ≤ f'.tape.now := by
  have hstops : ∀ o ∈ f.stops, ∃ x ∈ f.orders ++ fl, x.timestamp = o.timestamp := fun o ho =>
    ⟨o, List.mem_append_left _ (mem_orders_stop ho), rfl⟩
  -- The stops are the same and those in flight have timestamps that were there.
  have hsame : ∀ {zs ys : List Order}, zs = f.stops →
      (∀ o ∈ ys, ∃ x ∈ f.orders ++ fl, x.timestamp = o.timestamp) →
      ∀ o ∈ zs ++ ys, (∃ x ∈ f.orders ++ fl, x.timestamp = o.timestamp) ∨
        o.timestamp ≤ f'.tape.now := by
    rintro zs ys rfl hys o ho
    exact (List.mem_append.mp ho).elim (fun ho => .inl (hstops o ho)) fun ho => .inl (hys o ho)
  have hfl : ∀ {ys : List Order}, ys ⊆ fl → ∀ o ∈ ys, ∃ x ∈ f.orders ++ fl, x.timestamp = o.timestamp :=
    fun hys o ho => ⟨o, List.mem_append_right _ (hys ho), rfl⟩
  -- The first one in flight changes, but not its timestamp.
  have hhead : ∀ {o o' : Order} {fl₀ : List Order}, fl = o :: fl₀ → o'.timestamp = o.timestamp →
      ∀ x ∈ o' :: fl₀, ∃ y ∈ f.orders ++ fl, y.timestamp = x.timestamp := by
    rintro o o' fl₀ rfl ht
    refine List.forall_mem_cons.mpr ⟨⟨o, List.mem_append_right _ List.mem_cons_self, ht.symm⟩, ?_⟩
    exact fun x hx => ⟨x, List.mem_append_right _ (List.mem_cons_of_mem _ hx), rfl⟩
  cases h with
  | perm hp => exact hsame rfl (hfl hp.symm.subset)
  | trade hside hrem hm hc hpo hst hstop hfill =>
    exact hsame ((stops_withTape _ _).trans (stops_setSide _ _ _))
      (hhead rfl (alike_fill hfill).1.timestamp)
  | selfTrade =>
    exact hsame ((stops_withTape _ _).trans (stops_setSide _ _ _))
      (hhead rfl (alike_handleStp _ _ _).timestamp)
  | drop => exact hsame (stops_setSide _ _ _) (hfl (List.Subset.refl _))
  | filled => exact hsame rfl (hhead rfl rfl)
  | cancel => exact hsame rfl (hhead rfl rfl)
  | kill => exact hsame rfl (hfl (List.subset_cons_self _ _))
  | recancel => exact hsame rfl (hfl (List.subset_cons_self _ _))
  | rest => exact hsame (stops_setSide f _ _) (hfl (List.subset_cons_self _ _))
  | passive => exact hsame (stops_setSide f _ _) (hfl (List.subset_cons_self _ _))
  | reprice hpo hold hside hX hrep =>
    obtain ⟨rfl, rfl⟩ := Prod.mk.inj (reprice_eq hside hrep)
    exact hsame (stops_setSide (f.withTape _) _ _) (hfl (List.subset_cons_self _ _))
  | leave => exact hsame rfl (hfl (List.subset_cons_self _ _))
  | report => exact hsame rfl (hfl (List.Subset.refl _))
  -- Stops and flight exchange orders, which bring their timestamps with them.
  | wake hp =>
    intro o ho
    refine .inl ⟨o, ?_, rfl⟩
    rcases List.mem_append.mp ho with ho | ho
    · exact List.mem_append_left _ (mem_orders_stop (hp.mem_iff.mpr (List.mem_append_right _ ho)))
    · rcases List.mem_append.mp ho with ho | ho
      · exact List.mem_append_left _ (mem_orders_stop (hp.mem_iff.mpr (List.mem_append_left _ ho)))
      · exact List.mem_append_right _ ho
  | trigger => exact hsame rfl (hhead rfl rfl)
  | park =>
    rename_i o _ _
    intro x hx
    refine .inl ⟨x, ?_, rfl⟩
    rcases List.mem_append.mp hx with hx | hx
    · rcases List.mem_append.mp hx with hx | hx
      · exact List.mem_append_left _ (mem_orders_stop hx)
      · rw [List.mem_singleton.mp hx]
        exact List.mem_append_right _ List.mem_cons_self
    · exact List.mem_append_right _ (List.mem_cons_of_mem _ hx)
  | toLimit => exact hsame rfl (hhead rfl rfl)
  | loosen => exact hsame rfl (hhead rfl rfl)
  | tick => exact hsame rfl (hfl (List.Subset.refl _))
  | setTime => exact hsame rfl (hfl (List.Subset.refl _))
  | clear => exact hsame rfl (hfl (List.Subset.refl _))
  | reject => exact hsame rfl (hfl (List.Subset.refl _))
  -- A new order is stamped with the time that has just been made.
  | accept =>
    intro x hx
    rcases List.mem_append.mp hx with hx | hx
    · exact .inl (hstops x hx)
    · rw [List.mem_singleton.mp hx]
      exact .inr (le_refl _)
  | unlink ho =>
    intro x hx
    refine .inl ⟨x, ?_, rfl⟩
    rcases List.mem_append.mp hx with hx | hx
    · rw [show (f.unlink _ _).stops = f.stops from stops_setSide _ _ _] at hx
      exact List.mem_append_left _ (mem_orders_stop hx)
    · rcases List.mem_cons.mp hx with rfl | hx
      · exact List.mem_append_left _ (mem_orders ho)
      · exact List.mem_append_right _ hx
  -- So is an amended one.
  | amend =>
    intro x hx
    rcases List.mem_append.mp hx with hx | hx
    · exact .inl (hstops x hx)
    · rcases List.mem_cons.mp hx with rfl | hx
      · exact .inr (le_refl _)
      · exact .inl ⟨x, List.mem_append_right _ (List.mem_cons_of_mem _ hx), rfl⟩
  | shrink => exact hsame (stops_setSide _ _ _) (hfl (List.Subset.refl _))
  | expire => exact hsame rfl (hfl (List.subset_cons_self _ _))

/-- An act that does not set the clock. -/
theorem Stamped.step (h : Stamped f fl) (hi : Inv f fl) (hact : Step X (f, fl) (f', fl'))
    (hX : ¬ X .setTime) : Stamped f' fl' := by
  have hclock := hact.clock hX
  -- The resting orders, by what the act does to the queues.
  have hrest : ∀ b, ∀ o ∈ (f'.side b).orders, o.timestamp ≤ f'.tape.now := by
    intro b o ho
    obtain ⟨l, hl, ho⟩ := Levels.mem_orders.mp ho
    -- A queue that comes from an old one by removals has no new timestamps.
    have hfrom : ∀ {q : List Order}, From (f.side b) (l.1, q) → o ∈ q → o.timestamp ≤ f'.tape.now := by
      rintro q ⟨q₀, hq, ht⟩ hoq
      obtain ⟨y, hy, -, hts⟩ := ht.mem hoq
      rw [← hts]
      exact (h.side (Levels.mem_orders.mpr ⟨_, hq, hy⟩)).trans hclock
    obtain ⟨new, -, hshift⟩ := hact.shift hi
    cases hshift with
    | thins _ hall => exact hfrom (hall b l hl) ho
    -- One order is put at an end, from flight or from the front of the queue with a new stamp.
    | joins hnew hpre he hnow hts hall =>
      rcases hall b l hl with ⟨hl, -⟩ | ⟨rfl, -, q, hlq, -, hq⟩
      · exact hfrom hl ho
      · rw [hlq] at ho
        rcases List.mem_append.mp ho with ho | ho
        · rcases hq with rfl | hq
          · cases ho
          · exact hfrom hq ho
        · rw [List.mem_singleton.mp ho]
          cases he with
          | rested hside hplace hfl =>
            obtain ⟨x, hx, hp⟩ := hfl
            have hle := (h x (List.mem_append_right _ hx)).trans hclock
            exact (Nat.le_of_eq (congrArg Prod.snd hp).symm).trans hle
          | reloaded hstamp =>
            rw [hstamp, hts rfl]
  -- The dormant orders and those in flight.
  have hother : ∀ o ∈ f'.stops ++ fl', o.timestamp ≤ f'.tape.now := by
    intro o ho
    rcases hact.stamps o ho with ⟨x, hx, hts⟩ | hle
    · rw [← hts]
      exact (h x hx).trans hclock
    · exact hle
  intro o ho
  unfold orders at ho
  rw [List.append_assoc, List.append_assoc] at ho
  rcases List.mem_append.mp ho with ho | ho
  · exact hrest .BUY o ho
  · rcases List.mem_append.mp ho with ho | ho
    · exact hrest .SELL o ho
    · exact hother o ho

/-! ## The queues -/

/-- In every queue the timestamps go up from the head to the tail. -/
def Ascending (f : Flat) : Prop := ∀ b, ∀ l ∈ f.side b, l.2.Pairwise (·.timestamp < ·.timestamp)

/-- A queue that was thinned still has its timestamps in order. -/
theorem Thins.ascending {q q' : List Order} (h : Thins q q')
    (hq : q.Pairwise (·.timestamp < ·.timestamp)) : q'.Pairwise (·.timestamp < ·.timestamp) := by
  have hmap : ∀ os : List Order, os.Pairwise (·.timestamp < ·.timestamp) ↔
      (os.map (·.place)).Pairwise (·.2 < ·.2) := fun os =>
    (List.pairwise_map (f := Order.place) (R := fun x y => x.2 < y.2)).symm
  exact (hmap q').mpr (((hmap q).mp hq).sublist h)

end Flat

/-- Where an entry tells that a triggered stop comes to rest, it is behind older orders. -/
def Mark.timely : Mark → Bool
  | .rested o q => o.status = .TRIGGERED → ∀ x ∈ q, x.timestamp < o.timestamp
  | _ => true

namespace Flat

variable {X : Special → Prop} {f f' : Flat} {fl fl' : List Order} {new : List Mark}

/-- An act keeps the timestamps of the queues in order, if it puts nobody at the end of a queue with
an old one. -/
theorem Ascending.step (h : f.Ascending) (hs : Stamped f fl) (hshift : Shift X f fl f' new)
    (hX : ¬ X .stale) (hgood : ∀ m ∈ new, m.timely = true) : f'.Ascending := by
  intro b l hl
  -- Removals keep a queue in order.
  have hfrom : ∀ {q : List Order}, From (f.side b) (l.1, q) →
      q.Pairwise (·.timestamp < ·.timestamp) := by
    rintro q ⟨q₀, hq, ht⟩
    exact ht.ascending (h b _ hq)
  cases hshift with
  | thins _ hall => exact hfrom (hall b l hl)
  -- Only the order at the end may be out of order.
  | joins hnew hpre he hnow hts hall =>
    rename_i b₀ o pre e
    rcases hall b l hl with ⟨hl, -⟩ | ⟨rfl, hprice, q, hlq, -, hq⟩
    · exact hfrom hl
    · rw [hlq]
      rcases hq with rfl | hq
      · exact List.pairwise_singleton _ _
      · refine List.pairwise_append.mpr ⟨hfrom hq, List.pairwise_singleton _ _, fun x hx y hy => ?_⟩
        rw [List.mem_singleton.mp hy]
        obtain ⟨q₀, hq₀, ht⟩ := hq
        obtain ⟨z, hz, -, hzt⟩ := ht.mem hx
        rw [← hzt]
        have hzs : z ∈ (f.side b).orders := Levels.mem_orders.mpr ⟨_, hq₀, hz⟩
        cases he with
        -- A reload has the latest stamp of all.
        | reloaded hstamp =>
          rw [hstamp]
          exact Nat.lt_succ_of_le (hs.side hzs)
        | rested hside hplace hfl hqq haged =>
          rw [show o.timestamp = _ from congrArg Prod.snd hplace]
          -- An old order may be put at an end only by the entries that `hgood` judges, or by the
          -- act that `hX` excludes.
          rcases haged with hst | hst | hy
          · have hm := hgood _ (by rw [hnew]; exact List.mem_append_right _ List.mem_cons_self)
            rw [hqq q₀ (hprice ▸ hq₀)] at hm
            exact of_decide_eq_true hm hst z hz
          · exact absurd hst hX
          · exact hy z (hside ▸ hzs)

/-- All acts but those that set the clock, or that put an order behind one that is no older. -/
def Clocked : Special → Prop
  | .setTime => False
  | .stale => False
  | _ => True

end Flat

/-- A call other than `setTime`. -/
def Unset (_ : Engine) (c : Call) : Prop := ∀ t, c ≠ .setTime t

section Runs

variable {S : StdSort} {pop : PostOnlyPolicy} {tickSz : ℤ} {s : Engine}

/-- An order that a call stamps is younger than all others. -/
theorem Unset.covers {c : Call} (hc : Unset s c) (hi : Inv s.flat []) (hs : s.flat.Stamped []) :
    Flat.Covers Flat.Clocked s.flat c := by
  have hlt : ∀ {b : Side} {x : Order}, x ∈ (s.flat.side b).orders → x.timestamp < s.flat.tape.now + 1 :=
    fun hx => Nat.lt_succ_of_le (hs.side hx)
  cases c with
  | submit i =>
    refine ⟨trivial, trivial, fun _ hstop => ⟨nofun, hstop, fun _ _ _ _ _ => trivial,
      fun _ _ _ _ _ _ _ => trivial, .inl trivial, .inr (.inr fun x hx => ?_)⟩⟩
    exact hlt hx
  | amend id newPx newQty =>
    refine ⟨trivial, trivial, trivial, fun b o hl => ?_⟩
    obtain ⟨l, hlm, hol⟩ := Levels.mem_orders.mp (Flat.mem_of_locate hl).1
    have hr := (hi.sides b).rest l hlm o hol
    have hany := hr.ready newPx newQty (s.flat.tape.now + 1) s.flat
    refine ⟨hany.status, hany.notStop, fun _ _ _ _ _ => trivial, fun _ _ _ _ _ _ _ => trivial,
      .inl trivial, .inr (.inr fun x hx => ?_)⟩
    change x ∈ ((s.flat.unlink b o).side o.side).orders at hx
    unfold Flat.unlink at hx
    rw [hr.side, Flat.side_setSide, pull_orders] at hx
    exact hlt (List.mem_of_mem_eraseP hx)
  | setTime t => exact absurd rfl (hc t)
  | _ => trivial

/-- In a run without `setTime` in which every triggered stop comes to rest behind older orders, the
timestamps of every queue go up from the head to the tail. -/
theorem timestamps_ascending (hs : ReachWhere Unset S pop tickSz s)
    (hgood : ∀ m ∈ s.log, m.timely = true) :
    ∀ b, ∀ l ∈ s.view b, l.2.Pairwise (·.timestamp < ·.timestamp) := by
  have hboth := hs.induct (X := Flat.Clocked)
    (J := fun x => x.1.Stamped x.2 ∧ ((∀ m ∈ x.1.tape.log, m.timely = true) → x.1.Ascending))
    ⟨fun o ho => absurd ho List.not_mem_nil, fun _ b l hl => by cases b <;> cases hl⟩ ?_
    fun _ _ hr hj hc => hc.covers hr.inv hj.1
  · intro b l hl
    exact hboth.2 hgood b l (by rwa [Engine.side_flat])
  · rintro x y hi ⟨hst, hasc⟩ hact
    obtain ⟨new, hlog, hshift⟩ := hact.shift hi
    refine ⟨hst.step hi hact id, fun hall => ?_⟩
    rw [hlog] at hall
    refine (hasc fun m hm => ?_).step hst hshift id fun m hm => ?_
    · exact hall m (List.mem_append_left _ hm)
    · exact hall m (List.mem_append_right _ hm)

end Runs

/-- A stop that is triggered by a trade and comes to rest behind an order that was there before it.
-/
def promptStop : List Call :=
  [.submit { id := 1, price := 9, quantity := 5 },
    .submit { id := 2, orderType := .STOP_LIMIT, stopPrice := 10, price := 9, quantity := 5 },
    .submit { id := 3, side := .SELL, price := 10, quantity := 5 },
    .submit { id := 4, price := 10, quantity := 5 }]

/-- The state after the calls, where the stop rests behind the first order with the younger
timestamp. -/
theorem timestamps_ascending_promptStop : ∃ s, ReachWhere Unset .insertion .REJECT 1 s ∧
    (s.view .BUY).orders.map (fun o => (o.id, o.timestamp)) = [(1, 1), (2, 2)] ∧
    ∀ b, ∀ l ∈ s.view b, l.2.Pairwise (·.timestamp < ·.timestamp) := by
  have hsome : ((runAll .insertion promptStop (.init .REJECT 1)).map fun r =>
      ((r.2.view .BUY).orders.map fun o => (o.id, o.timestamp), r.2.log.all (·.timely))) =
      some ([(1, 1), (2, 2)], true) := by
    decide +kernel
  obtain ⟨⟨_, s⟩, hrun, hval⟩ := Option.map_eq_some_iff.mp hsome
  obtain ⟨hqueue, hgood⟩ := Prod.mk.inj hval
  have hs : ReachWhere Unset .insertion .REJECT 1 s :=
    ReachWhere.init.runAll (fun c hc _ t he => by subst he; simp [promptStop] at hc) hrun
  exact ⟨s, hs, hqueue, timestamps_ascending hs fun m hm => List.all_eq_true.mp hgood m hm⟩

/-- A stop that is triggered by a trade and comes to rest behind an order that came after it. -/
def lateStop : List Call :=
  [.submit { id := 1, orderType := .STOP_LIMIT, stopPrice := 10, price := 9, quantity := 5 },
    .submit { id := 2, price := 9, quantity := 5 },
    .submit { id := 3, side := .SELL, price := 10, quantity := 5 },
    .submit { id := 4, price := 10, quantity := 5 }]

/-- It is older than the order before it. -/
theorem lateStop_descends : ¬ ∀ s, ReachWhere Unset .insertion .REJECT 1 s →
    ∀ b, ∀ l ∈ s.view b, l.2.Pairwise (·.timestamp < ·.timestamp) := by
  intro h
  have hsome : ((runAll .insertion lateStop (.init .REJECT 1)).map fun r =>
      (r.2.view .BUY).map fun l => (l.2.map (·.timestamp))) = some [[2, 1]] := by
    decide +kernel
  obtain ⟨⟨_, s⟩, hrun, hval⟩ := Option.map_eq_some_iff.mp hsome
  have hs : ReachWhere Unset .insertion .REJECT 1 s :=
    ReachWhere.init.runAll (fun c hc _ t he => by subst he; simp [lateStop] at hc) hrun
  obtain ⟨l, hl, hts⟩ := List.mem_map.mp (hval ▸ List.mem_singleton_self _)
  have hp := List.pairwise_map.mpr (h s hs .BUY l hl)
  rw [hts] at hp
  exact absurd hp (by decide)

end MatchingEngine.Cpp
