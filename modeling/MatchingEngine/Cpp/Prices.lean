import MatchingEngine.Cpp.History
import MatchingEngine.Cpp.Structure
import MatchingEngine.Cpp.Totality

/-!
# Prices are positive

Zero stands for no price, so a level at zero or below would be taken for something else. Every price
of an accepted order is positive, a market-to-limit order takes the price of a trade, and only the
repricing of a post-only order can reach zero: a tick below a best ask of one tick is nothing. In a
run in which no repricing does, every level and every trade has a positive price.
-/

namespace MatchingEngine.Cpp

open Lib

/-- The price of a post-only order that would cross, against the best price of the other side. -/
def repriced (tickSz : ℤ) (o : Order) (best : ℤ) : ℤ :=
  if o.side = .BUY then wrap64 (best - tickSz) else wrap64 (best + tickSz)

namespace Flat

variable {X : Special → Prop} {f f' : Flat} {fl fl' : List Order} {tickSz : ℤ}

/-- A repricing is to a positive price. -/
def Afloat (tickSz : ℤ) : Special → Prop
  | .reprice o best => 0 < repriced tickSz o best
  | _ => True

/-- An order whose type has a limit has a positive one. -/
def Limited (o : Order) : Prop := o.orderType = .LIMIT ∨ o.orderType = .STOP_LIMIT → 0 < o.price

/-- What holds of the prices after every act. -/
structure Priced (f : Flat) (fl : List Order) : Prop where
  levels : ∀ b, ∀ l ∈ f.side b, 0 < l.1
  flight : ∀ o ∈ fl, Limited o
  trades : ∀ t ∈ f.tape.trades, 0 < t.price

/-- The order that is worked on has a price, if it is to rest at one. -/
theorem Priced.head {o : Order} (h : Priced f (o :: fl)) : Limited o := h.flight o List.mem_cons_self

/-- A resting order has the price of its level. -/
theorem Priced.resting {b : Side} {o : Order} (h : Priced f fl) (hi : Inv f fl)
    (ho : o ∈ (f.side b).orders) : 0 < o.price := by
  obtain ⟨l, hl, ho⟩ := Levels.mem_orders.mp ho
  rw [((hi.sides b).rest l hl o ho).price]
  exact h.levels b l hl

/-- The flight changes, and the books do not. -/
theorem Priced.withFlight {t : Tape} (h : Priced f fl) (hfl : ∀ o ∈ fl', Limited o)
    (ht : t.trades ⊆ f.tape.trades) : Priced (f.withTape t) fl' where
  levels b l hl := h.levels b l (by rwa [side_withTape] at hl)
  flight := hfl
  trades t' ht' := h.trades t' (ht ht')

/-- The order in flight that is worked on is replaced by one with its price and its type. -/
theorem Priced.update {t : Tape} {o o' : Order} (h : Priced f (o :: fl)) (hp : o'.price = o.price)
    (htype : o'.orderType = o.orderType) (ht : t.trades ⊆ f.tape.trades) :
    Priced (f.withTape t) (o' :: fl) := by
  refine h.withFlight (List.forall_mem_cons.mpr ⟨fun hl => ?_, fun x hx => ?_⟩) ht
  · rw [hp]
    exact h.head (htype ▸ hl)
  · exact h.flight x (List.mem_cons_of_mem _ hx)

/-- An order in flight leaves. -/
theorem Priced.leave {t : Tape} {o : Order} (h : Priced f (o :: fl)) (ht : t.trades ⊆ f.tape.trades) :
    Priced (f.withTape t) fl :=
  h.withFlight (fun x hx => h.flight x (List.mem_cons_of_mem _ hx)) ht

/-- A side is written. -/
theorem Priced.setSide {b : Side} {m : Levels} (h : Priced f fl) (hm : ∀ l ∈ m, 0 < l.1) :
    Priced (f.setSide b m) fl where
  levels b' l hl := by
    by_cases hb : b' = b
    · rw [hb, side_setSide] at hl
      exact hm l hl
    · have hb : b' = oppositeSide b := eq_oppositeSide hb
      rw [hb, side_setSide_opposite'] at hl
      exact h.levels _ l hl
  flight := h.flight
  trades t ht := h.trades t (by rwa [tape_setSide] at ht)

/-- A queue in front of the levels that were behind it. -/
theorem Priced.front {b : Side} {p : ℤ} {q : List Order} {m : Levels} (h : Priced f fl)
    (hside : f.side b = (p, q) :: m) (q' : List Order) : Priced (f.setSide b (front p q' m)) fl := by
  refine h.setSide fun l hl => ?_
  rcases Levels.mem_front hl with ⟨rfl, -⟩ | hl
  · exact h.levels b (p, q) (by rw [hside]; exact List.mem_cons_self)
  · exact h.levels b l (by rw [hside]; exact List.mem_cons_of_mem _ hl)

/-- An order comes to rest. -/
theorem Priced.rest {o : Order} {st : OrderStatus} (h : Priced f fl) (ho : 0 < o.price) :
    Priced (f.rest o st) fl := by
  have hset : ∀ m : Levels, (∀ l ∈ m, 0 < l.1) → ∀ t : Tape, t.trades ⊆ f.tape.trades →
      Priced ((f.setSide o.side m).withTape t) fl := fun m hm t ht =>
    (h.setSide hm).withFlight h.flight (by rwa [tape_setSide])
  refine hset _ (fun l hl => ?_) _ fun _ ht => ht
  rcases Levels.mem_enqueue hl with hl | rfl | ⟨q, hq, rfl⟩
  · exact h.levels _ l hl
  · exact ho
  · exact ho

/-- A trade is made at the price of the resting order. -/
theorem Priced.trade {inc r inc' : Order} {p : ℤ} {q : List Order} {m : Levels} {fate : Fate} {t : Tape}
    (h : Priced f (inc :: fl)) (hi : Inv f (inc :: fl))
    (hside : f.side (oppositeSide inc.side) = (p, r :: q) :: m)
    (hfill : Flat.fill ((p, r :: q) :: m) inc r f.tape = some (inc', fate, t)) :
    Priced ((f.setSide (oppositeSide inc.side) (Cpp.front p (fate.requeue q) m)).withTape t)
      (inc' :: fl) := by
  have hr : 0 < r.price := h.resting hi (b := oppositeSide inc.side)
    (by rw [hside]; exact List.mem_append_left _ List.mem_cons_self)
  have hf := h.front hside (fate.requeue q)
  obtain ⟨-, he⟩ := fill_eq hfill
  obtain ⟨rfl, hft⟩ := Prod.mk.inj he
  have htrades := congrArg (fun r : Fate × Tape => r.2.trades) hft
  dsimp only at htrades
  rw [trades_afterFill] at htrades
  refine ⟨fun b l hl => hf.levels b l (by rwa [side_withTape] at hl), List.forall_mem_cons.mpr ?_,
    fun t' ht' => ?_⟩
  · exact ⟨h.head, fun x hx => h.flight x (List.mem_cons_of_mem _ hx)⟩
  · rw [tape_withTape, htrades] at ht'
    rcases List.mem_append.mp ht' with ht' | ht'
    · exact h.trades t' ht'
    · rw [List.mem_singleton.mp ht']
      exact hr

/-- An act keeps the prices positive. -/
theorem Priced.step (h : Priced f fl) (hi : Inv f fl) (htick : f.tape.tickSz = tickSz)
    (hact : Step (Afloat tickSz) (f, fl) (f', fl')) : Priced f' fl' := by
  cases hact with
  | perm hp => exact ⟨h.levels, fun o ho => h.flight o (hp.mem_iff.mpr ho), h.trades⟩
  -- A trade has the price of the resting order, which is positive.
  | trade hside hrem hm hc hpo hst hstop hfill => exact h.trade hi hside hfill
  | selfTrade hside hrem hm hc hst hstop hpo =>
    rename_i fl inc r p q m
    have halike := alike_handleStp inc r f.tape
    refine (h.front hside _).update ?_ ?_ ?_
    · rw [halike]
    · rw [halike]
    · rw [trades_handleStp, tape_setSide]
      exact fun _ ht => ht
  | drop hside => exact h.setSide fun l hl => h.levels _ l (hside ▸ List.mem_cons_of_mem _ hl)
  | filled => exact h.update rfl rfl fun _ ht => ht
  | cancel => exact h.update rfl rfl fun _ ht => ht
  | kill => exact h.leave fun _ ht => ht
  | recancel => exact h.leave fun _ ht => ht
  -- Limit orders in flight have positive prices, and only they come to rest.
  | rest hst hold hrem htype =>
    exact (h.leave fun _ ht => ht).rest (h.head (.inl htype))
  | passive hpo =>
    exact (h.leave fun _ ht => ht).rest (h.head (.inl (hi.head.postOnly hpo).2.1))
  -- The one price that is computed: that it is positive is the condition on the act.
  | reprice hpo hold hside hX hrep =>
    obtain ⟨rfl, rfl⟩ := Prod.mk.inj (reprice_eq hside hrep)
    refine Priced.rest (Priced.leave h fun _ ht => ht) ?_
    dsimp only
    rw [htick]
    exact hX
  | leave => exact h.leave fun _ ht => ht
  | report => exact h.withFlight h.flight fun _ ht => ht
  -- A stop that wakes has had its prices checked on acceptance.
  | wake hp =>
    refine ⟨fun b l hl => h.levels b l (by cases b <;> exact hl), List.forall_mem_append.mpr ?_,
      h.trades⟩
    refine ⟨fun o ho hl => ?_, h.flight⟩
    have hd := hi.stops o (hp.mem_iff.mpr (List.mem_append_left _ ho))
    rcases hl with hl | hl
    · exact absurd hd.type (by rw [hl]; nofun)
    · exact hd.limit hl
  -- A market order has no price to check, and a limit order keeps the one it had.
  | trigger =>
    refine h.withFlight (List.forall_mem_cons.mpr ⟨fun hl => ?_, fun x hx => ?_⟩) fun _ ht => ht
    · rename_i o htype
      refine h.head (.inr ?_)
      revert hl
      unfold Flat.trigger
      dsimp only
      split
      · exact fun _ => ‹_›
      · rintro (hl | hl) <;> cases hl
    · exact h.flight x (List.mem_cons_of_mem _ hx)
  | park =>
    exact ⟨fun b l hl => h.levels b l (by cases b <;> exact hl),
      fun x hx => h.flight x (List.mem_cons_of_mem _ hx), h.trades⟩
  -- The price of the first trade of the match.
  | toLimit htype ht =>
    exact h.withFlight (List.forall_mem_cons.mpr
      ⟨fun _ => h.trades _ ht, fun x hx => h.flight x (List.mem_cons_of_mem _ hx)⟩) fun _ ht => ht
  | loosen => exact h.update rfl rfl fun _ ht => ht
  | tick => exact h.withFlight h.flight fun _ ht => ht
  | setTime => exact h.withFlight h.flight fun _ ht => ht
  -- Forgetting trades leaves fewer to check.
  | clear => exact h.withFlight h.flight fun _ ht => absurd ht List.not_mem_nil
  | reject => exact h.withFlight h.flight fun _ ht => ht
  | accept i hfresh hv hX =>
    have hvalid := valid_of_validate hv
    exact h.withFlight (List.forall_mem_singleton.mpr fun hl =>
      hl.elim hvalid.limit hvalid.stopLimit) fun _ ht => ht
  | unlink ho hX =>
    rename_i b o
    have hp := h.resting hi ho
    have hset : Priced (f.unlink b o) fl := h.setSide fun l hl => by
      rcases mem_pull_level hl with hl | ⟨-, q, hq, -⟩
      · exact h.levels b l hl
      · exact h.levels b (l.1, q) hq
    exact ⟨hset.levels, List.forall_mem_cons.mpr ⟨fun _ => hp, hset.flight⟩, hset.trades⟩
  -- An amended price is taken only when it is positive.
  | amend =>
    refine h.withFlight (List.forall_mem_cons.mpr ⟨fun hl => ?_, fun x hx => ?_⟩) fun _ ht => ht
    · unfold amended
      dsimp only
      split
      · assumption
      · exact h.head hl
    · exact h.flight x (List.mem_cons_of_mem _ hx)
  | shrink hX ho =>
    refine h.setSide fun l hl => ?_
    obtain ⟨l₀, hl₀, rfl⟩ := List.mem_map.mp hl
    exact h.levels _ l₀ hl₀
  | expire => exact h.leave fun _ ht => ht

/-- A post-only order that would cross, and that is repriced to nothing or less. -/
def sinks (o : Order) (f : Flat) : Bool :=
  o.postOnly && wouldCross o f && f.tape.poPol ≠ .REJECT &&
    (f.side (oppositeSide o.side)).head?.any fun l => repriced f.tape.tickSz o l.1 ≤ 0

/-- A repriced order that does not sink has a positive price. -/
theorem repriced_pos {o : Order} {l : ℤ × List Order} (h : sinks o f = false)
    (hpo : o.postOnly = true) (hcross : wouldCross o f = true) (hpol : f.tape.poPol ≠ .REJECT)
    (hl : l ∈ (f.side (oppositeSide o.side)).head?) : 0 < repriced f.tape.tickSz o l.1 := by
  unfold sinks at h
  rw [hpo, hcross, decide_eq_true hpol, Option.mem_def.mp hl] at h
  exact Int.not_le.mp (of_decide_eq_false h)

/-- Only the other side of the book matters. -/
theorem wouldCross_congr {o : Order}
    (h : f'.side (oppositeSide o.side) = f.side (oppositeSide o.side)) :
    wouldCross o f' = wouldCross o f := by
  unfold wouldCross
  cases hs : o.side with
  | BUY =>
    rw [hs] at h
    rw [show f'.asks = f.asks from h]
  | SELL =>
    rw [hs] at h
    rw [show f'.bids = f.bids from h]

end Flat

/-- The order that a call comes to work on with the books as they are, if it comes to one. -/
def Engine.incoming (s : Engine) : Call → Option Order
  | .submit i =>
    if s.hasOrder i.id = false ∧ validate (s.now_ + 1) (i.order (s.now_ + 1)) = none then
      some (i.order (s.now_ + 1))
    else none
  | .amend id newPx newQty =>
    match s.flat.locate id with
    | some (.resting _ o) => some (Flat.amended o newPx newQty (s.now_ + 1))
    | _ => none
  | _ => none

/-- The order that a submission sends through the pipeline. -/
theorem Engine.incoming_submit {s : Engine} {i : OrderInput}
    (h : s.hasOrder i.id = false ∧ validate (s.now_ + 1) (i.order (s.now_ + 1)) = none) :
    s.incoming (.submit i) = some (i.order (s.now_ + 1)) := if_pos h

/-- The order that an amendment sends through the pipeline. -/
theorem Engine.incoming_amend {s : Engine} {id : UInt64} {newPx newQty : ℤ} {b : Side} {o : Order}
    (h : s.flat.locate id = some (.resting b o)) :
    s.incoming (.amend id newPx newQty) = some (Flat.amended o newPx newQty (s.now_ + 1)) := by
  change (match s.flat.locate id with
    | some (.resting _ o) => some (Flat.amended o newPx newQty (s.now_ + 1))
    | _ => none) = _
  rw [h]

/-- A call whose order is not repriced to nothing or less. -/
def buoyant (s : Engine) (c : Call) : Bool := (s.incoming c).all fun o => !Flat.sinks o s.flat

/-- No order of a buoyant call sinks. -/
theorem sinks_of_buoyant {s : Engine} {c : Call} {o : Order} (h : buoyant s c = true)
    (ho : s.incoming c = some o) : Flat.sinks o s.flat = false := by
  unfold buoyant at h
  rwa [ho, Option.all_some, Bool.not_eq_true'] at h

section Runs

variable {S : StdSort} {pop : PostOnlyPolicy} {tickSz : ℤ} {s : Engine}

/-- The tick size is the one that the engine was made with. -/
theorem Reach.tick_size (hs : Reach S pop tickSz s) : s.flat.tape.tickSz = tickSz :=
  hs.rule (J := fun x => x.1.tape.tickSz = tickSz) rfl fun _ _ _ hj hact =>
    (Flat.Step.settings hact).1.trans hj

/-- A buoyant call is covered. -/
theorem covers_buoyant {c : Call} (hs : Reach S pop tickSz s) (hc : buoyant s c = true) :
    Flat.Covers (Flat.Afloat tickSz) s.flat c := by
  have htick := hs.tick_size
  cases c with
  | submit i =>
    refine ⟨trivial, trivial, fun hadm hstop => ⟨nofun, hstop, fun hpo hcross hpol l hl => ?_,
      fun _ _ _ _ _ _ _ => trivial, .inl trivial, .inr (.inl trivial)⟩⟩
    have hsinks := sinks_of_buoyant hc (Engine.incoming_submit ((hs.admitted i).mp hadm))
    rw [← htick]
    exact Flat.repriced_pos hsinks hpo hcross hpol hl
  | amend id newPx newQty =>
    refine ⟨trivial, trivial, trivial, fun b o hl => ?_⟩
    obtain ⟨l, hlm, hol⟩ := Levels.mem_orders.mp (Flat.mem_of_locate hl).1
    have hr := (hs.inv.sides b).rest l hlm o hol
    have hany := hr.ready newPx newQty (s.flat.tape.now + 1) s.flat
    -- The other side is as it was when the order was in its queue.
    have hside : (s.flat.unlink b o).side (oppositeSide o.side) = s.flat.side
        (oppositeSide o.side) := by
      unfold Flat.unlink
      rw [hr.side, Flat.side_setSide_opposite']
    refine ⟨hany.status, hany.notStop, fun hpo hcross hpol l' hl' => ?_, fun _ _ _ _ _ _ _ => trivial,
      .inl trivial, .inr (.inl trivial)⟩
    rw [Flat.wouldCross_congr (f := s.flat) (by exact hside)] at hcross
    have hsinks := sinks_of_buoyant hc (Engine.incoming_amend hl)
    rw [← htick]
    exact Flat.repriced_pos hsinks hpo hcross hpol (hside ▸ hl')
  | _ => trivial

/-- In a run in which no post-only order is repriced to nothing or less, every resting order and
every trade has a positive price. -/
theorem prices_positive (hs : ReachWhere (buoyant · ·) S pop tickSz s) :
    (∀ b, ∀ o ∈ (s.view b).orders, 0 < o.price) ∧
    ∀ t inc r contra, .executed t inc r contra ∈ s.log → 0 < t.price := by
  have hboth := hs.rule (X := Flat.Afloat tickSz)
    (J := fun x => x.1.Priced x.2 ∧ x.1.tape.tickSz = tickSz ∧
      ∀ t inc r contra, .executed t inc r contra ∈ x.1.tape.log → 0 < t.price)
    ⟨⟨fun b l hl => (by cases b <;> cases hl), fun o ho => absurd ho List.not_mem_nil,
      fun t ht => absurd ht List.not_mem_nil⟩, rfl, fun _ _ _ _ hm => absurd hm List.not_mem_nil⟩ ?_
    fun s c hr hc => covers_buoyant hr hc
  · exact ⟨fun b o ho => hboth.1.resting hs.reach.inv (by rwa [Engine.side_flat]), hboth.2.2⟩
  · rintro x y hi ⟨hp, htick, hlog⟩ hact
    refine ⟨hp.step hi htick hact, (Flat.Step.settings hact).1.trans htick, fun t inc r contra hm => ?_⟩
    obtain ⟨new, he, -, hnew⟩ := hact.executed
    rw [he] at hm
    rcases List.mem_append.mp hm with hm | hm
    · exact hlog t inc r contra hm
    · have hx := hnew t inc r contra hm
      obtain ⟨p, q, m, hcontra, -⟩ := hx.head
      rw [hx.trade]
      refine hp.resting hi (b := oppositeSide inc.side) ?_
      rw [hx.side, hcontra]
      exact List.mem_append_left _ List.mem_cons_self

end Runs

/-- A bid, and an ask at its price that is repriced a tick above it, and then taken. -/
def repricedUp : List Call :=
  [.submit { id := 1, price := 1, quantity := 5 },
    .submit { id := 2, side := .SELL, price := 1, quantity := 5, postOnly := true },
    .submit { id := 3, price := 2, quantity := 5 }]

/-- The state after the calls: the repriced order was taken at two, and the bid is left at one. -/
theorem prices_positive_repricedUp : ∃ s, ReachWhere (buoyant · ·) .insertion .REPRICE 1 s ∧
    (s.view .BUY).orders.map (·.price) = [1] ∧
    (∀ b, ∀ o ∈ (s.view b).orders, 0 < o.price) ∧
    ∀ t inc r contra, .executed t inc r contra ∈ s.log → 0 < t.price := by
  have hsome : ((runWhere .insertion buoyant repricedUp (.init .REPRICE 1)).map fun r =>
      (r.2.view .BUY).orders.map (·.price)) = some [1] := by
    decide +kernel
  obtain ⟨⟨_, s⟩, hrun, hval⟩ := Option.map_eq_some_iff.mp hsome
  have hs : ReachWhere (buoyant · ·) .insertion .REPRICE 1 s :=
    ReachWhere.init.runWhere (fun _ _ h => h) hrun
  exact ⟨s, hs, hval, prices_positive hs⟩

/-- An ask of one tick, and a bid that would take it and is repriced. -/
def repricedDown : List Call :=
  [.submit { id := 1, side := .SELL, price := 1, quantity := 5 },
    .submit { id := 2, price := 1, quantity := 5, postOnly := true }]

/-- It rests at no price. -/
theorem repricedDown_zero : ¬ ∀ s, Reach .insertion .REPRICE 1 s →
    ∀ b, ∀ o ∈ (s.view b).orders, 0 < o.price := by
  intro h
  have hsome : ((runAll .insertion repricedDown (.init .REPRICE 1)).map fun r =>
      (r.2.view .BUY).orders.any fun o => o.price ≤ 0) = some true := by
    decide +kernel
  obtain ⟨⟨_, s⟩, hrun, hval⟩ := Option.map_eq_some_iff.mp hsome
  obtain ⟨o, ho, hle⟩ := List.any_eq_true.mp hval
  exact absurd (h s (Reach.init.runAll hrun) .BUY o ho) (Int.not_lt.mpr (of_decide_eq_true hle))

end MatchingEngine.Cpp
