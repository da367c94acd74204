import MatchingEngine.Cpp.Quantity

/-!
# The status of a resting order

A resting order that has traded is partially filled, in a run without amendments in which no fill
uses up the displayed slice of an order that is new and has more. Such a fill goes to the next slice
before it writes the status.

What a resting order has traded is read off the history (`traded`), and `Unnoted` is such a fill. A
life of `Cpp/Life.lean` without one keeps `Noted`, which relates the status to the story of the
order in each phase, by an induction on the life (`Life.noted`). `Cpp/Lives.lean` gives every order
of a run its life, and so the statement holds of every state of a run.
-/

namespace MatchingEngine.Cpp

open Lib

/-- Whether a history tells of a trade of the order of an id since its acceptance. -/
def traded (id : UInt64) (log : List Mark) : Bool := (since (·.accepts id) log).any (·.trades id)

/-- The trades of an order are those of its story. -/
theorem any_story (id : UInt64) (log : List Mark) :
    (story id log).any (·.trades id) = traded id log := by
  unfold traded story
  rw [List.any_filter]
  refine congrArg (List.any _) (funext fun m => ?_)
  cases m with
  | executed t inc r contra => exact Bool.and_self _
  | _ => exact Bool.and_false _

/-- A fill that uses up what an order shows that is new, where the order has more to show. -/
def Unnoted (t : Trade) (r : Order) : Prop :=
  r.status = .NEW ∧ Reloads (Flat.filledBy r t.quantity)

instance (t : Trade) (r : Order) : Decidable (Unnoted t r) := inferInstanceAs (Decidable (_ ∧ _))

/-- An entry that is of no trade that nothing notes. -/
def Mark.noted : Mark → Bool
  | .executed t _ r _ => ¬ Unnoted t r
  | _ => true

section Life

open Flat

variable {X : Special → Prop} {told new : List Mark} {ph ph' : Phase} {o o' : Order}

/-- What the story of an order tells of its status. -/
structure Noted (told : List Mark) (ph : Phase) (o : Order) : Prop where
  stop : o.orderType.isStop = true → told.any (·.trades o.id) = false
  sold : told.any (·.trades o.id) = true → Cpp.sold o.id told = true
  resting : ph = .resting → o.orderType.isStop = false ∧
    (o.status = .NEW ∧ told.any (·.trades o.id) = false ∨ o.status = .PARTIALLY_FILLED)

/-- Where nothing is written and an order in flight is changed. -/
theorem Noted.flying (h : Noted told ph o) (hid : o'.id = o.id)
    (hstop : o'.orderType.isStop = true → o.orderType.isStop = true) :
    Noted (told ++ []) .flying o' := by
  rw [List.append_nil]
  refine ⟨fun hs => ?_, fun ht => ?_, nofun⟩
  · rw [hid]
    exact h.stop (hstop hs)
  · rw [hid] at ht ⊢
    exact h.sold ht

/-- Entries that are of no trade of the order and do not start it. -/
theorem any_trades_append (h : ∀ m ∈ new, m.trades o.id = false) :
    (told ++ new).any (·.trades o.id) = told.any (·.trades o.id) := by
  have hnone : new.any (·.trades o.id) = false :=
    List.any_eq_false.mpr fun m hm => by rw [h m hm]; decide
  rw [List.any_append, hnone, Bool.or_false]

/-- Entries of no trade of an order do not sell any of it. -/
theorem sold_append (h : ∀ m ∈ new, m.trades o.id = false ∧ m.starts o.id = false) :
    Cpp.sold o.id (told ++ new) = Cpp.sold o.id told := by
  unfold Cpp.sold
  rw [since_append fun m hm => (h m hm).2, any_trades_append fun m hm => (h m hm).1]

/-- Where an entry is written that is of no trade and does not start the order. -/
theorem Noted.append {m : Mark} (h : Noted told ph o) (hid : o'.id = o.id)
    (hm : m.trades o.id = false ∧ m.starts o.id = false)
    (hstop : o'.orderType = o.orderType) (hph : ph' = .resting → ph = .resting)
    (hst : ph' = .resting → o'.status = o.status) : Noted (told ++ [m]) ph' o' := by
  have hnew : ∀ x ∈ [m], x.trades o.id = false ∧ x.starts o.id = false :=
    List.forall_mem_singleton.mpr hm
  have hany : (told ++ [m]).any (·.trades o.id) = told.any (·.trades o.id) :=
    any_trades_append fun m hm => (hnew m hm).1
  refine ⟨fun hs => ?_, fun ht => ?_, fun hp => ?_⟩
  · rw [hid, hany]
    exact h.stop (hstop ▸ hs)
  · rw [hid, hany] at ht
    rw [hid, sold_append hnew]
    exact h.sold ht
  · rw [hid, hany, hst hp, hstop]
    exact h.resting (hph hp)

/-- Where the order trades. -/
theorem Noted.trade {m : Mark} (hid : o'.id = o.id) (hm : m.trades o.id = true ∧ m.starts o.id = false)
    (hstop : o'.orderType.isStop = false) (hst : ph' = .resting → o'.status = .PARTIALLY_FILLED) :
    Noted (told ++ [m]) ph' o' := by
  refine ⟨fun hs => absurd (hs.symm.trans hstop) nofun, fun _ => ?_, fun hp => ⟨hstop, .inr (hst hp)⟩⟩
  rw [hid, sold_concat, if_neg (by rw [hm.2]; nofun), hm.1, Bool.or_true]

/-- Where an order comes to rest. -/
theorem Noted.rests {st : OrderStatus} (h : Noted told ph o) (hid : o'.id = o.id) (hst : o'.status = st)
    (hor : st = .NEW ∨ st = .PARTIALLY_FILLED) (hstop : o'.orderType.isStop = false)
    (hnew : st = .NEW → Cpp.sold o.id told = false) : Noted (told ++ []) .resting o' := by
  have hnone : st = .NEW → told.any (·.trades o.id) = false := fun hs =>
    Bool.eq_false_iff.mpr fun ht => by
      have hsold := h.sold ht
      rw [hnew hs] at hsold
      cases hsold
  rw [List.append_nil]
  refine ⟨fun hs => absurd (hs.symm.trans hstop) nofun, fun ht => ?_, fun _ => ⟨hstop, ?_⟩⟩
  · rw [hid] at ht ⊢
    exact h.sold ht
  · rw [hst, hid]
    exact hor.imp (fun hs => ⟨hs, hnone hs⟩) fun hs => hs

/-- Where a stop is triggered. -/
theorem Noted.triggered {m : Mark} (h : Noted told ph o) (hid : o'.id = o.id)
    (hm : m.trades o.id = false) (hstop : o.orderType.isStop = true) :
    Noted (told ++ [m]) .flying o' := by
  have hnone : (told ++ [m]).any (·.trades o.id) = false := by
    rw [any_trades_append (List.forall_mem_singleton.mpr hm)]
    exact h.stop hstop
  refine ⟨fun _ => by rw [hid, hnone], fun ht => ?_, nofun⟩
  rw [hid, hnone] at ht
  cases ht

/-- A change in a life without amendments in which no fill goes unnoted. -/
theorem Life.noted (hl : Life X told ph o new ph' o') (h : Noted told ph o) (hX : ¬ X .amend)
    (hX' : ¬ X .renewed) (hgone : ph' ≠ .gone)
    (hgood : ∀ t inc r contra, .executed t inc r contra ∈ new → ¬ Unnoted t r) :
    Noted (told ++ new) ph' o' := by
  cases hl with
  | takes hd hst hstop => exact .trade rfl ⟨decide_eq_true (.inl hd.aggressor), rfl⟩ hstop nofun
  | makesReload now hd hr =>
    obtain ⟨hstop, hst⟩ := h.resting rfl
    refine .trade rfl ⟨decide_eq_true (.inr hd.passive), rfl⟩ hstop fun _ => ?_
    rcases hst with ⟨hst, -⟩ | hst
    · exact absurd ⟨hst, hr⟩ (hgood _ _ _ _ List.mem_cons_self)
    · exact hst
  | makesPart hd hrem =>
    exact .trade rfl ⟨decide_eq_true (.inr hd.passive), rfl⟩ (h.resting rfl).1 fun _ => rfl
  | decrements => exact h.append rfl ⟨rfl, rfl⟩ rfl nofun nofun
  | decrementedReload now hne hrem =>
    exact h.append rfl ⟨rfl, rfl⟩ rfl (fun _ => rfl) fun _ => if_neg hrem
  | decrementedPart hne hrem => exact h.append rfl ⟨rfl, rfl⟩ rfl (fun _ => rfl) fun _ => if_neg hrem
  | withdraws => exact h.append rfl ⟨rfl, rfl⟩ rfl nofun nofun
  | cancels => exact h.append rfl ⟨rfl, rfl⟩ rfl nofun nofun
  | fills => exact h.flying rfl fun hs => hs
  | rests price hst hold hstop hnew =>
    exact h.rests rfl rfl hst hstop fun hs => (hnew hs).resolve_left hX'
  | unlinked => exact h.flying rfl fun hs => hs
  | parked htype hst =>
    rw [List.append_nil]
    exact ⟨h.stop, h.sold, nofun⟩
  | woken => exact h.flying rfl fun hs => hs
  | triggered htype => exact h.triggered rfl rfl htype
  | limited price minQty htype => exact h.flying rfl nofun
  | loosened => exact h.flying rfl fun hs => hs
  | amended _ _ _ hamend => exact absurd hamend hX
  | shrunk _ hamend => exact absurd hamend hX
  | _ => exact absurd rfl hgone

/-- A life without amendments in which no fill goes unnoted. -/
theorem Lives.noted (h : Lives X told ph o) (hX : ¬ X .amend) (hX' : ¬ X .renewed) (hgone : ph ≠ .gone)
    (hgood : ∀ t inc r contra, .executed t inc r contra ∈ told → ¬ Unnoted t r) : Noted told ph o := by
  induction h with
  | accepted i now hv => exact ⟨fun _ => rfl, nofun, nofun⟩
  | next h hl ih =>
    have hhere := ih (fun hp => by subst hp; cases hl) fun t inc r contra hm =>
      hgood t inc r contra (List.mem_append_left _ hm)
    exact hl.noted hhere hX hX' hgone fun t inc r contra hm =>
      hgood t inc r contra (List.mem_append_right _ hm)

end Life

namespace Flat

/-- All acts but those of an amendment, and but that an order that has traded rests as a new one. -/
def Candid : Special → Prop
  | .amend => False
  | .renewed => False
  | _ => True

/-- An order that has just been accepted has not traded. -/
theorem covers_candid {f : Flat} {s : Engine} {c : Call} (hc : Unamended s c) : Covers Candid f c := by
  cases c with
  | submit i =>
    exact ⟨trivial, trivial, fun _ hstop => ⟨nofun, hstop, fun _ _ _ _ _ => trivial,
      fun _ _ _ _ _ _ _ => trivial,
      .inr (sold_started (decide_eq_true rfl)), .inr (.inl trivial)⟩⟩
  | amend id newPx newQty => exact absurd rfl (hc id newPx newQty)
  | _ => trivial

end Flat

section Runs

variable {S : StdSort} {pop : PostOnlyPolicy} {tickSz : ℤ} {s : Engine}

/-- In a run without amendments in which no fill uses up the displayed slice of a new order that has
more to show, every resting order that has traded is partially filled. -/
theorem status_of_traded (hs : ReachWhere Unamended S pop tickSz s)
    (hgood : ∀ t inc r contra, .executed t inc r contra ∈ s.log → ¬ Unnoted t r) :
    ∀ b, ∀ o ∈ (s.view b).orders, traded o.id s.log = true → o.status = .PARTIALLY_FILLED := by
  have hc : Flat.Chronicle Flat.Candid (s.flat, []) := hs.chronicle fun _ _ _ hr =>
    Flat.covers_candid hr
  intro b o ho ht
  have hrest : o ∈ s.flat.at [] .resting := Flat.mem_resting.mpr ⟨b, by rwa [Engine.side_flat]⟩
  have hstory : ∀ m ∈ story o.id s.log, m ∈ s.log := fun m hm =>
    (List.rtakeWhile_suffix _ _).subset (List.mem_filter.mp hm).1
  have hn := (hc.here .resting o hrest).noted id id nofun fun t inc r contra hm =>
    hgood t inc r contra (hstory _ hm)
  rcases (hn.resting rfl).2 with ⟨-, hnone⟩ | hst
  · rw [any_story] at hnone
    rw [show traded o.id s.log = traded o.id s.flat.tape.log from rfl, hnone] at ht
    cases ht
  · exact hst

end Runs

/-- An iceberg of which a part of a slice is taken, and then the rest of the slice. -/
def icebergInParts : List Call :=
  [.submit { id := 1, side := .SELL, price := 10, quantity := 10, displayQty := 3 },
    .submit { id := 2, price := 10, quantity := 1 },
    .submit { id := 3, price := 10, quantity := 2 }]

/-- The state after both parts of the slice are taken. -/
theorem status_of_traded_iceberg : ∃ s, ReachWhere Unamended .insertion .REJECT 1 s ∧
    (s.view .SELL).orders.map (fun o => (o.id, traded o.id s.log)) = [(1, true)] ∧
    ∀ b, ∀ o ∈ (s.view b).orders, traded o.id s.log = true → o.status = .PARTIALLY_FILLED := by
  have hsome : ((runAll .insertion icebergInParts (.init .REJECT 1)).map fun r =>
      ((r.2.view .SELL).orders.map fun o => (o.id, traded o.id r.2.log),
        r.2.log.all (·.noted))) = some ([(1, true)], true) := by
    decide +kernel
  obtain ⟨⟨_, s⟩, hrun, hval⟩ := Option.map_eq_some_iff.mp hsome
  obtain ⟨htraded, hgood⟩ := Prod.mk.inj hval
  have hs : ReachWhere Unamended .insertion .REJECT 1 s :=
    ReachWhere.init.runAll
      (fun c hc _ id newPx newQty he => by subst he; simp [icebergInParts] at hc) hrun
  refine ⟨s, hs, htraded, status_of_traded hs fun t inc r contra hm => ?_⟩
  exact of_decide_eq_true (List.all_eq_true.mp hgood _ hm)

/-- An iceberg of which a slice is taken. -/
def icebergSlice : List Call :=
  [.submit { id := 1, side := .SELL, price := 10, quantity := 10, displayQty := 3 },
    .submit { id := 2, price := 10, quantity := 3 }]

/-- It has traded and is new. -/
theorem icebergSlice_new : ¬ ∀ s, ReachWhere Unamended .insertion .REJECT 1 s →
    ∀ b, ∀ o ∈ (s.view b).orders, traded o.id s.log = true → o.status = .PARTIALLY_FILLED := by
  intro h
  have hsome : ((runAll .insertion icebergSlice (.init .REJECT 1)).map fun r =>
      (r.2.view .SELL).orders.any fun o => traded o.id r.2.log ∧ o.status = .NEW) = some true := by
    decide +kernel
  obtain ⟨⟨_, s⟩, hrun, hval⟩ := Option.map_eq_some_iff.mp hsome
  have hs : ReachWhere Unamended .insertion .REJECT 1 s :=
    ReachWhere.init.runAll
      (fun c hc _ id newPx newQty he => by subst he; simp [icebergSlice] at hc) hrun
  obtain ⟨o, ho, hx⟩ := List.any_eq_true.mp hval
  obtain ⟨ht, hst⟩ := of_decide_eq_true hx
  exact absurd ((h s hs .SELL o ho ht).symm.trans hst) nofun

end MatchingEngine.Cpp
