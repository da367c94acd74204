import MatchingEngine.Cpp.Lives

/-!
# Where the quantity of an order goes

Without amendments, what an order was accepted with is what is left of it and what the history says
it has given up since: in trades on either side, and to self-trade decrements. It is so in every
state of a run and at the moment the order leaves.

`Mark.gives` is what one entry of the history takes from an order. In each change of a life the
remaining quantity goes down by what its entry says (`Life.gives`), and the quantity that was
accepted stays, so the equation is one induction on the life. `Unamended` rules out the call that
sets a quantity anew.
-/

namespace MatchingEngine.Cpp

open Lib

/-- What an order of the id gives up by an entry: the quantity of a trade that it is a party to, or
that of a decrement that names it. -/
def Mark.gives (id : UInt64) : Mark → ℤ
  | .executed t _ _ _ => if t.aggressorId = id ∨ t.passiveId = id then t.quantity else 0
  | .event (.onOrderDecremented i r q) => if i.id = id ∨ r.id = id then q else 0
  | _ => 0

/-- What a history says that the order of an id has given up since its acceptance. -/
def given (id : UInt64) (log : List Mark) : ℤ :=
  ((since (·.accepts id) log).map (·.gives id)).sum

/-- An entry that is not about an order gives it nothing. -/
theorem gives_of_not_about {id : UInt64} {m : Mark} (h : m.about id = false) : m.gives id = 0 := by
  cases m with
  | executed t inc r contra => exact if_neg (of_decide_eq_false h)
  | event e =>
    cases e with
    | onOrderDecremented i r q => exact if_neg (of_decide_eq_false h)
    | _ => rfl
  | _ => rfl

/-- It can be read off the story of the order. -/
theorem sum_story (id : UInt64) (log : List Mark) :
    ((story id log).map (·.gives id)).sum = given id log := by
  unfold given story
  induction since (·.accepts id) log with
  | nil => rfl
  | cons m ms ih =>
    rw [List.map_cons, List.sum_cons, ← ih]
    cases hm : m.about id with
    | true => rw [List.filter_cons_of_pos hm, List.map_cons, List.sum_cons]
    | false =>
      rw [List.filter_cons_of_neg (by rw [hm]; decide), gives_of_not_about hm, zero_add]

section Life

open Flat

variable {X : Special → Prop} {told new : List Mark} {ph ph' : Phase} {o o' : Order}

/-- In each change of a life the order loses what it gives up. -/
theorem Life.gives (h : Life X told ph o new ph' o') (hX : ¬ X .amend) :
    o'.quantity = o.quantity ∧ o.remainingQty = o'.remainingQty + (new.map (·.gives o.id)).sum := by
  cases h with
  | takes hd =>
    refine ⟨rfl, ?_⟩
    simp only [List.map_cons, List.map_nil, List.sum_cons, List.sum_nil, Mark.gives, hd.aggressor,
      true_or, if_true]
    omega
  | makesReload now hd =>
    refine ⟨rfl, ?_⟩
    simp only [List.map_cons, List.map_nil, List.sum_cons, List.sum_nil, Mark.gives, hd.passive,
      or_true, if_true, Order.reloaded, filledBy]
    omega
  | makesPart hd =>
    refine ⟨rfl, ?_⟩
    simp only [List.map_cons, List.map_nil, List.sum_cons, List.sum_nil, Mark.gives, hd.passive,
      or_true, if_true, Order.withStatus, filledBy]
    omega
  | makesAll hd =>
    refine ⟨rfl, ?_⟩
    simp only [List.map_cons, List.map_nil, List.sum_cons, List.sum_nil, Mark.gives, hd.passive,
      or_true, if_true, Order.withStatus, filledBy]
    omega
  | decrements =>
    refine ⟨rfl, ?_⟩
    simp only [List.map_cons, List.map_nil, List.sum_cons, List.sum_nil, Mark.gives, lessIncoming,
      true_or, if_true]
    omega
  | decrementedReload =>
    refine ⟨rfl, ?_⟩
    simp only [List.map_cons, List.map_nil, List.sum_cons, List.sum_nil, Mark.gives, lessResting,
      Order.reloaded, or_true, if_true]
    omega
  | decrementedPart =>
    refine ⟨rfl, ?_⟩
    simp only [List.map_cons, List.map_nil, List.sum_cons, List.sum_nil, Mark.gives, lessResting,
      or_true, if_true]
    omega
  | decrementedAll =>
    refine ⟨rfl, ?_⟩
    simp only [List.map_cons, List.map_nil, List.sum_cons, List.sum_nil, Mark.gives, lessResting,
      or_true, if_true]
    omega
  | amended _ _ _ hamend => exact absurd hamend hX
  | shrunk _ hamend => exact absurd hamend hX
  | _ => exact ⟨rfl, (add_zero _).symm⟩

/-- In a life without amendments, nothing of the quantity is lost. -/
theorem Lives.gives (h : Lives X told ph o) (hX : ¬ X .amend) :
    o.quantity = o.remainingQty + (told.map (·.gives o.id)).sum := by
  induction h with
  | accepted i now hv => exact (add_zero _).symm
  | next h hl ih =>
    obtain ⟨hq, hrem⟩ := hl.gives hX
    rw [hl.id, List.map_append, List.sum_append]
    omega

end Life

/-- A call other than `amendOrder`. -/
def Unamended (_ : Engine) (c : Call) : Prop := ∀ id newPx newQty, c ≠ .amend id newPx newQty

namespace Flat

/-- All acts but those of an amendment. -/
def NoAmend : Special → Prop
  | .amend => False
  | _ => True

/-- A call that amends nothing is covered. -/
theorem covers_noAmend {f : Flat} {s : Engine} {c : Call} (hc : Unamended s c) :
    Covers NoAmend f c := by
  cases c with
  | submit i =>
    exact ⟨trivial, trivial, fun _ hstop => ⟨nofun, hstop, fun _ _ _ _ _ => trivial,
      fun _ _ _ _ _ _ _ => trivial,
      .inl trivial, .inr (.inl trivial)⟩⟩
  | amend id newPx newQty => exact absurd rfl (hc id newPx newQty)
  | _ => trivial

end Flat

section Runs

variable {S : StdSort} {pop : PostOnlyPolicy} {tickSz : ℤ} {s : Engine}

/-- In a run without amendments, the quantity of every order that the engine has is what is left of
it and what it has given up, and that of an order that leaves is so when it leaves. -/
theorem quantity_accounted (hs : ReachWhere Unamended S pop tickSz s) :
    (∀ o ∈ s.flat.orders, o.quantity = o.remainingQty + given o.id s.log) ∧
    ∀ past o later, s.log = past ++ .left o :: later →
      o.quantity = o.remainingQty + given o.id past := by
  have hc : Flat.Chronicle Flat.NoAmend (s.flat, []) := hs.chronicle fun _ _ _ hr =>
    Flat.covers_noAmend hr
  refine ⟨fun o ho => ?_, fun past o later he => ?_⟩
  · obtain ⟨ph, hph⟩ := Flat.mem_at.mp (List.mem_append_left [] ho)
    have hl := (hc.here ph o hph).gives id
    rwa [sum_story] at hl
  · have hl := (hc.left past o later he).1.gives id
    have hlast : given o.id (past ++ [.left o]) = given o.id past := by
      unfold given
      rw [since_append (List.forall_mem_singleton.mpr rfl), List.map_append, List.sum_append]
      exact add_zero _
    rwa [sum_story, hlast] at hl

end Runs

/-- A sell iceberg of which two slices are taken and then a part by a decrement, and a buy order of
the same group that is decremented. -/
def icebergShared : List Call :=
  [.submit { id := 1, side := .SELL, price := 10, quantity := 10, displayQty := 3,
             selfTradeGroup := 7, stpPolicy := .DECREMENT },
    .submit { id := 2, price := 10, quantity := 4 },
    .submit { id := 3, price := 10, quantity := 3, selfTradeGroup := 7, stpPolicy := .DECREMENT }]

/-- The state after the calls, where seven of the ten are taken. -/
theorem quantity_accounted_iceberg : ∃ s, ReachWhere Unamended .insertion .REJECT 1 s ∧
    s.flat.orders.map (fun o => (o.id, o.remainingQty, given o.id s.log)) = [(1, 3, 7)] ∧
    (∀ o ∈ s.flat.orders, o.quantity = o.remainingQty + given o.id s.log) ∧
    ∀ past o later, s.log = past ++ .left o :: later →
      o.quantity = o.remainingQty + given o.id past := by
  have hsome : ((runAll .insertion icebergShared (.init .REJECT 1)).map fun r =>
      r.2.flat.orders.map fun o => (o.id, o.remainingQty, given o.id r.2.log)) = some [(1, 3, 7)] := by
    decide +kernel
  obtain ⟨⟨_, s⟩, hrun, hval⟩ := Option.map_eq_some_iff.mp hsome
  have hs : ReachWhere Unamended .insertion .REJECT 1 s :=
    ReachWhere.init.runAll
      (fun c hc _ id newPx newQty he => by subst he; simp [icebergShared] at hc) hrun
  exact ⟨s, hs, hval, quantity_accounted hs⟩

end MatchingEngine.Cpp
