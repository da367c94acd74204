import MatchingEngine.Cpp.Totality

/-!
# What an amendment does

`amendOrder` finds the order of an id where it rests, and shrinks it there, or takes it out of its
queue and hands it to the pipeline as an order that has lost its place, or does nothing. Each
outcome has a constructor of `Amends`, with what the code has tested when it comes to it.

Between two calls the orders afoot have distinct ids (`nodup_afoot`), so looking an id up finds the
order that has it. `amends` is the case analysis of the function, once and for all. `reentry` says
that where the order enters the pipeline again, with the new price, quantity, and time, the engine
without it is in order.
-/

namespace MatchingEngine.Cpp

open Lib

/-- Whether an amendment costs an order its place: it changes the price or raises the quantity. -/
def LosesPlace (o : Order) (newPx newQty : ℤ) : Prop :=
  0 < newPx ∧ newPx ≠ o.price ∨ 0 < newQty ∧ o.remainingQty < newQty

namespace Flat

variable {S : StdSort} {f f' : Flat} {fl : List Order} {b : Side} {o : Order} {id : UInt64}
  {newPx newQty : ℤ}

/-- The ids of the orders that do not rest. -/
def afoot (f : Flat) (fl : List Order) : List UInt64 := (f.stops ++ fl).map (·.id)

/-- No id is afoot twice. -/
theorem nodup_afoot (hi : Inv f fl) : (f.afoot fl).Nodup := by
  refine hi.ids.sublist (List.Sublist.map _ ?_)
  refine List.Sublist.append_right ?_ fl
  exact (List.sublist_append_right _ _).trans (List.sublist_append_right _ _)

/-- The one order of an id. -/
theorem eq_of_id (hi : Inv f []) {x : Order} (hx : x ∈ f.orders) (ho : o ∈ f.orders) (h : x.id = o.id) :
    x = o :=
  List.inj_on_of_nodup_map hi.tidy.ids hx ho h

/-- An order is found by its id. -/
theorem find?_resting {os : List Order} (h : ∀ x ∈ os, x.id = o.id → x = o) (ho : o ∈ os) :
    os.find? (fun x => x.id = o.id) = some o := by
  cases hf : os.find? fun x => x.id = o.id with
  | none => exact absurd (decide_eq_true rfl) (List.find?_eq_none.mp hf o ho)
  | some x =>
    have hid : x.id = o.id := by simpa using List.find?_some hf
    rw [h x (List.mem_of_find?_eq_some hf) hid]

/-- A resting order is found where it is. -/
theorem locate_resting (hi : Inv f []) (ho : o ∈ (f.side b).orders) :
    f.locate o.id = some (.resting b o) := by
  have hone : ∀ b', ∀ x ∈ (f.side b').orders, x.id = o.id → x = o := fun b' x hx =>
    eq_of_id hi (mem_orders hx) (mem_orders ho)
  unfold locate
  cases b with
  | BUY => rw [show f.bids.orders.find? _ = _ from find?_resting (hone .BUY) ho]
  | SELL =>
    have hnone : f.bids.orders.find? (fun x => x.id = o.id) = none := by
      refine List.find?_eq_none.mpr fun x hx hid => ?_
      obtain rfl := hone .BUY x hx (of_decide_eq_true hid)
      have hb := (hi.tidy.side .BUY x hx).symm.trans (hi.tidy.side .SELL x ho)
      cases hb
    rw [hnone, show f.asks.orders.find? _ = _ from find?_resting (hone .SELL) ho]

/-- What `cancelOrder` does with a resting order. -/
theorem cancelOrder_resting (hi : Inv f []) (ho : o ∈ (f.side b).orders) :
    cancelOrder o.id f = (true, kill o "USER_REQUESTED" (f.unlink b o)) := by
  unfold cancelOrder
  rw [locate_resting hi ho]
  dsimp only
  rw [if_pos (hi.tidy.status o (mem_orders ho))]

/-- What `amendOrder` does. -/
inductive Amends (S : StdSort) (id : UInt64) (newPx newQty : ℤ) (f : Flat) : Bool × Flat → Prop
  /-- No order of the id rests. -/
  | missing (h : ∀ b, ∀ o ∈ (f.side b).orders, o.id ≠ id) : Amends S id newPx newQty f (false, f)
  /-- The order gets a smaller quantity where it is. -/
  | shrinks {b : Side} {o : Order} (ho : o ∈ (f.side b).orders) (hid : o.id = id) (hpos : 0 < newQty)
      (hlt : newQty < o.remainingQty) (hkeep : ¬ LosesPlace o newPx newQty) :
      Amends S id newPx newQty f (true, f.setSide b (change id (fun o =>
        { o with remainingQty := newQty, visibleQty := min o.visibleQty newQty }) (f.side b)))
  /-- The order loses its place and enters the pipeline again. -/
  | reenters {b : Side} {o : Order} {f' : Flat} (ho : o ∈ (f.side b).orders) (hid : o.id = id)
      (hlose : LosesPlace o newPx newQty)
      (hp : processActive S (amended o newPx newQty (f.tape.now + 1)) 0
        ((f.unlink b o).withTape f.tape.tick).clear = some f') : Amends S id newPx newQty f (true, f')
  /-- Nothing changes. -/
  | idle {b : Side} {o : Order} (ho : o ∈ (f.side b).orders) (hid : o.id = id)
      (hkeep : ¬ LosesPlace o newPx newQty) (hle : newQty ≤ 0 ∨ newQty = o.remainingQty) :
      Amends S id newPx newQty f (true, f)

/-- `amendOrder` refuses, shrinks an order in its place, or sends it through the pipeline again. -/
theorem amends (hi : Inv f []) {r : Bool × Flat} (h : amendOrder S id newPx newQty f = some r) :
    Amends S id newPx newQty f r := by
  unfold amendOrder at h
  split at h
  · rename_i b o hl
    obtain ⟨ho, hid⟩ := mem_of_locate hl
    rw [if_pos (hi.tidy.status o (mem_orders ho))] at h
    dsimp only at h
    split at h
    · rename_i hdn
      cases h
      refine .shrinks ho hid hdn.1.1 hdn.1.2 fun hlose => ?_
      rcases hlose with hpx | hup
      · exact hdn.2 hpx
      · have hlt := hup.2.trans hdn.1.2
        exact absurd hlt (lt_irrefl _)
    · rename_i hdn
      split at h
      · rename_i hlose
        obtain ⟨f', hp, rfl⟩ := Option.map_eq_some_iff.mp h
        exact .reenters ho hid hlose hp
      · rename_i hkeep
        cases h
        refine .idle ho hid hkeep ?_
        by_contra hne
        obtain ⟨hpos, hne⟩ := not_or.mp hne
        rcases lt_or_gt_of_ne hne with hlt | hlt
        · exact hdn ⟨⟨Int.not_le.mp hpos, hlt⟩, fun hpx => hkeep (.inl hpx)⟩
        · exact hkeep (.inr ⟨Int.not_le.mp hpos, hlt⟩)
  · rename_i hl
    cases h
    refine .missing fun b o ho hid => ?_
    subst hid
    exact hl b o (locate_resting hi ho)

/-- The order that enters the pipeline again, and the engine without it. -/
theorem reentry (hi : Inv f []) (ho : o ∈ (f.side b).orders) (hlose : LosesPlace o newPx newQty) :
    Inv ((f.unlink b o).withTape f.tape.tick).clear [amended o newPx newQty (f.tape.now + 1)] := by
  obtain ⟨l, hlm, hol⟩ := Levels.mem_orders.mp ho
  have hr := (hi.sides b).rest l hlm o hol
  have hact : Step Any (f.unlink b o, [o]) _ :=
    .amend trivial (hi.tidy.status o (mem_orders ho)) (by rw [hr.type]; rfl) hlose
  have htape : (f.unlink b o).tape = f.tape := tape_setSide _ _ _
  rw [htape] at hact
  exact ((hi.unlink ho).step hact).step (.clear (X := Any) trivial)

end Flat

end MatchingEngine.Cpp
