import MatchingEngine.Cpp.Runs

/-!
# What an order keeps

An order that was accepted keeps its id, its side, its time in force and the other terms that nobody
may change for as long as the engine has it. So what `validate` asks of these terms holds of every
order of a run.

The terms are compared by setting the other fields to one value (`Order.terms`). `Kin` relates two
orders with the same terms, and `Descend` a list of orders to one in which each has its kin. An act
writes the status, the quantities, the prices, the type, and the time of an order, so every act is a
`Step.descend`, and `Reach.terms` follows by the rule for runs.
-/

namespace MatchingEngine.Cpp

/-- The terms of an order: the fields that no act changes. -/
def Order.terms (o : Order) : Order :=
  { o with
    orderType := .LIMIT
    price := 0
    stopPrice := 0
    remainingQty := 0
    minQty := 0
    visibleQty := 0
    status := .NEW
    timestamp := 0 }

/-- An order with the terms of another. -/
def Kin (o o' : Order) : Prop := o'.terms = o.terms

/-- The time in force is one of the terms. -/
theorem Kin.timeInForce {o o' : Order} (h : Kin o o') : o'.timeInForce = o.timeInForce := by
  have hf := congrArg Order.timeInForce h
  exact hf

/-- The expiry time is one of the terms. -/
theorem Kin.expireTime {o o' : Order} (h : Kin o o') : o'.expireTime = o.expireTime := by
  have hf := congrArg Order.expireTime h
  exact hf

/-- All orders of `os'` have the terms of one of `os`. -/
def Descend (os os' : List Order) : Prop := ∀ o' ∈ os', ∃ o ∈ os, Kin o o'

/-- Orders that were there have their own terms. -/
theorem Descend.of_subset {os os' : List Order} (h : os' ⊆ os) : Descend os os' :=
  fun o' ho => ⟨o', h ho, rfl⟩

/-- Two parts, each with the terms of its own. -/
theorem Descend.append {os os' fl fl' : List Order} (h : Descend os os') (h' : Descend fl fl') :
    Descend (os ++ fl) (os' ++ fl') := by
  intro o' ho
  rcases List.mem_append.mp ho with ho | ho
  · obtain ⟨o, hm, hk⟩ := h o' ho
    exact ⟨o, List.mem_append_left _ hm, hk⟩
  · obtain ⟨o, hm, hk⟩ := h' o' ho
    exact ⟨o, List.mem_append_right _ hm, hk⟩

/-- One order more on both sides. -/
theorem Descend.cons {o o' : Order} {os os' : List Order} (hk : Kin o o') (h : Descend os os') :
    Descend (o :: os) (o' :: os') :=
  show Descend ([o] ++ os) ([o'] ++ os') from Descend.append
    (fun x hx => ⟨o, List.mem_singleton_self o, by rw [List.mem_singleton.mp hx]; exact hk⟩) h

namespace Flat

variable {X : Special → Prop} {f f' : Flat} {fl fl' : List Order} {b : Side}

/-- What matching changes of an order are no terms. -/
theorem Alike.kin {o o' : Order} (h : Alike o o') : Kin o o' := by
  rw [h]
  rfl

/-- A reload keeps the terms. -/
theorem kin_reload {r : Order} {t : Tape} : ∀ o ∈ (reload r t).1.left, Kin r o := by
  rintro o ⟨⟩
  rfl

/-- A fill keeps the terms of the resting order. -/
theorem kin_afterFill {r : Order} {t : Tape} : ∀ o ∈ (afterFill r t).1.left, Kin r o := by
  unfold afterFill
  split
  · exact kin_reload
  · split
    · exact fun o ho => absurd ho (Option.not_mem_none o)
    · rintro o ⟨⟩
      rfl

/-- A decrement keeps the terms of the resting order. -/
theorem kin_afterDecrement {r : Order} {t : Tape} : ∀ o ∈ (afterDecrement r t).1.left, Kin r o := by
  unfold afterDecrement
  split
  · exact fun o ho => absurd ho (Option.not_mem_none o)
  · split
    · exact kin_reload
    · rintro o ⟨⟩
      rfl

/-- Self-trade prevention keeps the terms of the resting order. -/
theorem kin_handleStp {inc r : Order} {t : Tape} : ∀ o ∈ (handleStp inc r t).2.1.left, Kin r o := by
  have hstays : ∀ o ∈ (Fate.stays r).left, Kin r o := by
    rintro o ⟨⟩
    rfl
  unfold handleStp
  split
  · exact hstays
  · exact fun o ho => absurd ho (Option.not_mem_none o)
  · exact fun o ho => absurd ho (Option.not_mem_none o)
  · exact fun o ho => kin_afterDecrement (r := lessResting r _) o ho
  · exact hstays

/-- A side is written, and the flight with it. -/
theorem descend_setSide {m : Levels} (h : Descend ((f.side b).orders ++ fl) (m.orders ++ fl')) :
    Descend (f.orders ++ fl) ((f.setSide b m).orders ++ fl') := by
  have hothers : (f.setSide b m).others b = f.others b := by
    unfold others
    rw [side_setSide_opposite', stops_setSide]
  have hperm : (f.orders ++ fl).Perm (((f.side b).orders ++ fl) ++ f.others b) := by
    refine ((orders_perm f b).append_right fl).trans ?_
    rw [List.append_assoc, List.append_assoc]
    exact List.perm_append_comm.append_left _
  have hperm' : ((f.setSide b m).orders ++ fl').Perm ((m.orders ++ fl') ++ f.others b) := by
    refine ((orders_perm (f.setSide b m) b).append_right fl').trans ?_
    rw [side_setSide, hothers, List.append_assoc, List.append_assoc]
    exact List.perm_append_comm.append_left _
  intro o' ho
  obtain ⟨o, hm, hk⟩ := h.append (.of_subset (List.Subset.refl (f.others b))) o' (hperm'.mem_iff.mp ho)
  exact ⟨o, hperm.mem_iff.mpr hm, hk⟩

/-- A turn of matching. -/
theorem descend_turn {inc r inc' : Order} {p : ℤ} {q : List Order} {m : Levels} {fate : Fate}
    (hside : f.side b = (p, r :: q) :: m) (hinc : Kin inc inc') (hfate : ∀ o ∈ fate.left, Kin r o) :
    Descend (f.orders ++ inc :: fl)
      ((f.setSide b (front p (fate.requeue q) m)).orders ++ inc' :: fl) := by
  refine descend_setSide (.append ?_ (.cons hinc (.of_subset (List.Subset.refl _))))
  rw [hside, Levels.orders_front, Levels.orders_cons]
  refine .append (fun o ho => ?_) (.of_subset (List.Subset.refl _))
  rcases mem_requeue ho with ho | ho
  · exact ⟨o, List.mem_cons_of_mem _ ho, rfl⟩
  · exact ⟨r, List.mem_cons_self, hfate o ho⟩

/-- An order in flight comes to rest. -/
theorem descend_rest {o : Order} {st : OrderStatus} :
    Descend (f.orders ++ o :: fl) ((f.rest o st).orders ++ fl) := by
  unfold Flat.rest
  refine descend_setSide (f := f) fun x hx => ?_
  rcases List.mem_append.mp hx with hx | hx
  · rcases List.mem_cons.mp ((Levels.perm_enqueue _ _ _).mem_iff.mp hx) with rfl | hx
    · exact ⟨o, List.mem_append_right _ List.mem_cons_self, rfl⟩
    · exact ⟨x, List.mem_append_left _ hx, rfl⟩
  · exact ⟨x, List.mem_append_right _ (List.mem_cons_of_mem _ hx), rfl⟩

/-- After an act every order has the terms of one before, or has just been accepted. -/
theorem Step.descend (h : Step X (f, fl) (f', fl')) : Descend (f.orders ++ fl) (f'.orders ++ fl') ∨
    ∃ i : OrderInput, validate f.tape.now (i.order f.tape.now) = none ∧ fl = [] ∧
    fl' = [i.order f.tape.now] ∧
      f'.orders = f.orders := by
  have hsame : Descend f.orders f.orders := .of_subset (List.Subset.refl _)
  have hrest : ∀ fl : List Order, Descend fl fl := fun fl => .of_subset (List.Subset.refl fl)
  cases h with
  | perm hp => exact .inl (hsame.append (.of_subset hp.symm.subset))
  -- Quantities and status are no terms of an order, so a turn keeps them.
  | trade hside hrem hm hc hpo hst hstop hfill =>
    obtain ⟨-, he⟩ := fill_eq hfill
    obtain ⟨rfl, hft⟩ := Prod.mk.inj he
    obtain rfl := congrArg Prod.fst hft
    exact .inl (descend_turn hside rfl (kin_afterFill (r := filledBy _ _)))
  | selfTrade hside =>
    exact .inl (descend_turn hside (alike_handleStp _ _ _).kin kin_handleStp)
  | drop hside =>
    refine .inl (descend_setSide (.of_subset ?_))
    rw [hside]
    exact fun x hx => hx
  | filled => exact .inl (hsame.append (.cons rfl (hrest _)))
  | cancel => exact .inl (hsame.append (.cons rfl (hrest _)))
  | kill => exact .inl (hsame.append (.of_subset (List.subset_cons_self _ _)))
  | recancel => exact .inl (hsame.append (.of_subset (List.subset_cons_self _ _)))
  | rest => exact .inl descend_rest
  | passive => exact .inl descend_rest
  -- The price is no term either.
  | reprice hpo hold hside hX hrep =>
    obtain ⟨rfl, rfl⟩ := Prod.mk.inj (reprice_eq hside hrep)
    refine .inl fun x hx => ?_
    obtain ⟨y, hy, hk⟩ := descend_rest (f := f.withTape _) x hx
    rcases List.mem_append.mp hy with hy | hy
    · exact ⟨y, List.mem_append_left _ hy, hk⟩
    · rcases List.mem_cons.mp hy with rfl | hy
      · exact ⟨_, List.mem_append_right _ List.mem_cons_self, hk⟩
      · exact ⟨y, List.mem_append_right _ (List.mem_cons_of_mem _ hy), hk⟩
  | leave => exact .inl (hsame.append (.of_subset (List.subset_cons_self _ _)))
  | report => exact .inl (hsame.append (hrest _))
  -- The same orders, in another place.
  | wake hp =>
    refine .inl (.of_subset fun x hx => ?_)
    unfold orders at hx ⊢
    simp only [List.mem_append] at hx ⊢
    rcases hx with (hx | hx | hx) | hx | hx
    · exact .inl (.inl hx)
    · exact .inl (.inr (.inl hx))
    · exact .inl (.inr (.inr (hp.mem_iff.mpr (List.mem_append_right _ hx))))
    · exact .inl (.inr (.inr (hp.mem_iff.mpr (List.mem_append_left _ hx))))
    · exact .inr hx
  | trigger => exact .inl (hsame.append (.cons rfl (hrest _)))
  | park =>
    refine .inl (.of_subset fun x hx => ?_)
    unfold orders at hx ⊢
    simp only [List.mem_append, List.mem_cons, List.not_mem_nil, or_false] at hx ⊢
    rcases hx with (hx | hx | hx | hx) | hx
    · exact .inl (.inl hx)
    · exact .inl (.inr (.inl hx))
    · exact .inl (.inr (.inr hx))
    · exact .inr (.inl hx)
    · exact .inr (.inr hx)
  | toLimit => exact .inl (hsame.append (.cons rfl (hrest _)))
  | loosen => exact .inl (hsame.append (.cons rfl (hrest _)))
  | tick => exact .inl (hsame.append (hrest _))
  | setTime => exact .inl (hsame.append (hrest _))
  | clear => exact .inl (hsame.append (hrest _))
  | reject => exact .inl (hsame.append (hrest _))
  -- The second alternative: a new order has no one to descend from.
  | accept i hfresh hv hX => exact .inr ⟨i, hv, rfl, rfl, rfl⟩
  | unlink ho hX =>
    refine .inl (descend_setSide (.of_subset fun x hx => ?_))
    rcases List.mem_append.mp hx with hx | hx
    · rw [pull_orders] at hx
      exact List.mem_append_left _ (List.mem_of_mem_eraseP hx)
    · rcases List.mem_cons.mp hx with rfl | hx
      · exact List.mem_append_left _ ho
      · exact List.mem_append_right _ hx
  | amend => exact .inl (hsame.append (.cons rfl (hrest _)))
  | shrink hX ho hpos hlt =>
    refine .inl (descend_setSide (.append (fun x hx => ?_) (hrest _)))
    rw [orders_change] at hx
    obtain ⟨y, hy, rfl⟩ := List.mem_map.mp hx
    refine ⟨y, hy, ?_⟩
    split
    · rfl
    · rfl
  | expire => exact .inl (hsame.append (.of_subset (List.subset_cons_self _ _)))

end Flat

/-- What `validate` asks of the terms of an order holds of every order of a run. -/
theorem Reach.terms {S : StdSort} {pop : PostOnlyPolicy} {tickSz : ℤ} {s : Engine}
    (hs : Reach S pop tickSz s) {P : Order → Prop} (hvalid : ∀ now o, Valid now o → P o)
    (hkin : ∀ o o', Kin o o' → P o → P o') : ∀ o ∈ s.flat.orders, P o := by
  have hall := hs.rule (J := fun x => ∀ o ∈ x.1.orders ++ x.2, P o)
    (fun o ho => absurd ho List.not_mem_nil) fun x y _ hj hact o ho => by
      rcases hact.descend with hd | ⟨i, hv, hfl, hfl', horders⟩
      · obtain ⟨o', ho', hk⟩ := hd o ho
        exact hkin o' o hk (hj o' ho')
      · rw [horders, hfl'] at ho
        rcases List.mem_append.mp ho with ho | ho
        · exact hj o (List.mem_append_left _ ho)
        · rw [List.mem_singleton.mp ho]
          exact hvalid _ _ (valid_of_validate hv)
  exact fun o ho => hall o (List.mem_append_left _ ho)

end MatchingEngine.Cpp
