import MatchingEngine.Cpp.Runs

/-!
# Orders that come and go

The ids that the history says were accepted and the ids that it says have left account for the ids
that the engine has: every act keeps the balance. So an id is freed when an order of that id leaves,
and only then.

`arrivals` and `departures` read the ids off the history. `balance_steps` says that the ids that the
engine has after some acts, with those that have left meanwhile, are a permutation of the ids that
it had before with those that have come. A turn of matching may take one order out, and an order in
flight counts among those that the engine has.
-/

namespace MatchingEngine.Cpp

/-- The ids of the orders that a history says were accepted. -/
def arrivals (log : List Mark) : List UInt64 :=
  log.filterMap fun
    | .event (.onOrderAccepted o) => some o.id
    | _ => none

/-- The ids of the orders that a history says have left. -/
def departures (log : List Mark) : List UInt64 :=
  log.filterMap fun
    | .left o => some o.id
    | _ => none

/-- Who arrives in two parts of a history. -/
@[simp] theorem arrivals_append (l l' : List Mark) :
    arrivals (l ++ l') = arrivals l ++ arrivals l' := List.filterMap_append

/-- Who departs in two parts of a history. -/
@[simp] theorem departures_append (l l' : List Mark) :
    departures (l ++ l') = departures l ++ departures l' := List.filterMap_append

namespace Flat

variable {X : Special → Prop} {f f' : Flat} {fl fl' : List Order} {b : Side}

/-- The entries `new` tell what becomes of an order of the id `id`: it leaves, or it stays
somewhere. -/
structure Told (fate : Fate) (id : UInt64) (new : List Mark) : Prop where
  arrivals : Cpp.arrivals new = []
  departures : fate.left.toList.map (·.id) ++ Cpp.departures new = [id]

/-- An entry of nobody that arrives or departs comes before. -/
theorem Told.cons {fate : Fate} {id : UInt64} {new : List Mark} {m : Mark} (h : Told fate id new)
    (ha : Cpp.arrivals [m] = []) (hd : Cpp.departures [m] = []) : Told fate id (m :: new) where
  arrivals := by rw [show m :: new = [m] ++ new from rfl, arrivals_append, ha, h.arrivals]; rfl
  departures := by
    rw [show m :: new = [m] ++ new from rfl, departures_append, hd]
    exact h.departures

/-- A departure is told of after a fill just where the order goes. -/
theorem told_afterFill (r : Order) (t : Tape) :
    ∃ new, (afterFill r t).2.log = t.log ++ new ∧ Told (afterFill r t).1 r.id new := by
  unfold afterFill
  split
  · exact ⟨_, rfl, rfl, rfl⟩
  · split
    · exact ⟨_, rfl, rfl, rfl⟩
    · exact ⟨[], (List.append_nil _).symm, rfl, rfl⟩

/-- A departure is told of after a decrement just where the order goes. -/
theorem told_afterDecrement (r : Order) (t : Tape) :
    ∃ new, (afterDecrement r t).2.log = t.log ++ new ∧ Told (afterDecrement r t).1 r.id new := by
  unfold afterDecrement
  split
  · exact ⟨_, rfl, rfl, rfl⟩
  · split
    · exact ⟨_, rfl, rfl, rfl⟩
    · exact ⟨[], (List.append_nil _).symm, rfl, rfl⟩

/-- A departure is told of under each policy just where the order goes. -/
theorem told_handleStp (inc r : Order) (t : Tape) :
    ∃ new, (handleStp inc r t).2.2.log = t.log ++ new ∧ Told (handleStp inc r t).2.1 r.id new := by
  unfold handleStp
  split
  · exact ⟨_, rfl, rfl, rfl⟩
  · exact ⟨_, List.append_assoc _ _ _, rfl, rfl⟩
  · exact ⟨_, (congrArg (· ++ _) (List.append_assoc _ _ _)).trans (List.append_assoc _ _ _), rfl, rfl⟩
  · obtain ⟨new, he, hn⟩ := told_afterDecrement (lessResting r (min inc.remainingQty r.visibleQty))
      (t.event (.onOrderDecremented (lessIncoming inc (min inc.remainingQty r.visibleQty))
        (lessResting r (min inc.remainingQty r.visibleQty)) (min inc.remainingQty r.visibleQty)))
    exact ⟨_ :: new, he.trans (List.append_assoc _ [_] new), hn.cons rfl rfl⟩
  · exact ⟨[], (List.append_nil _).symm, rfl, rfl⟩

/-- Where entries tell of neither arrivals nor departures. -/
theorem balance_of_ids {new : List Mark} (hids : (f'.ids fl').Perm (f.ids fl)) (ha : arrivals new = [])
    (hd : departures new = []) : (f'.ids fl' ++ departures new).Perm (f.ids fl ++ arrivals new) := by
  rw [ha, hd, List.append_nil, List.append_nil]
  exact hids

/-- Where an order in flight leaves. -/
theorem balance_of_leave {o : Order} {new : List Mark} (hids : f'.orders = f.orders)
    (ha : arrivals new = []) (hd : departures new = [o.id]) :
    (f'.ids fl ++ departures new).Perm (f.ids (o :: fl) ++ arrivals new) := by
  unfold ids
  rw [ha, hd, List.append_nil, hids, List.map_append, List.map_append, List.map_cons, List.append_assoc]
  exact (List.perm_append_singleton o.id _).append_left _

/-- A side is written, and the flight with it. -/
theorem balance_setSide {m : Levels} {new : List Mark} (ha : arrivals new = [])
    (h : ((m.orders ++ fl').map (·.id) ++ departures new).Perm
      (((f.side b).orders ++ fl).map (·.id))) :
    ((f.setSide b m).ids fl' ++ departures new).Perm (f.ids fl ++ arrivals new) := by
  have h' := ids_side (f.setSide b m) b fl'
  have hothers : (f.setSide b m).others b = f.others b := by
    unfold others
    rw [side_setSide_opposite', stops_setSide]
  rw [side_setSide, hothers] at h'
  rw [ha, List.append_nil]
  refine (h'.append_right _).trans ?_
  rw [List.append_assoc]
  exact (h.append_left _).trans (ids_side f b fl).symm

/-- A turn of matching. -/
theorem balance_turn {r inc inc' : Order} {p : ℤ} {q : List Order} {m : Levels} {fate : Fate}
    {new : List Mark} (hside : f.side b = (p, r :: q) :: m) (hinc : inc'.id = inc.id)
    (h : Told fate r.id new) :
    ((f.setSide b (front p (fate.requeue q) m)).ids (inc' :: fl) ++ departures new).Perm
      (f.ids (inc :: fl) ++ arrivals new) := by
  refine balance_setSide h.arrivals ?_
  have hq : ((fate.requeue q).map (·.id) ++ departures new).Perm (r.id :: q.map (·.id)) := by
    have hd := h.departures
    cases fate with
    | stays o =>
      obtain ⟨ho, hnone⟩ : o.id = r.id ∧ departures new = [] := List.cons.inj hd
      rw [hnone, List.append_nil, Fate.requeue, List.map_cons, ho]
    | goes =>
      rw [show departures new = [r.id] from hd]
      exact List.perm_append_singleton _ _
    | moves o =>
      obtain ⟨ho, hnone⟩ : o.id = r.id ∧ departures new = [] := List.cons.inj hd
      rw [hnone, List.append_nil, Fate.requeue, List.map_append, List.map_singleton, ho]
      exact List.perm_append_singleton _ _
  rw [hside, Levels.orders_front, Levels.orders_cons]
  simp only [List.map_append, List.map_cons, List.cons_append, List.append_assoc, hinc]
  -- The entries that tell of the order stand after those of the other orders.
  have hmove : ∀ l : List UInt64, ((fate.requeue q).map (·.id) ++ (l ++ departures new)).Perm
      (r.id :: (q.map (·.id) ++ l)) := fun l => by
    refine (List.Perm.append_left _ (List.perm_append_comm : (l ++ departures new).Perm _)).trans ?_
    rw [← List.append_assoc]
    exact hq.append_right l
  have h := hmove (m.orders.map (·.id) ++ inc.id :: fl.map (·.id))
  rwa [List.append_assoc, List.cons_append] at h

/-- An order in flight comes to rest. -/
theorem balance_rest {o : Order} {st : OrderStatus} {new : List Mark} (ha : arrivals new = [])
    (hd : departures new = []) :
    ((f.rest o st).ids fl ++ departures new).Perm (f.ids (o :: fl) ++ arrivals new) := by
  unfold Flat.rest
  refine balance_setSide (f := f) (b := o.side) ha ?_
  rw [hd, List.append_nil, List.map_append, List.map_append, List.map_cons]
  refine (((Levels.perm_enqueue o.side _ (f.side o.side)).map (·.id)).append_right _).trans ?_
  exact List.perm_middle.symm

/-- What comes and goes with an act. -/
theorem Step.balance (hi : Inv f fl) (h : Step X (f, fl) (f', fl')) :
    ∃ new, f'.tape.log = f.tape.log ++ new ∧
      (f'.ids fl' ++ departures new).Perm (f.ids fl ++ arrivals new) := by
  -- Most acts write no entry that counts, so the ids stay up to their order.
  have hnone : f'.tape.log = f.tape.log → (f'.ids fl').Perm (f.ids fl) →
      ∃ new, f'.tape.log = f.tape.log ++ new ∧
        (f'.ids fl' ++ departures new).Perm (f.ids fl ++ arrivals new) := fun hlog hids =>
    ⟨[], by rw [hlog, List.append_nil], balance_of_ids hids rfl rfl⟩
  cases h with
  | perm hp => exact hnone rfl ((hp.symm.append_left _).map _)
  -- The resting order leaves when it is filled, with an entry that says so.
  | trade hside hrem hm hc hpo hst hstop hfill =>
    rename_i fl inc r inc' p q m fate t
    obtain ⟨-, he⟩ := fill_eq hfill
    obtain ⟨rfl, hft⟩ := Prod.mk.inj he
    obtain ⟨new, hlog, htold⟩ := told_afterFill (filledBy r (min inc.remainingQty r.visibleQty))
      (f.tape.record ((p, r :: q) :: m) (min inc.remainingQty r.visibleQty) inc r)
    rw [← hft] at hlog htold
    exact ⟨_ :: new, hlog.trans (List.append_assoc _ [_] new),
      balance_turn hside rfl (htold.cons rfl rfl)⟩
  | selfTrade hside =>
    rename_i fl inc r p q m hrem hm hc hst hstop hpo
    obtain ⟨new, hlog, htold⟩ := told_handleStp inc r f.tape
    refine ⟨new, hlog, balance_turn hside ?_ htold⟩
    rw [alike_handleStp inc r f.tape]
  -- There is no level without orders to drop.
  | drop hside => exact absurd rfl ((hi.sides _).full _ (by rw [hside]; exact List.mem_cons_self))
  | filled => exact hnone rfl (.of_eq (by unfold ids; rw [List.map_append, List.map_append]; rfl))
  | cancel =>
    exact ⟨_, rfl, balance_of_ids (.of_eq (by unfold ids; rw [List.map_append, List.map_append]; rfl))
      rfl rfl⟩
  -- An order in flight leaves.
  | kill => exact ⟨_, List.append_assoc _ _ _, balance_of_leave rfl rfl rfl⟩
  | recancel => exact ⟨_, List.append_assoc _ _ _, balance_of_leave rfl rfl rfl⟩
  | rest => exact ⟨_, rfl, balance_rest rfl rfl⟩
  | passive => exact ⟨_, rfl, balance_rest rfl rfl⟩
  | reprice hpo hold hside hX hrep =>
    obtain ⟨rfl, rfl⟩ := Prod.mk.inj (reprice_eq hside hrep)
    refine ⟨_, List.append_assoc _ _ _, (balance_rest rfl rfl).trans (.of_eq ?_)⟩
    unfold ids
    rw [List.map_append, List.map_append]
    rfl
  | leave => exact ⟨_, rfl, balance_of_leave rfl rfl rfl⟩
  | report => exact ⟨_, rfl, balance_of_ids (.refl _) rfl rfl⟩
  -- Orders change place, and no id comes or goes.
  | wake hp =>
    refine hnone rfl (List.Perm.map _ ?_)
    unfold orders
    simp only [List.append_assoc]
    refine List.Perm.append_left _ (List.Perm.append_left _ ?_)
    rw [← List.append_assoc]
    exact ((hp.trans List.perm_append_comm).append_right fl).symm
  | trigger =>
    exact ⟨_, rfl, balance_of_ids (.of_eq (by unfold ids; rw [List.map_append, List.map_append]; rfl))
      rfl rfl⟩
  | park =>
    refine hnone rfl (.of_eq ?_)
    unfold ids orders
    simp only [List.append_assoc, List.cons_append, List.nil_append]
    rfl
  | toLimit => exact hnone rfl (.of_eq (by unfold ids; rw [List.map_append, List.map_append]; rfl))
  | loosen => exact hnone rfl (.of_eq (by unfold ids; rw [List.map_append, List.map_append]; rfl))
  | tick => exact hnone rfl (.refl _)
  | setTime => exact hnone rfl (.refl _)
  | clear => exact hnone rfl (.refl _)
  | reject => exact ⟨_, rfl, balance_of_ids (.refl _) rfl rfl⟩
  -- The one act by which an id arrives.
  | accept i hfresh hv hX =>
    refine ⟨_, rfl, .of_eq ?_⟩
    unfold ids
    rw [List.map_append]
    exact (List.append_nil _).trans (congrArg (· ++ _) (congrArg _ (List.append_nil _)).symm)
  -- The order goes from its queue into flight.
  | unlink ho hX =>
    rename_i b o
    refine ⟨[], ?_, balance_setSide rfl ?_⟩
    · unfold Flat.unlink
      rw [tape_setSide, List.append_nil]
    · have hids := (ids_side f b fl).nodup_iff.mp hi.ids
      rw [List.map_append] at hids
      have hnodup := (List.nodup_append.mp (List.nodup_append.mp hids).2.1).1
      rw [pull_orders]
      refine (List.append_nil _ ▸ List.Perm.map _ (List.perm_middle.trans ?_))
      exact (perm_eraseP hnodup ho).symm.append_right fl
  | amend => exact hnone rfl (.of_eq (by unfold ids; rw [List.map_append, List.map_append]; rfl))
  | shrink hX ho hpos hlt =>
    refine ⟨[], by rw [tape_setSide, List.append_nil], balance_setSide rfl (.of_eq ?_)⟩
    rw [orders_change, List.map_append, List.map_append, List.map_map]
    refine (List.append_nil _).trans (congrArg (· ++ _) (List.map_congr_left fun x _ => ?_))
    dsimp only [Function.comp_apply]
    split <;> rfl
  | expire => exact ⟨_, List.append_assoc _ _ _, balance_of_leave rfl rfl rfl⟩

/-- What comes and goes with a sequence of acts. -/
theorem balance_steps {x y : Flat × List Order} (hi : Inv x.1 x.2) (h : Steps X x y) :
    ∃ new, y.1.tape.log = x.1.tape.log ++ new ∧
      (y.1.ids y.2 ++ departures new).Perm (x.1.ids x.2 ++ arrivals new) := by
  induction h with
  | refl => exact ⟨[], (List.append_nil _).symm, .refl _⟩
  | tail hsteps hact ih =>
    obtain ⟨new, hlog, hp⟩ := ih
    obtain ⟨new', hlog', hp'⟩ := Step.balance (hi.steps hsteps) hact
    refine ⟨new ++ new', by rw [hlog', hlog, List.append_assoc], ?_⟩
    rw [departures_append, arrivals_append, ← List.append_assoc, ← List.append_assoc]
    have hcomm : ∀ l l₁ l₂ : List UInt64, (l ++ l₁ ++ l₂).Perm (l ++ l₂ ++ l₁) := fun l l₁ l₂ => by
      rw [List.append_assoc, List.append_assoc]
      exact List.perm_append_comm.append_left l
    exact (((hcomm _ _ _).trans (hp'.append_right _)).trans (hcomm _ _ _)).trans (hp.append_right _)

end Flat

end MatchingEngine.Cpp
