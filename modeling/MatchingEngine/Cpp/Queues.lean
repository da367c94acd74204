import MatchingEngine.Cpp.Invariant

/-!
# What an act does to the queues

An act takes orders out of queues, and puts at most one order at the end of a queue. Then the last
entry that it adds to the history tells of that order: it has come to rest, or shows its next slice.
So what the history says of the last time an order went to the end of its queue, and what its
timestamp says, can be followed act by act.
-/

namespace MatchingEngine.Cpp

/-- The id of the order that an entry tells of that it has gone to the end of a queue. -/
def Mark.joined : Mark → Option UInt64
  | .rested o _ => some o.id
  | .reloaded o => some o.id
  | _ => none

/-- What of an order says where in a queue it belongs. -/
def Order.place (o : Order) : UInt64 × ℕ := (o.id, o.timestamp)

namespace Flat

/-- The orders of `q'` are some of `q` in the same places, and may have changed otherwise. -/
def Thins (q q' : List Order) : Prop := (q'.map (·.place)).Sublist (q.map (·.place))

/-- Nothing leaves the queue. -/
theorem Thins.refl (q : List Order) : Thins q q := List.Sublist.refl _

/-- Some orders leave the queue. -/
theorem Thins.of_sublist {q q' : List Order} (h : q'.Sublist q) : Thins q q' := h.map _

/-- An order of a queue that was thinned was there before, with its id and its timestamp. -/
theorem Thins.mem {q q' : List Order} {x : Order} (h : Thins q q') (hx : x ∈ q') :
    ∃ y ∈ q, y.id = x.id ∧ y.timestamp = x.timestamp := by
  obtain ⟨y, hy, he⟩ := List.mem_map.mp (h.subset (List.mem_map_of_mem hx))
  exact ⟨y, hy, congrArg Prod.fst he, congrArg Prod.snd he⟩

/-- Entries that tell of no order that goes to the end of a queue. -/
def Still (ms : List Mark) : Prop := ∀ m ∈ ms, m.joined = none

/-- Nothing is written. -/
theorem Still.nil : Still [] := fun _ hm => absurd hm List.not_mem_nil

/-- One entry is written, of nobody that joins a queue. -/
theorem Still.single {m : Mark} (h : m.joined = none) : Still [m] := List.forall_mem_singleton.mpr h

/-- Two parts in which nobody joins a queue. -/
theorem Still.append {ms ms' : List Mark} (h : Still ms) (h' : Still ms') : Still (ms ++ ms') :=
  List.forall_mem_append.mpr ⟨h, h'⟩

/-! ## The head of a queue -/

/-- What becomes of the place of the resting order `r` of a turn that starts with the tape `t`. -/
inductive Fares (r : Order) (t : Tape) : Fate × Tape → Prop
  | stays {o : Order} {t' : Tape} {new : List Mark} (h : o.place = r.place)
      (hlog : t'.log = t.log ++ new) (hnew : Still new) : Fares r t (.stays o, t')
  | goes {t' : Tape} {new : List Mark} (hlog : t'.log = t.log ++ new) (hnew : Still new) :
      Fares r t (.goes, t')
  | moves {o : Order} {t' : Tape} {new : List Mark} (hid : o.id = r.id) (hprice : o.price = r.price)
      (hts : o.timestamp = t.now + 1) (hlog : t'.log = t.log ++ (new ++ [.reloaded o]))
      (hnew : Still new) (hnow : t'.now = t.now + 1) : Fares r t (.moves o, t')

/-- What is written before does not tell of a place. -/
theorem Fares.after {r r' : Order} {t t' : Tape} {x : Fate × Tape} {ms : List Mark} (h : Fares r' t' x)
    (hplace : r'.place = r.place) (hprice : r'.price = r.price) (hlog : t'.log = t.log ++ ms)
    (hms : Still ms) (hnow : t'.now = t.now) : Fares r t x := by
  cases h with
  | stays h hlog' hnew =>
    exact .stays (h.trans hplace) (by rw [hlog', hlog, List.append_assoc]) (hms.append hnew)
  | goes hlog' hnew => exact .goes (by rw [hlog', hlog, List.append_assoc]) (hms.append hnew)
  | moves hid hp hts hlog' hnew hnow' =>
    refine .moves (hid.trans (congrArg Prod.fst hplace)) (hp.trans hprice) (by rw [hts, hnow]) ?_
      (hms.append hnew) (by rw [hnow', hnow])
    rw [hlog', hlog, List.append_assoc, List.append_assoc]

/-- An order that shows its next slice goes to the end of its queue. -/
theorem fares_reload (r : Order) (t : Tape) : Fares r t (reload r t) :=
  .moves rfl rfl rfl rfl .nil rfl

/-- After a fill an order goes, shows its next slice, or keeps its place. -/
theorem fares_afterFill (r : Order) (t : Tape) : Fares r t (afterFill r t) := by
  unfold afterFill
  split
  · exact fares_reload r t
  · split
    · exact .goes rfl (.single rfl)
    · exact .stays rfl (List.append_nil _).symm .nil

/-- After a decrement an order goes, shows its next slice, or keeps its place. -/
theorem fares_afterDecrement (r : Order) (t : Tape) : Fares r t (afterDecrement r t) := by
  unfold afterDecrement
  split
  · exact .goes rfl (.single rfl)
  · split
    · exact fares_reload r t
    · exact .stays rfl (List.append_nil _).symm .nil

/-- Under each policy an order goes, shows its next slice, or keeps its place. -/
theorem fares_handleStp (inc r : Order) (t : Tape) : Fares r t (handleStp inc r t).2 := by
  unfold handleStp
  split
  · exact .stays rfl rfl (.single rfl)
  · exact .goes (List.append_assoc _ _ _) (.append (.single rfl) (.single rfl))
  · refine .goes ((congrArg (· ++ _) (List.append_assoc _ _ _)).trans (List.append_assoc _ _ _)) ?_
    exact .append (.append (.single rfl) (.single rfl)) (.single rfl)
  · exact (fares_afterDecrement _ _).after rfl rfl rfl (.single rfl) rfl
  · exact .stays rfl (List.append_nil _).symm .nil

/-- A fill tells of the trade before anything that moves its order. -/
theorem fares_fill {contra : Levels} {inc r : Order} {t : Tape} {x : Order × Fate × Tape}
    (h : fill contra inc r t = some x) : Fares r t x.2 := by
  rw [(fill_eq h).2]
  exact (fares_afterFill _ _).after rfl rfl rfl (.single rfl) rfl

/-! ## The queues -/

variable {X : Special → Prop} {f f' : Flat} {fl fl' : List Order} {b : Side} {m : Levels}

/-- How the order `o` comes to the end of a queue of the side `b`, with the entry that tells of it.
-/
inductive Joins (X : Special → Prop) (f : Flat) (fl : List Order) (b : Side) (o : Order) : Mark → Prop
  /-- It was in flight and comes to rest behind the orders `q` of its price. -/
  | rested {o' : Order} {q : List Order} (hside : o'.side = b) (hplace : o.place = o'.place)
      (hfl : ∃ x ∈ fl, x.place = o.place)
      (hq : ∀ q', (o.price, q') ∈ f.side b → q = q') (haged : Aged X o' f) :
      Joins X f fl b o (.rested o' q)
  /-- It rests and shows its next slice. -/
  | reloaded (hts : o.timestamp = f.tape.now + 1) (hmem : ∃ x ∈ (f.side b).orders, x.id = o.id) :
      Joins X f fl b o (.reloaded o)

/-- The entry is of the order that joins. -/
theorem Joins.joined {o : Order} {e : Mark} (h : Joins X f fl b o e) : e.joined = some o.id := by
  cases h with
  | rested hside hplace => exact congrArg some (congrArg Prod.fst hplace).symm
  | reloaded => rfl

/-- The queue of `l'` is one of `m` that was thinned. -/
def From (m : Levels) (l' : ℤ × List Order) : Prop := ∃ q, (l'.1, q) ∈ m ∧ Thins q l'.2

/-- A queue that is kept. -/
theorem From.of_mem {l : ℤ × List Order} (h : l ∈ m) : From m l := ⟨l.2, h, .refl _⟩

/-- What an act does to the queues, with the entries `new`. -/
inductive Shift (X : Special → Prop) (f : Flat) (fl : List Order) (f' : Flat) (new : List Mark) : Prop
  | thins (hnew : Still new) (h : ∀ b, ∀ l ∈ f'.side b, From (f.side b) l)
  | joins {b : Side} {o : Order} {pre : List Mark} {e : Mark} (hnew : new = pre ++ [e])
      (hpre : Still pre) (he : Joins X f fl b o e) (hnow : f.tape.now ≤ f'.tape.now)
      (hts : e = .reloaded o → f'.tape.now = f.tape.now + 1)
      (h : ∀ b', ∀ l ∈ f'.side b', From (f.side b') l ∧ (∀ x ∈ l.2, x.id ≠ o.id) ∨
        b' = b ∧ l.1 = o.price ∧ ∃ q, l.2 = q ++ [o] ∧ (∀ x ∈ q, x.id ≠ o.id) ∧
          (q = [] ∨ From (f.side b) (l.1, q)))

/-- No queue changes. -/
theorem Shift.of_same {new : List Mark} (hnew : Still new) (h : ∀ b, f'.side b = f.side b) :
    Shift X f fl f' new :=
  .thins hnew fun b _ hl => .of_mem (h b ▸ hl)

/-- A side is written whose queues are some of the old ones, thinned. -/
theorem Shift.of_setSide {new : List Mark} (hnew : Still new)
    (hs : ∀ b', f'.side b' = (f.setSide b m).side b')
    (h : ∀ l ∈ m, From (f.side b) l) : Shift X f fl f' new := by
  refine .thins hnew fun b' l hl => ?_
  rw [hs] at hl
  by_cases hb : b' = b
  · subst hb
    rw [side_setSide] at hl
    exact h l hl
  · have hb : b' = oppositeSide b := eq_oppositeSide hb
    rw [hb, side_setSide_opposite'] at hl
    rw [hb]
    exact .of_mem hl

/-- A queue in front that was thinned, before the levels that were behind it. -/
theorem From.front {p : ℤ} {q q' : List Order} (hside : f.side b = (p, q) :: m) (h : Thins q q') :
    ∀ l ∈ front p q' m, From (f.side b) l := by
  intro l hl
  rw [hside]
  rcases Levels.mem_front hl with ⟨rfl, -⟩ | hl
  · exact ⟨q, List.mem_cons_self, h⟩
  · exact .of_mem (List.mem_cons_of_mem _ hl)

/-- A turn of matching. -/
theorem Shift.of_turn {inc r : Order} {p : ℤ} {q : List Order} {x : Fate × Tape}
    (hi : Inv f (inc :: fl)) (hside : f.side b = (p, r :: q) :: m) (h : Fares r f.tape x) :
    ∃ new, x.2.log = f.tape.log ++ new ∧
      Shift X f (inc :: fl) ((f.setSide b (front p (x.1.requeue q) m)).withTape x.2) new := by
  cases h with
  | stays hplace hlog hnew =>
    refine ⟨_, hlog, .of_setSide hnew (side_withTape _ _) (From.front hside ?_)⟩
    unfold Thins Fate.requeue
    rw [List.map_cons, List.map_cons, hplace]
  | goes hlog hnew =>
    exact ⟨_, hlog, .of_setSide hnew (side_withTape _ _)
      (From.front hside (.of_sublist (List.sublist_cons_self r q)))⟩
  | moves hid hprice hts hlog hnew hnow =>
    rename_i o t new
    have hperm := orders_perm f b
    rw [hside, Levels.orders_cons, List.cons_append, List.cons_append] at hperm
    have hids := ((hperm.append_right (inc :: fl)).map fun o : Order => o.id).nodup_iff.mp hi.ids
    rw [List.cons_append, List.map_cons] at hids
    have hr := (List.nodup_cons.mp hids).1
    have hne : ∀ x ∈ q ++ m.orders ++ f.others b, x.id ≠ o.id := fun x hx he =>
      hr (hid ▸ he ▸ List.mem_map_of_mem (List.mem_append_left _ hx))
    have hhead := ((hi.sides b).rest (p, r :: q) (by rw [hside]; exact List.mem_cons_self) r
      List.mem_cons_self).price
    have hmem : r ∈ (f.side b).orders := by
      rw [hside]
      exact List.mem_append_left _ List.mem_cons_self
    refine ⟨_, hlog, .joins (b := b) rfl hnew (.reloaded hts ⟨r, hmem, hid.symm⟩)
      (by rw [tape_withTape, hnow]; exact Nat.le_succ _)
      (fun _ => hnow) fun b' l hl => ?_⟩
    rw [side_withTape] at hl
    by_cases hb : b' = b
    · subst hb
      rw [side_setSide] at hl
      rcases Levels.mem_front hl with ⟨rfl, -⟩ | hl
      · refine .inr ⟨rfl, (hprice.trans hhead).symm, q, rfl, fun x hx => hne x ?_,
          .inr ⟨r :: q, ?_, ?_⟩⟩
        · exact List.mem_append_left _ (List.mem_append_left _ hx)
        · rw [hside]
          exact List.mem_cons_self
        · exact .of_sublist (List.sublist_cons_self r q)
      · refine .inl ⟨.of_mem (by rw [hside]; exact List.mem_cons_of_mem _ hl), fun x hx => hne x ?_⟩
        refine List.mem_append_left _ (List.mem_append_right _ ?_)
        exact Levels.mem_orders.mpr ⟨l, hl, hx⟩
    · have hb : b' = oppositeSide b := eq_oppositeSide hb
      rw [hb, side_setSide_opposite'] at hl
      rw [hb]
      refine .inl ⟨.of_mem hl, fun x hx => hne x (List.mem_append_right _ ?_)⟩
      exact List.mem_append_left _ (Levels.mem_orders.mpr ⟨l, hl, hx⟩)

/-- On a side in order there is one level of a price. -/
theorem lookup_of_mem {p : ℤ} {q : List Order} (h : m.Pairwise fun l l' => better b l.1 l'.1 = true)
    (hq : (p, q) ∈ m) : m.lookup p = some q := by
  induction m with
  | nil => cases hq
  | cons l m ih =>
    obtain ⟨hl, hm⟩ := List.pairwise_cons.mp h
    rw [List.lookup_cons]
    rcases List.mem_cons.mp hq with rfl | hq
    · rw [beq_self_eq_true]
    · have hne : (p == l.1) = false := beq_false_of_ne fun he => by
        have hb := hl (p, q) hq
        rw [← he] at hb
        cases b <;> simp [better] at hb
      rw [hne]
      exact ih hm hq

/-- An order in flight comes to rest, at its price or at another one. -/
theorem Shift.of_rest {o o' : Order} {st : OrderStatus} {t : Tape} {pre : List Mark}
    (hi : Inv f (o :: fl))
    (hplace : o'.place = o.place) (hlog : t.log = f.tape.log ++ pre) (hpre : Still pre)
    (hnow : t.now = f.tape.now) (haged : Aged X o' f) :
    ∃ new, ((f.withTape t).rest o' st).tape.log = f.tape.log ++ new ∧
      Shift X f (o :: fl) ((f.withTape t).rest o' st) new := by
  have hne : ∀ b', ∀ l ∈ f.side b', ∀ x ∈ l.2, x.id ≠ o'.id := fun b' l hl x hx he => by
    have hids : (f.ids (o :: fl)).Perm (o.id :: (f.orders ++ fl).map (·.id)) :=
      List.Perm.map (fun x : Order => x.id) List.perm_middle
    have hn := (List.nodup_cons.mp (hids.nodup_iff.mp hi.ids)).1
    have hx := mem_orders (f := f) (b := b') (Levels.mem_orders.mpr ⟨l, hl, hx⟩)
    rw [show o'.id = o.id from congrArg Prod.fst hplace] at he
    exact hn (he ▸ List.mem_map_of_mem (List.mem_append_left _ hx))
  refine ⟨pre ++ [_], (congrArg (· ++ _) hlog).trans (List.append_assoc _ _ _), ?_⟩
  refine .joins (o := { o' with visibleQty := o'.shown o'.remainingQty, status := st })
    (b := o'.side) rfl
    hpre (.rested rfl rfl ⟨o, List.mem_cons_self, hplace.symm⟩ (fun q' hq => ?_) haged)
    (by rw [show ((f.withTape t).rest o' st).tape.now = t.now from rfl, hnow]) (fun he => by cases he)
    fun b' l hl => ?_
  · rw [side_withTape, lookup_of_mem (hi.sides _).sorted hq]
    rfl
  · change l ∈ ((((f.withTape t).setSide o'.side _).withTape _).side b') at hl
    rw [side_withTape] at hl
    by_cases hb : b' = o'.side
    · subst hb
      rw [side_setSide, side_withTape] at hl
      rcases Levels.mem_enqueue hl with hl | rfl | ⟨q, hq, rfl⟩
      · exact .inl ⟨.of_mem hl, hne _ l hl⟩
      · exact .inr ⟨rfl, rfl, [], rfl, fun x hx => absurd hx List.not_mem_nil, .inl rfl⟩
      · exact .inr ⟨rfl, rfl, q, rfl, hne _ _ hq, .inr ⟨q, hq, .refl q⟩⟩
    · have hb : b' = oppositeSide o'.side := eq_oppositeSide hb
      rw [hb, side_setSide_opposite', side_withTape] at hl
      rw [hb]
      exact .inl ⟨.of_mem hl, hne _ l hl⟩

/-- A queue from which an id may have been pulled out. -/
theorem sublist_pull {id : UInt64} {l : ℤ × List Order} (h : l ∈ pull id m) : From m l := by
  induction m with
  | nil => cases h
  | cons l' m ih =>
    obtain ⟨p, q⟩ := l'
    have hm : ∀ {l}, l ∈ m → From ((p, q) :: m) l := fun hl => .of_mem (List.mem_cons_of_mem _ hl)
    unfold pull at h
    split at h
    · split at h
      · exact hm h
      · rename_i o q' hcons
        rcases List.mem_cons.mp h with rfl | h
        · exact ⟨q, List.mem_cons_self, .of_sublist (hcons ▸ List.eraseP_sublist)⟩
        · exact hm h
    · rcases List.mem_cons.mp h with rfl | h
      · exact .of_mem List.mem_cons_self
      · obtain ⟨q', hq, hs⟩ := ih h
        exact ⟨q', List.mem_cons_of_mem _ hq, hs⟩

/-- What an act does to the queues, and the entries that it adds. -/
theorem Step.shift (hi : Inv f fl) (h : Step X (f, fl) (f', fl')) :
    ∃ new, f'.tape.log = f.tape.log ++ new ∧ Shift X f fl f' new := by
  have hnone : f'.tape.log = f.tape.log → (∀ b, f'.side b = f.side b) →
      ∃ new, f'.tape.log = f.tape.log ++ new ∧ Shift X f fl f' new := fun hlog hs =>
    ⟨[], by rw [hlog, List.append_nil], .of_same .nil hs⟩
  have hone : ∀ e : Mark, f'.tape.log = f.tape.log ++ [e] → e.joined = none →
      (∀ b, f'.side b = f.side b) → ∃ new, f'.tape.log = f.tape.log ++ new ∧ Shift X f fl f' new :=
    fun e hlog he hs => ⟨[e], hlog, .of_same (.single he) hs⟩
  have htwo : ∀ e e' : Mark, f'.tape.log = f.tape.log ++ [e] ++ [e'] → e.joined = none →
      e'.joined = none → (∀ b, f'.side b = f.side b) →
      ∃ new, f'.tape.log = f.tape.log ++ new ∧ Shift X f fl f' new :=
    fun e e' hlog he he' hs => ⟨[e] ++ [e'], by rw [hlog, List.append_assoc],
      .of_same (.append (.single he) (.single he')) hs⟩
  cases h with
  | perm => exact hnone rfl fun _ => rfl
  | trade hside hrem hm hc hpo hst hstop hfill => exact Shift.of_turn hi hside (fares_fill hfill)
  | selfTrade hside => exact Shift.of_turn hi hside (fares_handleStp _ _ _)
  | drop hside =>
    refine ⟨[], by rw [tape_setSide, List.append_nil], ?_⟩
    exact .of_setSide .nil (fun _ => rfl) fun l hl => .of_mem (hside ▸ List.mem_cons_of_mem _ hl)
  | filled => exact hnone rfl fun _ => rfl
  | cancel => exact hone _ rfl rfl fun b => side_withTape _ _ b
  | kill => exact htwo _ _ rfl rfl rfl fun b => side_withTape _ _ b
  | recancel => exact htwo _ _ rfl rfl rfl fun b => side_withTape _ _ b
  | rest hst hold hrem htype htif hmin hcross hfresh =>
    exact Shift.of_rest hi rfl (List.append_nil _).symm .nil rfl hfresh.aged
  | passive hpo hold hcross hfresh =>
    exact Shift.of_rest hi rfl (List.append_nil _).symm .nil rfl hfresh.aged
  | reprice hpo hold hside hX hrep hfresh =>
    obtain ⟨rfl, rfl⟩ := Prod.mk.inj (reprice_eq hside hrep)
    exact Shift.of_rest hi rfl rfl (.single rfl) rfl hfresh.aged
  | leave => exact hone _ rfl rfl fun b => side_withTape _ _ b
  | report => exact hone _ rfl rfl fun b => side_withTape _ _ b
  | wake => exact hnone rfl fun b => by cases b <;> rfl
  | trigger => exact hone _ rfl rfl fun b => side_withTape _ _ b
  | park => exact hnone rfl fun b => by cases b <;> rfl
  | toLimit => exact hnone rfl fun _ => rfl
  | loosen => exact hnone rfl fun _ => rfl
  | tick => exact hnone rfl fun b => side_withTape _ _ b
  | setTime => exact hnone rfl fun b => side_withTape _ _ b
  | clear => exact hnone rfl fun b => side_withTape _ _ b
  | reject => exact hone _ rfl rfl fun b => side_withTape _ _ b
  | accept => exact hone _ rfl rfl fun b => side_withTape _ _ b
  | unlink =>
    refine ⟨[], by unfold Flat.unlink; rw [tape_setSide, List.append_nil], ?_⟩
    exact .of_setSide .nil (fun _ => rfl) fun l hl => sublist_pull hl
  | amend => exact hnone rfl fun b => side_withTape _ _ b
  | shrink =>
    refine ⟨[], by rw [tape_setSide, List.append_nil], .of_setSide .nil (fun _ => rfl) fun l hl => ?_⟩
    obtain ⟨l₀, hl₀, rfl⟩ := List.mem_map.mp hl
    refine ⟨l₀.2, hl₀, ?_⟩
    unfold Thins
    rw [List.map_map]
    refine (congrArg (List.Sublist · _) (List.map_congr_left fun x hx => ?_)).mpr (List.Sublist.refl _)
    dsimp only [Function.comp]
    split <;> rfl
  | expire => exact htwo _ _ rfl rfl rfl fun b => side_withTape _ _ b

end Flat

end MatchingEngine.Cpp
