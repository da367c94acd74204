import MatchingEngine.Cpp.Amends
import MatchingEngine.Cpp.Life
import MatchingEngine.Cpp.Queues
import MatchingEngine.Cpp.Removal
import MatchingEngine.Cpp.Reports

/-!
# Price-time priority

When an order last went to the end of its queue is read off the history. Along a queue these moments
go up, so a trade is with the order of its price that has waited for longest. An order goes to the
end of a queue when it comes to rest, when it shows its next slice, and when an amendment costs it
its place, and only then.
-/

namespace MatchingEngine.Cpp

open Lib

/-! ## The last entry into a queue -/

/-- When the history tells for the last time that the order of an id goes to the end of a queue,
counted from one; zero when it never does. -/
def lastEntry (id : UInt64) (log : List Mark) : ℕ :=
  log.length - (since (fun m => m.joined = some id) log).length

/-- No entry is after the last one. -/
theorem lastEntry_le (id : UInt64) (log : List Mark) : lastEntry id log ≤ log.length := Nat.sub_le _ _

/-- An order that does not join a queue again keeps its last entry. -/
theorem lastEntry_append {id : UInt64} {log new : List Mark} (h : ∀ m ∈ new, m.joined ≠ some id) :
    lastEntry id (log ++ new) = lastEntry id log := by
  have hle : (since (fun m => m.joined = some id) log).length ≤ log.length :=
    (List.rtakeWhile_suffix _ _).length_le
  unfold lastEntry
  rw [since_append fun m hm => decide_eq_false (h m hm), List.length_append, List.length_append]
  omega

/-- An order that joins a queue has its last entry there. -/
theorem lastEntry_joined {id : UInt64} {log : List Mark} {m : Mark} (h : m.joined = some id) :
    lastEntry id (log ++ [m]) = log.length + 1 := by
  unfold lastEntry
  rw [since_concat (decide_eq_true h), List.length_append]
  rfl

namespace Flat

variable {X : Special → Prop} {f f' : Flat} {fl fl' : List Order} {new : List Mark}

/-- Along every queue the last entries go up. -/
def Lined (f : Flat) : Prop :=
  ∀ b, ∀ l ∈ f.side b, l.2.Pairwise fun x y => lastEntry x.id f.tape.log < lastEntry y.id f.tape.log

/-- An act keeps the queues in line, if whoever it puts at the end of one joins it in the history.
-/
theorem Lined.step (h : f.Lined) (hlog : f'.tape.log = f.tape.log ++ new)
    (hshift : Shift X f fl f' new) :
    f'.Lined := by
  intro b l hl
  -- A queue that was thinned, where the entries are of other orders.
  have hfrom : ∀ {q : List Order}, From (f.side b) (l.1, q) →
      (∀ x ∈ q, ∀ m ∈ new, m.joined ≠ some x.id) →
      q.Pairwise fun x y => lastEntry x.id f'.tape.log < lastEntry y.id f'.tape.log := by
    rintro q ⟨q₀, hq, ht⟩ hother
    have hkey : ∀ x ∈ q, lastEntry x.id f'.tape.log = lastEntry x.id f.tape.log := fun x hx => by
      rw [hlog, lastEntry_append (hother x hx)]
    have hold : (q₀.map (·.place)).Pairwise fun x y =>
        lastEntry x.1 f.tape.log < lastEntry y.1 f.tape.log :=
      List.pairwise_map.mpr (h b _ hq)
    refine (List.pairwise_map.mp (hold.sublist ht)).imp_of_mem fun hx hy hlt => ?_
    rw [hkey _ hx, hkey _ hy]
    exact hlt
  cases hshift with
  | thins hnew hall =>
    exact hfrom (hall b l hl) fun x _ m hm => by rw [hnew m hm]; nofun
  | joins hnew hpre he hnow hts hall =>
    rename_i b₀ o pre e
    have hother : ∀ {q : List Order}, (∀ x ∈ q, x.id ≠ o.id) → ∀ x ∈ q, ∀ m ∈ new,
        m.joined ≠ some x.id := by
      intro q hq x hx m hm
      rw [hnew] at hm
      rcases List.mem_append.mp hm with hm | hm
      · rw [hpre m hm]
        nofun
      · rw [List.mem_singleton.mp hm, he.joined]
        exact fun heq => hq x hx (Option.some.inj heq).symm
    rcases hall b l hl with ⟨hl, hne⟩ | ⟨rfl, hprice, q, hlq, hne, hq⟩
    · exact hfrom hl (hother hne)
    · rw [hlq]
      refine List.pairwise_append.mpr ⟨?_, List.pairwise_singleton _ _, fun x hx y hy => ?_⟩
      · rcases hq with rfl | hq
        · exact List.Pairwise.nil
        · exact hfrom hq (hother hne)
      · rw [List.mem_singleton.mp hy, hlog, lastEntry_append (hother hne x hx), hnew,
          ← List.append_assoc,
          lastEntry_joined he.joined, List.length_append]
        have hle := lastEntry_le x.id f.tape.log
        omega

end Flat

/-! ## Trades -/

/-- What is asked of a trade of `inc` with `r`, where `past` is the history before it and `contra`
the side that `r` rests on. -/
structure Sound (past : List Mark) (t : Trade) (inc r : Order) (contra : Levels) : Prop where
  parties : t.aggressorId = inc.id ∧ t.passiveId = r.id
  price : t.price = r.price
  limit : inc.price ≠ 0 → match inc.side with
    | .BUY => t.price ≤ inc.price
    | .SELL => inc.price ≤ t.price
  quantity : 0 < t.quantity ∧ t.quantity ≤ inc.remainingQty ∧ t.quantity ≤ r.visibleQty
  group : inc.selfTradeGroup ≠ 0 → inc.selfTradeGroup ≠ r.selfTradeGroup
  postOnly : inc.postOnly = false
  rests : r ∈ contra.orders
  best : ∀ x ∈ contra.orders, better (oppositeSide inc.side) x.price r.price = false
  first : ∀ x ∈ contra.orders, x.price = r.price → x ≠ r → lastEntry r.id past < lastEntry x.id past

/-- No price is better than itself. -/
theorem better_irrefl (b : Side) (p : ℤ) : better b p p = false := by
  cases b <;> simp [better]

/-- A trade is sound: the head of the best level has the best price, and the first entry of its
queue. -/
theorem Executes.sound {f : Flat} {fl : List Order} {t : Trade} {inc r : Order} {contra : Levels}
    (h : Executes f t inc r contra) (hi : Inv f fl) (hl : f.Lined) :
    Sound f.tape.log t inc r contra := by
  obtain ⟨p, q, m, rfl, hm⟩ := h.head
  have hs : Shelf (oppositeSide inc.side) ((p, r :: q) :: m) :=
    h.side ▸ hi.sides (oppositeSide inc.side)
  have hmem : ∀ l ∈ (p, r :: q) :: m, l ∈ f.side (oppositeSide inc.side) := fun l hx => by rwa [h.side]
  have hp : r.price = p := (hs.rest _ List.mem_cons_self r List.mem_cons_self).price
  -- Where an order is: in the first level, or in a worse one.
  have hwhere : ∀ x ∈ Levels.orders ((p, r :: q) :: m), x ∈ r :: q ∧ x.price = p ∨
      better (oppositeSide inc.side) p x.price = true := by
    intro x hx
    obtain ⟨l, hlm, hxl⟩ := Levels.mem_orders.mp hx
    have hprice := (hs.rest l hlm x hxl).price
    rcases List.mem_cons.mp hlm with rfl | hlm
    · exact .inl ⟨hxl, hprice⟩
    · rw [hprice]
      exact .inr ((List.pairwise_cons.mp hs.sorted).1 l hlm)
  obtain rfl := h.trade
  refine ⟨⟨rfl, rfl⟩, rfl, fun hne => ?_, ⟨h.positive, Int.min_le_left _ _, Int.min_le_right _ _⟩,
    fun hne he => ?_, h.postOnly, List.mem_append_left _ List.mem_cons_self, fun x hx => ?_,
      fun x hx hxp hne => ?_⟩
  · unfold canMatch at hm
    rw [if_neg hne, ← hp] at hm
    cases hside : inc.side <;> rw [hside] at hm <;> exact of_decide_eq_true hm
  · have hc := h.conflict
    unfold stpConflict at hc
    rw [← he, decide_eq_true hne] at hc
    simp at hc
  · rcases hwhere x hx with ⟨-, hxp⟩ | hb
    · rw [hxp, hp]
      exact better_irrefl _ _
    · rw [hp]
      exact Bool.eq_false_iff.mpr (better_asymm hb).1
  · rcases hwhere x hx with ⟨hxq, -⟩ | hb
    · rcases List.mem_cons.mp hxq with rfl | hxq
      · exact absurd rfl hne
      · exact (List.pairwise_cons.mp (hl _ _ (hmem _ List.mem_cons_self))).1 x hxq
    · rw [hxp, hp, better_irrefl] at hb
      cases hb

/-! ## Slices -/

/-- The id of the resting order of which an entry tells that its displayed slice is used up and that
it has more to show. -/
def Mark.usesUp : Mark → Option UInt64
  | .executed t _ r _ => if Reloads (Flat.filledBy r t.quantity) then some r.id else none
  | .event (.onOrderDecremented _ r _) =>
    if r.remainingQty ≠ 0 ∧ r.visibleQty = 0 ∧ 0 < r.displayQty then some r.id else none
  | _ => none

/-- The id of the order of which an entry tells that it shows its next slice. -/
def Mark.shows : Mark → Option UInt64
  | .reloaded o => some o.id
  | _ => none

/-- An entry tells of a next slice just when the one before it, which is `due` of the first, tells
that the slice of the order is used up. -/
def Sliced : Option UInt64 → List Mark → Prop
  | due, [] => due = none
  | due, m :: ms => m.shows = due ∧ Sliced m.usesUp ms

/-- Two parts of a history, the second of which owes no slice. -/
theorem Sliced.append {due : Option UInt64} {log new : List Mark} (h : Sliced due log)
    (h' : Sliced none new) : Sliced due (log ++ new) := by
  induction log generalizing due with
  | nil =>
    obtain rfl := h
    exact h'
  | cons m log ih => exact ⟨h.1, ih h.2⟩

namespace Flat

variable {X : Special → Prop} {f f' : Flat} {fl fl' : List Order}

/-- A fill that uses up a slice is followed by the next one, if there is one. -/
theorem sliced_afterFill {contra : Levels} {inc r : Order} {t : Tape} {x : Order × Fate × Tape}
    (h : fill contra inc r t = some x) : ∃ new, x.2.2.log = t.log ++ new ∧ Sliced none new := by
  rw [(fill_eq h).2]
  unfold afterFill
  split
  · rename_i hr
    exact ⟨_, List.append_assoc _ [_] [_], rfl, (if_pos hr).symm, rfl⟩
  · rename_i hr
    split
    · exact ⟨_, List.append_assoc _ [_] [_], rfl, (if_neg hr).symm, rfl⟩
    · exact ⟨_, rfl, rfl, if_neg hr⟩

/-- A decrement that uses up a slice is followed by the next one, if there is one. -/
theorem sliced_decrement (inc r : Order) (t : Tape) :
    ∃ new, (decrement inc r t).2.2.log = t.log ++ new ∧ Sliced none new := by
  unfold decrement afterDecrement
  dsimp only
  split
  · rename_i hr
    exact ⟨_, List.append_assoc _ [_] [_], rfl, (if_neg fun h => h.1 hr).symm, rfl⟩
  · rename_i hr
    split
    · rename_i hv
      exact ⟨_, List.append_assoc _ [_] [_], rfl, (if_pos ⟨hr, hv⟩).symm, rfl⟩
    · rename_i hv
      exact ⟨_, rfl, rfl, if_neg fun h => hv h.2⟩

/-- Only a decrement uses up a slice for self-trade prevention. -/
theorem sliced_handleStp (inc r : Order) (t : Tape) :
    ∃ new, (handleStp inc r t).2.2.log = t.log ++ new ∧ Sliced none new := by
  unfold handleStp
  split
  · exact ⟨_, rfl, rfl, rfl⟩
  · exact ⟨_, List.append_assoc _ _ _, rfl, rfl, rfl⟩
  · exact ⟨_, (congrArg (· ++ _) (List.append_assoc _ _ _)).trans (List.append_assoc _ _ _),
      rfl, rfl, rfl, rfl⟩
  · exact sliced_decrement inc r t
  · exact ⟨[], (List.append_nil _).symm, rfl⟩

/-- What an act adds to the history tells of a next slice just where a slice is used up. -/
theorem Step.sliced (h : Step X (f, fl) (f', fl')) :
    ∃ new, f'.tape.log = f.tape.log ++ new ∧ Sliced none new := by
  have hnone : f'.tape.log = f.tape.log → ∃ new, f'.tape.log = f.tape.log ++ new ∧ Sliced none new :=
    fun he => ⟨[], by rw [he, List.append_nil], rfl⟩
  cases h with
  | trade hside hrem hm hc hpo hst hstop hfill => exact sliced_afterFill hfill
  | selfTrade => exact sliced_handleStp _ _ f.tape
  | drop => exact hnone (by rw [tape_setSide])
  | cancel => exact ⟨_, rfl, rfl, rfl⟩
  | kill => exact ⟨_, List.append_assoc _ _ _, rfl, rfl, rfl⟩
  | recancel => exact ⟨_, List.append_assoc _ _ _, rfl, rfl, rfl⟩
  | expire => exact ⟨_, List.append_assoc _ _ _, rfl, rfl, rfl⟩
  | rest => exact ⟨_, rfl, rfl, rfl⟩
  | passive => exact ⟨_, rfl, rfl, rfl⟩
  | reprice hpo hold hside hX hrep =>
    obtain ⟨-, rfl⟩ := Prod.mk.inj (reprice_eq hside hrep)
    exact ⟨_, List.append_assoc _ _ _, rfl, rfl, rfl⟩
  | leave => exact ⟨_, rfl, rfl, rfl⟩
  | report => exact ⟨_, rfl, rfl, rfl⟩
  | trigger => exact ⟨_, rfl, rfl, rfl⟩
  | reject => exact ⟨_, rfl, rfl, rfl⟩
  | accept => exact ⟨_, rfl, rfl, rfl⟩
  | unlink => exact hnone (by unfold Flat.unlink; rw [tape_setSide])
  | shrink => exact hnone (by rw [tape_setSide])
  | _ => exact hnone rfl

end Flat

/-! ## Orders that come to rest -/

/-- The id of the order of which an entry tells that it comes to rest. -/
def Mark.seats : Mark → Option UInt64
  | .rested o _ => some o.id
  | _ => none

/-- The ids of the orders of which some entries tell that they come to rest. -/
def seated (ms : List Mark) : List UInt64 := ms.filterMap (·.seats)

/-- Who comes to rest in two parts of a history. -/
theorem seated_append (ms ms' : List Mark) : seated (ms ++ ms') = seated ms ++ seated ms' :=
  List.filterMap_append

/-- Entries that tell of nobody that comes to rest. -/
theorem seated_eq_nil {ms : List Mark} (h : ∀ m ∈ ms, m.seats = none) : seated ms = [] :=
  List.filterMap_eq_nil_iff.mpr h

namespace Flat

variable {X : Special → Prop} {f f' : Flat} {fl fl' : List Order}

/-- A slice that is shown is no order that comes to rest. -/
theorem seats_afterFill (r : Order) (t : Tape) :
    ∃ new, (afterFill r t).2.log = t.log ++ new ∧ seated new = [] := by
  unfold afterFill
  split
  · exact ⟨_, rfl, rfl⟩
  · split
    · exact ⟨_, rfl, rfl⟩
    · exact ⟨[], (List.append_nil _).symm, rfl⟩

/-- Nobody comes to rest by a decrement. -/
theorem seats_afterDecrement (r : Order) (t : Tape) :
    ∃ new, (afterDecrement r t).2.log = t.log ++ new ∧ seated new = [] := by
  unfold afterDecrement
  split
  · exact ⟨_, rfl, rfl⟩
  · split
    · exact ⟨_, rfl, rfl⟩
    · exact ⟨[], (List.append_nil _).symm, rfl⟩

/-- Nobody comes to rest by self-trade prevention. -/
theorem seats_handleStp (inc r : Order) (t : Tape) :
    ∃ new, (handleStp inc r t).2.2.log = t.log ++ new ∧ seated new = [] := by
  unfold handleStp
  split
  · exact ⟨_, rfl, rfl⟩
  · exact ⟨_, List.append_assoc _ _ _, rfl⟩
  · exact ⟨_, (congrArg (· ++ _) (List.append_assoc _ _ _)).trans (List.append_assoc _ _ _), rfl⟩
  · obtain ⟨new, hlog, hnew⟩ := seats_afterDecrement (lessResting r (min inc.remainingQty r.visibleQty))
      (t.event (.onOrderDecremented (lessIncoming inc (min inc.remainingQty r.visibleQty))
        (lessResting r (min inc.remainingQty r.visibleQty)) (min inc.remainingQty r.visibleQty)))
    exact ⟨_ :: new, hlog.trans (List.append_assoc _ [_] new), hnew⟩
  · exact ⟨[], (List.append_nil _).symm, rfl⟩

/-- Which orders come to rest in an act, and which are still afoot. -/
theorem Step.seats (h : Step X (f, fl) (f', fl')) (hacc : ¬ X .accept) (hun : ¬ X .unlink) :
    ∃ new, f'.tape.log = f.tape.log ++ new ∧ (seated new ++ f'.afoot fl').Subperm (f.afoot fl) := by
  have hnone : f'.tape.log = f.tape.log → (f'.afoot fl').Subperm (f.afoot fl) →
      ∃ new, f'.tape.log = f.tape.log ++ new ∧ (seated new ++ f'.afoot fl').Subperm (f.afoot fl) :=
    fun he hs => ⟨[], by rw [he, List.append_nil], hs⟩
  have hplain : ∀ new : List Mark, f'.tape.log = f.tape.log ++ new → seated new = [] →
      (f'.afoot fl').Subperm (f.afoot fl) →
      ∃ new, f'.tape.log = f.tape.log ++ new ∧ (seated new ++ f'.afoot fl').Subperm (f.afoot fl) :=
    fun new he hn hs => ⟨new, he, by rw [hn]; exact hs⟩
  -- The first order in flight is done with.
  have hleave : ∀ {o : Order} {fl : List Order}, (f.afoot fl).Subperm (f.afoot (o :: fl)) :=
    fun {o fl} =>
    ((List.sublist_cons_self o fl).append_left f.stops |>.map _).subperm
  have hsame : ∀ {g : Flat} {o o' : Order} {fl : List Order}, g.stops = f.stops → o'.id = o.id →
      (g.afoot (o' :: fl)).Subperm (f.afoot (o :: fl)) := fun {g o o' fl} hg hid => by
    unfold afoot
    rw [hg, List.map_append, List.map_append, List.map_cons, List.map_cons, hid]
  have hrest : ∀ {g : Flat} {o : Order} {fl : List Order} {id : UInt64}, g.stops = f.stops → id = o.id →
      ([id] ++ g.afoot fl).Subperm (f.afoot (o :: fl)) := fun {g o fl id} hg hid => by
    unfold afoot
    rw [hg, hid]
    exact ((List.Perm.map (fun x : Order => x.id) List.perm_middle).symm).subperm
  cases h with
  | perm hp => exact hnone rfl ((hp.symm.append_left f.stops).map _).subperm
  | trade hside hrem hm hc hpo hst hstop hfill =>
    obtain ⟨-, he⟩ := fill_eq hfill
    obtain ⟨rfl, hft⟩ := Prod.mk.inj he
    obtain rfl := congrArg Prod.snd hft
    obtain ⟨new, hlog, hnew⟩ := seats_afterFill (filledBy _ _) (f.tape.record _ _ _ _)
    refine hplain (_ :: new) (hlog.trans (List.append_assoc _ [_] new)) hnew ?_
    exact hsame ((stops_withTape _ _).trans (stops_setSide _ _ _)) rfl
  | selfTrade =>
    obtain ⟨new, hlog, hnew⟩ := seats_handleStp _ _ f.tape
    refine hplain new hlog hnew (hsame ((stops_withTape _ _).trans (stops_setSide _ _ _)) ?_)
    rw [alike_handleStp _ _ f.tape]
  | drop =>
    refine hnone (by rw [tape_setSide]) ?_
    unfold afoot
    rw [stops_setSide]
  | filled => exact hnone rfl (hsame rfl rfl)
  | cancel => exact hplain _ rfl rfl (hsame rfl rfl)
  | kill => exact hplain _ (List.append_assoc _ _ _) rfl hleave
  | recancel => exact hplain _ (List.append_assoc _ _ _) rfl hleave
  | rest => exact ⟨_, rfl, hrest (stops_setSide f _ _) rfl⟩
  | passive => exact ⟨_, rfl, hrest (stops_setSide f _ _) rfl⟩
  | reprice hpo hold hside hX hrep =>
    obtain ⟨rfl, rfl⟩ := Prod.mk.inj (reprice_eq hside hrep)
    exact ⟨_, List.append_assoc _ _ _, hrest (stops_setSide (f.withTape _) _ _) rfl⟩
  | leave => exact hplain _ rfl rfl hleave
  | report => exact hplain _ rfl rfl (List.Subperm.refl _)
  | wake hp =>
    refine hnone rfl (List.Perm.subperm ?_)
    refine List.Perm.map _ (((hp.append_right fl).trans ?_).symm)
    rw [List.append_assoc]
    exact List.perm_append_comm_assoc _ _ _
  | trigger => exact hplain _ rfl rfl (hsame rfl rfl)
  | park =>
    refine hnone rfl (List.Perm.subperm ?_)
    unfold afoot
    rw [List.append_assoc]
    exact .refl _
  | toLimit => exact hnone rfl (hsame rfl rfl)
  | loosen => exact hnone rfl (hsame rfl rfl)
  | tick => exact hnone rfl (List.Subperm.refl _)
  | setTime => exact hnone rfl (List.Subperm.refl _)
  | clear => exact hnone rfl (List.Subperm.refl _)
  | reject => exact hplain _ rfl rfl (List.Subperm.refl _)
  | accept i hfresh hv hX => exact absurd hX hacc
  | unlink ho hX => exact absurd hX hun
  | amend => exact hnone rfl (hsame rfl rfl)
  | shrink =>
    refine hnone (by rw [tape_setSide]) ?_
    unfold afoot
    rw [stops_setSide]
  | expire => exact hplain _ (List.append_assoc _ _ _) rfl hleave

/-- Over some acts: whoever comes to rest was afoot, once, and no longer is. -/
theorem Steps.seats {x y : Flat × List Order} (h : Steps X x y) (hacc : ¬ X .accept)
    (hun : ¬ X .unlink) :
    ∃ new, y.1.tape.log = x.1.tape.log ++ new ∧ (seated new ++ y.1.afoot y.2).Subperm
      (x.1.afoot x.2) := by
  induction h with
  | refl => exact ⟨[], (List.append_nil _).symm, List.Subperm.refl _⟩
  | tail _ hact ih =>
    obtain ⟨new, hlog, hs⟩ := ih
    obtain ⟨new', hlog', hs'⟩ := Step.seats hact hacc hun
    refine ⟨new ++ new', by rw [hlog', hlog, List.append_assoc], ?_⟩
    rw [seated_append, List.append_assoc]
    exact ((List.subperm_append_left _).mpr hs').trans hs

/-- An order that rests after an act has come to rest by it, or has rested before. -/
theorem Step.resting (hi : Inv f fl) (h : Step X (f, fl) (f', fl')) :
    ∃ new, f'.tape.log = f.tape.log ++ new ∧ ∀ b, ∀ o ∈ (f'.side b).orders,
      o.id ∈ seated new ∨ ∃ x ∈ (f.side b).orders, x.id = o.id := by
  obtain ⟨new, hlog, hshift⟩ := h.shift hi
  refine ⟨new, hlog, fun b o ho => ?_⟩
  obtain ⟨l, hl, ho⟩ := Levels.mem_orders.mp ho
  have hfrom : ∀ {q : List Order}, From (f.side b) (l.1, q) → o ∈ q →
      ∃ x ∈ (f.side b).orders, x.id = o.id := by
    rintro q ⟨q₀, hq, ht⟩ hoq
    obtain ⟨x, hx, hid, -⟩ := ht.mem hoq
    exact ⟨x, Levels.mem_orders.mpr ⟨_, hq, hx⟩, hid⟩
  cases hshift with
  | thins _ hall => exact .inr (hfrom (hall b l hl) ho)
  | joins hnew hpre he hnow hts hall =>
    rcases hall b l hl with ⟨hl, -⟩ | ⟨rfl, -, q, hlq, -, hq⟩
    · exact .inr (hfrom hl ho)
    · rw [hlq] at ho
      rcases List.mem_append.mp ho with ho | ho
      · rcases hq with rfl | hq
        · cases ho
        · exact .inr (hfrom hq ho)
      · rw [List.mem_singleton.mp ho]
        cases he with
        | rested hside hplace hfl hq' haged =>
          rename_i o' q'
          have hm : Mark.rested o' q' ∈ new := by
            rw [hnew]
            exact List.mem_append_right _ List.mem_cons_self
          have hid : (Mark.rested o' q').seats = some _ := congrArg some (congrArg Prod.fst hplace).symm
          exact .inl (List.mem_filterMap.mpr ⟨_, hm, hid⟩)
        | reloaded hstamp hmem => exact .inr hmem

/-- Over some acts: whoever rests in the end has come to rest, or has rested before. -/
theorem Steps.resting {x y : Flat × List Order} (hi : Inv x.1 x.2) (h : Steps X x y) :
    ∃ new, y.1.tape.log = x.1.tape.log ++ new ∧ ∀ b, ∀ o ∈ (y.1.side b).orders,
      o.id ∈ seated new ∨ ∃ z ∈ (x.1.side b).orders, z.id = o.id := by
  have hboth : Inv y.1 y.2 ∧ ∃ new, y.1.tape.log = x.1.tape.log ++ new ∧ ∀ b, ∀ o ∈ (y.1.side b).orders,
      o.id ∈ seated new ∨ ∃ z ∈ (x.1.side b).orders, z.id = o.id := by
    induction h with
    | refl => exact ⟨hi, [], (List.append_nil _).symm, fun b o ho => .inr ⟨o, ho, rfl⟩⟩
    | tail _ hact ih =>
      obtain ⟨hi', new, hlog, hall⟩ := ih
      obtain ⟨new', hlog', hall'⟩ := Step.resting hi' hact
      refine ⟨hi'.step hact, new ++ new', by rw [hlog', hlog, List.append_assoc], fun b o ho => ?_⟩
      rw [seated_append]
      rcases hall' b o ho with hn | ⟨z, hz, hid⟩
      · exact .inl (List.mem_append_right _ hn)
      · rw [← hid]
        exact (hall b z hz).imp (List.mem_append_left _) id
  exact hboth.2

/-! ## Calls -/

variable {S : StdSort} {c : Call}

/-- An amendment of the order that costs it its place. -/
def Displaces (c : Call) (o : Order) : Prop :=
  ∃ newPx newQty, c = .amend o.id newPx newQty ∧ LosesPlace o newPx newQty

/-- The orders that a call may bring to rest, by id: the one that it submits, stops that it
triggers, and the one that it takes the place of. -/
inductive Seats (f : Flat) (c : Call) (id : UInt64) : Prop
  | submitted {i : OrderInput} (hc : c = .submit i) (hid : i.id = id) (hadm : Admitted i f)
  | triggered {o : Order} (ho : o ∈ f.stops) (hid : o.id = id)
  | displaced {b : Side} {o : Order} (ho : o ∈ (f.side b).orders) (hid : o.id = id) (hc : Displaces c o)

/-- What a call tells of the orders that come to rest: each does so once, and may do so, and an
order that rests after the call has come to rest in it or has kept its place. -/
structure Seating (f : Flat) (c : Call) (f' : Flat) (new : List Mark) : Prop where
  log : f'.tape.log = f.tape.log ++ new
  once : (seated new).Nodup
  seats : ∀ id ∈ seated new, Seats f c id
  resting : ∀ b, ∀ o ∈ (f'.side b).orders, o.id ∈ seated new ∨
    ∃ x ∈ (f.side b).orders, x.id = o.id ∧ ¬ Displaces c x

/-- A call that brings no order to rest. -/
theorem Seating.of_none {new : List Mark} (hlog : f'.tape.log = f.tape.log ++ new)
    (hnew : seated new = [])
    (hrest : ∀ b, ∀ o ∈ (f'.side b).orders, ∃ x ∈ (f.side b).orders, x.id = o.id ∧ ¬ Displaces c x) :
    Seating f c f' new where
  log := hlog
  once := by
    rw [hnew]
    exact List.nodup_nil
  seats id hid := by
    rw [hnew] at hid
    cases hid
  resting b o ho := .inr (hrest b o ho)

/-- All acts but those that begin a call. -/
def Within : Special → Prop
  | .accept => False
  | .unlink => False
  | _ => True

/-- An order that is neither cancelled nor a stop is ready, in the part of a call that works on it.
-/
theorem ready_within {o : Order} (hst : o.status ≠ .CANCELLED) (hstop : o.orderType.isStop = false) :
    Ready Within o f :=
  ⟨hst, hstop, fun _ _ _ _ _ => trivial, fun _ _ _ _ _ _ _ => trivial, .inl trivial,
    .inr (.inl trivial)⟩

/-- The part of a call that works on the order `o`. -/
theorem seating_within {f₁ : Flat} {o : Order} {k : List Mark} (hi : Inv f₁ [o])
    (h : Steps Within (f₁, [o]) (f', [])) (hlog : f₁.tape.log = f.tape.log ++ k) (hk : seated k = [])
    (hstops : f₁.stops = f.stops) (hseat : Seats f c o.id)
    (hrest : ∀ b, ∀ x ∈ (f₁.side b).orders, ∃ y ∈ (f.side b).orders, y.id = x.id ∧ ¬ Displaces c y) :
    ∃ new, Seating f c f' new := by
  obtain ⟨new, hnew, hsub⟩ := Steps.seats h id id
  obtain ⟨new', hnew', hres⟩ := Steps.resting hi h
  obtain rfl : new' = new := List.append_cancel_left (hnew'.symm.trans hnew)
  have hsub := (List.sublist_append_left _ _).subperm.trans hsub
  have hseated : seated (k ++ new') = seated new' := by rw [seated_append, hk, List.nil_append]
  refine ⟨k ++ new', ?_, ?_, fun id hid => ?_, fun b x hx => ?_⟩
  · rw [show f'.tape.log = _ from hnew', hlog, List.append_assoc]
  · obtain ⟨ids, hp, hs⟩ := hsub
    rw [hseated]
    exact hp.nodup_iff.mp ((nodup_afoot hi).sublist hs)
  · rw [hseated] at hid
    obtain ⟨y, hy, rfl⟩ := List.mem_map.mp (hsub.subset hid)
    rcases List.mem_append.mp hy with hy | hy
    · exact .triggered (hstops ▸ hy) rfl
    · rw [List.mem_singleton.mp hy]
      exact hseat
  · rw [hseated]
    refine (hres b x hx).imp id fun ⟨z, hz, hid⟩ => ?_
    obtain ⟨y, hy, hyz, hd⟩ := hrest b z hz
    exact ⟨y, hy, hyz.trans hid, hd⟩

/-- A submission. -/
theorem seating_submit (hi : Inv f []) {i : OrderInput} {r : Bool × Flat}
    (h : submitOrder S i f = some r) : ∃ new, Seating f (.submit i) r.2 new := by
  have hkeep : ∀ b, ∀ o ∈ (f.side b).orders,
      ∃ x ∈ (f.side b).orders, x.id = o.id ∧ ¬ Displaces (.submit i) x :=
    fun b o ho => ⟨o, ho, rfl, fun ⟨_, _, hc, _⟩ => Call.noConfusion hc⟩
  unfold submitOrder at h
  split at h
  · cases h
    exact ⟨_, .of_none rfl rfl hkeep⟩
  · rename_i hdup
    dsimp only at h
    cases hv : validate (f.tape.now + 1) (i.order (f.tape.now + 1)) with
    | some err =>
      rw [hv] at h
      cases h
      exact ⟨_, .of_none rfl rfl hkeep⟩
    | none =>
      rw [hv] at h
      obtain ⟨f', hp, rfl⟩ := Option.map_eq_some_iff.mp h
      have hvalid := valid_of_validate hv
      have hfresh : ∀ o ∈ f.orders, o.id ≠ i.id := fun o ho hid =>
        hdup (List.any_eq_true.mpr ⟨o, ho, decide_eq_true hid⟩)
      have hi₁ := (Inv.accept (t := f.tape.tick.event (.onOrderAccepted (i.order (f.tape.now + 1)))) hi
        hvalid.flying hfresh).step (.clear (X := Any) trivial)
      have hsteps := steps_process (X := Within) S (by exact hi.tidy.stops) hp rfl hvalid.stop_postOnly
        fun hstop => ready_within nofun hstop
      exact seating_within hi₁ hsteps rfl rfl rfl (.submitted rfl rfl ⟨hfresh, hv⟩) hkeep

/-- An amendment. -/
theorem seating_amend (hi : Inv f []) {id : UInt64} {newPx newQty : ℤ} {r : Bool × Flat}
    (h : amendOrder S id newPx newQty f = some r) :
    ∃ new, Seating f (.amend id newPx newQty) r.2 new := by
  -- An order that the amendment does not displace.
  have hkeep : ∀ x : Order, (x.id = id → ¬ LosesPlace x newPx newQty) →
      ¬ Displaces (.amend id newPx newQty) x := by
    rintro x hx ⟨px, qty, hc, hd⟩
    obtain ⟨hid, rfl, rfl⟩ := Call.amend.inj hc
    exact hx hid.symm hd
  have hone : ∀ {b : Side} {o : Order}, o ∈ (f.side b).orders → ∀ b', ∀ x ∈ (f.side b').orders,
      x.id = o.id → x = o := fun ho b' x hx => eq_of_id hi (mem_orders hx) (mem_orders ho)
  cases amends hi h with
  | missing hno =>
    refine ⟨[], .of_none (List.append_nil _).symm rfl fun b x hx => ⟨x, hx, rfl, hkeep x fun hid => ?_⟩⟩
    exact absurd hid (hno b x hx)
  | shrinks ho hid hpos hlt hk =>
    rename_i b o
    obtain rfl := hid
    have hact : Step Any (f, []) _ := .shrink trivial ho hpos hlt
    obtain ⟨new, hlog, hres⟩ := Step.resting hi hact
    have hnil : new = [] := by
      have htape : (f.setSide b (change o.id (fun o => { o with
        remainingQty := newQty, visibleQty := min o.visibleQty newQty }) (f.side b))).tape = f.tape :=
          tape_setSide _ _ _
      rw [htape] at hlog
      exact List.self_eq_append_right.mp hlog
    subst hnil
    refine ⟨[], .of_none hlog rfl fun b' x hx => ?_⟩
    rcases hres b' x hx with hn | ⟨y, hy, hyx⟩
    · cases hn
    · refine ⟨y, hy, hyx, hkeep y fun hid => ?_⟩
      rw [hone ho b' y hy hid]
      exact hk
  | reenters ho hid hlose hp =>
    rename_i b o f'
    obtain rfl := hid
    have hi₁ := reentry hi ho hlose
    obtain ⟨l, hlm, hol⟩ := Levels.mem_orders.mp ho
    have hr := ((hi.sides b).rest l hlm o hol).ready newPx newQty (f.tape.now + 1) f
    have hstops : (f.unlink b o).stops = f.stops := stops_setSide _ _ _
    have htape : (f.unlink b o).tape = f.tape := tape_setSide _ _ _
    obtain ⟨hsteps, -⟩ := acts_processActiveIn (X := Within) S _ _ _ _ _
      (by exact hstops.symm ▸ hi.tidy.stops) hp (ready_within hr.status hr.notStop)
    refine seating_within hi₁ (hsteps []) (k := []) ?_ rfl hstops
      (.displaced ho rfl ⟨newPx, newQty, rfl, hlose⟩) fun b' x hx => ⟨x, ?_, rfl, ?_⟩
    · exact (List.append_nil _).symm
    · change x ∈ ((f.unlink b o).side b').orders at hx
      rw [side_unlink hi ho, Levels.orders_keep] at hx
      exact (List.mem_filter.mp hx).1
    · change x ∈ ((f.unlink b o).side b').orders at hx
      rw [side_unlink hi ho, Levels.orders_keep] at hx
      exact hkeep x fun hid => absurd hid (of_decide_eq_true (List.mem_filter.mp hx).2)
  | idle ho hid hk hle =>
    obtain rfl := hid
    refine ⟨[], .of_none (List.append_nil _).symm rfl fun b x hx => ⟨x, hx, rfl, hkeep x fun hid => ?_⟩⟩
    rw [hone ho b x hx hid]
    exact hk

/-- Nobody comes to rest by expiring. -/
theorem seated_expiry (os : List Order) : seated (os.flatMap expiry) = [] := by
  refine seated_eq_nil fun m hm => ?_
  obtain ⟨o, -, hm⟩ := List.mem_flatMap.mp hm
  rcases List.mem_cons.mp hm with rfl | hm
  · rfl
  · rw [List.mem_singleton.mp hm]
    rfl

/-- Nobody comes to rest by a cancellation. -/
theorem log_cancelOrder (id : UInt64) :
    ∃ new, (cancelOrder id f).2.tape.log = f.tape.log ++ new ∧ seated new = [] := by
  have hnone : ∃ new, f.tape.log = f.tape.log ++ new ∧ seated new = [] :=
    ⟨[], (List.append_nil _).symm, rfl⟩
  have hkill : ∀ (o : Order) (g : Flat), g.tape = f.tape →
      ∃ new, (kill o "USER_REQUESTED" g).tape.log = f.tape.log ++ new ∧ seated new = [] := fun o g hg =>
    ⟨_, (List.append_assoc _ _ _).trans (congrArg (fun t : Tape => t.log ++ _) hg), rfl⟩
  unfold cancelOrder
  split
  · exact hnone
  · split
    · exact hkill _ _ (tape_setSide _ _ _)
    · exact hnone
  · split
    · refine hkill _ _ ?_
      unfold rmStop
      split <;> rfl
    · exact hnone

/-- Every call. -/
theorem seating_run (hi : Inv f []) (h : Flat.run S c f = some f') : ∃ new, Seating f c f' new := by
  have hsame : ∀ g : Flat, g.tape.log = f.tape.log → (∀ b, g.side b = f.side b) →
      (∀ x, ¬ Displaces c x) → ∃ new, Seating f c g new := fun g hlog hs hd =>
    ⟨[], .of_none (by rw [hlog, List.append_nil]) rfl fun b o ho => ⟨o, hs b ▸ ho, rfl, hd o⟩⟩
  cases c with
  | submit i =>
    obtain ⟨r, hr, rfl⟩ := Option.map_eq_some_iff.mp h
    exact seating_submit hi hr
  | amend id newPx newQty =>
    obtain ⟨r, hr, rfl⟩ := Option.map_eq_some_iff.mp h
    exact seating_amend hi hr
  | cancel id =>
    have hd : ∀ x, ¬ Displaces (.cancel id) x := fun x ⟨_, _, hc, _⟩ => Call.noConfusion hc
    obtain ⟨new, hlog, hnew⟩ := log_cancelOrder (f := f) id
    cases h
    obtain ⟨new', hlog', hres⟩ := Steps.resting hi (steps_cancelOrder (X := Any) hi.tidy trivial id)
    obtain rfl : new' = new := List.append_cancel_left (hlog'.symm.trans hlog)
    refine ⟨new', .of_none hlog hnew fun b o ho => ?_⟩
    rcases hres b o ho with hn | ⟨x, hx, hid⟩
    · rw [hnew] at hn
      cases hn
    · exact ⟨x, hx, hid, hd x⟩
  | expire t =>
    obtain ⟨hsides, -, os, -, hlog⟩ := expireOrders_keep hi h
    refine ⟨_, .of_none hlog (seated_expiry os) fun b o ho => ⟨o, ?_, rfl, ?_⟩⟩
    · rw [hsides, Levels.orders_keep] at ho
      exact (List.mem_filter.mp ho).1
    · exact fun ⟨_, _, hc, _⟩ => Call.noConfusion hc
  | setTime t =>
    cases h
    exact hsame _ rfl (fun b => side_withTape _ _ b) fun x ⟨_, _, hc, _⟩ => Call.noConfusion hc
  | assignId =>
    cases h
    exact hsame _ rfl (fun _ => rfl) fun x ⟨_, _, hc, _⟩ => Call.noConfusion hc

end Flat

section Runs

variable {S : StdSort} {pop : PostOnlyPolicy} {tickSz : ℤ} {s : Engine}

/-- Every trade of a run is at the price of the resting order and within the limit of the incoming
one, and is with the order that has waited for longest at the best price. An order goes to the end
of its queue when it comes to rest and when it shows its next slice: it shows one just where a fill
or a decrement has used up the one before, and it comes to rest when it was submitted, triggered, or
displaced by an amendment. -/
theorem price_time_priority (hs : Reach S pop tickSz s) :
    (∀ past t inc r contra later, s.log = past ++ .executed t inc r contra :: later →
      Sound past t inc r contra) ∧
    Sliced none s.log ∧
    ∀ c s', c.run S s = some ((), s') → ∃ new, Flat.Seating s.flat c s'.flat new := by
  have hall := hs.rule (J := fun x => x.1.Lined ∧ Sliced none x.1.tape.log ∧
      ∀ past t inc r contra later, x.1.tape.log = past ++ .executed t inc r contra :: later →
        Sound past t inc r contra)
    ⟨fun b l hl => (by cases b <;> cases hl), rfl,
      fun past _ _ _ _ _ he => (by cases past <;> cases he)⟩ ?_
  · exact ⟨hall.2.2, hall.2.1, fun c s' he => Flat.seating_run hs.inv (hs.run he)⟩
  · rintro x y hi ⟨hlined, hsliced, hsound⟩ hact
    obtain ⟨new, hlog, hshift⟩ := hact.shift hi
    obtain ⟨new₁, hlog₁, hnew₁⟩ := hact.sliced
    obtain ⟨new₂, hlog₂, hplain, hexec⟩ := hact.executed
    refine ⟨hlined.step hlog hshift, by rw [hlog₁]; exact hsliced.append hnew₁, ?_⟩
    intro past t inc r contra later he
    rw [hlog₂] at he
    rcases List.append_eq_append_iff.mp he with ⟨mid, hpast, hnew⟩ | ⟨mid, hold, hlater⟩
    · have hx := hexec t inc r contra (by rw [hnew]; exact List.mem_append_right _ List.mem_cons_self)
      cases mid with
      | nil =>
        rw [List.append_nil] at hpast
        rw [hpast]
        exact hx.sound hi hlined
      | cons m mid =>
        -- Only the first of the new entries is for a trade.
        rw [hnew] at hplain
        exact absurd (hplain _ (List.mem_append_right _ List.mem_cons_self)) nofun
    · cases mid with
      | nil =>
        rw [List.nil_append] at hlater
        have hx := hexec t inc r contra (by rw [← hlater]; exact List.mem_cons_self)
        rw [List.append_nil] at hold
        rw [← hold]
        exact hx.sound hi hlined
      | cons m mid =>
        obtain ⟨rfl, -⟩ := List.cons.inj hlater
        exact hsound past t inc r contra mid hold

end Runs

/-- Two asks at one price of which the first is an iceberg, and bids that take from both. -/
def icebergAhead : List Call :=
  [.submit { id := 1, side := .SELL, price := 10, quantity := 6, displayQty := 3 },
    .submit { id := 2, side := .SELL, price := 10, quantity := 4 },
    .submit { id := 3, price := 10, quantity := 3 },
    .submit { id := 4, price := 10, quantity := 5 }]

/-- The first order shows three of its ten, so after the first trade the second order is ahead of
it. -/
theorem price_time_priority_icebergAhead :
    ∃ s, runAll .insertion icebergAhead (.init .REJECT 1) = some ((), s) ∧
    (executed s.log).map (·.passiveId) = [1, 2, 1] ∧
    (∀ past t inc r contra later, s.log = past ++ .executed t inc r contra :: later →
      Sound past t inc r contra) ∧
    Sliced none s.log ∧
    ∀ c s', c.run .insertion s = some ((), s') → ∃ new, Flat.Seating s.flat c s'.flat new := by
  have hsome : ((runAll .insertion icebergAhead (.init .REJECT 1)).map fun r =>
      (executed r.2.log).map (·.passiveId)) = some [1, 2, 1] := by
    decide +kernel
  obtain ⟨⟨_, s⟩, hrun, hval⟩ := Option.map_eq_some_iff.mp hsome
  exact ⟨s, hrun, hval, price_time_priority (Reach.init.runAll hrun)⟩

end MatchingEngine.Cpp
