import MatchingEngine.Cpp.Balance
import MatchingEngine.Cpp.Life

/-!
# The orders of the engine have lives

An act of the engine is, for every order that the engine has, one change of `Cpp/Life.lean` or none,
and what it writes of an order is what that change writes. So in every run an order that the engine
has has a life with the story that the history tells of it, and so has an order that has left, when
it left.
-/

namespace MatchingEngine.Cpp

open Lib

/-- The orders of the engine and of the flight that are in a phase. -/
def Flat.at (f : Flat) (fl : List Order) : Phase → List Order
  | .flying => fl
  | .resting => f.bids.orders ++ f.asks.orders
  | .dormant => f.stops
  | .gone => []

namespace Flat

variable {X : Special → Prop} {f f' : Flat} {fl fl' : List Order} {b : Side} {new : List Mark}

/-- The resting orders are those of the two sides. -/
theorem mem_resting {o : Order} : o ∈ f.at fl .resting ↔ ∃ b, o ∈ (f.side b).orders := by
  constructor
  · intro h
    rcases List.mem_append.mp h with h | h
    · exact ⟨.BUY, h⟩
    · exact ⟨.SELL, h⟩
  · rintro ⟨b, h⟩
    cases b with
    | BUY => exact List.mem_append_left _ h
    | SELL => exact List.mem_append_right _ h

/-- An order of the engine or of the flight, whatever its phase. -/
theorem mem_at {o : Order} : o ∈ f.orders ++ fl ↔ ∃ ph, o ∈ f.at fl ph := by
  constructor
  · intro h
    rcases List.mem_append.mp h with h | h
    · rcases List.mem_append.mp h with h | h
      · exact ⟨.resting, mem_resting.mpr ⟨.BUY, h⟩⟩
      · rcases List.mem_append.mp h with h | h
        · exact ⟨.resting, mem_resting.mpr ⟨.SELL, h⟩⟩
        · exact ⟨.dormant, h⟩
    · exact ⟨.flying, h⟩
  · rintro ⟨ph, h⟩
    cases ph with
    | flying => exact List.mem_append_right _ h
    | resting =>
      obtain ⟨b, h⟩ := mem_resting.mp h
      exact List.mem_append_left _ (mem_orders h)
    | dormant => exact List.mem_append_left _ (mem_orders_stop h)
    | gone => exact absurd h List.not_mem_nil

/-- What an act does to an order, where it adds the entries `new` to the history `log`: nothing, or
one change of its life. -/
def Goes (X : Special → Prop) (log new : List Mark) (ph : Phase) (o : Order) (ph' : Phase)
    (o' : Order) :
    Prop :=
  ph' = ph ∧ o' = o ∧ new.filter (·.about o.id) = [] ∨
    Life X (story o.id log) ph o (new.filter (·.about o.id)) ph' o'

/-- An order keeps its id through whatever happens to it. -/
theorem Goes.id {log : List Mark} {ph ph' : Phase} {o o' : Order} (h : Goes X log new ph o ph' o') :
    o'.id = o.id := by
  rcases h with ⟨-, rfl, -⟩ | h
  · rfl
  · exact h.id

/-- What an act does to the orders that there are. -/
structure Turn (X : Special → Prop) (x y : Flat × List Order) (new : List Mark) : Prop where
  log : y.1.tape.log = x.1.tape.log ++ new
  here : ∀ ph' o', o' ∈ y.1.at y.2 ph' → ∃ ph, ∃ o ∈ x.1.at x.2 ph, Goes X x.1.tape.log new ph o ph' o'
  left : ∀ pre o post, new = pre ++ .left o :: post → post.filter (·.about o.id) = [] ∧
    ∃ ph, ∃ r ∈ x.1.at x.2 ph, r.id = o.id ∧
      Life X (story o.id x.1.tape.log) ph r ((pre ++ [.left o]).filter (·.about o.id)) .gone o
  named : ∀ m ∈ new, ∀ id, m.about id = true → ∃ o ∈ x.1.orders ++ x.2, o.id = id
  plain : ∀ m ∈ new, ∀ id, m.accepts id = false

/-! ## Acts that write of no order -/

/-- Entries that name no order. -/
def Unnamed (ms : List Mark) : Prop := ∀ m ∈ ms, ∀ id, m.about id = false ∧ m.accepts id = false

/-- Nothing is written. -/
theorem Unnamed.nil : Unnamed [] := fun _ hm => absurd hm List.not_mem_nil

/-- One entry is written, and it names nobody. -/
theorem Unnamed.single {m : Mark} (h : ∀ id, m.about id = false ∧ m.accepts id = false) : Unnamed [m] :=
  List.forall_mem_singleton.mpr h

/-- Entries that name nobody are in nobody's story. -/
theorem Unnamed.filter {ms : List Mark} (h : Unnamed ms) (id : UInt64) : ms.filter (·.about id) = [] :=
  List.filter_eq_nil_iff.mpr fun m hm => by rw [(h m hm id).1]; decide

/-- An act that writes of no order. -/
theorem Turn.of_unnamed {x y : Flat × List Order} (hlog : y.1.tape.log = x.1.tape.log ++ new)
    (hnew : Unnamed new)
    (h : ∀ ph' o', o' ∈ y.1.at y.2 ph' → ∃ ph, ∃ o ∈ x.1.at x.2 ph,
      ph' = ph ∧ o' = o ∨ Life X (story o.id x.1.tape.log) ph o [] ph' o') : Turn X x y new where
  log := hlog
  here ph' o' ho := by
    obtain ⟨ph, o, hm, hg⟩ := h ph' o' ho
    refine ⟨ph, o, hm, ?_⟩
    unfold Goes
    rw [hnew.filter]
    exact hg.imp (fun he => ⟨he.1, he.2, rfl⟩) fun hl => hl
  left pre o post he := by
    have hm := (hnew (.left o) (by rw [he]; exact List.mem_append_right _ List.mem_cons_self) o.id).1
    exact absurd (decide_eq_true (rfl : o.id = o.id))
      (by rw [show decide (o.id = o.id) = false from hm]; nofun)
  named m hm id hid := absurd hid (by rw [(hnew m hm id).1]; nofun)
  plain m hm id := (hnew m hm id).2

/-- The same where no order changes. -/
theorem Turn.of_same {x y : Flat × List Order} (hlog : y.1.tape.log = x.1.tape.log ++ new)
    (hnew : Unnamed new) (h : ∀ ph, y.1.at y.2 ph ⊆ x.1.at x.2 ph) : Turn X x y new :=
  .of_unnamed hlog hnew fun ph o ho => ⟨ph, o, h ph ho, .inl ⟨rfl, rfl⟩⟩

/-- The same where the first order in flight changes. -/
theorem Turn.of_head {o o' : Order} {t : Tape} (hlog : t.log = f.tape.log ++ new) (hnew : Unnamed new)
    (h : Life X (story o.id f.tape.log) .flying o [] .flying o') :
    Turn X (f, o :: fl) (f.withTape t, o' :: fl) new := by
  refine .of_unnamed hlog hnew fun ph' x hx => ?_
  cases ph' with
  | flying =>
    rcases List.mem_cons.mp hx with rfl | hx
    · exact ⟨.flying, o, List.mem_cons_self, .inr h⟩
    · exact ⟨.flying, x, List.mem_cons_of_mem _ hx, .inl ⟨rfl, rfl⟩⟩
  | resting => exact ⟨.resting, x, hx, .inl ⟨rfl, rfl⟩⟩
  | dormant => exact ⟨.dormant, x, hx, .inl ⟨rfl, rfl⟩⟩
  | gone => exact absurd hx List.not_mem_nil

/-- The same where an order in flight comes to rest. -/
theorem Turn.of_rest {o o₁ : Order} {st : OrderStatus} {t : Tape} (hlog : t.log = f.tape.log ++ new)
    (hnew : Unnamed new)
    (h : Life X (story o.id f.tape.log) .flying o [] .resting
      { o₁ with visibleQty := o₁.shown o₁.remainingQty, status := st }) :
    ∃ new, Turn X (f, o :: fl) ((f.withTape t).rest o₁ st, fl) new := by
  refine ⟨new ++ [_], .of_unnamed (x := (f, o :: fl)) (y := ((f.withTape t).rest o₁ st, fl))
    ((congrArg (· ++ _) hlog).trans (List.append_assoc _ _ _))
    (List.forall_mem_append.mpr ⟨hnew, Unnamed.single fun _ => ⟨rfl, rfl⟩⟩) fun ph' x hx => ?_⟩
  cases ph' with
  | flying => exact ⟨.flying, x, List.mem_cons_of_mem _ hx, .inl ⟨rfl, rfl⟩⟩
  | resting =>
    obtain ⟨b, hx⟩ := mem_resting.mp hx
    change x ∈ ((((f.withTape t).setSide o₁.side _).withTape _).side b).orders at hx
    rw [side_withTape] at hx
    -- The side it comes to rest on has one order more, and the other is as it was.
    by_cases hb : b = o₁.side
    · subst hb
      rw [side_setSide] at hx
      rcases List.mem_cons.mp ((Levels.perm_enqueue _ _ _).mem_iff.mp hx) with rfl | hx
      · exact ⟨.flying, o, List.mem_cons_self, .inr h⟩
      · exact ⟨.resting, x, mem_resting.mpr ⟨_, hx⟩, .inl ⟨rfl, rfl⟩⟩
    · have hb : b = oppositeSide o₁.side := eq_oppositeSide hb
      rw [hb, side_setSide_opposite'] at hx
      exact ⟨.resting, x, mem_resting.mpr ⟨_, hx⟩, .inl ⟨rfl, rfl⟩⟩
  | dormant =>
    have hstops : ((f.withTape t).rest o₁ st).stops = f.stops := stops_setSide (f.withTape t) _ _
    change x ∈ ((f.withTape t).rest o₁ st).stops at hx
    rw [hstops] at hx
    exact ⟨.dormant, x, hx, .inl ⟨rfl, rfl⟩⟩
  | gone => exact absurd hx List.not_mem_nil

/-! ## Acts that write of the first order in flight -/

/-- A cancellation is about the order that is cancelled. -/
theorem about_cancelled {o : Order} {reason : String} {id : UInt64} :
    (Mark.event (.onOrderCancelled o reason)).about id = true ↔ id = o.id := by
  unfold Mark.about
  rw [decide_eq_true_iff, eq_comm]

/-- A departure is about the order that leaves. -/
theorem about_left {o : Order} {id : UInt64} : (Mark.left o).about id = true ↔ id = o.id := by
  unfold Mark.about
  rw [decide_eq_true_iff, eq_comm]

/-- An expiry is about the order that expires. -/
theorem about_expired {o : Order} {id : UInt64} :
    (Mark.event (.onOrderExpired o)).about id = true ↔ id = o.id := by
  unfold Mark.about
  rw [decide_eq_true_iff, eq_comm]

/-- The order in flight has an id of its own. -/
theorem id_ne_of_head {o x : Order} (hi : Inv f (o :: fl)) (hx : x ∈ f.orders ++ fl) : x.id ≠ o.id := by
  have hids : (f.ids (o :: fl)).Perm (o.id :: (f.orders ++ fl).map (·.id)) :=
    List.Perm.map (fun x : Order => x.id) List.perm_middle
  have hn := (List.nodup_cons.mp (hids.nodup_iff.mp hi.ids)).1
  exact fun he => hn (he ▸ List.mem_map_of_mem hx)

/-- The first order in flight changes, or leaves, and the entries are of it. -/
theorem Turn.of_named {o : Order} {k : List Order} {t : Tape} (hi : Inv f (o :: fl))
    (hlog : t.log = f.tape.log ++ new)
    (habout : ∀ m ∈ new, m.about o.id = true ∧ ∀ id, id ≠ o.id → m.about id = false)
    (hplain : ∀ m ∈ new, ∀ id, m.accepts id = false)
    (hk : ∀ o' ∈ k, Life X (story o.id f.tape.log) .flying o new .flying o')
    (hleft : ∀ pre o' post, new = pre ++ .left o' :: post → post = [] ∧ o'.id = o.id ∧
      Life X (story o.id f.tape.log) .flying o new .gone o') :
    Turn X (f, o :: fl) (f.withTape t, k ++ fl) new := by
  -- Every entry is of this order, so of the others the story does not go on.
  have hown : new.filter (·.about o.id) = new := List.filter_eq_self.mpr fun m hm => (habout m hm).1
  have hother : ∀ x ∈ f.orders ++ fl, new.filter (·.about x.id) = [] := fun x hx =>
    List.filter_eq_nil_iff.mpr fun m hm => by
      rw [(habout m hm).2 x.id (id_ne_of_head hi hx)]
      decide
  refine ⟨hlog, fun ph' x hx => ?_, fun pre o' post he => ?_, fun m hm id hid => ?_, hplain⟩
  · cases ph' with
    | flying =>
      rcases List.mem_append.mp hx with hx | hx
      · refine ⟨.flying, o, List.mem_cons_self, .inr ?_⟩
        rw [hown]
        exact hk x hx
      · exact ⟨.flying, x, List.mem_cons_of_mem _ hx,
          .inl ⟨rfl, rfl, hother x (List.mem_append_right _ hx)⟩⟩
    | resting =>
      obtain ⟨b, hb⟩ := mem_resting.mp hx
      exact ⟨.resting, x, hx, .inl ⟨rfl, rfl, hother x (List.mem_append_left _ (mem_orders hb))⟩⟩
    | dormant =>
      exact ⟨.dormant, x, hx, .inl ⟨rfl, rfl, hother x (List.mem_append_left _ (mem_orders_stop hx))⟩⟩
    | gone => exact absurd hx List.not_mem_nil
  -- The order leaves with the last of the entries.
  · obtain ⟨rfl, hid, hl⟩ := hleft pre o' post he
    refine ⟨rfl, .flying, o, List.mem_cons_self, hid.symm, ?_⟩
    rw [hid, ← he, hown]
    exact hl
  · by_cases h : id = o.id
    · exact ⟨o, List.mem_append_right _ List.mem_cons_self, h.symm⟩
    · rw [(habout m hm).2 id h] at hid
      cases hid

/-- The first order in flight leaves, with an entry before that tells why. -/
theorem Turn.of_farewell {o o' : Order} {e : Mark} {t : Tape} (hi : Inv f (o :: fl))
    (hlog : t.log = f.tape.log ++ [e, .left o']) (he : ∀ id, e.about id = true ↔ id = o.id)
    (hacc : ∀ id, e.accepts id = false) (hleft : ∀ x, e ≠ .left x) (hid : o'.id = o.id)
    (hl : Life X (story o.id f.tape.log) .flying o [e, .left o'] .gone o') :
    Turn X (f, o :: fl) (f.withTape t, fl) [e, .left o'] := by
  refine .of_named (k := []) hi hlog ?_ ?_ (fun x hx => absurd hx List.not_mem_nil) ?_
  · refine List.forall_mem_cons.mpr ⟨⟨(he _).mpr rfl, fun id h => ?_⟩,
      List.forall_mem_singleton.mpr ⟨about_left.mpr hid.symm, fun id h => ?_⟩⟩
    · exact Bool.eq_false_iff.mpr fun hx => h ((he id).mp hx)
    · exact Bool.eq_false_iff.mpr fun hx => h ((about_left.mp hx).trans hid)
  · exact List.forall_mem_cons.mpr ⟨hacc, List.forall_mem_singleton.mpr fun _ => rfl⟩
  · intro pre x post heq
    cases pre with
    | nil => exact absurd (List.cons.inj heq).1 (hleft x)
    | cons y pre =>
      cases pre with
      | nil =>
        cases heq
        exact ⟨rfl, hid, hl⟩
      | cons z pre => cases pre <;> cases heq

/-! ## Turns of matching -/

/-- The orders before a turn of matching: the two of the turn, and the others. -/
theorem perm_turn {inc r : Order} {p : ℤ} {q : List Order} {m : Levels}
    (hside : f.side b = (p, r :: q) :: m) :
    (f.orders ++ inc :: fl).Perm (r :: inc :: (q ++ m.orders ++ f.others b ++ fl)) := by
  have h := orders_perm f b
  rw [hside, Levels.orders_cons, List.cons_append, List.cons_append] at h
  refine (h.append_right _).trans ?_
  exact List.Perm.cons r List.perm_middle

/-- What a turn writes of the incoming order and of the resting one, and that it writes of no other.
-/
structure Pair (X : Special → Prop) (log new : List Mark) (inc inc' r : Order) (fate : Fate) :
    Prop where
  incoming : Goes X log new .flying inc .flying inc'
  resting : ∀ o ∈ fate.left, Goes X log new .resting r .resting o
  left : ∀ pre o post, new = pre ++ .left o :: post → post = [] ∧ o.id = r.id ∧
    Life X (story r.id log) .resting r (new.filter (·.about r.id)) .gone o
  named : ∀ m ∈ new, ∀ id, m.about id = true → id = inc.id ∨ id = r.id
  plain : ∀ m ∈ new, ∀ id, m.accepts id = false

/-- A turn of matching, given what it does to its two orders: every other order stays as it is. -/
theorem Turn.of_pair {inc inc' r : Order} {p : ℤ} {q : List Order} {m : Levels} {fate : Fate} {t : Tape}
    (hi : Inv f (inc :: fl)) (hside : f.side b = (p, r :: q) :: m) (hlog : t.log = f.tape.log ++ new)
    (h : Pair X f.tape.log new inc inc' r fate) :
    Turn X (f, inc :: fl) ((f.setSide b (front p (fate.requeue q) m)).withTape t, inc' :: fl) new := by
  -- The ids are distinct, so an order that is none of the two has no part in the entries.
  have hperm : (f.orders ++ inc :: fl).Perm (r :: inc :: (q ++ m.orders ++ f.others b ++ fl)) :=
    perm_turn hside
  have hids := (hperm.map fun o : Order => o.id).nodup_iff.mp hi.ids
  rw [List.map_cons, List.map_cons] at hids
  obtain ⟨hr, hids⟩ := List.nodup_cons.mp hids
  have hinc := (List.nodup_cons.mp hids).1
  have hidle : ∀ o ∈ q ++ m.orders ++ f.others b ++ fl, new.filter (·.about o.id) = [] := fun o ho =>
    List.filter_eq_nil_iff.mpr fun x hx hab => by
      rcases h.named x hx o.id hab with hid | hid
      · exact hinc (hid ▸ List.mem_map_of_mem ho)
      · exact hr (hid ▸ List.mem_cons_of_mem _ (List.mem_map_of_mem ho))
  have hrest : r ∈ f.at (inc :: fl) .resting :=
    mem_resting.mpr ⟨b, by rw [hside]; exact List.mem_cons_self⟩
  refine ⟨hlog, fun ph' x hx => ?_, fun pre o post he => ?_, fun m' hm id hid => ?_, h.plain⟩
  · cases ph' with
    | flying =>
      rcases List.mem_cons.mp hx with rfl | hx
      · exact ⟨.flying, inc, List.mem_cons_self, h.incoming⟩
      · exact ⟨.flying, x, List.mem_cons_of_mem _ hx,
          .inl ⟨rfl, rfl, hidle x (List.mem_append_right _ hx)⟩⟩
    | resting =>
      obtain ⟨b', hx⟩ := mem_resting.mp hx
      rw [side_withTape] at hx
      by_cases hb : b' = b
      · subst hb
        rw [side_setSide, Levels.orders_front] at hx
        -- The orders behind the resting one, at its price and at worse ones.
        have hbehind : ∀ x ∈ q ++ m.orders, ∃ ph, ∃ o ∈ f.at (inc :: fl) ph,
            Goes X f.tape.log new ph o .resting x := fun x hx => by
          refine ⟨.resting, x, mem_resting.mpr ⟨b', ?_⟩, .inl ⟨rfl, rfl, hidle x ?_⟩⟩
          · rw [hside]
            exact List.mem_cons_of_mem _ hx
          · exact List.mem_append_left _ (List.mem_append_left _ hx)
        rcases List.mem_append.mp hx with hx | hx
        · rcases mem_requeue hx with hx | hx
          · exact hbehind x (List.mem_append_left _ hx)
          · exact ⟨.resting, r, hrest, h.resting x hx⟩
        · exact hbehind x (List.mem_append_right _ hx)
      · have hb : b' = oppositeSide b := eq_oppositeSide hb
        rw [hb, side_setSide_opposite'] at hx
        refine ⟨.resting, x, mem_resting.mpr ⟨_, hx⟩, .inl ⟨rfl, rfl, hidle x ?_⟩⟩
        exact List.mem_append_left _ (List.mem_append_right _ (List.mem_append_left _ hx))
    | dormant =>
      change x ∈ (f.setSide b (front p (fate.requeue q) m)).stops at hx
      rw [stops_setSide] at hx
      refine ⟨.dormant, x, hx, .inl ⟨rfl, rfl, hidle x ?_⟩⟩
      exact List.mem_append_left _ (List.mem_append_right _ (List.mem_append_right _ hx))
    | gone => exact absurd hx List.not_mem_nil
  -- What leaves is the resting order.
  · obtain ⟨rfl, hid, hl⟩ := h.left pre o post he
    refine ⟨rfl, .resting, r, hrest, hid.symm, ?_⟩
    rw [hid, ← he]
    exact hl
  · rcases h.named m' hm id hid with rfl | rfl
    · exact ⟨inc, List.mem_append_right _ List.mem_cons_self, rfl⟩
    · exact ⟨r, mem_at.mpr ⟨_, hrest⟩, rfl⟩

/-- A pair of orders of which the entry `e` is, with entries `more` that are of the resting one. -/
theorem Pair.of_entry {log more : List Mark} {e : Mark} {inc inc' r : Order} {fate : Fate}
    (hne : inc.id ≠ r.id) (he : ∀ id, e.about id = true ↔ id = inc.id ∨ id = r.id)
    (hacc : ∀ id, e.accepts id = false) (hleft : ∀ o, e ≠ .left o)
    (hmore : ∀ m ∈ more, ∀ id, m.accepts id = false ∧ (m.about id = true → id = r.id))
    (hinc : Life X (story inc.id log) .flying inc [e] .flying inc')
    (hrest : ∀ o ∈ fate.left,
      Life X (story r.id log) .resting r (e :: more.filter (·.about r.id)) .resting o)
    (hgone : ∀ pre o post, more = pre ++ .left o :: post → post = [] ∧ o.id = r.id ∧
      Life X (story r.id log) .resting r (e :: more.filter (·.about r.id)) .gone o) :
    Pair X log (e :: more) inc inc' r fate := by
  -- The entry `e` is of both orders, and `more` of the resting one alone.
  have hr : (e :: more).filter (·.about r.id) = e :: more.filter (·.about r.id) :=
    List.filter_cons_of_pos ((he _).mpr (.inr rfl))
  refine ⟨.inr ?_, fun o ho => .inr ?_, fun pre o post heq => ?_, ?_, ?_⟩
  · have hnone : more.filter (·.about inc.id) = [] := List.filter_eq_nil_iff.mpr fun m hm hab =>
      hne ((hmore m hm inc.id).2 hab)
    rw [List.filter_cons_of_pos ((he _).mpr (.inl rfl)), hnone]
    exact hinc
  · rw [hr]
    exact hrest o ho
  · cases pre with
    | nil => exact absurd (List.cons.inj heq).1 (hleft o)
    | cons x pre =>
      rw [hr]
      exact hgone pre o post (List.cons.inj heq).2
  · refine List.forall_mem_cons.mpr ⟨fun id => (he id).mp, fun m hm id hab => .inr ?_⟩
    exact (hmore m hm id).2 hab
  · exact List.forall_mem_cons.mpr ⟨hacc, fun m hm id => (hmore m hm id).1⟩

/-- What a trade does to its two orders. -/
theorem pair_trade {contra : Levels} {inc r inc' : Order} {fate : Fate} {t t' : Tape}
    (hfill : fill contra inc r t = some (inc', fate, t')) (hne : inc.id ≠ r.id)
    (hst : inc.status ≠ .CANCELLED) (hstop : inc.orderType.isStop = false) :
    ∃ new, t'.log = t.log ++ new ∧ Pair X t.log new inc inc' r fate := by
  obtain ⟨hq, he⟩ := fill_eq hfill
  obtain ⟨rfl, hft⟩ := Prod.mk.inj he
  have hd : Deal ⟨t.tid, r.price, min inc.remainingQty r.visibleQty, inc.id, r.id, inc.side, t.now⟩
      inc r := ⟨rfl, rfl, rfl, hq, hne⟩
  have habout : ∀ id, (Mark.executed ⟨t.tid, r.price, min inc.remainingQty r.visibleQty, inc.id, r.id,
      inc.side, t.now⟩ inc r contra).about id = true ↔ id = inc.id ∨ id = r.id := fun id => by
    unfold Mark.about
    rw [decide_eq_true_iff, eq_comm (a := id), eq_comm (a := id)]
  -- The resting order shows its next slice, leaves, or stays in front.
  unfold afterFill at hft
  split at hft
  · rename_i hr
    obtain ⟨rfl, rfl⟩ := Prod.mk.inj hft
    refine ⟨_ :: [_], List.append_assoc _ [_] [_], .of_entry hne habout (fun _ => rfl) (fun o => nofun)
      (List.forall_mem_singleton.mpr fun id => ⟨rfl, nofun⟩) (.takes hd hst hstop) ?_ ?_⟩
    · rintro o ⟨⟩
      exact .makesReload _ hd hr
    · intro pre o post heq
      cases pre with
      | nil => cases heq
      | cons x pre => cases pre <;> cases heq
  · split at hft
    · rename_i hrem
      obtain ⟨rfl, rfl⟩ := Prod.mk.inj hft
      refine ⟨_ :: [_], List.append_assoc _ [_] [_], .of_entry hne habout (fun _ => rfl)
        (fun o => nofun)
        (List.forall_mem_singleton.mpr fun id => ⟨rfl, fun h => (of_decide_eq_true h).symm⟩)
        (.takes hd hst hstop) (fun o ho => absurd ho (Option.not_mem_none o)) ?_⟩
      intro pre o post heq
      cases pre with
      | cons x pre => cases pre <;> cases heq
      | nil =>
        cases heq
        refine ⟨rfl, rfl, ?_⟩
        rw [List.filter_cons_of_pos, List.filter_nil]
        · exact .makesAll hd hrem
        · exact about_left.mpr rfl
    · rename_i hrem
      obtain ⟨rfl, rfl⟩ := Prod.mk.inj hft
      refine ⟨_ :: [], rfl, .of_entry hne habout (fun _ => rfl) (fun o => nofun)
        (fun m hm => absurd hm List.not_mem_nil) (.takes hd hst hstop) ?_ ?_⟩
      · rintro o ⟨⟩
        exact .makesPart hd hrem
      · intro pre o post heq
        cases pre <;> cases heq

/-- The entries of the cancellation of a resting order that leaves. -/
theorem filter_withdrawn (o : Order) (reason : String) :
    [Mark.event (.onOrderCancelled o reason), .left o].filter (·.about o.id) =
      [.event (.onOrderCancelled o reason), .left o] :=
  List.filter_eq_self.mpr (List.forall_mem_cons.mpr
    ⟨about_cancelled.mpr rfl, List.forall_mem_singleton.mpr (about_left.mpr rfl)⟩)

/-- The cancellation of an order is in no other order's story. -/
theorem filter_withdrawn_ne {o : Order} {reason : String} {id : UInt64} (h : id ≠ o.id) :
    [Mark.event (.onOrderCancelled o reason), .left o].filter (·.about id) = [] :=
  List.filter_eq_nil_iff.mpr (List.forall_mem_cons.mpr
    ⟨fun hx => h (about_cancelled.mp hx), List.forall_mem_singleton.mpr fun hx => h (about_left.mp hx)⟩)

/-- The resting order of the pair is cancelled and leaves, and nothing else happens. -/
theorem pair_withdrawn (log : List Mark) {inc r : Order} (reason : String) (hne : inc.id ≠ r.id) :
    Pair X log [.event (.onOrderCancelled (r.withStatus .CANCELLED) reason),
      .left (r.withStatus .CANCELLED)] inc inc r .goes where
  incoming := .inl ⟨rfl, rfl, filter_withdrawn_ne hne⟩
  resting o ho := absurd ho (Option.not_mem_none o)
  left pre o post he := by
    obtain ⟨rfl, he⟩ | ⟨x, pre, rfl⟩ : pre = [] ∧ _ ∨ ∃ x p, pre = x :: p := by
      cases pre with
      | nil => exact .inl ⟨rfl, he⟩
      | cons x pre => exact .inr ⟨x, pre, rfl⟩
    · cases he
    -- The departure is the second of the two entries.
    · obtain ⟨rfl, he⟩ := List.cons.inj he
      cases pre with
      | cons x pre => cases pre <;> cases he
      | nil =>
        cases he
        refine ⟨rfl, rfl, ?_⟩
        rw [show r.id = (r.withStatus .CANCELLED).id from rfl, filter_withdrawn]
        exact .withdrawn reason
  named := List.forall_mem_cons.mpr ⟨fun id h => .inr (about_cancelled.mp h :),
    List.forall_mem_singleton.mpr fun id h => .inr (about_left.mp h)⟩
  plain := List.forall_mem_cons.mpr ⟨fun _ => rfl, List.forall_mem_singleton.mpr fun _ => rfl⟩

/-- The incoming order of a pair is cancelled first. -/
theorem Pair.withdraws {log new : List Mark} {inc r : Order} {fate : Fate} (reason : String)
    (h : Pair X log new inc inc r fate) (hne : inc.id ≠ r.id) (hnew : new.filter (·.about inc.id) = [])
    (hpol : inc.stpPolicy ≠ .DECREMENT) (hst : inc.status ≠ .CANCELLED)
    (hstop : inc.orderType.isStop = false) :
    Pair X log (.event (.onOrderCancelled (inc.withStatus .CANCELLED) reason) :: new) inc
      (inc.withStatus .CANCELLED) r fate := by
  -- The cancellation is of the incoming order, so the resting one's part is as before.
  have hr : ∀ ms : List Mark, (Mark.event (.onOrderCancelled (inc.withStatus .CANCELLED) reason) ::
      ms).filter (·.about r.id) = ms.filter (·.about r.id) := fun ms =>
    List.filter_cons_of_neg fun hx => hne (about_cancelled.mp hx).symm
  refine ⟨.inr ?_, fun o ho => ?_, fun pre o post he => ?_, ?_, ?_⟩
  · rw [List.filter_cons_of_pos, hnew]
    · exact .withdraws reason hpol hst hstop
    · exact about_cancelled.mpr rfl
  · have hg := h.resting o ho
    unfold Goes at hg ⊢
    rwa [hr]
  · cases pre with
    | nil => cases he
    | cons x pre =>
      rw [hr]
      exact h.left pre o post (List.cons.inj he).2
  · exact List.forall_mem_cons.mpr ⟨fun id hx => .inl (about_cancelled.mp hx :), h.named⟩
  · exact List.forall_mem_cons.mpr ⟨fun _ => rfl, h.plain⟩

/-- Nothing happens to a pair. -/
theorem pair_idle (log : List Mark) (inc r : Order) : Pair X log [] inc inc r (.stays r) where
  incoming := .inl ⟨rfl, rfl, rfl⟩
  resting o ho := by
    obtain rfl := Option.some.inj ho
    exact .inl ⟨rfl, rfl, rfl⟩
  left pre o post he := by cases pre <;> cases he
  named m hm := absurd hm List.not_mem_nil
  plain m hm := absurd hm List.not_mem_nil

/-- What a decrement does to its two orders. -/
theorem pair_decrement {inc r : Order} (t : Tape) (hne : inc.id ≠ r.id) (hrem : 0 < inc.remainingQty)
    (hvis : 0 < r.visibleQty) (hpol : inc.stpPolicy = .DECREMENT) (hst : inc.status ≠ .CANCELLED)
    (hstop : inc.orderType.isStop = false) :
    ∃ new, (decrement inc r t).2.2.log = t.log ++ new ∧
      Pair X t.log new inc (decrement inc r t).1 r (decrement inc r t).2.1 := by
  have habout : ∀ id,
      (Mark.event (.onOrderDecremented (lessIncoming inc (min inc.remainingQty r.visibleQty))
      (lessResting r (min inc.remainingQty r.visibleQty))
        (min inc.remainingQty r.visibleQty))).about id =
        true ↔ id = inc.id ∨ id = r.id := fun id => by
    unfold Mark.about
    rw [decide_eq_true_iff, eq_comm (a := id), eq_comm (a := id)]
    rfl
  -- The incoming order loses the quantity in each of the cases.
  have hinc : ∀ told, Life X told .flying inc [.event (.onOrderDecremented
      (lessIncoming inc (min inc.remainingQty r.visibleQty))
      (lessResting r (min inc.remainingQty r.visibleQty)) (min inc.remainingQty r.visibleQty))] .flying
      (lessIncoming inc (min inc.remainingQty r.visibleQty)) := fun told =>
    .decrements hpol (lt_min hrem hvis) (min_le_left _ _) hne.symm hst hstop
  unfold decrement afterDecrement
  dsimp only
  -- The resting order is used up, shows its next slice, or stays in front.
  split
  · rename_i hz
    refine ⟨_ :: [_], List.append_assoc _ [_] [_], .of_entry hne habout (fun _ => rfl) (fun o => nofun)
      (List.forall_mem_singleton.mpr fun id => ⟨rfl, about_left.mp⟩) (hinc _)
      (fun o ho => absurd ho (Option.not_mem_none o)) ?_⟩
    intro pre o post heq
    cases pre with
    | cons x pre => cases pre <;> cases heq
    | nil =>
      cases heq
      refine ⟨rfl, rfl, ?_⟩
      rw [List.filter_cons_of_pos, List.filter_nil]
      · exact .decrementedAll hne hz
      · exact about_left.mpr rfl
  · rename_i hz
    split
    · rename_i hr
      refine ⟨_ :: [_], List.append_assoc _ [_] [_], .of_entry hne habout (fun _ => rfl)
        (fun o => nofun)
        (List.forall_mem_singleton.mpr fun id => ⟨rfl, nofun⟩) (hinc _) ?_ ?_⟩
      · rintro o ⟨⟩
        exact .decrementedReload _ hne hz hr
      · intro pre o post heq
        cases pre with
        | nil => cases heq
        | cons x pre => cases pre <;> cases heq
    · refine ⟨_ :: [], rfl, .of_entry hne habout (fun _ => rfl) (fun o => nofun)
        (fun m hm => absurd hm List.not_mem_nil) (hinc _) ?_ ?_⟩
      · rintro o ⟨⟩
        exact .decrementedPart hne hz
      · intro pre o post heq
        cases pre <;> cases heq

/-- What self-trade prevention does to the two orders, by the policy of the incoming one. -/
theorem pair_handleStp {inc r : Order} (t : Tape) (hne : inc.id ≠ r.id) (hrem : 0 < inc.remainingQty)
    (hvis : 0 < r.visibleQty) (hst : inc.status ≠ .CANCELLED) (hstop : inc.orderType.isStop = false) :
    ∃ new, (handleStp inc r t).2.2.log = t.log ++ new ∧
      Pair X t.log new inc (handleStp inc r t).1 r (handleStp inc r t).2.1 := by
  unfold handleStp
  cases hpol : inc.stpPolicy with
  | CANCEL_NEWEST =>
    refine ⟨[_], rfl, (pair_idle t.log inc r).withdraws _ hne rfl ?_ hst hstop⟩
    rw [hpol]
    decide
  | CANCEL_OLDEST => exact ⟨_ :: [_], List.append_assoc _ [_] [_], pair_withdrawn t.log _ hne⟩
  -- The entries of the resting order, with that of the incoming one before them.
  | CANCEL_BOTH =>
    refine ⟨_ :: _ :: [_], ?_, (pair_withdrawn t.log "STP_CANCEL_BOTH" hne).withdraws
      "STP_CANCEL_BOTH" hne ?_ ?_ hst hstop⟩
    · exact (congrArg (· ++ _) (List.append_assoc _ _ _)).trans (List.append_assoc _ _ _)
    · exact filter_withdrawn_ne hne
    · rw [hpol]
      decide
  | DECREMENT => exact pair_decrement t hne hrem hvis hpol hst hstop
  | NONE => exact ⟨[], (List.append_nil _).symm, pair_idle t.log inc r⟩

/-! ## Acts -/

/-- The two orders of a turn have different ids, and the resting one shows something. -/
theorem ends_of_turn {inc r : Order} {p : ℤ} {q : List Order} {m : Levels} (hi : Inv f (inc :: fl))
    (hside : f.side b = (p, r :: q) :: m) : inc.id ≠ r.id ∧ 0 < r.visibleQty := by
  have hmem : r ∈ (f.side b).orders := by
    rw [hside]
    exact List.mem_cons_self
  refine ⟨(id_ne_of_head hi (List.mem_append_left _ (mem_orders hmem))).symm, ?_⟩
  exact ((hi.sides b).rest (p, r :: q) (by rw [hside]; exact List.mem_cons_self) r
    List.mem_cons_self).visible

/-- A side is written with orders that were there, and the flight is some of what it was. -/
theorem Turn.of_side {m : Levels} (h : m.orders ⊆ (f.side b).orders) (hfl : fl' ⊆ fl) :
    Turn X (f, fl) (f.setSide b m, fl') [] := by
  refine .of_same (by rw [tape_setSide, List.append_nil]) .nil fun ph x hx => ?_
  cases ph with
  | flying => exact hfl hx
  | resting =>
    obtain ⟨b', hx⟩ := mem_resting.mp hx
    refine mem_resting.mpr ⟨b', ?_⟩
    by_cases hb : b' = b
    · subst hb
      rw [side_setSide] at hx
      exact h hx
    · have hb : b' = oppositeSide b := eq_oppositeSide hb
      rw [hb, side_setSide_opposite'] at hx
      rwa [hb]
  | dormant =>
    change x ∈ (f.setSide b m).stops at hx
    rwa [stops_setSide] at hx
  | gone => exact hx

/-- The orders of a side of which some give way to others. -/
theorem mem_setSide_resting {m : Levels} {x : Order} (h : x ∈ (f.setSide b m).at fl .resting) :
    x ∈ m.orders ∨ x ∈ f.at fl .resting := by
  obtain ⟨b', hx⟩ := mem_resting.mp h
  by_cases hb : b' = b
  · subst hb
    rw [side_setSide] at hx
    exact .inl hx
  · have hb : b' = oppositeSide b := eq_oppositeSide hb
    rw [hb, side_setSide_opposite'] at hx
    exact .inr (mem_resting.mpr ⟨_, hx⟩)

/-- An act is a turn in the life of every order, or it accepts one. -/
theorem Step.turn (hi : Inv f fl) (h : Step X (f, fl) (f', fl')) :
    (∃ new, Turn X (f, fl) (f', fl') new) ∨
      ∃ i : OrderInput, validate f.tape.now (i.order f.tape.now) = none ∧ fl = [] ∧
        (∀ o ∈ f.orders, o.id ≠ i.id) ∧
        f' = f.withTape (f.tape.event (.onOrderAccepted (i.order f.tape.now))) ∧
        fl' = [i.order f.tape.now] := by
  cases h with
  | accept i hfresh hv hX => exact .inr ⟨i, hv, rfl, hfresh, rfl, rfl⟩
  | perm hp =>
    refine .inl ⟨[], .of_same (List.append_nil _).symm .nil fun ph x hx => ?_⟩
    cases ph with
    | flying => exact hp.mem_iff.mpr hx
    | _ => exact hx
  -- A turn of matching changes the incoming order and the resting one.
  | trade hside hrem hm hc hpo hst hstop hfill =>
    obtain ⟨hne, -⟩ := ends_of_turn hi hside
    obtain ⟨new, hlog, hp⟩ := pair_trade hfill hne hst hstop
    exact .inl ⟨new, .of_pair hi hside hlog hp⟩
  | selfTrade hside hrem hm hc hst hstop hpo =>
    obtain ⟨hne, hvis⟩ := ends_of_turn hi hside
    obtain ⟨new, hlog, hp⟩ := pair_handleStp f.tape hne hrem hvis hst hstop
    exact .inl ⟨new, .of_pair hi hside hlog hp⟩
  -- A level goes only when it has no orders.
  | drop hside =>
    refine .inl ⟨[], .of_side ?_ (List.Subset.refl _)⟩
    rw [hside]
    exact fun x hx => hx
  | filled hr hst => exact .inl ⟨[], .of_head (List.append_nil _).symm .nil (.fills hr hst)⟩
  -- The order stays in flight after its cancellation.
  | cancel reason hst htype hstop =>
    rename_i o
    refine .inl ⟨_, .of_named (k := [_]) hi rfl (List.forall_mem_singleton.mpr ?_)
      (List.forall_mem_singleton.mpr fun _ => rfl)
      (List.forall_mem_singleton.mpr (.cancels reason hst htype hstop)) ?_⟩
    · exact ⟨about_cancelled.mpr rfl, fun id hid => Bool.eq_false_iff.mpr fun hx =>
        hid (about_cancelled.mp hx :)⟩
    · intro pre o' post he
      cases pre with
      | nil => cases he
      | cons x pre => cases pre <;> cases he
  -- A cancellation or an expiry with the departure right after it.
  | kill reason hst =>
    exact .inl ⟨_, .of_farewell hi (List.append_assoc _ _ _) (fun _ => about_cancelled)
      (fun _ => rfl) (fun _ => nofun) rfl (.killed reason hst)⟩
  | recancel reason htype hst hX =>
    exact .inl ⟨_, .of_farewell hi (List.append_assoc _ _ _) (fun _ => about_cancelled)
      (fun _ => rfl) (fun _ => nofun) rfl (.killedAgain reason htype hst hX)⟩
  | expire hst =>
    exact .inl ⟨_, .of_farewell hi (List.append_assoc _ _ _) (fun _ => about_expired)
      (fun _ => rfl) (fun _ => nofun) rfl (.expires hst)⟩
  -- The departure of an order that has come to its end before.
  | leave hst =>
    rename_i o
    refine .inl ⟨_, .of_named (k := []) hi rfl (List.forall_mem_singleton.mpr ?_)
      (List.forall_mem_singleton.mpr fun _ => rfl) (fun o' ho => absurd ho List.not_mem_nil) ?_⟩
    · exact ⟨about_left.mpr rfl, fun id hid => Bool.eq_false_iff.mpr fun hx => hid (about_left.mp hx :)⟩
    · intro pre o' post he
      cases pre with
      | nil =>
        cases he
        exact ⟨rfl, rfl, .leaves hst⟩
      | cons x pre => cases pre <;> cases he
  | trigger htype =>
    rename_i o
    refine .inl ⟨_, .of_named (k := [_]) hi rfl (List.forall_mem_singleton.mpr ?_)
      (List.forall_mem_singleton.mpr fun _ => rfl)
      (List.forall_mem_singleton.mpr (.triggered htype)) ?_⟩
    · exact ⟨decide_eq_true rfl, fun id hid => decide_eq_false fun hx => hid hx.symm⟩
    · intro pre o' post he
      cases pre with
      | nil => cases he
      | cons x pre => cases pre <;> cases he
  -- The order in flight comes to rest, at its price or at the price that it is given.
  | rest hst hold hrem htype htif hmin hcross hfresh =>
    refine .inl (Turn.of_rest (t := f.tape) (List.append_nil _).symm .nil
      (.rests _ hst hold (by rw [htype]; rfl) fun hnew => ?_))
    rw [sold_story]
    exact hfresh.unsold hnew
  | passive hpo hold hcross hfresh =>
    have htype := (hi.head.postOnly hpo).2.1
    refine .inl (Turn.of_rest (t := f.tape) (List.append_nil _).symm .nil
      (.rests _ (.inl rfl) hold (by rw [htype]; rfl) fun hnew => ?_))
    rw [sold_story]
    exact hfresh.unsold hnew
  | reprice hpo hold hside hX hrep hfresh =>
    obtain ⟨rfl, rfl⟩ := Prod.mk.inj (reprice_eq hside hrep)
    have hsilent : ∀ (o : Order) (p p' : ℤ), Unnamed [.event (.onOrderRepriced o p p')] :=
      fun _ _ _ => .single fun _ => ⟨rfl, rfl⟩
    have htype := (hi.head.postOnly hpo).2.1
    refine .inl (Turn.of_rest rfl (hsilent _ _ _)
      (.rests _ (.inl rfl) hold (by rw [htype]; rfl) fun hnew => ?_))
    rw [sold_story]
    exact hfresh.unsold hnew
  -- What follows says nothing about a single order.
  | report => exact .inl ⟨_, .of_same rfl (.single fun _ => ⟨rfl, rfl⟩) fun _ => List.Subset.refl _⟩
  | reject => exact .inl ⟨_, .of_same rfl (.single fun _ => ⟨rfl, rfl⟩) fun _ => List.Subset.refl _⟩
  | tick => exact .inl ⟨[], .of_same (List.append_nil _).symm .nil fun _ => List.Subset.refl _⟩
  | setTime => exact .inl ⟨[], .of_same (List.append_nil _).symm .nil fun _ => List.Subset.refl _⟩
  | clear => exact .inl ⟨[], .of_same (List.append_nil _).symm .nil fun _ => List.Subset.refl _⟩
  | toLimit htype ht => exact .inl ⟨[], .of_head (List.append_nil _).symm .nil (.limited _ _ htype)⟩
  | loosen => exact .inl ⟨[], .of_head (List.append_nil _).symm .nil .loosened⟩
  | amend hX hst hstop hnew =>
    exact .inl ⟨[], .of_head (List.append_nil _).symm .nil (.amended _ _ _ hX hst)⟩
  -- The stops that fire go from the dormant ones into flight, and the other way when one is parked.
  | wake hp =>
    refine .inl ⟨[], .of_unnamed (List.append_nil _).symm .nil fun ph x hx => ?_⟩
    cases ph with
    | flying =>
      rcases List.mem_append.mp hx with hx | hx
      · exact ⟨.dormant, x, hp.mem_iff.mpr (List.mem_append_left _ hx), .inr .woken⟩
      · exact ⟨.flying, x, hx, .inl ⟨rfl, rfl⟩⟩
    | resting => exact ⟨.resting, x, hx, .inl ⟨rfl, rfl⟩⟩
    | dormant => exact ⟨.dormant, x, hp.mem_iff.mpr (List.mem_append_right _ hx), .inl ⟨rfl, rfl⟩⟩
    | gone => exact absurd hx List.not_mem_nil
  | park htype hst =>
    refine .inl ⟨[], .of_unnamed (List.append_nil _).symm .nil fun ph x hx => ?_⟩
    cases ph with
    | flying => exact ⟨.flying, x, List.mem_cons_of_mem _ hx, .inl ⟨rfl, rfl⟩⟩
    | resting => exact ⟨.resting, x, hx, .inl ⟨rfl, rfl⟩⟩
    | dormant =>
      rcases List.mem_append.mp hx with hx | hx
      · exact ⟨.dormant, x, hx, .inl ⟨rfl, rfl⟩⟩
      · obtain rfl := List.mem_singleton.mp hx
        exact ⟨.flying, x, List.mem_cons_self, .inr (.parked htype hst)⟩
    | gone => exact absurd hx List.not_mem_nil
  -- An amended order is taken out of its queue, or shrinks in its place.
  | unlink ho hX =>
    refine .inl ⟨[], .of_unnamed ?_ .nil fun ph x hx => ?_⟩
    · unfold Flat.unlink
      rw [tape_setSide, List.append_nil]
    · cases ph with
      | flying =>
        rcases List.mem_cons.mp hx with rfl | hx
        · exact ⟨.resting, x, mem_resting.mpr ⟨_, ho⟩, .inr .unlinked⟩
        · exact ⟨.flying, x, hx, .inl ⟨rfl, rfl⟩⟩
      | resting =>
        rcases mem_setSide_resting hx with hx | hx
        · rw [pull_orders] at hx
          exact ⟨.resting, x, mem_resting.mpr ⟨_, List.mem_of_mem_eraseP hx⟩, .inl ⟨rfl, rfl⟩⟩
        · exact ⟨.resting, x, hx, .inl ⟨rfl, rfl⟩⟩
      | dormant =>
        change x ∈ (f.setSide _ _).stops at hx
        rw [stops_setSide] at hx
        exact ⟨.dormant, x, hx, .inl ⟨rfl, rfl⟩⟩
      | gone => exact absurd hx List.not_mem_nil
  | shrink hX ho hpos hlt =>
    refine .inl ⟨[], .of_unnamed (by rw [tape_setSide, List.append_nil]) .nil fun ph x hx => ?_⟩
    cases ph with
    | flying => exact ⟨.flying, x, hx, .inl ⟨rfl, rfl⟩⟩
    | resting =>
      rcases mem_setSide_resting hx with hx | hx
      · rw [orders_change] at hx
        obtain ⟨y, hy, rfl⟩ := List.mem_map.mp hx
        refine ⟨.resting, y, mem_resting.mpr ⟨_, hy⟩, ?_⟩
        split
        · exact .inr (.shrunk _ hX)
        · exact .inl ⟨rfl, rfl⟩
      · exact ⟨.resting, x, hx, .inl ⟨rfl, rfl⟩⟩
    | dormant =>
      change x ∈ (f.setSide _ _).stops at hx
      rw [stops_setSide] at hx
      exact ⟨.dormant, x, hx, .inl ⟨rfl, rfl⟩⟩
    | gone => exact absurd hx List.not_mem_nil

/-! ## Runs -/

/-- Every order of the engine and of the flight has a life, and so has every order that has left,
which is not written of again unless an order of its id is accepted. -/
structure Chronicle (X : Special → Prop) (x : Flat × List Order) : Prop where
  here : ∀ ph, ∀ o ∈ x.1.at x.2 ph, Lives X (story o.id x.1.tape.log) ph o
  left : ∀ past o later, x.1.tape.log = past ++ .left o :: later →
    Lives X (story o.id (past ++ [.left o])) .gone o ∧
      ((∀ m ∈ later, m.accepts o.id = false) →
        later.filter (·.about o.id) = [] ∧ ∀ y ∈ x.1.orders ++ x.2, y.id ≠ o.id)

/-- Nobody arrives by entries that tell of no acceptance. -/
theorem arrivals_eq_nil {ms : List Mark} (h : ∀ m ∈ ms, ∀ id, m.accepts id = false) :
    arrivals ms = [] := by
  refine List.filterMap_eq_nil_iff.mpr fun m hm => ?_
  cases m with
  | event e =>
    cases e with
    | onOrderAccepted o => exact absurd rfl (of_decide_eq_false (h _ hm o.id))
    | _ => rfl
  | _ => rfl

/-- An order that leaves is a departure. -/
theorem mem_departures {ms : List Mark} {o : Order} (h : .left o ∈ ms) : o.id ∈ departures ms :=
  List.mem_filterMap.mpr ⟨_, h, rfl⟩

/-- An order that leaves is not there any more. -/
theorem Turn.departed {x y : Flat × List Order} (h : Turn X x y new) (hi : Inv x.1 x.2)
    (hbal : (y.1.ids y.2 ++ departures new).Perm (x.1.ids x.2 ++ arrivals new)) {o : Order}
    (ho : .left o ∈ new) : ∀ z ∈ y.1.orders ++ y.2, z.id ≠ o.id := by
  rw [arrivals_eq_nil h.plain, List.append_nil] at hbal
  have hn := hbal.nodup_iff.mpr hi.ids
  intro z hz
  exact (List.nodup_append.mp hn).2.2 _ (List.mem_map_of_mem hz) _ (mem_departures ho)

/-- What a turn does to a chronicle. -/
theorem Chronicle.turn {x y : Flat × List Order} (h : Chronicle X x) (hi : Inv x.1 x.2)
    (ht : Turn X x y new)
    (hbal : (y.1.ids y.2 ++ departures new).Perm (x.1.ids x.2 ++ arrivals new)) : Chronicle X y where
  here ph' o' ho' := by
    obtain ⟨ph, o, ho, hg⟩ := ht.here ph' o' ho'
    have hl := h.here ph o ho
    rw [hg.id, ht.log, story_append fun m hm => ht.plain m hm o.id]
    rcases hg with ⟨rfl, rfl, hnil⟩ | hg
    · rwa [hnil, List.append_nil]
    · exact hl.next hg
  left past o later he := by
    rw [ht.log] at he
    rcases List.append_eq_append_iff.mp he with ⟨pre, rfl, hnew⟩ | ⟨rest, hlog, hrest⟩
    · -- It leaves now.
      obtain ⟨hlater, ph, r, hr, hid, hl⟩ := ht.left pre o later hnew
      have hmem : .left o ∈ new := by
        rw [hnew]
        exact List.mem_append_right _ List.mem_cons_self
      refine ⟨?_, fun _ => ⟨hlater, ht.departed hi hbal hmem⟩⟩
      rw [List.append_assoc, story_append]
      · have hr := h.here ph r hr
        rw [hid] at hr
        exact hr.next hl
      · intro m hm
        refine ht.plain m ?_ o.id
        rw [hnew]
        rcases List.mem_append.mp hm with hm | hm
        · exact List.mem_append_left _ hm
        · rw [List.mem_singleton.mp hm]
          exact List.mem_append_right _ List.mem_cons_self
    · cases rest with
      | nil =>
        -- It leaves now, and nothing is written before that.
        rw [List.append_nil] at hlog
        rw [List.nil_append] at hrest
        obtain ⟨hlater, ph, r, hr, hid, hl⟩ := ht.left [] o later hrest.symm
        have hmem : .left o ∈ new := by
          rw [← hrest]
          exact List.mem_cons_self
        refine ⟨?_, fun _ => ⟨hlater, ht.departed hi hbal hmem⟩⟩
        rw [← hlog, story_append (List.forall_mem_singleton.mpr rfl)]
        have hr := h.here ph r hr
        rw [hid] at hr
        exact hr.next hl
      | cons m rest =>
        -- It has left before.
        obtain ⟨rfl, rfl⟩ : m = .left o ∧ rest ++ new = later :=
          ⟨(List.cons.inj hrest).1.symm, (List.cons.inj hrest).2.symm⟩
        obtain ⟨hl, hafter⟩ := h.left past o rest hlog
        refine ⟨hl, fun hacc => ?_⟩
        obtain ⟨hrest, hgone⟩ := hafter fun m hm => hacc m (List.mem_append_left _ hm)
        refine ⟨?_, fun z hz hid => ?_⟩
        · rw [List.filter_append, hrest, List.nil_append]
          refine List.filter_eq_nil_iff.mpr fun m hm hab => ?_
          obtain ⟨z, hz, hid⟩ := ht.named m hm o.id hab
          exact hgone z hz hid
        · obtain ⟨ph', hz⟩ := mem_at.mp hz
          obtain ⟨ph, w, hw, hg⟩ := ht.here ph' z hz
          exact hgone w (mem_at.mpr ⟨ph, hw⟩) (hg.id.symm.trans hid)

/-- What the acceptance of an order does to a chronicle. -/
theorem Chronicle.accept {i : OrderInput} (h : Chronicle X (f, []))
    (hv : validate f.tape.now (i.order f.tape.now) = none) (hfresh : ∀ o ∈ f.orders, o.id ≠ i.id) :
    Chronicle X (f.withTape (f.tape.event (.onOrderAccepted (i.order f.tape.now))),
      [i.order f.tape.now]) where
  here ph o ho := by
    -- An order that was there before has another id, so its story does not begin anew.
    have hold : o ∈ f.at [] ph → Lives X (story o.id (f.tape.log ++
        [.event (.onOrderAccepted (i.order f.tape.now))])) ph o := by
      intro hin
      have hne : i.id ≠ o.id := by
        have hmem := mem_at.mpr ⟨ph, hin⟩
        rw [List.append_nil] at hmem
        exact (hfresh o hmem).symm
      have hother : (Mark.event (.onOrderAccepted (i.order f.tape.now))).accepts o.id = false :=
        decide_eq_false hne
      rw [story_append (List.forall_mem_singleton.mpr hother)]
      exact (List.append_nil (story o.id f.tape.log)).symm ▸ h.here ph o hin
    cases ph with
    | flying =>
      -- The new order has the acceptance for its whole story.
      obtain rfl := List.mem_singleton.mp ho
      have hown : (Mark.event (.onOrderAccepted (i.order f.tape.now))).accepts i.id = true :=
        decide_eq_true rfl
      change Lives X (story i.id (f.tape.log ++ [_])) .flying _
      rw [story_accepted hown]
      exact .accepted i _ hv
    | resting => exact hold ho
    | dormant => exact hold ho
    | gone => exact absurd ho List.not_mem_nil
  left past o later he := by
    -- The new entry is no departure, so the departure is an earlier one.
    have he : f.tape.log ++ [.event (.onOrderAccepted (i.order f.tape.now))] = past ++
        .left o :: later := he
    rcases List.append_eq_append_iff.mp he with ⟨pre, -, hnew⟩ | ⟨rest, hlog, hrest⟩
    · cases pre with
      | nil => cases hnew
      | cons m pre => cases pre <;> cases hnew
    · cases rest with
      | nil => cases hrest
      | cons m rest =>
        obtain ⟨rfl, rfl⟩ : m = .left o ∧ rest ++ [_] = later :=
          ⟨(List.cons.inj hrest).1.symm, (List.cons.inj hrest).2.symm⟩
        obtain ⟨hl, hafter⟩ := h.left past o rest hlog
        refine ⟨hl, fun hacc => ?_⟩
        obtain ⟨hrest, hgone⟩ := hafter fun m hm => hacc m (List.mem_append_left _ hm)
        have hne : i.id ≠ o.id :=
          of_decide_eq_false (hacc _ (List.mem_append_right _ (List.mem_singleton_self _)))
        refine ⟨?_, fun z hz => ?_⟩
        · rw [List.filter_append, hrest]
          rfl
        · rcases List.mem_append.mp hz with hz | hz
          · exact hgone z (List.mem_append_left _ hz)
          · rw [List.mem_singleton.mp hz]
            exact hne

/-- The chronicle after an act: each life goes on by what the act writes of its order. -/
theorem Chronicle.step {x y : Flat × List Order} (h : Chronicle X x) (hi : Inv x.1 x.2)
    (hact : Step X x y) : Chronicle X y := by
  obtain ⟨new, hlog, hbal⟩ := Step.balance hi hact
  rcases Step.turn hi hact with ⟨new', ht⟩ | ⟨i, hv, hfl, hfresh, hf', hfl'⟩
  · obtain rfl : new' = new := List.append_cancel_left (ht.log.symm.trans hlog)
    exact h.turn hi ht hbal
  · obtain ⟨f, fl⟩ := x
    obtain ⟨f', fl'⟩ := y
    subst hfl hf' hfl'
    exact h.accept hv hfresh

/-- An engine without orders has nothing to tell. -/
theorem Chronicle.init (pop : PostOnlyPolicy) (tickSz : ℤ) : Chronicle X (.init pop tickSz, []) where
  here ph o ho := by cases ph <;> cases ho
  left past o later he := by cases past <;> cases he

end Flat

/-- The orders of a run have lives. -/
theorem ReachWhere.chronicle {S : StdSort} {pop : PostOnlyPolicy} {tickSz : ℤ} {s : Engine}
    {R : Engine → Call → Prop} {X : Special → Prop} (hs : ReachWhere R S pop tickSz s)
    (hcov : ∀ s c, Reach S pop tickSz s → R s c → Flat.Covers X s.flat c) :
    Flat.Chronicle X (s.flat, []) :=
  hs.rule (.init pop tickSz) (fun _ _ hi hj hact => hj.step hi hact) hcov

end MatchingEngine.Cpp
