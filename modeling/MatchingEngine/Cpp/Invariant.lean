import Mathlib.Data.List.Nodup
import Mathlib.Tactic.Common
import MatchingEngine.Cpp.Acts

/-!
# The invariant of the C++ engine

`Inv` is what holds of the books, the dormant stops, and the orders in flight after every act. It is
stated on `Cpp/Flat.lean`, and the acts of `Cpp/Lifecycle.lean` keep it one by one, so a call keeps
it.

There is one predicate for each place where an order may be: `Resting` in a queue, `Dormant` among
the stops, and `Flying` on its way through the pipeline. `Shelf` says of a side that its prices are
sorted, that no level is empty, and that what rests there may rest there. The ids of all orders are
distinct, and the orders that come and go are counted by sub-permutations of `Flat.ids`. `Inv.step`
has one case for each act, and `Inv.steps` is the induction on a sequence of them.
-/

namespace MatchingEngine.Cpp

/-- An order that rests at the price `p` of the side `b`. -/
structure Resting (b : Side) (p : ℤ) (o : Order) : Prop where
  side : o.side = b
  price : o.price = p
  status : o.status = .NEW ∨ o.status = .PARTIALLY_FILLED
  type : o.orderType = .LIMIT
  remaining : 0 < o.remainingQty
  visible : 0 < o.visibleQty
  visible_le : o.visibleQty ≤ o.remainingQty
  plain : o.displayQty = 0 → o.visibleQty = o.remainingQty
  iceberg : o.displayQty ≠ 0 → 0 < o.displayQty ∧ o.visibleQty ≤ o.displayQty
  minQty : o.minQty = 0
  tif : o.timeInForce ≠ .IOC ∧ o.timeInForce ≠ .FOK
  group : o.selfTradeGroup = 0 ↔ o.stpPolicy = .NONE

/-- A dormant stop. -/
structure Dormant (o : Order) : Prop where
  type : o.orderType.isStop = true
  status : o.status = .NEW
  quantity : 0 < o.quantity
  remaining : o.remainingQty = o.quantity
  visible : o.visibleQty = o.quantity
  display : o.displayQty = 0
  postOnly : o.postOnly = false
  minQty : 0 ≤ o.minQty
  minQtyFok : o.timeInForce = .FOK → o.minQty = 0
  limit : o.orderType = .STOP_LIMIT → 0 < o.price
  market : o.orderType = .STOP_MARKET → o.price = 0
  stopPrice : 0 < o.stopPrice
  group : o.selfTradeGroup = 0 ↔ o.stpPolicy = .NONE

/-- An order in flight. -/
structure Flying (o : Order) : Prop where
  remaining : 0 ≤ o.remainingQty
  display : 0 ≤ o.displayQty
  minQty : 0 ≤ o.minQty
  group : o.selfTradeGroup = 0 ↔ o.stpPolicy = .NONE
  stop : o.orderType.isStop = true → o.status = .NEW → Dormant o
  postOnly : o.postOnly = true → 0 < o.remainingQty ∧ o.orderType = .LIMIT ∧ o.minQty = 0 ∧
    o.timeInForce ≠ .IOC ∧ o.timeInForce ≠ .FOK

/-- The ids of the orders of the engine and of those in flight. -/
def Flat.ids (f : Flat) (fl : List Order) : List UInt64 := (f.orders ++ fl).map (·.id)

/-- A side in order: no level is empty, every order is where it belongs, and the best price is
first. -/
structure Shelf (b : Side) (m : Levels) : Prop where
  full : ∀ l ∈ m, l.2 ≠ []
  rest : ∀ l ∈ m, ∀ o ∈ l.2, Resting b l.1 o
  sorted : m.Pairwise fun l l' => better b l.1 l'.1 = true

/-- The invariant. -/
structure Inv (f : Flat) (fl : List Order) : Prop where
  sides : ∀ b, Shelf b (f.side b)
  stops : ∀ o ∈ f.stops, Dormant o
  flight : ∀ o ∈ fl, Flying o
  ids : (f.ids fl).Nodup

/-- What is left of the order that a turn of matching was with. -/
def Fate.left : Fate → Option Order
  | stays o => some o
  | goes => none
  | moves o => some o

/-! ## Orders of levels -/

namespace Levels

/-- No levels, no orders. -/
@[simp] theorem orders_nil : Levels.orders [] = [] := rfl

/-- The orders of the best level come first. -/
@[simp] theorem orders_cons (l : ℤ × List Order) (m : Levels) :
    Levels.orders (l :: m) = l.2 ++ Levels.orders m := rfl

/-- An order is in one of the levels. -/
theorem mem_orders {m : Levels} {o : Order} : o ∈ m.orders ↔ ∃ l ∈ m, o ∈ l.2 := List.mem_flatMap

/-- Levels with a queue in front, which may be empty. -/
@[simp] theorem orders_front (p : ℤ) (q : List Order) (m : Levels) :
    (front p q m).orders = q ++ m.orders := by
  cases q <;> rfl

/-- A queue in front makes a level only if it is not empty. -/
theorem mem_front {p : ℤ} {q : List Order} {m : Levels} {l : ℤ × List Order} (h : l ∈ front p q m) :
    l = (p, q) ∧ q ≠ [] ∨ l ∈ m := by
  cases q with
  | nil => exact .inr h
  | cons o q =>
    rcases List.mem_cons.mp h with rfl | h
    · exact .inl ⟨rfl, List.cons_ne_nil _ _⟩
    · exact .inr h

/-- An order that queues up is one more order. -/
theorem perm_enqueue (b : Side) (o : Order) (m : Levels) :
    (enqueue b o m).orders.Perm (o :: m.orders) := by
  induction m with
  | nil => exact .refl _
  | cons l m ih =>
    obtain ⟨p, q⟩ := l
    unfold enqueue
    split
    · exact .refl _
    · split
      · change (q ++ [o] ++ Levels.orders m).Perm (o :: (q ++ Levels.orders m))
        rw [List.append_assoc]
        exact List.perm_middle
      · exact (ih.append_left q).trans List.perm_middle

/-- Where an order is put: at the end of a level of its price, which may be a new one. -/
theorem mem_enqueue {b : Side} {o : Order} {m : Levels} {l : ℤ × List Order}
    (h : l ∈ enqueue b o m) :
    l ∈ m ∨ l = (o.price, [o]) ∨ ∃ q, (o.price, q) ∈ m ∧ l = (o.price, q ++ [o]) := by
  induction m with
  | nil => exact .inr (.inl (List.mem_singleton.mp h))
  | cons l' m ih =>
    obtain ⟨p, q⟩ := l'
    unfold enqueue at h
    split at h
    · rcases List.mem_cons.mp h with rfl | h
      -- A new level before this one.
      · exact .inr (.inl rfl)
      · exact .inl h
    · split at h
      · rename_i heq
        rcases List.mem_cons.mp h with rfl | h
        -- This level.
        · exact .inr (.inr ⟨q, by rw [heq]; exact List.mem_cons_self, by rw [heq]⟩)
        · exact .inl (List.mem_cons_of_mem _ h)
      · rcases List.mem_cons.mp h with rfl | h
        · exact .inl List.mem_cons_self
        · rcases ih h with h | h | ⟨q', hq, he⟩
          · exact .inl (List.mem_cons_of_mem _ h)
          · exact .inr (.inl h)
          · exact .inr (.inr ⟨q', List.mem_cons_of_mem _ hq, he⟩)

end Levels

/-- The comparison of a side is transitive. -/
theorem better_trans {b : Side} {p q r : ℤ} (h : better b p q = true) (h' : better b q r = true) :
    better b p r = true := by
  cases b <;> simp only [better, decide_eq_true_eq] at * <;> omega

/-- Of two prices, one is better. -/
theorem better_total {b : Side} {p q : ℤ} (h : ¬ better b p q = true) (hne : p ≠ q) :
    better b q p = true := by
  cases b <;> simp only [better, decide_eq_true_eq] at h ⊢ <;> omega

/-- The prices of a side stay sorted. -/
theorem sorted_enqueue {b : Side} {o : Order} {m : Levels}
    (h : m.Pairwise fun l l' => better b l.1 l'.1 = true) :
    (enqueue b o m).Pairwise fun l l' => better b l.1 l'.1 = true := by
  induction m with
  | nil => exact List.pairwise_singleton _ _
  | cons l m ih =>
    obtain ⟨p, q⟩ := l
    obtain ⟨hl, hm⟩ := List.pairwise_cons.mp h
    unfold enqueue
    split
    · rename_i hb
      refine List.pairwise_cons.mpr ⟨fun l' hl' => ?_, h⟩
      rcases List.mem_cons.mp hl' with rfl | hl'
      -- The new level is better than the first one, and so than all.
      · exact hb
      · exact better_trans hb (hl l' hl')
    · rename_i hb
      split
      · exact List.pairwise_cons.mpr ⟨hl, hm⟩
      · rename_i hne
        refine List.pairwise_cons.mpr ⟨fun l' hl' => ?_, ih hm⟩
        rcases Levels.mem_enqueue hl' with hl' | rfl | ⟨q', hq, rfl⟩
        · exact hl l' hl'
        -- It is worse than the first one, and goes further down.
        · exact better_total hb hne
        · exact hl (o.price, q') hq

/-- The prices of a side are those of some of its levels. -/
theorem sorted_front {b : Side} {p : ℤ} {q q' : List Order} {m : Levels}
    (h : ((p, q') :: m).Pairwise fun l l' => better b l.1 l'.1 = true) :
    (front p q m).Pairwise fun l l' => better b l.1 l'.1 = true := by
  obtain ⟨hl, hm⟩ := List.pairwise_cons.mp h
  cases q with
  | nil => exact hm
  | cons o q => exact List.pairwise_cons.mpr ⟨hl, hm⟩

/-- The orders that are left when an id is pulled out. -/
theorem pull_orders {id : UInt64} {m : Levels} :
    Levels.orders (pull id m) = (Levels.orders m).eraseP fun o => o.id = id := by
  induction m with
  | nil => rfl
  | cons l m ih =>
    obtain ⟨p, q⟩ := l
    unfold pull
    split
    · rename_i hq
      -- The id is in this level, from which it is erased.
      obtain ⟨o, ho, hid⟩ := List.any_eq_true.mp hq
      rw [Levels.orders_cons, List.eraseP_append_left (p := fun o => o.id = id) hid _ ho]
      split
      · rename_i hnil
        rw [hnil]
        rfl
      · rename_i hcons
        rw [hcons]
        rfl
    · rename_i hq
      -- The id is not in this level.
      have hno : ∀ o ∈ q, ¬ (decide (o.id = id)) = true := fun o ho hx =>
        hq (List.any_eq_true.mpr ⟨o, ho, hx⟩)
      rw [Levels.orders_cons, Levels.orders_cons, List.eraseP_append_right _ hno, ih]

/-- The levels of a side after an order was taken out. -/
theorem mem_pull_level {id : UInt64} {m : Levels} {l : ℤ × List Order} (h : l ∈ pull id m) :
    l ∈ m ∨ l.2 ≠ [] ∧ ∃ q, (l.1, q) ∈ m ∧ ∀ o ∈ l.2, o ∈ q := by
  induction m with
  | nil => cases h
  | cons l' m ih =>
    obtain ⟨p, q⟩ := l'
    unfold pull at h
    split at h
    · split at h
      · exact .inl (List.mem_cons_of_mem _ h)
      · rename_i o q' hcons
        rcases List.mem_cons.mp h with rfl | h
        · refine .inr ⟨List.cons_ne_nil _ _, q, List.mem_cons_self, fun x hx => ?_⟩
          exact List.mem_of_mem_eraseP (by rw [hcons]; exact hx)
        · exact .inl (List.mem_cons_of_mem _ h)
    · rcases List.mem_cons.mp h with rfl | h
      · exact .inl List.mem_cons_self
      · rcases ih h with h | ⟨hne, q', hq, hsub⟩
        · exact .inl (List.mem_cons_of_mem _ h)
        · exact .inr ⟨hne, q', List.mem_cons_of_mem _ hq, hsub⟩

/-- Pulling an order out leaves the prices in their order. -/
theorem sorted_pull {b : Side} {id : UInt64} {m : Levels}
    (h : m.Pairwise fun l l' => better b l.1 l'.1 = true) :
    (pull id m).Pairwise fun l l' => better b l.1 l'.1 = true := by
  induction m with
  | nil => exact List.Pairwise.nil
  | cons l m ih =>
    obtain ⟨p, q⟩ := l
    obtain ⟨hl, hm⟩ := List.pairwise_cons.mp h
    unfold pull
    split
    · split
      · exact hm
      · exact List.pairwise_cons.mpr ⟨hl, hm⟩
    · refine List.pairwise_cons.mpr ⟨fun l' hl' => ?_, ih hm⟩
      rcases mem_pull_level hl' with hl' | ⟨-, q', hq, -⟩
      · exact hl l' hl'
      · exact hl (l'.1, q') hq

/-- Where ids are distinct, taking out an id takes out its order. -/
theorem perm_eraseP {os : List Order} {o : Order} (hids : (os.map (·.id)).Nodup) (ho : o ∈ os) :
    os.Perm (o :: os.eraseP fun x => x.id = o.id) := by
  induction os with
  | nil => cases ho
  | cons x os ih =>
    rw [List.map_cons, List.nodup_cons] at hids
    by_cases hx : x.id = o.id
    · rw [List.eraseP_cons_of_pos (p := fun y : Order => y.id = o.id) (decide_eq_true hx)]
      rcases List.mem_cons.mp ho with rfl | ho
      · exact .refl _
      · exact absurd (by rw [hx]; exact List.mem_map_of_mem ho) hids.1
    · rw [List.eraseP_cons_of_neg (p := fun y : Order => y.id = o.id) (by simpa using hx)]
      rcases List.mem_cons.mp ho with rfl | ho
      · exact absurd rfl hx
      · exact ((ih hids.2 ho).cons x).trans (List.Perm.swap o x _)

/-! ## Sides -/

/-- A shelf with one more order. -/
theorem Shelf.enqueue {b : Side} {o : Order} {m : Levels} (h : Shelf b m) (ho : Resting b o.price o) :
    Shelf b (enqueue b o m) where
  full l hl := by
    rcases Levels.mem_enqueue hl with hl | rfl | ⟨q, -, rfl⟩
    · exact h.full l hl
    · exact List.cons_ne_nil _ _
    · exact List.append_ne_nil_of_right_ne_nil _ (List.cons_ne_nil _ _)
  rest l hl x hx := by
    rcases Levels.mem_enqueue hl with hl | rfl | ⟨q, hq, rfl⟩
    · exact h.rest l hl x hx
    · rw [List.mem_singleton.mp hx]
      exact ho
    · rcases List.mem_append.mp hx with hx | hx
      · exact h.rest _ hq x hx
      · rw [List.mem_singleton.mp hx]
        exact ho
  sorted := sorted_enqueue h.sorted

/-- A shelf with an order pulled out. -/
theorem Shelf.pull {b : Side} {id : UInt64} {m : Levels} (h : Shelf b m) : Shelf b (pull id m) where
  full l hl := by
    rcases mem_pull_level hl with hl | ⟨hne, -⟩
    · exact h.full l hl
    · exact hne
  rest l hl x hx := by
    rcases mem_pull_level hl with hl | ⟨-, q, hq, hsub⟩
    · exact h.rest l hl x hx
    · exact h.rest _ hq x (hsub x hx)
  sorted := sorted_pull h.sorted

/-- A queue in front of the other levels of a side. -/
theorem Shelf.front {b : Side} {p : ℤ} {q q' : List Order} {m : Levels} (h : Shelf b ((p, q) :: m))
    (hq : ∀ o ∈ q', Resting b p o) : Shelf b (front p q' m) where
  full l hl := by
    rcases Levels.mem_front hl with ⟨rfl, hne⟩ | hl
    · exact hne
    · exact h.full l (List.mem_cons_of_mem _ hl)
  rest l hl x hx := by
    rcases Levels.mem_front hl with ⟨rfl, -⟩ | hl
    · exact hq x hx
    · exact h.rest l (List.mem_cons_of_mem _ hl) x hx
  sorted := sorted_front h.sorted

/-- A shelf without its best level. -/
theorem Shelf.tail {b : Side} {l : ℤ × List Order} {m : Levels} (h : Shelf b (l :: m)) : Shelf b m where
  full l' hl := h.full l' (List.mem_cons_of_mem _ hl)
  rest l' hl := h.rest l' (List.mem_cons_of_mem _ hl)
  sorted := (List.pairwise_cons.mp h.sorted).2

/-- An order is changed where it is. -/
theorem Shelf.change {b : Side} {id : UInt64} {g : Order → Order} {m : Levels} (h : Shelf b m)
    (hg : ∀ l ∈ m, ∀ o ∈ l.2, o.id = id → Resting b l.1 (g o)) : Shelf b (Flat.change id g m) where
  full l' hl' := by
    obtain ⟨l, hl, rfl⟩ := List.mem_map.mp hl'
    exact fun hn => h.full l hl (List.map_eq_nil_iff.mp hn)
  rest l' hl' x hx := by
    obtain ⟨l, hl, rfl⟩ := List.mem_map.mp hl'
    obtain ⟨o, ho, rfl⟩ := List.mem_map.mp hx
    split
    · exact hg l hl o ho ‹_›
    · exact h.rest l hl o ho
  sorted := List.pairwise_map.mpr h.sorted

/-! ## Ids -/

namespace Flat

/-- The orders that are not on a side. -/
def others (f : Flat) (b : Side) : List Order := (f.side (oppositeSide b)).orders ++ f.stops

/-- The orders of the engine, with those of a side first. -/
theorem orders_perm (f : Flat) (b : Side) : f.orders.Perm ((f.side b).orders ++ f.others b) := by
  cases b with
  | BUY => exact .refl _
  | SELL =>
    unfold orders others
    rw [← List.append_assoc, ← List.append_assoc]
    exact List.perm_append_comm.append_right _

/-- The orders of a side, and those in flight, beside the others. -/
theorem ids_side (f : Flat) (b : Side) (fl : List Order) : (f.ids fl).Perm
    ((f.others b).map (·.id) ++ ((f.side b).orders ++ fl).map (·.id)) := by
  rw [← List.map_append]
  refine List.Perm.map _ (((orders_perm f b).append_right fl).trans ?_)
  rw [← List.append_assoc]
  exact List.perm_append_comm.append_right _

/-- A write to a side adds no id when it adds none to the orders of the side and those in flight. -/
theorem subperm_setSide {f : Flat} {b : Side} {m : Levels} {fl fl' : List Order}
    (h : ((m.orders ++ fl').map (·.id)).Subperm (((f.side b).orders ++ fl).map (·.id))) :
    ((f.setSide b m).ids fl').Subperm (f.ids fl) := by
  have h' := ids_side (f.setSide b m) b fl'
  rw [side_setSide] at h'
  have hothers : (f.setSide b m).others b = f.others b := by
    unfold others
    rw [side_setSide_opposite', stops_setSide]
  rw [hothers] at h'
  exact (h'.subperm.trans ((List.subperm_append_left _).mpr h)).trans (ids_side f b fl).symm.subperm

/-- A turn of matching: the incoming order keeps its id, and the resting one keeps its own or
leaves. -/
theorem subperm_turn {f : Flat} {b : Side} {p : ℤ} {r : Order} {q : List Order} {m : Levels}
    {fate : Fate} {inc inc' : Order} {fl : List Order} (hside : f.side b = (p, r :: q) :: m)
    (hfate : ∀ o ∈ fate.left, o.id = r.id) (hinc : inc'.id = inc.id) :
    ((f.setSide b (front p (fate.requeue q) m)).ids (inc' :: fl)).Subperm (f.ids (inc :: fl)) := by
  refine subperm_setSide ?_
  have hq : ((fate.requeue q).map (·.id)).Subperm ((r :: q).map (·.id)) := by
    cases fate with
    | stays o =>
      rw [Fate.requeue, List.map_cons, List.map_cons, hfate o rfl]
    | goes => exact ((List.sublist_cons_self _ _).map _).subperm
    | moves o =>
      rw [Fate.requeue, List.map_append, List.map_cons, List.map_cons, List.map_nil, hfate o rfl]
      exact (List.perm_append_singleton _ _).subperm
  rw [hside, Levels.orders_front, Levels.orders_cons, List.append_assoc, List.append_assoc,
    List.map_append, List.map_append]
  simp only [List.map_append, List.map_cons, hinc]
  exact (List.subperm_append_right _).mpr hq

end Flat

/-- A part of a list without repetition has none. -/
theorem nodup_of_subperm {α : Type} {l l' : List α} (h : l.Subperm l') (hn : l'.Nodup) : l.Nodup := by
  obtain ⟨l₁, hp, hs⟩ := h
  exact hp.nodup_iff.mp (hn.sublist hs)

/-! ## Orders -/

/-- What is in a queue after a turn was there, or is what has become of its head. -/
theorem mem_requeue {fate : Fate} {q : List Order} {o : Order} (h : o ∈ fate.requeue q) :
    o ∈ q ∨ o ∈ fate.left := by
  cases fate with
  | stays r =>
    rcases List.mem_cons.mp h with rfl | h
    · exact .inr rfl
    · exact .inl h
  | goes => exact .inl h
  | moves r =>
    rcases List.mem_append.mp h with h | h
    · exact .inl h
    · exact .inr (by rw [List.mem_singleton.mp h]; rfl)

/-- A reload shows a slice of what remains. -/
theorem resting_reload {b : Side} {p : ℤ} {r : Order} {t : Tape}
    (h : Resting b p { r with visibleQty := min r.displayQty r.remainingQty }) :
    ∀ o ∈ (Flat.reload r t).1.left, Resting b p o ∧ o.id = r.id := by
  rintro o ⟨⟩
  exact ⟨⟨h.side, h.price, h.status, h.type, h.remaining, h.visible, h.visible_le, h.plain, h.iceberg,
    h.minQty, h.tif, h.group⟩, rfl⟩

/-- What a fill leaves of a resting order rests. -/
theorem resting_afterFill {b : Side} {p : ℤ} {r : Order} {fq : ℤ} {t : Tape} (h : Resting b p r)
    (hfq : 0 < fq) (hle : fq ≤ r.visibleQty) :
    ∀ o ∈ (Flat.afterFill (Flat.filledBy r fq) t).1.left, Resting b p o ∧ o.id = r.id := by
  have hvis := h.visible_le
  have hplain := h.plain
  have hice := h.iceberg
  unfold Flat.afterFill
  split
  -- The next slice of an iceberg.
  · rename_i hc
    obtain ⟨hv, hrem, hd⟩ := hc
    refine resting_reload ⟨h.side, h.price, h.status, h.type, hrem, lt_min hd hrem, min_le_right _ _,
      fun hz => absurd hz hd.ne', fun _ => ⟨hd, min_le_left _ _⟩, h.minQty, h.tif, h.group⟩
  · rename_i hc
    split
    · exact fun o ho => absurd ho (Option.not_mem_none o)
    · rename_i hrem
      dsimp only [Flat.filledBy] at hc hrem
      -- The slice is not used up: a plain order would be filled, and an iceberg would show the next
      -- one.
      have hpos : 0 < r.visibleQty - fq := by
        by_contra hn
        refine hc ⟨by omega, by omega, ?_⟩
        by_contra hd
        have := hplain (by_contra fun hz => hd (hice hz).1)
        omega
      rintro o ⟨⟩
      dsimp only [Flat.filledBy]
      refine ⟨⟨h.side, h.price, .inr rfl, h.type, ?_, hpos, ?_, fun hz => ?_, fun hz => ?_, h.minQty,
        h.tif, h.group⟩, rfl⟩ <;> dsimp only at *
      · omega
      · omega
      · rw [hplain hz]
      · exact ⟨(hice hz).1, by have := (hice hz).2; omega⟩

/-- What a decrement leaves of a resting order rests. -/
theorem resting_afterDecrement {b : Side} {p : ℤ} {r : Order} {rq : ℤ} {t : Tape} (h : Resting b p r)
    (hrq : 0 < rq) (hle : rq ≤ r.visibleQty) :
    ∀ o ∈ (Flat.afterDecrement (Flat.lessResting r rq) t).1.left, Resting b p o ∧ o.id = r.id := by
  have hvis := h.visible_le
  have hplain := h.plain
  have hice := h.iceberg
  unfold Flat.afterDecrement
  split
  · exact fun o ho => absurd ho (Option.not_mem_none o)
  · rename_i hrem
    -- What is not used up keeps its status.
    have hst : (Flat.lessResting r rq).status = r.status := if_neg hrem
    dsimp only [Flat.lessResting] at hrem
    split
    · rename_i hc
      obtain ⟨hv, hd⟩ := hc
      dsimp only [Flat.lessResting] at hd
      have hpos : 0 < r.remainingQty - rq := by omega
      exact resting_reload ⟨h.side, h.price, by rw [hst]; exact h.status, h.type, hpos,
        lt_min hd hpos, min_le_right _ _, fun hz => absurd hz hd.ne', fun _ => ⟨hd, min_le_left _ _⟩,
        h.minQty, h.tif, h.group⟩
    · rename_i hc
      dsimp only [Flat.lessResting] at hc
      -- As in `resting_afterFill`, the slice is not used up.
      have hpos : 0 < r.visibleQty - rq := by
        by_contra hn
        refine hc ⟨by omega, ?_⟩
        by_contra hd
        have := hplain (by_contra fun hz => hd (hice hz).1)
        omega
      rintro o ⟨⟩
      refine ⟨⟨h.side, h.price, by rw [hst]; exact h.status, h.type, ?_, hpos, ?_, fun hz => ?_,
        fun hz => ?_, h.minQty, h.tif, h.group⟩, rfl⟩ <;> dsimp only [Flat.lessResting] at *
      · omega
      · omega
      · rw [hplain hz]
      · exact ⟨(hice hz).1, by have := (hice hz).2; omega⟩

/-- What a self-trade policy leaves of a resting order rests. -/
theorem resting_handleStp {b : Side} {p : ℤ} {inc r : Order} {t : Tape} (h : Resting b p r)
    (hrem : 0 < inc.remainingQty) :
    ∀ o ∈ (Flat.handleStp inc r t).2.1.left, Resting b p o ∧ o.id = r.id := by
  have hstays : ∀ o ∈ (Fate.stays r).left, Resting b p o ∧ o.id = r.id := by
    rintro o ⟨⟩
    exact ⟨h, rfl⟩
  unfold Flat.handleStp
  split
  · exact hstays
  · exact fun o ho => absurd ho (Option.not_mem_none o)
  · exact fun o ho => absurd ho (Option.not_mem_none o)
  · exact resting_afterDecrement h (lt_min hrem h.visible) (min_le_right _ _)
  · exact hstays

/-- An order in flight that has given up some of what it had left. -/
theorem Flying.less {o o' : Order} (h : Flying o) (ha : Flat.Alike o o')
    (hrem : 0 ≤ o'.remainingQty) (hstop : o.orderType.isStop = false) (hpo : o.postOnly = false) :
    Flying o' := by
  rw [ha]
  exact ⟨hrem, h.display, h.minQty, h.group, fun hs => absurd hs (by rw [hstop]; nofun),
    fun hp => absurd hp (by rw [hpo]; nofun)⟩

/-- Self-trade prevention takes no more than there is. -/
theorem remaining_handleStp {inc r : Order} {t : Tape} (hrem : 0 < inc.remainingQty) :
    0 ≤ (Flat.handleStp inc r t).1.remainingQty := by
  unfold Flat.handleStp
  split
  · exact hrem.le
  · exact hrem.le
  · exact hrem.le
  · exact Int.sub_nonneg.mpr (min_le_left _ _)
  · exact hrem.le

/-- A dormant stop is fit to be worked on. -/
theorem Dormant.flying {o : Order} (h : Dormant o) : Flying o where
  remaining := by
    rw [h.remaining]
    exact h.quantity.le
  display := h.display.ge
  minQty := h.minQty
  group := h.group
  stop _ _ := h
  postOnly hp := absurd hp (by rw [h.postOnly]; nofun)

/-- A resting order is fit to be worked on. -/
theorem Resting.flying {b : Side} {p : ℤ} {o : Order} (h : Resting b p o) : Flying o where
  remaining := h.remaining.le
  display := by
    by_contra hn
    exact hn (h.iceberg fun hz => hn hz.ge).1.le
  minQty := h.minQty.ge
  group := h.group
  stop hs := absurd hs (by rw [h.type]; nofun)
  postOnly _ := ⟨h.remaining, h.type, h.minQty, h.tif⟩

/-- An order that comes to rest. -/
theorem Flying.rest {o : Order} {st : OrderStatus} (h : Flying o)
    (hst : st = .NEW ∨ st = .PARTIALLY_FILLED) (hrem : o.remainingQty ≠ 0)
    (htype : o.orderType = .LIMIT)
    (htif : o.timeInForce ≠ .IOC ∧ o.timeInForce ≠ .FOK) (hmin : o.minQty = 0) :
    Resting o.side o.price { o with visibleQty := o.shown o.remainingQty, status := st } := by
  -- Something remains, so the displayed slice is positive too.
  have hpos : 0 < o.remainingQty := by
    have := h.remaining
    omega
  have hdisp := h.display
  refine ⟨rfl, rfl, hst, htype, hpos, ?_, ?_, fun hz => ?_, fun hz => ?_, hmin, htif, h.group⟩ <;>
    dsimp only [Order.shown] at *
  · split
    · exact lt_min ‹_› hpos
    · exact hpos
  · split
    · exact min_le_right _ _
    · exact le_refl _
  · rw [if_neg (by omega)]
  · have hd : 0 < o.displayQty := by omega
    rw [if_pos hd]
    exact ⟨hd, min_le_left _ _⟩

/-- An order that was accepted, before anything else. -/
theorem Valid.flying {now : ℕ} {i : OrderInput} {t : ℕ} (h : Valid now (i.order t)) :
    Flying (i.order t) where
  remaining := h.quantity.le
  display := by
    rcases h.display with hd | hd
    · exact hd.ge
    · exact hd.1.le
  minQty := by
    rcases h.minQty with hm | hm
    · exact hm.ge
    · exact hm.1.le
  group := h.group
  -- A stop shows all of its quantity, since only limit orders may be icebergs.
  stop hs _ := by
    have hlimit : (i.order t).orderType ≠ .LIMIT := by
      intro hl
      rw [hl] at hs
      cases hs
    have hd : (i.order t).displayQty = 0 := not_not.mp fun hz => hlimit (h.displayType hz)
    refine ⟨hs, rfl, h.quantity, rfl, ?_, hd, h.stop_postOnly hs, ?_, h.minQtyFok, h.stopLimit,
      fun ht => h.market (.inr ht), h.stopPrice hs, h.group⟩
    · exact if_neg (by rw [show i.displayQty = 0 from hd]; exact lt_irrefl _)
    · rcases h.minQty with hm | hm
      · exact hm.ge
      · exact hm.1.le
  postOnly hp := ⟨h.quantity, h.postOnly hp, by_contra fun hm => absurd hp (by
    rw [h.minQtyPostOnly hm]
    nofun), h.postOnlyTif hp⟩

/-! ## The acts keep the invariant -/

section Steps

open Flat

variable {X : Special → Prop} {f f' : Flat} {fl fl' : List Order}

/-- The order in flight is in order. -/
theorem Inv.head {o : Order} (h : Inv f (o :: fl)) : Flying o := h.flight o List.mem_cons_self

/-- The order in flight that is worked on is replaced. -/
theorem Inv.update {t : Tape} {o o' : Order} (h : Inv f (o :: fl)) (ho : Flying o')
    (hid : o'.id = o.id) :
    Inv (f.withTape t) (o' :: fl) where
  sides b := by
    rw [side_withTape]
    exact h.sides b
  stops := h.stops
  flight := List.forall_mem_cons.mpr ⟨ho, (List.forall_mem_cons.mp h.flight).2⟩
  ids := by
    have hn := h.ids
    unfold Flat.ids at hn ⊢
    rw [List.map_append, List.map_cons] at hn ⊢
    rw [hid]
    exact hn

/-- The history does not matter. -/
theorem Inv.withTape {t : Tape} (h : Inv f fl) : Inv (f.withTape t) fl where
  sides b := by
    rw [side_withTape]
    exact h.sides b
  stops := h.stops
  flight := h.flight
  ids := h.ids

/-- An order in flight leaves. -/
theorem Inv.leave {t : Tape} {o : Order} (h : Inv f (o :: fl)) : Inv (f.withTape t) fl where
  sides b := by
    rw [side_withTape]
    exact h.sides b
  stops := h.stops
  flight := (List.forall_mem_cons.mp h.flight).2
  ids := h.ids.sublist (((List.sublist_cons_self o fl).append_left _).map _)

/-- A side is written, and the flight with it. -/
theorem Inv.setSide {b : Side} {m : Levels} (h : Inv f fl) (hm : Shelf b m) (hfl : ∀ o ∈ fl', Flying o)
    (hids : ((f.setSide b m).ids fl').Subperm (f.ids fl)) : Inv (f.setSide b m) fl' where
  sides b' := by
    by_cases hb : b' = b
    · rw [hb, side_setSide]
      exact hm
    · have hb : b' = oppositeSide b := by
        cases b <;> cases b' <;> first | rfl | exact absurd rfl hb
      rw [hb, side_setSide_opposite']
      exact h.sides _
  stops := by
    rw [stops_setSide]
    exact h.stops
  flight := hfl
  ids := nodup_of_subperm hids h.ids

/-- The invariant after a trade. -/
theorem Inv.trade {inc r inc' : Order} {p : ℤ} {q : List Order} {m : Levels} {fate : Fate} {t : Tape}
    (h : Inv f (inc :: fl)) (hside : f.side (oppositeSide inc.side) = (p, r :: q) :: m)
    (hpo : inc.postOnly = false) (hstop : inc.orderType.isStop = false)
    (hfill : Flat.fill ((p, r :: q) :: m) inc r f.tape = some (inc', fate, t)) :
    Inv (f.setSide (oppositeSide inc.side) (front p (fate.requeue q) m)) (inc' :: fl) := by
  have hshelf := h.sides (oppositeSide inc.side)
  rw [hside] at hshelf
  have hr := hshelf.rest _ List.mem_cons_self
  obtain ⟨hfq, he⟩ := fill_eq hfill
  obtain ⟨rfl, hft⟩ := Prod.mk.inj he
  -- What is left of the resting order may rest where it rested.
  have hleft := resting_afterFill (t := f.tape.record ((p, r :: q) :: m)
    (min inc.remainingQty r.visibleQty) inc r) (hr r List.mem_cons_self) hfq (min_le_right _ _)
  rw [← hft] at hleft
  refine h.setSide (hshelf.front fun o ho => ?_) ?_ ?_
  · rcases mem_requeue ho with ho | ho
    · exact hr o (List.mem_cons_of_mem _ ho)
    · exact (hleft o ho).1
  · exact List.forall_mem_cons.mpr ⟨h.head.less rfl (Int.sub_nonneg.mpr (min_le_left _ _)) hstop hpo,
      (List.forall_mem_cons.mp h.flight).2⟩
  · exact subperm_turn hside (fun o ho => (hleft o ho).2) rfl

/-- The invariant after a self-trade that was prevented. -/
theorem Inv.selfTrade {inc r : Order} {p : ℤ} {q : List Order} {m : Levels} (h : Inv f (inc :: fl))
    (hside : f.side (oppositeSide inc.side) = (p, r :: q) :: m) (hrem : 0 < inc.remainingQty)
    (hpo : inc.postOnly = false) (hstop : inc.orderType.isStop = false) :
    Inv (f.setSide (oppositeSide inc.side) (front p ((Flat.handleStp inc r f.tape).2.1.requeue q) m))
      ((Flat.handleStp inc r f.tape).1 :: fl) := by
  have hshelf := h.sides (oppositeSide inc.side)
  rw [hside] at hshelf
  have hr := hshelf.rest _ List.mem_cons_self
  have halike := alike_handleStp inc r f.tape
  have hleft := resting_handleStp (t := f.tape) (hr r List.mem_cons_self) hrem
  refine h.setSide (hshelf.front fun o ho => ?_) ?_ ?_
  · rcases mem_requeue ho with ho | ho
    · exact hr o (List.mem_cons_of_mem _ ho)
    · exact (hleft o ho).1
  · exact List.forall_mem_cons.mpr ⟨h.head.less halike (remaining_handleStp hrem) hstop hpo,
      (List.forall_mem_cons.mp h.flight).2⟩
  · exact subperm_turn hside (fun o ho => (hleft o ho).2) (by rw [halike])

/-- An order in flight comes to rest. -/
theorem Inv.rest {o : Order} {st : OrderStatus} (h : Inv f (o :: fl))
    (hst : st = .NEW ∨ st = .PARTIALLY_FILLED) (hrem : o.remainingQty ≠ 0)
    (htype : o.orderType = .LIMIT)
    (htif : o.timeInForce ≠ .IOC ∧ o.timeInForce ≠ .FOK) (hmin : o.minQty = 0) :
    Inv (f.rest o st) fl := by
  have ho := h.head.rest hst hrem htype htif hmin
  refine Inv.withTape (h.setSide ((h.sides o.side).enqueue ho) (List.forall_mem_cons.mp h.flight).2 ?_)
  refine subperm_setSide (List.Perm.subperm ?_)
  rw [List.map_append, List.map_append, List.map_cons]
  refine ((Levels.perm_enqueue o.side _ (f.side o.side)).map (·.id)).append_right _ |>.trans ?_
  exact List.perm_middle.symm

/-- The invariant after an order is taken out of its queue and is in flight. -/
theorem Inv.unlink {b : Side} {o : Order} (h : Inv f fl) (ho : o ∈ (f.side b).orders) :
    Inv (f.unlink b o) (o :: fl) := by
  obtain ⟨l, hl, hol⟩ := Levels.mem_orders.mp ho
  refine h.setSide (h.sides b).pull ?_ (subperm_setSide (List.Perm.subperm ?_))
  · exact List.forall_mem_cons.mpr ⟨((h.sides b).rest l hl o hol).flying, h.flight⟩
  · have hids : ((f.side b).orders.map (·.id)).Nodup := by
      have hn := (ids_side f b fl).nodup_iff.mp h.ids
      rw [List.map_append] at hn
      exact (List.nodup_append.mp (List.nodup_append.mp hn).2.1).1
    rw [pull_orders]
    refine (List.Perm.map _ ?_)
    exact List.perm_middle.trans ((perm_eraseP hids ho).symm.append_right fl)

/-- The order of an id on a side. -/
theorem Inv.unique {b : Side} {o o' : Order} (h : Inv f fl) (ho : o ∈ (f.side b).orders)
    (ho' : o' ∈ (f.side b).orders) (hid : o'.id = o.id) : o' = o := by
  have hn := (ids_side f b fl).nodup_iff.mp h.ids
  rw [List.map_append] at hn
  exact List.inj_on_of_nodup_map (List.nodup_append.mp (List.nodup_append.mp hn).2.1).1 ho' ho hid

/-- The orders after one of them is changed. -/
theorem orders_change (id : UInt64) (g : Order → Order) (m : Levels) :
    (change id g m).orders = m.orders.map fun o => if o.id = id then g o else o := by
  induction m with
  | nil => rfl
  | cons l m ih =>
    rw [Levels.orders_cons, List.map_append, ← ih]
    rfl

/-- The invariant after an order is made smaller in its place. -/
theorem Inv.shrink {b : Side} {o : Order} {newQty : ℤ} (h : Inv f fl) (ho : o ∈ (f.side b).orders)
    (hpos : 0 < newQty) (hlt : newQty < o.remainingQty) :
    Inv (f.setSide b (change o.id (fun o =>
      { o with remainingQty := newQty, visibleQty := min o.visibleQty newQty }) (f.side b))) fl := by
  refine h.setSide ((h.sides b).change fun l hl x hx hid => ?_) h.flight (subperm_setSide ?_)
  · obtain rfl := h.unique ho (Levels.mem_orders.mpr ⟨l, hl, hx⟩) hid
    have hr := (h.sides b).rest l hl x hx
    refine ⟨hr.side, hr.price, hr.status, hr.type, hpos, lt_min hr.visible hpos, min_le_right _ _,
      fun hz => ?_, fun hz => ?_, hr.minQty, hr.tif, hr.group⟩
    · dsimp only
      rw [hr.plain hz, min_eq_right hlt.le]
    · exact ⟨(hr.iceberg hz).1, (min_le_left _ _).trans (hr.iceberg hz).2⟩
  · rw [orders_change, List.map_append, List.map_append, List.map_map]
    refine List.Perm.subperm
      (List.Perm.append_right _ (List.Perm.of_eq (List.map_congr_left fun x _ => ?_)))
    dsimp only [Function.comp_apply]
    split <;> rfl

/-- Stops are taken out. -/
theorem Inv.wake {os stops : List Order} (h : Inv f fl) (hp : f.stops.Perm (os ++ stops)) :
    Inv { f with stops := stops } (os ++ fl) where
  sides b := by
    cases b with
    | BUY => exact h.sides .BUY
    | SELL => exact h.sides .SELL
  stops o ho := h.stops o (hp.mem_iff.mpr (List.mem_append_right _ ho))
  flight o ho := by
    rcases List.mem_append.mp ho with ho | ho
    · exact (h.stops o (hp.mem_iff.mpr (List.mem_append_left _ ho))).flying
    · exact h.flight o ho
  ids := by
    refine (List.Perm.nodup_iff (List.Perm.map _ ?_)).mp h.ids
    change ((f.side .BUY).orders ++ ((f.side .SELL).orders ++ f.stops) ++ fl).Perm
      ((f.side .BUY).orders ++ ((f.side .SELL).orders ++ stops) ++ (os ++ fl))
    rw [List.append_assoc, List.append_assoc, List.append_assoc, List.append_assoc]
    refine List.Perm.append_left _ (List.Perm.append_left _ ((hp.append_right fl).trans ?_))
    rw [← List.append_assoc]
    exact List.perm_append_comm.append_right fl

/-- A stop goes to sleep. -/
theorem Inv.park {o : Order} (h : Inv f (o :: fl)) (htype : o.orderType.isStop = true)
    (hst : o.status = .NEW) : Inv { f with stops := f.stops ++ [o] } fl where
  sides b := by
    cases b with
    | BUY => exact h.sides .BUY
    | SELL => exact h.sides .SELL
  stops x hx := by
    rcases List.mem_append.mp hx with hx | hx
    · exact h.stops x hx
    · rw [List.mem_singleton.mp hx]
      exact h.head.stop htype hst
  flight := (List.forall_mem_cons.mp h.flight).2
  ids := by
    have hn := h.ids
    unfold Flat.ids orders at hn
    change (((f.side .BUY).orders ++ ((f.side .SELL).orders ++ (f.stops ++ [o])) ++ fl).map
      (·.id)).Nodup
    simpa only [List.append_assoc, List.cons_append, List.nil_append] using hn

/-- An order is accepted, which has an id of its own. -/
theorem Inv.accept {o : Order} {t : Tape} (h : Inv f []) (ho : Flying o)
    (hfresh : ∀ x ∈ f.orders, x.id ≠ o.id) : Inv (f.withTape t) [o] where
  sides b := by
    rw [side_withTape]
    exact h.sides b
  stops := h.stops
  flight := List.forall_mem_singleton.mpr ho
  ids := by
    have hn := h.ids
    unfold Flat.ids at hn ⊢
    rw [List.append_nil] at hn
    rw [List.map_append, List.map_singleton]
    refine List.nodup_append.mpr ⟨hn, List.nodup_singleton _, fun x hx y hy => ?_⟩
    obtain ⟨w, hw, rfl⟩ := List.mem_map.mp hx
    rw [List.mem_singleton.mp hy]
    exact hfresh w hw

/-- One act keeps the invariant. -/
theorem Inv.step (h : Inv f fl) (hs : Step X (f, fl) (f', fl')) : Inv f' fl' := by
  cases hs with
  | perm hp =>
    refine ⟨h.sides, h.stops, fun o ho => h.flight o (hp.mem_iff.mpr ho), ?_⟩
    exact ((hp.append_left f.orders).map _).nodup_iff.mp h.ids
  -- The turns of matching are `Inv.trade` and `Inv.selfTrade`.
  | trade hside hrem hm hc hpo hst hstop hfill => exact (h.trade hside hpo hstop hfill).withTape
  | selfTrade hside hrem hm hc hst hstop hpo => exact (h.selfTrade hside hrem hpo hstop).withTape
  | drop hside => exact absurd rfl ((h.sides _).full _ (by rw [hside]; exact List.mem_cons_self))
  -- The status alone changes, to one that no dormant stop has.
  | filled hr hst =>
    have hf := h.head
    exact h.update ⟨hf.remaining, hf.display, hf.minQty, hf.group, nofun, hf.postOnly⟩ rfl
  | cancel reason hst htype =>
    have hf := h.head
    exact h.update ⟨hf.remaining, hf.display, hf.minQty, hf.group, nofun, hf.postOnly⟩ rfl
  | kill reason hst => exact h.leave
  | recancel reason htype hst hX => exact h.leave
  -- A minimum quantity has been met by then, or nothing would remain to rest.
  | rest hst hold hrem htype htif hmin hcross =>
    have hf := h.head
    exact h.rest hst hrem htype htif
      (le_antisymm (hmin (lt_of_le_of_ne hf.remaining hrem.symm)) hf.minQty)
  | passive hpo hold hcross =>
    obtain ⟨hrem, htype, hmin, htif⟩ := h.head.postOnly hpo
    exact h.rest (.inl rfl) hrem.ne' htype htif hmin
  -- As for a passive order, with another price.
  | reprice hpo hold hside hX hrep =>
    obtain ⟨hrem, htype, hmin, htif⟩ := h.head.postOnly hpo
    obtain ⟨rfl, rfl⟩ := Prod.mk.inj (reprice_eq hside hrep)
    have hf := h.head
    refine Inv.rest (h.update ⟨hf.remaining, hf.display, hf.minQty, hf.group, fun hx => ?_, hf.postOnly⟩
      rfl) (.inl rfl) hrem.ne' htype htif hmin
    exact absurd hx (by rw [htype]; nofun)
  | leave hst => exact h.leave
  | report depth ht => exact h.withTape
  | wake hp => exact h.wake hp
  | trigger htype =>
    have hf := h.head
    refine h.update ⟨hf.remaining, hf.display, hf.minQty, hf.group, nofun, fun hp => ?_⟩ rfl
    exact absurd htype (by rw [(hf.postOnly hp).2.1]; nofun)
  | park htype hst => exact h.park htype hst
  | toLimit htype ht =>
    have hf := h.head
    refine h.update ⟨hf.remaining, hf.display, ?_, hf.group, nofun, fun hp => ?_⟩ rfl
    · dsimp only
      split
      · exact le_refl _
      · exact hf.minQty
    · exact absurd (hf.postOnly hp).2.1 (by rw [htype]; nofun)
  -- The minimum quantity is dropped after the first trade.
  | loosen =>
    have hf := h.head
    refine h.update ⟨hf.remaining, hf.display, le_refl _, hf.group, fun hx hst => ?_, fun hp => ?_⟩ rfl
    · have hd := hf.stop hx hst
      exact ⟨hd.type, hd.status, hd.quantity, hd.remaining, hd.visible, hd.display, hd.postOnly,
        le_refl _, fun _ => rfl, hd.limit, hd.market, hd.stopPrice, hd.group⟩
    · obtain ⟨hrem, htype, -, htif⟩ := hf.postOnly hp
      exact ⟨hrem, htype, rfl, htif⟩
  | tick => exact h.withTape
  | setTime t hX => exact h.withTape
  | clear hX => exact h.withTape
  | reject o reason => exact h.withTape
  | accept i hfresh hv hX => exact h.accept (valid_of_validate hv).flying hfresh
  | unlink ho hX => exact h.unlink ho
  -- Only price, quantities and timestamp change, and a new quantity is positive.
  | amend hX hst hstop hnew =>
    rename_i o newPx newQty
    have hf := h.head
    refine h.update ⟨?_, hf.display, hf.minQty, hf.group, fun hx => absurd hx (by
      rw [show (amended o newPx newQty _).orderType = o.orderType from rfl, hstop]
      nofun), fun hp => ?_⟩ rfl
    · change 0 ≤ if 0 < newQty then newQty else o.remainingQty
      split
      · exact le_of_lt ‹_›
      · exact hf.remaining
    · obtain ⟨hrem, htype, hmin, htif⟩ := hf.postOnly hp
      refine ⟨?_, htype, hmin, htif⟩
      change 0 < if 0 < newQty then newQty else o.remainingQty
      split
      · assumption
      · exact hrem
  | shrink hX ho hpos hlt => exact h.shrink ho hpos hlt
  | expire hst => exact h.leave

/-- A sequence of acts keeps the invariant. -/
theorem Inv.steps {x y : Flat × List Order} (h : Inv x.1 x.2) (hs : Steps X x y) : Inv y.1 y.2 := by
  induction hs with
  | refl => exact h
  | tail _ hact ih => exact ih.step hact

end Steps

/-- The engine starts in order. -/
theorem Inv.init (pop : PostOnlyPolicy) (tickSz : ℤ) : Inv (.init pop tickSz) [] where
  sides b := by
    have hside : (Flat.init pop tickSz).side b = [] := by
      cases b <;> rfl
    rw [hside]
    exact ⟨fun l hl => absurd hl List.not_mem_nil, fun l hl => absurd hl List.not_mem_nil, .nil⟩
  stops o ho := absurd ho List.not_mem_nil
  flight o ho := absurd ho List.not_mem_nil
  ids := List.nodup_nil

/-- What the acts of a call rest on. -/
theorem Inv.tidy {f : Flat} (h : Inv f []) : Flat.Tidy f where
  ids := by
    have hn := h.ids
    unfold Flat.ids at hn
    rwa [List.append_nil] at hn
  status o ho := by
    -- A resting order is open, and so is a dormant stop.
    have hside : ∀ b, o ∈ (f.side b).orders → o.status.open = true := by
      intro b hb
      obtain ⟨l, hl, hol⟩ := Levels.mem_orders.mp hb
      rcases ((h.sides b).rest l hl o hol).status with hs | hs <;> rw [hs] <;> rfl
    rcases List.mem_append.mp ho with ho | ho
    · exact hside .BUY ho
    · rcases List.mem_append.mp ho with ho | ho
      · exact hside .SELL ho
      · rw [(h.stops o ho).status]
        rfl
  side b o ho := by
    obtain ⟨l, hl, hol⟩ := Levels.mem_orders.mp ho
    exact ((h.sides b).rest l hl o hol).side
  stops o ho := ⟨(h.stops o ho).type, (h.stops o ho).postOnly⟩

end MatchingEngine.Cpp
