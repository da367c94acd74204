import MatchingEngine.Cpp.Invariant

/-!
# The life of one order

What becomes of one order from its acceptance until it leaves, told without the rest of the engine:
the order is in flight, rests, is a dormant stop, or is gone, and each change writes the entries of
the history that name it. `Life` has a constructor for each change and `Lives` is a sequence of
them, with the story that it writes. What holds of all lives is proved here by induction over
changes of one order, and `Cpp/Lives.lean` shows that the orders of the engine have lives.
-/

namespace MatchingEngine.Cpp

/-- Whether an entry names an order of the id, apart from its acceptance and its place in a queue.
-/
def Mark.about (id : UInt64) : Mark → Bool
  | .executed t _ _ _ => t.aggressorId = id ∨ t.passiveId = id
  | .event (.onOrderDecremented i r _) => i.id = id ∨ r.id = id
  | .event (.onOrderCancelled o _) => o.id = id
  | .event (.onOrderExpired o) => o.id = id
  | .event (.onOrderTriggered o) => o.id = id
  | .left o => o.id = id
  | _ => false

/-- What a history tells of the order of an id since its acceptance. -/
def story (id : UInt64) (log : List Mark) : List Mark :=
  (since (·.accepts id) log).filter (·.about id)

/-- The story goes on with what is written of the order. -/
theorem story_append {id : UInt64} {log new : List Mark} (h : ∀ m ∈ new, m.accepts id = false) :
    story id (log ++ new) = story id log ++ new.filter (·.about id) := by
  unfold story
  rw [since_append h, List.filter_append]

/-- The story starts with the acceptance of the order. -/
theorem story_accepted {id : UInt64} {log : List Mark} {m : Mark} (h : m.accepts id = true) :
    story id (log ++ [m]) = [] := by
  unfold story
  rw [since_concat h]
  rfl

/-- Whether an order has traded, after one entry more. -/
theorem sold_concat {id : UInt64} {log : List Mark} {m : Mark} :
    sold id (log ++ [m]) = if m.starts id then false else sold id log || m.trades id := by
  split
  · exact sold_started ‹_›
  · rename_i h
    unfold sold
    rw [since_append (List.forall_mem_singleton.mpr (Bool.eq_false_iff.mpr h)), List.any_append,
      List.any_cons, List.any_nil, Bool.or_false]

/-- Whether an order has traded since it became active can be read off its story. -/
theorem sold_story (id : UInt64) (log : List Mark) : sold id (story id log) = sold id log := by
  induction log using List.reverseRecOn with
  | nil => rfl
  | append_singleton log m ih =>
    rw [sold_concat]
    cases ha : m.accepts id with
    | true =>
      have hst : m.starts id = true := by
        cases m with
        | event e => cases e <;> first | exact ha | cases ha
        | _ => cases ha
      rw [story_accepted ha, if_pos hst]
      rfl
    | false =>
      rw [story_append (List.forall_mem_singleton.mpr ha)]
      cases hb : m.about id with
      | true =>
        rw [List.filter_cons_of_pos hb, List.filter_nil, sold_concat, ih]
      | false =>
        have hst : m.starts id = false := by
          cases m with
          | event e => cases e <;> first | rfl | exact ha | exact hb
          | _ => rfl
        have htr : m.trades id = false := by
          cases m <;> first | rfl | exact hb
        rw [List.filter_cons_of_neg (by rw [hb]; decide), List.filter_nil, List.append_nil,
          ih, hst, htr]
        simp

/-- Where an order is. -/
inductive Phase
  | flying
  | resting
  | dormant
  | gone
  deriving DecidableEq

/-- A trade of the incoming order `inc` with the resting order `r`. -/
structure Deal (t : Trade) (inc r : Order) : Prop where
  aggressor : t.aggressorId = inc.id
  passive : t.passiveId = r.id
  quantity : t.quantity = min inc.remainingQty r.visibleQty
  positive : 0 < t.quantity
  other : inc.id ≠ r.id

/-- An order whose displayed slice is used up and that has more to show. -/
def Reloads (r : Order) : Prop := r.visibleQty = 0 ∧ 0 < r.remainingQty ∧ 0 < r.displayQty

instance (r : Order) : Decidable (Reloads r) := inferInstanceAs (Decidable (_ ∧ _ ∧ _))

/-- The same order with its next slice. -/
def Order.reloaded (r : Order) (now : ℕ) : Order :=
  { r with visibleQty := min r.displayQty r.remainingQty, timestamp := now }

/-- The order with a status. -/
def Order.withStatus (o : Order) (st : OrderStatus) : Order := { o with status := st }

section Life

open Flat

variable {X : Special → Prop}

/-- One change in the life of an order that has the story `told`, with what it adds to the story. -/
inductive Life (X : Special → Prop) (told : List Mark) :
    Phase → Order → List Mark → Phase → Order → Prop
  /-- It trades as the incoming order. -/
  | takes {o r : Order} {t : Trade} {contra : Levels} (hd : Deal t o r) (hst : o.status ≠ .CANCELLED)
      (hstop : o.orderType.isStop = false) :
      Life X told .flying o [.executed t o r contra] .flying
        { o with remainingQty := o.remainingQty - t.quantity }
  /-- It trades where it rests, and shows its next slice. -/
  | makesReload {o inc : Order} {t : Trade} {contra : Levels} (now : ℕ) (hd : Deal t inc o)
      (hr : Reloads (filledBy o t.quantity)) :
      Life X told .resting o [.executed t inc o contra] .resting ((filledBy o t.quantity).reloaded now)
  /-- It trades where it rests, and has something left. -/
  | makesPart {o inc : Order} {t : Trade} {contra : Levels} (hd : Deal t inc o)
      (hrem : (filledBy o t.quantity).remainingQty ≠ 0) :
      Life X told .resting o [.executed t inc o contra] .resting
        ((filledBy o t.quantity).withStatus .PARTIALLY_FILLED)
  /-- It trades where it rests, and has nothing left. -/
  | makesAll {o inc : Order} {t : Trade} {contra : Levels} (hd : Deal t inc o)
      (hrem : (filledBy o t.quantity).remainingQty = 0) :
      Life X told .resting o
        [.executed t inc o contra, .left ((filledBy o t.quantity).withStatus .FILLED)] .gone
        ((filledBy o t.quantity).withStatus .FILLED)
  /-- It comes upon an order of its group, and is decremented. -/
  | decrements {o r' : Order} {q : ℤ} (hpol : o.stpPolicy = .DECREMENT) (hq : 0 < q)
      (hle : q ≤ o.remainingQty) (hne : r'.id ≠ o.id) (hst : o.status ≠ .CANCELLED)
      (hstop : o.orderType.isStop = false) :
      Life X told .flying o [.event (.onOrderDecremented (lessIncoming o q) r' q)] .flying
        (lessIncoming o q)
  /-- An order of its group comes upon it, and it is decremented and shows its next slice. -/
  | decrementedReload {o inc' : Order} {q : ℤ} (now : ℕ) (hne : inc'.id ≠ o.id)
      (hrem : (lessResting o q).remainingQty ≠ 0)
      (hr : (lessResting o q).visibleQty = 0 ∧ 0 < (lessResting o q).displayQty) :
      Life X told .resting o [.event (.onOrderDecremented inc' (lessResting o q) q)] .resting
        ((lessResting o q).reloaded now)
  /-- It is decremented where it rests, and has something left. -/
  | decrementedPart {o inc' : Order} {q : ℤ} (hne : inc'.id ≠ o.id)
      (hrem : (lessResting o q).remainingQty ≠ 0) :
      Life X told .resting o [.event (.onOrderDecremented inc' (lessResting o q) q)] .resting
        (lessResting o q)
  /-- It is decremented where it rests, and has nothing left. -/
  | decrementedAll {o inc' : Order} {q : ℤ} (hne : inc'.id ≠ o.id)
      (hrem : (lessResting o q).remainingQty = 0) :
      Life X told .resting o
        [.event (.onOrderDecremented inc' (lessResting o q) q), .left (lessResting o q)] .gone
        (lessResting o q)
  /-- It is cancelled in flight, by its self-trade policy. -/
  | withdraws {o : Order} (reason : String) (hpol : o.stpPolicy ≠ .DECREMENT)
      (hst : o.status ≠ .CANCELLED)
      (hstop : o.orderType.isStop = false) :
      Life X told .flying o [.event (.onOrderCancelled (o.withStatus .CANCELLED) reason)] .flying
        (o.withStatus .CANCELLED)
  /-- It is cancelled where it rests, by the self-trade policy of another order. -/
  | withdrawn {o : Order} (reason : String) :
      Life X told .resting o [.event (.onOrderCancelled (o.withStatus .CANCELLED) reason),
        .left (o.withStatus .CANCELLED)] .gone (o.withStatus .CANCELLED)
  /-- It has nothing left. -/
  | fills {o : Order} (hrem : o.remainingQty = 0) (hst : o.status ≠ .CANCELLED) :
      Life X told .flying o [] .flying (o.withStatus .FILLED)
  /-- What is left of it is cancelled. -/
  | cancels {o : Order} (reason : String) (hst : o.status ≠ .CANCELLED)
      (htype : o.orderType ≠ .MARKET_TO_LIMIT) (hstop : o.orderType.isStop = false) :
      Life X told .flying o [.event (.onOrderCancelled (o.withStatus .CANCELLED) reason)] .flying
        (o.withStatus .CANCELLED)
  /-- It is cancelled and leaves. -/
  | killed {o : Order} (reason : String) (hst : o.status ≠ .CANCELLED) :
      Life X told .flying o [.event (.onOrderCancelled (o.withStatus .CANCELLED) reason),
        .left (o.withStatus .CANCELLED)] .gone (o.withStatus .CANCELLED)
  /-- As a market-to-limit order that its self-trade policy has cancelled, it is cancelled and leaves. -/
  | killedAgain {o : Order} (reason : String) (htype : o.orderType = .MARKET_TO_LIMIT)
      (hst : o.status = .CANCELLED) (hX : o.stpPolicy = .DECREMENT ∨ X .recancel) :
      Life X told .flying o [.event (.onOrderCancelled (o.withStatus .CANCELLED) reason),
        .left (o.withStatus .CANCELLED)] .gone (o.withStatus .CANCELLED)
  /-- It leaves, filled or cancelled. -/
  | leaves {o : Order} (hst : o.status = .FILLED ∨ o.status = .CANCELLED) :
      Life X told .flying o [.left o] .gone o
  /-- It expires and leaves. -/
  | expires {o : Order} (hst : o.status ≠ .CANCELLED) :
      Life X told .flying o [.event (.onOrderExpired (o.withStatus .EXPIRED)),
        .left (o.withStatus .EXPIRED)] .gone (o.withStatus .EXPIRED)
  /-- It comes to rest, at its price or at another one. -/
  | rests {o : Order} {st : OrderStatus} (price : ℤ) (hst : st = .NEW ∨ st = .PARTIALLY_FILLED)
      (hold : o.status ≠ .CANCELLED) (hstop : o.orderType.isStop = false)
      (hnew : st = .NEW → X .renewed ∨ sold o.id told = false) :
      Life X told .flying o [] .resting
        { o with price := price, visibleQty := o.shown o.remainingQty, status := st }
  /-- It is taken out of its queue. -/
  | unlinked {o : Order} : Life X told .resting o [] .flying o
  /-- It goes to sleep. -/
  | parked {o : Order} (htype : o.orderType.isStop = true) (hst : o.status = .NEW) :
      Life X told .flying o [] .dormant o
  /-- It is taken out of the dormant stops. -/
  | woken {o : Order} : Life X told .dormant o [] .flying o
  /-- It is triggered. -/
  | triggered {o : Order} (htype : o.orderType.isStop = true) :
      Life X told .flying o [.event (.onOrderTriggered (o.withStatus .TRIGGERED))] .flying
        (Flat.trigger o {}).1
  /-- As a market-to-limit order it takes a limit. -/
  | limited {o : Order} (price minQty : ℤ) (htype : o.orderType = .MARKET_TO_LIMIT) :
      Life X told .flying o [] .flying { o with price := price, orderType := .LIMIT, minQty := minQty }
  /-- Its minimum quantity is met. -/
  | loosened {o : Order} : Life X told .flying o [] .flying { o with minQty := 0 }
  /-- It is amended in flight. -/
  | amended {o : Order} (newPx newQty : ℤ) (now : ℕ) (hX : X .amend) (hst : o.status.open = true) :
      Life X told .flying o [] .flying (Flat.amended o newPx newQty now)
  /-- It gets a smaller quantity where it rests. -/
  | shrunk {o : Order} (newQty : ℤ) (hX : X .amend) :
      Life X told .resting o [] .resting
        { o with remainingQty := newQty, visibleQty := min o.visibleQty newQty }

/-- A life, with its story. It begins when the order is accepted. -/
inductive Lives (X : Special → Prop) : List Mark → Phase → Order → Prop
  | accepted (i : OrderInput) (now : ℕ) (hv : validate now (i.order now) = none) :
      Lives X [] .flying (i.order now)
  | next {told new : List Mark} {ph ph' : Phase} {o o' : Order} (h : Lives X told ph o)
      (hl : Life X told ph o new ph' o') : Lives X (told ++ new) ph' o'

/-- A change keeps the id. -/
theorem Life.id {told new : List Mark} {ph ph' : Phase} {o o' : Order}
    (h : Life X told ph o new ph' o') : o'.id = o.id := by
  cases h <;> rfl

end Life

end MatchingEngine.Cpp
