import MatchingEngine.Book.Matching
import Mathlib.Algebra.BigOperators.Group.List.Basic

/-!
# Totals

The sum of the remaining quantities of a level, and the requests that take no order out of a level
whose sum modulo `2^64` is smaller than the order. Orders leave a queue from its head, so when an
order is taken out by self-trade prevention, its level holds it and the orders behind it.

`FitsOrders` follows the loop over a queue with the quantity that remains, and `FitsLevels` the loop
over the levels; each asks only of the orders that self-trade prevention would take out. So the
condition is one on the book and the request, before anything is matched. `Book.FitsMatching` is the
condition on a request, met by a post-only one that crosses, and `Book.FitsCancel` the one on a
cancellation.
-/

namespace MatchingEngine

open Contract

/-- The sum of the remaining quantities of a queue. -/
def rowsTotal (os : List OrderRow) : ℕ := (os.map fun o => o.remaining.toNat).sum

/-- The sum of the remaining quantities of a level. -/
def Level.total (l : Level) : ℕ := rowsTotal l.orders

/-- No rows, no total. -/
@[simp] theorem rowsTotal_nil : rowsTotal [] = 0 := rfl

/-- The total of a row and of those behind it. -/
@[simp] theorem rowsTotal_cons (o : OrderRow) (os : List OrderRow) :
    rowsTotal (o :: os) = o.remaining.toNat + rowsTotal os := by
  unfold rowsTotal
  rw [List.map_cons, List.sum_cons]

/-- The order `p` of the queue `os` is no larger than the queue's sum modulo `2^64`. -/
def Fits (p : OrderRow) (os : List OrderRow) : Prop := p.remaining.toNat ≤ rowsTotal os % 2^64

instance (p : OrderRow) (os : List OrderRow) : Decidable (Fits p os) :=
  inferInstanceAs (Decidable (_ ≤ _))

namespace Request

variable (r : Request)

/-- Every order that self-trade prevention takes out of the queue fits into what is left of it. -/
def FitsOrders : List OrderRow → UInt64 → Prop
  | [], _ => True
  | p :: ps, rem => rem ≠ 0 →
    match r.prevention p with
    | .cancelNew => True
    | .cancelOld => Fits p (p :: ps) ∧ FitsOrders ps rem
    | .cancelBoth => Fits p (p :: ps)
    | .decrement | .none => p.remaining ≤ rem → FitsOrders ps (rem - p.remaining)

/-- Every order that self-trade prevention takes out of the levels fits into what is left of its
level. -/
def FitsLevels : List Level → UInt64 → Prop
  | [], _ => True
  | l :: ls, rem => rem ≠ 0 → r.crosses l.price → r.FitsOrders l.orders rem ∧
      ((r.matchOrders l.price l.orders rem).left = [] →
        FitsLevels ls (r.matchOrders l.price l.orders rem).rem)

instance decidableFitsOrders : ∀ os rem, Decidable (r.FitsOrders os rem)
  | [], _ => inferInstanceAs (Decidable True)
  | p :: ps, rem =>
    have := decidableFitsOrders ps rem
    have := decidableFitsOrders ps (rem - p.remaining)
    match h : r.prevention p with
    | .cancelNew => decidable_of_iff True (by simp only [FitsOrders, h, implies_true])
    | .cancelOld => decidable_of_iff (rem ≠ 0 → Fits p (p :: ps) ∧ r.FitsOrders ps rem)
        (by simp only [FitsOrders, h])
    | .cancelBoth => decidable_of_iff (rem ≠ 0 → Fits p (p :: ps)) (by simp only [FitsOrders, h])
    | .decrement => decidable_of_iff
        (rem ≠ 0 → p.remaining ≤ rem → r.FitsOrders ps (rem - p.remaining))
        (by simp only [FitsOrders, h])
    | .none => decidable_of_iff
        (rem ≠ 0 → p.remaining ≤ rem → r.FitsOrders ps (rem - p.remaining))
        (by simp only [FitsOrders, h])

instance decidableFitsLevels : ∀ ls rem, Decidable (r.FitsLevels ls rem)
  | [], _ => inferInstanceAs (Decidable True)
  | l :: ls, rem =>
    have := decidableFitsLevels ls (r.matchOrders l.price l.orders rem).rem
    inferInstanceAs (Decidable (rem ≠ 0 → r.crosses l.price → r.FitsOrders l.orders rem ∧
      ((r.matchOrders l.price l.orders rem).left = [] →
        r.FitsLevels ls (r.matchOrders l.price l.orders rem).rem)))

/-- Without a remainder every queue fits. -/
theorem fitsOrders_zero (os : List OrderRow) : r.FitsOrders os 0 := by
  cases os with
  | nil => trivial
  | cons p ps => exact fun h => absurd rfl h

/-- Without a remainder all levels fit. -/
theorem fitsLevels_zero (ls : List Level) : r.FitsLevels ls 0 := by
  cases ls with
  | nil => trivial
  | cons l ls => exact fun h => absurd rfl h

end Request

/-- Every order that self-trade prevention takes out fits into what is left of its level, unless the
request is a post-only one that crosses: it is refused before it is matched. -/
def Book.FitsMatching (b : Book) (r : Request) : Prop :=
  ¬ (r.otype = .postOnly ∧ b.crossing r) → r.FitsLevels (b.side r.side.other) r.qty

instance (b : Book) (r : Request) : Decidable (b.FitsMatching r) :=
  inferInstanceAs (Decidable (¬ (r.otype = .postOnly ∧ b.crossing r) → _))

/-- The order that the cancellation of `id` takes out fits into its level. -/
def Book.FitsCancel (b : Book) (id : UInt64) : Prop :=
  ∀ t, ∀ l ∈ b.side t, ∀ p ∈ l.orders, p.id = id → Fits p l.orders

instance (b : Book) (id : UInt64) : Decidable (b.FitsCancel id) :=
  decidable_of_iff ((∀ l ∈ b.bids, ∀ p ∈ l.orders, p.id = id → Fits p l.orders) ∧
      ∀ l ∈ b.asks, ∀ p ∈ l.orders, p.id = id → Fits p l.orders)
    ⟨fun h t => by cases t; exacts [h.1, h.2], fun h => ⟨h .bids, h .asks⟩⟩

end MatchingEngine
