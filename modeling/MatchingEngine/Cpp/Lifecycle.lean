import Mathlib.Logic.Relation
import MatchingEngine.Cpp.Entries
import MatchingEngine.Cpp.Valid

/-!
# The acts that a call is made of

Every call of the engine is a sequence of acts on the books, the dormant stops, and the orders that
are being worked on, which are in flight. `Step` has a constructor for each act, with what the code
has tested when it comes to it, and `Steps` is a sequence of acts. An invariant of the engine is
then a matter of one case for each act. The acts that only some calls lead to are `Special`, and a
parameter says which of them a sequence may contain.
-/

namespace MatchingEngine.Cpp

/-- A level in front of others, unless it is empty. -/
def front (p : ℤ) (q : List Order) (m : Levels) : Levels :=
  match q with
  | [] => m
  | o :: q => (p, o :: q) :: m

/-- The acts that only some calls lead to. -/
inductive Special
  | setTime
  | amend
  /-- An order is accepted, which only a submission does. -/
  | accept
  /-- A resting order is taken out of its queue, which matching does not do. -/
  | unlink
  /-- The trade buffer is cleared, which only the start of a call does. -/
  | clear
  /-- A market-to-limit order is cancelled that was cancelled by its self-trade policy. -/
  | recancel
  /-- A post-only order is repriced against the best price of the other side. -/
  | reprice (o : Order) (best : ℤ)
  /-- An order that has traded comes to rest as a new one. -/
  | renewed
  /-- An order that did not wait as a stop comes to rest behind an order that is no older. -/
  | stale

namespace Flat

/-- Every order that rests on the side of the order `o` is older. -/
def Youngest (o : Order) (f : Flat) : Prop := ∀ x ∈ (f.side o.side).orders, x.timestamp < o.timestamp

/-- What is told of the age of an order that comes to rest. -/
def Aged (X : Special → Prop) (o : Order) (f : Flat) : Prop :=
  o.status = .TRIGGERED ∨ X .stale ∨ Youngest o f

/-- What is told of an order that comes to rest with the status `st`. -/
structure Fresh (X : Special → Prop) (st : OrderStatus) (o : Order) (f : Flat) : Prop where
  unsold : st = .NEW → X .renewed ∨ sold o.id f.tape.log = false
  aged : Aged X o f

/-- One act. A state is the engine and the orders in flight. -/
inductive Step (X : Special → Prop) : Flat × List Order → Flat × List Order → Prop
  /-- The order of the flight does not matter. -/
  | perm {f : Flat} {fl fl' : List Order} (h : fl.Perm fl') : Step X (f, fl) (f, fl')
  /-- The incoming order trades with the best order of the other side. -/
  | trade {f : Flat} {fl : List Order} {inc r inc' : Order} {p : ℤ} {q : List Order} {m : Levels}
      {fate : Fate} {t : Tape} (hside : f.side (oppositeSide inc.side) = (p, r :: q) :: m)
      (hrem : 0 < inc.remainingQty) (hm : canMatch inc p = true) (hc : stpConflict inc r = false)
      (hpo : inc.postOnly = false) (hst : inc.status ≠ .CANCELLED)
      (hstop : inc.orderType.isStop = false)
      (hfill : fill ((p, r :: q) :: m) inc r f.tape = some (inc', fate, t)) :
      Step X (f, inc :: fl)
        ((f.setSide (oppositeSide inc.side) (front p (fate.requeue q) m)).withTape t, inc' :: fl)
  /-- The incoming order meets an order of its own group. -/
  | selfTrade {f : Flat} {fl : List Order} {inc r : Order} {p : ℤ} {q : List Order} {m : Levels}
      (hside : f.side (oppositeSide inc.side) = (p, r :: q) :: m) (hrem : 0 < inc.remainingQty)
      (hm : canMatch inc p = true) (hc : stpConflict inc r = true) (hst : inc.status ≠ .CANCELLED)
      (hstop : inc.orderType.isStop = false) (hpo : inc.postOnly = false) :
      Step X (f, inc :: fl)
        ((f.setSide (oppositeSide inc.side)
          (front p ((handleStp inc r f.tape).2.1.requeue q) m)).withTape (handleStp inc r f.tape).2.2,
          (handleStp inc r f.tape).1 :: fl)
  /-- A level without orders is dropped. -/
  | drop {f : Flat} {fl : List Order} {b : Side} {p : ℤ} {m : Levels}
      (hside : f.side b = (p, []) :: m) :
      Step X (f, fl) (f.setSide b m, fl)
  /-- Nothing is left of the incoming order. -/
  | filled {f : Flat} {fl : List Order} {o : Order} (h : o.remainingQty = 0)
      (hst : o.status ≠ .CANCELLED) : Step X (f, o :: fl) (f, { o with status := .FILLED } :: fl)
  /-- What is left of the incoming order is cancelled. -/
  | cancel {f : Flat} {fl : List Order} {o : Order} (reason : String) (hst : o.status ≠ .CANCELLED)
      (htype : o.orderType ≠ .MARKET_TO_LIMIT) (hstop : o.orderType.isStop = false) :
      Step X (f, o :: fl) ((cancelIn o reason f).2, (cancelIn o reason f).1 :: fl)
  /-- An order in flight is cancelled and leaves. -/
  | kill {f : Flat} {fl : List Order} {o : Order} (reason : String) (hst : o.status ≠ .CANCELLED) :
      Step X (f, o :: fl) (kill o reason f, fl)
  /-- A market-to-limit order that its self-trade policy has cancelled is cancelled and leaves. -/
  | recancel {f : Flat} {fl : List Order} {o : Order} (reason : String)
      (htype : o.orderType = .MARKET_TO_LIMIT) (hst : o.status = .CANCELLED)
      (hX : o.stpPolicy = .DECREMENT ∨ X .recancel) : Step X (f, o :: fl) (kill o reason f, fl)
  /-- What is left of the incoming order comes to rest. -/
  | rest {f : Flat} {fl : List Order} {o : Order} {st : OrderStatus}
      (hst : st = .NEW ∨ st = .PARTIALLY_FILLED) (hold : o.status ≠ .CANCELLED)
      (hrem : o.remainingQty ≠ 0) (htype : o.orderType = .LIMIT)
      (htif : o.timeInForce ≠ .IOC ∧ o.timeInForce ≠ .FOK)
      (hmin : 0 < o.remainingQty → o.minQty ≤ 0)
      (hcross : 0 < o.remainingQty → ∀ l ∈ (f.side (oppositeSide o.side)).head?,
        canMatch o l.1 = false)
      (hfresh : Fresh X st o f) : Step X (f, o :: fl) (f.rest o st, fl)
  /-- A post-only order that does not cross comes to rest. -/
  | passive {f : Flat} {fl : List Order} {o : Order} (hpo : o.postOnly = true)
      (hold : o.status ≠ .CANCELLED) (hcross : wouldCross o f = false) (hfresh : Fresh X .NEW o f) :
      Step X (f, o :: fl) (f.rest o .NEW, fl)
  /-- A post-only order that would cross is repriced and comes to rest. -/
  | reprice {f f' : Flat} {fl : List Order} {o o' : Order} {l : ℤ × List Order} {m : Levels}
      (hpo : o.postOnly = true) (hold : o.status ≠ .CANCELLED)
      (hside : f.side (oppositeSide o.side) = l :: m) (hX : X (.reprice o l.1))
      (h : reprice o f = some (o', f')) (hfresh : Fresh X .NEW o f) :
      Step X (f, o :: fl) (f'.rest o' .NEW, fl)
  /-- An order that is done with leaves. -/
  | leave {f : Flat} {fl : List Order} {o : Order}
      (hst : o.status = .FILLED ∨ o.status = .CANCELLED) :
      Step X (f, o :: fl) (f.finish (some o), fl)
  /-- A trade is reported. -/
  | report {f : Flat} {fl : List Order} {t : Trade} (depth : ℕ) (ht : t ∈ f.tape.trades) :
      Step X (f, fl)
        (f.withTape { f.tape.event (.onTrade t) with lastPx := t.price, lastDepth := depth }, fl)
  /-- Stops are taken out. -/
  | wake {f : Flat} {fl os stops : List Order} (h : f.stops.Perm (os ++ stops)) :
      Step X (f, fl) ({ f with stops := stops }, os ++ fl)
  /-- A stop becomes an active order. -/
  | trigger {f : Flat} {fl : List Order} {o : Order} (htype : o.orderType.isStop = true) :
      Step X (f, o :: fl) (f.withTape (trigger o f.tape).2, (trigger o f.tape).1 :: fl)
  /-- An order that came as a stop goes to sleep. -/
  | park {f : Flat} {fl : List Order} {o : Order} (htype : o.orderType.isStop = true)
      (hst : o.status = .NEW) :
      Step X (f, o :: fl) ({ f with stops := f.stops ++ [o] }, fl)
  /-- A market-to-limit order takes the price of a trade as its limit. -/
  | toLimit {f : Flat} {fl : List Order} {o : Order} {t : Trade}
      (htype : o.orderType = .MARKET_TO_LIMIT) (ht : t ∈ f.tape.trades) :
      Step X (f, o :: fl)
        (f, { o with
          price := t.price
          orderType := .LIMIT
          minQty := if 0 < o.minQty then 0 else o.minQty } :: fl)
  /-- The minimum quantity is met. -/
  | loosen {f : Flat} {fl : List Order} {o : Order} :
      Step X (f, o :: fl) (f, { o with minQty := 0 } :: fl)
  /-- The clock moves on. -/
  | tick {f : Flat} {fl : List Order} : Step X (f, fl) (f.withTape f.tape.tick, fl)
  /-- The clock is set. -/
  | setTime {f : Flat} {fl : List Order} (t : ℕ) (hX : X .setTime) :
      Step X (f, fl) (f.withTape { f.tape with now := t }, fl)
  /-- The trade buffer is cleared. -/
  | clear {f : Flat} {fl : List Order} (hX : X .clear) : Step X (f, fl) (f.clear, fl)
  /-- An order is rejected. -/
  | reject {f : Flat} {fl : List Order} (o : Order) (reason : String) :
      Step X (f, fl) (f.withTape (f.tape.event (.onOrderRejected o reason)), fl)
  /-- An order is accepted. -/
  | accept {f : Flat} (i : OrderInput) (hfresh : ∀ o ∈ f.orders, o.id ≠ i.id)
      (hv : validate f.tape.now (i.order f.tape.now) = none) (hX : X .accept) :
      Step X (f, [])
        (f.withTape (f.tape.event (.onOrderAccepted (i.order f.tape.now))), [i.order f.tape.now])
  /-- A resting order is taken out of its queue. -/
  | unlink {f : Flat} {fl : List Order} {b : Side} {o : Order} (ho : o ∈ (f.side b).orders)
      (hX : X .unlink) : Step X (f, fl) (f.unlink b o, o :: fl)
  /-- An order in flight gets a new price or a larger quantity. -/
  | amend {f : Flat} {fl : List Order} {o : Order} {newPx newQty : ℤ} (hX : X .amend)
      (hst : o.status.open = true) (hstop : o.orderType.isStop = false)
      (hnew : 0 < newPx ∧ newPx ≠ o.price ∨ 0 < newQty ∧ o.remainingQty < newQty) :
      Step X (f, o :: fl)
        (f.withTape f.tape.tick, amended o newPx newQty (f.tape.now + 1) :: fl)
  /-- A resting order gets a smaller quantity where it is. -/
  | shrink {f : Flat} {fl : List Order} {b : Side} {o : Order} {newQty : ℤ} (hX : X .amend)
      (ho : o ∈ (f.side b).orders) (hpos : 0 < newQty) (hlt : newQty < o.remainingQty) :
      Step X (f, fl)
        (f.setSide b (change o.id (fun o =>
          { o with remainingQty := newQty, visibleQty := min o.visibleQty newQty }) (f.side b)), fl)
  /-- An order in flight expires and leaves. -/
  | expire {f : Flat} {fl : List Order} {o : Order} (hst : o.status ≠ .CANCELLED) :
      Step X (f, o :: fl) (expireOne o f, fl)

/-- A sequence of acts. -/
abbrev Steps (X : Special → Prop) : Flat × List Order → Flat × List Order → Prop :=
  Relation.ReflTransGen (Step X)

end Flat

end MatchingEngine.Cpp
