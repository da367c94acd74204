import Mathlib.Data.List.Forall2
import MatchingEngine.Book.Matching
import MatchingEngine.Cpp.Removal
import MatchingEngine.Cpp.Reports

/-!
# The book and the values of the C++ engine

The C engine and the C++ engine share the limit, market, immediate-or-cancel and post-only orders
with self-trade prevention. On these the matching of `Book/Basic.lean`, which is what the C engine
does, and that of `Cpp/Flat.lean`, which is what the C++ engine does, take and leave the same. An
order of the book stands for one of the C++ engine that shows all that is left of it.
-/

namespace MatchingEngine.Engines

open Contract
open Cpp (Order Levels Tape Flat Fate Trade)

/-- The side of the C++ engine for a tree. -/
def sideOf : Tree → Cpp.Side
  | .bids => .BUY
  | .asks => .SELL

/-- The policy of the C++ engine for a self-trade prevention mode. -/
def policyOf : StpMode → Cpp.STPPolicy
  | .none => .NONE
  | .cancelNew => .CANCEL_NEWEST
  | .cancelOld => .CANCEL_OLDEST
  | .cancelBoth => .CANCEL_BOTH
  | .decrement => .DECREMENT

/-- The limit of a request in the C++ engine, where zero is for none. -/
def limitOf (r : Request) : ℤ := if r.otype = .market then 0 else r.price.toNat

/-- An order of the C++ engine that rests at the price `p` and stands for a row. -/
structure Stands (p : UInt64) (row : OrderRow) (o : Order) : Prop where
  id : o.id = row.id
  price : o.price = p.toNat
  remaining : o.remainingQty = row.remaining.toNat
  visible : o.visibleQty = row.remaining.toNat
  display : o.displayQty = 0
  group : o.selfTradeGroup = row.account

/-- A queue that stands for one of the book. -/
def Queues (p : UInt64) : List OrderRow → List Order → Prop := List.Forall₂ (Stands p)

/-- The levels of a side that stand for those of the book. -/
def Sides : List Level → Levels → Prop :=
  List.Forall₂ fun l l' => l'.1 = l.price.toNat ∧ Queues l.price l.orders l'.2

/-- The order that a request with the remainder `rem` is in the C++ engine. -/
structure Incoming (r : Request) (rem : UInt64) (o : Order) : Prop where
  id : o.id = r.id
  side : o.side = sideOf r.side
  price : o.price = limitOf r
  remaining : o.remainingQty = rem.toNat
  display : o.displayQty = 0
  group : o.selfTradeGroup = r.account
  policy : o.stpPolicy = policyOf r.stp

/-- What both engines tell of a trade: the two orders, the price, and the quantity. -/
def facts (t : Trade) : UInt64 × UInt64 × ℤ × ℤ := (t.aggressorId, t.passiveId, t.price, t.quantity)

/-- What is told of a trade of the book. -/
def factsOf (t : TradeRow) : UInt64 × UInt64 × ℤ × ℤ :=
  (t.taker, t.maker, t.price.toNat, t.qty.toNat)

/-- The trades that were made between two tapes are those of the book. -/
structure Tells (ts : List TradeRow) (t t' : Tape) : Prop where
  executed : (Cpp.executed t'.log).map facts = (Cpp.executed t.log).map facts ++ ts.map factsOf
  poPol : t'.poPol = t.poPol

/-- Nothing is told. -/
theorem Tells.refl (t : Tape) : Tells [] t t := ⟨(List.append_nil _).symm, rfl⟩

/-- One part after another. -/
theorem Tells.trans {ts us : List TradeRow} {t t' t'' : Tape} (h : Tells ts t t')
    (h' : Tells us t' t'') : Tells (ts ++ us) t t'' where
  executed := by rw [h'.executed, h.executed, List.map_append, List.append_assoc]
  poPol := h'.poPol.trans h.poPol

/-- An entry that is not of a trade. -/
theorem Tells.mark (t : Tape) {m : Cpp.Mark} (hm : Cpp.executed [m] = []) :
    Tells [] t (t.mark m) where
  executed := by
    change (Cpp.executed (t.log ++ [m])).map facts = _
    rw [Cpp.executed_append, hm, List.append_nil]
    exact (List.append_nil _).symm
  poPol := rfl

section Turns

variable {r : Request} {rem p : UInt64} {row : OrderRow} {inc inc' o : Order} {t t' : Tape}

/-- Both engines let the same orders trade. -/
theorem conflict_iff (hi : Incoming r rem inc) (ho : Stands p row o) :
    Cpp.stpConflict inc o = true ↔ r.account ≠ 0 ∧ r.account = row.account := by
  unfold Cpp.stpConflict
  rw [hi.group, ho.group]
  simp only [Bool.and_eq_true, decide_eq_true_eq]
  constructor
  · rintro ⟨⟨hr, -⟩, he⟩
    exact ⟨hr, he⟩
  · rintro ⟨hr, he⟩
    exact ⟨⟨hr, he ▸ hr⟩, he⟩

/-- Where the C++ engine sees a conflict, the C engine prevents the trade by the mode of the
request. -/
theorem prevention_of_conflict (hi : Incoming r rem inc) (ho : Stands p row o)
    (hc : Cpp.stpConflict inc o = true) : r.prevention row = r.stp :=
  if_pos ((conflict_iff hi ho).mp hc)

/-- Where it sees none, the C engine prevents nothing. -/
theorem prevention_of_not_conflict (hi : Incoming r rem inc) (ho : Stands p row o)
    (hc : ¬ Cpp.stpConflict inc o = true) : r.prevention row = .none :=
  if_neg (mt (conflict_iff hi ho).mpr hc)

/-- The incoming order with another remainder. -/
theorem Incoming.alike {rem' : UInt64} (hi : Incoming r rem inc) (ha : Flat.Alike inc inc')
    (hrem : inc'.remainingQty = rem'.toNat) : Incoming r rem' inc' := by
  rw [ha]
  exact ⟨hi.id, hi.side, hi.price, hrem, hi.display, hi.group, hi.policy⟩

/-- The incoming order after a turn in which `n` of it was used up. -/
theorem Incoming.less {n : UInt64} (hi : Incoming r rem inc) (hn : n ≤ rem)
    (ha : Flat.Alike inc inc') (hrem : inc'.remainingQty = inc.remainingQty - n.toNat) :
    Incoming r (rem - n) inc' := by
  have hle : n.toNat ≤ rem.toNat := UInt64.le_iff_toNat_le.mp hn
  refine hi.alike ha ?_
  rw [hrem, hi.remaining, UInt64.toNat_sub_of_le _ _ hn]
  omega

/-- What rests after a turn in which `n` of it was used up. -/
theorem Stands.less {n : UInt64} (ho : Stands p row o) (hn : n ≤ row.remaining)
    {st : Cpp.OrderStatus} :
    Stands p { row with remaining := row.remaining - n }
      { o with
        visibleQty := o.visibleQty - n.toNat
        remainingQty := o.remainingQty - n.toNat
        status := st } := by
  have hle : n.toNat ≤ row.remaining.toNat := UInt64.le_iff_toNat_le.mp hn
  have hsub : ((row.remaining - n).toNat : ℤ) = row.remaining.toNat - n.toNat := by
    rw [UInt64.toNat_sub_of_le _ _ hn]
    omega
  refine ⟨ho.id, ho.price, ?_, ?_, ho.display, ho.group⟩
  · rw [hsub, ← ho.remaining]
  · rw [hsub, ← ho.visible]

/-- What is left of the incoming order, when the book has a remainder `rem` left of it. -/
structure Left (rem : UInt64) (inc inc' : Order) : Prop where
  alike : Flat.Alike inc inc'
  cancelled : inc'.status = .CANCELLED → rem = 0
  going : inc'.status ≠ .CANCELLED → inc'.remainingQty = rem.toNat

/-- The results of the loop over a queue. -/
structure QueueEnd (p : UInt64) (out : Outcome (List OrderRow)) (inc : Order) (t : Tape)
    (x : Order × List Order × Tape × Bool) : Prop where
  left : Left out.rem inc x.1
  queue : Queues p out.left x.2.1
  tells : Tells out.trades t x.2.2.1
  returned : x.2.2.2 = true → out.rem = 0
  going : x.2.2.2 = false → x.1.status ≠ .CANCELLED

/-- A turn before others. -/
theorem QueueEnd.after {out : Outcome (List OrderRow)} {ts : List TradeRow}
    {x : Order × List Order × Tape × Bool} (h : QueueEnd p out inc' t' x) (ha : Flat.Alike inc inc')
    (ht : Tells ts t t') : QueueEnd p (out.after ts) inc t x where
  left := ⟨ha.trans h.left.alike, h.left.cancelled, h.left.going⟩
  queue := h.queue
  tells := ht.trans h.tells
  returned := h.returned
  going := h.going

/-- The trade of a turn. -/
theorem Tells.record {n : UInt64} (hi : Incoming r rem inc) (ho : Stands p row o) (c : Levels)
    (t : Tape) : Tells [⟨row.id, r.id, p, n⟩] t (t.record c n.toNat inc o) where
  executed := by
    unfold Tape.record
    rw [Cpp.executed_append, List.map_append]
    refine congrArg _ ?_
    change [(inc.id, o.id, o.price, (n.toNat : ℤ))] = _
    rw [hi.id, ho.id, ho.price]
    rfl
  poPol := rfl

/-- A word that is not zero has a positive number. -/
theorem toNat_pos {n : UInt64} (h : n ≠ 0) : 0 < n.toNat :=
  Nat.pos_of_ne_zero fun h0 => h (UInt64.toNat_inj.mp h0)

/-- A turn that uses up the resting order. -/
theorem fill_whole (hi : Incoming r rem inc) (ho : Stands p row o) (hpos : row.remaining ≠ 0)
    (hle : row.remaining ≤ rem) (c : Levels) (t : Tape) : ∃ t',
    Flat.fill c inc o t =
      some ({ inc with remainingQty := inc.remainingQty - row.remaining.toNat }, .goes, t') ∧
      Tells [⟨row.id, r.id, p, row.remaining⟩] t t' := by
  have hpos := toNat_pos hpos
  have hle := UInt64.le_iff_toNat_le.mp hle
  have hquantity := hi.remaining
  have hvisible := ho.visible
  have hmin : min inc.remainingQty o.visibleQty = row.remaining.toNat := by omega
  have hfate : ∀ t, Flat.afterFill (Flat.filledBy o row.remaining.toNat) t = (.goes, t.mark (.left
      { Flat.filledBy o row.remaining.toNat with status := .FILLED })) := by
    intro t
    have hzero : o.remainingQty - row.remaining.toNat = 0 := by rw [ho.remaining, sub_self]
    exact (if_neg fun h => absurd hzero (ne_of_gt h.2.1)).trans (if_pos hzero)
  unfold Flat.fill
  dsimp only
  rw [hmin, if_pos (by omega), hfate]
  exact ⟨_, rfl, (Tells.record hi ho c t).trans (.mark _ rfl)⟩

/-- A turn that uses up the incoming order and not the resting one. -/
theorem fill_part (hi : Incoming r rem inc) (ho : Stands p row o) (hrem : rem ≠ 0)
    (hlt : ¬ row.remaining ≤ rem) (c : Levels) (t : Tape) : ∃ inc' o' t',
    Flat.fill c inc o t = some (inc', .stays o', t') ∧ Flat.Alike inc inc' ∧
      inc'.status = inc.status ∧ inc'.remainingQty = 0 ∧
      Stands p { row with remaining := row.remaining - rem } o' ∧
      Tells [⟨row.id, r.id, p, rem⟩] t t' := by
  have hrem := toNat_pos hrem
  have hlt := UInt64.not_le.mp hlt
  have hlt' := UInt64.lt_iff_toNat_lt.mp hlt
  have hquantity := hi.remaining
  have hvisible := ho.visible
  have hremaining := ho.remaining
  have hmin : min inc.remainingQty o.visibleQty = rem.toNat := by omega
  have hfate : ∀ t, Flat.afterFill (Flat.filledBy o rem.toNat) t =
      (.stays { Flat.filledBy o rem.toNat with status := .PARTIALLY_FILLED }, t) := by
    intro t
    have hvisible : o.visibleQty - rem.toNat ≠ 0 := by omega
    have hremaining : o.remainingQty - rem.toNat ≠ 0 := by omega
    exact (if_neg fun h => hvisible h.1).trans (if_neg hremaining)
  unfold Flat.fill
  dsimp only
  rw [hmin, if_pos (by omega), hfate]
  refine ⟨_, _, _, rfl, rfl, rfl, ?_, ho.less (UInt64.le_of_lt hlt), Tells.record hi ho c t⟩
  change inc.remainingQty - rem.toNat = 0
  rw [hi.remaining, sub_self]

/-- A turn with `DECREMENT` that uses up the resting order. -/
theorem decrement_whole (hi : Incoming r rem inc) (ho : Stands p row o) (hle : row.remaining ≤ rem)
    (t : Tape) : ∃ t', Flat.decrement inc o t =
      (Flat.lessIncoming inc row.remaining.toNat, .goes, t') ∧ Tells [] t t' := by
  have hle := UInt64.le_iff_toNat_le.mp hle
  have hquantity := hi.remaining
  have hvisible := ho.visible
  have hmin : min inc.remainingQty o.visibleQty = row.remaining.toNat := by omega
  have hfate : ∀ t, Flat.afterDecrement (Flat.lessResting o row.remaining.toNat) t =
      (.goes, t.mark (.left (Flat.lessResting o row.remaining.toNat))) := by
    intro t
    have hzero : o.remainingQty - row.remaining.toNat = 0 := by rw [ho.remaining, sub_self]
    exact if_pos hzero
  unfold Flat.decrement
  dsimp only
  rw [hmin, hfate]
  exact ⟨_, rfl, Tells.trans (.mark t rfl) (.mark _ rfl)⟩

/-- A turn with `DECREMENT` that uses up the incoming order and not the resting one. -/
theorem decrement_part (hi : Incoming r rem inc) (ho : Stands p row o) (hlt : ¬ row.remaining ≤ rem)
    (t : Tape) : ∃ o' t',
      Flat.decrement inc o t = (Flat.lessIncoming inc rem.toNat, .stays o', t') ∧
      Stands p { row with remaining := row.remaining - rem } o' ∧ Tells [] t t' := by
  have hlt := UInt64.not_le.mp hlt
  have hlt' := UInt64.lt_iff_toNat_lt.mp hlt
  have hquantity := hi.remaining
  have hvisible := ho.visible
  have hremaining := ho.remaining
  have hmin : min inc.remainingQty o.visibleQty = rem.toNat := by omega
  have hfate : ∀ t, Flat.afterDecrement (Flat.lessResting o rem.toNat) t =
      (.stays (Flat.lessResting o rem.toNat), t) := by
    intro t
    have hvisible : o.visibleQty - rem.toNat ≠ 0 := by omega
    have hremaining : o.remainingQty - rem.toNat ≠ 0 := by omega
    exact (if_neg hremaining).trans (if_neg fun h => hvisible h.1)
  unfold Flat.decrement
  dsimp only
  rw [hmin, hfate]
  exact ⟨_, _, rfl, ho.less (UInt64.le_of_lt hlt), .mark t rfl⟩

/-- The loop over a queue does what the book does, with a turn for each order and one more. -/
theorem matchQueue_agrees (hstp : r.account ≠ 0 → r.stp ≠ .none) {m : Levels} {os : List OrderRow}
    {q : List Order} (hq : Queues p os q) : (∀ row ∈ os, row.remaining ≠ 0) → ∀ n rem inc t,
    q.length < n → Incoming r rem inc → inc.status ≠ .CANCELLED →
    ∃ x, Flat.matchQueue p.toNat m n inc q t = some x ∧
      QueueEnd p (r.matchOrders p os rem) inc t x := by
  -- Induction on the queue: a turn of the C++ loop uses up the first order, or ends the loop.
  induction hq with
  | nil =>
    intro _ n rem inc t hn hi hst
    obtain ⟨n, rfl⟩ := Nat.exists_eq_succ_of_ne_zero (Nat.ne_of_gt hn)
    have hend : QueueEnd p (r.matchOrders p [] rem) inc t (inc, [], t, false) :=
      ⟨⟨.refl inc, fun h => absurd h hst, fun _ => hi.remaining⟩, .nil, .refl t, Bool.noConfusion,
        fun _ => hst⟩
    unfold Flat.matchQueue
    split
    · exact ⟨_, rfl, hend⟩
    · exact ⟨_, rfl, hend⟩
  | @cons row o os q ho hq ih =>
    intro hpos n rem inc t hn hi hst
    have hrow := hpos row List.mem_cons_self
    have hpos : ∀ row ∈ os, row.remaining ≠ 0 := fun x hx => hpos x (List.mem_cons_of_mem _ hx)
    obtain ⟨n, rfl⟩ := Nat.exists_eq_succ_of_ne_zero (Nat.ne_of_gt (Nat.zero_lt_of_lt hn))
    have hn : q.length < n := Nat.lt_of_succ_lt_succ hn
    unfold Flat.matchQueue Request.matchOrders
    by_cases hrem : rem = 0
    · rw [if_neg (by rw [hi.remaining, hrem]; decide), if_pos hrem]
      refine ⟨_, rfl, ⟨.refl inc, fun h => absurd h hst, fun _ => ?_⟩, .cons ho hq, .refl t,
        fun _ => rfl, fun _ => hst⟩
      rw [hi.remaining, hrem]
    have hgo : 0 < inc.remainingQty := by
      rw [hi.remaining]
      exact Int.natCast_pos.mpr (toNat_pos hrem)
    rw [if_pos hgo, if_neg hrem]
    dsimp only
    -- The groups of the one are the accounts of the other, and `hstp` gives each a policy.
    by_cases hc : Cpp.stpConflict inc o = true
    · rw [if_pos hc, prevention_of_conflict hi ho hc]
      unfold Flat.handleStp
      rw [hi.policy]
      cases hmode : r.stp with
      | none => exact absurd hmode (hstp ((conflict_iff hi ho).mp hc).1)
      | cancelNew =>
        exact ⟨_, rfl, ⟨rfl, fun _ => rfl, fun h => absurd rfl h⟩, .cons ho hq, .mark t rfl,
          fun _ => rfl, Bool.noConfusion⟩
      -- The loop goes on with the rest of the queue.
      | cancelOld =>
        obtain ⟨x, hx, hend⟩ := ih hpos n rem inc _ hn hi hst
        refine ⟨x, (if_neg (not_or.mpr ⟨hst, ne_of_gt hgo⟩)).trans hx, ?_⟩
        exact hend.after (.refl inc) ((Tells.mark t rfl).trans (.mark _ rfl))
      | cancelBoth =>
        refine ⟨_, rfl, ⟨rfl, fun _ => rfl, fun h => absurd rfl h⟩, hq, ?_, fun _ => rfl,
          Bool.noConfusion⟩
        exact ((Tells.mark t rfl).trans (.mark _ rfl)).trans (.mark _ rfl)
      | decrement =>
        dsimp only [policyOf]
        -- The resting order is used up, or the incoming one.
        by_cases hle : row.remaining ≤ rem
        · obtain ⟨t', hturn, ht⟩ := decrement_whole hi ho hle t
          rw [hturn, if_pos hle]
          dsimp only
          have hless : Incoming r (rem - row.remaining)
              (Flat.lessIncoming inc row.remaining.toNat) := hi.less hle rfl rfl
          -- The C++ loop returns when both are used up, the book goes on with nothing.
          by_cases hzero : rem - row.remaining = 0
          · have hspent : (Flat.lessIncoming inc row.remaining.toNat).remainingQty = 0 := by
              rw [hless.remaining, hzero]
              rfl
            refine ⟨_, if_pos (.inr hspent), ?_⟩
            rw [hzero, Request.matchOrders_zero]
            exact ⟨⟨rfl, fun _ => rfl, fun _ => hspent⟩, hq, ht, fun _ => rfl, Bool.noConfusion⟩
          · have hleft : inc.remainingQty - row.remaining.toNat ≠ 0 := by
              intro h0
              refine hzero (UInt64.toNat_inj.mp ?_)
              exact Int.natCast_inj.mp (hless.remaining.symm.trans h0)
            have hst : (Flat.lessIncoming inc row.remaining.toNat).status ≠ .CANCELLED := by
              change (if _ = _ then _ else _) ≠ _
              rwa [if_neg hleft]
            obtain ⟨x, hx, hend⟩ := ih hpos n _ _ t' hn hless hst
            refine ⟨x, (if_neg (not_or.mpr ⟨hst, hleft⟩)).trans hx, ?_⟩
            exact hend.after rfl ht
        · obtain ⟨o', t', hturn, ho', ht⟩ := decrement_part hi ho hle t
          rw [hturn, if_neg hle]
          have hspent : (Flat.lessIncoming inc rem.toNat).remainingQty = 0 := by
            change inc.remainingQty - rem.toNat = 0
            rw [hi.remaining, sub_self]
          refine ⟨_, if_pos (.inr hspent), ?_⟩
          exact ⟨⟨rfl, fun _ => rfl, fun _ => hspent⟩, .cons ho' hq, ht, fun _ => rfl,
            Bool.noConfusion⟩
    -- No conflict, so the two trade.
    · rw [if_neg hc, prevention_of_not_conflict hi ho hc]
      dsimp only
      by_cases hle : row.remaining ≤ rem
      · obtain ⟨t', hturn, ht⟩ := fill_whole hi ho hrow hle ((↑p.toNat, o :: q) :: m) t
        rw [hturn, if_pos hle]
        have hi : Incoming r (rem - row.remaining)
            { inc with remainingQty := inc.remainingQty - row.remaining.toNat } :=
          hi.less hle rfl rfl
        obtain ⟨x, hx, hend⟩ := ih hpos n _ _ t' hn hi hst
        exact ⟨x, hx, hend.after rfl ht⟩
      · obtain ⟨inc', o', t', hturn, ha, hst', hspent, ho', ht⟩ :=
          fill_part hi ho hrem hle ((↑p.toNat, o :: q) :: m) t
        rw [hturn, if_neg hle]
        -- The loop takes one more turn, to find that nothing remains.
        obtain ⟨n, rfl⟩ := Nat.exists_eq_succ_of_ne_zero (Nat.ne_of_gt (Nat.zero_lt_of_lt hn))
        dsimp only
        unfold Flat.matchQueue
        rw [hspent, if_neg (lt_irrefl _)]
        rw [← hst'] at hst
        exact ⟨_, rfl, ⟨ha, fun h => absurd h hst, fun _ => hspent⟩, .cons ho' hq, ht,
          Bool.noConfusion, fun _ => hst⟩

/-- What is better is the larger bid and the smaller ask. -/
theorem better_iff_le (t : Tree) (p q : UInt64) : better t p q ↔ match t with
    | .bids => (q.toNat : ℤ) ≤ p.toNat
    | .asks => (p.toNat : ℤ) ≤ q.toNat := by
  cases t
  · exact UInt64.le_iff_toNat_le.trans Int.ofNat_le.symm
  · exact UInt64.le_iff_toNat_le.trans Int.ofNat_le.symm

/-- Both engines let the order trade at the same prices. -/
theorem canMatch_iff (hi : Incoming r rem inc) (p : UInt64) :
    Cpp.canMatch inc p.toNat = true ↔ r.crosses p := by
  have hzero : inc.price = 0 ↔ r.otype = .market := by
    rw [hi.price, limitOf]
    constructor
    · intro h
      by_contra hne
      rw [if_neg hne] at h
      exact r.price_ne hne (UInt64.toNat_inj.mp (Int.natCast_inj.mp h))
    · exact fun h => if_pos h
  unfold Cpp.canMatch Request.crosses
  by_cases hm : r.otype = .market
  · rw [if_pos (hzero.mpr hm)]
    exact iff_of_true rfl (.inl hm)
  · rw [if_neg (mt hzero.mp hm), or_iff_right hm, better_iff_le, hi.side, hi.price, limitOf,
      if_neg hm]
    cases r.side
    · exact decide_eq_true_iff
    · exact decide_eq_true_iff

/-- The results of the loop over the levels. -/
structure SideEnd (out : Outcome (List Level)) (inc : Order) (t : Tape)
    (x : Order × Levels × Tape) : Prop where
  left : Left out.rem inc x.1
  side : Sides out.left x.2.1
  tells : Tells out.trades t x.2.2

/-- The loop over the levels, level by level: the same trades, and the same levels left. -/
theorem matchLevels_agrees (hstp : r.account ≠ 0 → r.stp ≠ .none) {ls : List Level} {m : Levels}
    (hm : Sides ls m) : (∀ l ∈ ls, ∀ row ∈ l.orders, row.remaining ≠ 0) → ∀ rem inc t,
    Incoming r rem inc → inc.status ≠ .CANCELLED →
    ∃ x, Flat.matchLevels m inc t = some x ∧ SideEnd (r.matchLevels ls rem) inc t x := by
  -- Induction on the levels of the two sides.
  induction hm with
  | nil =>
    intro _ rem inc t hi hst
    exact ⟨_, rfl, ⟨.refl inc, fun h => absurd h hst, fun _ => hi.remaining⟩, .nil, .refl t⟩
  | @cons l l' ls m hl hm ih =>
    intro hpos rem inc t hi hst
    obtain ⟨_, q⟩ := l'
    obtain ⟨rfl, hq⟩ := hl
    have hrows := hpos l List.mem_cons_self
    have hpos : ∀ l ∈ ls, ∀ row ∈ l.orders, row.remaining ≠ 0 := fun x hx =>
      hpos x (List.mem_cons_of_mem _ hx)
    -- Both enter a level on the same condition.
    have hgo : 0 < inc.remainingQty ∧ Cpp.canMatch inc l.price.toNat = true ↔
        ¬ (rem = 0 ∨ ¬ r.crosses l.price) := by
      rw [not_or, not_not, canMatch_iff hi, hi.remaining, Int.natCast_pos]
      refine and_congr_left fun _ => ⟨fun h h0 => ?_, toNat_pos⟩
      rw [h0] at h
      exact lt_irrefl _ h
    unfold Flat.matchLevels Request.matchLevels
    by_cases hstop : rem = 0 ∨ ¬ r.crosses l.price
    · rw [if_pos hstop, if_neg (mt hgo.mp (not_not.mpr hstop))]
      exact ⟨_, rfl, ⟨.refl inc, fun h => absurd h hst, fun _ => hi.remaining⟩, .cons ⟨rfl, hq⟩ hm,
        .refl t⟩
    · rw [if_neg hstop, if_pos (hgo.mpr hstop)]
      obtain ⟨⟨inc₁, q₁, t₁, ret⟩, hqueue, hend⟩ := matchQueue_agrees hstp (m := m) hq hrows
        (inc.remainingQty.toNat + q.length + 1) rem inc t (by dsimp only; omega) hi hst
      rw [hqueue]
      dsimp only
      obtain ⟨hleft, hqs, htells, hret, hgoing⟩ := hend
      -- A level without orders is taken off by both, and one with orders ends the matching.
      by_cases hnil : (r.matchOrders l.price l.orders rem).left = []
      · rw [if_pos hnil]
        rw [hnil] at hqs
        cases hqs
        dsimp only
        cases ret with
        | true =>
          have h0 := hret rfl
          rw [h0] at hleft
          rw [h0, Request.matchLevels_zero]
          refine ⟨_, rfl, hleft, hm, ?_⟩
          exact htells.trans (.refl t₁)
        | false =>
          have hst₁ := hgoing rfl
          have hi₁ : Incoming r (r.matchOrders l.price l.orders rem).rem inc₁ :=
            hi.alike hleft.alike (hleft.going hst₁)
          obtain ⟨x, hx, hend⟩ := ih hpos _ inc₁ t₁ hi₁ hst₁
          refine ⟨x, hx, ⟨hleft.alike.trans hend.left.alike, hend.left.cancelled, hend.left.going⟩,
            hend.side, htells.trans hend.tells⟩
      · rw [if_neg hnil]
        revert hqs hnil
        generalize (r.matchOrders l.price l.orders rem).left = left
        intro hqs hnil
        cases hqs with
        | nil => exact absurd rfl hnil
        | cons ho hq => exact ⟨_, rfl, hleft, .cons ⟨rfl, .cons ho hq⟩ hm, htells⟩

end Turns

end MatchingEngine.Engines
