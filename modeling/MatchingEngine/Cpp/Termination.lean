import Mathlib.Algebra.Order.BigOperators.Group.List
import Mathlib.Algebra.Order.Group.Int
import MatchingEngine.Cpp.Invariant

/-!
# The loops of the C++ engine end

Under the invariant nothing on `Cpp/Flat.lean` traps. A turn of matching takes something from what
the incoming order has left, or an order from the queue, and a cascade goes down to `MAX_CASCADE` at
most. A fill takes something because a resting order shows something, and a fill-or-kill order that
passed its check ends with nothing left or is cancelled by its self-trade policy.
-/

namespace MatchingEngine.Cpp

open Lib

/-! ## What is on offer to an order -/

/-- What the orders of a queue show to an order that does not conflict with them. -/
def offer (inc : Order) (q : List Order) : ℤ :=
  (q.map fun r => if stpConflict inc r then 0 else r.visibleQty).sum

/-- What the levels within the limit of an order show to it. -/
def offers (inc : Order) : Levels → ℤ
  | [] => 0
  | l :: m => if canMatch inc l.1 then offer inc l.2 + offers inc m else 0

/-- An empty queue offers nothing. -/
@[simp] theorem offer_nil (inc : Order) : offer inc [] = 0 := rfl

/-- The head of a queue and those behind it. -/
@[simp] theorem offer_cons (inc r : Order) (q : List Order) :
    offer inc (r :: q) = (if stpConflict inc r then 0 else r.visibleQty) + offer inc q := rfl

/-- The best level and those behind it. -/
theorem offers_cons (inc : Order) (l : ℤ × List Order) (m : Levels) :
    offers inc (l :: m) = if canMatch inc l.1 then offer inc l.2 + offers inc m else 0 := rfl

/-- What two parts of a queue offer. -/
theorem offer_append (inc : Order) (q q' : List Order) :
    offer inc (q ++ q') = offer inc q + offer inc q' := by
  unfold offer
  rw [List.map_append, List.sum_append]

/-- Resting orders offer no less than nothing. -/
theorem offer_nonneg (inc : Order) {b : Side} {p : ℤ} {q : List Order}
    (hq : ∀ r ∈ q, Resting b p r) : 0 ≤ offer inc q := by
  refine List.sum_nonneg fun n hn => ?_
  obtain ⟨r, hr, rfl⟩ := List.mem_map.mp hn
  split
  · exact le_refl _
  · exact (hq r hr).visible.le

/-- Neither do levels. -/
theorem offers_nonneg (inc : Order) {b : Side} {m : Levels} (hm : Shelf b m) : 0 ≤ offers inc m := by
  induction m with
  | nil => exact le_refl _
  | cons l m ih =>
    unfold offers
    split
    · exact add_nonneg (offer_nonneg inc (hm.rest l List.mem_cons_self)) (ih hm.tail)
    · exact le_refl _

/-- What is left of the head of a queue offers no less than nothing. -/
theorem offer_le_requeue (inc : Order) (q : List Order) {b : Side} {p : ℤ} {fate : Fate}
    (hleft : ∀ o ∈ fate.left, Resting b p o) : offer inc q ≤ offer inc (fate.requeue q) := by
  have hnn : ∀ o ∈ fate.left, 0 ≤ offer inc [o] := fun o ho =>
    offer_nonneg inc (List.forall_mem_singleton.mpr (hleft o ho))
  cases fate with
  | stays o =>
    have := hnn o rfl
    change _ ≤ offer inc ([o] ++ q)
    rw [offer_append]
    omega
  | goes => exact le_refl _
  | moves o =>
    have := hnn o rfl
    change _ ≤ offer inc (q ++ [o])
    rw [offer_append]
    omega

/-- What matching changes of an order does not matter for what it is offered by a queue. -/
theorem Flat.Alike.offer {o o' : Order} (h : Alike o o') (q : List Order) :
    offer o' q = Cpp.offer o q := by
  unfold Cpp.offer
  simp only [h.conflict]

/-- What matching changes of an order does not matter for what it is offered by the levels. -/
theorem Flat.Alike.offers {o o' : Order} (h : Alike o o') (m : Levels) :
    offers o' m = Cpp.offers o m := by
  induction m with
  | nil => rfl
  | cons l m ih =>
    unfold Cpp.offers
    rw [h.canMatch, h.offer, ih]

/-- A sum that wraps is no more than the sum. -/
theorem wrap64_le {n : ℤ} (h : -2 ^ 63 ≤ n) : wrap64 n ≤ n := by
  unfold wrap64 Int.bmod
  dsimp only
  split <;> omega

/-- A wrapped sum is a signed word. -/
theorem le_wrap64 (n : ℤ) : -2 ^ 63 ≤ wrap64 n := by
  unfold wrap64 Int.bmod
  dsimp only
  split <;> omega

/-- What `availQty` finds in a queue is no more than what is on offer. -/
theorem availQueue_le (inc : Order) (thresh : ℤ) {b : Side} {p : ℤ} {q : List Order}
    (hq : ∀ r ∈ q, Resting b p r) : ∀ avail, -2 ^ 63 ≤ avail →
    (Flat.availQueue inc thresh q avail).1 ≤ avail + offer inc q ∧
      -2 ^ 63 ≤ (Flat.availQueue inc thresh q avail).1 := by
  induction q with
  | nil => exact fun avail h => ⟨(add_zero avail).ge, h⟩
  | cons r q ih =>
    intro avail h
    have hv := (hq r List.mem_cons_self).visible
    have hrest := fun x hx => hq x (List.mem_cons_of_mem r hx)
    have hnn := offer_nonneg inc hrest
    -- Wrapped or not, the sum is no larger, as it is at least `-2^63`.
    have hle := wrap64_le (n := avail + r.visibleQty) (by omega)
    have hge := le_wrap64 (avail + r.visibleQty)
    unfold Flat.availQueue
    rw [offer_cons]
    split
    · obtain ⟨h₁, h₂⟩ := ih hrest avail h
      exact ⟨by omega, h₂⟩
    · split
      · exact ⟨by dsimp only; omega, hge⟩
      · obtain ⟨h₁, h₂⟩ := ih hrest _ hge
        exact ⟨by omega, h₂⟩

/-- What `availQty` finds is no more than what is on offer. -/
theorem availLevels_le (inc : Order) (thresh : ℤ) {b : Side} {m : Levels} (hm : Shelf b m) :
    ∀ avail, -2 ^ 63 ≤ avail → Flat.availLevels inc thresh m avail ≤ avail + offers inc m := by
  induction m with
  | nil => exact fun avail _ => (add_zero avail).ge
  | cons l m ih =>
    intro avail h
    obtain ⟨h₁, h₂⟩ := availQueue_le inc thresh (hm.rest l List.mem_cons_self)
      avail h
    have hnn := offers_nonneg inc hm.tail
    unfold Flat.availLevels offers
    split
    · cases hq : Flat.availQueue inc thresh l.2 avail with
      | mk a reached =>
        rw [hq] at h₁ h₂
        cases reached with
        -- The threshold is reached, and the walk stops with less than all.
        | true =>
          dsimp only at h₁ ⊢
          omega
        | false =>
          have := ih hm.tail a h₂
          dsimp only at h₁ this ⊢
          omega
    · exact (add_zero avail).ge

/-! ## Matching -/

/-- How the loop over a queue ends. -/
structure QueueEnd (inc : Order) (q : List Order) (inc' : Order) (q' : List Order) (ret : Bool) :
    Prop where
  alike : Flat.Alike inc inc'
  remaining : 0 ≤ inc'.remainingQty
  returned : ret = true → inc'.status = .CANCELLED ∨ inc'.remainingQty = 0
  through : ret = false → q' = [] ∨ ¬ 0 < inc'.remainingQty
  taken : ret = false → 0 < inc'.remainingQty → inc'.remainingQty + offer inc q ≤ inc.remainingQty

/-- A turn makes no queue longer. -/
theorem length_requeue (fate : Fate) (r : Order) (q : List Order) :
    (fate.requeue q).length ≤ (r :: q).length := by
  cases fate <;> simp [Fate.requeue]

/-- A self-trade policy that lets the incoming order go on takes something from it or an order from
the queue. -/
theorem lowers_handleStp {b : Side} {p : ℤ} {inc r : Order} {q : List Order} {t : Tape}
    (hr : Resting b p r) (hc : stpConflict inc r = true) (hrem : 0 < inc.remainingQty)
    (hgroup : inc.selfTradeGroup = 0 ↔ inc.stpPolicy = .NONE)
    (hgo : ¬ ((Flat.handleStp inc r t).1.status = .CANCELLED ∨
      (Flat.handleStp inc r t).1.remainingQty = 0)) :
    (Flat.handleStp inc r t).1.remainingQty.toNat + ((Flat.handleStp inc r t).2.1.requeue q).length <
        inc.remainingQty.toNat + (r :: q).length ∧
      (Flat.handleStp inc r t).1.remainingQty ≤ inc.remainingQty := by
  have hdec : (Flat.decrement inc r t).1.remainingQty < inc.remainingQty :=
    Int.sub_lt_self _ (lt_min hrem hr.visible)
  have hlen := length_requeue (Flat.decrement inc r t).2.1 r q
  cases hp : inc.stpPolicy with
  -- An order with a group has a policy.
  | NONE =>
    exfalso
    simp only [stpConflict, Bool.and_eq_true, decide_eq_true_eq] at hc
    exact hc.1.1 (hgroup.mpr hp)
  -- The incoming order is gone, so the loop does not go on.
  | CANCEL_NEWEST =>
    simp only [Flat.handleStp, hp] at hgo
    exact absurd (.inl rfl) hgo
  -- The queue is shorter by one.
  | CANCEL_OLDEST =>
    simp only [Flat.handleStp, hp, Fate.requeue, List.length_cons]
    omega
  | CANCEL_BOTH =>
    simp only [Flat.handleStp, hp] at hgo
    exact absurd (.inl rfl) hgo
  -- The incoming order is smaller.
  | DECREMENT =>
    simp only [Flat.handleStp, hp] at hgo ⊢
    omega

/-- The loop over a queue ends within what the incoming order has left and the length of the queue.
-/
theorem matchQueue_ends {b : Side} {p : ℤ} {m : Levels} : ∀ n inc q t, (∀ r ∈ q, Resting b p r) →
    0 ≤ inc.remainingQty → (inc.selfTradeGroup = 0 ↔ inc.stpPolicy = .NONE) →
    inc.remainingQty.toNat + q.length < n →
    ∃ inc' q' t' ret, Flat.matchQueue p m n inc q t = some (inc', q', t', ret) ∧
      QueueEnd inc q inc' q' ret := by
  intro n
  induction n with
  | zero =>
    intro inc q t _ _ _ hn
    omega
  | succ n ih =>
    intro inc q t hq hnn hgroup hn
    unfold Flat.matchQueue
    by_cases hrem : 0 < inc.remainingQty
    · rw [if_pos hrem]
      cases q with
      | nil =>
        exact ⟨_, _, _, _, rfl, .refl _, hnn, (absurd · Bool.false_ne_true), fun _ => .inl rfl,
          fun _ _ => (add_zero _).le⟩
      | cons rest q =>
        have hr := hq rest List.mem_cons_self
        have hqs := fun r hr => hq r (List.mem_cons_of_mem rest hr)
        dsimp only
        by_cases hc : stpConflict inc rest = true
        · rw [if_pos hc]
          have halike := Flat.alike_handleStp inc rest t
          have hleft := resting_handleStp (t := t) hr hrem
          split
          · rename_i hdone
            exact ⟨_, _, _, _, rfl, halike, remaining_handleStp hrem, fun _ => hdone,
              (absurd ·.symm Bool.false_ne_true), (absurd ·.symm Bool.false_ne_true)⟩
          · rename_i hgo
            obtain ⟨hlt, hle⟩ := lowers_handleStp (q := q) hr hc hrem hgroup hgo
            obtain ⟨inc', q', t', ret, he, hend⟩ := ih _ _ (Flat.handleStp inc rest t).2.2
              (fun r hr => (mem_requeue hr).elim (hqs r) fun h => (hleft r h).1)
              (remaining_handleStp hrem) (by rw [halike]; exact hgroup) (by omega)
            refine ⟨inc', q', t', ret, he, halike.trans hend.alike, hend.remaining, hend.returned,
              hend.through, fun hret hpos => ?_⟩
            have htaken := hend.taken hret hpos
            have hoffer := offer_le_requeue inc q fun o ho => (hleft o ho).1
            rw [halike.offer] at htaken
            rw [offer_cons, if_pos hc]
            omega
        · rw [if_neg hc]
          have hfq := lt_min hrem hr.visible
          have hleft := resting_afterFill (t := t.record ((p, rest :: q) :: m)
            (min inc.remainingQty rest.visibleQty) inc rest) hr hfq (min_le_right _ _)
          have hlen := length_requeue (Flat.afterFill (Flat.filledBy rest
            (min inc.remainingQty rest.visibleQty)) (t.record ((p, rest :: q) :: m)
              (min inc.remainingQty rest.visibleQty) inc rest)).1 rest q
          unfold Flat.fill
          dsimp only
          rw [if_pos hfq]
          dsimp only
          have hmin : min inc.remainingQty rest.visibleQty ≤ inc.remainingQty := min_le_left _ _
          obtain ⟨inc', q', t', ret, he, hend⟩ := ih
            { inc with remainingQty := inc.remainingQty - min inc.remainingQty rest.visibleQty } _ _
            (fun r hr => (mem_requeue hr).elim (hqs r) fun h => (hleft r h).1)
            (by dsimp only; omega) hgroup (by dsimp only; omega)
          have halike : Flat.Alike inc
            { inc with remainingQty := inc.remainingQty - min inc.remainingQty rest.visibleQty } := rfl
          refine ⟨inc', q', t', ret, he, halike.trans hend.alike, hend.remaining, hend.returned,
            hend.through, fun hret hpos => ?_⟩
          have htaken := hend.taken hret hpos
          have hoffer := offer_le_requeue inc q fun o ho => (hleft o ho).1
          have hoffer₀ := offer_nonneg inc hqs
          rw [halike.offer] at htaken
          rw [offer_cons, if_neg hc]
          -- Something is left of the incoming order, so the resting one gave all that it showed.
          rcases min_choice inc.remainingQty rest.visibleQty with hm | hm
          · rw [hm] at htaken hoffer
            dsimp only at htaken
            omega
          · rw [hm] at htaken hoffer
            dsimp only at htaken
            omega
    · rw [if_neg hrem]
      exact ⟨_, _, _, _, rfl, .refl _, hnn, (absurd · Bool.false_ne_true), fun _ => .inr hrem,
        fun _ hpos => absurd hpos hrem⟩

/-- How matching ends: what is left of an order that was not cancelled has taken all that was on
offer. -/
structure MatchEnd (inc : Order) (m : Levels) (inc' : Order) : Prop where
  alike : Flat.Alike inc inc'
  remaining : 0 ≤ inc'.remainingQty
  taken : inc'.status ≠ .CANCELLED → 0 < inc'.remainingQty →
    inc'.remainingQty + offers inc m ≤ inc.remainingQty

/-- The loop over the levels ends. -/
theorem matchLevels_ends {b : Side} : ∀ m inc t, Shelf b m → 0 ≤ inc.remainingQty →
    (inc.selfTradeGroup = 0 ↔ inc.stpPolicy = .NONE) →
    ∃ inc' m' t', Flat.matchLevels m inc t = some (inc', m', t') ∧ MatchEnd inc m inc' := by
  intro m
  induction m with
  | nil => exact fun inc t _ hnn _ => ⟨_, _, _, rfl, .refl _, hnn, fun _ _ => (add_zero _).le⟩
  | cons l m ih =>
    intro inc t hm hnn hgroup
    obtain ⟨p, q⟩ := l
    unfold Flat.matchLevels
    split
    · rename_i hgo
      obtain ⟨inc₁, q₁, t₁, ret, he, hend⟩ := matchQueue_ends (m := m)
        (inc.remainingQty.toNat + q.length + 1) inc q t (hm.rest _ List.mem_cons_self) hnn hgroup
        (Nat.lt_succ_self _)
      rw [he]
      -- A loop that returned has nothing left to match.
      have hout : ret = true → inc₁.status ≠ .CANCELLED → 0 < inc₁.remainingQty → False := by
        intro hret hst hpos
        rcases hend.returned hret with h | h
        · exact hst h
        · omega
      cases q₁ with
      | nil =>
        cases ret with
        | true => exact ⟨_, _, _, rfl, hend.alike, hend.remaining, fun hst hpos =>
          (hout rfl hst hpos).elim⟩
        | false =>
          -- The level is used up, and the next one is matched with what is left.
          obtain ⟨inc', m', t', he', hend'⟩ := ih inc₁ t₁ hm.tail hend.remaining
            (by rw [hend.alike]; exact hgroup)
          refine ⟨inc', m', t', he', hend.alike.trans hend'.alike, hend'.remaining, fun hst hpos => ?_⟩
          have htaken' := hend'.taken hst hpos
          have hoffers := offers_nonneg inc hm.tail
          rw [hend.alike.offers] at htaken'
          have htaken := hend.taken rfl (by omega)
          rw [offers_cons, if_pos hgo.2]
          dsimp only
          omega
      | cons o q₁ =>
        refine ⟨_, _, _, rfl, hend.alike, hend.remaining, fun hst hpos => ?_⟩
        cases ret with
        -- The level is not used up, so the incoming order is.
        | true => exact (hout rfl hst hpos).elim
        | false => exact absurd hpos ((hend.through rfl).resolve_left (List.cons_ne_nil _ _))
    · rename_i hgo
      refine ⟨_, _, _, rfl, .refl _, hnn, fun _ hpos => ?_⟩
      rw [offers_cons, if_neg fun hc => hgo ⟨hpos, hc⟩]
      exact (add_zero _).le

/-! ## The pipeline -/

/-- The acts that may happen inside of a call. -/
def InCall : Special → Prop
  | .clear => False
  | _ => True

/-- What `processActive` needs to come to an end. -/
structure Fit (o : Order) : Prop where
  status : o.status ≠ .CANCELLED
  notStop : o.orderType.isStop = false
  fok : o.timeInForce = .FOK → o.remainingQty = o.quantity
  marketToLimit : o.orderType = .MARKET_TO_LIMIT → o.timeInForce ≠ .FOK

/-- An order that fits may go through the pipeline. -/
theorem Fit.ready {o : Order} (h : Fit o) (f : Flat) : Flat.Ready InCall o f where
  status := h.status
  notStop := h.notStop
  reprice _ _ _ _ _ := trivial
  recancel _ _ _ _ _ _ _ := trivial
  unsold := .inl trivial
  aged := .inr (.inl trivial)

section Pipeline

open Flat

variable {f f' : Flat} {fl : List Order}

/-- The match of an order ends, and it ends with the order used up or with nothing left to match. -/
theorem matchOrd_ends {o : Order} (h : Inv f (o :: fl)) : ∃ o' f', Flat.matchOrd o f = some (o', f') ∧
    MatchEnd o (f.side (oppositeSide o.side)) o' := by
  obtain ⟨o', m, t, he, hend⟩ := matchLevels_ends _ o f.tape (h.sides (oppositeSide o.side))
    h.head.remaining h.head.group
  refine ⟨o', (f.setSide (oppositeSide o.side) m).withTape t, ?_, hend⟩
  unfold Flat.matchOrd
  dsimp only
  rw [he]
  rfl

/-- A fill-or-kill order that passed its check ends with nothing left, unless it is cancelled. -/
theorem MatchEnd.fok {o o' : Order} (h : Inv f (o :: fl))
    (hend : MatchEnd o (f.side (oppositeSide o.side)) o') (hq : o.remainingQty = o.quantity)
    (hcheck : Flat.fokCheck o f = true) (hst : o'.status ≠ .CANCELLED) : o'.remainingQty = 0 := by
  have hnn := hend.remaining
  have hle := of_decide_eq_true hcheck
  have havail := availLevels_le o o.quantity (h.sides (oppositeSide o.side)) 0
    (by omega)
  by_contra hne
  have htaken := hend.taken hst (by omega)
  omega

/-- What is left is settled, unless it is of a fill-or-kill order, which the code asserts away. -/
theorem settle_ends (hasTr : Bool) {o : Order} (h : o.timeInForce = .FOK → o.status ≠ .CANCELLED →
    o.remainingQty = 0) : ∃ d f', settle o hasTr f = some (d, f') := by
  unfold settle
  split
  · rename_i hst
    unfold Flat.dispose
    split
    · exact ⟨_, _, rfl⟩
    · rename_i hrem
      cases htif : o.timeInForce with
      | IOC => exact ⟨_, _, rfl⟩
      -- The precheck leaves nothing of a fill-or-kill order.
      | FOK => exact absurd (h htif hst) hrem
      | GTC =>
        dsimp only
        split <;> exact ⟨_, _, rfl⟩
      | GTD =>
        dsimp only
        split <;> exact ⟨_, _, rfl⟩
      | DAY =>
        dsimp only
        split <;> exact ⟨_, _, rfl⟩
  · exact ⟨_, _, rfl⟩

/-- The match of an order that is not market-to-limit returns. -/
theorem matchPlain_ends (ts : ℕ) {o : Order} (h : Inv f (o :: fl)) (ho : Fit o)
    (hfok : o.timeInForce = .FOK → Flat.fokCheck o f = true) :
    ∃ d f', Flat.matchPlain ts o f = some (d, f') := by
  obtain ⟨o', f₁, he, hend⟩ := matchOrd_ends h
  obtain ⟨d, f₂, hd⟩ := settle_ends (ts < f₁.tape.trades.length) (f := f₁)
    (o := { o' with minQty :=
      if 0 < o'.minQty ∧ (decide (ts < f₁.tape.trades.length)) = true then 0 else o'.minQty })
    fun htif hst => by
      have htif' : o.timeInForce = .FOK := by
        have ha := hend.alike
        rw [ha] at htif
        exact htif
      have hzero := hend.fok h (ho.fok htif') (hfok htif') hst
      exact hzero
  refine ⟨d, f₂, ?_⟩
  unfold Flat.matchPlain
  rw [he]
  exact hd

/-- The match of a market-to-limit order returns. It has made a trade, so there is a price to take.
-/
theorem toLimit_ends {o : Order} {ts : ℕ} (h : Inv f (o :: fl)) (htype : o.orderType = .MARKET_TO_LIMIT)
    (htif : o.timeInForce ≠ .FOK) (hts : ts < f.tape.trades.length) :
    ∃ d f', Flat.toLimit ts o f = some (d, f') := by
  have ht := List.getElem?_eq_getElem hts
  have hinv := h.step (Step.toLimit (X := InCall) htype (List.mem_of_getElem? ht))
  unfold Flat.toLimit
  rw [ht]
  dsimp only [Option.bind_eq_bind, Option.bind_some]
  split
  · obtain ⟨o', f₁, he, hend⟩ := matchOrd_ends hinv
    rw [he]
    refine settle_ends true fun hx => absurd hx ?_
    rw [hend.alike]
    exact htif
  · exact settle_ends true fun hx => absurd hx htif

/-- The trade buffer only grows inside of a call. -/
theorem trades_step {x y : Flat × List Order} (h : Step InCall x y) :
    x.1.tape.trades <+: y.1.tape.trades := by
  have hside : ∀ (f : Flat) b m, (f.setSide b m).tape.trades = f.tape.trades := by
    intro f b m
    rw [tape_setSide]
  cases h with
  -- A trade is added at the end.
  | trade hside hrem hm hc hpo hst hstop hfill =>
    obtain ⟨-, he⟩ := fill_eq hfill
    obtain ⟨-, hft⟩ := Prod.mk.inj he
    have ht := congrArg (fun x => x.2.trades) hft
    dsimp only at ht
    rw [trades_afterFill] at ht
    dsimp only [tape_withTape]
    rw [ht]
    exact List.prefix_append _ _
  | selfTrade hside hrem hm hc hst hstop hpo =>
    dsimp only [tape_withTape]
    rw [trades_handleStp]
  | drop => exact (hside _ _ _) ▸ List.prefix_rfl
  | reprice hpo hold hs hX hrep =>
    obtain ⟨-, rfl⟩ := Prod.mk.inj (reprice_eq hs hrep)
    exact List.prefix_rfl
  -- The buffer is emptied between the calls only.
  | clear hX => exact hX.elim
  | unlink => exact (hside _ _ _) ▸ List.prefix_rfl
  | shrink => exact (hside _ _ _) ▸ List.prefix_rfl
  | _ => exact List.prefix_rfl

/-- Trades are only added in a call. -/
theorem trades_steps {x y : Flat × List Order} (h : Steps InCall x y) :
    x.1.tape.trades <+: y.1.tape.trades := by
  induction h with
  | refl => exact List.prefix_rfl
  | tail _ hact ih => exact ih.trans (trades_step hact)

/-- From a state with the invariant, whatever else is in flight, it returns. -/
def Ends (g : Flat → Option Flat) : Prop := ∀ f fl, Inv f fl → ∃ f', g f = some f'

/-- The dormant stops of a state in order. -/
theorem Inv.stopsOk (h : Inv f fl) : StopsOk f.stops :=
  fun o ho => ⟨(h.stops o ho).type, (h.stops o ho).postOnly⟩

/-- The reports return, as no trade is taken away while they are made. -/
theorem emitLoop_ends {eval : ℤ → ℕ → Flat → Option Flat} {depth : ℕ}
    (he : depth < maxCascade → ∀ px, Ends (eval px depth)) (ha : ∀ px d, Acts InCall (eval px d)) :
    ∀ n i f fl, Inv f fl → i + n ≤ f.tape.trades.length →
      ∃ f', Flat.emitLoop eval depth n i f = some f' := by
  intro n
  induction n with
  | zero => exact fun i f fl _ _ => ⟨f, rfl⟩
  | succ n ih =>
    intro i f fl h hlen
    have hlt : i < f.tape.trades.length := by omega
    have ht := List.getElem?_eq_getElem hlt
    have h₁ := h.step (Step.report (X := InCall) depth (List.mem_of_getElem? ht))
    -- The evaluation returns, and the buffer is no shorter after it.
    have hbelow : ∀ f₁ : Flat, Inv f₁ fl → f.tape.trades.length ≤ f₁.tape.trades.length →
        ∃ f₂, (if depth < maxCascade then eval f.tape.trades[i].price depth f₁ else some f₁) = some f₂ ∧
          Inv f₂ fl ∧ f.tape.trades.length ≤ f₂.tape.trades.length := by
      intro f₁ h₁ hle
      split
      · rename_i hd
        obtain ⟨f₂, h₂⟩ := he hd _ _ _ h₁
        have hsteps := (ha _ _ _ _ h₁.stopsOk h₂).1 fl
        exact ⟨f₂, h₂, h₁.steps hsteps, hle.trans (trades_steps hsteps).length_le⟩
      · exact ⟨f₁, rfl, h₁, hle⟩
    obtain ⟨f₂, h₂, hinv, hle⟩ := hbelow _ h₁ (le_refl _)
    unfold Flat.emitLoop
    rw [ht]
    dsimp only at h₂ ⊢
    rw [h₂]
    exact ih _ _ fl hinv (by omega)

/-- A stop that is triggered can be worked on to its end. -/
theorem Dormant.fit {o : Order} (h : Dormant o) (t : Tape) : Fit (Flat.trigger o t).1 := by
  have hstop := (ready_trigger (X := InCall) ⟨h.type, h.postOnly⟩ { tape := t }).notStop
  refine ⟨nofun, hstop, fun _ => h.remaining, fun ht => ?_⟩
  change (if o.orderType = .STOP_LIMIT then OrderType.LIMIT else .MARKET) = _ at ht
  split at ht <;> cases ht

/-- The turns of the triggered stops return. -/
theorem activate_ends {active : Order → ℕ → Flat → Option Flat} {depth : ℕ}
    (he : ∀ o f fl, Inv f (o :: fl) → Fit o → ∃ f', active o (depth + 1) f = some f')
    (ha : ∀ o d f f', StopsOk f.stops → active o d f = some f' → Ready InCall o f →
      (∀ fl, Steps InCall (f, o :: fl) (f', fl)) ∧ ∀ s ∈ f'.stops, s ∈ f.stops) :
    ∀ os f fl, Inv f (os ++ fl) → (∀ o ∈ os, Dormant o) →
      ∃ f', Flat.activate active depth os f = some f' := by
  intro os
  induction os with
  | nil => exact fun f fl _ _ => ⟨f, rfl⟩
  | cons o os ih =>
    intro f fl h hos
    have ho := hos o List.mem_cons_self
    have hfit := ho.fit f.tape
    have h₁ := h.step (show Step InCall (f, o :: (os ++ fl)) _ from .trigger ho.type)
    obtain ⟨f₁, he₁⟩ := he _ _ _ h₁ hfit
    have hsteps := (ha _ _ _ _ h₁.stopsOk he₁ (hfit.ready _)).1 (os ++ fl)
    unfold Flat.activate
    rw [he₁]
    exact ih f₁ fl (h₁.steps hsteps) fun x hx => hos x (List.mem_cons_of_mem _ hx)

/-- The evaluation of the stops returns. -/
theorem evalStops_ends (S : StdSort) {active : Order → ℕ → Flat → Option Flat} {depth : ℕ}
    (he : ∀ o f fl, Inv f (o :: fl) → Fit o → ∃ f', active o (depth + 1) f = some f')
    (ha : ∀ o d f f', StopsOk f.stops → active o d f = some f' → Ready InCall o f →
      (∀ fl, Steps InCall (f, o :: fl) (f', fl)) ∧ ∀ s ∈ f'.stops, s ∈ f.stops) (px : ℤ) :
    Ends (Flat.evalStops S active px depth) := by
  intro f fl h
  have hsome := takeOut_isSome (p := fires px) (f.stops.length + 1) 0 f.stops [] (Nat.zero_le _)
    (by omega)
  obtain ⟨r, hr⟩ := Option.isSome_iff_exists.mp hsome
  have htaken := taken_takeOut _ _ _ _ _ hr fun j hj => absurd hj (Nat.not_lt_zero j)
  have hperm : f.stops.Perm (r.1 ++ r.2) := htaken.perm
  have hsort := perm_sort S (·.timestamp) r.1
  have h₁ := (h.step (Step.wake (X := InCall) hperm)).step
    (.perm (X := InCall) (hsort.symm.append_right fl))
  unfold Flat.evalStops
  rw [hr]
  refine activate_ends he ha _ _ fl h₁ fun o ho => h.stops o ?_
  exact hperm.mem_iff.mpr (List.mem_append_left _ (hsort.mem_iff.mp ho))

/-- The phase of the post-only orders returns. -/
theorem postOnlyPhase_ends (o : Order) (f : Flat) : ∃ f', Flat.postOnlyPhase o f = some f' := by
  unfold Flat.postOnlyPhase
  split
  · rename_i hcross
    split
    · exact ⟨_, rfl⟩
    · -- There is an order to cross, so the other side is not empty.
      unfold Flat.reprice
      have hne : f.side (oppositeSide o.side) ≠ [] := by
        intro hnil
        unfold Flat.wouldCross at hcross
        cases hs : o.side with
        | BUY =>
          rw [hs] at hnil hcross
          have hasks : f.asks = [] := hnil
          rw [hasks] at hcross
          cases hcross
        | SELL =>
          rw [hs] at hnil hcross
          have hbids : f.bids = [] := hnil
          rw [hbids] at hcross
          cases hcross
      cases hside : f.side (oppositeSide o.side) with
      | nil => exact absurd hside hne
      | cons l m => exact ⟨_, rfl⟩
  · exact ⟨_, rfl⟩

/-- The phase that matches returns. -/
theorem matchPhase_ends {emit : ℕ → ℕ → Flat → Option Flat} {depth : ℕ}
    (he : ∀ start, Ends (emit start depth)) {o : Order} (h : Inv f (o :: fl)) (ho : Fit o)
    (hpo : o.postOnly = false) (hfok : o.timeInForce = .FOK → Flat.fokCheck o f = true)
    (hmin : 0 < o.minQty → Flat.minQtyCheck o f = true) :
    ∃ f', Flat.matchPhase emit o depth f = some f' := by
  unfold Flat.matchPhase
  dsimp only
  split
  · rename_i htype
    obtain ⟨o₁, f₁, hm, hend⟩ := matchOrd_ends h
    obtain ⟨hsteps, -, -, -⟩ := steps_matchOrd (X := InCall) fl hm hpo ho.status ho.notStop
    rw [hm]
    dsimp only [Option.bind_eq_bind, Option.bind_some]
    split
    · rename_i hts
      have hty : o₁.orderType = .MARKET_TO_LIMIT := by rw [hend.alike, htype]
      -- A market-to-limit order is not fill-or-kill, so what is left of it is settled.
      have htif : o₁.timeInForce ≠ .FOK := by
        rw [hend.alike]
        exact ho.marketToLimit htype
      obtain ⟨d, f₂, hl⟩ := toLimit_ends (h.steps hsteps) hty htif hts
      obtain ⟨hsteps₂, -, -⟩ := steps_toLimit (X := InCall) fl hl hty
        (by rw [hend.alike.postOnly, hpo]) fun _ => .inr (.inl trivial)
      obtain ⟨f₃, h₃⟩ := he _ _ _ ((h.steps hsteps).steps hsteps₂)
      rw [hl]
      dsimp only [Option.bind_some]
      rw [h₃]
      exact ⟨_, rfl⟩
    · exact ⟨_, rfl⟩
  · rename_i htype
    obtain ⟨d, f₂, hl⟩ := matchPlain_ends f.tape.trades.length h ho hfok
    obtain ⟨hsteps, -, -⟩ := steps_matchPlain (X := InCall) fl hl (ho.ready f) hpo htype hmin
    obtain ⟨f₃, h₃⟩ := he _ _ _ (h.steps hsteps)
    rw [hl]
    dsimp only [Option.bind_eq_bind, Option.bind_some]
    rw [h₃]
    exact ⟨_, rfl⟩

/-- `processActive` ends at any depth up to `MAX_CASCADE`, by induction on the depth that is left.
-/
theorem processActiveIn_ends (S : StdSort) : ∀ n depth o f fl, depth ≤ maxCascade →
    maxCascade < n + depth → Inv f (o :: fl) → Fit o →
    ∃ f', Flat.processActiveIn S n o depth f = some f' := by
  intro n
  induction n with
  | zero =>
    intro depth o f fl hd hn
    omega
  | succ n ih =>
    intro depth o f fl hd hn h ho
    unfold Flat.processActiveIn Flat.processActiveWith
    split
    · exact postOnlyPhase_ends o f
    · rename_i hpo
      split
      · exact ⟨_, rfl⟩
      · rename_i hfok
        split
        · exact ⟨_, rfl⟩
        · rename_i hmin
          refine matchPhase_ends (fun start f₁ fl₁ h₁ => ?_) h ho (Bool.eq_false_iff.mpr hpo)
            (fun htif => not_not.mp fun hx => hfok ⟨htif, hx⟩) fun hpos => not_not.mp fun hx =>
              hmin ⟨hpos, hx⟩
          unfold Flat.emitAndTrigger
          -- There are trades to tell of, or the loop has no turns.
          by_cases hlen : start ≤ f₁.tape.trades.length
          · refine emitLoop_ends (fun hlt px => ?_) (fun px d => ?_) _ _ _ fl₁ h₁ (by omega)
            · exact evalStops_ends S (fun o' f' fl' => ih (depth + 1) o' f' fl' (by omega) (by omega))
                (fun o' d f₂ f₃ => acts_processActiveIn S n o' d f₂ f₃) px
            · exact acts_evalStops S (fun o' d f₂ f₃ => acts_processActiveIn S n o' d f₂ f₃) px d
          · rw [Nat.sub_eq_zero_of_le (by omega)]
            exact ⟨_, rfl⟩

/-! ## Calls -/

/-- The special acts that a call may lead to. -/
def Any : Special → Prop := fun _ => True

/-- With every act allowed, an order that is neither cancelled nor a stop is ready. -/
theorem ready_any {o : Order} {f : Flat} (hst : o.status ≠ .CANCELLED)
    (hstop : o.orderType.isStop = false) :
    Ready Any o f :=
  ⟨hst, hstop, fun _ _ _ _ _ => trivial, fun _ _ _ _ _ _ _ => trivial, .inl trivial,
    .inr (.inl trivial)⟩

/-- A resting order, amended. -/
theorem Resting.ready {b : Side} {p : ℤ} {o : Order} (h : Resting b p o) (newPx newQty : ℤ) (now : ℕ)
    (f : Flat) : Ready Any (amended o newPx newQty now) f := by
  refine ready_any ?_ ?_
  · rcases h.status with hs | hs <;> exact fun hx => absurd (hs.symm.trans hx) nofun
  · rw [show (amended o newPx newQty now).orderType = o.orderType from rfl, h.type]
    rfl

/-- With every act allowed, every call is covered. -/
theorem covers_any (h : Inv f fl) (c : Call) : Covers Any f c := by
  cases c with
  | submit i =>
    exact ⟨trivial, trivial, fun _ hstop => ready_any (by exact fun hx => by cases hx) hstop⟩
  | cancel id => trivial
  | amend id newPx newQty =>
    refine ⟨trivial, trivial, trivial, fun b o hl => ?_⟩
    obtain ⟨l, hlm, hol⟩ := Levels.mem_orders.mp (mem_of_locate hl).1
    exact ((h.sides b).rest l hlm o hol).ready newPx newQty _ _
  | expire t => trivial
  | setTime t => trivial
  | assignId => trivial

/-- A call keeps the invariant. -/
theorem Inv.run (S : StdSort) {c : Call} (h : Inv f []) (he : Flat.run S c f = some f') : Inv f' [] :=
  h.steps (steps_run S h.tidy he (covers_any h c))

/-- A valid order fits. -/
theorem Valid.fit {now : ℕ} {i : OrderInput} {t : ℕ} (h : Valid now (i.order t))
    (hstop : i.orderType.isStop = false) : Fit (i.order t) :=
  ⟨nofun, hstop, fun _ => rfl, fun ht => (h.marketToLimitTif ht).2⟩

/-- A valid order is processed. -/
theorem process_ends (S : StdSort) {i : OrderInput} {t now : ℕ} (h : Inv f [i.order t])
    (hv : Valid now (i.order t)) : ∃ f', Flat.process S (i.order t) f = some f' := by
  have hstop : i.orderType.isStop = true ↔ i.orderType = .STOP_LIMIT ∨ i.orderType = .STOP_MARKET := by
    cases i.orderType <;> decide
  have hpa : ∀ {o : Order} {f : Flat}, Inv f [o] → Fit o → ∃ f', Flat.processActive S o 0 f = some f' :=
    fun h ho => processActiveIn_ends S _ 0 _ _ [] (Nat.zero_le _) (Nat.lt_succ_self _) h ho
  unfold Flat.process
  split
  · rename_i hty
    split
    · have htype := hstop.mpr hty
      exact hpa (h.step (Step.trigger (X := Any) htype)) ((h.head.stop htype rfl).fit f.tape)
    · exact ⟨_, rfl⟩
  · rename_i hty
    exact hpa h (hv.fit (Bool.eq_false_iff.mpr fun hx => hty (hstop.mp hx)))

/-- `submitOrder` returns from every state in order. -/
theorem submitOrder_ends (S : StdSort) (h : Inv f []) (i : OrderInput) :
    ∃ r, Flat.submitOrder S i f = some r := by
  unfold Flat.submitOrder
  split
  · exact ⟨_, rfl⟩
  · rename_i hdup
    dsimp only
    cases hv : validate (f.tape.now + 1) (i.order (f.tape.now + 1)) with
    | some err => exact ⟨_, rfl⟩
    | none =>
      have hvalid := valid_of_validate hv
      have hacc := Inv.accept (t := (f.tape.tick.event (.onOrderAccepted
        (i.order (f.tape.now + 1))))) h hvalid.flying fun o ho hid =>
          hdup (List.any_eq_true.mpr ⟨o, ho, decide_eq_true hid⟩)
      obtain ⟨f', hf'⟩ := process_ends S (hacc.step (.clear (X := Any) trivial)) hvalid
      dsimp only
      rw [hf']
      exact ⟨_, rfl⟩

/-- `amendOrder` returns from every state in order. -/
theorem amendOrder_ends (S : StdSort) (h : Inv f []) (id : UInt64) (newPx newQty : ℤ) :
    ∃ r, Flat.amendOrder S id newPx newQty f = some r := by
  unfold Flat.amendOrder
  split
  · rename_i b o hl
    split
    · rename_i hopen
      dsimp only
      split
      · exact ⟨_, rfl⟩
      · split
        · rename_i hnew
          have ho := (mem_of_locate hl).1
          obtain ⟨l, hlm, hol⟩ := Levels.mem_orders.mp ho
          have hr := (h.sides b).rest l hlm o hol
          have hready := hr.ready newPx newQty (f.tape.now + 1) f
          -- The amended order goes into the pipeline from a state in order.
          have hact : Step Any (f.unlink b o, [o]) _ :=
            .amend trivial hopen (by rw [hr.type]; rfl) hnew
          have htape : (f.unlink b o).tape = f.tape := tape_setSide _ _ _
          rw [htape] at hact
          have hinv := ((h.unlink ho).step hact).step (.clear (X := Any) trivial)
          obtain ⟨f', hf'⟩ := processActiveIn_ends S (maxCascade + 1) 0 _ _ [] (Nat.zero_le _)
            (Nat.lt_succ_self _) hinv ⟨hready.status, hready.notStop, fun ht => absurd ht hr.tif.2,
              fun ht => absurd (hr.type.symm.trans ht) nofun⟩
          unfold Flat.processActive
          rw [hf']
          exact ⟨_, rfl⟩
        · exact ⟨_, rfl⟩
    · exact ⟨_, rfl⟩
  · exact ⟨_, rfl⟩

/-- Every call ends. -/
theorem run_ends (S : StdSort) (h : Inv f []) (c : Call) : ∃ f', Flat.run S c f = some f' := by
  cases c with
  | submit i =>
    obtain ⟨r, hr⟩ := submitOrder_ends S h i
    exact ⟨r.2, Option.map_eq_some_iff.mpr ⟨r, hr, rfl⟩⟩
  | cancel id => exact ⟨_, rfl⟩
  | amend id newPx newQty =>
    obtain ⟨r, hr⟩ := amendOrder_ends S h id newPx newQty
    exact ⟨r.2, Option.map_eq_some_iff.mpr ⟨r, hr, rfl⟩⟩
  | expire t =>
    obtain ⟨r, hr⟩ := Option.isSome_iff_exists.mp (takeOut_isSome (p := shouldExpire t) _ 0
      (Flat.expireResting ((f.bids.orders ++ f.asks.orders).filter (shouldExpire t)) f).stops []
      (Nat.zero_le _) (Nat.lt_succ_self _))
    exact ⟨_, Option.map_eq_some_iff.mpr ⟨r, hr, rfl⟩⟩
  | setTime t => exact ⟨_, rfl⟩
  | assignId => exact ⟨_, rfl⟩

end Pipeline

end MatchingEngine.Cpp
