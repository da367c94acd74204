import MatchingEngine.Cpp.Amends
import MatchingEngine.Lib.Related

/-!
# Orders that the pipeline does not tell apart

What `processActive` does with an order does not depend on the price that it was triggered at, nor
on its first quantity unless it is fill-or-kill, nor on its status unless it is cancelled. Two
orders that differ in nothing else are twins. Engines with twins in the same places stay so, and so
an order that an amendment sends through the pipeline again fares as a new order does.
-/

namespace MatchingEngine.Cpp

open Lib

/-- Two orders that the pipeline does not tell apart. -/
def Order.Twin (o o' : Order) : Prop :=
  ∃ q p st, o' = { o with quantity := q, stopPrice := p, status := st } ∧
    (st = .CANCELLED ↔ o.status = .CANCELLED) ∧ (o.timeInForce = .FOK → q = o.quantity)

/-- Two tapes that differ in the history alone. -/
def Tape.Twin (t t' : Tape) : Prop := ∃ l, t' = { t with log := l }

/-- Twins that have fared alike. -/
inductive Fate.Twin : Fate → Fate → Prop
  | stays {o o' : Order} (h : o.Twin o') : Fate.Twin (.stays o) (.stays o')
  | goes : Fate.Twin .goes .goes
  | moves {o o' : Order} (h : o.Twin o') : Fate.Twin (.moves o) (.moves o')

/-- Levels with twins in the same places. -/
def Levels.Twin : Levels → Levels → Prop :=
  List.Forall₂ fun l l' => l.1 = l'.1 ∧ List.Forall₂ Order.Twin l.2 l'.2

/-- Engines with twins in the same places. -/
structure Flat.Twin (f f' : Flat) : Prop where
  bids : Levels.Twin f.bids f'.bids
  asks : Levels.Twin f.asks f'.asks
  stops : f'.stops = f.stops
  tape : f.tape.Twin f'.tape

section Twins

variable {S : StdSort} {o o' inc inc' r r' : Order} {t t' : Tape} {f f' : Flat} {m m' : Levels}
  {q q' : List Order}

/-! ## Orders -/

/-- An order is its own twin. -/
theorem Order.Twin.refl (o : Order) : o.Twin o := ⟨_, _, _, rfl, Iff.rfl, fun _ => rfl⟩

/-- A status that is not that of a cancelled order. -/
theorem Order.Twin.status (h : o.Twin o') {st st' : OrderStatus}
    (hs : st' = .CANCELLED ↔ st = .CANCELLED) :
    { o with status := st }.Twin { o' with status := st' } := by
  obtain ⟨q, p, _, rfl, -, hq⟩ := h
  exact ⟨q, p, st', rfl, hs, hq⟩

/-- What is written on two such tapes need not be the same. -/
theorem Tape.Twin.mark (h : t.Twin t') (x y : Mark) : (t.mark x).Twin (t'.mark y) := by
  obtain ⟨l, rfl⟩ := h
  exact ⟨_, rfl⟩

/-- Levels have the orders of their own places. -/
theorem twin_refl (m : Levels) : Levels.Twin m m :=
  List.forall₂_same.mpr fun _ _ => ⟨rfl, List.forall₂_same.mpr fun _ _ => .refl _⟩

/-- Twins that have fared alike leave queues of twins. -/
theorem Fate.Twin.requeue {a a' : Fate} (h : a.Twin a') (hq : List.Forall₂ Order.Twin q q') :
    List.Forall₂ Order.Twin (a.requeue q) (a'.requeue q') := by
  cases h with
  | stays h => exact .cons h hq
  | goes => exact hq
  | moves h => exact List.rel_append hq (.cons h .nil)

/-! ## A turn of matching -/

/-- The results of a turn with the order at the head of the queue. -/
def TwinTurns (x x' : Fate × Tape) : Prop := x.1.Twin x'.1 ∧ x.2.Twin x'.2

/-- Twins reload alike: the slice depends on the remainder and on the displayed quantity. -/
theorem twin_reload (h : r.Twin r') (ht : t.Twin t') :
    TwinTurns (Flat.reload r t) (Flat.reload r' t') := by
  obtain ⟨q, p, st, rfl, hst, hq⟩ := h
  obtain ⟨l, rfl⟩ := ht
  exact ⟨.moves ⟨q, p, st, rfl, hst, hq⟩, _, rfl⟩

/-- Incoming twins lose the same quantity. -/
theorem twin_lessIncoming (h : o.Twin o') (n : ℤ) :
    (Flat.lessIncoming o n).Twin (Flat.lessIncoming o' n) := by
  obtain ⟨q, p, st, rfl, hst, hq⟩ := h
  refine ⟨q, p, _, rfl, ?_, hq⟩
  dsimp only [Flat.lessIncoming]
  split <;> simp [hst]

/-- Resting twins lose the same quantity. -/
theorem twin_lessResting (h : o.Twin o') (n : ℤ) :
    (Flat.lessResting o n).Twin (Flat.lessResting o' n) := by
  obtain ⟨q, p, st, rfl, hst, hq⟩ := h
  refine ⟨q, p, _, rfl, ?_, hq⟩
  dsimp only [Flat.lessResting]
  split <;> simp [hst]

/-- Twins have the same remainder. -/
theorem Order.Twin.remaining (h : o.Twin o') : o'.remainingQty = o.remainingQty := by
  obtain ⟨_, _, _, rfl, -⟩ := h
  rfl

/-- Twins show the same. -/
theorem Order.Twin.visible (h : o.Twin o') : o'.visibleQty = o.visibleQty := by
  obtain ⟨_, _, _, rfl, -⟩ := h
  rfl

/-- Twins display slices of the same size. -/
theorem Order.Twin.display (h : o.Twin o') : o'.displayQty = o.displayQty := by
  obtain ⟨_, _, _, rfl, -⟩ := h
  rfl

/-- Twins are cancelled together. -/
theorem Order.Twin.cancelled (h : o.Twin o') : o'.status = .CANCELLED ↔ o.status = .CANCELLED := by
  obtain ⟨_, _, _, rfl, hst, -⟩ := h
  exact hst

/-- Twins have the same policy. -/
theorem Order.Twin.policy (h : o.Twin o') : o'.stpPolicy = o.stpPolicy := by
  obtain ⟨_, _, _, rfl, -⟩ := h
  rfl

/-- Twins are of one side. -/
theorem Order.Twin.side (h : o.Twin o') : o'.side = o.side := by
  obtain ⟨_, _, _, rfl, -⟩ := h
  rfl

/-- Twins have the same price. -/
theorem Order.Twin.price (h : o.Twin o') : o'.price = o.price := by
  obtain ⟨_, _, _, rfl, -⟩ := h
  rfl

/-- Twins have the same type. -/
theorem Order.Twin.orderType (h : o.Twin o') : o'.orderType = o.orderType := by
  obtain ⟨_, _, _, rfl, -⟩ := h
  rfl

/-- Twins have the same time in force. -/
theorem Order.Twin.timeInForce (h : o.Twin o') : o'.timeInForce = o.timeInForce := by
  obtain ⟨_, _, _, rfl, -⟩ := h
  rfl

/-- Twins have the same minimum. -/
theorem Order.Twin.minQty (h : o.Twin o') : o'.minQty = o.minQty := by
  obtain ⟨_, _, _, rfl, -⟩ := h
  rfl

/-- Twins are post-only together. -/
theorem Order.Twin.postOnly (h : o.Twin o') : o'.postOnly = o.postOnly := by
  obtain ⟨_, _, _, rfl, -⟩ := h
  rfl

/-- Twins conflict with the same orders. -/
theorem Order.Twin.conflict (h : o.Twin o') (hr : r.Twin r') :
    stpConflict o' r' = stpConflict o r := by
  obtain ⟨_, _, _, rfl, -⟩ := h
  obtain ⟨_, _, _, rfl, -⟩ := hr
  rfl

/-- After a decrement, twins have gone, reloaded or stayed alike. -/
theorem twin_afterDecrement (h : r.Twin r') (ht : t.Twin t') :
    TwinTurns (Flat.afterDecrement r t) (Flat.afterDecrement r' t') := by
  unfold Flat.afterDecrement
  rw [h.remaining, h.visible, h.display]
  split
  · exact ⟨.goes, ht.mark _ _⟩
  · split
    · exact twin_reload h ht
    · exact ⟨.stays h, ht⟩

/-- The results of a turn. -/
def TwinMeets (x x' : Order × Fate × Tape) : Prop := x.1.Twin x'.1 ∧ TwinTurns x.2 x'.2

/-- Twins that meet twins of their own group fare alike under every policy. -/
theorem twin_handleStp (h : inc.Twin inc') (hr : r.Twin r') (ht : t.Twin t') :
    TwinMeets (Flat.handleStp inc r t) (Flat.handleStp inc' r' t') := by
  unfold Flat.handleStp
  rw [h.policy]
  cases inc.stpPolicy with
  | NONE => exact ⟨h, .stays hr, ht⟩
  | CANCEL_NEWEST => exact ⟨h.status Iff.rfl, .stays hr, ht.mark _ _⟩
  | CANCEL_OLDEST => exact ⟨h, .goes, (ht.mark _ _).mark _ _⟩
  | CANCEL_BOTH => exact ⟨h.status Iff.rfl, .goes, ((ht.mark _ _).mark _ _).mark _ _⟩
  | DECREMENT =>
    dsimp only [Flat.decrement]
    rw [h.remaining, hr.visible]
    exact ⟨twin_lessIncoming h _, twin_afterDecrement (twin_lessResting hr _) (ht.mark _ _)⟩

/-- After a fill, twins have gone, reloaded or stayed alike. -/
theorem twin_afterFill (h : r.Twin r') (ht : t.Twin t') :
    TwinTurns (Flat.afterFill r t) (Flat.afterFill r' t') := by
  have hreload := twin_reload h ht
  obtain ⟨q, p, st, rfl, hst, hq⟩ := h
  unfold Flat.afterFill
  dsimp only
  split
  · exact hreload
  · split
    · exact ⟨.goes, ht.mark _ _⟩
    · exact ⟨.stays ⟨q, p, _, rfl, Iff.rfl, hq⟩, ht⟩

/-- Twins that trade with twins trade the same, and fare alike. -/
theorem twin_fill (h : inc.Twin inc') (hr : r.Twin r') (ht : t.Twin t') (c c' : Levels) :
    Option.Rel TwinMeets (Flat.fill c inc r t) (Flat.fill c' inc' r' t') := by
  unfold Flat.fill
  dsimp only
  rw [h.remaining, hr.visible]
  split
  · refine .some ⟨?_, twin_afterFill ?_ ?_⟩
    · obtain ⟨q, p, st, rfl, hst, hq⟩ := h
      exact ⟨q, p, st, rfl, hst, hq⟩
    · obtain ⟨q, p, st, rfl, hst, hq⟩ := hr
      exact ⟨q, p, st, rfl, hst, hq⟩
    · obtain ⟨_, _, _, rfl, -⟩ := h
      obtain ⟨_, _, _, rfl, -⟩ := hr
      obtain ⟨l, rfl⟩ := ht
      exact ⟨_, rfl⟩
  · exact .none

/-! ## The loops -/

/-- The results of the loop over a queue. -/
def TwinQueues (x x' : Order × List Order × Tape × Bool) : Prop :=
  x.1.Twin x'.1 ∧ List.Forall₂ Order.Twin x.2.1 x'.2.1 ∧ x.2.2.1.Twin x'.2.2.1 ∧ x'.2.2.2 = x.2.2.2

/-- Twins that go through queues of twins leave queues of twins. The turns are the same, so the
induction is on their number. -/
theorem twin_matchQueue (p : ℤ) (m m' : Levels) : ∀ n {inc inc' : Order} {q q' : List Order}
    {t t' : Tape}, inc.Twin inc' → List.Forall₂ Order.Twin q q' → t.Twin t' →
    Option.Rel TwinQueues (Flat.matchQueue p m n inc q t) (Flat.matchQueue p m' n inc' q' t') := by
  intro n
  induction n with
  | zero => exact fun _ _ _ => .none
  | succ n ih =>
    intro inc inc' q q' t t' h hq ht
    unfold Flat.matchQueue
    rw [h.remaining]
    split
    · cases hq with
      | nil => exact .some ⟨h, .nil, ht, rfl⟩
      | @cons r r' q q' hr hq =>
        dsimp only
        rw [h.conflict hr]
        split
        -- A conflict: what is left of the twins are twins.
        · obtain ⟨hinc, hfate, htape⟩ := twin_handleStp h hr ht
          refine rel_ite ?_ (fun _ => ?_) fun _ => ?_
          · exact or_congr hinc.cancelled (by rw [hinc.remaining])
          · exact .some ⟨hinc, hfate.requeue hq, htape, rfl⟩
          · exact ih hinc (hfate.requeue hq) htape
        -- A trade: the fills are twins, or there is none on either side.
        · have hfill := twin_fill h hr ht ((p, r :: q) :: m) ((p, r' :: q') :: m')
          revert hfill
          generalize Flat.fill ((p, r :: q) :: m) inc r t = x
          generalize Flat.fill ((p, r' :: q') :: m') inc' r' t' = x'
          intro hfill
          cases hfill with
          | none => exact .none
          | some hmeet => exact ih hmeet.1 (hmeet.2.1.requeue hq) hmeet.2.2
    · exact .some ⟨h, hq, ht, rfl⟩

/-- Twins match at the same prices. -/
theorem Order.Twin.canMatch (h : o.Twin o') (p : ℤ) : canMatch o' p = canMatch o p := by
  obtain ⟨_, _, _, rfl, -⟩ := h
  rfl

/-- The results of the loop over the levels. -/
def TwinSides (x x' : Order × Levels × Tape) : Prop :=
  x.1.Twin x'.1 ∧ Levels.Twin x.2.1 x'.2.1 ∧ x.2.2.Twin x'.2.2

/-- Twins that go through levels of twins leave levels of twins. -/
theorem twin_matchLevels (hm : Levels.Twin m m') : ∀ {inc inc' : Order} {t t' : Tape},
    inc.Twin inc' → t.Twin t' →
    Option.Rel TwinSides (Flat.matchLevels m inc t) (Flat.matchLevels m' inc' t') := by
  induction hm with
  | nil => exact fun h ht => .some ⟨h, .nil, ht⟩
  | @cons l l' m m' hl hm ih =>
    intro inc inc' t t' h ht
    obtain ⟨p, q⟩ := l
    obtain ⟨_, q'⟩ := l'
    obtain ⟨rfl, hq⟩ := hl
    unfold Flat.matchLevels
    rw [h.remaining, h.canMatch, ← hq.length_eq]
    split
    -- The loops over the two queues run alike.
    · have hqueue := twin_matchQueue p m m' (inc.remainingQty.toNat + q.length + 1) h hq ht
      revert hqueue
      generalize Flat.matchQueue p m (inc.remainingQty.toNat + q.length + 1) inc q t = x
      generalize Flat.matchQueue p m' (inc.remainingQty.toNat + q.length + 1) inc' q' t' = x'
      intro hqueue
      cases hqueue with
      | none => exact .none
      | @some x x' hx =>
        obtain ⟨inc₁, q₁, t₁, b⟩ := x
        obtain ⟨inc₂, q₂, t₂, _⟩ := x'
        obtain ⟨hinc, hq, ht, rfl⟩ := hx
        cases hq with
        | nil =>
          dsimp only
          split
          · exact .some ⟨hinc, hm, ht⟩
          · exact ih hinc ht
        | cons ho hq => exact .some ⟨hinc, .cons ⟨rfl, .cons ho hq⟩ hm, ht⟩
    · exact .some ⟨h, .cons ⟨rfl, hq⟩ hm, ht⟩

/-- Each side holds twins. -/
theorem Flat.Twin.side (h : f.Twin f') (b : Side) : Levels.Twin (f.side b) (f'.side b) := by
  cases b
  · exact h.bids
  · exact h.asks

/-- One side of both engines is replaced by twins. -/
theorem Flat.Twin.setSide (h : f.Twin f') (b : Side) (hm : Levels.Twin m m') :
    (f.setSide b m).Twin (f'.setSide b m') := by
  cases b
  · exact ⟨hm, h.asks, h.stops, h.tape⟩
  · exact ⟨h.bids, hm, h.stops, h.tape⟩

/-- The tapes of both engines are replaced. -/
theorem Flat.Twin.withTape (h : f.Twin f') (ht : t.Twin t') :
    (f.withTape t).Twin (f'.withTape t') :=
  ⟨h.bids, h.asks, h.stops, ht⟩

/-- The results of a function on an order and an engine. -/
def TwinResults (x x' : Order × Flat) : Prop := x.1.Twin x'.1 ∧ x.2.Twin x'.2

/-- Twins that are matched in twin engines leave twin engines. -/
theorem twin_matchOrd (h : o.Twin o') (hf : f.Twin f') :
    Option.Rel TwinResults (Flat.matchOrd o f) (Flat.matchOrd o' f') := by
  unfold Flat.matchOrd
  rw [h.side]
  refine rel_map (twin_matchLevels (hf.side _) h hf.tape) fun x x' hx => ?_
  exact ⟨hx.1, (hf.setSide _ hx.2.1).withTape hx.2.2⟩

/-! ## What is left of an order -/

/-- Twins queue up at the same price. -/
theorem twin_enqueue (b : Side) (h : o.Twin o') (hm : Levels.Twin m m') :
    Levels.Twin (enqueue b o m) (enqueue b o' m') := by
  induction hm with
  | nil => exact .cons ⟨h.price.symm, .cons h .nil⟩ .nil
  | @cons l l' m m' hl hm ih =>
    obtain ⟨p, q⟩ := l
    obtain ⟨_, q'⟩ := l'
    obtain ⟨rfl, hq⟩ := hl
    unfold enqueue
    rw [h.price]
    split
    · exact .cons ⟨rfl, .cons h .nil⟩ (.cons ⟨rfl, hq⟩ hm)
    · split
      · exact .cons ⟨rfl, List.rel_append hq (.cons h .nil)⟩ hm
      · exact .cons ⟨rfl, hq⟩ ih

/-- Twins come to rest in twin engines. -/
theorem twin_rest (h : o.Twin o') (hf : f.Twin f') {st st' : OrderStatus}
    (hs : st' = .CANCELLED ↔ st = .CANCELLED) : (Flat.rest o st f).Twin (Flat.rest o' st' f') := by
  obtain ⟨q, p, s, rfl, hst, hq⟩ := h
  unfold Flat.rest
  dsimp only
  refine (hf.setSide _ (twin_enqueue _ ?_ (hf.side _))).withTape (hf.tape.mark _ _)
  exact ⟨q, p, _, rfl, hs, hq⟩

/-- Twins are cancelled in twin engines. -/
theorem twin_cancelIn (h : o.Twin o') (hf : f.Twin f') (reason : String) :
    TwinResults (Flat.cancelIn o reason f) (Flat.cancelIn o' reason f') :=
  ⟨h.status Iff.rfl, hf.withTape (hf.tape.mark _ _)⟩

/-- The results of the functions that may let an order rest. -/
def TwinEndings (x x' : Option Order × Flat) : Prop :=
  Option.Rel Order.Twin x.1 x'.1 ∧ x.2.Twin x'.2

/-- What is left of twins rests or is cancelled for both. -/
theorem twin_dispose (h : o.Twin o') (hf : f.Twin f') (hasTr : Bool) :
    Option.Rel TwinEndings (Flat.dispose o hasTr f) (Flat.dispose o' hasTr f') := by
  have hcancel : ∀ reason, Option.Rel TwinEndings (some ((Flat.cancelIn o reason f).map some id))
      (some ((Flat.cancelIn o' reason f').map some id)) := fun reason =>
    .some ⟨.some (twin_cancelIn h hf reason).1, (twin_cancelIn h hf reason).2⟩
  unfold Flat.dispose
  refine rel_ite (by rw [h.remaining]) (fun _ => .some ⟨.some (h.status Iff.rfl), hf⟩) fun _ => ?_
  rw [h.timeInForce]
  cases o.timeInForce with
  | IOC => exact hcancel _
  | FOK => exact .none
  | _ =>
    refine rel_ite (by rw [h.orderType]) (fun _ => hcancel _) fun _ => .some ⟨.none, ?_⟩
    exact twin_rest h hf Iff.rfl

/-- Twins that are done with leave nothing in which the engines differ. -/
theorem twin_finish {x x' : Option Order} (h : Option.Rel Order.Twin x x') (hf : f.Twin f') :
    (Flat.finish x f).Twin (Flat.finish x' f') := by
  cases h with
  | none => exact hf
  | some h => exact hf.withTape (hf.tape.mark _ _)

/-- Twins are killed in twin engines. -/
theorem twin_kill (h : o.Twin o') (hf : f.Twin f') (reason : String) :
    (Flat.kill o reason f).Twin (Flat.kill o' reason f') :=
  twin_finish (.some (twin_cancelIn h hf reason).1) (twin_cancelIn h hf reason).2

/-- What matching leaves of twins is settled alike. -/
theorem twin_settle (h : o.Twin o') (hf : f.Twin f') (hasTr : Bool) :
    Option.Rel TwinEndings (Flat.settle o hasTr f) (Flat.settle o' hasTr f') :=
  rel_ite (not_congr h.cancelled) (fun _ => twin_dispose h hf hasTr) fun _ => .some ⟨.some h, hf⟩

/-! ## The cascade -/

/-- A function that keeps twins in the same places. -/
def Flat.Twin.Kept (g : Flat → Option Flat) : Prop :=
  ∀ {f f' : Flat}, f.Twin f' → Option.Rel Flat.Twin (g f) (g f')

/-- Twin tapes hold the same trades. -/
theorem Tape.Twin.trades (h : t.Twin t') : t'.trades = t.trades := by
  obtain ⟨_, rfl⟩ := h
  rfl

/-- The same trades are reported, and each is followed by the same evaluation. -/
theorem twin_emitLoop {eval : ℤ → ℕ → Flat → Option Flat} (he : ∀ px d, Flat.Twin.Kept (eval px d))
    (depth : ℕ) : ∀ n i, Flat.Twin.Kept (Flat.emitLoop eval depth n i) := by
  intro n
  induction n with
  | zero => exact fun i f f' hf => .some hf
  | succ n ih =>
    intro i f f' hf
    unfold Flat.emitLoop
    rw [hf.tape.trades]
    cases f.tape.trades[i]? with
    | none => exact .none
    | some x =>
      dsimp only
      -- The report writes the same values into both.
      have hf : (f.withTape
            { f.tape.event (.onTrade x) with lastPx := x.price, lastDepth := depth }).Twin
          (f'.withTape
            { f'.tape.event (.onTrade x) with lastPx := x.price, lastDepth := depth }) := by
        refine hf.withTape ?_
        obtain ⟨l, ht⟩ := hf.tape
        rw [ht]
        exact ⟨_, rfl⟩
      -- The evaluation is made in both, or in neither.
      have heval := rel_ite (R := Flat.Twin) (c := depth < maxCascade) Iff.rfl
        (fun _ => he x.price depth hf) fun _ => .some hf
      revert heval
      generalize (if depth < maxCascade then _ else _ : Option Flat) = y
      generalize (if depth < maxCascade then _ else _ : Option Flat) = y'
      intro heval
      cases heval with
      | none => exact .none
      | some h => exact ih (i + 1) h

/-- The reports of one match leave twin engines. -/
theorem twin_emitAndTrigger {eval : ℤ → ℕ → Flat → Option Flat}
    (he : ∀ px d, Flat.Twin.Kept (eval px d)) (start depth : ℕ) :
    Flat.Twin.Kept (Flat.emitAndTrigger eval start depth) := by
  intro f f' hf
  unfold Flat.emitAndTrigger
  rw [hf.tape.trades]
  exact twin_emitLoop he depth _ _ hf

/-- A function on an order and an engine that keeps twins in the same places. -/
def Order.Twin.Kept (g : Order → ℕ → Flat → Option Flat) : Prop :=
  ∀ {o o' : Order}, o.Twin o' → ∀ d {f f' : Flat}, f.Twin f' →
    Option.Rel Flat.Twin (g o d f) (g o' d f')

/-- The same stops go through the pipeline of both engines. -/
theorem twin_activate {active : Order → ℕ → Flat → Option Flat} (ha : Order.Twin.Kept active)
    (d : ℕ) : ∀ os, Flat.Twin.Kept (Flat.activate active d os) := by
  intro os
  induction os with
  | nil => exact fun hf => .some hf
  | cons o os ih =>
    intro f f' hf
    unfold Flat.activate
    -- The stops are the same, so the triggered orders are.
    have htape : (Flat.trigger o f.tape).2.Twin (Flat.trigger o f'.tape).2 := hf.tape.mark _ _
    have hactive := ha (.refl (Flat.trigger o f.tape).1) (d + 1) (hf.withTape htape)
    revert hactive
    change Option.Rel Flat.Twin _ (active (Flat.trigger o f'.tape).1 _ _) → _
    generalize active (Flat.trigger o f.tape).1 (d + 1) _ = y
    generalize active (Flat.trigger o f'.tape).1 (d + 1) _ = y'
    intro hactive
    cases hactive with
    | none => exact .none
    | some h => exact ih h

/-- The same stops are triggered in both engines, since they are the same orders and not only twins.
-/
theorem twin_evalStops {active : Order → ℕ → Flat → Option Flat} (ha : Order.Twin.Kept active)
    (px : ℤ) (d : ℕ) : Flat.Twin.Kept (Flat.evalStops S active px d) := by
  intro f f' hf
  unfold Flat.evalStops
  rw [hf.stops]
  cases takeOut (fires px) (f.stops.length + 1) 0 f.stops [] with
  | none => exact .none
  | some r => exact twin_activate ha d _ ⟨hf.bids, hf.asks, rfl, hf.tape⟩

/-! ## The pipeline -/

/-- Twins cross together. -/
theorem twin_wouldCross (h : o.Twin o') (hf : f.Twin f') :
    Flat.wouldCross o' f' = Flat.wouldCross o f := by
  have hbids := hf.bids
  have hasks := hf.asks
  unfold Flat.wouldCross
  rw [h.side, h.price]
  cases o.side with
  | BUY =>
    revert hasks
    generalize f.asks = m
    generalize f'.asks = m'
    intro hm
    cases hm with
    | nil => rfl
    | cons hl _ =>
      dsimp only
      rw [hl.1]
  | SELL =>
    revert hbids
    generalize f.bids = m
    generalize f'.bids = m'
    intro hm
    cases hm with
    | nil => rfl
    | cons hl _ =>
      dsimp only
      rw [hl.1]

/-- Twins can have the same of a queue. -/
theorem twin_availQueue (h : o.Twin o') (thresh : ℤ) (hq : List.Forall₂ Order.Twin q q') : ∀ avail,
    Flat.availQueue o' thresh q' avail = Flat.availQueue o thresh q avail := by
  induction hq with
  | nil => exact fun _ => rfl
  | cons hr _ ih =>
    intro avail
    unfold Flat.availQueue
    simp only [h.conflict hr, hr.visible, ih]

/-- Twins can have the same of the levels. -/
theorem twin_availLevels (h : o.Twin o') (thresh : ℤ) (hm : Levels.Twin m m') : ∀ avail,
    Flat.availLevels o' thresh m' avail = Flat.availLevels o thresh m avail := by
  induction hm with
  | nil => exact fun _ => rfl
  | cons hl _ ih =>
    intro avail
    unfold Flat.availLevels
    rw [h.canMatch, ← hl.1, twin_availQueue h thresh hl.2]
    simp only [ih]

/-- Twins that are fill-or-kill ask for the same quantity, so they pass together. -/
theorem twin_fokCheck (h : o.Twin o') (hf : f.Twin f') (hfok : o.timeInForce = .FOK) :
    Flat.fokCheck o' f' = Flat.fokCheck o f := by
  have hquantity : o'.quantity = o.quantity := by
    obtain ⟨_, _, _, rfl, -, hq⟩ := h
    exact hq hfok
  unfold Flat.fokCheck
  rw [h.side, hquantity, twin_availLevels h _ (hf.side _)]

/-- Twins pass the check of the minimum together. -/
theorem twin_minQtyCheck (h : o.Twin o') (hf : f.Twin f') :
    Flat.minQtyCheck o' f' = Flat.minQtyCheck o f := by
  unfold Flat.minQtyCheck
  rw [h.side, h.minQty, twin_availLevels h _ (hf.side _)]

/-- Twins are repriced to the same price. -/
theorem twin_reprice (h : o.Twin o') (hf : f.Twin f') :
    Option.Rel TwinResults (Flat.reprice o f) (Flat.reprice o' f') := by
  have hside := hf.side (oppositeSide o.side)
  have htick : f'.tape.tickSz = f.tape.tickSz := by
    obtain ⟨l, ht⟩ := hf.tape
    rw [ht]
  unfold Flat.reprice
  rw [h.side, htick]
  revert hside
  generalize f.side (oppositeSide o.side) = m
  generalize f'.side (oppositeSide o.side) = m'
  intro hm
  cases hm with
  | nil => exact .none
  | @cons l l' m m' hl hm =>
    dsimp only
    rw [← hl.1]
    refine .some ⟨?_, hf.withTape (hf.tape.mark _ _)⟩
    obtain ⟨q, p, st, rfl, hst, hq⟩ := h
    exact ⟨q, p, st, rfl, hst, hq⟩

/-- Post-only twins fare alike. -/
theorem twin_postOnlyPhase (h : o.Twin o') (hf : f.Twin f') :
    Option.Rel Flat.Twin (Flat.postOnlyPhase o f) (Flat.postOnlyPhase o' f') := by
  have hpol : f'.tape.poPol = f.tape.poPol := by
    obtain ⟨l, ht⟩ := hf.tape
    rw [ht]
  unfold Flat.postOnlyPhase
  refine rel_ite (by rw [twin_wouldCross h hf]) (fun _ => ?_) fun _ =>
    .some (twin_rest h hf Iff.rfl)
  refine rel_ite (by rw [hpol]) (fun _ => .some (twin_kill h hf _)) fun _ => ?_
  exact rel_map (twin_reprice h hf) fun x x' hx => twin_rest hx.1 hx.2 Iff.rfl

/-- What is left of market-to-limit twins becomes a limit order for both. -/
theorem twin_toLimit (ts : ℕ) (h : o.Twin o') (hf : f.Twin f') :
    Option.Rel TwinEndings (Flat.toLimit ts o f) (Flat.toLimit ts o' f') := by
  unfold Flat.toLimit
  rw [hf.tape.trades]
  cases f.tape.trades[ts]? with
  | none => exact .none
  | some x =>
    refine rel_bind (R := TwinResults) ?_ fun y y' hy => twin_settle hy.1 hy.2 true
    have hlimit : { o with
        price := x.price
        orderType := .LIMIT
        minQty := if 0 < o.minQty then 0 else o.minQty }.Twin { o' with
        price := x.price
        orderType := .LIMIT
        minQty := if 0 < o'.minQty then 0 else o'.minQty } := by
      obtain ⟨q, p, st, rfl, hst, hq⟩ := h
      exact ⟨q, p, st, rfl, hst, hq⟩
    refine rel_ite ?_ (fun _ => twin_matchOrd hlimit hf) fun _ => .some ⟨hlimit, hf⟩
    exact and_congr (by rw [h.remaining]) (not_congr h.cancelled)

/-- Twins of the other types fare alike. -/
theorem twin_matchPlain (ts : ℕ) (h : o.Twin o') (hf : f.Twin f') :
    Option.Rel TwinEndings (Flat.matchPlain ts o f) (Flat.matchPlain ts o' f') := by
  unfold Flat.matchPlain
  refine rel_bind (twin_matchOrd h hf) fun x x' hx => ?_
  dsimp only
  rw [hx.2.tape.trades]
  refine twin_settle ?_ hx.2 _
  obtain ⟨q, p, st, hx', hst, hq⟩ := hx.1
  rw [hx']
  exact ⟨q, p, st, rfl, hst, hq⟩

/-- `emitAndTrigger` as a parameter keeps twins in the same places. -/
def Flat.Twin.Emits (g : ℕ → ℕ → Flat → Option Flat) : Prop := ∀ ts d, Flat.Twin.Kept (g ts d)

/-- The phase that matches keeps engines twins. -/
theorem twin_matchPhase {emit : ℕ → ℕ → Flat → Option Flat} (he : Flat.Twin.Emits emit) :
    Order.Twin.Kept (Flat.matchPhase emit) := by
  intro o o' h d f f' hf
  have hlast : ∀ {x x' : Option (Option Order × Flat)} (ts : ℕ), Option.Rel TwinEndings x x' →
      Option.Rel Flat.Twin (x.bind fun y => (emit ts d y.2).bind fun g => some (Flat.finish y.1 g))
        (x'.bind fun y => (emit ts d y.2).bind fun g => some (Flat.finish y.1 g)) := fun ts hx =>
    rel_bind hx fun y y' hy => rel_bind (he ts d hy.2) fun g g' hg => .some (twin_finish hy.1 hg)
  unfold Flat.matchPhase
  dsimp only
  rw [hf.tape.trades]
  refine rel_ite (by rw [h.orderType]) (fun _ => ?_) fun _ => hlast _ (twin_matchPlain _ h hf)
  refine rel_bind (twin_matchOrd h hf) fun x x' hx => ?_
  refine rel_ite (by rw [hx.2.tape.trades]) (fun _ => ?_) fun _ => ?_
  · exact hlast _ (twin_toLimit _ hx.1 hx.2)
  · exact .some (twin_kill hx.1 hx.2 _)

/-- `processActive` does not tell twins apart, once its reports do not. -/
theorem twin_processActiveWith {emit : ℕ → ℕ → Flat → Option Flat} (he : Flat.Twin.Emits emit) :
    Order.Twin.Kept (Flat.processActiveWith emit) := by
  intro o o' h d f f' hf
  unfold Flat.processActiveWith
  refine rel_ite (by rw [h.postOnly]) (fun _ => twin_postOnlyPhase h hf) fun _ => ?_
  refine rel_ite ?_ (fun _ => .some (twin_kill h hf _)) fun _ => ?_
  · rw [h.timeInForce]
    exact and_congr_right fun hfok => by rw [twin_fokCheck h hf hfok]
  · refine rel_ite ?_ (fun _ => .some (twin_kill h hf _)) fun _ => twin_matchPhase he h d hf
    rw [h.minQty, twin_minQtyCheck h hf]

/-- `processActive` does not tell twins apart, at any depth. The induction is on the number of
cascades that may still follow. -/
theorem twin_processActiveIn (S : StdSort) : ∀ n, Order.Twin.Kept (Flat.processActiveIn S n) := by
  intro n
  induction n with
  | zero => exact fun _ _ _ _ _ => .none
  | succ n ih =>
    exact twin_processActiveWith fun ts d =>
      twin_emitAndTrigger (fun px d => twin_evalStops ih px d) ts d

end Twins

end MatchingEngine.Cpp
