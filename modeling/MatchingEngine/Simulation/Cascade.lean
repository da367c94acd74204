import MatchingEngine.Cpp.Limit
import MatchingEngine.Cpp.Sorting
import MatchingEngine.Simulation.Pipeline

/-!
# The stops that trades trigger

The specification follows every cascade to its end, with fuel that is enough for all stops. So does
the C++ engine without `MAX_CASCADE`, and both do the same.

`Simulates` says of a way to process an order that it does what `processOrder` does, on the same
books and with enough fuel. It is carried from an order to the stops that its trades trigger
(`activate_simulates`, `evalStops_simulates`) and to the loop over the trades
(`wholeLoop_simulates`), and then, by induction on the depth, to everything that an order sets off
(`simulates_whole`). The weight of the stops, which is the fuel they may still need, falls with
every stop that is triggered.
-/

namespace MatchingEngine.Simulation

open Cpp (Tape Flat StdSort)
open Spec (BookState)

/-! ## Dormant stops -/

section Stops

variable {S : StdSort} {b : BookState} {f f' : Flat} {o' : Spec.Order} {o : Cpp.Order}
  {os' : List Spec.Order} {os : List Cpp.Order}

/-- The fuel that some stops take. -/
def stopWeight (os : List Spec.Order) : ℕ := (os.map fun o => o.remainingQty + 2).sum

/-- Fewer stops weigh no more. -/
theorem stopWeight_sublist {os os' : List Spec.Order} (h : os.Sublist os') :
    stopWeight os ≤ stopWeight os' := by
  induction h with
  | slnil => exact le_refl 0
  | cons x _ ih => exact ih.trans (Nat.le_add_left _ _)
  | cons_cons x _ ih => exact Nat.add_le_add_left ih _

/-- An order out of some stops that all wake. -/
theorem add_length_le_stopWeight {os : List Spec.Order} {o : Spec.Order} (ho : o ∈ os) :
    o.remainingQty + 2 * os.length ≤ stopWeight os := by
  induction os with
  | nil => cases ho
  | cons x os ih =>
    have hcons : stopWeight (x :: os) = x.remainingQty + 2 + stopWeight os := rfl
    rw [hcons, List.length_cons]
    rcases List.mem_cons.mp ho with rfl | ho
    · have hlen : 2 * os.length ≤ stopWeight os := by
        clear ih hcons ho
        induction os with
        | nil => exact le_refl 0
        | cons y os ih =>
          have hcons : stopWeight (y :: os) = y.remainingQty + 2 + stopWeight os := rfl
          rw [hcons, List.length_cons]
          omega
      omega
    · have hle := ih ho
      omega

/-- The same stops are triggered. -/
theorem Sleeps.fires_eq (h : Sleeps o' o) (px : ℕ) :
    Cpp.fires px o = Spec.shouldTrigger o' (some px) := by
  have hgiven := h.stands.stopPrice
  obtain ⟨sp, hsp⟩ := Option.isSome_iff_exists.mp h.wakes
  rw [hsp] at hgiven
  unfold Cpp.fires Spec.shouldTrigger
  rw [h.stands.side, hgiven.some.1, hsp]
  cases o'.side with
  | buy => exact decide_eq_decide.mpr Int.ofNat_le
  | sell => exact decide_eq_decide.mpr Int.ofNat_le

/-- A triggered stop becomes the same order. -/
theorem Sleeps.trigger (h : Sleeps o' o) (tm : ℕ) (t : Tape) :
    Stands (Spec.convertStop o' tm) (Flat.trigger o t).1 ∧ Fit (Spec.convertStop o' tm) ∧
      (Spec.convertStop o' tm).orderType.isStop = false ∧
      (Spec.convertStop o' tm).remainingQty = o'.remainingQty := by
  obtain ⟨ho, hfit, hstop, hwakes⟩ := h
  have hnone : Given 0 none := ⟨fun hx => (by cases hx), rfl⟩
  have hpo : o'.postOnly = false := by
    refine Bool.eq_false_iff.mpr fun hpo => ?_
    rw [hfit.postOnly hpo] at hstop
    cases hstop
  have htype := ho.type
  have hprice := ho.price
  unfold Spec.convertStop Flat.trigger
  dsimp only
  -- Only the two kinds of stops sleep.
  cases hty : o'.orderType with
  | stopLimit =>
    rw [hty] at htype
    rw [htype, if_pos (by rfl)]
    dsimp only
    refine ⟨⟨ho.id, ho.side, rfl, ho.tif, hprice, hnone, ho.quantity, ho.remaining, ho.minQty,
      ho.display, ho.postOnly, ho.group, ho.policy, ho.paired, ?_, ho.small⟩, ⟨?_, hfit.remaining,
      hfit.qty, hfit.qty_le, hfit.minQty, fun _ => hfit.limit (.inr hty), ?_, fun hf => ?_, ?_⟩,
      rfl, rfl⟩
    · exact iff_of_false (fun hx => by cases hx) fun hx => by cases hx
    · exact fun hx => by cases hx
    · exact fun hx => by cases hx
    · exact ⟨(hfit.fok hf).1, fun hx => by cases hx⟩
    · exact fun _ => rfl
  -- A stop-market order has no price to lose.
  | stopMarket =>
    rw [hty] at htype
    have hzero := hfit.market hty
    rw [hzero] at hprice
    rw [htype, if_neg (fun hx => by cases hx)]
    dsimp only
    refine ⟨⟨ho.id, ho.side, rfl, ho.tif, hprice, hnone, ho.quantity, ho.remaining, ho.minQty,
      ho.display, ho.postOnly, ho.group, ho.policy, ho.paired, ?_, ho.small⟩, ⟨?_, hfit.remaining,
      hfit.qty, hfit.qty_le, hfit.minQty, fun hx => ?_, ?_, fun hf => ?_, fun hx => ?_⟩, rfl, rfl⟩
    · exact iff_of_false (fun hx => by cases hx) fun hx => by cases hx
    · exact fun hx => by cases hx
    · rcases hx with hx | hx <;> cases hx
    · exact fun hx => by cases hx
    · exact ⟨(hfit.fok hf).1, fun hx => by cases hx⟩
    · rw [hpo] at hx
      cases hx
  | limit =>
    rw [hty] at hstop
    cases hstop
  | market =>
    rw [hty] at hstop
    cases hstop
  | marketToLimit =>
    rw [hty] at hstop
    cases hstop

/-- The stops that a test takes out and those that it leaves. -/
theorem Dormant.split (p' : Spec.Order → Bool) {p : Cpp.Order → Bool}
    {r : List Cpp.Order × List Cpp.Order} {n : ℕ} (h : Dormant os' os)
    (hp : ∀ o' o, Sleeps o' o → (p' o' = true ↔ p o = true))
    (hr : Cpp.takeOut p n 0 os [] = some r) :
    List.Forall₂ Sleeps (os'.filter p') (S.sort (·.timestamp) r.1) ∧
      Dormant (os'.filter fun o => ¬ p' o = true) r.2 := by
  obtain ⟨sorted, hperm, hsorted, hos', hrel⟩ := h
  obtain ⟨hout, htaken, hleft⟩ :=
    Flat.taken_takeOut _ _ _ _ _ hr fun j hj => absurd hj (Nat.not_lt_zero j)
  rw [List.nil_append] at hout
  have htaken : ∀ x ∈ r.1, p x = true := fun x hx =>
    (htaken x hx).resolve_left List.not_mem_nil
  have hnot : ∀ o' o, Sleeps o' o → (decide (¬ p' o' = true) = true ↔ (!p o) = true) := by
    intro o' o ho
    rw [decide_eq_true_iff, hp o' o ho, Bool.not_eq_true', Bool.not_eq_true]
  -- What the loop takes out and what it leaves are the two halves of a filter, in some order.
  have hfirst : (r.1 ++ r.2).filter p = r.1 := by
    have hnone : r.2.filter p = [] :=
      List.filter_eq_nil_iff.mpr fun x hx => Bool.eq_false_iff.mp (hleft x hx)
    rw [List.filter_append, List.filter_eq_self.mpr htaken, hnone, List.append_nil]
  have hlater : ((r.1 ++ r.2).filter fun o => !p o) = r.2 := by
    have hnone : (r.1.filter fun o => !p o) = [] :=
      List.filter_eq_nil_iff.mpr fun x hx => by simp [htaken x hx]
    have hall : (r.2.filter fun o => !p o) = r.2 :=
      List.filter_eq_self.mpr fun x hx => by simp [hleft x hx]
    rw [List.filter_append, hnone, hall, List.nil_append]
  constructor
  -- Sorted by timestamp, the half that is taken out is in the order of the specification.
  · have hperm := (hperm.trans hout).filter p
    rw [hfirst] at hperm
    rw [S.sort_eq hperm (hsorted.filter p)]
    exact List.rel_filter (fun o' o ho => hp o' o ho) hrel
  · have hperm := (hperm.trans hout).filter fun o => !p o
    rw [hlater] at hperm
    exact ⟨sorted.filter fun o => !p o, hperm, hsorted.filter _, hos'.filter _,
      List.rel_filter (fun o' o ho => hnot o' o ho) hrel⟩

/-- Stops weigh what those that fire and those that do not weigh together. -/
theorem stopWeight_filter (p : Spec.Order → Bool) (os : List Spec.Order) :
    stopWeight (os.filter p) + stopWeight (os.filter fun o => ¬ p o = true) = stopWeight os := by
  induction os with
  | nil => rfl
  | cons o os ih =>
    have hcons : ∀ xs, stopWeight (o :: xs) = o.remainingQty + 2 + stopWeight xs := fun _ => rfl
    by_cases hp : p o = true
    · rw [List.filter_cons_of_pos hp, List.filter_cons_of_neg (by simpa using hp), hcons, hcons]
      omega
    · rw [List.filter_cons_of_neg hp, List.filter_cons_of_pos (by simpa using hp), hcons, hcons]
      omega

end Stops

/-! ## An order and all that it triggers -/

/-- The results of some processing. -/
structure Ran (b : BookState) (f : Flat) (out : Spec.ProcessResult) (f' : Flat) : Prop where
  same : Same out.book f'
  lastPx : Given f'.tape.lastPx out.book.lastTradePrice
  executed : (Cpp.executed f'.tape.log).map facts =
    (Cpp.executed f.tape.log).map facts ++ out.trades.map factsOf
  buffer : f.tape.trades <+: f'.tape.trades
  stops : out.book.stops.Sublist b.stops

section Cascade

variable {S : StdSort} {b b' : BookState} {f f₀ f' : Flat} {o' : Spec.Order} {o : Cpp.Order}
  {out : Spec.ProcessResult} {depth fuel : ℕ} {act : Cpp.Order → ℕ → Flat → Option Flat}

/-- Nothing is done. -/
theorem Ran.refl (h : Same b f) (hlast : Given f.tape.lastPx b.lastTradePrice) :
    Ran b f ⟨b, []⟩ f :=
  ⟨h, hlast, (List.append_nil _).symm, List.prefix_rfl, List.Sublist.refl _⟩

/-- One thing after the other. -/
theorem Ran.trans {out' : Spec.ProcessResult} (h : Ran b f out f₀) (h' : Ran out.book f₀ out' f') :
    Ran b f ⟨out'.book, out.trades ++ out'.trades⟩ f' where
  same := h'.same
  lastPx := h'.lastPx
  executed := by rw [h'.executed, h.executed, List.map_append, List.append_assoc]
  buffer := h.buffer.trans h'.buffer
  stops := h'.stops.trans h.stops

/-- What is only noted first. -/
theorem Ran.after {ts : List Cpp.Trade} (h : Ran b' f₀ out f')
    (hts : f₀.tape.trades = f.tape.trades ++ ts)
    (hlog : Cpp.executed f₀.tape.log = Cpp.executed f.tape.log)
    (hstops : b'.stops.Sublist b.stops) : Ran b f out f' where
  same := h.same
  lastPx := h.lastPx
  executed := by rw [h.executed, hlog]
  buffer := (hts ▸ List.prefix_append f.tape.trades ts).trans h.buffer
  stops := h.stops.trans hstops

/-- An order that is not a stop does what the specification says, with all that it triggers. -/
def Simulates (act : Cpp.Order → ℕ → Flat → Option Flat) : Prop :=
  ∀ o' o depth f f' b fuel, act o depth f = some f' → Same b f →
    Given f.tape.lastPx b.lastTradePrice → Stands o' o → Fit o' → o'.orderType.isStop = false →
    o'.remainingQty + stopWeight b.stops < fuel → Ran b f (Spec.processOrder fuel o' b) f'

variable (depth) in
/-- Triggered stops, one after the other. -/
theorem activate_simulates (hact : Simulates act) {os' : List Spec.Order} {os : List Cpp.Order}
    (hos : List.Forall₂ Sleeps os' os) : ∀ b f fuel, Flat.activate act depth os f = some f' →
      Same b f → Given f.tape.lastPx b.lastTradePrice →
      (∀ o ∈ os', o.remainingQty + stopWeight b.stops + os'.length < fuel) →
      Ran b f (Spec.processTriggeredStops fuel os' b) f' := by
  -- Induction on the triggered stops, each of which is processed by `act`.
  induction hos with
  | nil =>
    intro b f fuel hx h hlast _
    cases hx
    have hnil : Spec.processTriggeredStops fuel [] b = ⟨b, []⟩ := by
      cases fuel <;> rfl
    rw [hnil]
    exact .refl h hlast
  | @cons o' o os' os ho _ ih =>
    intro b f fuel hx h hlast hfuel
    have hfirst := hfuel o' List.mem_cons_self
    rw [List.length_cons] at hfuel hfirst
    obtain ⟨fuel, rfl⟩ := Nat.exists_eq_succ_of_ne_zero (Nat.ne_of_gt (Nat.zero_lt_of_lt hfirst))
    unfold Flat.activate at hx
    split at hx
    · cases hx
    · rename_i f₁ hf₁
      obtain ⟨hstands, hfit, hstop, hrem⟩ := ho.trigger b.clock f.tape
      have hnoted : Same { b with clock := b.clock + 1 } (f.withTape (Flat.trigger o f.tape).2) :=
        (h.congr { b with clock := b.clock + 1 } rfl rfl rfl).withTape
          (t := (Flat.trigger o f.tape).2) h.poPol
      have hran := hact _ _ _ _ _ _ fuel hf₁ hnoted hlast hstands hfit hstop (by
          rw [hrem]
          change o'.remainingQty + stopWeight b.stops < fuel
          omega)
      have hran : Ran b f _ f₁ := hran.after (List.append_nil _).symm
        ((Cpp.executed_append _ _).trans (List.append_nil _)) (List.Sublist.refl _)
      -- What the first one leaves is enough fuel for the others.
      refine hran.trans (ih _ _ _ hx hran.same hran.lastPx fun x hx => ?_)
      have hle := stopWeight_sublist hran.stops
      have hx := hfuel x (List.mem_cons_of_mem _ hx)
      omega

/-- The stops that one price triggers. -/
theorem evalStops_simulates (hact : Simulates act) {px : ℕ} (h : Same b f)
    (hlast : Given f.tape.lastPx (some px)) (hfuel : stopWeight b.stops ≤ fuel)
    (hx : Flat.evalStops S act px depth f = some f') :
    let triggered := b.stops.filter fun s => Spec.shouldTrigger s (some px)
    let dormant := b.stops.filter fun s => ¬ Spec.shouldTrigger s (some px) = true
    Ran b f (if triggered.isEmpty then ⟨{ b with lastTradePrice := some px }, []⟩ else
      Spec.processTriggeredStops fuel (triggered.mergeSort fun a c => a.timestamp < c.timestamp)
        { b with stops := dormant, lastTradePrice := some px }) f' := by
  intro triggered dormant
  unfold Flat.evalStops at hx
  split at hx
  · cases hx
  · rename_i r hr
    obtain ⟨hfired, hleft⟩ := h.stops.split (S := S) (fun s => Spec.shouldTrigger s (some px))
      (fun o' o ho => by rw [ho.fires_eq]) hr
    have hsame :
        Same { b with stops := dormant, lastTradePrice := some px } { f with stops := r.2 } :=
      ⟨fun s => by have hs := h.sides s; cases s <;> exact hs,
        fun s => by have hs := h.sorted s; cases s <;> exact hs, hleft, h.poPol⟩
    -- The stops of the specification are already in the order of their timestamps.
    have hsorted : triggered.Pairwise fun a c => decide (a.timestamp < c.timestamp) = true := by
      obtain ⟨_, _, _, hpair, _⟩ := h.stops
      exact (hpair.filter _).imp decide_eq_true
    rw [List.mergeSort_of_pairwise hsorted]
    -- The fuel is measured by the weight of the stops, which the split shares out.
    have hsum : stopWeight triggered + stopWeight dormant = stopWeight b.stops :=
      stopWeight_filter (fun s => Spec.shouldTrigger s (some px)) b.stops
    have hran := activate_simulates depth hact hfired
      { b with stops := dormant, lastTradePrice := some px } { f with stops := r.2 } fuel hx hsame
      hlast fun x hx => by
        have hle : x.remainingQty + 2 * triggered.length ≤ stopWeight triggered :=
          add_length_le_stopWeight hx
        have hpos : 0 < triggered.length := List.length_pos_of_mem hx
        change x.remainingQty + stopWeight dormant + triggered.length < fuel
        omega
    have hran : Ran b f _ f' := hran.after (List.append_nil _).symm rfl List.filter_sublist
    split
    -- No stop triggers, and the specification leaves its list alone.
    · rename_i hnone
      have hnil : triggered = [] := List.isEmpty_iff.mp hnone
      have hall : dormant = b.stops := List.filter_eq_self.mpr fun x hx => by
        have hout := List.filter_eq_nil_iff.mp hnil x hx
        exact decide_eq_true hout
      have hempty : Spec.processTriggeredStops fuel [] { b with
          stops := dormant, lastTradePrice := some px } =
            ⟨{ b with lastTradePrice := some px }, []⟩ := by
        rw [hall]
        cases fuel <;> rfl
      change Ran b f (Spec.processTriggeredStops fuel triggered _) f' at hran
      rw [hnil, hempty] at hran
      exact hran
    · exact hran

variable (depth) in
/-- The stops that some trades trigger, trade by trade. -/
theorem wholeLoop_simulates (hact : Simulates act) : ∀ (new : List Cpp.Trade) (ts : List Spec.Trade)
    (pre post : List Cpp.Trade) (b : BookState) (f f' : Flat) (fuel : ℕ),
    Flat.wholeLoop (Flat.evalStops S act) depth new.length pre.length f = some f' →
    f.tape.trades = pre ++ new ++ post → new.map facts = ts.map factsOf → (∀ t ∈ ts, 0 < t.price) →
    Same b f → (ts = [] → Given f.tape.lastPx b.lastTradePrice) →
    ts.length + stopWeight b.stops ≤ fuel → Ran b f (Spec.processCascade fuel ts b) f' := by
  -- Induction on the trades that are still to be reported.
  intro new
  induction new with
  | nil =>
    intro ts pre post b f f' fuel hx _ hnew _ h hlast _
    have hts : ts = [] := List.map_eq_nil_iff.mp hnew.symm
    subst hts
    have hnil : Spec.processCascade fuel [] b = ⟨b, []⟩ := by
      cases fuel <;> rfl
    rw [hnil]
    cases hx
    exact .refl h (hlast rfl)
  | cons y new ih =>
    intro ts pre post b f f' fuel hx hbuffer hnew hpriced h _ hfuel
    cases ts with
    | nil => cases hnew
    | cons t ts =>
      obtain ⟨hfacts, hnew⟩ := List.cons.inj hnew
      have hprice : y.price = t.price := congrArg Prod.fst hfacts
      obtain ⟨hpos, hpriced⟩ := List.forall_mem_cons.mp hpriced
      rw [List.length_cons] at hfuel
      obtain ⟨fuel, rfl⟩ := Nat.exists_eq_succ_of_ne_zero
        (Nat.ne_of_gt (Nat.lt_of_lt_of_le (Nat.succ_pos _) ((Nat.le_add_right _ _).trans hfuel)))
      -- The trade is read from the buffer, at the place where the loop stands.
      have hget : f.tape.trades[pre.length]? = some y := by
        rw [hbuffer, List.append_assoc, List.getElem?_append_right (le_refl _), Nat.sub_self]
        rfl
      obtain ⟨y', hy', hx⟩ := Option.bind_eq_some_iff.mp hx
      obtain rfl : y = y' := Option.some.inj (hget.symm.trans hy')
      obtain ⟨f₁, hf₁, hx⟩ := Option.bind_eq_some_iff.mp hx
      rw [hprice] at hf₁
      have hnoted : Same b (f.noted y depth) := h.withTape h.poPol
      have hgiven : Given (f.noted y depth).tape.lastPx (some t.price) :=
        ⟨fun h0 => absurd (Option.some.inj h0) (Nat.ne_of_gt hpos), hprice⟩
      have hran := evalStops_simulates hact hnoted hgiven
        (by omega : stopWeight b.stops ≤ fuel) hf₁
      have hran : Ran b f _ f₁ := hran.after (List.append_nil _).symm
        ((Cpp.executed_append _ _).trans (List.append_nil _)) (List.Sublist.refl _)
      obtain ⟨more, hmore⟩ := hran.buffer
      have hle := stopWeight_sublist hran.stops
      -- What the cascade has appended to the buffer comes after the trades of this loop.
      have hlater := ih ts (pre ++ [y]) (post ++ more) _ f₁ f' fuel (by
          rw [List.length_append]
          exact hx) (by
          rw [← hmore, hbuffer]
          simp only [List.append_assoc, List.cons_append, List.nil_append])
        hnew hpriced hran.same (fun _ => hran.lastPx) (by omega)
      have hboth := hran.trans hlater
      unfold Spec.processCascade
      dsimp only at hboth ⊢
      split at hboth
      · rename_i hnone
        rw [if_pos hnone]
        exact hboth
      · rename_i hsome
        rw [if_neg hsome]
        exact hboth

/-- The cascade of the specification, by induction on the depth of the calls of `processActive`. -/
theorem simulates_whole (S : StdSort) : ∀ n, Simulates (Flat.wholeActiveIn S n) := by
  intro n
  induction n with
  | zero =>
    intro o' o depth f f' b fuel hx
    cases hx
  | succ n ih =>
    intro o' o depth f f' b fuel hx h hlast ho hfit hstop hfuel
    obtain ⟨fuel, rfl⟩ := Nat.exists_eq_succ_of_ne_zero (Nat.ne_of_gt (Nat.zero_lt_of_lt hfuel))
    unfold Spec.processOrder
    rw [if_neg (Bool.eq_false_iff.mp hstop)]
    -- Where there are no trades there is no cascade, and the last price stays.
    have hran : ∀ {out : Spec.ProcessResult} {f'}, Same out.book f' → Tells [] f.tape f'.tape →
        out.trades = [] → out.book.stops = b.stops → out.book.lastTradePrice = b.lastTradePrice →
        Ran b f out f' := by
      intro out f' hsame htells hnone hstops hltp
      obtain ⟨new, hnew, -⟩ := htells.buffer
      refine ⟨hsame, ?_, ?_, ?_, ?_⟩
      · rw [htells.lastPx, hltp]
        exact hlast
      · rw [htells.executed, hnone]
      · exact hnew ▸ List.prefix_append _ _
      · exact hstops ▸ List.Sublist.refl _
    -- A post-only order makes no trade, and any other is executed and then cascades.
    cases hpo : o'.postOnly with
    | true =>
      rw [if_pos rfl]
      obtain ⟨hsame, htells⟩ := postOnly_simulates h ho hfit hpo hx
      split
      · rename_i hc
        rw [if_pos hc] at hsame
        exact hran hsame htells rfl rfl rfl
      · rename_i hc
        rw [if_neg hc] at hsame
        refine hran hsame htells rfl ?_ ?_
        · unfold Spec.insertOrder
          cases o'.side <;> rfl
        · unfold Spec.insertOrder
          cases o'.side <;> rfl
    | false =>
      rw [if_neg Bool.false_ne_true]
      obtain ⟨f₁, hown, hend⟩ := execute_simulates h ho hfit hstop hpo hx
      obtain ⟨hsame, htells, hpaid, hstops, hltp⟩ := hown
      generalize Spec.execute o' b = own at hsame htells hpaid hstops hltp hend ⊢
      dsimp only
      -- The order was killed before it could match, or its trades are reported.
      rcases hend with ⟨hnone, rfl⟩ | ⟨d, f₂, hemit, rfl⟩
      · have hnil : Spec.processCascade fuel own.trades own.book = ⟨own.book, []⟩ := by
          rw [hnone]
          cases fuel <;> rfl
        rw [hnone] at hltp htells
        rw [hnil]
        exact hran hsame htells (by rw [hnone]; rfl) hstops hltp
      · obtain ⟨new, hbuffer, hnew⟩ := htells.buffer
        have hcascade := wholeLoop_simulates depth ih new own.trades
          f.tape.trades [] own.book f₁ f₂ fuel (by
            unfold Flat.wholeEmit at hemit
            rwa [hbuffer, List.length_append, Nat.add_sub_cancel_left] at hemit)
          (hbuffer.trans (List.append_nil _).symm) hnew htells.priced hsame (fun hnone => by
            rw [hnone] at hltp
            rw [htells.lastPx, hltp]
            exact hlast) (by rw [hstops]; omega)
        obtain ⟨hsame', hlast', hexec, hprefix, hsub⟩ := hcascade
        -- The departure at the end adds an entry that tells nothing.
        have hfinish : Tells [] f₂.tape (Flat.finish d f₂).tape := by
          cases d with
          | none => exact .refl _
          | some o => exact .mark _ rfl
        refine ⟨?_, ?_, ?_, ?_, hstops ▸ hsub⟩
        · cases d with
          | none => exact hsame'
          | some o => exact hsame'.withTape hsame'.poPol
        · rw [hfinish.lastPx]
          exact hlast'
        · rw [hfinish.executed, hexec, htells.executed, List.map_append, List.map_nil,
            List.append_nil, List.append_assoc]
        · obtain ⟨more, hmore, hnone⟩ := hfinish.buffer
          rw [hmore]
          exact ((hbuffer ▸ List.prefix_append _ _).trans hprefix).trans (List.prefix_append _ _)

end Cascade

end MatchingEngine.Simulation
