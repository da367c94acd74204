import MatchingEngine.Cpp.Quantity
import MatchingEngine.Cpp.Totality

/-!
# How orders end

An order that the engine has was neither cancelled nor expired, and one that has left was reduced to
nothing or was cancelled or expired once. It is so in every run in which no market-to-limit order is
cancelled by its self-trade policy before it has traded: the engine cancels such an order a second
time.

`endings` counts the entries of the history by which an order ended since it was accepted, and
`Concluded` says how many there are in each phase of a life (`Life.concluded`). The exception is a
market-to-limit order that its own policy cancels before it has traded: `Thwarted` says of the state
before the call that such an order would come upon an order of its own group first (`meetsOwn`).
-/

namespace MatchingEngine.Cpp

open Lib

/-- Whether an entry tells that an order of the id was cancelled or has expired. -/
def Mark.ends (id : UInt64) : Mark → Bool
  | .event (.onOrderCancelled o _) => o.id = id
  | .event (.onOrderExpired o) => o.id = id
  | _ => false

/-- How often a history tells that the order of an id was cancelled or has expired, since its
acceptance. -/
def endings (id : UInt64) (log : List Mark) : ℕ := (since (·.accepts id) log).countP (·.ends id)

/-- The endings of an order are counted in its story. -/
theorem countP_story (id : UInt64) (log : List Mark) :
    (story id log).countP (·.ends id) = endings id log := by
  unfold endings story
  rw [List.countP_filter]
  refine congrArg (List.countP · _) (funext fun m => ?_)
  cases m with
  | event e =>
    cases e with
    | onOrderCancelled o reason => exact Bool.and_self _
    | onOrderExpired o => exact Bool.and_self _
    | _ => exact Bool.false_and _
  | _ => exact Bool.false_and _

section Life

open Flat

variable {X : Special → Prop} {told new : List Mark} {ph ph' : Phase} {o o' : Order}

/-- What the number of cancellations and expiries in the story of an order is in each phase. -/
def Concluded (n : ℕ) (o : Order) : Phase → Prop
  | .resting => n = 0 ∧ (o.status = .NEW ∨ o.status = .PARTIALLY_FILLED)
  | .dormant => n = 0 ∧ o.status = .NEW
  | .gone => n = 1 ∨ n = 0 ∧ o.remainingQty = 0
  | .flying => (o.status ≠ .CANCELLED → n = 0) ∧ (o.status = .FILLED → o.remainingQty = 0) ∧
      (o.orderType.isStop = true → o.status ≠ .CANCELLED) ∧
      (o.status = .CANCELLED → n = 0 ∧ o.remainingQty = 0 ∨
        n = 1 ∧ (o.orderType = .MARKET_TO_LIMIT → o.stpPolicy ≠ .DECREMENT))

/-- An order in flight that was not cancelled. -/
theorem Concluded.open (hst : o.status ≠ .CANCELLED) (hfil : o.status = .FILLED → o.remainingQty = 0) :
    Concluded 0 o .flying :=
  ⟨fun _ => rfl, hfil, fun _ => hst, fun h => absurd h hst⟩

/-- A change in the life of an order concludes it at most once, if no order is cancelled again. -/
theorem Life.concluded (hl : Life X told ph o new ph' o') (hX : ¬ X .recancel) {n : ℕ}
    (h : Concluded n o ph) : Concluded (n + new.countP (·.ends o.id)) o' ph' := by
  have hone : ∀ {m : Mark}, m.ends o.id = true → [m].countP (·.ends o.id) = 1 := fun hm => by
    rw [List.countP_singleton, if_pos hm]
  have htwo : ∀ {m : Mark} (o' : Order), m.ends o.id = true →
      [m, .left o'].countP (·.ends o.id) = 1 := fun _ hm => by
    rw [List.countP_cons_of_pos hm]
    rfl
  have hcancelled : ∀ reason,
      (Mark.event (.onOrderCancelled (o.withStatus .CANCELLED) reason)).ends o.id = true :=
    fun _ => decide_eq_true rfl
  have hexpired : (Mark.event (.onOrderExpired (o.withStatus .EXPIRED))).ends o.id = true :=
    decide_eq_true rfl
  -- One case for each change. Where the order is not cancelled yet `n` is zero, and the entry adds
  -- at most one.
  cases hl with
  | takes hd hst hstop =>
    obtain rfl := h.1 hst
    refine .open hst fun hf => ?_
    have hz := h.2.1 hf
    have hq := hd.quantity ▸ hd.positive
    omega
  | makesReload now hd hr => exact ⟨h.1, h.2⟩
  | makesPart hd hrem => exact ⟨h.1, .inr rfl⟩
  | makesAll hd hrem => exact .inr ⟨h.1, hrem⟩
  -- A decrement that leaves nothing cancels the incoming order without an entry that ends it.
  | decrements hpol hq hle hne hst hstop =>
    rename_i r' q
    obtain rfl := h.1 hst
    by_cases hz : o.remainingQty - q = 0
    · exact ⟨fun _ => rfl, fun _ => hz, fun hs => absurd (hs.symm.trans hstop) nofun,
        fun _ => .inl ⟨rfl, hz⟩⟩
    · have hsame : (lessIncoming o q).status = o.status := if_neg hz
      refine .open (by rwa [hsame]) fun hf => ?_
      have hnone := h.2.1 (hsame.symm.trans hf)
      omega
  | decrementedReload now hne hrem hr =>
    rename_i q
    have hsame : (lessResting o q).status = o.status := if_neg hrem
    exact ⟨h.1, hsame.symm ▸ h.2⟩
  | decrementedPart hne hrem =>
    rename_i q
    have hsame : (lessResting o q).status = o.status := if_neg hrem
    exact ⟨h.1, hsame.symm ▸ h.2⟩
  | decrementedAll hne hrem => exact .inr ⟨h.1, hrem⟩
  | withdraws reason hpol hst hstop =>
    obtain rfl := h.1 hst
    rw [hone (hcancelled reason)]
    exact ⟨fun hs => absurd rfl hs, nofun, fun hs => absurd (hs.symm.trans hstop) nofun,
      fun _ => .inr ⟨rfl, fun _ => hpol⟩⟩
  | withdrawn reason =>
    obtain rfl := h.1
    rw [htwo _ (hcancelled reason)]
    exact .inl rfl
  | fills hrem hst =>
    obtain rfl := h.1 hst
    exact .open nofun fun _ => hrem
  | cancels reason hst htype hstop =>
    obtain rfl := h.1 hst
    rw [hone (hcancelled reason)]
    exact ⟨fun hs => absurd rfl hs, nofun, fun hs => absurd (hs.symm.trans hstop) nofun,
      fun _ => .inr ⟨rfl, fun ht => absurd ht htype⟩⟩
  | killed reason hst =>
    obtain rfl := h.1 hst
    rw [htwo _ (hcancelled reason)]
    exact .inl rfl
  -- The change that `hX` excludes is the one that would count a second end.
  | killedAgain reason htype hst hpol =>
    rw [htwo _ (hcancelled reason)]
    rcases h.2.2.2 hst with ⟨rfl, -⟩ | ⟨-, hne⟩
    · exact .inl rfl
    · exact absurd (hpol.resolve_right hX) (hne htype)
  -- The order has been filled or cancelled before, which `Concluded` has counted.
  | leaves hst =>
    rcases hst with hst | hst
    · obtain rfl := h.1 (by rw [hst]; decide)
      exact .inr ⟨rfl, h.2.1 hst⟩
    · rcases h.2.2.2 hst with ⟨rfl, hrem⟩ | ⟨rfl, -⟩
      · exact .inr ⟨rfl, hrem⟩
      · exact .inl rfl
  | expires hst =>
    obtain rfl := h.1 hst
    rw [htwo _ hexpired]
    exact .inl rfl
  | rests price hst hold hstop hnew => exact ⟨h.1 hold, hst⟩
  | unlinked =>
    obtain ⟨rfl, hst⟩ := h
    refine .open ?_ ?_
    · rcases hst with hst | hst <;> rw [hst] <;> decide
    · rcases hst with hst | hst <;> rw [hst] <;> nofun
  | parked htype hst => exact ⟨h.1 (by rw [hst]; decide), hst⟩
  | woken =>
    obtain ⟨rfl, hst⟩ := h
    exact .open (by rw [hst]; decide) (by rw [hst]; nofun)
  | triggered htype =>
    obtain rfl := h.1 (h.2.2.1 htype)
    exact .open nofun nofun
  | limited price minQty htype =>
    obtain ⟨hopen, hfil, -, hcan⟩ := h
    exact ⟨hopen, hfil, nofun, fun hs => (hcan hs).imp (fun hx => hx) fun hx => ⟨hx.1, nofun⟩⟩
  | loosened => exact h
  | amended newPx newQty now hamend hst =>
    have hne : o.status ≠ .CANCELLED := open_ne hst
    obtain rfl := h.1 hne
    refine .open hne fun hf => ?_
    rw [show o.status = .FILLED from hf] at hst
    cases hst
  | shrunk newQty hamend => exact h

/-- In its whole life an order is concluded at most once. -/
theorem Lives.concluded (h : Lives X told ph o) (hX : ¬ X .recancel) :
    Concluded (told.countP (·.ends o.id)) o ph := by
  induction h with
  | accepted i now hv => exact .open nofun nofun
  | next h hl ih =>
    rw [hl.id, List.countP_append]
    exact hl.concluded hX ih

end Life

/-- Whether the self-trade policy of an order cancels it. -/
def STPPolicy.withdraws : STPPolicy → Bool
  | .CANCEL_NEWEST | .CANCEL_BOTH => true
  | _ => false

namespace Flat

/-- Whether the first order that an incoming order comes upon is of its own group. -/
def meetsOwn (o : Order) (m : Levels) : Bool :=
  m.head?.any fun l => canMatch o l.1 && l.2.head?.any (stpConflict o)

/-! ## A match without trades that cancels the incoming order -/

/-- The other policies but `DECREMENT` leave the incoming order alone. -/
theorem handleStp_keeps {inc : Order} (rest : Order) (t : Tape) (hpol : inc.stpPolicy.withdraws = false)
    (hdec : inc.stpPolicy ≠ .DECREMENT) : (handleStp inc rest t).1 = inc := by
  unfold handleStp
  cases hp : inc.stpPolicy with
  | CANCEL_OLDEST => rfl
  | NONE => rfl
  | DECREMENT => exact absurd hp hdec
  | _ =>
    rw [hp] at hpol
    cases hpol

/-- A policy that takes nothing from the incoming order leaves its status alone, in one queue. -/
theorem keeps_matchQueue {p : ℤ} {m : Levels} : ∀ n inc q t inc' q' t' ret,
    matchQueue p m n inc q t = some (inc', q', t', ret) → inc.stpPolicy.withdraws = false →
    inc.stpPolicy ≠ .DECREMENT → inc'.status = inc.status ∧ inc'.stpPolicy = inc.stpPolicy := by
  -- Induction on the bound: each turn goes on with a status and a policy as they were.
  intro n
  induction n with
  | zero =>
    intro inc q t inc' q' t' ret h
    unfold matchQueue at h
    cases h
  | succ n ih =>
    intro inc q t inc' q' t' ret h hpol hdec
    unfold matchQueue at h
    split at h
    · cases q with
      | nil =>
        simp only [Option.some.injEq, Prod.mk.injEq] at h
        obtain ⟨rfl, -⟩ := h
        exact ⟨rfl, rfl⟩
      | cons rest q =>
        dsimp only at h
        -- An order of the same group, which the policy withdraws or passes over.
        rw [handleStp_keeps rest t hpol hdec] at h
        split at h
        · split at h
          · simp only [Option.some.injEq, Prod.mk.injEq] at h
            obtain ⟨rfl, -⟩ := h
            exact ⟨rfl, rfl⟩
          · exact ih _ _ _ _ _ _ _ h hpol hdec
        -- A trade changes quantities only.
        · cases hfill : fill ((p, rest :: q) :: m) inc rest t with
          | none =>
            rw [hfill] at h
            cases h
          | some r =>
            rw [hfill] at h
            obtain ⟨halike, hst⟩ := alike_fill hfill
            have hp : r.1.stpPolicy = inc.stpPolicy := by rw [halike]
            rw [← hst, ← hp]
            exact ih _ _ _ _ _ _ _ h (by rwa [hp]) (by rwa [hp])
    · simp only [Option.some.injEq, Prod.mk.injEq] at h
      obtain ⟨rfl, -⟩ := h
      exact ⟨rfl, rfl⟩

/-- A policy that takes nothing from the incoming order leaves its status alone. -/
theorem keeps_matchLevels : ∀ m inc t inc' m' t', matchLevels m inc t = some (inc', m', t') →
    inc.stpPolicy.withdraws = false → inc.stpPolicy ≠ .DECREMENT → inc'.status = inc.status := by
  -- Induction on the levels, with `keeps_matchQueue` for each.
  intro m
  induction m with
  | nil =>
    intro inc t inc' m' t' h _ _
    unfold matchLevels at h
    simp only [Option.some.injEq, Prod.mk.injEq] at h
    rw [h.1]
  | cons l m ih =>
    intro inc t inc' m' t' h hpol hdec
    obtain ⟨p, q⟩ := l
    unfold matchLevels at h
    split at h
    · cases hq : matchQueue p m (inc.remainingQty.toNat + q.length + 1) inc q t with
      | none =>
        rw [hq] at h
        cases h
      | some r =>
        obtain ⟨inc₁, q₁, t₁, ret⟩ := r
        obtain ⟨hst, hp⟩ := keeps_matchQueue _ _ _ _ _ _ _ _ hq hpol hdec
        rw [hq] at h
        cases q₁ with
        | nil =>
          dsimp only at h
          split at h
          · simp only [Option.some.injEq, Prod.mk.injEq] at h
            rw [← h.1, hst]
          · rw [ih _ _ _ _ _ h (by rwa [hp]) (by rwa [hp]), hst]
        | cons o q₁ =>
          simp only [Option.some.injEq, Prod.mk.injEq] at h
          rw [← h.1, hst]
    · simp only [Option.some.injEq, Prod.mk.injEq] at h
      rw [h.1]

/-- A turn with an order that does not conflict makes a trade. -/
theorem conflict_matchQueue {p : ℤ} {m : Levels} {n : ℕ} {inc rest inc' : Order} {q q' : List Order}
    {t t' : Tape} {ret : Bool} (h : matchQueue p m n inc (rest :: q) t = some (inc', q', t', ret))
    (hrem : 0 < inc.remainingQty) (hlen : t'.trades.length ≤ t.trades.length) :
    stpConflict inc rest = true := by
  cases n with
  | zero =>
    unfold matchQueue at h
    cases h
  | succ n =>
    unfold matchQueue at h
    rw [if_pos hrem] at h
    dsimp only at h
    split at h
    · assumption
    -- Otherwise the turn makes a trade, and later turns take none back.
    · cases hfill : fill ((p, rest :: q) :: m) inc rest t with
      | none =>
        rw [hfill] at h
        cases h
      | some r =>
        rw [hfill] at h
        have hle := (adds_matchQueue _ _ _ _ _ _ _ _ h).grows
        rw [length_trades_fill hfill] at hle
        omega

/-- A match that cancels the incoming order and makes no trade begins with an order of its group. -/
theorem meetsOwn_of_cancelled {b : Side} {m m' : Levels} {inc inc' : Order} {t t' : Tape}
    (h : matchLevels m inc t = some (inc', m', t')) (hm : Shelf b m) (hst : inc.status ≠ .CANCELLED)
    (hcan : inc'.status = .CANCELLED) (hlen : t'.trades.length ≤ t.trades.length) :
    meetsOwn inc m = true := by
  -- Without levels nothing cancels it, and with one the first turn is the one that counts.
  cases m with
  | nil =>
    unfold matchLevels at h
    simp only [Option.some.injEq, Prod.mk.injEq] at h
    exact absurd (h.1 ▸ hcan) hst
  | cons l m =>
    obtain ⟨p, q⟩ := l
    unfold matchLevels at h
    split at h
    · rename_i hgo
      cases q with
      | nil => exact absurd rfl (hm.full _ List.mem_cons_self)
      | cons rest q =>
        cases hq : matchQueue p m (inc.remainingQty.toNat + (rest :: q).length + 1) inc
          (rest :: q) t with
        | none =>
          rw [hq] at h
          cases h
        | some r =>
          obtain ⟨inc₁, q₁, t₁, ret⟩ := r
          rw [hq] at h
          -- No trade in the whole match, so none in this queue.
          have hlen₁ : t₁.trades.length ≤ t.trades.length := by
            cases q₁ with
            | nil =>
              dsimp only at h
              split at h
              · simp only [Option.some.injEq, Prod.mk.injEq] at h
                exact h.2.2 ▸ hlen
              · exact (adds_matchLevels _ _ _ _ _ _ h).grows.trans hlen
            | cons o q₁ =>
              simp only [Option.some.injEq, Prod.mk.injEq] at h
              exact h.2.2 ▸ hlen
          exact Bool.and_eq_true_iff.mpr ⟨hgo.2, conflict_matchQueue hq hgo.1 hlen₁⟩
    · simp only [Option.some.injEq, Prod.mk.injEq] at h
      exact absurd (h.1 ▸ hcan) hst

/-- All acts but that a market-to-limit order is cancelled twice. -/
def Once : Special → Prop
  | .recancel => False
  | _ => True

end Flat

/-- Whether `submitOrder` comes to match a market-to-limit order that its self-trade policy cancels
at the first order that it comes upon. -/
def Thwarted (s : Engine) (i : OrderInput) : Prop :=
  i.orderType = .MARKET_TO_LIMIT ∧ i.stpPolicy.withdraws = true ∧
  (s.hasOrder i.id = false ∧ validate (s.now_ + 1) (i.order (s.now_ + 1)) = none) ∧
  (0 < i.minQty → Flat.minQtyCheck (i.order (s.now_ + 1)) s.flat = true) ∧
  Flat.meetsOwn (i.order (s.now_ + 1)) (s.flat.side (oppositeSide i.side)) = true

instance (s : Engine) (i : OrderInput) : Decidable (Thwarted s i) := inferInstanceAs (Decidable (_ ∧ _))

/-- A call that does not submit such an order. -/
def Unthwarted (s : Engine) (c : Call) : Prop := ∀ i, c = .submit i → ¬ Thwarted s i

section Runs

variable {S : StdSort} {pop : PostOnlyPolicy} {tickSz : ℤ} {s : Engine}

/-- A call that thwarts nobody cancels nobody twice. -/
theorem Unthwarted.covers {c : Call} (hs : Reach S pop tickSz s) (hc : Unthwarted s c) :
    Flat.Covers Flat.Once s.flat c := by
  cases c with
  | submit i =>
    -- A second cancellation needs a market-to-limit order that met its own group first, which `hc`
    -- excludes.
    refine ⟨trivial, trivial, fun hadm hstop => ⟨nofun, hstop, fun _ _ _ _ _ => trivial,
      fun htype hdec hmin r hm hcan hno => ?_, .inl trivial, .inr (.inl trivial)⟩⟩
    obtain ⟨⟨o, m, t⟩, hl, rfl⟩ := Option.map_eq_some_iff.mp hm
    have hpol : i.stpPolicy.withdraws = true := by
      by_contra hw
      have hkeeps := Flat.keeps_matchLevels _ _ _ _ _ _ hl (Bool.eq_false_iff.mpr hw) hdec
      exact absurd (hkeeps.symm.trans hcan) nofun
    refine hc i rfl ⟨htype, hpol, (hs.admitted i).mp hadm, hmin, ?_⟩
    exact Flat.meetsOwn_of_cancelled hl (hs.inv.sides _) nofun hcan (Nat.le_of_not_lt hno)
  | amend id newPx newQty =>
    refine ⟨trivial, trivial, trivial, fun b o hl => ?_⟩
    obtain ⟨l, hlm, hol⟩ := Levels.mem_orders.mp (Flat.mem_of_locate hl).1
    have hr := (hs.inv.sides b).rest l hlm o hol
    have hany := hr.ready newPx newQty (s.flat.tape.now + 1) s.flat
    -- An amended order rests, so it is a limit order.
    refine ⟨hany.status, hany.notStop, fun _ _ _ _ _ => trivial, fun htype _ _ _ _ _ _ => ?_,
      .inl trivial, .inr (.inl trivial)⟩
    exact absurd ((show o.orderType = _ from htype).symm.trans hr.type) nofun
  | _ => trivial

/-- In a run in which no market-to-limit order is cancelled by its self-trade policy before it
trades, an order that the engine has was neither cancelled nor has it expired, and one that has left
was reduced to nothing and neither, or it was cancelled or has expired once. -/
theorem completion_reported_once (hs : ReachWhere Unthwarted S pop tickSz s) :
    (∀ o ∈ s.flat.orders, endings o.id s.log = 0) ∧
    ∀ past o later, s.log = past ++ .left o :: later → (∀ m ∈ later, m.accepts o.id = false) →
      endings o.id s.log = 1 ∨ endings o.id s.log = 0 ∧ o.remainingQty = 0 := by
  have hc : Flat.Chronicle Flat.Once (s.flat, []) := hs.chronicle fun _ _ hr hc => hc.covers hr
  refine ⟨fun o ho => ?_, fun past o later he hlater => ?_⟩
  · rcases List.mem_append.mp ho with hb | ho
    · have hl := (hc.here .resting o (Flat.mem_resting.mpr ⟨.BUY, hb⟩)).concluded id
      rw [countP_story] at hl
      exact hl.1
    · rcases List.mem_append.mp ho with ha | ho
      · have hl := (hc.here .resting o (Flat.mem_resting.mpr ⟨.SELL, ha⟩)).concluded id
        rw [countP_story] at hl
        exact hl.1
      · have hl := (hc.here .dormant o ho).concluded id
        rw [countP_story] at hl
        exact hl.1
  · obtain ⟨hlives, hlast⟩ := hc.left past o later he
    have hl := hlives.concluded id
    -- Nothing is written of the order after it has left.
    have hsame : story o.id s.log = story o.id (past ++ [.left o]) := by
      rw [he, List.append_cons, story_append hlater, (hlast hlater).1, List.append_nil]
    rw [← hsame, countP_story] at hl
    exact hl

end Runs

/-- Two orders of a group, of which the second is cancelled when it comes upon the first, and an
order that is filled in parts. -/
def ownGroup : List Call :=
  [.submit { id := 1, side := .SELL, price := 10, quantity := 5, selfTradeGroup := 7,
             stpPolicy := .CANCEL_NEWEST },
    .submit { id := 2, price := 10, quantity := 3, selfTradeGroup := 7, stpPolicy := .CANCEL_NEWEST },
    .submit { id := 3, price := 10, quantity := 5 }]

/-- The state after the calls, where the second order was cancelled once and the others were not. -/
theorem completion_reported_once_ownGroup : ∃ s, ReachWhere Unthwarted .insertion .REJECT 1 s ∧
    [1, 2, 3].map (fun id => endings id s.log) = [0, 1, 0] ∧
    (∀ o ∈ s.flat.orders, endings o.id s.log = 0) ∧
    ∀ past o later, s.log = past ++ .left o :: later → (∀ m ∈ later, m.accepts o.id = false) →
      endings o.id s.log = 1 ∨ endings o.id s.log = 0 ∧ o.remainingQty = 0 := by
  have hsome : ((runAll .insertion ownGroup (.init .REJECT 1)).map fun r =>
      [1, 2, 3].map fun id => endings id r.2.log) = some [0, 1, 0] := by
    decide +kernel
  obtain ⟨⟨_, s⟩, hrun, hval⟩ := Option.map_eq_some_iff.mp hsome
  have hs : ReachWhere Unthwarted .insertion .REJECT 1 s :=
    ReachWhere.init.runAll (fun c hc _ i he hw => by
      subst he
      have htype := hw.1
      simp only [ownGroup, List.mem_cons, Call.submit.injEq, List.not_mem_nil, or_false] at hc
      rcases hc with rfl | rfl | rfl <;> cases htype) hrun
  exact ⟨s, hs, hval, completion_reported_once hs⟩

/-- A market-to-limit order that comes upon an order of its group. -/
def thwarted : List Call :=
  [.submit { id := 1, side := .SELL, price := 10, quantity := 5, selfTradeGroup := 7,
             stpPolicy := .CANCEL_NEWEST },
    .submit { id := 2, orderType := .MARKET_TO_LIMIT, quantity := 3, selfTradeGroup := 7,
              stpPolicy := .CANCEL_NEWEST }]

/-- It is cancelled twice. -/
theorem thwarted_twice : ¬ ∀ s, Reach .insertion .REJECT 1 s →
    ∀ past o later, s.log = past ++ .left o :: later → (∀ m ∈ later, m.accepts o.id = false) →
      endings o.id s.log = 1 ∨ endings o.id s.log = 0 ∧ o.remainingQty = 0 := by
  intro h
  have hsome : ((runAll .insertion thwarted (.init .REJECT 1)).map fun r =>
      (endings 2 r.2.log, r.2.log.getLast?.map fun m => departures [m])) = some (2, some [2]) := by
    decide +kernel
  obtain ⟨⟨_, s⟩, hrun, hval⟩ := Option.map_eq_some_iff.mp hsome
  obtain ⟨htwo, hlast⟩ := Prod.mk.inj hval
  obtain ⟨m, hm, hid⟩ := Option.map_eq_some_iff.mp hlast
  obtain ⟨past, he⟩ := List.getLast?_eq_some_iff.mp hm
  cases m with
  | left o =>
    have hor := h s (Reach.init.runAll hrun) past o [] he (fun _ hm => absurd hm List.not_mem_nil)
    rw [show o.id = 2 from List.head_eq_of_cons_eq hid, show endings 2 s.log = 2 from htwo] at hor
    omega
  | _ => cases hid

end MatchingEngine.Cpp
