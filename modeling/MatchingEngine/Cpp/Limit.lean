import MatchingEngine.Cpp.Reports
import MatchingEngine.Cpp.Totality

/-!
# The limit of the cascade

The engine does not evaluate the stops below `MAX_CASCADE`. `wholeLoop` is its loop over the trades
without this limit. What returns with this loop returns the same with the limit, and where there are
no more dormant stops than the limit, the loop of the code returns what `wholeLoop` does.

`Split` says of a phase that its reports are made by a loop which may be exchanged for another, and
`Few` that with fewer dormant stops than a number the loop of the code does what the one without the
limit does. Each level of the cascade triggers at least one stop, so in `few_wholeActiveIn` the
number of stops goes down as fast as the depth that is left.
-/

namespace MatchingEngine.Cpp

namespace Flat

/-- The state after a trade is reported. -/
def noted (f : Flat) (t : Trade) (depth : ℕ) : Flat :=
  f.withTape { f.tape.event (.onTrade t) with lastPx := t.price, lastDepth := depth }

/-- The loop of `emitAndTrigger` when stops are evaluated at every depth. -/
def wholeLoop (evalStops : ℤ → ℕ → Flat → Option Flat) (depth : ℕ) : ℕ → ℕ → Flat → Option Flat
  | 0, _, f => some f
  | n + 1, i, f => do
    let t ← f.tape.trades[i]?
    let f ← evalStops t.price depth (f.noted t depth)
    wholeLoop evalStops depth n (i + 1) f

/-- `emitAndTrigger` with this loop. -/
def wholeEmit (evalStops : ℤ → ℕ → Flat → Option Flat) (start depth : ℕ) (f : Flat) : Option Flat :=
  wholeLoop evalStops depth (f.tape.trades.length - start) start f

/-- `processActive` with this loop, with at most `n` calls of itself inside each other. -/
def wholeActiveIn (S : StdSort) : ℕ → Order → ℕ → Flat → Option Flat
  | 0 => fun _ _ _ => none
  | n + 1 => processActiveWith (wholeEmit (evalStops S (wholeActiveIn S n)))

/-! ## Where the limit is not reached -/

section Limit

variable {S : StdSort} {f f' : Flat} {o : Order} {depth : ℕ}
  {emit emit' : ℕ → ℕ → Flat → Option Flat}

/-- A match leaves the stops alone. -/
theorem stops_matchOrd {x : Order × Flat} (hx : matchOrd o f = some x) :
    x.2.stops = f.stops := by
  obtain ⟨r, -, rfl⟩ := Option.map_eq_some_iff.mp hx
  exact stops_setSide _ _ _

/-- So does what is done with the rest of an order. -/
theorem stops_settle {hasTr : Bool} {x : Option Order × Flat}
    (hx : settle o hasTr f = some x) : x.2.stops = f.stops := by
  have hrest : ∀ st, (rest o st f).stops = f.stops := fun st => stops_setSide f _ _
  unfold settle dispose at hx
  split at hx
  · split at hx
    · cases hx
      rfl
    · split at hx
      · cases hx
        rfl
      · cases hx
      · split at hx
        · cases hx
          rfl
        · cases hx
          exact hrest _
  · cases hx
    rfl

/-- A market-to-limit order leaves the stops alone until its trades are reported. -/
theorem stops_toLimit {ts : ℕ} {x : Option Order × Flat} (hx : toLimit ts o f = some x) :
    x.2.stops = f.stops := by
  obtain ⟨t, -, hx⟩ := Option.bind_eq_some_iff.mp hx
  obtain ⟨r, hr, hx⟩ := Option.bind_eq_some_iff.mp hx
  refine (stops_settle hx).trans ?_
  dsimp only at hr
  split at hr
  · exact stops_matchOrd hr
  · cases hr
    rfl

/-- So does an order of any other type. -/
theorem stops_matchPlain {ts : ℕ} {x : Option Order × Flat}
    (hx : matchPlain ts o f = some x) : x.2.stops = f.stops := by
  obtain ⟨r, hr, hx⟩ := Option.bind_eq_some_iff.mp hx
  exact (stops_settle hx).trans (stops_matchOrd hr)

/-- `run` comes to its end without the loop over the trades, or the loop starts from a state with
the same stops, and the order leaves after it. -/
def Split (run : (ℕ → ℕ → Flat → Option Flat) → Option Flat) (emit : ℕ → ℕ → Flat → Option Flat)
    (depth : ℕ) (f f' : Flat) : Prop :=
  (f'.stops = f.stops ∧ ∀ emit', run emit' = some f') ∨
  ∃ start d f₁ f₂, f₁.stops = f.stops ∧ emit start depth f₁ = some f₂ ∧ f' = finish d f₂ ∧
    ∀ emit' f₂', emit' start depth f₁ = some f₂' → run emit' = some (finish d f₂')

/-- The phase that matches: matching, and the loop over the trades if it is not cut short before. -/
theorem matchPhase_split (hx : matchPhase emit o depth f = some f') :
    Split (fun e => matchPhase e o depth f) emit depth f f' := by
  unfold matchPhase at hx
  dsimp only at hx
  by_cases htype : o.orderType = .MARKET_TO_LIMIT
  · rw [if_pos htype] at hx
    obtain ⟨r, hr, hx⟩ := Option.bind_eq_some_iff.mp hx
    -- The phase without its reports, which do not depend on the loop.
    have hrun : ∀ e, matchPhase e o depth f =
        (if f.tape.trades.length < r.2.tape.trades.length then
          (toLimit f.tape.trades.length r.1 r.2).bind fun d =>
          (e f.tape.trades.length depth d.2).bind fun f => some (finish d.1 f)
        else some (kill r.1 "MTL_NO_LIQUIDITY" r.2)) := fun e => by
      unfold matchPhase
      dsimp only
      rw [if_pos htype, hr]
      rfl
    split at hx
    · rename_i htraded
      obtain ⟨d, hd, hx⟩ := Option.bind_eq_some_iff.mp hx
      obtain ⟨f₂, hemit, hx⟩ := Option.bind_eq_some_iff.mp hx
      refine .inr ⟨_, d.1, d.2, f₂, (stops_toLimit hd).trans (stops_matchOrd hr), hemit,
        (Option.some.inj hx).symm, fun emit' f₂' hemit' => ?_⟩
      dsimp only
      rw [hrun, if_pos htraded, hd, Option.bind_some, hemit', Option.bind_some]
    · rename_i htraded
      cases hx
      refine .inl ⟨stops_matchOrd (x := r) hr, fun e => ?_⟩
      dsimp only
      -- No trade, no loop.
      rw [hrun, if_neg htraded]
  · rw [if_neg htype] at hx
    obtain ⟨d, hd, hx⟩ := Option.bind_eq_some_iff.mp hx
    obtain ⟨f₂, hemit, hx⟩ := Option.bind_eq_some_iff.mp hx
    refine .inr ⟨_, d.1, d.2, f₂, stops_matchPlain hd, hemit, (Option.some.inj hx).symm,
      fun emit' f₂' hemit' => ?_⟩
    unfold matchPhase
    dsimp only
    rw [if_neg htype, hd]
    exact Option.bind_eq_some_iff.mpr ⟨d, rfl, Option.bind_eq_some_iff.mpr ⟨f₂', hemit', rfl⟩⟩

/-- `processActive`: some phase ends it, or the loop over the trades runs. -/
theorem processActiveWith_split (hx : processActiveWith emit o depth f = some f') :
    Split (fun e => processActiveWith e o depth f) emit depth f f' := by
  unfold processActiveWith at hx ⊢
  split at hx
  · rename_i hpo
    simp only [if_pos hpo]
    refine .inl ⟨?_, fun _ => hx⟩
    unfold postOnlyPhase at hx
    split at hx
    · split at hx
      · cases hx
        rfl
      · obtain ⟨⟨o₁, f₁⟩, hr, rfl⟩ := Option.map_eq_some_iff.mp hx
        unfold reprice at hr
        split at hr
        · cases hr
        · cases hr
          exact stops_setSide (f.withTape _) _ _
    · cases hx
      exact stops_setSide f _ _
  · rename_i hpo
    simp only [if_neg hpo]
    split at hx
    -- Killed before the match, whatever the loop would do.
    · rename_i hfok
      simp only [if_pos hfok]
      cases hx
      exact .inl ⟨rfl, fun _ => rfl⟩
    · rename_i hfok
      simp only [if_neg hfok]
      split at hx
      · rename_i hmin
        simp only [if_pos hmin]
        cases hx
        exact .inl ⟨rfl, fun _ => rfl⟩
      · rename_i hmin
        simp only [if_neg hmin]
        exact matchPhase_split hx

/-- `processActive` returns the same with a loop that returns the same. -/
theorem processActiveWith_of
    (h : ∀ start f f', emit start depth f = some f' → emit' start depth f = some f')
    (hx : processActiveWith emit o depth f = some f') :
    processActiveWith emit' o depth f = some f' := by
  rcases processActiveWith_split hx with ⟨-, hall⟩ | ⟨start, d, f₁, f₂, -, hemit, rfl, hall⟩
  · exact hall emit'
  · exact hall emit' f₂ (h _ _ _ hemit)

/-- The turns of the stops return the same with a pipeline that returns the same. -/
theorem activate_of {act act' : Order → ℕ → Flat → Option Flat}
    (h : ∀ o f f', act o (depth + 1) f = some f' → act' o (depth + 1) f = some f') : ∀ os f f',
    activate act depth os f = some f' → activate act' depth os f = some f' := by
  intro os
  induction os with
  | nil => exact fun _ _ hx => hx
  | cons o os ih =>
    intro f f' hx
    unfold activate at hx ⊢
    split at hx
    · cases hx
    · rename_i f₁ hf₁
      rw [h _ _ _ hf₁]
      exact ih _ _ hx

/-- The evaluation of the stops returns the same with a pipeline that returns the same. -/
theorem evalStops_of {act act' : Order → ℕ → Flat → Option Flat} {px : ℤ}
    (h : ∀ o f f', act o (depth + 1) f = some f' → act' o (depth + 1) f = some f')
    (hx : evalStops S act px depth f = some f') :
    evalStops S act' px depth f = some f' := by
  unfold evalStops at hx ⊢
  split at hx
  · cases hx
  · exact activate_of h _ _ _ hx

/-- A scan of stops none of which fires takes none out. -/
theorem takeOut_nothing {α : Type} {p : α → Bool} {v : List α} (h : ∀ x ∈ v, p x = false) :
    ∀ n i out r, takeOut p n i v out = some r → r = (out, v) := by
  intro n
  induction n with
  | zero =>
    intro i out r hx
    cases hx
  | succ n ih =>
    intro i out r hx
    unfold takeOut at hx
    cases hv : v[i]? with
    | none =>
      rw [hv] at hx
      exact (Option.some.inj hx).symm
    | some x =>
      rw [hv] at hx
      dsimp only at hx
      rw [if_neg (Bool.eq_false_iff.mp (h x (List.mem_of_getElem? hv)))] at hx
      exact ih _ _ _ hx

/-- Where no stop may be triggered, none is evaluated. -/
theorem evalStops_deepest {px : ℤ}
    (hx : evalStops S (fun _ _ _ => none) px depth f = some f') : f' = f := by
  unfold evalStops at hx
  split at hx
  · cases hx
  · rename_i r hr
    have htaken := taken_takeOut _ _ _ _ _ hr (fun j hj => absurd hj (Nat.not_lt_zero j))
    have hperm := perm_sort S (·.timestamp) r.1
    cases hs : S.sort (·.timestamp) r.1 with
    -- Nothing fires, so the scan takes nothing out.
    | nil =>
      rw [hs] at hx hperm
      have hnil : r.1 = [] := hperm.nil_eq.symm
      have hnone : ∀ x ∈ f.stops, fires px x = false := fun x hx => by
        have hmem := htaken.perm.mem_iff.mp hx
        rw [hnil] at hmem
        exact htaken.left x hmem
      rw [takeOut_nothing hnone _ _ _ _ hr] at hx
      exact (Option.some.inj hx).symm
    -- A stop that fires would have to be triggered.
    | cons o os =>
      rw [hs] at hx
      cases hx

/-- A turn of the loop of the code. -/
theorem emitLoop_succ {eval : ℤ → ℕ → Flat → Option Flat} {n i : ℕ} :
    emitLoop eval depth (n + 1) i f = some f' ↔ ∃ t f₁, f.tape.trades[i]? = some t ∧
      (if depth < maxCascade then eval t.price depth (f.noted t depth)
        else some (f.noted t depth)) = some f₁ ∧ emitLoop eval depth n (i + 1) f₁ = some f' := by
  constructor
  · intro hx
    unfold emitLoop at hx
    split at hx
    · cases hx
    · rename_i t ht
      dsimp only at hx
      split at hx
      · cases hx
      · rename_i f₁ hf₁
        exact ⟨t, f₁, ht, hf₁, hx⟩
  · rintro ⟨t, f₁, ht, hf₁, hx⟩
    unfold emitLoop
    split
    · rename_i hnone
      cases ht.symm.trans hnone
    · rename_i t' ht'
      obtain rfl := Option.some.inj (ht.symm.trans ht')
      split
      · rename_i hdepth
        rw [if_pos hdepth] at hf₁
        dsimp only
        split
        · rename_i hnone
          exact absurd (hf₁.symm.trans hnone) (Option.some_ne_none _)
        · rename_i f₂ hf₂
          obtain rfl := Option.some.inj (hf₁.symm.trans hf₂)
          exact hx
      · rename_i hdepth
        rw [if_neg hdepth] at hf₁
        obtain rfl := Option.some.inj hf₁
        exact hx

/-- What the loop without the limit returns, the loop of the code returns, if that is so of each
evaluation. -/
theorem emitLoop_of_whole {eval eval' : ℤ → ℕ → Flat → Option Flat}
    (h : ∀ px f f', eval px depth f = some f' →
      (if depth < maxCascade then eval' px depth f else some f) = some f') : ∀ n i f f',
    wholeLoop eval depth n i f = some f' → emitLoop eval' depth n i f = some f' := by
  intro n
  induction n with
  | zero => exact fun _ _ _ hx => hx
  | succ n ih =>
    intro i f f' hx
    obtain ⟨t, ht, hx⟩ := Option.bind_eq_some_iff.mp hx
    obtain ⟨f₁, hf₁, hx⟩ := Option.bind_eq_some_iff.mp hx
    exact emitLoop_succ.mpr ⟨t, f₁, ht, h _ _ _ hf₁, ih _ _ _ hx⟩

/-- What returns without the limit returns the same with it. -/
theorem processActiveIn_of_whole : ∀ n o depth f f', depth + n = maxCascade + 1 →
    wholeActiveIn S n o depth f = some f' → processActiveIn S n o depth f = some f' := by
  intro n
  induction n with
  | zero =>
    intro o depth f f' _ hx
    cases hx
  | succ n ih =>
    intro o depth f f' hdepth hx
    refine processActiveWith_of (fun start f f' hemit => ?_) hx
    refine emitLoop_of_whole (fun px f f' heval => ?_) _ _ _ _ hemit
    cases n with
    | zero =>
      rw [if_neg (by omega)]
      exact congrArg some (evalStops_deepest heval).symm
    | succ n =>
      rw [if_pos (by omega)]
      exact evalStops_of (fun o f f' => ih o (depth + 1) f f' (by omega)) heval

/-- Where there are no stops, none is evaluated. -/
theorem evalStops_nil {act : Order → ℕ → Flat → Option Flat} {px : ℤ} (h : f.stops = []) :
    evalStops S act px depth f = some f := by
  obtain ⟨bids, asks, stops, tape⟩ := f
  dsimp only at h
  subst h
  have hsort : S.sort (·.timestamp) ([] : List Order) = [] := (perm_sort S _ []).eq_nil
  change activate act depth (S.sort (·.timestamp) []) _ = _
  rw [hsort]
  rfl

/-- What returns with one function returns the same with the other one, with no more stops, when
there are fewer than `k` of them. -/
def Few (k : ℕ) (run run' : Flat → Option Flat) : Prop :=
  ∀ f f', f.stops.length < k → run f = some f' → run' f = some f' ∧ f'.stops.length ≤ f.stops.length

/-- The turns of the stops are not cut off, if none of them is. -/
theorem few_activate {act act' : Order → ℕ → Flat → Option Flat} {k : ℕ}
    (h : ∀ o, Few k (act o (depth + 1)) (act' o (depth + 1))) (os : List Order) :
    Few k (activate act depth os) (activate act' depth os) := by
  induction os with
  | nil =>
    intro f f' _ hx
    cases hx
    exact ⟨rfl, le_refl _⟩
  | cons o os ih =>
    intro f f' hk hx
    unfold activate at hx ⊢
    split at hx
    · cases hx
    · rename_i f₁ hf₁
      obtain ⟨hact, hle⟩ := h _ _ f₁ (by exact hk) hf₁
      obtain ⟨hrest, hle'⟩ := ih f₁ f' (Nat.lt_of_le_of_lt hle hk) hx
      rw [hact]
      exact ⟨hrest, hle'.trans hle⟩

/-- The stops that are evaluated are fewer by those that are triggered. -/
theorem few_evalStops {act act' : Order → ℕ → Flat → Option Flat} {k : ℕ}
    (h : ∀ o, Few k (act o (depth + 1)) (act' o (depth + 1))) (px : ℤ) :
    Few (k + 1) (evalStops S act px depth) (evalStops S act' px depth) := by
  intro f f' hk hx
  unfold evalStops at hx ⊢
  split at hx
  · cases hx
  · rename_i r hr
    have hperm := (taken_takeOut _ _ _ _ _ hr fun j hj => absurd hj (Nat.not_lt_zero j)).perm
    -- The stops that fire and those that stay are all the stops.
    have hlen := hperm.length_eq
    rw [List.nil_append, List.length_append] at hlen
    have hsort := (perm_sort S (·.timestamp) r.1).length_eq
    cases hs : S.sort (·.timestamp) r.1 with
    | nil =>
      rw [hs] at hx
      cases hx
      exact ⟨rfl, by dsimp only; omega⟩
    | cons o os =>
      rw [hs] at hx hsort
      rw [List.length_cons] at hsort
      -- Those that fire are at least one, so fewer are left for the deeper levels.
      obtain ⟨hact, hle⟩ := few_activate h _ { f with stops := r.2 } f' (by dsimp only; omega) hx
      dsimp only at hle
      exact ⟨hact, by omega⟩

/-- The loop of the code is not cut off, if no evaluation is. -/
theorem few_emitLoop {eval eval' : ℤ → ℕ → Flat → Option Flat} {k : ℕ}
    (h : ∀ px, Few k (fun f => if depth < maxCascade then eval px depth f else some f)
      (eval' px depth)) :
    ∀ n i, Few k (emitLoop eval depth n i) (wholeLoop eval' depth n i) := by
  intro n
  induction n with
  | zero =>
    intro i f f' _ hx
    cases hx
    exact ⟨rfl, le_refl _⟩
  | succ n ih =>
    intro i f f' hk hx
    obtain ⟨t, f₁, ht, hf₁, hx⟩ := emitLoop_succ.mp hx
    obtain ⟨heval, hle⟩ := h _ (f.noted t depth) f₁ hk hf₁
    obtain ⟨hrest, hle'⟩ := ih _ f₁ f' (Nat.lt_of_le_of_lt hle hk) hx
    refine ⟨?_, hle'.trans hle⟩
    exact Option.bind_eq_some_iff.mpr ⟨t, ht, Option.bind_eq_some_iff.mpr ⟨f₁, heval, hrest⟩⟩

/-- An order is not cut off when there are no more dormant stops than `MAX_CASCADE` has left. -/
theorem few_wholeActiveIn : ∀ n o depth, depth + n = maxCascade + 1 →
    Few n (processActiveIn S n o depth) (wholeActiveIn S n o depth) := by
  intro n
  induction n with
  -- The deepest level, where no stop is left to fire.
  | zero => exact fun _ _ _ _ _ hk _ => absurd hk (Nat.not_lt_zero _)
  | succ n ih =>
    intro o depth hdepth f f' hk hx
    have heval : ∀ px, Few (n + 1)
        (fun f => if depth < maxCascade then evalStops S (processActiveIn S n) px depth f
          else some f) (evalStops S (wholeActiveIn S n) px depth) := by
      intro px f f' hk hx
      dsimp only at hx
      cases n with
      | zero =>
        rw [if_neg (by omega)] at hx
        cases hx
        exact ⟨evalStops_nil (List.length_eq_zero_iff.mp (by omega)), le_refl _⟩
      | succ n =>
        rw [if_pos (by omega)] at hx
        exact few_evalStops (fun o => ih o (depth + 1) (by omega)) px f f' hk hx
    rcases processActiveWith_split hx with
      ⟨hstops, hall⟩ | ⟨start, d, f₁, f₂, hstops, hemit, rfl, hall⟩
    · exact ⟨hall _, (congrArg List.length hstops).le⟩
    · obtain ⟨hwhole, hle⟩ := few_emitLoop heval _ _ f₁ f₂ (by rwa [hstops]) hemit
      refine ⟨hall _ f₂ hwhole, ?_⟩
      rw [hstops] at hle
      cases d <;> exact hle

end Limit

/-! ## Submissions -/

/-- `process` when stops are evaluated at every depth. -/
def wholeProcess (S : StdSort) (o : Order) (f : Flat) : Option Flat :=
  if o.orderType = .STOP_LIMIT ∨ o.orderType = .STOP_MARKET then
    if f.tape.lastPx ≠ 0 ∧ fires f.tape.lastPx o then
      wholeActiveIn S (maxCascade + 1) (trigger o f.tape).1 0
        (f.withTape (trigger o f.tape).2)
    else some { f with stops := f.stops ++ [o] }
  else wholeActiveIn S (maxCascade + 1) o 0 f

/-- The books with an accepted order that has not been processed. -/
def accepted (i : OrderInput) (f : Flat) : Flat :=
  (f.withTape (f.tape.tick.event (.onOrderAccepted (i.order (f.tape.now + 1))))).clear

/-- The cascade of an order comes to its end before `MAX_CASCADE`. -/
def Uncut (S : StdSort) (i : OrderInput) (f : Flat) : Prop :=
  (wholeProcess S (i.order (f.tape.now + 1)) (accepted i f)).isSome = true

instance (S : StdSort) (i : OrderInput) (f : Flat) : Decidable (Uncut S i f) :=
  inferInstanceAs (Decidable (_ = true))

section Submissions

variable {S : StdSort} {f f' : Flat} {o : Order} {i : OrderInput}

/-- `process` returns what it would without the limit, where that returns. -/
theorem process_of_whole (hx : wholeProcess S o f = some f') : process S o f = some f' := by
  unfold wholeProcess at hx
  unfold process processActive
  split
  · rename_i hstop
    rw [if_pos hstop] at hx
    split
    · rename_i hfires
      rw [if_pos hfires] at hx
      exact processActiveIn_of_whole _ _ _ _ _ (Nat.zero_add _) hx
    · rename_i hfires
      rwa [if_neg hfires] at hx
  · rename_i hstop
    rw [if_neg hstop] at hx
    exact processActiveIn_of_whole _ _ _ _ _ (Nat.zero_add _) hx

/-- With no more dormant stops than `MAX_CASCADE` nothing is cut off. -/
theorem whole_of_process (hfew : f.stops.length ≤ maxCascade) (hx : process S o f = some f') :
    wholeProcess S o f = some f' := by
  have hwhole : ∀ o f, f.stops.length ≤ maxCascade → processActive S o 0 f = some f' →
      wholeActiveIn S (maxCascade + 1) o 0 f = some f' := fun o f hk hx =>
    (few_wholeActiveIn _ o 0 (Nat.zero_add _) f f' (Nat.lt_succ_of_le hk) hx).1
  unfold process at hx
  unfold wholeProcess
  split
  · rename_i hstop
    rw [if_pos hstop] at hx
    split
    · rename_i hfires
      rw [if_pos hfires] at hx
      exact hwhole _ _ hfew hx
    · rename_i hfires
      rwa [if_neg hfires] at hx
  · rename_i hstop
    rw [if_neg hstop] at hx
    exact hwhole _ _ hfew hx

/-- What `submitOrder` does with an order that it accepts. -/
theorem submitOrder_accepted (hx : submitOrder S i f = some (true, f')) :
    validate (f.tape.now + 1) (i.order (f.tape.now + 1)) = none ∧
      process S (i.order (f.tape.now + 1)) (accepted i f) = some f' := by
  unfold submitOrder at hx
  dsimp only at hx
  split at hx
  · cases hx
  · split at hx
    · cases hx
    · rename_i hv
      obtain ⟨f₁, hf₁, heq⟩ := Option.map_eq_some_iff.mp hx
      obtain rfl := (Prod.mk.inj heq).2
      exact ⟨hv, hf₁⟩

end Submissions

end Flat

section Runs

variable {S : StdSort} {pop : PostOnlyPolicy} {tickSz : ℤ} {s s' : Engine} {i : OrderInput}

/-- Of an order that is accepted with no more than `MAX_CASCADE` dormant stops, the whole cascade
runs: the engine is left as it would be if `emitAndTrigger` evaluated the stops at every depth. -/
theorem few_stops_uncut (hs : Reach S pop tickSz s)
    (hfew : s.stops_.length ≤ maxCascade) (he : submitOrder S i s = some (true, s')) :
    Flat.wholeProcess S (i.order (s.now_ + 1)) (Flat.accepted i s.flat) = some s'.flat := by
  have hlen : s.flat.stops.length = s.stops_.length := by
    obtain ⟨G, hG, hflat, -⟩ := hs.shown.1
    rw [← hflat, hG.stops, List.length_map]
    exact List.length_map _
  obtain ⟨-, hx⟩ := Flat.submitOrder_accepted (hs.submitOrder he)
  exact Flat.whole_of_process (f := Flat.accepted i s.flat) (hlen.trans_le hfew) hx

/-- Three asks and two stops, the second of which is for the price at which the first one trades. -/
def twoStops : List Call :=
  [.submit { id := 1, side := .SELL, price := 10, quantity := 1 },
    .submit { id := 2, side := .SELL, price := 11, quantity := 1 },
    .submit { id := 3, side := .SELL, price := 12, quantity := 1 },
    .submit { id := 4, orderType := .STOP_MARKET, stopPrice := 10, quantity := 1 },
    .submit { id := 5, orderType := .STOP_MARKET, stopPrice := 11, quantity := 1 }]

/-- An order that starts the cascade of both. -/
def wakeBoth : OrderInput := { id := 6, price := 10, quantity := 1 }

/-- Two dormant stops, of which the second is triggered by the trade of the first. -/
theorem few_stops_uncut_twoStops : ∃ s s', Reach .insertion .REJECT 1 s ∧
    s.stops_.length = 2 ∧ submitOrder .insertion wakeBoth s = some (true, s') ∧
    (executed s'.log).map (·.price) = [10, 11, 12] ∧
    Flat.wholeProcess .insertion (wakeBoth.order (s.now_ + 1)) (Flat.accepted wakeBoth s.flat) =
      some s'.flat := by
  have hsome : ((runAll .insertion twoStops (.init .REJECT 1)).bind fun x =>
      (submitOrder .insertion wakeBoth x.2).map fun y =>
        (x.2.stops_.length, y.1, (executed y.2.log).map (·.price))) =
      some (2, true, [10, 11, 12]) := by
    decide +kernel
  obtain ⟨⟨_, s⟩, hrun, hval⟩ := Option.bind_eq_some_iff.mp hsome
  obtain ⟨⟨_, s'⟩, he, hval⟩ := Option.map_eq_some_iff.mp hval
  obtain ⟨hlen, hval⟩ := Prod.mk.inj hval
  obtain ⟨rfl, hprices⟩ := Prod.mk.inj hval
  have hs := Reach.init.runAll hrun
  have hfew : s.stops_.length ≤ maxCascade := by
    rw [hlen]
    decide
  exact ⟨s, s', hs, hlen, he, hprices, few_stops_uncut hs hfew he⟩

end Runs

end MatchingEngine.Cpp
