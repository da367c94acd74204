import MatchingEngine.Cpp.Acts
import MatchingEngine.Cpp.Reports

/-!
# The order of the reports

The listener is told of a trade before the stops at its price are evaluated, and of the next trade
of the same match only after that. A stop that fires in between may trade, and its trade is newer
and is reported earlier.

So the condition is on the state in which `emitAndTrigger` is about to evaluate the stops, when it
has reported a trade that is not the last one of its match: no dormant stop fires at the price of
this trade (`Untriggered`). `assertLoop` is the loop of `emitAndTrigger` with this as an assertion
before each evaluation, and a call is calm if none of its assertions fails. Where none fails the
stops are left as they are between two reports of a match, and the reports are the trades in the
order of execution.
-/

namespace MatchingEngine.Cpp

open Lib

/-- No dormant stop fires at the price `px`. -/
def Untriggered (px : ℤ) (s : Engine) : Prop :=
  ∀ p ∈ s.stops_, ∀ c ∈ s.orders p, fires px c.order = false

instance (px : ℤ) (s : Engine) : Decidable (Untriggered px s) :=
  inferInstanceAs (Decidable (∀ p ∈ s.stops_, ∀ c ∈ s.orders p, fires px c.order = false))

/-- An assertion on the state. -/
def assert (P : Engine → Prop) [DecidablePred P] : Prog Engine Unit := fun s =>
  if P s then some ((), s) else none

/-- The loop of `emitAndTrigger` with an assertion before the stops are evaluated: if a trade of the
match is still to be reported, no stop fires. -/
def assertLoop (evalStops : ℤ → ℕ → Prog Engine Unit) (depth : ℕ) : ℕ → ℕ → Prog Engine Unit
  | 0, _ => pure ()
  | n + 1, i => do
    let ts ← read (·.trades_)
    match ts[i]? with
    | none => trap
    | some t => do
      mark (.event (.onTrade t))
      write fun s => { s with lastPx_ := t.price, lastDepth := depth }
      (if depth < maxCascade then do
        assert fun s => n ≠ 0 → Untriggered t.price s
        evalStops t.price depth
      else pure ())
      assertLoop evalStops depth n (i + 1)

/-- `emitAndTrigger` with the assertion. -/
def assertEmit (evalStops : ℤ → ℕ → Prog Engine Unit) (start depth : ℕ) : Prog Engine Unit := do
  let ts ← read (·.trades_)
  assertLoop evalStops depth (ts.length - start) start

/-- `processActive` with the assertion. -/
def assertActiveIn (S : StdSort) : ℕ → ℕ → ℕ → Prog Engine Unit
  | 0 => fun _ _ => trap
  | n + 1 => processActiveWith (assertEmit (evalStops S (assertActiveIn S n)))

/-- From the state `s`, whenever the call `c` is about to evaluate the stops while a trade of the
match is still to be reported, no dormant stop fires: no assertion fails. -/
def Calm (S : StdSort) (s : Engine) (c : Call) : Prop :=
  (c.runWith (assertActiveIn S (maxCascade + 1)) s).isSome = true

instance (S : StdSort) (s : Engine) (c : Call) : Decidable (Calm S s c) :=
  inferInstanceAs (Decidable (_ = true))

/-! ## What returns with the assertions returns without them -/

section Tracks

variable {f g : ℕ → ℕ → Prog Engine Unit}

/-- The programs of a family return what those of another one return. -/
def Within {ι κ : Type} (f g : ι → κ → Prog Engine Unit) : Prop :=
  ∀ i k, Tracks (fun _ => True) (f i k) (g i k) fun _ => True

/-- The assertion changes nothing. -/
theorem tracks_assert (P : Engine → Prop) [DecidablePred P] {m m' : Prog Engine Unit}
    (h : Tracks (fun _ => True) m m' fun _ => True) :
    Tracks (fun _ => True) (do assert P; m) m' fun _ => True := by
  intro s a s' hs he
  obtain ⟨_, t, ha, he⟩ := run_bind_iff.mp he
  unfold assert at ha
  split at ha
  · cases ha
    exact h s a s' hs he
  · cases ha

/-- The loop that asserts returns what the loop of the code returns. -/
theorem tracks_assertLoop {e e' : ℤ → ℕ → Prog Engine Unit} (h : Within e e') (depth : ℕ) : ∀ n i,
    Tracks (fun _ => True) (assertLoop e depth n i) (emitLoop e' depth n i) fun _ => True := by
  intro n
  induction n with
  | zero => exact fun i => .same
  | succ n ih =>
    intro i
    refine Tracks.same.bind fun ts _ => ?_
    cases ts[i]? with
    | none => exact .same
    | some t =>
      refine Tracks.same.bind fun _ _ => Tracks.same.bind fun _ _ => ?_
      refine (Tracks.ite (fun _ => ?_) fun _ => .same).bind fun _ _ => ih (i + 1)
      exact tracks_assert _ (h t.price depth)

/-- The evaluation of the stops, over two pipelines. -/
theorem tracks_evalStops (S : StdSort) (h : Within f g) : Within (evalStops S f) (evalStops S g) := by
  intro px depth
  refine Tracks.same.bind fun _ _ => Tracks.same.bind fun _ _ => Tracks.same.bind fun trig _ => ?_
  induction trig with
  | nil => exact .same
  | cons p ps ih => exact Tracks.same.bind fun _ _ => (h p (depth + 1)).bind fun _ _ => ih

/-- The phase that matches, over two loops. -/
theorem tracks_matchPhase (h : Within f g) : Within (matchPhase f) (matchPhase g) := by
  intro o depth
  refine Tracks.same.bind fun trades _ => Tracks.same.bind fun c _ => .ite (fun _ => ?_) fun _ => ?_
  · refine Tracks.same.bind fun _ _ => Tracks.same.bind fun _ _ => .ite (fun _ => ?_) fun _ => .same
    exact Tracks.same.bind fun _ _ => (h _ depth).bind fun _ _ => .same
  · exact Tracks.same.bind fun _ _ => (h _ depth).bind fun _ _ => .same

/-- `processActive`, over two loops. -/
theorem tracks_processActiveWith (h : Within f g) :
    Within (processActiveWith f) (processActiveWith g) := by
  intro o depth
  refine Tracks.same.bind fun c _ => .ite (fun _ => .same) fun _ => ?_
  refine Tracks.same.bind fun fok _ => .ite (fun _ => ?_) fun _ => .same
  exact Tracks.same.bind fun enough _ => .ite (fun _ => tracks_matchPhase h o depth) fun _ => .same

/-- The pipeline that asserts returns what the pipeline of the code returns, at every depth. -/
theorem tracks_assertActiveIn (S : StdSort) : ∀ n,
    Within (assertActiveIn S n) (processActiveIn S n) := by
  intro n
  induction n with
  | zero => exact fun _ _ => .trap
  | succ n ih =>
    refine tracks_processActiveWith fun start depth => Tracks.same.bind fun ts _ => ?_
    exact tracks_assertLoop (tracks_evalStops S ih) depth _ start

/-- `process`, over two pipelines. -/
theorem tracks_process (h : Within f g) : Within (process f) (process g) := by
  intro o depth
  refine Tracks.same.bind fun c _ => .ite (fun _ => ?_) fun _ => h o depth
  refine Tracks.same.bind fun fire _ => .ite (fun _ => ?_) fun _ => .same
  exact Tracks.same.bind fun _ _ => h o depth

/-- `submitOrder`, over two pipelines. -/
theorem tracks_submitWith (h : Within f g) (i : OrderInput) :
    Tracks (fun _ => True) (submitWith f i) (submitWith g i) fun _ => True := by
  refine Tracks.same.bind fun dup _ => .ite (fun _ => .same) fun _ => ?_
  refine Tracks.same.bind fun o _ => Tracks.same.bind fun t _ => Tracks.same.bind fun _ _ => ?_
  refine Tracks.same.bind fun now _ => Tracks.same.bind fun c _ => ?_
  cases validate now c with
  | some err => exact .same
  | none =>
    refine Tracks.same.bind fun _ _ => Tracks.same.bind fun _ _ => Tracks.same.bind fun _ _ => ?_
    exact (tracks_process h o 0).bind fun _ _ => .same

/-- `amendOrder`, over two pipelines. -/
theorem tracks_amendWith (h : Within f g) (id : UInt64) (newPx newQty : ℤ) :
    Tracks (fun _ => True) (amendWith f id newPx newQty) (amendWith g id newPx newQty)
      fun _ => True := by
  refine Tracks.same.bind fun p _ => ?_
  cases p with
  | none => exact .same
  | some o =>
    refine Tracks.same.bind fun c _ => .ite (fun _ => ?_) fun _ => .same
    cases c.level with
    | none => exact .same
    | some lv =>
      refine .ite (fun _ => .same) fun _ => .ite (fun _ => ?_) fun _ => .same
      refine Tracks.same.bind fun _ _ => Tracks.same.bind fun _ _ => Tracks.same.bind fun _ _ => ?_
      refine Tracks.same.bind fun _ _ => Tracks.same.bind fun _ _ => ?_
      exact (h o 0).bind fun _ _ => .same

/-- A call, over two pipelines. -/
theorem tracks_runWith (h : Within f g) (c : Call) :
    Tracks (fun _ => True) (c.runWith f) (c.runWith g) fun _ => True := by
  cases c with
  | submit i => exact (tracks_submitWith h i).bind fun _ _ => .same
  | cancel id => exact .same
  | amend id newPx newQty => exact (tracks_amendWith h id newPx newQty).bind fun _ _ => .same
  | expire t => exact .same
  | setTime t => exact .same
  | assignId => exact .same

end Tracks

/-- What a calm call returns is what it returns with the assertions. -/
theorem Calm.run_eq {S : StdSort} {s s' : Engine} {c : Call} (hc : Calm S s c)
    (h : c.run S s = some ((), s')) :
    c.runWith (assertActiveIn S (maxCascade + 1)) s = some ((), s') := by
  obtain ⟨⟨_, t⟩, ht⟩ := Option.isSome_iff_exists.mp hc
  have hr := (tracks_runWith (tracks_assertActiveIn S _) c s _ t trivial ht).1
  rw [ht, ← h, ← hr]
  rfl

/-! ## Where no stop fires, nothing happens between two reports -/

/-- Where no stop fires, none is taken out. -/
theorem takeStops_untriggered {px : ℤ} {s s' : Engine} (h : Untriggered px s) : ∀ n i {trig out},
    takeStops px n i trig s = some (out, s') → out = trig ∧ s' = s := by
  intro n
  induction n with
  | zero =>
    intro i trig out he
    cases he
  | succ n ih =>
    intro i trig out he
    obtain ⟨_, _, ⟨⟩, he⟩ := run_bind_iff.mp he
    dsimp only at he
    cases hp : s.stops_[i]? with
    | none =>
      rw [hp] at he
      cases he
      exact ⟨rfl, rfl⟩
    | some p =>
      rw [hp] at he
      obtain ⟨o, _, ho, he⟩ := run_bind_iff.mp he
      obtain ⟨c, hc, ho⟩ := Option.map_eq_some_iff.mp ho
      obtain ⟨rfl, rfl⟩ := Prod.mk.inj ho
      have hquiet : fires px c.order = false := h p (List.mem_of_getElem? hp) c hc
      rw [if_neg (by rw [hquiet]; exact Bool.false_ne_true)] at he
      exact ih (i + 1) he

/-- Where no stop fires, the evaluation of the stops leaves the engine as it is. -/
theorem evalStops_untriggered {S : StdSort} {f : ℕ → ℕ → Prog Engine Unit} {px : ℤ} {depth : ℕ}
    {s s' : Engine} {a : Unit} (h : Untriggered px s) (he : evalStops S f px depth s = some (a, s')) :
    s' = s := by
  unfold evalStops at he
  obtain ⟨stops, _, ⟨⟩, he⟩ := run_bind_iff.mp he
  obtain ⟨trig, t, htake, he⟩ := run_bind_iff.mp he
  obtain ⟨rfl, ht⟩ := takeStops_untriggered h _ _ htake
  obtain ⟨sorted, u, hsort, he⟩ := run_bind_iff.mp he
  obtain ⟨hsorted, hu⟩ := Prod.mk.inj (Option.some.inj hsort)
  have hnil : sorted = [] := hsorted.symm.trans (Flat.perm_sort S _ []).eq_nil
  rw [hnil] at he
  cases he
  rw [← hu, ht]

/-! ## With the assertions the trades are reported in the order of execution -/

instance : Additive Eq := ⟨rfl, fun h h' => by rw [h, h']⟩

/-- What happens between the report of a trade and the next turn, with `n` trades still to be
reported: nothing, unless the trade was the last one. -/
theorem asserted {S : StdSort} {f : ℕ → ℕ → Prog Engine Unit} (hf : ∀ o d, Moves (Reports Eq) (f o d))
    {px : ℤ} {depth n : ℕ} {s s' : Engine} {a : Unit}
    (h : (if depth < maxCascade then do
        assert fun s => n ≠ 0 → Untriggered px s
        evalStops S f px depth
      else pure ()) s = some (a, s')) : Reports Eq s s' ∧ (n ≠ 0 → s' = s) := by
  split at h
  · obtain ⟨_, t, ha, h⟩ := run_bind_iff.mp h
    unfold assert at ha
    split at ha
    · rename_i huntriggered
      cases ha
      exact ⟨reports_evalStops hf _ _ _ _ s' h, fun hn => evalStops_untriggered (huntriggered hn) h⟩
    · cases ha
  · cases h
    exact ⟨Quiet.reports (Course.refl _), fun _ => rfl⟩

/-- The loop over the `n` trades from the `i`th on reports these, and then what is made meanwhile.
-/
theorem assertLoop_course {S : StdSort} {f : ℕ → ℕ → Prog Engine Unit}
    (hf : ∀ o d, Moves (Reports Eq) (f o d)) {depth : ℕ} : ∀ n i s a s',
      assertLoop (evalStops S f) depth n i s = some (a, s') → i + n ≤ s.trades_.length →
      ∃ new, Course new ((s.trades_.drop i).take n ++ new) s s' := by
  intro n
  induction n with
  | zero =>
    rintro i s _ _ ⟨⟩ _
    exact ⟨[], .refl s⟩
  | succ n ih =>
    intro i s a s' h hi
    have hlt : i < s.trades_.length := by omega
    obtain ⟨_, _, ⟨⟩, h⟩ := run_bind_iff.mp h
    rw [List.getElem?_eq_getElem hlt] at h
    obtain ⟨_, _, ⟨⟩, h⟩ := run_bind_iff.mp h
    obtain ⟨_, _, ⟨⟩, h⟩ := run_bind_iff.mp h
    obtain ⟨_, s₂, h₂, h⟩ := run_bind_iff.mp h
    obtain ⟨⟨new₁, _, hc₂, rfl⟩, hsame⟩ := asserted hf h₂
    have hc₁ := course_report s s.trades_[i] s.trades_[i].price depth
    rw [List.drop_eq_getElem_cons hlt, List.take_succ_cons]
    rcases Nat.eq_zero_or_pos n with rfl | hpos
    · -- After the last trade the loop is over.
      cases h
      exact ⟨_, hc₁.trans hc₂⟩
    · -- Before that the assertion holds.
      obtain rfl := hsame hpos.ne'
      obtain ⟨new₂, hc₃⟩ := ih (i + 1) _ a s' h (by dsimp only; omega)
      exact ⟨new₂, hc₁.trans hc₃⟩

/-- The loop that asserts reports its trades in their order: what the stops make comes after the
last one. -/
theorem emits_assertEmit {S : StdSort} {f : ℕ → ℕ → Prog Engine Unit}
    (hf : ∀ o d, Moves (Reports Eq) (f o d)) : Emits Eq (assertEmit (evalStops S f)) := by
  rintro depth s s₁ s' a ⟨new, hc⟩ h
  obtain ⟨_, _, ⟨⟩, h⟩ := run_bind_iff.mp h
  dsimp only at h
  have hlen : s₁.trades_.length = s.trades_.length + new.length := by
    rw [hc.trades, List.length_append]
  obtain ⟨new', hc'⟩ := assertLoop_course hf _ _ _ _ _ h (by omega)
  rw [hc.trades, List.drop_left, List.take_of_length_le (by rw [List.length_append]; omega)] at hc'
  exact ⟨_, _, hc.trans hc', rfl⟩

/-- The pipeline that asserts reports in the order of execution, at every depth. -/
theorem reports_assertActiveIn (S : StdSort) : ∀ n o depth,
    Moves (Reports Eq) (assertActiveIn S n o depth) := by
  intro n
  induction n with
  | zero => exact fun _ _ => .trap
  | succ n ih => exact reports_processActiveWith (emits_assertEmit ih)

variable {S : StdSort} {pop : PostOnlyPolicy} {tickSz : ℤ}

/-- In a run of calm calls the reports are the trades in the order of execution. -/
theorem reported_eq_executed {s : Engine} (hs : ReachWhere (Calm S) S pop tickSz s) :
    reported s.log = executed s.log := by
  induction hs with
  | init => rfl
  | @call s s' c _ hg h ih =>
    obtain ⟨new, out, hc⟩ := settled_runWith (reports_assertActiveIn S _) c _ _ _ (hg.run_eq h)
    rw [hc.reported, hc.executed, ih, hc.rel]

/-- In a run of calm calls, the trades are reported with increasing ids. -/
theorem reported_in_order {s : Engine} (hs : ReachWhere (Calm S) S pop tickSz s) :
    ((reported s.log).map (·.tradeId)).Pairwise (· < ·) := by
  rw [reported_eq_executed hs, (accounted hs.reach).ids]
  exact List.pairwise_lt_range'

/-- A sequence of calls with the assertions. -/
def runCalm (S : StdSort) : List Call → Prog Engine Unit
  | [] => pure ()
  | c :: cs => do
    c.runWith (assertActiveIn S (maxCascade + 1))
    runCalm S cs

/-- A sequence of calls that returns with the assertions is a run of calm calls. -/
theorem ReachWhere.runCalm {s s' : Engine} {cs : List Call} (hs : ReachWhere (Calm S) S pop tickSz s)
    (h : runCalm S cs s = some ((), s')) : ReachWhere (Calm S) S pop tickSz s' := by
  induction cs generalizing s with
  | nil =>
    cases h
    exact hs
  | cons c cs ih =>
    obtain ⟨_, t, ht, h⟩ := run_bind_iff.mp h
    have hr := (tracks_runWith (tracks_assertActiveIn S _) c s _ t trivial ht).1
    exact ih (hs.call c (Option.isSome_iff_exists.mpr ⟨_, ht⟩) hr) h

/-- `reported_in_order` where a stop is dormant during a match of two trades, does not fire at the
price of the first one, and fires at that of the second one and trades. -/
theorem reported_in_order_last : ∃ s, ReachWhere (Calm .insertion) .insertion .REJECT 1 s ∧
    (reported s.log).length = 3 ∧ ((reported s.log).map (·.tradeId)).Pairwise (· < ·) := by
  have hret : (runCalm .insertion
      [.submit { id := 1, side := .SELL, price := 10, quantity := 1 },
       .submit { id := 2, side := .SELL, price := 11, quantity := 1 },
       .submit { id := 3, side := .SELL, price := 12, quantity := 2 },
       .submit { id := 4, orderType := .STOP_MARKET, stopPrice := 11, quantity := 1 },
       .submit { id := 5, orderType := .MARKET, timeInForce := .IOC, quantity := 2 }]
      (.init .REJECT 1)).map (fun r => (reported r.2.log).length) = some 3 := by decide +kernel
  obtain ⟨⟨_, s⟩, h, hlen⟩ := Option.map_eq_some_iff.mp hret
  have hs := ReachWhere.init.runCalm h
  exact ⟨s, hs, hlen, reported_in_order hs⟩

/-- A stop that fires after the first trade of two takes the third order, and this trade is reported
before the second one. -/
theorem midSlice_out_of_order : ∃ s, Reach .insertion .REJECT 1 s ∧
    (reported s.log).map (·.tradeId) = [1, 3, 2] ∧
    ¬ ((reported s.log).map (·.tradeId)).Pairwise (· < ·) := by
  have hret : (runAll .insertion midSlice (.init .REJECT 1)).map
      (fun r => (reported r.2.log).map (·.tradeId)) = some [1, 3, 2] := by decide +kernel
  obtain ⟨⟨_, s⟩, h, hids⟩ := Option.map_eq_some_iff.mp hret
  refine ⟨s, Reach.init.runAll h, hids, ?_⟩
  rw [hids]
  decide

end MatchingEngine.Cpp
