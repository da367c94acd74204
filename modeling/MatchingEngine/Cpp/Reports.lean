import MatchingEngine.Cpp.Statements

/-!
# Trades and their reports

Which trades a part of a call makes and which ones it reports. `Course new out` says that a part
makes the trades `new` and reports the trades `out`. Matching makes trades and reports none, the
loop of `emitAndTrigger` reports the slice that it is given and, between two of its trades, whatever
the stops make, so `processActive` reports just the trades that it makes, in some order. How the
reported list and the list of the trades are related is a parameter that has to respect
concatenation.
-/

namespace MatchingEngine.Cpp

open Lib

/-- The trades of a history in the order of execution. -/
def executed (log : List Mark) : List Trade :=
  log.filterMap fun
    | .executed t _ _ _ => some t
    | _ => none

/-- The trades of a history in the order in which the listener was told of them. -/
def reported (log : List Mark) : List Trade :=
  log.filterMap fun
    | .event (.onTrade t) => some t
    | _ => none

/-- What two parts of a history execute. -/
@[simp] theorem executed_append (l l' : List Mark) :
    executed (l ++ l') = executed l ++ executed l' := List.filterMap_append

/-- What two parts of a history report. -/
@[simp] theorem reported_append (l l' : List Mark) :
    reported (l ++ l') = reported l ++ reported l' := List.filterMap_append

/-- From `s` to `s'` the trades `new` are made, with the next ids, and the trades `out` are
reported. -/
structure Course (new out : List Trade) (s s' : Engine) : Prop where
  trades : s'.trades_ = s.trades_ ++ new
  tid : s'.tid_ = s.tid_ + new.length
  ids : new.map (·.tradeId) = List.range' s.tid_ new.length
  executed : executed s'.log = executed s.log ++ new
  reported : reported s'.log = reported s.log ++ out

namespace Course

variable {s s' s'' : Engine} {new out new' out' : List Trade}

/-- Nothing happens to trades. -/
theorem refl (s : Engine) : Course [] [] s s where
  trades := (List.append_nil _).symm
  tid := rfl
  ids := rfl
  executed := (List.append_nil _).symm
  reported := (List.append_nil _).symm

/-- One part after another. -/
theorem trans (h : Course new out s s') (h' : Course new' out' s' s'') :
    Course (new ++ new') (out ++ out') s s'' where
  trades := by rw [h'.trades, h.trades, List.append_assoc]
  tid := by rw [h'.tid, h.tid, List.length_append, Nat.add_assoc]
  ids := by
    rw [List.map_append, h.ids, h'.ids, h.tid, List.length_append, List.range'_append_1]
  executed := by rw [h'.executed, h.executed, List.append_assoc]
  reported := by rw [h'.reported, h.reported, List.append_assoc]

end Course

/-- Nothing is made and nothing is reported. -/
def Quiet : Engine → Engine → Prop := Course [] []

/-- Trades are made and nothing is reported. -/
def Makes (s s' : Engine) : Prop := ∃ new, Course new [] s s'

/-- A relation of lists that respects concatenation. -/
class Additive (R : List Trade → List Trade → Prop) : Prop where
  nil : R [] []
  append {a b c d : List Trade} : R a b → R c d → R (a ++ c) (b ++ d)

instance : Additive List.Perm := ⟨.refl _, List.Perm.append⟩

/-- The trades that are reported are in relation `R` to those that are made. -/
def Reports (R : List Trade → List Trade → Prop) (s s' : Engine) : Prop :=
  ∃ new out, Course new out s s' ∧ R out new

variable {R : List Trade → List Trade → Prop} [Additive R]

/-- Silence is a report of nothing. -/
theorem Quiet.reports {s s' : Engine} (h : Quiet s s') : Reports R s s' :=
  ⟨[], [], h, Additive.nil⟩

/-- A state that differs in nothing that the trades are read from. -/
theorem Quiet.of_eq {s s' : Engine} (ht : s'.trades_ = s.trades_) (hi : s'.tid_ = s.tid_)
    (hl : s'.log = s.log) : Quiet s s' where
  trades := by rw [ht, List.append_nil]
  tid := hi
  ids := rfl
  executed := by rw [hl, List.append_nil]
  reported := by rw [hl, List.append_nil]

/-- What an operation of the index changes is not about a trade. -/
theorem quiet_onIndex (f : OrderIndex → Option OrderIndex) : Moves Quiet (onIndex f) := by
  intro s a s' he
  obtain ⟨i, -, h⟩ := Option.map_eq_some_iff.mp he
  cases h
  exact .of_eq rfl rfl rfl

/-- An entry of the history that is not about a trade. -/
theorem Quiet.log {s : Engine} {m : Mark} {i : OrderIndex} (he : MatchingEngine.Cpp.executed [m] = [])
    (hr : MatchingEngine.Cpp.reported [m] = []) :
    Quiet s { s with log := s.log ++ [m], idx_ := i } where
  trades := (List.append_nil _).symm
  tid := rfl
  ids := rfl
  executed := by rw [executed_append, he]
  reported := by rw [reported_append, hr]

instance : Silent Quiet where
  refl := Course.refl
  trans _ _ _ h h' := h.trans h'
  frame ht hi hl _ := .of_eq ht hi hl
  log s m hm := by
    have he : executed [m] = [] := by cases m <;> first | rfl | cases hm
    have hr : reported [m] = [] := by
      cases m with
      | event e => cases e <;> first | rfl | cases hm
      | _ => rfl
    exact Quiet.log (i := s.idx_) he hr
  discard _ := Quiet.log rfl rfl

/-- The statement that tells of an order that is taken in. -/
theorem quiet_accepted (o : ℕ) : Moves Quiet (notify o .onOrderAccepted) := by
  refine (moves_order o).bind fun c => ?_
  rintro s _ _ ⟨⟩
  exact Quiet.log rfl rfl

/-- The statement that makes a trade makes it. -/
theorem makes_record (contra : Side) (fq : ℤ) (inc rest : Order) :
    Moves Makes (record contra fq inc rest) := by
  rintro s _ _ ⟨⟩
  refine ⟨[⟨s.tid_, rest.price, fq, inc.id, rest.id, inc.side, s.now_⟩], rfl, rfl, rfl, ?_, ?_⟩
  · exact executed_append _ _
  · exact reported_append _ _

instance : Trading Makes where
  refl s := ⟨[], .refl s⟩
  trans := fun _ _ _ ⟨_, h⟩ ⟨_, h'⟩ => ⟨_, h.trans h'⟩
  frame ht hi hl _ := ⟨[], Quiet.of_eq ht hi hl⟩
  log s _ hm := ⟨[], Silent.log (P := Quiet) s hm⟩
  discard h := ⟨[], Silent.discard (P := Quiet) h⟩
  record := makes_record

instance : Silent (Reports R) where
  refl s := ⟨[], [], .refl s, Additive.nil⟩
  trans := fun _ _ _ ⟨_, _, h, hp⟩ ⟨_, _, h', hp'⟩ => ⟨_, _, h.trans h', Additive.append hp hp'⟩
  frame ht hi hl _ := (Quiet.of_eq ht hi hl).reports
  log s _ hm := Quiet.reports (Silent.log s hm)
  discard h := Quiet.reports (Silent.discard h)

/-! ## Trades and stops -/

/-- The turns of the triggered stops, one after another. -/
theorem reports_activate {f : ℕ → ℕ → Prog Engine Unit} (hf : ∀ o d, Moves (Reports R) (f o d))
    (depth : ℕ) : ∀ ps, Moves (Reports R) (activate f depth ps) := by
  intro ps
  induction ps with
  | nil => exact .pure
  | cons p ps ih =>
    exact (moves_trigger p).bind fun _ => (hf _ _).bind fun _ => ih

/-- The evaluation of the stops reports what the stops trade. -/
theorem reports_evalStops {f : ℕ → ℕ → Prog Engine Unit} (hf : ∀ o d, Moves (Reports R) (f o d))
    (px : ℤ) (depth : ℕ) : Moves (Reports R) (evalStops S f px depth) :=
  moves_read.bind fun _ => (moves_takeStops px _ _ _).bind fun _ =>
    moves_read.bind fun _ => reports_activate hf depth _

/-- The report of a trade. -/
theorem course_report (s : Engine) (t : Trade) (px : ℤ) (depth : ℕ) : Course [] [t] s
    { s with log := s.log ++ [.event (.onTrade t)], lastPx_ := px, lastDepth := depth } where
  trades := (List.append_nil _).symm
  tid := rfl
  ids := rfl
  executed := executed_append _ _
  reported := reported_append _ _

/-- A way to emit trades after which, when it starts where some trades were made, what was reported
is in relation `R` to what was made. -/
def Emits (R : List Trade → List Trade → Prop) (emit : ℕ → ℕ → Prog Engine Unit) : Prop :=
  ∀ (depth : ℕ) (s s₁ s' : Engine) (a : Unit), Makes s s₁ →
    emit s.trades_.length depth s₁ = some (a, s') → Reports R s s'

/-- The phase that matches makes the trades and then emits them. -/
theorem reports_matchPhase {emit : ℕ → ℕ → Prog Engine Unit} (he : Emits R emit) (o depth : ℕ) :
    Moves (Reports R) (matchPhase emit o depth) := by
  intro s a s' h
  obtain ⟨_, _, ⟨⟩, h⟩ := run_bind_iff.mp h
  obtain ⟨c, s₁, hord, h⟩ := run_bind_iff.mp h
  have hq : Quiet s s₁ := moves_order o s c s₁ hord
  have hlen : s.trades_.length = s₁.trades_.length := by rw [hq.trades, List.append_nil]
  rw [hlen] at h
  refine trans_of (Reports R) hq.reports ?_
  split at h
  · obtain ⟨_, s₂, h₂, h⟩ := run_bind_iff.mp h
    obtain ⟨_, _, ⟨⟩, h⟩ := run_bind_iff.mp h
    dsimp only at h
    have hm₂ : Makes s₁ s₂ := moves_matchOrd o _ _ _ h₂
    split at h
    · obtain ⟨_, s₃, h₃, h⟩ := run_bind_iff.mp h
      obtain ⟨_, s₄, h₄, h⟩ := run_bind_iff.mp h
      -- Both matches of a market-to-limit order come before the reports.
      have hm₃ : Makes s₁ s₃ := trans_of Makes hm₂ (moves_toLimit _ o _ _ _ h₃)
      exact trans_of (Reports R) (he _ _ _ _ _ hm₃ h₄) (moves_finish _ o _ _ _ h)
    · -- No trade was made in this case, so nothing has to be reported.
      have hk : Quiet s₂ s' := moves_kill o _ _ _ _ h
      obtain ⟨new, hc⟩ := hm₂
      have hnew : new = [] := by
        have := congrArg List.length hc.trades
        rw [List.length_append] at this
        exact List.length_eq_zero_iff.mp (by omega)
      subst hnew
      exact trans_of (Reports R) (Quiet.reports hc) hk.reports
  · obtain ⟨_, s₃, h₃, h⟩ := run_bind_iff.mp h
    obtain ⟨_, s₄, h₄, h⟩ := run_bind_iff.mp h
    -- One match, and then the reports.
    have hm₃ : Makes s₁ s₃ := moves_matchPlain _ o _ _ _ h₃
    exact trans_of (Reports R) (he _ _ _ _ _ hm₃ h₄) (moves_finish _ o _ _ _ h)

/-- `processActive` matches in one of its phases only. -/
theorem reports_processActiveWith {emit : ℕ → ℕ → Prog Engine Unit} (he : Emits R emit)
    (o depth : ℕ) : Moves (Reports R) (processActiveWith emit o depth) := by
  refine (moves_order o).bind fun c => .ite (fun _ => moves_postOnlyPhase o)
    fun _ => ?_
  refine Moves.bind (.ite (fun _ => moves_fokCheck c) fun _ => .pure) fun fok => ?_
  refine .ite (fun _ => ?_) fun _ => moves_kill o _
  refine Moves.bind (.ite (fun _ => moves_minQtyCheck c) fun _ => .pure)
    fun enough => ?_
  exact .ite (fun _ => reports_matchPhase he o depth) fun _ => moves_kill o _

/-- `process` either puts a stop to sleep or matches. -/
theorem reports_process {f : ℕ → ℕ → Prog Engine Unit} (hf : ∀ o d, Moves (Reports R) (f o d))
    (o depth : ℕ) : Moves (Reports R) (process f o depth) := by
  refine (moves_order o).bind fun c => .ite (fun _ => moves_read.bind fun fire => ?_)
    fun _ => hf o depth
  refine .ite (fun _ => ?_) fun _ => moves_stops (· ++ [o])
  exact (moves_trigger o).bind fun _ => hf o depth

/-! ## Calls -/

/-- What a call does to the trades: it makes `new`, reports `out`, and leaves `new` in the
buffer unless it does not come to matching. -/
structure Settles (R : List Trade → List Trade → Prop) (s s' : Engine) (new out : List Trade) :
    Prop where
  tid : s'.tid_ = s.tid_ + new.length
  ids : new.map (·.tradeId) = List.range' s.tid_ new.length
  executed : executed s'.log = executed s.log ++ new
  reported : reported s'.log = reported s.log ++ out
  rel : R out new
  buffer : s'.trades_ = new ∨ s'.trades_ = s.trades_ ∧ new = []

/-- Two states between which a call settles its trades. -/
def Settled (R : List Trade → List Trade → Prop) (s s' : Engine) : Prop :=
  ∃ new out, Settles R s s' new out

/-- Where nothing happens to trades, the buffer is kept. -/
theorem Quiet.settled {s s' : Engine} (h : Quiet s s') : Settled R s s' :=
  ⟨[], [], h.tid, h.ids, h.executed, h.reported, Additive.nil,
    .inr ⟨h.trades.trans (List.append_nil _), rfl⟩⟩

omit [Additive R] in
/-- The buffer is cleared, then trades are made and reported, then nothing happens to trades. -/
theorem Settled.of_clear {s s₁ s₂ s' : Engine} (h : Quiet s s₁)
    (hr : Reports R { s₁ with trades_ := [] } s₂) (h' : Quiet s₂ s') : Settled R s s' := by
  obtain ⟨new, out, hc, hp⟩ := hr
  have ht : s₁.tid_ = s.tid_ := h.tid
  refine ⟨new, out, ?_, ?_, ?_, ?_, hp, .inl ?_⟩
  · rw [h'.tid, hc.tid]
    change s₁.tid_ + _ + _ = _
    rw [ht]
    rfl
  · rw [← ht]
    exact hc.ids
  · rw [h'.executed, hc.executed, List.append_nil]
    exact congrArg (· ++ new) (h.executed.trans (List.append_nil _))
  · rw [h'.reported, hc.reported, List.append_nil]
    exact congrArg (· ++ out) (h.reported.trans (List.append_nil _))
  · rw [h'.trades, hc.trades, List.append_nil]
    rfl

variable {f : ℕ → ℕ → Prog Engine Unit}

/-- `submitOrder`: a duplicate is rejected before the buffer is cleared. -/
theorem settled_submitWith (hf : ∀ o d, Moves (Reports R) (f o d)) (i : OrderInput) :
    Moves (Settled R) (submitWith f i) := by
  intro s a s' h
  obtain ⟨_, _, ⟨⟩, h⟩ := run_bind_iff.mp h
  split at h
  · exact (Moves.bind (R := Quiet) (moves_mark rfl) (fun _ => .pure) _ _ _ h).settled
  · obtain ⟨o, s₁, h₁, h⟩ := run_bind_iff.mp h
    obtain ⟨t, s₂, h₂, h⟩ := run_bind_iff.mp h
    obtain ⟨_, s₃, h₃, h⟩ := run_bind_iff.mp h
    obtain ⟨_, _, ⟨⟩, h⟩ := run_bind_iff.mp h
    obtain ⟨c, s₄, h₄, h⟩ := run_bind_iff.mp h
    have hq : Quiet s s₄ :=
      trans_of Quiet (moves_allocOrd _ _ _ h₁) <| trans_of Quiet (moves_tick _ _ _ h₂) <|
        trans_of Quiet (moves_set o _ _ _ _ h₃) (moves_order o _ _ _ h₄)
    cases hv : validate s₃.now_ c with
    -- Not valid: reported and freed, with nothing traded.
    | some err =>
      rw [hv] at h
      have hrej : Quiet s₄ s' := ((moves_set o _).bind fun _ => (moves_notify o fun _ => rfl).bind
        fun _ => (moves_freeOrd o).bind fun _ => .pure) _ _ _ h
      exact (trans_of Quiet hq hrej).settled
    -- The buffer is cleared before the order is processed.
    | none =>
      rw [hv] at h
      obtain ⟨_, s₅, h₅, h⟩ := run_bind_iff.mp h
      obtain ⟨_, s₆, h₆, h⟩ := run_bind_iff.mp h
      obtain ⟨_, _, ⟨⟩, h⟩ := run_bind_iff.mp h
      obtain ⟨_, s₇, h₇, ⟨⟩⟩ := run_bind_iff.mp h
      have hq₆ : Quiet s s₆ :=
        trans_of Quiet hq <| trans_of Quiet (quiet_onIndex _ _ _ _ h₅)
          (quiet_accepted o _ _ _ h₆)
      exact .of_clear hq₆ (reports_process hf o 0 _ _ _ h₇) (.refl _)

/-- `amendOrder`: an order that keeps its place leaves the buffer alone. -/
theorem settled_amendWith (hf : ∀ o d, Moves (Reports R) (f o d)) (id : UInt64) (newPx newQty : ℤ) :
    Moves (Settled R) (amendWith f id newPx newQty) := by
  intro s a s' h
  obtain ⟨_, _, ⟨⟩, h⟩ := run_bind_iff.mp h
  dsimp only at h
  -- Every way out but one leaves the buffer alone.
  have hpure : ∀ {b : Bool} {t : Engine}, Quiet s t →
      (pure b : Prog Engine Bool) t = some (a, s') → Settled R s s' := by
    rintro b t hq ⟨⟩
    exact hq.settled
  cases hget : s.idx_.get id with
  | none =>
    rw [hget] at h
    exact hpure (.refl s) h
  | some o =>
    rw [hget] at h
    obtain ⟨c, s₁, h₁, h⟩ := run_bind_iff.mp h
    have hq : Quiet s s₁ := moves_cell o _ _ _ h₁
    split at h
    · cases hlv : c.level with
      | none =>
        rw [hlv] at h
        exact hpure hq h
      | some lv =>
        rw [hlv] at h
        dsimp only at h
        split at h
        · obtain ⟨_, s₂, h₂, h⟩ := run_bind_iff.mp h
          exact hpure (trans_of Quiet hq (moves_set o _ _ _ _ h₂)) h
        · split at h
          · obtain ⟨_, s₂, h₂, h⟩ := run_bind_iff.mp h
            obtain ⟨_, s₃, h₃, h⟩ := run_bind_iff.mp h
            obtain ⟨_, s₄, h₄, h⟩ := run_bind_iff.mp h
            obtain ⟨_, s₅, h₅, h⟩ := run_bind_iff.mp h
            obtain ⟨_, _, ⟨⟩, h⟩ := run_bind_iff.mp h
            obtain ⟨_, s₆, h₆, ⟨⟩⟩ := run_bind_iff.mp h
            have hq₅ : Quiet s s₅ :=
              trans_of Quiet hq <| trans_of Quiet (moves_removeFrom lv o _ _ _ _ h₂) <|
                trans_of Quiet (moves_set o _ _ _ _ h₃) <| trans_of Quiet (moves_tick _ _ _ h₄)
                  (moves_set o _ _ _ _ h₅)
            exact .of_clear hq₅ (hf o 0 _ _ _ h₆) (.refl _)
          · exact hpure hq h
    · exact hpure hq h

/-- Every call reports just the trades that it makes. -/
theorem settled_runWith (hf : ∀ o d, Moves (Reports R) (f o d)) (c : Call) :
    Moves (Settled R) (c.runWith f) := by
  cases c with
  | submit i =>
    intro s _ s' h
    obtain ⟨_, _, h, ⟨⟩⟩ := run_bind_iff.mp h
    exact settled_submitWith hf i _ _ _ h
  | cancel id => exact ((moves_cancelOrder id).bind fun _ => .pure).mono fun _ _ => Quiet.settled
  | amend id newPx newQty =>
    intro s _ s' h
    obtain ⟨_, _, h, ⟨⟩⟩ := run_bind_iff.mp h
    exact settled_amendWith hf id newPx newQty _ _ _ h
  | expire t => exact (moves_expireOrders t).mono fun _ _ => Quiet.settled
  | setTime t =>
    rintro s _ _ ⟨⟩
    exact Quiet.settled (.of_eq rfl rfl rfl)
  | assignId =>
    intro s _ s' h
    obtain ⟨_, _, h, ⟨⟩⟩ := run_bind_iff.mp h
    obtain ⟨r, -, h⟩ := Option.map_eq_some_iff.mp h
    cases h
    exact Quiet.settled (.of_eq rfl rfl rfl)

/-! ## The cascade -/

/-- A turn of the loop: the trade at the iterator is reported, and then the stops are evaluated. -/
theorem emitLoop_succ {eval : ℤ → ℕ → Prog Engine Unit} {depth n i : ℕ} {s s' : Engine} {a : Unit}
    (h : emitLoop eval depth (n + 1) i s = some (a, s')) (hi : i < s.trades_.length) :
    ∃ s₁ s₂, Course [] [s.trades_[i]] s s₁ ∧
      (if depth < maxCascade then eval s.trades_[i].price depth else pure ()) s₁ = some ((), s₂) ∧
      emitLoop eval depth n (i + 1) s₂ = some (a, s') := by
  obtain ⟨_, _, ⟨⟩, h⟩ := run_bind_iff.mp h
  rw [List.getElem?_eq_getElem hi] at h
  obtain ⟨_, _, ⟨⟩, h⟩ := run_bind_iff.mp h
  obtain ⟨_, _, ⟨⟩, h⟩ := run_bind_iff.mp h
  obtain ⟨_, s₂, h₂, h⟩ := run_bind_iff.mp h
  exact ⟨_, s₂, course_report s _ _ depth, h₂, h⟩

/-- At the depth limit nothing is evaluated. -/
theorem reports_below {eval : ℤ → ℕ → Prog Engine Unit} (he : ∀ px d, Moves (Reports R) (eval px d))
    (px : ℤ) (depth : ℕ) :
    Moves (Reports R) (if depth < maxCascade then eval px depth else pure ()) :=
  .ite (fun _ => he px depth) fun _ => .pure

/-- The loop over the `n` trades from the `i`th on reports these and whatever is made meanwhile. -/
theorem emitLoop_course {eval : ℤ → ℕ → Prog Engine Unit}
    (he : ∀ px d, Moves (Reports List.Perm) (eval px d)) {depth : ℕ} :
    ∀ n i s a s', emitLoop eval depth n i s = some (a, s') →
      i + n ≤ s.trades_.length →
      ∃ new out, Course new out s s' ∧ out.Perm ((s.trades_.drop i).take n ++ new) := by
  intro n
  induction n with
  | zero =>
    rintro i s _ _ ⟨⟩ _
    exact ⟨[], [], .refl s, by simp⟩
  | succ n ih =>
    intro i s a s' h hi
    have hlt : i < s.trades_.length := by omega
    obtain ⟨s₁, s₂, hc₁, h₂, h₃⟩ := emitLoop_succ h hlt
    obtain ⟨new₁, out₁, hc₂, hp₁⟩ := reports_below (R := List.Perm) he _ _ s₁ _ s₂ h₂
    -- The evaluation adds trades at the end, so the slice still to be told of is the same.
    have htr : s₂.trades_ = s.trades_ ++ new₁ := by rw [hc₂.trades, hc₁.trades, List.append_nil]
    obtain ⟨new₂, out₂, hc₃, hp₂⟩ := ih (i + 1) s₂ a s' h₃ (by
      rw [htr, List.length_append]
      omega)
    refine ⟨_, _, (hc₁.trans hc₂).trans hc₃, ?_⟩
    have hslice : (s₂.trades_.drop (i + 1)).take n = (s.trades_.drop (i + 1)).take n := by
      rw [htr, List.drop_append_of_le_length (by omega),
        List.take_append_of_le_length (by rw [List.length_drop]; omega)]
    rw [List.drop_eq_getElem_cons hlt, List.take_succ_cons]
    rw [hslice] at hp₂
    calc [s.trades_[i]] ++ out₁ ++ out₂
      _ = s.trades_[i] :: (out₁ ++ out₂) := by simp
      _ |>.Perm (s.trades_[i] :: (new₁ ++ ((s.trades_.drop (i + 1)).take n ++ new₂))) :=
        (hp₁.append hp₂).cons _
      _ |>.Perm (s.trades_[i] :: ((s.trades_.drop (i + 1)).take n ++ (new₁ ++ new₂))) := by
        refine List.Perm.cons _ ?_
        rw [← List.append_assoc, ← List.append_assoc]
        exact List.perm_append_comm.append_right _
      _ = _ := by simp

/-- A part that makes trades, followed by the report of these. -/
theorem emits_emitAndTrigger {eval : ℤ → ℕ → Prog Engine Unit}
    (he : ∀ px d, Moves (Reports List.Perm) (eval px d)) :
    Emits List.Perm (emitAndTrigger eval) := by
  rintro depth s s₁ s' a ⟨new, hc⟩ h
  obtain ⟨_, _, ⟨⟩, h⟩ := run_bind_iff.mp h
  dsimp only at h
  have hlen : s₁.trades_.length = s.trades_.length + new.length := by
    rw [hc.trades, List.length_append]
  obtain ⟨new', out, hc', hp⟩ := emitLoop_course he _ _ _ _ _ h (by omega)
  refine ⟨new ++ new', [] ++ out, hc.trans hc', ?_⟩
  rw [hc.trades, List.drop_left, List.take_of_length_le (by rw [List.length_append]; omega)] at hp
  exact hp

/-- By induction on the depth that is left. -/
theorem reports_processActiveIn (S : StdSort) : ∀ n o depth,
    Moves (Reports List.Perm) (processActiveIn S n o depth) := by
  intro n
  induction n with
  | zero => exact fun _ _ => .trap
  | succ n ih => exact reports_processActiveWith (emits_emitAndTrigger (reports_evalStops ih))

/-- Every call reports a permutation of what it executes. -/
theorem settled_run (S : StdSort) (c : Call) : Moves (Settled List.Perm) (c.run S) :=
  settled_runWith (reports_processActiveIn S _) c

/-! ## Runs -/

variable {S : StdSort} {pop : PostOnlyPolicy} {tickSz : ℤ}

/-- In a run so far, the trades have the ids from one on, and each has been reported once. -/
structure Accounted (s : Engine) : Prop where
  tid : s.tid_ = 1 + (executed s.log).length
  ids : (executed s.log).map (·.tradeId) = List.range' 1 (executed s.log).length
  perm : (reported s.log).Perm (executed s.log)

/-- A call keeps the account. -/
theorem Accounted.step {s s' : Engine} {new out : List Trade} (h : Accounted s)
    (hc : Settles List.Perm s s' new out) : Accounted s' where
  tid := by rw [hc.tid, h.tid, hc.executed, List.length_append, Nat.add_assoc]
  ids := by
    rw [hc.executed, List.map_append, h.ids, hc.ids, h.tid, List.range'_append_1,
      List.length_append]
  perm := by
    rw [hc.executed, hc.reported]
    exact h.perm.append hc.rel

/-- The account of a run, call by call. -/
theorem accounted {s : Engine} (hs : Reach S pop tickSz s) : Accounted s := by
  induction hs with
  | init => exact ⟨rfl, rfl, .refl _⟩
  | call c _ h ih =>
    obtain ⟨new, out, hc⟩ := settled_run S c _ _ _ h
    exact ih.step hc

/-- In every state of a run, the trades that were executed have the ids 1, 2, 3, ... in the order of
execution and each of them, and nothing else, has been reported just once. A call makes some trades,
which it leaves in the buffer if it makes any, and reports each of these once before it returns. -/
theorem trades_reported_once {s : Engine} (hs : Reach S pop tickSz s) :
    (executed s.log).map (·.tradeId) = List.range' 1 (executed s.log).length ∧
      (reported s.log).Perm (executed s.log) ∧ (reported s.log).Nodup ∧
      s.tradeCount = (reported s.log).length ∧
      ∀ (c : Call) (s' : Engine), c.run S s = some ((), s') →
        ∃ new out, executed s'.log = executed s.log ++ new ∧ reported s'.log = reported s.log ++ out ∧
          out.Perm new ∧ (s'.trades_ = new ∨ s'.trades_ = s.trades_ ∧ new = []) := by
  have hacc := accounted hs
  refine ⟨hacc.ids, hacc.perm, ?_, ?_, fun c s' h => ?_⟩
  · refine hacc.perm.nodup_iff.mpr (List.Nodup.of_map (·.tradeId) ?_)
    rw [hacc.ids]
    exact List.nodup_range'
  · change s.tid_ - 1 = _
    rw [hacc.tid, hacc.perm.length_eq]
    omega
  · obtain ⟨new, out, hc⟩ := settled_run S c _ _ _ h
    exact ⟨new, out, hc.executed, hc.reported, hc.rel, hc.buffer⟩

/-- Two orders to sell at 10 and 11, a stop at 10, a third order to sell, and a market order for
two. -/
def midSlice : List Call :=
  [.submit { id := 1, side := .SELL, price := 10, quantity := 1 },
   .submit { id := 2, side := .SELL, price := 11, quantity := 1 },
   .submit { id := 3, side := .SELL, price := 12, quantity := 1 },
   .submit { id := 4, orderType := .STOP_MARKET, stopPrice := 10, quantity := 1 },
   .submit { id := 5, orderType := .MARKET, timeInForce := .IOC, quantity := 2 }]

/-- `trades_reported_once` at the end of such a run, in which a stop fires between two trades. -/
theorem trades_reported_once_mid_slice :
    ∃ s, runAll .insertion midSlice (.init .REJECT 1) = some ((), s) ∧
    (reported s.log).Perm (executed s.log) ∧ s.tradeCount = (reported s.log).length := by
  have hret : (runAll .insertion midSlice (.init .REJECT 1)).isSome = true := by decide +kernel
  obtain ⟨⟨_, s⟩, h⟩ := Option.isSome_iff_exists.mp hret
  obtain ⟨-, hp, -, hcount, -⟩ := trades_reported_once (Reach.init.runAll h)
  exact ⟨s, h, hp, hcount⟩

end MatchingEngine.Cpp
