import MatchingEngine.C.Totals
import MatchingEngine.Gen.Correct
import MatchingEngine.Hand.Program

/-!
# The handwritten matcher follows the generated one

On one heap the two matchers do the same: whenever the generated matcher returns over the adapter,
so does the handwritten one, with the same heap and with its reports for trades. They differ in how
they are written. The handwritten one adjusts the total of a level by hand, calls back at once,
breaks out of its loops, and bounds them by nothing.
-/

namespace MatchingEngine.Hand

open Contract Lib C Gen

/-- The event of a trade. -/
def eventOf (t : TradeRow) : TradeEvent := ⟨t.taker, t.maker, t.price, t.qty⟩

/-- The state after the reports of the trades `ts`. -/
def State.reports (s : State) (ts : List TradeRow) : State :=
  ts.foldl (fun s t => s.report (eventOf t)) s

/-- A report does not look at the heap. -/
theorem State.report_set (s : State) (e : TradeEvent) (db : EngineDb) :
    ({ s with db := db } : State).report e = { s.report e with db := db } := by
  unfold report
  split <;> simp_all

/-- The reports of some trades and of one more. -/
theorem State.reports_append (s : State) (ts : List TradeRow) (t : TradeRow) :
    s.reports (ts ++ [t]) = (s.reports ts).report (eventOf t) := by
  unfold reports
  rw [List.foldl_append]
  rfl

/-- The handwritten matcher, started in `t₀`, is where the generated one is: it has the heap of the
adapter and has reported its trades. -/
structure Locked (t₀ : State) (s : Gen.State Adapter) (t : State) : Prop where
  state : t = { t₀.reports s.store.tradeList with db := s.store.db }
  cap : s.store.g_cap.toNat + 1 < 2^64

namespace Locked

variable {t₀ : State} {s : Gen.State Adapter} {t : State}

/-- The heap is the adapter's. -/
theorem db (h : Locked t₀ s t) : t.db = s.store.db := by rw [h.state]

/-- The same write to both heaps. -/
theorem write (h : Locked t₀ s t) (db : EngineDb) :
    Locked t₀ { s with store := { s.store with db := db } } { t with db := db } :=
  ⟨by rw [h.state]; rfl, h.cap⟩

end Locked

section Calls

variable {α : Type} {wrap : Bool} {t₀ : State} {s : Gen.State Adapter} {t : State}

/-- A function of the data layer called by both. -/
theorem follows_update {c : Op α} {f : EngineDb → Option (α × EngineDb)} (h : Locked t₀ s t)
    (hop : Adapter.performAs wrap c s.store = (f s.store.db).map fun r =>
      (r.1, { s.store with db := r.2 })) :
    Follows (call (Adapter.performAs wrap) c) s (update f) t fun a s' b t' => a = b ∧
      Locked t₀ s' t' := by
  intro a s' he
  change (Adapter.performAs wrap c s.store).map _ = _ at he
  rw [hop] at he
  unfold update
  rw [h.db]
  cases hf : f s.store.db with
  -- Where the function does not return, neither caller does.
  | none =>
    rw [hf] at he
    cases he
  | some r =>
    rw [hf] at he
    cases he
    exact ⟨r.1, _, rfl, rfl, h.write r.2⟩

/-- A write that both make. -/
theorem follows_write {c : Op Unit} {f : EngineDb → EngineDb} (h : Locked t₀ s t)
    (hop : Adapter.performAs wrap c s.store = some ((), { s.store with db := f s.store.db })) :
    Follows (call (Adapter.performAs wrap) c) s (write f) t fun _ s' _ t' => Locked t₀ s' t' :=
  (follows_update (f := fun db => some ((), f db)) h hop).mono fun _ _ _ _ hx => hx.2

/-- A function of the data layer that both read with. -/
theorem follows_follow {c : Op α} {f : EngineDb → Option α} (h : Locked t₀ s t)
    (hop : Adapter.performAs wrap c s.store = (f s.store.db).map fun r => (r, s.store)) :
    Follows (call (Adapter.performAs wrap) c) s (follow f) t fun a s' b t' =>
      a = b ∧ s' = s ∧ t' = t := by
  intro a s' he
  change (Adapter.performAs wrap c s.store).map _ = _ at he
  rw [hop] at he
  unfold follow
  rw [h.db]
  cases hf : f s.store.db with
  | none =>
    rw [hf] at he
    cases he
  | some r =>
    rw [hf] at he
    cases he
    exact ⟨r, _, rfl, rfl, rfl, rfl⟩

/-- A field read by the handwritten matcher alone. -/
theorem follows_read {β γ : Type} {m : Prog (Gen.State Adapter) β} {f : EngineDb → α}
    {k : α → Prog State γ} {R : β → Gen.State Adapter → γ → State → Prop} (h : Locked t₀ s t)
    (hk : Follows m s (k (f s.store.db)) t R) : Follows m s (read f >>= k) t R :=
  .right (by unfold read; rw [h.db]) hk

/-- `me_sub` returns the difference of numbers that are in order. -/
theorem meSub_eq_some {S : Type} {a b c : UInt64} {s s' : Gen.State S} :
    meSub a b s = some (c, s') ↔ b ≤ a ∧ c = a - b ∧ s' = s := by
  unfold meSub
  split
  · constructor
    · rintro ⟨⟩
      exact ⟨‹_›, rfl, rfl⟩
    · rintro ⟨-, rfl, rfl⟩
      rfl
  · constructor
    · rintro ⟨⟩
    · exact fun hc => absurd hc.1 ‹_›

/-- A trade emitted and reported. -/
theorem follows_meEmit {m r p q : UInt64} (h : Locked t₀ s t) :
    Follows (meEmit (Adapter.performAs wrap) m r p q) s
      (modify (·.report ⟨r, m, p, q⟩) : Prog State Unit) t
      fun _ s' _ t' => Locked t₀ s' t' ∧ s'.store.db = s.store.db := by
  unfold meEmit
  refine .left_eq (a := s.store.g_cap) (u := s) rfl (.left fun b s₁ hb => ?_)
  obtain rfl : s₁ = s := by
    unfold meAdd at hb
    split at hb <;> cases hb
    rfl
  refine .left_eq (a := s₁) (u := s₁) rfl ?_
  split
  · rintro _ _ ⟨⟩
  -- A full buffer stops the adapter, and there is nothing to follow.
  by_cases hroom : s₁.store.g_ntrades > s₁.store.g_cap
  · intro _ _ he
    change (((Adapter.performAs wrap) (.tradeEmit m r p q) s₁.store).map _).bind _ = _ at he
    rw [show (Adapter.performAs wrap) (.tradeEmit m r p q) s₁.store = none from if_pos hroom] at he
    cases he
  · have hle : s₁.store.g_ntrades.toNat ≤ s₁.store.g_cap.toNat := by
      rw [← UInt64.le_iff_toNat_le]
      exact UInt64.not_lt.mp hroom
    -- The counter of the buffer does not wrap.
    have hn : s₁.store.g_ntrades.toNat + 1 < 2^64 := by
      have := h.cap
      omega
    have hexec : call (Adapter.performAs wrap) (.tradeEmit m r p q) s₁ =
        some ((), { s₁ with store := _ }) :=
      congrArg (Option.map _) (if_neg hroom)
    refine .left_eq hexec ?_
    rintro _ _ ⟨⟩
    refine ⟨(), _, rfl, ⟨?_, h.cap⟩, rfl⟩
    rw [h.state]
    change State.report _ _ = ({ State.reports _ (Adapter.tradeList _) with db := _ } : State)
    rw [Adapter.tradeList_emit hn, State.reports_append, State.report_set]
    rfl

/-- The total of the level `l` is no smaller than its order `p`. -/
def Holds (db : EngineDb) (l : LevelPtr) (p : OrderPtr) : Prop :=
  (db.orders p).orders_inlist = true ∧ (db.orders p).remaining_qty ≤ (db.levels l).total_qty

/-- An order taken out by both. -/
theorem follows_drop {best : LevelPtr} {p : OrderPtr} (h : Locked t₀ s t)
    (hfits : wrap = true → Holds s.store.db best p) :
    Follows (genDrop (Adapter.performAs wrap) best p) s (drop best p) t fun _ s' _ t' =>
      Locked t₀ s' t' := by
  unfold genDrop drop
  have hremove : (Adapter.performAs wrap) (.queueRemove best p) s.store =
      some ((), { s.store with db := s.store.db.ordersRemove best p }) := by
    rw [← Adapter.removeAs_eq hfits]
    rfl
  refine (follows_write h hremove).bind fun _ s₁ _ t₁ h₁ => ?_
  refine (follows_update h₁ ?_).bind fun _ s₂ _ t₂ h₂ => follows_write h₂.2 rfl
  simp only [Adapter.performAs, Adapter.exec, Option.map_map]
  rfl

/-- A level taken out by both. -/
theorem follows_dropLevel {tree : Tree} {best : LevelPtr} (h : Locked t₀ s t) :
    Follows (genDropLevel (Adapter.performAs wrap) tree best) s (dropLevel tree best) t fun _ s' _ t' =>
      Locked t₀ s' t' := by
  unfold genDropLevel dropLevel
  refine (follows_update h ?_).bind fun _ s₁ _ t₁ h₁ => follows_write h₁.2 rfl
  simp only [Adapter.performAs, Adapter.exec, Option.map_map]
  rfl

/-- The heap with an order and the total of its level reduced by `qty`. -/
def reduced (db : EngineDb) (l : LevelPtr) (o : OrderPtr) (qty : UInt64) : EngineDb :=
  (db.setOrder o fun r => { r with remaining_qty := r.remaining_qty - qty }).setLevel l fun v =>
    { v with total_qty := v.total_qty - qty }

/-- What is left of an order that was reduced. -/
theorem reduced_remaining (db : EngineDb) (l : LevelPtr) (o : OrderPtr) (qty : UInt64) :
    ((reduced db l o qty).orders o).remaining_qty = (db.orders o).remaining_qty - qty := by
  unfold reduced
  simp

/-- A reduction leaves an order in its queue. -/
theorem reduced_inlist (db : EngineDb) (l : LevelPtr) (o : OrderPtr) (qty : UInt64) :
    ((reduced db l o qty).orders o).orders_inlist = (db.orders o).orders_inlist := by
  unfold reduced
  simp

/-- `ME_order_set_remaining` of a linked order. -/
theorem orderSetRemaining_eq {db : EngineDb} {l : LevelPtr} {o : OrderPtr} {qty : UInt64}
    (hin : (db.orders o).orders_inlist = true) (hown : (db.orders o).p_price_level = some l) :
    Adapter.orderSetRemaining db o ((db.orders o).remaining_qty - qty) = reduced db l o qty := by
  have htotal : ∀ a b : UInt64, a - b + (b - qty) = a - qty := fun a b => by grind
  unfold Adapter.orderSetRemaining reduced
  rw [hin, hown]
  simp only [EngineDb.setOrder, EngineDb.setLevel, htotal]

/-- Both orders reduced by both matchers, on an order linked into the level. -/
theorem follows_reduce {best : LevelPtr} {passive : OrderPtr} {rem : UInt64}
    {report : UInt64 → Prog (Gen.State Adapter) Unit} {report' : UInt64 → Prog State Unit}
    (h : Locked t₀ s t) (hin : (s.store.db.orders passive).orders_inlist = true)
    (hown : (s.store.db.orders passive).p_price_level = some best)
    (hreport : ∀ qty s' t', Locked t₀ s' t' → Follows (report qty) s' (report' qty) t'
      fun _ s'' _ t'' => Locked t₀ s'' t'' ∧ s''.store.db = s'.store.db) :
    Follows (genReduce (Adapter.performAs wrap) best rem passive report) s
      (reduce best rem passive report') t
      fun x s' y t' => x = y ∧ Locked t₀ s' t' := by
  unfold genReduce reduce
  refine .left_eq (a := (s.store.db.orders passive).remaining_qty) (u := s) rfl ?_
  refine follows_read h (.left fun rem' s₁ hsub => ?_)
  obtain ⟨-, rfl, rfl⟩ := meSub_eq_some.mp hsub
  refine .left_eq (a := (s₁.store.db.orders passive).remaining_qty) (u := s₁) rfl ?_
  refine .left fun prem s₂ hsub => ?_
  obtain ⟨-, rfl, rfl⟩ := meSub_eq_some.mp hsub
  -- Both take the smaller of the two quantities.
  have hmin : minU64 rem (s₂.store.db.orders passive).remaining_qty =
      genMinU64 rem (s₂.store.db.orders passive).remaining_qty := rfl
  rw [hmin]
  generalize genMinU64 rem (s₂.store.db.orders passive).remaining_qty = qty
  have hset : call (Adapter.performAs wrap) (.orderSet .remaining passive
      ((s₂.store.db.orders passive).remaining_qty - qty)) s₂ = some ((), { s₂ with
        store := { s₂.store with db := reduced s₂.store.db best passive qty } }) := by
    rw [← orderSetRemaining_eq hin hown]
    rfl
  refine .left_eq hset (.right (c := ()) rfl (.right (c := ()) rfl ?_))
  -- The total is lowered by both: in the setter here, in the matcher there.
  have h₃ := h.write (reduced s₂.store.db best passive qty)
  change Follows _ _ _ { t with db := reduced t.db best passive qty } _
  rw [h.db]
  refine (hreport qty _ _ h₃).bind fun _ s₄ _ t₄ hx => ?_
  obtain ⟨h₄, hdb⟩ := hx
  refine .left_eq (a := s₄.store.db.ordersNext passive) (u := s₄) rfl (follows_read h₄ ?_)
  refine follows_read h₄ ?_
  rw [hdb, reduced_remaining]
  -- An order used up is dropped by both, and its remaining quantity is zero by then.
  by_cases h0 : (s₂.store.db.orders passive).remaining_qty - qty = 0
  · have hholds : Holds s₄.store.db best passive := by
      rw [hdb]
      unfold Holds
      rw [reduced_remaining, h0]
      exact ⟨(reduced_inlist ..).trans hin, UInt64.zero_le⟩
    rw [if_pos h0, if_pos h0]
    exact (follows_drop h₄ fun _ => hholds).bind fun _ s₅ _ t₅ h₅ =>
      .pure ⟨by rw [← hdb], h₅⟩
  · rw [if_neg h0, if_neg h0]
    exact .pure ⟨by rw [← hdb], h₄⟩

end Calls

/-! ## Matching -/

section Matching

variable {wrap : Bool} {caps : Caps} {s₀ : Adapter} {hv : Adapter.Valid caps s₀}
  {he : s₀.view = Db.empty}
  {t₀ : State} {s : Gen.State Adapter} {t : State} {r : Request} {q : OrderRequest}
  {hs : Tree → List LevelH} {db : Db} {n : UInt64}

/-- A queued order of the store is linked into its level on the heap. -/
theorem linked_of_queue (h : At (Adapter.storeAs wrap hv he) s db n) {l : LevelH} {o : OrderH}
    (ho : o ∈ db.queue l) : (s.store.db.orders o).orders_inlist = true ∧
      (s.store.db.orders o).p_price_level = some l := by
  obtain ⟨g, hrep⟩ := h.valid.1.rep
  rw [← h.view] at ho
  change o ∈ s.store.db.queueOf l at ho
  rw [hrep.queueOf_eq, hrep.queues.mem] at ho
  exact ⟨by rw [hrep.queues.flag, ho]; rfl, ho⟩

/-- An order that fits into its level is no larger than the total. -/
theorem holds_of_fits (h : At (Adapter.storeAs wrap hv he) s db n) (hw : wrap = true) {l : LevelH}
    {o : OrderH} (ho : o ∈ db.queue l) (hfits : Fits (db.row o) (db.levelOf l).orders) :
    Holds s.store.db l o := by
  have hlive := h.wf.queue_live l o ho
  obtain ⟨row, hrow⟩ := Option.isSome_iff_exists.mp hlive.1
  -- The total is that of the queue modulo `2^64`, where the adapter wraps.
  have htotal : (s.store.db.levels l).total_qty.toNat = (s.store.view.total l) % 2^64 := by
    refine h.valid.2.2 hw l ?_
    change l ∈ s.store.view.lLive
    rw [show s.store.view = db from h.view]
    exact (h.wf.levels_live l).mp hlive.2
  refine ⟨(linked_of_queue h ho).1, ?_⟩
  rw [UInt64.le_iff_toNat_le, htotal]
  rw [← h.view] at hfits hrow
  rw [Db.row_eq hrow] at hfits
  rw [Adapter.view_remaining hrow]
  exact hfits

/-- The mode of a valid request is told by its code. -/
theorem stp_mode_eq_iff (hq : q.Decodes r) (k : UInt8) :
    q.stp_mode = k ↔ r.stp.code = k.toUInt64 := by
  rw [hq.stp]
  exact UInt8.toUInt64_inj.symm

/-- An order that self-trade prevention takes out is no larger than the total of its level. -/
theorem holds_of_meeting {l : LevelH} {db₀ : Db} {tgt : Outcome (List OrderRow)} {rem : UInt64}
    {o : OrderH} {os : List OrderH} (h : At (Adapter.storeAs wrap hv he) s db n)
    (hm : Meeting caps (wrap = true) r hs l db₀ tgt (rem, some o) db n)
    (hqueue : db.queue l = o :: os) (hrem : rem ≠ 0)
    (hsame : r.account ≠ 0 ∧ r.account = (s.store.db.orders o).account_id)
    (hstp : r.stp = .cancelOld ∨ r.stp = .cancelBoth) (hw : wrap = true) : Holds s.store.db l o := by
  have hmem : o ∈ db.queue l := hqueue ▸ List.mem_cons_self
  obtain ⟨p, ho⟩ := Option.isSome_iff_exists.mp (hm.linked.order_live hmem)
  have hview : s.store.view = db := h.view
  have hrow : (s.store.db.orders o).row = p := Adapter.view_row (hview ▸ ho)
  have haccount : (s.store.db.orders o).account_id = p.account := congrArg OrderRow.account hrow
  -- Equal accounts put the mode of the request in force.
  have hprev : r.prevention p = r.stp := if_pos ⟨hsame.1, hsame.2.trans haccount⟩
  refine holds_of_fits h hw hmem ?_
  have hfits := hm.fits hw
  rw [Meeting.orders_eq hqueue ho] at hfits
  rw [Db.row_eq ho, Meeting.orders_eq hqueue ho]
  have hstep := hfits hrem
  rw [hprev] at hstep
  -- Either of the two modes takes the order out whole.
  rcases hstp with hstp | hstp <;> rw [hstp] at hstep
  · exact hstep.1
  · exact hstep

variable (wrap r) in
/-- The report of a fill. -/
theorem follows_report (best : LevelPtr) (passive : OrderPtr) (qty : UInt64)
    (h : Locked t₀ s t) : Follows (do
      let pid ← call (Adapter.performAs wrap) (.orderGet .id passive)
      let bprice ← call (Adapter.performAs wrap) (.levelGetPrice best)
      meEmit (Adapter.performAs wrap) pid r.id bprice qty) s (do
      let id ← read fun db => (db.orders passive).id
      let price ← read fun db => (db.levels best).price
      modify (·.report ⟨r.id, id, price, qty⟩)) t
      fun _ s' _ t' => Locked t₀ s' t' ∧ s'.store.db = s.store.db :=
  .left_eq (a := (s.store.db.orders passive).id) (u := s) rfl <|
    .left_eq (a := (s.store.db.levels best).price) (u := s) rfl <|
      follows_read h (follows_read h (follows_meEmit h))

/-- The turns of the two inner loops end alike, and the handwritten matcher breaks only when nothing
remains. -/
def Turned (t₀ : State) (x : UInt64 × Option OrderH) (s : Gen.State Adapter) :
    ForInStep (UInt64 × Option OrderPtr) → State → Prop
  | .yield y, t => x = y ∧ Locked t₀ s t
  | .done y, t => (x = y ∧ Locked t₀ s t) ∧ x.1 = 0

/-- A turn of the inner loop. -/
theorem follows_meet {l : LevelH} {db₀ : Db} {tgt : Outcome (List OrderRow)}
    {x : UInt64 × Option OrderH}
    (hI : MeetingAt (Adapter.storeAs wrap hv he) (wrap = true) r hs l db₀ tgt x s)
    (hgo : (x.2.isSome && 0 < x.1) = true) (hq : q.Decodes r) (h : Locked t₀ s t) :
    Follows (genMeet (Adapter.performAs wrap) l r.id r.account r.stp.code x) s (meet l q x) t
      (Turned t₀) := by
  obtain ⟨db, n, hat, hm⟩ := hI
  obtain ⟨rem, passive⟩ := x
  rw [Bool.and_eq_true, Option.isSome_iff_exists, decide_eq_true_iff] at hgo
  obtain ⟨⟨o, rfl : passive = some o⟩, hpos : 0 < rem⟩ := hgo
  have hrem : rem ≠ 0 := UInt64.pos_iff_ne_zero.mp hpos
  obtain ⟨os, hqueue⟩ : ∃ os, db.queue l = o :: os :=
    List.head?_eq_some_iff.mp (hm.passive hrem).symm
  obtain ⟨hin, hown⟩ := linked_of_queue hat (hqueue ▸ List.mem_cons_self : o ∈ db.queue l)
  have hmodes := stp_mode_eq_iff hq
  -- A turn that reduces both orders, with the report left open.
  have hreduce : ∀ {report : UInt64 → Prog (Gen.State Adapter) Unit}
      {report' : UInt64 → Prog State Unit},
      (∀ qty s' t', Locked t₀ s' t' → Follows (report qty) s' (report' qty) t'
        fun _ s'' _ t'' => Locked t₀ s'' t'' ∧ s''.store.db = s'.store.db) →
      Follows (genReduce (Adapter.performAs wrap) l rem o report) s
        (do return .yield (← reduce l rem o report')) t (Turned t₀) := by
    intro report report' hreport
    rw [← bind_pure (genReduce _ _ _ _ _)]
    exact (follows_reduce h hin hown hreport).bind fun _ _ _ _ hx => .pure hx
  have htrade := hreduce fun qty _ _ => follows_report wrap r l o qty
  unfold genMeet meet genSameAccount
  refine follows_read h ?_
  simp only [hmodes, ← hq.id, ← hq.account]
  -- Same account: the mode decides, and both read the modes alike.
  by_cases hsame : r.account ≠ 0 ∧ r.account = (s.store.db.orders o).account_id
  · rw [if_pos hsame.1, bind_assoc]
    refine .left_eq (a := (s.store.db.orders o).account_id) (u := s) rfl ?_
    rw [pure_bind, decide_eq_true hsame.2]
    have hmode : ∀ p : Prop, ((r.account ≠ 0 ∧ r.account = (s.store.db.orders o).account_id) ∧ p) ↔ p :=
      fun p => and_iff_right hsame
    simp only [hmode]
    cases hstp : r.stp with
    | none =>
      rw [if_neg (by decide), if_neg (by decide), if_neg (by decide), if_neg (by decide)]
      exact htrade
    | cancelNew =>
      rw [if_pos (by decide), if_pos (by decide), if_pos (by decide)]
      exact .pure ⟨⟨rfl, h⟩, rfl⟩
    | cancelOld =>
      rw [if_pos (by decide), if_neg (by decide), if_pos (by decide), if_neg (by decide),
        if_neg (by decide), if_pos (by decide)]
      refine .left_eq (a := s.store.db.ordersNext o) (u := s) rfl (follows_read h ?_)
      refine (follows_drop h (holds_of_meeting hat hm hqueue hrem hsame (.inl hstp))).bind
        fun _ s₁ _ t₁ h₁ => ?_
      rw [if_neg (by decide)]
      exact .pure ⟨rfl, h₁⟩
    | cancelBoth =>
      rw [if_pos (by decide), if_neg (by decide), if_pos (by decide), if_pos (by decide),
        if_neg (by decide), if_pos (by decide)]
      refine .left_eq (a := s.store.db.ordersNext o) (u := s) rfl (follows_read h ?_)
      refine (follows_drop h (holds_of_meeting hat hm hqueue hrem hsame (.inr hstp))).bind
        fun _ s₁ _ t₁ h₁ => ?_
      rw [if_pos (by decide)]
      exact .pure ⟨⟨rfl, h₁⟩, rfl⟩
    | decrement =>
      rw [if_pos (by decide), if_neg (by decide), if_neg (by decide), if_neg (by decide),
        if_neg (by decide), if_pos (by decide)]
      exact hreduce fun _ _ _ h' => .pure ⟨h', rfl⟩
  · -- Different accounts trade whatever the mode is.
    have hmode : ∀ p : Prop, ¬ ((r.account ≠ 0 ∧ r.account = (s.store.db.orders o).account_id) ∧ p) :=
      fun p hp => hsame hp.1
    rw [if_neg (hmode _), if_neg (hmode _), if_neg (hmode _)]
    by_cases h0 : r.account ≠ 0
    · rw [if_pos h0, bind_assoc]
      refine .left_eq (a := (s.store.db.orders o).account_id) (u := s) rfl ?_
      rw [pure_bind, decide_eq_false fun hc => hsame ⟨h0, hc⟩, if_neg (by simp)]
      exact htrade
    · rw [if_neg h0, pure_bind, if_neg (by simp)]
      exact htrade

/-- `ME_capacity() + 1`, which only the generated matcher computes. -/
theorem follows_bound {α β : Type} {k : UInt64 → Prog (Gen.State Adapter) α} {m : Prog State β}
    {R : α → Gen.State Adapter → β → State → Prop}
    (hk : ∀ b : UInt64, b.toNat = s.store.g_cap.toNat + 1 → Follows (k b) s m t R) :
    Follows (do let b ← meAdd (← call (Adapter.performAs wrap) .capacity) 1; k b) s m t R := by
  have h1 : (1 : UInt64).toNat = 1 := rfl
  refine .left_eq (a := s.store.g_cap) (u := s) rfl (.left fun b s₁ hb => ?_)
  unfold meAdd at hb
  split at hb
  · cases hb
    refine hk _ ?_
    rw [UInt64.toNat_add, h1]
    omega
  · cases hb

/-- The inner loops. -/
theorem follows_meetAll (hcap : caps.orders + 1 < 2^64) {tree : Tree} {l : LevelH}
    (hl : l ∈ hs tree) {db₀ : Db} {tgt : Outcome (List OrderRow)} {x : UInt64 × Option OrderH}
    (hI : MeetingAt (Adapter.storeAs wrap hv he) (wrap = true) r hs l db₀ tgt x s) (hq : q.Decodes r)
    (h : Locked t₀ s t) (hfuel : s.store.g_cap.toNat ≤ s.store.db.orderRows) :
    Follows (genMeetAll (Adapter.performAs wrap) l r.id r.account r.stp.code x.1 x.2) s
      (rowLoop (fun x => x.2.isSome && 0 < x.1) (meet l q) x) t
      fun x' s' y t' => x' = y ∧ Locked t₀ s' t' := by
  unfold genMeetAll boundedLoop rowLoop
  refine follows_read h (follows_bound fun b hb => ?_)
  refine .loop (P := fun x s y t => x = y ∧ Locked t₀ s t ∧
    MeetingAt (Adapter.storeAs wrap hv he) (wrap = true) r hs l db₀ tgt x s)
    (fun x s y t hx => by rw [hx.1]) (fun x s y t hx _ => ⟨hx.1, hx.2.1⟩) ?_ ?_ ⟨rfl, h, hI⟩
  -- The turns are in step, and the invariant of the loop goes along.
  · rintro x s _ t ⟨rfl, h, hI⟩ hgo
    rw [← bind_pure (meet l q x)]
    have hturn := (follows_meet hI hgo hq h).and_returns (returns_genMeet hcap hl hI hgo)
    refine hturn.bind fun x' s' y t' hx => .pure ?_
    obtain ⟨hx, hI', -⟩ := hx
    cases y with
    | yield y => exact ⟨hx.1, hx.2, hI'⟩
    | done y => exact ⟨hx.1, by rw [hx.2]; simp⟩
  -- The bound of the one loop is no larger than that of the other.
  · rw [hb]
    exact Nat.succ_le_succ hfuel

/-- The type of a valid request is told by its code. -/
theorem order_type_eq_iff (hq : q.Decodes r) (k : UInt8) :
    q.order_type = k ↔ r.otype.code = k.toUInt64 := by
  rw [hq.otype]
  exact UInt8.toUInt64_inj.symm

/-- The turns of the two outer loops end alike, and the handwritten matcher breaks where the
generated one stops. -/
def LevelTurned (t₀ : State) (x : UInt64 × Bool) (s : Gen.State Adapter) :
    ForInStep UInt64 → State → Prop
  | .yield y, t => x = (y, false) ∧ Locked t₀ s t
  | .done y, t => x = (y, true) ∧ Locked t₀ s t

/-- The price test of the generated matcher. -/
theorem genAway_eq {crosses : UInt64 → UInt64 → Bool} {otype price : UInt64} {l : LevelH} :
    genAway (Adapter.performAs wrap) crosses otype price l s =
      some (decide (otype ≠ 1 ∧ (!crosses (s.store.db.levels l).price price) = true), s) := by
  unfold genAway
  by_cases hm : otype = 1
  · rw [if_neg (not_not.mpr hm), decide_eq_false fun hc => hc.1 hm]
    rfl
  · rw [if_pos hm]
    simp only [hm, ne_eq, not_false_eq_true, true_and, Bool.decide_eq_true]
    rfl

/-- Widening keeps zero, and zero only. -/
theorem toUInt64_eq_zero (n : UInt32) : n.toUInt64 = 0 ↔ n = 0 := by
  rw [← UInt64.toNat_inj, ← UInt32.toNat_inj, UInt32.toNat_toUInt64]
  rfl

/-- A turn of the outer loop. -/
theorem follows_meetLevel (hcap : caps.orders + 1 < 2^64) {crosses : UInt64 → UInt64 → Bool}
    (hcross : ∀ p, crosses p r.price = decide (better r.side.other p r.price))
    {tgt : Outcome Book} {rem : UInt64}
    (hI : MatchingAt (Adapter.storeAs wrap hv he) (wrap = true) r tgt (rem, false) s)
    (hpos : 0 < rem) (hq : q.Decodes r) (h : Locked t₀ s t) :
    Follows
      (genLevel (Adapter.performAs wrap) r.side.other crosses r.id r.account r.otype.code r.stp.code
      r.price (rem, false)) s (meetLevel r.side.other crosses q rem) t (LevelTurned t₀) := by
  obtain ⟨db, hs, n, hat, hm⟩ := hI
  have hrem : rem ≠ 0 := UInt64.pos_iff_ne_zero.mp hpos
  unfold genLevel meetLevel
  have hbest := (follows_follow (f := (EngineDb.bestOf · r.side.other)) h rfl).and_returns
    (returns_treeBest hat hm.linked hm.side)
  refine hbest.bind fun best s₁ best' t₁ hx => ?_
  obtain ⟨⟨rfl, rfl, rfl⟩, hhead, -⟩ := hx
  cases best with
  | none => exact .pure ⟨rfl, h⟩
  | some l =>
    obtain ⟨ls, hl⟩ := List.head?_eq_some_iff.mp hhead.symm
    have hmem : l ∈ hs r.side.other := hl ▸ List.mem_cons_self
    refine follows_read h ?_
    refine .left_eq genAway_eq ?_
    have htest : (q.order_type ≠ 1 ∧ (!crosses (s₁.store.db.levels l).price q.price) = true) ↔
        r.otype.code ≠ 1 ∧ (!crosses (s₁.store.db.levels l).price r.price) = true := by
      rw [ne_eq, order_type_eq_iff hq, ← hq.price]
      exact Iff.rfl
    by_cases haway : r.otype.code ≠ 1 ∧ (!crosses (s₁.store.db.levels l).price r.price) = true
    · rw [decide_eq_true haway, if_pos rfl, if_pos (htest.mpr haway)]
      exact .pure ⟨rfl, h⟩
    rw [decide_eq_false haway, if_neg Bool.false_ne_true, if_neg fun hc => haway (htest.mp hc)]
    have hlive := hm.linked.level_live hmem
    have hcrosses : r.crosses (db.levelPrice l) := by
      obtain ⟨b, s₂, hcall, hb, -⟩ := returns_genAway hcross hat hlive
      cases hcall.symm.trans genAway_eq
      by_contra hc
      rw [decide_eq_false haway, decide_eq_false hc] at hb
      exact Bool.false_ne_true hb
    -- The first order of the level is the one that both start with.
    have hfirst : s₁.store.db.ordersFirst l = (db.queue l).head? := by
      obtain ⟨_, _, hcall, hfirst, -⟩ := returns_queueFirst hat hlive
      cases hcall
      exact hfirst
    refine .left_eq (a := s₁.store.db.ordersFirst l) (u := s₁) rfl (follows_read h ?_)
    -- The invariant of the inner loop holds before its first turn.
    have hstart : MeetingAt (Adapter.storeAs wrap hv he) (wrap = true) r hs l db
        ((r.matchOrders (db.levelPrice l) (db.levelOf l).orders rem).after db.trades)
        (rem, s₁.store.db.ordersFirst l) s₁ := by
      rw [hfirst]
      refine ⟨db, n, hat, .start hm.linked hm.count (hm.room.2 hrem) rfl fun hw => ?_⟩
      have hfits := hm.fits hw
      rw [Db.book_side, hl, List.map_cons] at hfits
      exact (hfits hrem hcrosses).1
    have hfuel : s₁.store.g_cap.toNat ≤ s₁.store.db.orderRows :=
      hat.valid.1.cap_eq.trans_le hat.valid.1.orders_le
    refine (follows_meetAll hcap hmem hstart hq h hfuel).bind fun x s₂ _ t₂ hx => ?_
    obtain ⟨rfl, h₂⟩ := hx
    refine .left_eq (a := (s₂.store.db.levels l).orders_n.toUInt64) (u := s₂) rfl ?_
    refine follows_read h₂ ?_
    have hcount := toUInt64_eq_zero (s₂.store.db.levels l).orders_n
    -- An empty level is dropped by both.
    by_cases h0 : (s₂.store.db.levels l).orders_n = 0
    · rw [if_pos (hcount.mpr h0), if_pos h0]
      exact (follows_dropLevel h₂).bind fun _ s₃ _ t₃ h₃ => .pure ⟨rfl, h₃⟩
    · rw [if_neg fun hc => h0 (hcount.mp hc), if_neg h0]
      exact .pure ⟨rfl, h₂⟩

/-- The outer loops. -/
theorem follows_matchLoop (hcap : caps.orders + 1 < 2^64) {crosses : UInt64 → UInt64 → Bool}
    (hcross : ∀ p, crosses p r.price = decide (better r.side.other p r.price))
    {tgt : Outcome Book}
    (hI : MatchingAt (Adapter.storeAs wrap hv he) (wrap = true) r tgt (r.qty, false) s)
    (hq : q.Decodes r) (h : Locked t₀ s t) :
    Follows (boundedLoop (Adapter.performAs wrap) (fun x => 0 < x.1 && !x.2)
        (genLevel (Adapter.performAs wrap) r.side.other crosses r.id r.account r.otype.code
          r.stp.code r.price)
        (r.qty, false)) s
      (rowLoop (fun rem_qty => 0 < rem_qty) (meetLevel r.side.other crosses q) r.qty) t
      fun x s' y t' => x.1 = y ∧ Locked t₀ s' t' := by
  unfold boundedLoop rowLoop
  refine follows_read h (follows_bound fun b hb => ?_)
  refine .loop (P := fun x s y t => x = (y, false) ∧ Locked t₀ s t ∧
    MatchingAt (Adapter.storeAs wrap hv he) (wrap = true) r tgt x s) ?_ ?_ ?_ ?_ ⟨rfl, h, hI⟩
  · rintro _ s y t ⟨rfl, -, -⟩
    simp
  · rintro _ s y t ⟨rfl, h, -⟩ -
    exact ⟨rfl, h⟩
  · rintro _ s y t ⟨rfl, h, hI⟩ hgo
    have hpos : 0 < y := by simpa using hgo
    rw [← bind_pure (meetLevel r.side.other crosses q y)]
    have hturn := (follows_meetLevel hcap hcross hI hpos hq h).and_returns
      (returns_genLevel hcap hcross hI hgo)
    refine hturn.bind fun x' s' y' t' hx => .pure ?_
    obtain ⟨hx, hI', -⟩ := hx
    cases y' with
    | yield y' => exact ⟨hx.1, hx.2, hI'⟩
    -- A turn that breaks sets the flag here, where the other has zero left to match.
    | done y' =>
      refine ⟨⟨congrArg Prod.fst hx.1, hx.2⟩, ?_⟩
      rw [hx.1]
      simp
  · rw [hb]
    obtain ⟨_, _, _, hat, -⟩ := hI
    exact Nat.succ_le_succ (hat.valid.1.cap_eq.trans_le hat.valid.1.orders_le)

end Matching

/-! ## Resting -/

section Rest

variable {wrap : Bool} {t₀ : State} {s : Gen.State Adapter} {t : State}

/-- The end of the code that rests an order, unless the index refuses it. -/
theorem follows_link {own : Tree} {lvl : LevelPtr} {ord : OrderPtr} {isnew : Bool}
    (h : Locked t₀ s t) :
    Follows (only (· ≠ 4) (genLink (Adapter.performAs wrap) own lvl ord isnew)) s
      (link own lvl ord isnew) t fun c s' b t' => b = decide (c = 0) ∧ Locked t₀ s' t' := by
  unfold only genLink link
  rw [bind_assoc]
  refine (follows_write h rfl).bind fun _ s₁ _ t₁ h₁ => ?_
  rw [bind_assoc]
  refine (follows_update (c := .hashInsert ord) (f := (·.indOrderInsertMaybe ord)) h₁
    rfl).bind fun b s₂ _ t₂ hx => ?_
  obtain ⟨rfl, h₂⟩ := hx
  cases b with
  | true => exact .pure ⟨rfl, h₂⟩
  | false =>
    -- The generated matcher returns `4`.
    have hfree : ∀ s' (c : Prog State Bool) t' R, Follows (do
        let a ← (do
          call (Adapter.performAs wrap) (.orderFree ord)
          return (4 : UInt64))
        if decide (a ≠ 4) = true then pure a else fun _ => none) s' c t' R := fun s' c t' R => by
      rw [bind_assoc]
      exact .left fun _ _ _ _ _ hc => by cases hc
    rw [if_neg Bool.false_ne_true, bind_assoc]
    refine .left fun _ s₃ _ => ?_
    rw [bind_assoc]
    refine .left fun b s₄ _ => ?_
    cases b with
    | true =>
      rw [if_pos rfl, bind_assoc]
      exact .left fun _ s₅ _ => hfree _ _ _ _
    | false => exact hfree _ _ _ _

/-- The adapter refuses a row only where the pools have none: it refuses an order at most where the
free list is empty, and there are no more levels than orders. -/
structure Honest (s : Adapter) : Prop where
  orders : s.g_cap ≤ s.db.order_pool_n → s.db.order_pool_free = none
  levels : s.db.level_pool_n ≤ s.db.order_pool_n

/-- The heap with the row of an order written. -/
def filled (db : EngineDb) (ord : OrderPtr) (req : OrderRequest) (rem_qty : UInt64) : EngineDb :=
  db.setOrder ord fun o => { o with
    id := req.id
    account_id := req.account_id
    side := req.side.toUInt64
    stp_mode := req.stp_mode.toUInt64
    price := req.price
    qty := req.qty
    remaining_qty := rem_qty }

/-- The row of an order that is in no queue, written by both. -/
theorem follows_fill {r : Request} {q : OrderRequest} {ord : OrderPtr} {rem : UInt64}
    (hq : q.Decodes r) (h : Locked t₀ s t) (hin : (s.store.db.orders ord).orders_inlist = false)
    {α β : Type} {k : Prog (Gen.State Adapter) α} {m : Prog State β}
    {R : α → Gen.State Adapter → β → State → Prop}
    (hk : Follows k { s with store := { s.store with db := filled s.store.db ord q rem } } m
      { t with db := filled s.store.db ord q rem } R) :
    Follows (do
      call (Adapter.performAs wrap) (.orderSet .id ord r.id)
      call (Adapter.performAs wrap) (.orderSet .account ord r.account)
      call (Adapter.performAs wrap) (.orderSet .side ord r.side.code)
      call (Adapter.performAs wrap) (.orderSet .stp_mode ord r.stp.code)
      call (Adapter.performAs wrap) (.orderSet .price ord r.price)
      call (Adapter.performAs wrap) (.orderSet .qty ord r.qty)
      call (Adapter.performAs wrap) (.orderSet .remaining ord rem)
      k) s (write (filled · ord q rem) >>= fun _ => m) t R := by
  -- One write after the other, on the side of the adapter.
  have hset : ∀ {β : Type} {f : OrderField} {v : UInt64} {s : Gen.State Adapter}
      {k : Prog (Gen.State Adapter) β} {γ : Type} {m : Prog State γ}
      {t : State} {R : β → Gen.State Adapter → γ → State → Prop},
      Follows k { s with store := { s.store with db := Adapter.orderSet s.store.db ord v f } } m t R →
      Follows (call (Adapter.performAs wrap) (.orderSet f ord v) >>= fun _ => k) s m t R :=
    fun h => .left_eq rfl h
  refine .right (c := ()) rfl ?_
  rw [h.db]
  refine hset (hset (hset (hset (hset (hset (hset ?_))))))
  -- Together the seven writes are the row that the other fills in at once.
  have hfilled : Adapter.orderSet (Adapter.orderSet (Adapter.orderSet (Adapter.orderSet
      (Adapter.orderSet (Adapter.orderSet (Adapter.orderSet s.store.db ord r.id .id) ord r.account
      .account) ord r.side.code .side) ord r.stp.code .stp_mode) ord r.price .price) ord r.qty .qty)
      ord rem .remaining = filled s.store.db ord q rem := by
    unfold filled
    rw [← hq.id, ← hq.account, ← hq.side, ← hq.stp, ← hq.price, ← hq.qty]
    simp only [Adapter.orderSet, Adapter.orderSetRemaining, EngineDb.setOrder_setOrder, Order.write,
      EngineDb.setOrder_orders_self, hin]
  simp only [hfilled]
  exact hk

/-- A row taken from the order pool, if it has one. -/
theorem exec_orderAlloc {s : Adapter} (h : s.g_cap ≤ s.db.order_pool_n → s.db.order_pool_free = none) :
    s.exec .orderAlloc = some (s.db.orderPoolAlloc.1, { s with db := s.db.orderPoolAlloc.2 }) := by
  by_cases hfull : s.db.order_pool_n ≥ s.g_cap
  · refine (if_pos hfull).trans ?_
    unfold EngineDb.orderPoolAlloc
    rw [h hfull]
  · exact if_neg hfull

/-- A row taken from the level pool, if it has one. -/
theorem exec_levelAlloc {s : Adapter} (h : s.g_cap ≤ s.db.level_pool_n → s.db.level_pool_free = none) :
    s.exec .levelAlloc = some (s.db.levelPoolAlloc.1, { s with db := s.db.levelPoolAlloc.2 }) := by
  by_cases hfull : s.db.level_pool_n ≥ s.g_cap
  · refine (if_pos hfull).trans ?_
    unfold EngineDb.levelPoolAlloc
    rw [h hfull]
  · exact if_neg hfull

/-- The remainder of a request rested by both. -/
theorem follows_rest {own : Tree} {r : Request} {q : OrderRequest} {rem : UInt64}
    (hq : q.Decodes r) (h : Locked t₀ s t) (hfull : Honest s.store) :
    Follows (only (· ≠ 4) (genRest (Adapter.performAs wrap) own r.id r.account r.side.code r.stp.code
      r.price r.qty rem)) s (rest own q rem) t fun c s' b t' => b = decide (c = 0) ∧
      Locked t₀ s' t' := by
  unfold only genRest rest
  simp only [bind_assoc]
  have halloc : call (Adapter.performAs wrap) .orderAlloc s =
      some (s.store.db.orderPoolAlloc.1, { s with
      store := { s.store with db := s.store.db.orderPoolAlloc.2 } }) :=
    congrArg (Option.map _) (exec_orderAlloc hfull.orders)
  refine .left_eq halloc
    (.right (c := s.store.db.orderPoolAlloc.1) (by unfold update; rw [h.db]; rfl) ?_)
  have h₁ := h.write s.store.db.orderPoolAlloc.2
  -- A row was handed out, so the pools are not full and a level can be had.
  have hlevels : ∀ ord, s.store.db.orderPoolAlloc.1 = some ord →
      ¬ s.store.g_cap ≤ s.store.db.orderPoolAlloc.2.level_pool_n := by
    unfold EngineDb.orderPoolAlloc
    split
    · intro _ hnone
      cases hnone
    · rename_i hf
      intro _ _ hc
      rw [hfull.orders (UInt64.le_trans hc hfull.levels)] at hf
      cases hf
  -- The row handed out is in no queue.
  have hin : ∀ ord, s.store.db.orderPoolAlloc.1 = some ord →
      (s.store.db.orderPoolAlloc.2.orders ord).orders_inlist = false := by
    unfold EngineDb.orderPoolAlloc EngineDb.takeOrder
    split
    · intro _ hnone
      cases hnone
    · rintro _ ⟨⟩
      simp
  generalize s.store.db.orderPoolAlloc.2 = db₁ at h₁ hlevels hin ⊢
  cases ho : s.store.db.orderPoolAlloc.1 with
  -- No row: both give the order up.
  | none => exact .pure ⟨rfl, h₁⟩
  | some ord =>
    simp only [bind_assoc]
    refine follows_fill hq h₁ (hin ord ho) ?_
    have h₂ := h₁.write (filled db₁ ord q rem)
    rw [← hq.price]
    refine (follows_follow (f := (EngineDb.findIn · own r.price)) h₂ rfl).bind fun l s₃ l' t₃ hx => ?_
    obtain ⟨rfl, rfl, rfl⟩ := hx
    cases l with
    -- The level exists.
    | some lvl => exact follows_link h₂
    | none =>
      simp only [bind_assoc]
      refine (follows_update (c := .levelAlloc) (f := fun db => some db.levelPoolAlloc) h₂
        (exec_levelAlloc fun hc => absurd hc (hlevels ord ho))).bind fun l s₄ l' t₄ hx => ?_
      obtain ⟨rfl, h₄⟩ := hx
      cases l with
      | none =>
        -- No level: both free the row.
        rw [bind_assoc]
        exact (follows_write h₄ rfl).bind fun _ _ _ _ h₅ => .pure ⟨rfl, h₅⟩
      | some lvl =>
        simp only [bind_assoc]
        -- A new level: its price, its place in the tree, and then the order.
        refine (follows_write h₄ rfl).bind fun _ s₅ _ t₅ h₅ => ?_
        refine (follows_update h₅ ?_).bind fun _ s₆ _ t₆ h₆ => follows_link h₆.2
        simp only [Adapter.performAs, Adapter.exec, Option.map_map]
        rfl

end Rest

/-! ## Requests -/

section Process

variable {wrap : Bool} {caps : Caps} {s₀ : Adapter} {hv : Adapter.Valid caps s₀}
  {he : s₀.view = Db.empty}
  {t₀ : State} {s : Gen.State Adapter} {t : State} {r : Request} {q : OrderRequest}
  {hs : Tree → List LevelH} {db : Db} {n : UInt64}

/-- The adapter is honest while it has room, and always if its capacity is all that it has. -/
theorem honest_of_at (h : At (Adapter.storeAs wrap hv he) s db n) (hlink : Linked db hs)
    (hinv : (db.book hs).Inv)
    (hroom : (db.book hs).orders.length < caps.orders ∨ s₀.db.orderRows = caps.orders) :
    Honest s.store := by
  obtain ⟨g, hrep⟩ := h.valid.1.rep
  have horders : s.store.db.order_pool_n.toNat = (db.book hs).orders.length := by
    rw [← hrep.card_liveOrders, ← hlink.card_orders, ← h.view]
    rfl
  have hlevels : s.store.db.level_pool_n.toNat =
      (db.book hs).bids.length + (db.book hs).asks.length := by
    rw [← hrep.card_liveLevels, ← hlink.card_levels, ← h.view]
    rfl
  refine ⟨fun hfull => ?_, ?_⟩
  · rw [UInt64.le_iff_toNat_le, h.valid.1.cap_eq, horders] at hfull
    -- With room the cap is not reached, and without spare rows the free list is empty at the cap.
    rcases hroom with hroom | hroom
    · omega
    · have hcount := hrep.oPool.count
      have hrows : s.store.db.order_pool_total_allocated.toNat = caps.orders :=
        h.valid.2.1.trans hroom
      have hnil : g.oFree = [] := List.length_eq_zero_iff.mp (by omega)
      have hchain := hrep.oPool.chain.start_eq
      rw [hnil] at hchain
      exact hchain
  · rw [UInt64.le_iff_toNat_le, hlevels, horders]
    exact hinv.levels_le

/-- The post-only tests. -/
theorem follows_crossed {contra : Tree} {crosses : UInt64 → UInt64 → Bool} (hq : q.Decodes r)
    (h : Locked t₀ s t) :
    Follows (genCrossed (Adapter.performAs wrap) contra crosses r.otype.code r.price) s
      (wouldCross contra crosses q) t fun b s' b' t' => b = b' ∧ s' = s ∧ t' = t := by
  unfold genCrossed wouldCross
  -- Only a post-only request looks at the other side.
  by_cases hpost : r.otype.code = 3
  · rw [if_pos hpost, if_pos ((order_type_eq_iff hq 3).mpr hpost)]
    refine (follows_follow (f := (EngineDb.bestOf · contra)) h rfl).bind fun l s₁ l' t₁ hx => ?_
    obtain ⟨rfl, rfl, rfl⟩ := hx
    cases l with
    | none => exact .pure ⟨rfl, rfl, rfl⟩
    | some l =>
      refine .left_eq (a := (s₁.store.db.levels l).price) (u := s₁) rfl (follows_read h ?_)
      rw [← hq.price]
      exact .pure ⟨rfl, rfl, rfl⟩
  · rw [if_neg hpost, if_neg fun hc => hpost ((order_type_eq_iff hq 3).mp hc)]
    exact .pure ⟨rfl, rfl, rfl⟩

/-- A valid request, when no resting order has its id. -/
theorem follows_process (hcap : caps.orders + 1 < 2^64) {crosses : UInt64 → UInt64 → Bool}
    (hcross : ∀ p, crosses p r.price = decide (better r.side.other p r.price))
    (hat : At (Adapter.storeAs wrap hv he) s db 0) (hlink : Linked db hs) (hinv : (db.book hs).Inv)
    (htrades : db.trades = []) (hroom : db.oLive.card ≤ caps.orders)
    (hid : r.id ∉ (db.book hs).ids)
    (hfits : wrap = true → (db.book hs).FitsMatching r)
    (hhonest : r.rests → (db.book hs).orders.length < caps.orders ∨ s₀.db.orderRows = caps.orders)
    (hq : q.Decodes r) (h : Locked t₀ s t) :
    Follows (genProcess (Adapter.performAs wrap) r.side r.side.other crosses r.id r.account r.side.code
        r.otype.code r.stp.code r.price r.qty) s (processSide r.side r.side.other crosses q) t
      fun c s' b t' => b = decide (c = 0) ∧ Locked t₀ s' t' := by
  unfold genProcess processSide
  have hcrossed := (follows_crossed hq h).and_returns
    (returns_genCrossed hat hlink (hinv.side _) hcross)
  refine hcrossed.bind fun b s₁ b' t₁ hx => ?_
  obtain ⟨⟨rfl, rfl, rfl⟩, hpost, -⟩ := hx
  refine .ite Iff.rfl (fun _ => .pure ⟨rfl, h⟩) fun hnot => ?_
  -- Only an order that comes to be matched has to fit.
  have hfits : wrap = true → r.FitsLevels ((db.book hs).side r.side.other) r.qty :=
    fun hw => hfits hw fun hc => hnot (hpost.mpr hc)
  have hloop := (follows_matchLoop hcap hcross (s := s₁) 
    ⟨db, hs, 0, hat, .start hlink (hinv.side _) htrades hroom hfits⟩ hq h).and_returns
    (returns_matchLoop hcap hcross hat hlink (hinv.side _) rfl htrades hroom hfits)
  rw [← hq.qty]
  refine hloop.bind fun x s₂ rem t₂ hx => ?_
  obtain ⟨⟨rfl, h₂⟩, db₂, hs₂, n₂, hat₂, hm₂, hmatched⟩ := hx
  have hleft : db₂.book hs₂ = ((db.book hs).matched r).left := by rw [hmatched]
  refine .ite ?_ (fun hrest => ?_) fun _ => .pure ⟨rfl, h₂⟩
  · rw [ne_eq, ne_eq, ne_eq, ne_eq, order_type_eq_iff hq, order_type_eq_iff hq]
    exact Iff.rfl
  · have hrests : r.rests := rests_iff.mp hrest.2
    have hinv₂ : (db₂.book hs₂).Inv := hleft ▸ hinv.matched
    have hid₂ : r.id ∉ (db₂.book hs₂).ids := fun hmem => hid (Book.matched_ids (hleft ▸ hmem))
    refine (follows_rest hq h₂ (honest_of_at hat₂ hm₂.linked hinv₂ ?_)).of_only ?_
    · rw [hleft]
      exact (hhonest hrests).imp_left fun hlt => Book.matched_orders_le.trans_lt hlt
    · refine (returns_genRest hat₂ hm₂.linked (hinv₂.side _) hid₂ x.1).mono fun c _ hc => ?_
      rcases hc with ⟨-, rfl, -⟩ | ⟨-, rfl, -⟩ <;> rfl

end Process

/-! ## Cancellations -/

section Cancel

variable {wrap : Bool} {caps : Caps} {s₀ : Adapter} {hv : Adapter.Valid caps s₀}
  {he : s₀.view = Db.empty} {s : Gen.State Adapter} {t : State} {b : Book}

/-- Both matchers at the start of a call. -/
theorem Locked.start {db : Db} {n : UInt64} (hcap : caps.orders + 1 < 2^64)
    (hat : At (Adapter.storeAs wrap hv he) s db n) (hts : db.trades = []) (hdb : t.db = s.store.db) :
    Locked t s t where
  state := by
    have htrades : s.store.tradeList = [] := by
      rw [← hat.view] at hts
      exact hts
    rw [htrades, ← hdb]
    rfl
  cap := by
    rw [hat.valid.1.cap_eq]
    exact hcap

/-- A call starts, which only the generated matcher has to do something for. -/
theorem follows_start {db : Db} {hs : Tree → List LevelH} {n : UInt64} {α β : Type}
    (hcap : caps.orders + 1 < 2^64) (hat : At (Adapter.storeAs wrap hv he) s db n)
    (hlink : Linked db hs) (hdb : t.db = s.store.db) {f : Prog (Gen.State Adapter) α}
    {m : Prog State β} {R : α → Gen.State Adapter → β → State → Prop}
    (hf : ∀ s', At (Adapter.storeAs wrap hv he) s' (reset db) 0 → Linked (reset db) hs →
      Locked t s' t → Follows f s' m t R) :
    Follows (do
      modify fun s => { s with me_ntrades := 0 }
      call (Adapter.performAs wrap) .tradeReset
      f) s m t R := by
  obtain ⟨_, s₁, hrun, hat₁, hlink₁⟩ := returns_start (f := pure ())
    (Q := fun _ s' => At (Adapter.storeAs wrap hv he) s' (reset db) 0 ∧ Linked (reset db) hs)
    hat hlink fun s' h' hlink' => .pure ⟨h', hlink'⟩
  cases hrun
  exact .left_eq rfl (.left_eq rfl (hf _ hat₁ hlink₁ (.start hcap hat₁ rfl hdb)))

/-- `MatchingEngine_CancelOrder` follows `gen_cancel_order`. -/
theorem follows_genCancelOrder (hcap : caps.orders + 1 < 2^64) (id : UInt64)
    (h : Ready (Adapter.storeAs wrap hv he) s b) (hfits : wrap = true → b.FitsCancel id)
    (hdb : t.db = s.store.db) :
    Follows (genCancelOrder (Adapter.performAs wrap) id) s (cancelOrder id) t
      fun c s' ok t' => ok = decide (c = 1) ∧ Locked t s' t' := by
  obtain ⟨⟨db, hs, n, hat, hlink, rfl⟩, -, -⟩ := h
  unfold genCancelOrder cancelOrder
  refine follows_start hcap hat hlink hdb fun s₁ hat₁ hlink₁ h₁ => ?_
  refine ((follows_follow (c := .hashFind id) (f := (·.indOrderFind id)) h₁ rfl).and_returns
    (returns_hashFind hat₁ hlink₁ id)).bind fun o s₂ o' t₂ hx => ?_
  obtain ⟨⟨rfl, rfl, rfl⟩, hat₂, ⟨rfl, -⟩ | ⟨-, ord, rfl, hlive, hid⟩⟩ := hx
  -- An unknown id.
  · exact .pure ⟨rfl, h₁⟩
  obtain ⟨tree, l, hl, ho⟩ := (hlink₁.queued ord).mp hlive
  obtain ⟨hin, hown⟩ := linked_of_queue hat₂ ho
  -- A live order is queued, so its owner is the level it names.
  have howner : call (Adapter.performAs wrap) (.orderOwner ord) s₂ = some (some l, s₂) := by
    change some (if (s₂.store.db.orders ord).orders_inlist then _ else _, s₂) = _
    rw [hin, if_pos rfl, hown]
  refine .left_eq howner (follows_read h₁ ?_)
  rw [hown]
  refine .left_eq (a := (s₂.store.db.orders ord).side) (u := s₂) rfl (follows_read h₁ ?_)
  have hholds : wrap = true → Holds s₂.store.db l ord := fun hw => by
    refine holds_of_fits hat₂ hw ho (hfits hw tree _ ?_ _ ?_ hid)
    · rw [Db.book_side]
      exact List.mem_map_of_mem hl
    · exact List.mem_map_of_mem ho
  refine (follows_drop h₁ hholds).bind fun _ s₃ _ t₃ h₃ => ?_
  refine .left_eq (a := (s₃.store.db.levels l).orders_n.toUInt64) (u := s₃) rfl ?_
  refine follows_read h₃ (.ite (toUInt64_eq_zero _) (fun _ => ?_) fun _ => .pure ⟨rfl, h₃⟩)
  -- The two trees are handled alike.
  have hremove : ∀ u, Follows (call (Adapter.performAs wrap) (.treeRemove u l)) s₃
      (update fun db => (db.removeFrom u l).map ((), ·)) t₃ fun _ s' _ t' => Locked t₂ s' t' :=
        fun u => by
    refine (follows_update h₃ ?_).mono fun _ _ _ _ hx => hx.2
    simp only [Adapter.performAs, Adapter.exec, Option.map_map]
    rfl
  have hfree : ∀ s' t', Locked t₂ s' t' → Follows (do
      call (Adapter.performAs wrap) (.levelFree l)
      return (1 : UInt64)) s' (do
      write (·.levelPoolFree l)
      return true) t' fun c s' ok t' => ok = decide (c = 1) ∧ Locked t₂ s' t' := fun s' t' h' =>
    (follows_write h' rfl).bind fun _ _ _ _ h'' => .pure ⟨rfl, h''⟩
  refine .ite Iff.rfl (fun _ => ?_) fun _ => ?_
  · exact (hremove .bids).bind fun _ s₄ _ t₄ h₄ => hfree s₄ t₄ h₄
  · exact (hremove .asks).bind fun _ s₄ _ t₄ h₄ => hfree s₄ t₄ h₄

end Cancel

end MatchingEngine.Hand
