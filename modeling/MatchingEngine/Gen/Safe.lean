import MatchingEngine.Gen.Guard

/-!
# The generated matcher never traps

Calls with any arguments, on a store with one capacity for both kinds of rows. Every call returns,
and it does the same over the store that does not return from an operation outside its precondition
or on a handle that is not live, so it never leaves the contract.

`GenCall` has the two public calls, with arguments that nothing bounds, and `GenCall.returns` says
that each returns and leaves a store that is ready for the next one. For the second half the
programs are run over a store that is guarded (`Gen/Guard.lean`): `tracked_checked` says that a run
over the one is a run over the other, operation by operation, since each is made within its
precondition.
-/

namespace MatchingEngine.Gen

open Contract Lib

/-- A call of the matcher with its arguments. -/
inductive GenCall where
  | process (id account side otype stp price qty : UInt64)
  | cancel (id : UInt64)

section Calls

variable {S : Type}

/-- A call made. -/
def GenCall.run (exec : {α : Type} → Op α → S → Option (α × S)) : GenCall → Prog (State S) UInt64
  | .process id account side otype stp price qty =>
    genProcessOrder exec id account side otype stp price qty
  | .cancel id => genCancelOrder exec id

/-- The states that calls reach, made by `run`. -/
inductive GenReach (run : GenCall → Prog (State S) UInt64) (s₀ : S) : State S → Prop where
  | init : GenReach run s₀ ⟨s₀, 0⟩
  | call {s s' : State S} {r : UInt64} (c : GenCall) (h : GenReach run s₀ s)
      (hrun : run c s = some (r, s')) : GenReach run s₀ s'

/-- Calls made one after the other. -/
def GenCall.runAll (exec : {α : Type} → Op α → S → Option (α × S)) :
    List GenCall → Prog (State S) (List UInt64)
  | [] => return []
  | c :: cs => do
    let r ← c.run exec
    return r :: (← runAll exec cs)

/-- A list of calls from a reachable state reaches a state. -/
theorem GenReach.runAll {exec : {α : Type} → Op α → S → Option (α × S)} {s₀ : S} {cs : List GenCall} :
    ∀ {s s' : State S} {rs : List UInt64}, GenReach (GenCall.run exec) s₀ s →
      GenCall.runAll exec cs s = some (rs, s') → GenReach (GenCall.run exec) s₀ s' := by
  induction cs with
  | nil =>
    intro s s' rs h hrun
    cases hrun
    exact h
  | cons c cs ih =>
    intro s s' rs h hrun
    obtain ⟨r, s₁, hc, hrun⟩ := run_bind_iff.mp hrun
    obtain ⟨rs', s₂, hrest, hret⟩ := run_bind_iff.mp hrun
    cases hret
    exact ih (h.call c hc) hrest

/-- A call keeps to the operations that are tracked. -/
theorem GenCall.tracks {exec exec' : {α : Type} → Op α → S → Option (α × S)} {G : S → Prop}
    {m : UInt64} (h : Tracked exec exec' G m) (c : GenCall) :
    Tracks (fun s => G s.store) (c.run exec) (c.run exec') fun _ => True := by
  cases c with
  | process => exact tracks_genProcessOrder h _ _ _ _ _ _ _
  | cancel => exact tracks_genCancelOrder h _

variable {cap : ℕ} {st : Store (.uniform cap) S} {s : State S} {b : Book}

/-- The codes of a request fit into the bytes of a `struct OrderRequest` if they are valid. -/
theorem exists_code {n c : UInt64} (h : c < n) (hn : n ≤ 256) : ∃ d : UInt8, d.toUInt64 = c := by
  refine ⟨c.toUInt8, UInt64.toNat_inj.mp ?_⟩
  have hlt := UInt64.lt_iff_toNat_lt.mp h
  have hle : n.toNat ≤ 256 := UInt64.le_iff_toNat_le.mp hn
  rw [UInt8.toNat_toUInt64, UInt64.toNat_toUInt8]
  omega

/-- `gen_process_order` on any arguments. -/
theorem returns_genProcessAny (hcap : cap + 1 < 2^64) (h : Ready st s b)
    (id account side otype stp price qty : UInt64) :
    Returns (genProcessOrder st.exec id account side otype stp price qty) s fun _ s' =>
      ∃ b', Ready st s' b' := by
  by_cases hcodes : ((otype = 0 ∨ otype = 1) ∨ (otype = 2 ∨ otype = 3)) ∧ (side = 0 ∨ side = 1) ∧
    ((stp = 0 ∨ stp = 1) ∨ ((stp = 2 ∨ stp = 3) ∨ stp = 4))
  · obtain ⟨htype, hside, hstp⟩ := hcodes
    obtain ⟨t, rfl⟩ : ∃ d : UInt8, d.toUInt64 = otype := by
      refine exists_code (n := 4) ?_ (by decide)
      rcases htype with (rfl | rfl) | rfl | rfl <;> decide
    obtain ⟨u, rfl⟩ : ∃ d : UInt8, d.toUInt64 = side := by
      refine exists_code (n := 2) ?_ (by decide)
      rcases hside with rfl | rfl <;> decide
    obtain ⟨m, rfl⟩ : ∃ d : UInt8, d.toUInt64 = stp := by
      refine exists_code (n := 5) ?_ (by decide)
      rcases hstp with (rfl | rfl) | (rfl | rfl) | rfl <;> decide
    exact (returns_genProcessOrder hcap h ⟨id, account, u, t, m, price, qty⟩).mono
      fun c s' hx => ⟨_, hx.2.2⟩
  · -- A code that is not valid is refused at once.
    obtain ⟨⟨db, hs, n, hat, hlink, rfl⟩, hinv, hroom⟩ := h
    unfold genProcessOrder
    refine returns_start hat hlink fun s₁ h₁ hlink₁ => ?_
    have hready : ∃ b', Ready st s₁ b' := ⟨_, ⟨_, hs, 0, h₁, hlink₁, rfl⟩, hinv, hroom⟩
    refine .ite (fun _ => .pure hready) fun htype => ?_
    refine .ite (fun _ => .pure hready) fun hside => ?_
    refine .ite (fun _ => .pure hready) fun hstp => ?_
    exact absurd ⟨not_not.mp htype, not_not.mp hside, not_not.mp hstp⟩ hcodes

/-- A call returns. -/
theorem GenCall.returns (hcap : cap + 1 < 2^64) (h : Ready st s b) (c : GenCall) :
    Returns (c.run st.exec) s fun _ s' => ∃ b', Ready st s' b' := by
  cases c with
  | process id account side otype stp price qty =>
    exact returns_genProcessAny hcap h id account side otype stp price qty
  | cancel id => exact (returns_genCancelOrder h id).mono fun c s' hx => ⟨_, hx.2.2⟩

/-- Every state that calls reach is ready for the next one. -/
theorem GenReach.ready (hcap : cap + 1 < 2^64) (h : GenReach (GenCall.run st.exec) st.init s) :
    ∃ b, Ready st s b := by
  induction h with
  | init => exact ⟨_, .init st⟩
  | call c _ hrun ih =>
    obtain ⟨b, hb⟩ := ih
    obtain ⟨r, s', hrun', hready⟩ := c.returns hcap hb
    cases hrun.symm.trans hrun'
    exact hready

/-- What the checked operations return, the unchecked ones do. -/
theorem tracked_checked (exec : {α : Type} → Op α → S → Option (α × S))
    (ok : {α : Type} → Op α → S → Prop) :
    Tracked (checked ok exec) exec (fun _ => True) 18446744073709551615 := by
  intro α op s r s' _ _ he
  refine ⟨(checked_eq_some.mp he).2, trivial, ?_⟩
  have hmax : ∀ c : UInt64, c ≤ 18446744073709551615 := fun c =>
    UInt64.le_iff_toNat_le.mpr (Nat.le_of_lt_succ c.toNat_lt)
  unfold Op.Yields
  split <;> first | exact hmax _ | trivial

/-- A call returns, and it does so within the contract. -/
theorem Ready.guarded (hcap : cap + 1 < 2^64) (h : Ready st s b) (c : GenCall) :
    ∃ r s', c.run st.guarded.exec s = some (r, s') ∧ c.run st.exec s = some (r, s') := by
  have h' : Ready st.guarded s b := by
    obtain ⟨⟨db, hs, n, ⟨hvalid, hview, hcount⟩, hlink, hbook⟩, hinv, hroom⟩ := h
    exact ⟨⟨db, hs, n, ⟨hvalid, hview, hcount⟩, hlink, hbook⟩, hinv, hroom⟩
  obtain ⟨r, s', hrun, -⟩ := c.returns hcap h'
  have hsame : Tracked st.guarded.exec st.exec (fun _ => True) 18446744073709551615 :=
    tracked_checked st.exec fun op s => op.Meets (.uniform cap) (st.view s)
  exact ⟨r, s', hrun, (c.tracks hsame s r s' trivial hrun).1⟩

/-- Over the guarded store a call returns what it returns over the store itself. -/
theorem GenReach.guarded (hcap : cap + 1 < 2^64) (h : GenReach (GenCall.run st.exec) st.init s)
    (c : GenCall) :
    ∃ r s', c.run st.guarded.exec s = some (r, s') ∧ c.run st.exec s = some (r, s') :=
  let ⟨_, hb⟩ := h.ready hcap
  hb.guarded hcap c

end Calls

/-- The generated matcher over the adapter never traps: in every state that calls reach from
`ME_adapter_init` with a capacity that leaves room for one more below `2^32`, a call with any
arguments returns, and it returns alike when a call of `engine_db.h` outside of its precondition, or
on a handle that is not live, does not return. -/
theorem adapter_never_traps {calloc : C.AdapterCalloc} {capacity : UInt64} {s₀ : C.Adapter}
    {s : State C.Adapter} (hcap : capacity.toNat + 1 < 2^32)
    (hinit : C.Adapter.init calloc capacity = some s₀)
    (h : GenReach (GenCall.run fun op s => C.Adapter.exec s op) s₀ s) (c : GenCall) :
    ∃ r s', c.run (checked (fun op s => op.Meets (.uniform capacity.toNat) s.view)
        fun op s => C.Adapter.exec s op) s = some (r, s') ∧
      c.run (fun op s => C.Adapter.exec s op) s = some (r, s') :=
  let st := C.Adapter.store (lt_trans (Nat.lt_succ_self _) hcap) hinit
  have h' : GenReach (GenCall.run st.exec) st.init s := h
  h'.guarded (lt_trans hcap (by decide)) c

/-! ## A session -/

/-- Every state that calls reach from `ME_adapter_init` is one that operations within their
preconditions reach. -/
theorem GenReach.adapter {calloc : C.AdapterCalloc} {capacity : UInt64} {s₀ : C.Adapter}
    {s : State C.Adapter} (hcap : capacity.toNat + 1 < 2^32)
    (hinit : C.Adapter.init calloc capacity = some s₀)
    (h : GenReach (GenCall.run fun op s => C.Adapter.exec s op) s₀ s) :
    C.Adapter.Reach (.uniform capacity.toNat) s₀ s.store := by
  let st := C.Adapter.store (lt_trans (Nat.lt_succ_self _) hcap) hinit
  have htracked : Tracked st.guarded.exec st.exec (C.Adapter.Reach (.uniform capacity.toNat) s₀)
      18446744073709551615 := by
    intro α op s r s' hreach hwithin he
    obtain ⟨hsame, -, hyields⟩ := tracked_checked st.exec
      (fun op s => op.Meets (.uniform capacity.toNat) (st.view s)) op s r s' trivial hwithin he
    have he : checked (fun op s => op.Meets (.uniform capacity.toNat) (st.view s)) st.exec op s =
      some (r, s') := he
    exact ⟨hsame, hreach.call op r (checked_eq_some.mp he).1.1 hsame, hyields⟩
  induction h with
  | init => exact .init
  | call c h hrun ih =>
    have h' : GenReach (GenCall.run st.exec) st.init _ := h
    obtain ⟨r, s', hguarded, hrun'⟩ := h'.guarded (lt_trans hcap (by decide)) c
    cases hrun.symm.trans hrun'
    exact (c.tracks htracked _ _ _ ih hguarded).2.1

/-- Three sales, of which two are at one price, a purchase of a part of the first, and a bid. -/
def session : List GenCall :=
  [.process 1 7 1 0 0 100 5, .process 2 8 1 0 0 100 4, .process 3 9 1 0 0 101 3,
    .process 4 6 0 0 0 100 2, .process 5 6 0 0 0 99 1]

/-- The state after the session on a store with four rows: the level of the best price is a queue of
two orders, with three and four left. -/
theorem session_reach : ∃ s₀ s, C.Adapter.init ⟨⟨false, false⟩, true, true, true⟩ 4 = some s₀ ∧
    GenReach (GenCall.run fun op s => C.Adapter.exec s op) s₀ s ∧
    s.store.db.bestOf .asks = some (some 3) ∧ s.store.db.queueOf 3 = [3, 2] ∧
    (s.store.db.levels 3).total_qty = 7 := by
  obtain ⟨s₀, hinit⟩ :
      ∃ s₀, C.Adapter.init ⟨⟨false, false⟩, true, true, true⟩ 4 = some s₀ := ⟨_, rfl⟩
  have hsome : ((C.Adapter.init ⟨⟨false, false⟩, true, true, true⟩ 4).bind fun s₀ =>
      (GenCall.runAll (fun op s => C.Adapter.exec s op) session ⟨s₀, 0⟩).map fun r =>
        (r.1, r.2.store.db.bestOf .asks, r.2.store.db.queueOf 3,
          (r.2.store.db.levels 3).total_qty)) =
      some ([0, 0, 0, 0, 0], some (some 3), [3, 2], 7) := by decide +kernel
  rw [hinit, Option.bind_some] at hsome
  obtain ⟨⟨rs, s⟩, hrun, hval⟩ := Option.map_eq_some_iff.mp hsome
  obtain ⟨-, hbest, hqueue, htotal⟩ := by simpa only [Prod.mk.injEq] using hval
  exact ⟨s₀, s, hinit, GenReach.init.runAll hrun, hbest, hqueue, htotal⟩

/-- A purchase after the session that takes its own account's sale off and trades with the others.
-/
theorem adapter_never_traps_session :
    ∃ s₀ s, C.Adapter.init ⟨⟨false, false⟩, true, true, true⟩ 4 = some s₀ ∧
      GenReach (GenCall.run fun op s => C.Adapter.exec s op) s₀ s ∧
      s.store.db.queueOf 3 = [3, 2] ∧
      ∃ r s', (GenCall.process 6 7 0 2 4 101 12).run
          (checked (fun op s => op.Meets (.uniform 4) s.view) fun op s => C.Adapter.exec s op)
          s = some (r, s') ∧
        (GenCall.process 6 7 0 2 4 101 12).run (fun op s => C.Adapter.exec s op) s =
          some (r, s') := by
  obtain ⟨s₀, s, hinit, hreach, -, hqueue, -⟩ := session_reach
  exact ⟨s₀, s, hinit, hreach, hqueue, adapter_never_traps (by decide) hinit hreach _⟩

/-- The contract of the storage layer after the session, for the removal of an order from the queue
of two. -/
theorem adapter_implements_contract_session :
    ∃ s₀ s, C.Adapter.init ⟨⟨false, false⟩, true, true, true⟩ 4 = some s₀ ∧
      C.Adapter.Reach (.uniform 4) s₀ s ∧ s.db.queueOf 3 = [3, 2] ∧
      (∃ g, C.Rep s.db g) ∧ s.view.WF ∧
      ∃ r s', s.exec (.queueRemove 3 2) = some (r, s') ∧
        Op.post (.uniform 4) s.view (.queueRemove 3 2) r s'.view := by
  obtain ⟨s₀, s, hinit, hreach, -, hqueue, -⟩ := session_reach
  have hadapter := hreach.adapter (by decide) hinit
  obtain ⟨-, hrep, hwf, hop⟩ := C.adapter_implements_contract (by decide) hinit hadapter
  have hmem : 2 ∈ s.store.db.queueOf 3 := by
    rw [hqueue]
    decide
  obtain ⟨r, s', hexec, hpost, -⟩ := hop (.queueRemove 3 2) hmem
  exact ⟨s₀, s.store, hinit, hadapter, hqueue, hrep, hwf, r, s', hexec, hpost⟩

end MatchingEngine.Gen
