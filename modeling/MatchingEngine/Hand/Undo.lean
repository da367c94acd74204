import MatchingEngine.Book.Undo
import MatchingEngine.Hand.Book

/-!
# The handwritten matcher undoes what it rested

After an order has been rested, `MatchingEngine_CancelOrder` restores what can be seen of the
matcher: the book, the rows that the index finds, and the counters of the pools. Two cancellations
may be made in either order. The heaps themselves differ, in the shapes of the trees and in the
order of the free lists and of the buckets.
-/

namespace MatchingEngine.Hand

open Contract Lib C

/-- The row that the index finds for an id. -/
def State.lookup (t : State) (id : UInt64) : Option (Option OrderRow) :=
  (t.db.indOrderFind id).map (·.map fun p => (t.db.orders p).row)

/-- What can be seen of two matchers is the same: their books, the rows that their indices find, and
the numbers of orders and of levels that their pools count. -/
structure State.Alike (t t' : State) : Prop where
  book : t'.book = t.book
  lookup : ∀ id, t'.lookup id = t.lookup id
  orders : t'.db.order_pool_n = t.db.order_pool_n
  levels : t'.db.level_pool_n = t.db.level_pool_n

section Alike

variable {calloc : EngineDb.Calloc} {wrap : Bool} {t t' : State} {b : Book}

/-- The index finds the order of the book with the id. -/
theorem StandsFor.lookup_eq (h : StandsFor wrap calloc t b) (id : UInt64) :
    t.lookup id = some (b.orders.find? (·.id = id)) := by
  obtain ⟨g, hs, hrep, hlink, rfl, hinv⟩ := h.snapshot
  have hrow : ∀ p ∈ t.db.liveOrders, t.db.view.row p = (t.db.orders p).row := fun p hp =>
    Db.row_eq (Rep.view_orders_eq hp)
  have hlive : ∀ p, (t.db.orders p).ind_order_inhash → p ∈ t.db.liveOrders := fun p hp => by
    have hlink : t.db.hashed = t.db.liveOrders := hlink.hash
    rw [← hlink, hrep.mem_hashed]
    exact hp
  unfold State.lookup
  rw [hrep.indOrderFind_eq, Option.map_some]
  refine congrArg some ?_
  cases hfind : (g.bucket (EngineDb.hashOrderId id)).find? fun p => (t.db.orders p).id = id with
  | none =>
    have hfind := (hrep.indOrderFind_eq id).trans (congrArg some hfind)
    refine (List.find?_eq_none.mpr fun r hr hid => ?_).symm
    rw [← Linked.handles_row, List.mem_map] at hr
    obtain ⟨p, hp, rfl⟩ := hr
    rw [hlink.mem_handles] at hp
    rw [hrow p hp] at hid
    have hhash : t.db.hashed = t.db.liveOrders := hlink.hash
    have hin : p ∈ t.db.hashed := hhash ▸ hp
    exact hrep.indOrderFind_none hfind p (hrep.mem_hashed.mp hin) (of_decide_eq_true hid)
  | some p =>
    have hfind := (hrep.indOrderFind_eq id).trans (congrArg some hfind)
    obtain ⟨hin, hid⟩ := hrep.indOrderFind_some hfind
    have hmem : (t.db.orders p).row ∈ (t.db.view.book hs).orders := by
      rw [← hrow p (hlive p hin), ← Linked.handles_row]
      exact List.mem_map_of_mem (hlink.mem_handles.mpr (hlive p hin))
    -- No other order of the book has the id.
    cases hother : (t.db.view.book hs).orders.find? (·.id = id) with
    | none => exact absurd (decide_eq_true hid) (List.find?_eq_none.mp hother _ hmem)
    | some r =>
      have hr := List.mem_of_find?_eq_some hother
      have hrid : r.id = id := by simpa using List.find?_some hother
      exact congrArg some (List.inj_on_of_nodup_map hinv.ids hmem hr (hid.trans hrid.symm))

/-- A book determines what can be seen of a matcher that holds it. -/
theorem StandsFor.alike (h : StandsFor wrap calloc t b) (h' : StandsFor wrap calloc t' b) :
    t.Alike t' where
  book := h'.book_eq.trans h.book_eq.symm
  lookup id := (h'.lookup_eq id).trans (h.lookup_eq id).symm
  orders := UInt64.toNat_inj.mp (h'.counts.1.symm.trans h.counts.1)
  levels := UInt64.toNat_inj.mp (h'.counts.2.symm.trans h.counts.2)

end Alike

section Runs

variable {calloc : EngineDb.Calloc} {engine : Option Engine} {cb : Bool} {t : State}

/-- A cancellation returns whether the id is that of a resting order, calls nothing back, and takes
the order out of the book. -/
theorem exec_cancel (h : Reach (Hand.init calloc engine cb) t) (id : UInt64) :
    ∃ u, (Call.cancel id).exec t = some ((t.book.cancel id).isSome, u) ∧
      StandsFor false calloc u (t.book.afterCancel id) ∧ u.events = t.events := by
  obtain ⟨b, hb⟩ := h.standsFor
  obtain ⟨ok, u, hrun, b', ts, hstep, hb', hu⟩ := hb.call (.cancel id) nofun
  rw [hb.book_eq]
  cases hstep
  exact ⟨u, hrun, hb', by rw [hu]; rfl⟩

/-- An order that may rest, has a new id, and would not trade is rested, while neither pool is
exhausted. -/
theorem exec_rest (h : Reach (Hand.init calloc engine cb) t) (hroom : t.Roomy) {q : OrderRequest}
    {r : Request} (hd : q.decode = some r) (hrests : r.rests) (hid : r.id ∉ t.book.ids)
    (hcross : ¬ t.book.crossing r) :
    ∃ u, (Call.process (some q)).exec t = some (true, u) ∧
      StandsFor false calloc u (t.book.rest (r.row r.qty) r.side) ∧ u.events = t.events := by
  obtain ⟨b, hb⟩ := h.standsFor
  obtain ⟨horders, hlevels⟩ := hb.roomy_iff.mp hroom
  obtain ⟨ok, u, hrun, b', ts, hstep, hb', hu⟩ := hb.call (.process (some q)) nofun
  rw [hb.book_eq] at hid hcross ⊢
  -- All of it rests.
  have hmatched := Book.matched_of_not_crossing hcross
  have hplace : b.place r = ⟨b.rest (r.row r.qty) r.side, r.qty, []⟩ := by
    rw [Book.place_of_rests ⟨by rw [hmatched]; exact r.qty_ne, hrests⟩, hmatched]
  have heq := hstep.eq_step horders hlevels
  simp only [Book.step, hd, Book.submit, if_neg hid, if_neg fun hx => hcross (And.right hx), hplace,
    Prod.mk.injEq] at heq
  obtain ⟨rfl, rfl, rfl⟩ := heq
  exact ⟨u, hrun, hb', by rw [hu]; rfl⟩

/-- Two cancellations of different ids return the same and leave the same in either order. -/
theorem cancels_commute (h : Reach (Hand.init calloc engine cb) t) {a b : UInt64} (hne : a ≠ b) :
    ∃ ok ok' u u', run [.cancel a, .cancel b] t = some ([ok, ok'], u) ∧
      run [.cancel b, .cancel a] t = some ([ok', ok], u') ∧ u.Alike u' ∧ u'.events = u.events := by
  obtain ⟨u₁, h₁, hs₁, he₁⟩ := exec_cancel h a
  obtain ⟨u₂, h₂, hs₂, he₂⟩ := exec_cancel (.call _ h h₁) b
  obtain ⟨v₁, g₁, hr₁, hf₁⟩ := exec_cancel h b
  obtain ⟨v₂, g₂, hr₂, hf₂⟩ := exec_cancel (.call _ h g₁) a
  rw [hs₁.book_eq] at h₂ hs₂
  rw [hr₁.book_eq] at g₂ hr₂
  rw [Book.isSome_cancel_after hne] at h₂
  rw [Book.isSome_cancel_after hne.symm] at g₂
  rw [Book.afterCancel_comm] at hr₂
  refine ⟨(t.book.cancel a).isSome, (t.book.cancel b).isSome, u₂, v₂, ?_, ?_, hs₂.alike hr₂, ?_⟩
  · exact run_bind_iff.mpr ⟨_, u₁, h₁, run_bind_iff.mpr
      ⟨[(t.book.cancel b).isSome], u₂, run_bind_iff.mpr ⟨_, u₂, h₂, rfl⟩, rfl⟩⟩
  · exact run_bind_iff.mpr ⟨_, v₁, g₁, run_bind_iff.mpr
      ⟨[(t.book.cancel a).isSome], v₂, run_bind_iff.mpr ⟨_, v₂, g₂, rfl⟩, rfl⟩⟩
  · rw [he₂, he₁, hf₂, hf₁]

/-- The two orders of one level, cancelled in either order. -/
theorem cancels_commute_session : ∃ t,
    Reach (Hand.init ⟨true, true⟩ (some ⟨0, 0, false⟩) true) t ∧ t.book = sessionBook ∧
    ∃ ok ok' u u', run [.cancel 4, .cancel 10] t = some ([ok, ok'], u) ∧
      run [.cancel 10, .cancel 4] t = some ([ok', ok], u') ∧ u.Alike u' ∧ u'.events = u.events := by
  obtain ⟨t, ht, -, hbook, -⟩ := session_run
  exact ⟨t, ht, hbook, cancels_commute ht (by decide)⟩

/-- An order that has just been rested is cancelled without a trace. -/
theorem rest_cancel (h : Reach (Hand.init calloc engine cb) t) (hroom : t.Roomy) {q : OrderRequest}
    {r : Request} (hd : q.decode = some r) (hrests : r.rests) (hid : r.id ∉ t.book.ids)
    (hcross : ¬ t.book.crossing r) :
    ∃ u v, run [.process (some q)] t = some ([true], u) ∧
      u.book = t.book.rest (r.row r.qty) r.side ∧ run [.cancel q.id] u = some ([true], v) ∧
      t.Alike v ∧ v.events = t.events := by
  obtain ⟨b, hb⟩ := h.standsFor
  obtain ⟨-, -, -, -, -, hinv⟩ := hb.snapshot
  obtain ⟨u, hrun, hu, he⟩ := exec_rest h hroom hd hrests hid hcross
  obtain ⟨v, hcancel, hv, he'⟩ := exec_cancel (.call _ h hrun) q.id
  rw [hb.book_eq] at hid hu ⊢
  have hundo : (b.rest (r.row r.qty) r.side).cancel q.id = some b := by
    rw [← (OrderRequest.decodes hd).id]
    exact Book.cancel_rest hinv hid
  rw [hu.book_eq, hundo] at hcancel
  rw [hu.book_eq, Book.afterCancel, hundo] at hv
  refine ⟨u, v, ?_, hu.book_eq, ?_, hb.alike hv, he'.trans he⟩
  · exact run_bind_iff.mpr ⟨true, u, hrun, rfl⟩
  · exact run_bind_iff.mpr ⟨true, v, hcancel, rfl⟩

end Runs

/-- An order rested behind the two of one level, and cancelled. -/
theorem rest_cancel_session : ∃ t,
    Reach (Hand.init ⟨true, true⟩ (some ⟨0, 0, false⟩) true) t ∧ t.book = sessionBook ∧
    ∃ u v, run [.process (some ⟨11, 7, 1, 0, 0, 103, 5⟩)] t = some ([true], u) ∧
      u.book = t.book.rest ⟨11, 7, 1, 0, 103, 5, 5⟩ .asks ∧
      run [.cancel 11] u = some ([true], v) ∧ t.Alike v ∧ v.events = t.events := by
  obtain ⟨t, ht, -, hbook, -, -, hroomy⟩ := session_run
  refine ⟨t, ht, hbook, ?_⟩
  exact rest_cancel (q := ⟨11, 7, 1, 0, 0, 103, 5⟩) ht hroomy
    (r := ⟨11, 7, .asks, .limit, .none, 103, 5, by decide, fun _ => by decide⟩) (by decide) (.inl rfl)
    (by rw [hbook]; decide) (by rw [hbook]; decide)

end MatchingEngine.Hand
