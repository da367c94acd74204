import MatchingEngine.Cpp.Totality
import MatchingEngine.Engines.Pipeline
import MatchingEngine.Hand.Undo

/-!
# The C engine and the C++ engine agree

Side by side on the same requests and cancellations, the handwritten C engine and the C++ reference
engine make the same trades in the same order and hold the same queues at the same prices. They
share no code: one keeps its levels in binary trees and its rows in pools, the other in maps and on
the heap. What each does is what a price-time book does, and `Engines/Pipeline.lean` says so of the
second.
-/

namespace MatchingEngine.Engines

open Contract Lib C
open Cpp (StdSort)

/-- A request of the common orders that both engines can be given: its account and its self-trade
prevention go together, the index has room for its id, and its price and its quantity are those of a
signed word. -/
structure Common (r : Request) : Prop where
  prevents : Prevents r
  id_lt : r.id.toNat < 2 ^ 31
  price_lt : r.price.toNat < 2 ^ 63
  qty_lt : r.qty.toNat < 2 ^ 63

instance (r : Request) : Decidable (Common r) :=
  decidable_of_iff (Prevents r ∧ r.id.toNat < 2 ^ 31 ∧ r.price.toNat < 2 ^ 63 ∧ r.qty.toNat < 2 ^ 63)
    ⟨fun h => ⟨h.1, h.2.1, h.2.2.1, h.2.2.2⟩,
      fun h => ⟨h.prevents, h.id_lt, h.price_lt, h.qty_lt⟩⟩

/-- The states that the two engines reach on the same calls, while the pools of the C engine are not
exhausted. -/
inductive Both (calloc : EngineDb.Calloc) (e₀ : Hand.Engine) (S : StdSort) (tickSz : ℤ) :
    Hand.State → Cpp.Engine → Prop
  | init : Both calloc e₀ S tickSz (Hand.init calloc (some e₀) true) (.init .REJECT tickSz)
  | submit {t t' : Hand.State} {s s' : Cpp.Engine} {ok acc : Bool} {q : OrderRequest} {r : Request}
      (h : Both calloc e₀ S tickSz t s) (hroom : t.Roomy) (hq : q.decode = some r) (hr : Common r)
      (ht : (Hand.Call.process (some q)).exec t = some (ok, t'))
      (hs : Cpp.submitOrder S (input r) s = some (acc, s')) : Both calloc e₀ S tickSz t' s'
  | cancel {t t' : Hand.State} {s s' : Cpp.Engine} {ok acc : Bool} (id : UInt64)
      (h : Both calloc e₀ S tickSz t s) (ht : (Hand.Call.cancel id).exec t = some (ok, t'))
      (hs : Cpp.cancelOrder id s = some (acc, s')) : Both calloc e₀ S tickSz t' s'

/-- What is told of a trade of the C engine. -/
def factsOfEvent (e : Hand.TradeEvent) : UInt64 × UInt64 × ℤ × ℤ :=
  (e.aggressor_id, e.passive_id, e.price.toNat, e.qty.toNat)

/-- The prices of a side with the ids and the remainders at each, as the C++ engine holds them. -/
def held (m : Cpp.Levels) : List (ℤ × List (UInt64 × ℤ)) :=
  m.map fun l => (l.1, l.2.map fun o => (o.id, o.remainingQty))

/-- The prices of a side with the ids and the remainders at each, as the C engine holds them. -/
def heldOf (ls : List Level) : List (ℤ × List (UInt64 × ℤ)) :=
  ls.map fun l => (l.price.toNat, l.orders.map fun o => (o.id, o.remaining.toNat))

section Agree

variable {calloc : EngineDb.Calloc} {e₀ : Hand.Engine} {S : StdSort} {tickSz : ℤ}
  {t t' : Hand.State} {s s' : Cpp.Engine} {b : Book} {q : OrderRequest} {r : Request}

/-- What the book does with a request. -/
theorem step_taken (hq : q.decode = some r) : b.step (.process (some q)) =
    (decide (r.id ∉ b.ids ∧ ¬ (r.otype = .postOnly ∧ b.crossing r)),
      if r.id ∈ b.ids then b else (taken b r).left,
      if r.id ∈ b.ids then [] else (taken b r).trades) := by
  simp only [Book.step, hq]
  unfold Book.submit taken
  by_cases hid : r.id ∈ b.ids
  · rw [if_pos hid, if_pos hid, if_pos hid, decide_eq_false fun h => h.1 hid]
  · rw [if_neg hid, if_neg hid, if_neg hid]
    by_cases hpo : r.otype = .postOnly ∧ b.crossing r
    · rw [if_pos hpo, if_pos hpo, decide_eq_false fun h => h.2 hpo]
    · rw [if_neg hpo, if_neg hpo, decide_eq_true ⟨hid, hpo⟩]

/-- The trades of a call of the C engine. -/
theorem events_reports {ts : List TradeRow} (h : Hand.Reach (Hand.init calloc (some e₀) true) t)
    (ht : t' = { t.reports ts with db := t'.db }) :
    t'.events.map factsOfEvent = t.events.map factsOfEvent ++ ts.map factsOf := by
  obtain ⟨e, he, hcb⟩ := h.engine_eq
  rw [ht, Hand.State.reports_eq he]
  dsimp only
  rw [if_pos hcb, List.map_append, List.map_map]
  rfl

/-- What the two engines have in common. -/
structure Same (t : Hand.State) (s : Cpp.Engine) : Prop where
  book : Agree t.book s.flat
  trades : (Cpp.executed s.log).map facts = t.events.map factsOfEvent

/-- The calls of the C engine. -/
theorem exec_book (h : Hand.Reach (Hand.init calloc (some e₀) true) t) (c : Hand.Call)
    (hroom : t.Roomy ∨ ∃ id, c = .cancel id) : ∃ t', c.exec t = some ((t.book.step c).1, t') ∧
      t.book.Inv ∧ t'.book = (t.book.step c).2.1 ∧
      t'.events.map factsOfEvent =
        t.events.map factsOfEvent ++ (t.book.step c).2.2.map factsOf := by
  obtain ⟨b, hb⟩ := h.standsFor
  obtain ⟨-, -, -, -, -, hinv⟩ := hb.snapshot
  obtain ⟨ok, t', hrun, b', ts, hstep, hb', ht'⟩ := hb.call c (fun hx => by cases hx)
  have hstep : b.step c = (ok, b', ts) := by
    rcases hroom with hroom | ⟨id, rfl⟩
    · obtain ⟨horders, hlevels⟩ := hb.roomy_iff.mp hroom
      exact hstep.eq_step horders hlevels
    · exact hstep.eq_step_of_rests fun _ _ hc => by cases hc
  rw [hb.book_eq, hstep]
  exact ⟨t', hrun, hinv, hb'.book_eq, events_reports h ht'⟩

/-- A request of the common orders makes the same trades in both engines and leaves the same queues.
-/
theorem Same.submit (h : Same t s) (ht : Hand.Reach (Hand.init calloc (some e₀) true) t)
    (hs : Cpp.Reach S .REJECT tickSz s) (hroom : t.Roomy) (hq : q.decode = some r) (hr : Common r) :
    ∃ ok acc t' s', (Hand.Call.process (some q)).exec t = some (ok, t') ∧
      Cpp.submitOrder S (input r) s = some (acc, s') ∧ Same t' s' ∧
      (ok = true ↔ acc = true ∧ ¬ (r.otype = .postOnly ∧ t.book.crossing r)) := by
  obtain ⟨t', hrun, hinv, hbook, hevents⟩ := exec_book ht (.process (some q)) (.inl hroom)
  obtain ⟨acc, s', hsubmit⟩ := hs.submitOrder_returns (S := S) (i := input r) fun _ => hr.id_lt
  obtain ⟨f', hflat, hagree, htells⟩ := submitOrder_agrees (S := S) h.book hinv hr.prevents
  obtain ⟨rfl, rfl⟩ := Prod.mk.inj (Option.some.inj (hflat.symm.trans (hs.submitOrder hsubmit)))
  rw [step_taken hq] at hrun hbook hevents
  refine ⟨_, _, t', s', hrun, hsubmit, ⟨?_, ?_⟩, ?_⟩
  · rw [hbook]
    exact hagree
  · rw [hevents, ← h.trades]
    exact htells.executed
  · simp only [decide_eq_true_eq]

/-- A cancellation leaves the same queues in both engines. -/
theorem Same.cancel (h : Same t s) (ht : Hand.Reach (Hand.init calloc (some e₀) true) t)
    (hs : Cpp.Reach S .REJECT tickSz s) (id : UInt64) :
    ∃ ok t' s', (Hand.Call.cancel id).exec t = some (ok, t') ∧
      Cpp.cancelOrder id s = some (ok, s') ∧ Same t' s' := by
  obtain ⟨t', hrun, hinv, hbook, hevents⟩ := exec_book ht (.cancel id) (.inr ⟨id, rfl⟩)
  obtain ⟨acc, s', hcancel, -⟩ := hs.shown.1.shows.cancelOrder hs.inv id
  obtain ⟨hacc, hagree, htells⟩ := cancelOrder_agrees h.book hs.inv id
  have hflat := hs.cancelOrder hcancel
  rw [hflat] at hacc hagree htells
  obtain rfl : acc = _ := hacc
  have hstep : t.book.step (.cancel id) =
      ((t.book.cancel id).isSome, (t.book.cancel id).getD t.book, []) := by
    simp only [Book.step]
    cases t.book.cancel id <;> rfl
  rw [hstep] at hrun hbook hevents
  refine ⟨_, t', s', hrun, hcancel, ?_, ?_⟩
  · rw [hbook]
    exact hagree
  · rw [hevents, ← h.trades]
    exact htells.executed

/-- What holds of the two engines side by side. -/
theorem Both.same (h : Both calloc e₀ S tickSz t s) :
    Hand.Reach (Hand.init calloc (some e₀) true) t ∧ Cpp.Reach S .REJECT tickSz s ∧ Same t s := by
  induction h with
  | init =>
    refine ⟨.init, .init, ?_, rfl⟩
    rw [Hand.book_init, ← (Cpp.Shown.init .REJECT tickSz).eq]
    exact ⟨fun t => by cases t <;> exact .nil, rfl, rfl⟩
  | submit _ hroom hq hr hexec hsubmit ih =>
    obtain ⟨ht, hs, hsame⟩ := ih
    obtain ⟨ok, acc, t', s', hexec', hsubmit', hsame', -⟩ := hsame.submit ht hs hroom hq hr
    obtain ⟨rfl, rfl⟩ := Prod.mk.inj (Option.some.inj (hexec.symm.trans hexec'))
    obtain ⟨rfl, rfl⟩ := Prod.mk.inj (Option.some.inj (hsubmit.symm.trans hsubmit'))
    exact ⟨.call _ ht hexec, hs.call (.submit _) (run_bind_iff.mpr ⟨_, _, hsubmit, rfl⟩), hsame'⟩
  | cancel id _ hexec hcancel ih =>
    obtain ⟨ht, hs, hsame⟩ := ih
    obtain ⟨ok, t', s', hexec', hcancel', hsame'⟩ := hsame.cancel ht hs id
    obtain ⟨rfl, rfl⟩ := Prod.mk.inj (Option.some.inj (hexec.symm.trans hexec'))
    obtain ⟨rfl, rfl⟩ := Prod.mk.inj (Option.some.inj (hcancel.symm.trans hcancel'))
    exact ⟨.call _ ht hexec, hs.call (.cancel _) (run_bind_iff.mpr ⟨_, _, hcancel, rfl⟩), hsame'⟩

/-- The ids and the remainders of a queue. -/
theorem queue_held {p : UInt64} {os : List OrderRow} {q : List Cpp.Order} (hq : Queues p os q) :
    (q.map fun o => (o.id, o.remainingQty)) = os.map fun o => (o.id, (o.remaining.toNat : ℤ)) := by
  induction hq with
  | nil => rfl
  | cons ho _ ih => rw [List.map_cons, List.map_cons, ih, ho.id, ho.remaining]

/-- The same orders are held at the same prices. -/
theorem side_held {ls : List Level} {m : Cpp.Levels} (hm : Sides ls m) : held m = heldOf ls := by
  unfold held heldOf
  induction hm with
  | nil => rfl
  | cons hl _ ih => rw [List.map_cons, List.map_cons, ih, hl.1, queue_held hl.2]

/-- What both engines can be given, as the C engine is given it: a cancellation, or a request of the
common orders. -/
def Shared : Hand.Call → Prop
  | .process none => False
  | .process (some q) => ∃ r ∈ q.decode, Common r
  | .cancel _ => True

instance : DecidablePred Shared
  | .process none => instDecidableFalse
  | .process (some q) => inferInstanceAs (Decidable (∃ r ∈ q.decode, Common r))
  | .cancel _ => instDecidableTrue

/-- One call goes to both engines. -/
theorem Both.call (h : Both calloc e₀ S tickSz t s) (hroom : t.Roomy) {c : Hand.Call}
    (hc : Shared c) : ∃ ok t' s', c.exec t = some (ok, t') ∧ t'.book = (t.book.step c).2.1 ∧
      Both calloc e₀ S tickSz t' s' := by
  obtain ⟨ht, hs, hsame⟩ := h.same
  obtain ⟨t', hexec, -, hbook, -⟩ := exec_book ht c (.inl hroom)
  cases c with
  | process q =>
    cases q with
    | none => exact hc.elim
    | some q =>
      obtain ⟨r, hq, hr⟩ := hc
      obtain ⟨ok, acc, t'', s', hexec', hsubmit, -⟩ := hsame.submit ht hs hroom hq hr
      obtain ⟨-, rfl⟩ := Prod.mk.inj (Option.some.inj (hexec.symm.trans hexec'))
      exact ⟨_, _, s', hexec, hbook, .submit h hroom hq hr hexec' hsubmit⟩
  | cancel id =>
    obtain ⟨ok, t'', s', hexec', hcancel, -⟩ := hsame.cancel ht hs id
    obtain ⟨-, rfl⟩ := Prod.mk.inj (Option.some.inj (hexec.symm.trans hexec'))
    exact ⟨_, _, s', hexec, hbook, .cancel id h hexec' hcancel⟩

/-- Some calls go to both engines, while there are at most as many orders as there are levels in the
first chunk. -/
theorem Both.run (h : Both ⟨true, true⟩ e₀ S tickSz t s) (cs : List Hand.Call)
    (hcs : ∀ c ∈ cs, Shared c) (hlen : t.book.orders.length + cs.length ≤ 500000) :
    ∃ oks t' s', Hand.run cs t = some (oks, t') ∧ Both ⟨true, true⟩ e₀ S tickSz t' s' := by
  induction cs generalizing t s with
  | nil => exact ⟨[], t, s, rfl, h⟩
  | cons c cs ih =>
    rw [List.length_cons] at hlen
    obtain ⟨ht, -, -⟩ := h.same
    obtain ⟨b, hb⟩ := ht.standsFor
    have hroom : t.Roomy := hb.roomy (by rw [← hb.book_eq]; omega)
    have hle := t.book.step_orders_le c
    obtain ⟨ok, t₁, s₁, hexec, hbook, h₁⟩ := h.call hroom (hcs c List.mem_cons_self)
    obtain ⟨oks, t₂, s₂, hrun, h₂⟩ :=
      ih h₁ (fun c hc => hcs c (List.mem_cons_of_mem _ hc)) (by rw [hbook]; omega)
    exact ⟨_, t₂, s₂, run_bind_iff.mpr ⟨_, t₁, hexec, run_bind_iff.mpr ⟨_, t₂, hrun, rfl⟩⟩, h₂⟩

/-- The two engines agree: whenever they have been given the same requests and cancellations, with
rows left in the pools of the C engine at each request, they hold the same orders with the same
remainders in the same queues at the same prices and have made the same trades in the same order,
and on every next request or cancellation both return and still agree. The C engine confirms the
requests that the C++ engine accepts, but for a post-only order that would cross, which the C++
engine cancels once it has accepted it. Both confirm the same cancellations. -/
theorem agrees_with_reference (h : Both calloc e₀ S tickSz t s) :
    (∀ tree, held (s.view (sideOf tree)) = heldOf (t.book.side tree)) ∧
    (Cpp.executed s.log).map facts = t.events.map factsOfEvent ∧
    (∀ q r, t.Roomy → q.decode = some r → Common r → ∃ ok acc t' s',
      (Hand.Call.process (some q)).exec t = some (ok, t') ∧
      Cpp.submitOrder S (input r) s = some (acc, s') ∧ Both calloc e₀ S tickSz t' s' ∧
      (ok = true ↔ acc = true ∧ ¬ (r.otype = .postOnly ∧ t.book.crossing r))) ∧
    ∀ id, ∃ ok t' s', (Hand.Call.cancel id).exec t = some (ok, t') ∧
      Cpp.cancelOrder id s = some (ok, s') ∧ Both calloc e₀ S tickSz t' s' := by
  obtain ⟨ht, hs, hsame⟩ := h.same
  refine ⟨fun tree => ?_, hsame.trades, fun q r hroom hq hr => ?_, fun id => ?_⟩
  · rw [← Cpp.Engine.side_flat]
    exact side_held (hsame.book.sides tree)
  · obtain ⟨ok, acc, t', s', hexec, hsubmit, -, hok⟩ := hsame.submit ht hs hroom hq hr
    exact ⟨ok, acc, t', s', hexec, hsubmit, .submit h hroom hq hr hexec hsubmit, hok⟩
  · obtain ⟨ok, t', s', hexec, hcancel, -⟩ := hsame.cancel ht hs id
    exact ⟨ok, t', s', hexec, hcancel, .cancel id h hexec hcancel⟩

/-- A session of both engines. Account 7 sells and later buys past its own sale, which is cancelled
as the older one, and trades with two other accounts. A sale of no account stays, and so does what
is left of the second one. -/
def bothCalls : List Hand.Call :=
  [.process (some ⟨1, 7, 1, 0, 2, 101, 5⟩), .process (some ⟨2, 8, 1, 0, 1, 101, 5⟩),
    .process (some ⟨3, 9, 1, 0, 4, 102, 4⟩), .process (some ⟨4, 0, 1, 0, 0, 103, 6⟩),
    .process (some ⟨5, 6, 0, 0, 3, 99, 3⟩), .process (some ⟨6, 6, 0, 0, 3, 98, 3⟩), .cancel 5,
    .process (some ⟨7, 7, 0, 0, 2, 102, 8⟩)]

/-- The two engines after the session. -/
theorem agrees_with_reference_session : ∃ t s,
    Both ⟨true, true⟩ ⟨0, 0, false⟩ .insertion 1 t s ∧
    (∀ tree, held (s.view (sideOf tree)) = heldOf (t.book.side tree)) ∧
    heldOf (t.book.side .bids) = [(98, [(6, 3)])] ∧
    heldOf (t.book.side .asks) = [(102, [(3, 1)]), (103, [(4, 6)])] ∧
    (Cpp.executed s.log).map facts = [(7, 2, 101, 5), (7, 3, 102, 3)] ∧
    (∀ q r, t.Roomy → q.decode = some r → Common r → ∃ ok acc t' s',
      (Hand.Call.process (some q)).exec t = some (ok, t') ∧
      Cpp.submitOrder .insertion (input r) s = some (acc, s') ∧
      Both ⟨true, true⟩ ⟨0, 0, false⟩ .insertion 1 t' s' ∧
      (ok = true ↔ acc = true ∧ ¬ (r.otype = .postOnly ∧ t.book.crossing r))) ∧
    ∀ id, ∃ ok t' s', (Hand.Call.cancel id).exec t = some (ok, t') ∧
      Cpp.cancelOrder id s = some (ok, s') ∧
      Both ⟨true, true⟩ ⟨0, 0, false⟩ .insertion 1 t' s' := by
  have hshared : ∀ c ∈ bothCalls, Shared c := by decide
  have hinit : Both ⟨true, true⟩ ⟨0, 0, false⟩ .insertion 1 _ _ := .init
  obtain ⟨oks, t, s, hrun, h⟩ := hinit.run bothCalls hshared (by rw [Hand.book_init]; decide)
  obtain ⟨t', hrun', hevents, hbook⟩ := (hinit.same).1.run_steps .init bothCalls (by decide)
  obtain ⟨-, rfl⟩ := Prod.mk.inj (Option.some.inj (hrun.symm.trans hrun'))
  -- The book after the session, computed on the books alone.
  have hsteps : (Book.empty.steps bothCalls).2 =
      (⟨[⟨98, [⟨6, 6, 0, 3, 98, 3, 3⟩]⟩], [⟨102, [⟨3, 9, 1, 4, 102, 4, 1⟩]⟩,
        ⟨103, [⟨4, 0, 1, 0, 103, 6, 6⟩]⟩]⟩, [⟨2, 7, 101, 5⟩, ⟨3, 7, 102, 3⟩]) := by decide +kernel
  rw [hsteps] at hevents hbook
  obtain ⟨hheld, htrades, hnext, hcancel⟩ := agrees_with_reference h
  refine ⟨t, s, h, hheld, ?_, ?_, ?_, hnext, hcancel⟩
  · rw [hbook.book_eq]; rfl
  · rw [hbook.book_eq]; rfl
  · rw [htrades, hevents]; rfl

end Agree

end MatchingEngine.Engines
