import MatchingEngine.Book.Ledger
import MatchingEngine.Hand.Book

/-!
# Conservation of quantity

A request that the handwritten matcher accepts has a ledger whose trades are the calls of the
callback, and which accounts for the quantity of the request and for that of every order. Over a run
the ledgers add up: an order that rests has as much left as they have not taken from it since it was
accepted, and the counters of the engine object count the calls of the callback.
-/

namespace MatchingEngine

open Contract Lib C

/-- What the entries take from the order `id` after the last one that accepts it. -/
def spentSince (id : UInt64) (es : List Entry) : ℕ :=
  es.foldl (fun n e =>
    match e with
    | .accepted id' _ => if id' = id then 0 else n
    | e => n + e.amount id) 0

/-- An order that has just been accepted has spent nothing. -/
theorem spentSince_accepted (id qty : UInt64) (es : List Entry) :
    spentSince id (es ++ [.accepted id qty]) = 0 := by
  unfold spentSince
  rw [List.foldl_append]
  exact if_pos rfl

/-- The acceptance of another order is nothing spent. -/
theorem spentSince_other {id id' : UInt64} (hne : id' ≠ id) (qty : UInt64) (es : List Entry) :
    spentSince id (es ++ [.accepted id' qty]) = spentSince id es := by
  unfold spentSince
  rw [List.foldl_append]
  exact if_neg hne

/-- What an order spends in the entries of a request, none of which is an acceptance. -/
theorem spentSince_append {r : Request} {os : List OrderRow} {es' : List Entry}
    (h : ∀ e ∈ es', e.Of r os) (id : UInt64) (es : List Entry) :
    spentSince id (es ++ es') = spentSince id es + spent id es' := by
  induction es' generalizing es with
  | nil => rw [List.append_nil, spent_nil, Nat.add_zero]
  | cons e es' ih =>
    have hone : spentSince id (es ++ [e]) = spentSince id es + e.amount id := by
      have he := h e List.mem_cons_self
      unfold spentSince
      rw [List.foldl_append]
      cases e with
      | accepted => exact he.elim
      | trade | decrement | cancelled => rfl
    rw [List.append_cons, ih (fun e he => h e (List.mem_cons_of_mem _ he)), hone, spent_cons,
      Nat.add_assoc]

namespace Hand

open Gen

/-- The ledger of a run: every accepted request adds its own, and nothing else adds to it. -/
inductive Logged (t₀ : State) : State → List Entry → Prop where
  | init : Logged t₀ t₀ []
  | accept {t t' : State} {es es' : List Entry} {q : OrderRequest} {r : Request} {rem : ℕ}
      (h : Logged t₀ t es) (hd : q.decode = some r)
      (hexec : processOrder (some q) t = some (true, t'))
      (htrades : t' = { t.reports (es'.filterMap Entry.trade?) with db := t'.db })
      (hes : Conserves r t.book t'.book es' rem) :
      Logged t₀ t' (es ++ [.accepted r.id r.qty] ++ es')
  | refuse {t t' : State} {es : List Entry} {c : Call} (h : Logged t₀ t es)
      (hexec : c.exec t = some (false, t')) : Logged t₀ t' es
  | cancel {t t' : State} {es : List Entry} {id : UInt64} (h : Logged t₀ t es)
      (hexec : cancelOrder id t = some (true, t')) : Logged t₀ t' es

section Reachable

variable {calloc : EngineDb.Calloc} {engine : Option Engine} {cb : Bool} {t t' : State} {b : Book}
  {q : OrderRequest} {r : Request} {es : List Entry} {ok : Bool}

/-- A request that is accepted has a ledger. -/
theorem StandsFor.accepted (h : StandsFor false calloc t b)
    (hexec : processOrder (some q) t = some (true, t')) : ∃ r, q.decode = some r ∧ r.id ∉ b.ids ∧
      ∃ es rem, Conserves r b t'.book es rem ∧
        t' = { t.reports (es.filterMap Entry.trade?) with db := t'.db } := by
  obtain ⟨-, -, -, -, -, hinv⟩ := h.snapshot
  obtain ⟨ok, t'', hrun, b', ts, hstep, hb', ht'⟩ := h.call (.process (some q)) nofun
  cases hexec.symm.trans hrun
  rw [hb'.book_eq]
  generalize hok : true = ok at hstep
  cases hstep with
  | invalid | duplicate => cases hok
  | @ends _ r c _ _ hd hid hends =>
    obtain rfl : c = 0 := of_decide_eq_true hok.symm
    cases hends with
    | placed hpost hroom =>
      obtain ⟨rem, hcons⟩ := hinv.conserves_place hid
      rw [← Book.entries_trades] at ht'
      exact ⟨r, hd, hid, _, rem, hcons, ht'⟩

/-- A call that returns false keeps the book. -/
theorem StandsFor.refused (h : StandsFor false calloc t b) {c : Call}
    (hexec : c.exec t = some (false, t')) : t'.book = b := by
  obtain ⟨-, -, -, -, -, hinv⟩ := h.snapshot
  obtain ⟨ok, t'', hrun, b', ts, hstep, hb', -⟩ := h.call c nofun
  cases hexec.symm.trans hrun
  rw [hb'.book_eq]
  generalize hok : false = ok at hstep
  cases hstep with
  | null | invalid | duplicate => rfl
  | @ends _ r c _ _ hd hid hends =>
    have hc : c ≠ 0 := fun h0 => Bool.false_ne_true (hok.trans (decide_eq_true h0))
    exact (hends.of_ne_zero hinv h.fits.1 h.fits.2 hc).1
  | cancel id =>
    cases hcancel : b.cancel id with
    | none => rfl
    | some b'' =>
      rw [hcancel] at hok
      cases hok

/-- A cancellation keeps the other orders. -/
theorem StandsFor.cancelled (h : StandsFor false calloc t b) {id : UInt64}
    (hexec : cancelOrder id t = some (true, t')) : ∀ o ∈ t'.book.orders, o ∈ b.orders := by
  obtain ⟨ok, t'', hrun, b', ts, hstep, hb', -⟩ := h.call (.cancel id) nofun
  cases hexec.symm.trans hrun
  rw [hb'.book_eq]
  generalize hok : true = ok at hstep
  cases hstep with
  | cancel =>
    intro o ho
    unfold Book.cancel at ho
    split at ho
    · rw [Option.getD_some, Book.remove_orders] at ho
      exact List.mem_of_mem_filter ho
    · exact ho

/-- Such a run is a run. -/
theorem Logged.reach {t₀ : State} (h : Logged t₀ t es) : Reach t₀ t := by
  induction h with
  | init => exact .init
  | @accept _ _ _ _ q _ _ _ _ hexec _ _ ih => exact ih.call (.process (some q)) hexec
  | refuse _ hexec ih => exact ih.call _ hexec
  | @cancel _ _ _ id _ hexec ih => exact ih.call (.cancel id) hexec

/-- Every run has a ledger. -/
theorem Reach.logged (h : Reach (Hand.init calloc engine cb) t) :
    ∃ es, Logged (Hand.init calloc engine cb) t es := by
  induction h with
  | init => exact ⟨[], .init⟩
  | @call t t' ok c h hexec ih =>
    obtain ⟨b, hb⟩ := h.standsFor
    obtain ⟨es, hes⟩ := ih
    cases ok with
    | false => exact ⟨es, hes.refuse hexec⟩
    | true =>
      cases c with
      | cancel id => exact ⟨es, hes.cancel hexec⟩
      | process req =>
        cases req with
        | none => cases hexec
        | some q =>
          obtain ⟨r, hd, -, es', rem, hcons, htrades⟩ := hb.accepted hexec
          rw [← hb.book_eq] at hcons
          exact ⟨_, hes.accept hd hexec htrades hcons⟩

/-- An order that rests has left what its ledger has not taken from it. -/
theorem Logged.remaining (h : Logged (Hand.init calloc engine cb) t es) :
    ∀ o ∈ t.book.orders, o.qty.toNat = o.remaining.toNat + spentSince o.id es := by
  induction h with
  | init =>
    intro o ho
    have hinit : StandsFor false calloc (Hand.init calloc engine cb) Book.empty := .init
    rw [hinit.book_eq] at ho
    cases ho
  | @accept t t' es es' q r rem h hd hexec _ hcons ih =>
    obtain ⟨b, hb⟩ := h.reach.standsFor
    obtain ⟨r', hd', hid, -⟩ := hb.accepted hexec
    obtain rfl : r = r' := Option.some.inj (hd.symm.trans hd')
    rw [← hb.book_eq] at hid
    intro o ho
    rw [spentSince_append hcons.named]
    rcases hcons.only o ho with rfl | ⟨p, hp, rfl⟩
    · -- The order that has just been accepted.
      have hquantity := hcons.quantity
      have hlt := r.qty.toNat_lt
      change r.qty.toNat = (UInt64.ofNat rem).toNat + (spentSince r.id _ + spent r.id es')
      rw [spentSince_accepted, UInt64.toNat_ofNat_of_lt' (show rem < 2^64 by omega)]
      omega
    · -- An order that was there.
      have hne : r.id ≠ p.id := fun heq => hid (heq ▸ List.mem_map_of_mem hp)
      have hle := hcons.spent_le p hp
      have hlt := p.remaining.toNat_lt
      have hspent : (UInt64.ofNat (spent p.id es')).toNat = spent p.id es' :=
        UInt64.toNat_ofNat_of_lt' (show spent p.id es' < 2^64 by omega)
      have hp' := ih p hp
      change p.qty.toNat = (p.remaining - UInt64.ofNat (spent p.id es')).toNat +
        (spentSince p.id _ + spent p.id es')
      rw [spentSince_other hne, UInt64.toNat_sub_of_le, hspent]
      · omega
      · rwa [UInt64.le_iff_toNat_le, hspent]
  | refuse h hexec ih =>
    obtain ⟨b, hb⟩ := h.reach.standsFor
    rwa [hb.refused hexec, ← hb.book_eq]
  | cancel h hexec ih =>
    obtain ⟨b, hb⟩ := h.reach.standsFor
    intro o ho
    exact ih o (hb.book_eq ▸ hb.cancelled hexec o ho)

/-- Without an engine nothing is reported. -/
theorem State.reports_none {s : State} (h : s.engine = none) (ts : List TradeRow) :
    s.reports ts = s := by
  induction ts with
  | nil => rfl
  | cons t ts ih =>
    have hreport : s.report (eventOf t) = s := by
      unfold report
      rw [h]
    change (s.report (eventOf t)).reports ts = s
    rw [hreport, ih]

/-- The counters of an engine object with a callback count the calls of it. -/
theorem Reach.counters (h : Reach (Hand.init calloc engine true) t) {e : Engine}
    (he : t.engine = some e) : e.on_trade = true ∧ e.total_trades = UInt64.ofNat t.events.length ∧
      e.total_volume = (t.events.map TradeEvent.qty).sum := by
  induction h generalizing e with
  | init =>
    obtain ⟨e₀, -, rfl⟩ := Option.map_eq_some_iff.mp he
    exact ⟨rfl, rfl, rfl⟩
  | @call t t' ok c h hexec ih =>
    obtain ⟨b, hb⟩ := h.standsFor
    obtain ⟨ok', t'', hrun, b', ts, -, -, ht'⟩ := hb.call c nofun
    cases hexec.symm.trans hrun
    cases hold : t.engine with
    | none =>
      rw [ht', State.reports_none hold, hold] at he
      cases he
    | some e₀ =>
      obtain ⟨hcb, htrades, hvolume⟩ := ih hold
      rw [State.reports_eq hold, if_pos hcb] at ht'
      rw [ht'] at he ⊢
      cases he
      refine ⟨hcb, ?_, ?_⟩
      · change e₀.total_trades + _ = UInt64.ofNat (t.events ++ ts.map eventOf).length
        rw [htrades, List.length_append, List.length_map, UInt64.ofNat_add]
      · change e₀.total_volume + _ = ((t.events ++ ts.map eventOf).map TradeEvent.qty).sum
        rw [hvolume, List.map_append, List.sum_append, List.map_map]
        rfl

end Reachable

end Hand

end MatchingEngine
