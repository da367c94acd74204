import MatchingEngine.Hand.Check

/-!
# The totals of the handwritten engine

`total_qty` is written with additions that wrap and with one subtraction that stops at zero, in
`PriceLevel_orders_Remove`. So a level whose quantities sum to `2^64` or more may lose its total
when an order is taken out of it whole, by a cancellation or by self-trade prevention. As long as
every such order fits into the sum modulo `2^64` (`Call.Fits`), the totals stay right and the check
passes.
-/

namespace MatchingEngine

open Contract Lib C

namespace Hand

open Gen

/-! ## The totals and the check -/

/-- The heap is sound, and the total of every level is the sum of its orders modulo `2^64`. -/
def State.Totals (t : State) : Prop :=
  ∃ y, Sound t.db y ∧ ∀ s, ∀ l ∈ y.levels s, (t.db.levels l).total_qty.toNat =
    ((y.queue l).map fun p => (t.db.orders p).remaining_qty.toNat).sum % 2^64

section Snapshot

variable {db : EngineDb} {g : Shape} {hs : Tree → List LevelH} {y : Layout}

/-- On a heap in order, the totals are all that the check needs besides soundness. -/
theorem exact_of_sound (h : Rep db g) (hs : Sound db y) (htotal : ∀ s, ∀ l ∈ y.levels s,
    (db.levels l).total_qty.toNat =
      ((y.queue l).map fun p => (db.orders p).remaining_qty.toNat).sum % 2^64) :
    Exact db y g.bucket where
  sound := hs
  total := htotal
  chain := h.hash.chain
  mem_bucket b p := by
    rw [h.hash.mem]
    refine and_congr_left fun _ => ⟨fun hp => ?_, fun hp => ?_⟩
    · obtain ⟨r, hfind, hmem⟩ := hs.find (db.orders p).id
      rw [h.indOrderFind_of_mem hp] at hfind
      exact ((hmem p).mp (Option.some.inj hfind).symm).1
    · obtain ⟨t, l, hrest⟩ := y.mem_orders.mp hp
      exact (hs.row t l p hrest).2.2.2.2.1
  order_rows := by
    have hcount := h.oPool.count
    rw [hs.order_count] at hcount
    change _ ≤ db.order_pool_total_allocated.toNat
    omega
  level_rows := by
    have hcount := h.lPool.count
    rw [hs.level_count] at hcount
    change _ ≤ db.level_pool_total_allocated.toNat
    omega
  level_bound := h.lPool.bound

/-- The totals of the adapter's heap as sums over its rows. -/
theorem totals_layout (h : Rep db g) (htotal : db.Totalled) {l : LevelPtr} {s : Tree}
    (hl : l ∈ (layoutOf g).levels s) : (db.levels l).total_qty.toNat =
      (((layoutOf g).queue l).map fun p => (db.orders p).remaining_qty.toNat).sum % 2^64 := by
  rw [htotal l (h.tree_live s l hl), Db.total_eq, h.view_queue]
  refine congrArg (fun n => n % 2^64) (congrArg List.sum (List.map_congr_left fun p hp => ?_))
  rw [Db.row_eq (Rep.view_orders_eq (h.queue_live l p hp).1)]
  rfl

end Snapshot

section Reachable

variable {wrap : Bool} {calloc : EngineDb.Calloc} {engine : Option Engine} {cb : Bool} {t : State}
  {b : Book}

/-- While every order that is taken out whole fits, the totals are right. -/
theorem StandsFor.totals (h : StandsFor true calloc t b) : t.Totals := by
  obtain ⟨g, hs, hrep, hlink, rfl, hinv⟩ := h.snapshot
  obtain ⟨s, ⟨⟨db, hs', n, hat, -, -⟩, -, -⟩, hdb⟩ := h
  have htotal : t.db.Totalled := hdb ▸ hat.valid.2.2 rfl
  exact ⟨_, sound_layout hrep hlink hinv, fun _ _ hl => totals_layout hrep htotal hl⟩

/-- Where the totals are right, the check passes. -/
theorem StandsFor.checkInvariants_eq (h : StandsFor wrap calloc t b) (htotal : t.Totals) :
    t.db.checkInvariants = some true := by
  obtain ⟨g, hs, hrep, -, -, -⟩ := h.snapshot
  obtain ⟨y, hsound, hy⟩ := htotal
  exact (exact_of_sound hrep hsound hy).checkInvariants_eq

/-- The states that calls reach whose every order taken out whole fits into its level. -/
inductive ReachFits (t₀ : State) : State → Prop where
  | init : ReachFits t₀ t₀
  | call {t t' : State} {ok : Bool} (c : Call) (h : ReachFits t₀ t) (hfits : c.Fits t.book)
      (hexec : c.exec t = some (ok, t')) : ReachFits t₀ t'

/-- A state of such a run stands for a book, also with removals that wrap. -/
theorem ReachFits.standsFor (h : ReachFits (Hand.init calloc engine cb) t) :
    ∃ b, StandsFor true calloc t b := by
  induction h with
  | init => exact ⟨_, .init⟩
  | call c _ hfits hexec ih =>
    obtain ⟨b, hb⟩ := ih
    rw [hb.book_eq] at hfits
    obtain ⟨ok, t', hrun, b', -, -, hb', -⟩ := hb.call c fun _ => hfits
    rw [hexec] at hrun
    cases hrun
    exact ⟨b', hb'⟩

/-- Whatever calls are made, as long as every order that a call takes out whole fits into the sum of
its level modulo `2^64`, the totals are right in every state that they reach, and the check passes
there. -/
theorem reach_totals (h : ReachFits (Hand.init calloc engine cb) t) :
    t.Totals ∧ t.db.checkInvariants = some true := by
  obtain ⟨b, hb⟩ := h.standsFor
  exact ⟨hb.totals, hb.checkInvariants_eq hb.totals⟩

/-- Each of some calls takes out what fits, in the book that the calls before it have left. -/
def FitAll (b : Book) : List Call → Prop
  | [] => True
  | c :: cs => c.Fits b ∧ FitAll (b.step c).2.1 cs

instance decidableFitAll : ∀ b cs, Decidable (FitAll b cs)
  | _, [] => inferInstanceAs (Decidable True)
  | b, c :: cs =>
    have := decidableFitAll (b.step c).2.1 cs
    inferInstanceAs (Decidable (c.Fits b ∧ FitAll (b.step c).2.1 cs))

/-- Such a run is a run. -/
theorem ReachFits.reach {t₀ : State} (h : ReachFits t₀ t) : Reach t₀ t := by
  induction h with
  | init => exact .init
  | call c _ _ hexec ih => exact ih.call c hexec

/-- Calls that take out what fits reach the state that stands for what they do to the book. -/
theorem ReachFits.run_steps {e₀ : Engine} (h : ReachFits (Hand.init ⟨true, true⟩ (some e₀) true) t)
    (hb : StandsFor false ⟨true, true⟩ t b) (cs : List Call)
    (hlen : b.orders.length + cs.length ≤ 500000) (hfits : FitAll b cs) :
    ∃ t', ReachFits (Hand.init ⟨true, true⟩ (some e₀) true) t' ∧
      StandsFor false ⟨true, true⟩ t' (b.steps cs).2.1 := by
  induction cs generalizing t b with
  | nil => exact ⟨t, h, hb⟩
  | cons c cs ih =>
    rw [List.length_cons] at hlen
    have hle := b.step_orders_le c
    obtain ⟨t₁, hrun, -, hb₁⟩ := h.reach.run_steps hb [c]
      (by rw [List.length_singleton]; omega)
    obtain ⟨_, u, hexec, hret⟩ := run_bind_iff.mp hrun
    cases hret
    exact ih (h.call c (hb.book_eq ▸ hfits.1) hexec) hb₁ (by omega) hfits.2

/-- Three orders of `2^63` to sell at one price, whose sum wraps. A buyer takes five of the first.
A post-only order of the sellers' own account would cross and is refused, and another order of that
account takes the first one out, which fits. -/
def wrapping : List Call :=
  [.process (some ⟨1, 7, 1, 0, 0, 100, 9223372036854775808⟩),
    .process (some ⟨2, 7, 1, 0, 0, 100, 9223372036854775808⟩),
    .process (some ⟨3, 8, 1, 0, 0, 100, 9223372036854775808⟩),
    .process (some ⟨4, 9, 0, 2, 0, 100, 5⟩), .process (some ⟨5, 7, 0, 3, 2, 100, 1⟩),
    .process (some ⟨6, 7, 0, 2, 3, 100, 1⟩)]

/-- `reach_totals` in a state with a level whose quantities sum to `2^64`. -/
theorem reach_totals_wrapping : ∃ t,
    ReachFits (Hand.init ⟨true, true⟩ (some ⟨0, 0, false⟩) true) t ∧
    t.book = ⟨[], [⟨100, [⟨2, 7, 1, 0, 100, 9223372036854775808, 9223372036854775808⟩,
      ⟨3, 8, 1, 0, 100, 9223372036854775808, 9223372036854775808⟩]⟩]⟩ ∧
    t.Totals ∧ t.db.checkInvariants = some true := by
  have hinit : ReachFits (Hand.init ⟨true, true⟩ (some ⟨0, 0, false⟩) true) _ := .init
  obtain ⟨t, ht, hbook⟩ := hinit.run_steps .init wrapping (by decide) (by decide +kernel)
  have hsteps : (Book.empty.steps wrapping).2.1 =
      ⟨[], [⟨100, [⟨2, 7, 1, 0, 100, 9223372036854775808, 9223372036854775808⟩,
        ⟨3, 8, 1, 0, 100, 9223372036854775808, 9223372036854775808⟩]⟩]⟩ := by decide +kernel
  exact ⟨t, ht, hbook.book_eq.trans hsteps, reach_totals ht⟩

/-- Two orders of `2^63` to sell at one price, of which the first is cancelled. -/
def overflowing : List Call :=
  [.process (some ⟨1, 0, 1, 0, 0, 100, 9223372036854775808⟩),
    .process (some ⟨2, 0, 1, 0, 0, 100, 9223372036854775808⟩), .cancel 1]

/-- The sum wraps to zero, so cancelling the first order leaves the total at zero. -/
theorem overflowing_breaks : ∃ t, Reach (Hand.init ⟨true, true⟩ none false) t ∧ ¬ t.Totals ∧
    t.db.checkInvariants = some false := by
  have hcheck : ((Hand.run overflowing (Hand.init ⟨true, true⟩ none false)).bind fun r =>
      r.2.db.checkInvariants) = some false := by
    change ((Hand.run overflowing ⟨EngineDb.init ⟨true, true⟩, none, []⟩).bind _) = _
    rw [EngineDb.init_fresh]
    decide +kernel
  obtain ⟨⟨oks, t⟩, hrun, hfalse⟩ := Option.bind_eq_some_iff.mp hcheck
  have hreach := Reach.init.run hrun
  refine ⟨t, hreach, fun htotal => ?_, hfalse⟩
  obtain ⟨b, hb⟩ := hreach.standsFor
  rw [hb.checkInvariants_eq htotal] at hfalse
  cases hfalse

end Reachable

end Hand

end MatchingEngine
