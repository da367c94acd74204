import MatchingEngine.Cpp.Kinship
import MatchingEngine.Cpp.Structure

/-!
# What `cancelOrder` and `expireOrders` take out

Both calls take out their targets and nothing else: the other orders keep their values and their
places in the queues, and a level goes when its last order does. A second `expireOrders` at the same
time writes nothing.

What is left is `Levels.keep` of the predicate that the targets fail, which keeps the order of the
levels and of the queues and drops a level without orders. `cancelOrder_keep` and
`expireOrders_keep` say so of the values, and `Removes` of the engine, level by level. The scan of
the stops moves the last one to each place that it empties, so their order is kept up to a
permutation.
-/

namespace MatchingEngine.Cpp

open Lib

/-- The levels of a side with the orders that `p` is true of, without the levels that have none. -/
def Levels.keep (p : Order → Bool) (m : Levels) : Levels :=
  (m.map fun l => (l.1, l.2.filter p)).filter fun l => l.2 ≠ []

section Keep

variable {p p' : Order → Bool} {m : Levels} {q : List Order} {px : ℤ}

/-- The best level is thinned out, and goes when it is left without orders. -/
theorem Levels.keep_cons : Levels.keep p ((px, q) :: m) = front px (q.filter p) (m.keep p) := by
  unfold Levels.keep
  rw [List.map_cons, List.filter_cons]
  cases q.filter p <;> rfl

/-- What is kept depends on the orders of the side only. -/
theorem Levels.keep_congr (h : ∀ o ∈ m.orders, p o = p' o) : m.keep p = m.keep p' := by
  unfold Levels.keep
  refine congrArg (List.filter _) (List.map_congr_left fun l hl => congrArg (l.1, ·) ?_)
  exact List.filter_congr fun o ho => h o (Levels.mem_orders.mpr ⟨l, hl, ho⟩)

/-- Where all orders are kept, nothing changes. -/
theorem Levels.keep_all (hfull : ∀ l ∈ m, l.2 ≠ []) (h : ∀ o ∈ m.orders, p o = true) :
    m.keep p = m := by
  have hmap : m.map (fun l => (l.1, l.2.filter p)) = m := by
    refine (List.map_congr_left fun l hl => ?_).trans (List.map_id m)
    refine congrArg (l.1, ·) (List.filter_eq_self.mpr fun o ho => ?_)
    exact h o (Levels.mem_orders.mpr ⟨l, hl, ho⟩)
  unfold Levels.keep
  rw [hmap]
  exact List.filter_eq_self.mpr fun l hl => decide_eq_true (hfull l hl)

/-- Thinning out twice is thinning out once, by both. -/
theorem Levels.keep_keep : (m.keep p).keep p' = m.keep fun o => p' o && p o := by
  induction m with
  | nil => rfl
  | cons l m ih =>
    obtain ⟨px, q⟩ := l
    rw [Levels.keep_cons, Levels.keep_cons, ← ih, ← List.filter_filter]
    cases q.filter p with
    | nil => rfl
    | cons o q => exact Levels.keep_cons

/-- Whether a level stays: when one of its orders does. -/
theorem Levels.exists_keep {b : Side} (h : Shelf b m) {l : ℤ × List Order} (hl : l ∈ m) :
    (∃ l' ∈ m.keep p, l'.1 = l.1) ↔ ∃ o ∈ l.2, p o = true := by
  constructor
  · rintro ⟨l', hl', hpx⟩
    obtain ⟨hm, hne⟩ := List.mem_filter.mp hl'
    obtain ⟨l₀, hl₀, rfl⟩ := List.mem_map.mp hm
    obtain ⟨o, ho⟩ := List.exists_mem_of_ne_nil _ (of_decide_eq_true hne)
    obtain ⟨ho, hp⟩ := List.mem_filter.mp ho
    have hsame : l₀ = l := by
      have hprices : (m.map (·.1)).Nodup :=
        List.pairwise_map.mpr (h.sorted.imp fun hb => (better_asymm hb).2.symm)
      exact List.inj_on_of_nodup_map hprices hl₀ hl hpx
    rw [← hsame]
    exact ⟨o, ho, hp⟩
  · rintro ⟨o, ho, hp⟩
    refine ⟨_, List.mem_filter.mpr ⟨List.mem_map_of_mem hl, decide_eq_true ?_⟩, rfl⟩
    exact List.ne_nil_of_mem (List.mem_filter.mpr ⟨ho, hp⟩)

/-- The orders that are kept. -/
theorem Levels.orders_keep : (m.keep p).orders = m.orders.filter p := by
  induction m with
  | nil => rfl
  | cons l m ih =>
    obtain ⟨px, q⟩ := l
    rw [Levels.keep_cons, Levels.orders_front, ih, Levels.orders_cons, List.filter_append]

/-- Where ids are distinct, erasing an id is filtering it out. -/
theorem eraseP_id (id : UInt64) (h : (q.map (·.id)).Nodup) :
    (q.eraseP fun o => o.id = id) = q.filter fun o => o.id ≠ id := by
  induction q with
  | nil => rfl
  | cons o q ih =>
    rw [List.map_cons, List.nodup_cons] at h
    by_cases ho : o.id = id
    · rw [List.eraseP_cons_of_pos (p := fun x : Order => x.id = id) (decide_eq_true ho),
        List.filter_cons_of_neg (p := fun x : Order => x.id ≠ id) (by simpa using ho)]
      refine (List.filter_eq_self.mpr fun x hx => ?_).symm
      have hid : x.id ≠ id := fun hid => h.1 (by rw [ho, ← hid]; exact List.mem_map_of_mem hx)
      simpa using hid
    · rw [List.eraseP_cons_of_neg (p := fun x : Order => x.id = id) (by simpa using ho),
        List.filter_cons_of_pos (p := fun x : Order => x.id ≠ id) (by simpa using ho), ih h.2]

/-- Taking out an id keeps the orders of other ids. -/
theorem pull_eq_keep (id : UInt64) (hfull : ∀ l ∈ m, l.2 ≠ []) (h : (m.orders.map (·.id)).Nodup) :
    pull id m = Levels.keep (fun o => o.id ≠ id) m := by
  induction m with
  | nil => rfl
  | cons l m ih =>
    obtain ⟨px, q⟩ := l
    obtain ⟨hq, hfull⟩ := List.forall_mem_cons.mp hfull
    rw [Levels.orders_cons, List.map_append, List.nodup_append] at h
    obtain ⟨hqs, hms, hdis⟩ := h
    rw [Levels.keep_cons, ← eraseP_id id hqs]
    unfold pull
    split
    · rename_i hany
      obtain ⟨o, ho, hid⟩ := List.any_eq_true.mp hany
      -- The id is in this level only.
      have hrest : Levels.keep (fun o => o.id ≠ id) m = m := by
        refine Levels.keep_all hfull fun x hx => ?_
        have hne : x.id ≠ id := fun hx' => hdis o.id (List.mem_map_of_mem ho) x.id
          (List.mem_map_of_mem hx) ((of_decide_eq_true hid).trans hx'.symm)
        simpa using hne
      rw [hrest]
      cases q.eraseP fun o => o.id = id <;> rfl
    · rename_i hany
      -- The id is not in this level.
      have hnone : (q.eraseP fun o => o.id = id) = q :=
        List.eraseP_of_forall_not fun o ho hid => hany (List.any_eq_true.mpr ⟨o, ho, hid⟩)
      rw [hnone, ih hfull hms]
      cases q with
      | nil => exact absurd rfl hq
      | cons o q => rfl

end Keep

namespace Flat

/-- What the loops over the stops take out and leave, as parts of the vector. -/
theorem Taken.filter {α : Type} {p : α → Bool} {v : List α} {r : List α × List α} (h : Taken p v [] r) :
    r.1.Perm (v.filter p) ∧ r.2.Perm (v.filter fun x => ! p x) := by
  have hperm : v.Perm (r.1 ++ r.2) := h.perm
  have hout : ∀ x ∈ r.1, p x = true := fun x hx => (h.out x hx).resolve_left List.not_mem_nil
  have hsplit : ∀ g : α → Bool, (v.filter g).Perm (r.1.filter g ++ r.2.filter g) := fun g => by
    rw [← List.filter_append]
    exact hperm.filter g
  constructor
  · have hnone : r.2.filter p = [] := List.filter_eq_nil_iff.mpr fun x hx => by simp [h.left x hx]
    have hf := hsplit p
    rw [List.filter_eq_self.mpr hout, hnone, List.append_nil] at hf
    exact hf.symm
  · have hnone : r.1.filter (fun x => ! p x) = [] :=
      List.filter_eq_nil_iff.mpr fun x hx => by simp [hout x hx]
    have hall : r.2.filter (fun x => ! p x) = r.2 :=
      List.filter_eq_self.mpr fun x hx => by simp [h.left x hx]
    have hf := hsplit fun x => ! p x
    rw [hnone, hall] at hf
    exact hf.symm

variable {f f' : Flat} {fl os : List Order} {o : Order} {t : ℕ}

/-- No id is twice on a side. -/
theorem nodup_side (hi : Inv f fl) (b : Side) : ((f.side b).orders.map (·.id)).Nodup := by
  have hn := (ids_side f b fl).nodup_iff.mp hi.ids
  rw [List.map_append] at hn
  exact (List.nodup_append.mp (List.nodup_append.mp hn).2.1).1

/-- An order that is taken out of its queue, seen from both sides. -/
theorem side_unlink (hi : Inv f []) {b : Side} (ho : o ∈ (f.side b).orders) (b' : Side) :
    (f.unlink b o).side b' = Levels.keep (fun x => x.id ≠ o.id) (f.side b') := by
  by_cases hb : b' = b
  · subst hb
    unfold unlink
    rw [side_setSide]
    exact pull_eq_keep o.id (hi.sides b').full (nodup_side hi b')
  · have hb : b' = oppositeSide b := by
      cases b <;> cases b' <;> first | rfl | exact absurd rfl hb
    subst hb
    unfold unlink
    rw [side_setSide_opposite']
    refine (Levels.keep_all (hi.sides _).full fun x hx => ?_).symm
    -- The order's id is not one of the other side.
    have hne : x.id ≠ o.id := by
      intro hid
      have hn := (ids_side f b []).nodup_iff.mp hi.ids
      rw [List.append_nil] at hn
      exact (List.nodup_append.mp hn).2.2 x.id (List.mem_map_of_mem (List.mem_append_left _ hx)) o.id
        (List.mem_map_of_mem ho) hid
    simpa using hne

/-- The entries of the history for an order that expires. -/
def expiry (o : Order) : List Mark :=
  [.event (.onOrderExpired { o with status := .EXPIRED }), .left { o with status := .EXPIRED }]

/-- An expiry adds its two entries. -/
theorem log_expireOne (o : Order) (f : Flat) :
    (expireOne o f).tape.log = f.tape.log ++ expiry o := List.append_assoc _ _ _

/-- The loop over the resting orders that expire. -/
theorem expireResting_keep : ∀ os (f : Flat), Inv f [] → (os.map (·.id)).Nodup →
    (∀ o ∈ os, o ∈ (f.side o.side).orders) →
    (∀ b, (expireResting os f).side b =
      Levels.keep (fun x => os.all fun o => x.id ≠ o.id) (f.side b)) ∧
    (expireResting os f).tape.log = f.tape.log ++ os.flatMap expiry := by
  intro os
  induction os with
  | nil =>
    intro f hi _ _
    exact ⟨fun b => (Levels.keep_all (hi.sides b).full fun _ _ => rfl).symm, (List.append_nil _).symm⟩
  | cons o os ih =>
    intro f hi hids hos
    have ho := hos o List.mem_cons_self
    rw [List.map_cons, List.nodup_cons] at hids
    have hst : o.status ≠ .CANCELLED := open_ne (hi.tidy.status o (mem_orders ho))
    -- One order goes, and the invariant survives.
    have hi₁ : Inv (expireOne o (f.unlink o.side o)) [] :=
      (hi.unlink ho).steps (steps_expireOne (X := Any) hst)
    have hside : ∀ b, (expireOne o (f.unlink o.side o)).side b =
        Levels.keep (fun x => x.id ≠ o.id) (f.side b) := fun b =>
      (side_withTape _ _ b).trans (side_unlink hi ho b)
    obtain ⟨hsides, hlog⟩ := ih _ hi₁ hids.2 fun x hx => by
      -- The other orders have other ids, so they are still there when their turn comes.
      have hne : x.id ≠ o.id := fun he => hids.1 (by rw [← he]; exact List.mem_map_of_mem hx)
      rw [hside, Levels.orders_keep]
      exact List.mem_filter.mpr ⟨hos x (List.mem_cons_of_mem _ hx), by simpa using hne⟩
    refine ⟨fun b => ?_, ?_⟩
    · unfold expireResting
      rw [hsides b, hside b, Levels.keep_keep]
      exact Levels.keep_congr fun x _ => Bool.and_comm _ _
    · unfold expireResting
      rw [hlog, log_expireOne, List.append_assoc, List.flatMap_cons]
      unfold unlink
      rw [tape_setSide]

/-- The loop over the stops that expire. -/
theorem expireStops_eq : ∀ os (f : Flat), ∃ t, expireStops os f = f.withTape t ∧
    t.log = f.tape.log ++ os.flatMap expiry := by
  intro os
  induction os with
  | nil => exact fun f => ⟨f.tape, rfl, (List.append_nil _).symm⟩
  | cons o os ih =>
    intro f
    obtain ⟨t, he, hlog⟩ := ih (expireOne o f)
    refine ⟨t, he, ?_⟩
    rw [hlog, log_expireOne, List.append_assoc, List.flatMap_cons]

/-- What `expireOrders` leaves, and what it tells of the orders that go. -/
theorem expireOrders_keep (hi : Inv f []) (h : expireOrders t f = some f') :
    (∀ b, f'.side b = Levels.keep (fun o => ! shouldExpire t o) (f.side b)) ∧
    f'.stops.Perm (f.stops.filter fun o => ! shouldExpire t o) ∧
    ∃ os : List Order, os.Perm (f.orders.filter (shouldExpire t)) ∧
      f'.tape.log = f.tape.log ++ os.flatMap expiry := by
  obtain ⟨r, hr, rfl⟩ := Option.map_eq_some_iff.mp h
  have hids := hi.tidy.ids
  unfold orders at hids
  rw [← List.append_assoc, List.map_append] at hids
  have hids : ((f.bids.orders ++ f.asks.orders).map (·.id) ++ f.stops.map (·.id)).Nodup := hids
  obtain ⟨hsides, hlog⟩ := expireResting_keep _ f hi
    ((List.nodup_append.mp hids).1.sublist (List.filter_sublist.map _)) fun o ho =>
      hi.tidy.mem_side (List.mem_filter.mp ho).1
  have htaken := taken_takeOut _ _ _ _ _ hr fun j hj => absurd hj (Nat.not_lt_zero j)
  rw [stops_expireResting] at htaken
  obtain ⟨hgone, hleft⟩ := htaken.filter
  obtain ⟨tape, he, hlog'⟩ := expireStops_eq r.1
    { expireResting ((f.bids.orders ++ f.asks.orders).filter (shouldExpire t)) f with stops := r.2 }
  rw [he]
  refine ⟨fun b => ?_, ?_, (f.bids.orders ++ f.asks.orders).filter (shouldExpire t) ++ r.1, ?_, ?_⟩
  · have hb : (expireResting ((f.bids.orders ++ f.asks.orders).filter (shouldExpire t)) f).side b =
        Levels.keep (fun o => ! shouldExpire t o) (f.side b) := by
      rw [hsides b]
      refine Levels.keep_congr fun x hx => ?_
      rw [Bool.eq_iff_iff, List.all_eq_true]
      have hxs : x ∈ f.bids.orders ++ f.asks.orders := by
        cases b
        · exact List.mem_append_left _ hx
        · exact List.mem_append_right _ hx
      constructor
      · intro hall
        by_contra hn
        have hp : shouldExpire t x = true := by simpa using hn
        simpa using hall x (List.mem_filter.mpr ⟨hxs, hp⟩)
      · intro hp o ho
        obtain ⟨ho, hpo⟩ := List.mem_filter.mp ho
        have hne : x.id ≠ o.id := by
          intro hid
          obtain rfl := List.inj_on_of_nodup_map (List.nodup_append.mp hids).1 hxs ho hid
          rw [hpo] at hp
          cases hp
        simpa using hne
    rw [side_withTape]
    cases b <;> exact hb
  · exact hleft
  · refine (hgone.append_left _).trans (.of_eq ?_)
    rw [← List.filter_append]
    exact congrArg (List.filter (shouldExpire t)) (List.append_assoc _ _ _)
  · rw [tape_withTape, hlog', List.flatMap_append, ← List.append_assoc, ← hlog]

/-- What `cancelOrder` leaves when it finds an order. -/
theorem cancelOrder_keep (hi : Inv f []) {id : UInt64} (h : cancelOrder id f = (true, f')) :
    (∀ b, f'.side b = Levels.keep (fun o => o.id ≠ id) (f.side b)) ∧
    f'.stops.Perm (f.stops.filter fun o => o.id ≠ id) := by
  have hids := hi.tidy.ids
  unfold orders at hids
  rw [← List.append_assoc, List.map_append, List.nodup_append] at hids
  obtain ⟨-, hstops, hdis⟩ := hids
  unfold cancelOrder at h
  cases hl : f.locate id with
  | none =>
    rw [hl] at h
    cases h
  | some w =>
    rw [hl] at h
    have hmem := mem_of_locate hl
    cases w with
    | resting b o =>
      obtain ⟨ho, rfl⟩ := hmem
      dsimp only at h
      split at h
      · cases h
        refine ⟨fun b' => (side_withTape _ _ _).trans (side_unlink hi ho b'), ?_⟩
        have hkept : (f.unlink b o).stops = f.stops := stops_setSide _ _ _
        refine .of_eq (hkept.trans (List.filter_eq_self.mpr fun x hx => ?_).symm)
        have hne : x.id ≠ o.id := fun hid => hdis o.id (List.mem_map_of_mem ?_) x.id
          (List.mem_map_of_mem hx) hid.symm
        · simpa using hne
        · cases b
          · exact List.mem_append_left _ ho
          · exact List.mem_append_right _ ho
      · cases h
    | dormant o =>
      obtain ⟨ho, rfl⟩ := hmem
      dsimp only at h
      split at h
      · cases h
        obtain ⟨stops, he, hperm⟩ := perm_rmStop hstops ho
        rw [he]
        refine ⟨fun b => ?_, ?_⟩
        · refine Eq.trans (b := f.side b) (by cases b <;> rfl)
            (Levels.keep_all (hi.sides b).full fun x hx => ?_).symm
          have hne : x.id ≠ o.id := fun hid => hdis x.id (List.mem_map_of_mem ?_) o.id
            (List.mem_map_of_mem ho) hid
          · simpa using hne
          · cases b
            · exact List.mem_append_left _ hx
            · exact List.mem_append_right _ hx
        · have herase := (perm_eraseP hstops ho).symm.trans hperm
          rw [eraseP_id o.id hstops] at herase
          exact (List.perm_cons o).mp herase.symm
      · cases h

end Flat

section Removal

variable {K : UInt64 → ℕ} {S : StdSort} {pop : PostOnlyPolicy} {tickSz : ℤ} {s s' : Engine} {f : Flat}
  {t : ℕ}

/-- A pass over stops of which none expires. -/
theorem Shows.expireStops_idle (h : Shows K s f []) (hno : ∀ o ∈ f.stops, shouldExpire t o = false) :
    ∀ n i, i ≤ f.stops.length → f.stops.length < n + i → Cpp.expireStops t n i s = some ((), s) := by
  intro n
  induction n with
  | zero =>
    intro i hi hn
    omega
  | succ n ih =>
    intro i hi hn
    unfold Cpp.expireStops
    rw [run_bind (show read (·.stops_) s = some (s.stops_, s) from rfl)]
    cases hat : f.stops[i]? with
    | none =>
      have hlen := List.getElem?_eq_none_iff.mp hat
      -- The scan is over in both at once.
      have hnone : s.stops_[i]? = none := by
        obtain ⟨G, hs, -, rfl, -⟩ := h
        have hstops : (G.flat s.tape).stops.length = G.stops.length := List.length_map _
        rw [hs.stops]
        refine List.getElem?_eq_none_iff.mpr ?_
        rw [List.length_map, ← hstops]
        exact hlen
      rw [hnone]
      rfl
    | some o =>
      obtain ⟨hp, hord, -⟩ := h.popStop hat
      have hlt := (List.getElem?_eq_some_iff.mp hat).1
      rw [hp]
      dsimp only
      -- Not expired: the scan goes on behind it.
      rw [run_bind hord, if_neg (by rw [hno o (List.mem_of_getElem? hat)]; exact Bool.false_ne_true)]
      exact ih (i + 1) (by omega) (by omega)

/-- Where no order expires nothing is written. -/
theorem Shows.expireOrders_idle (h : Shows K s f []) (hno : ∀ o ∈ f.orders, shouldExpire t o = false) :
    Cpp.expireOrders t s = some ((), s) := by
  obtain ⟨exp, hb, ha⟩ := h.scan (t := t)
  -- No resting order is found by the scan of the books.
  have hnone : (f.bids.orders ++ f.asks.orders).filter (shouldExpire t) = [] := by
    refine List.filter_eq_nil_iff.mpr fun o ho => ?_
    have hmem : o ∈ f.orders := by
      rcases List.mem_append.mp ho with ho | ho
      · exact Flat.mem_orders (b := .BUY) ho
      · exact Flat.mem_orders (b := .SELL) ho
    rw [hno o hmem]
    exact Bool.false_ne_true
  rw [hnone, List.map_nil] at ha
  have hlen : s.stops_.length = f.stops.length := by
    obtain ⟨G, hs, -, rfl, -⟩ := h
    rw [hs.stops, List.length_map]
    exact (List.length_map _).symm
  have hstops := h.expireStops_idle (t := t) (fun o ho => hno o (Flat.mem_orders_stop ho))
    (s.stops_.length + 1) 0 (Nat.zero_le _) (by omega)
  unfold Cpp.expireOrders
  rw [run_bind (show read (·.bids_) s = some (s.bids_, s) from rfl),
    run_bind (show read (·.asks_) s = some (s.asks_, s) from rfl), run_bind hb, run_bind ha,
    run_bind (show Cpp.expireResting [] s = some ((), s) from rfl),
    run_bind (show read (·.stops_) s = some (s.stops_, s) from rfl)]
  exact hstops

/-- Whether an order is one that `expireOrders` is for: a day order, or one whose time has come. -/
def lapsed (t : ℕ) (o : Order) : Bool :=
  o.timeInForce = .DAY || (o.timeInForce = .GTD && o.expireTime ≤ t)

/-- An order with an expiry has one that is not zero, so the test of the code is `lapsed`. -/
theorem Reach.shouldExpire (hs : Reach S pop tickSz s) :
    ∀ o ∈ s.flat.orders, Cpp.shouldExpire t o = lapsed t o := by
  have hexp := hs.terms (P := fun o => o.timeInForce = .GTD → 0 < o.expireTime)
    (fun now o hv htif => Nat.zero_lt_of_lt (hv.expires htif)) fun o o' hk hP htif => by
      rw [hk.expireTime]
      exact hP (hk.timeInForce.symm.trans htif)
  intro o ho
  unfold Cpp.shouldExpire lapsed
  by_cases htif : o.timeInForce = .GTD
  · simp [htif, hexp o ho htif]
  · simp [htif]

/-- The orders that `p` is true of are taken out and no others, the ones that stay keep their values
and their order in the queues, and a level goes when all its orders do. -/
structure Removes (p : Order → Bool) (s s' : Engine) : Prop where
  view : ∀ b, s'.view b = (s.view b).keep fun o => ! p o
  level : ∀ b, ∀ l ∈ s.view b, (∀ l' ∈ s'.view b, l'.1 ≠ l.1) ↔ ∀ o ∈ l.2, p o = true
  stops : (s'.values s'.stops_).Perm ((s.values s.stops_).filter fun o => ! p o)

/-- What is removed from the values is removed from the engine. -/
theorem Reach.removes {p : Order → Bool} (hs : Reach S pop tickSz s)
    (hside : ∀ b, s'.flat.side b = (s.flat.side b).keep fun o => ! p o)
    (hstops : s'.flat.stops.Perm (s.flat.stops.filter fun o => ! p o)) : Removes p s s' := by
  have hview : ∀ b, s'.view b = (s.view b).keep fun o => ! p o := fun b => by
    rw [← Engine.side_flat, ← Engine.side_flat]
    exact hside b
  refine ⟨hview, fun b l hl => ?_, hstops⟩
  have hshelf : Shelf b (s.view b) := by
    rw [← Engine.side_flat]
    exact hs.inv.sides b
  -- A level is gone exactly if none of its orders is kept.
  have hkeep := Levels.exists_keep (p := fun o => ! p o) hshelf hl
  rw [← hview] at hkeep
  constructor
  · intro hgone o ho
    by_contra hp
    obtain ⟨l', hl', hpx⟩ := hkeep.mpr ⟨o, ho, by simpa using hp⟩
    exact hgone l' hl' hpx
  · intro hall l' hl' hpx
    obtain ⟨o, ho, hp⟩ := hkeep.mp ⟨l', hl', hpx⟩
    rw [hall o ho] at hp
    cases hp

/-- `expireOrders` takes out exactly the orders that have lapsed, each reported as expired once, and
a second call does nothing. `cancelOrder` of an order of the engine takes out that order. -/
theorem removals (hs : Reach S pop tickSz s) :
    (∀ t, ∃ (s' : Engine) (os : List Order), expireOrders t s = some ((), s') ∧
      Removes (lapsed t) s s' ∧
      os.Perm (((s.view .BUY).orders ++ ((s.view .SELL).orders ++ s.values s.stops_)).filter
        (lapsed t)) ∧
      s'.log = s.log ++ os.flatMap Flat.expiry ∧ expireOrders t s' = some ((), s')) ∧
    ∀ id, s.hasOrder id = true → ∃ s', cancelOrder id s = some (true, s') ∧
      Removes (fun o => o.id = id) s s' := by
  obtain ⟨hsh, hi⟩ := hs.shown
  refine ⟨fun t => ?_, fun id hid => ?_⟩
  · obtain ⟨f', hg⟩ := run_ends S hi (.expire t)
    obtain ⟨a, s', he, hsh'⟩ := hsh.shows.expireOrders hi hg
    have hs' : Reach S pop tickSz s' := hs.call (.expire t) he
    obtain rfl := hsh'.shown.eq
    obtain ⟨hside, hstops, os, hperm, hlog⟩ := Flat.expireOrders_keep hi hg
    refine ⟨s', os, he, hs.removes (fun b => ?_) ?_, ?_, hlog, ?_⟩
    · rw [hside b]
      exact Levels.keep_congr fun o ho => by rw [hs.shouldExpire o (Flat.mem_orders ho)]
    · refine hstops.trans (.of_eq (List.filter_congr fun o ho => ?_))
      rw [hs.shouldExpire o (Flat.mem_orders_stop ho)]
    · refine hperm.trans (.of_eq ?_)
      rw [List.filter_congr fun o ho => hs.shouldExpire o ho]
      unfold Flat.orders
      rw [Engine.side_flat, Engine.side_flat]
      rfl
    -- What is left has not lapsed, so the second call finds nothing.
    · refine hsh'.expireOrders_idle fun o ho => ?_
      rcases List.mem_append.mp ho with ho | ho
      · rw [hside, Levels.orders_keep] at ho
        simpa using (List.mem_filter.mp ho).2
      · rcases List.mem_append.mp ho with ho | ho
        · rw [hside, Levels.orders_keep] at ho
          simpa using (List.mem_filter.mp ho).2
        · simpa using (List.mem_filter.mp (hstops.mem_iff.mp ho)).2
  · obtain ⟨r, s', he, rfl, hsh'⟩ := hsh.shows.cancelOrder hi id
    have hfound := (Flat.cancelOrder_isSome hi.tidy id).mpr ((hs.hasOrder id).mp hid)
    rw [hfound] at he
    have hflat : Flat.cancelOrder id s.flat = (true, s'.flat) := Prod.ext hfound hsh'.shown.eq
    obtain ⟨hside, hstops⟩ := Flat.cancelOrder_keep hi hflat
    -- The order with the id is the one that goes.
    have hnot : (fun o : Order => decide (o.id ≠ id)) = fun o => ! decide (o.id = id) :=
      funext fun o => decide_not
    rw [hnot] at hstops
    refine ⟨s', he, hs.removes (fun b => ?_) hstops⟩
    rw [hside b, hnot]

/-- A queue of a day order between two others, and two stops of which the last is for the day. -/
def dayOrders : List Call :=
  [.submit { id := 1, price := 100, quantity := 5 },
    .submit { id := 2, price := 100, quantity := 5, timeInForce := .DAY },
    .submit { id := 3, price := 100, quantity := 5, timeInForce := .GTD, expireTime := 50 },
    .submit { id := 4, orderType := .STOP_MARKET, stopPrice := 110, quantity := 5 },
    .submit { id := 5, orderType := .STOP_MARKET, stopPrice := 120, quantity := 5,
              timeInForce := .DAY }]

/-- The state after these orders, where each of the removals has something to remove. -/
theorem removals_dayOrders : ∃ s, runAll .insertion dayOrders (.init .REJECT 1) = some ((), s) ∧
    (∀ t, ∃ (s' : Engine) (os : List Order), expireOrders t s = some ((), s') ∧
      Removes (lapsed t) s s' ∧
      os.Perm (((s.view .BUY).orders ++ ((s.view .SELL).orders ++ s.values s.stops_)).filter
        (lapsed t)) ∧
      s'.log = s.log ++ os.flatMap Flat.expiry ∧ expireOrders t s' = some ((), s')) ∧
    ∀ id, s.hasOrder id = true → ∃ s', cancelOrder id s = some (true, s') ∧
      Removes (fun o => o.id = id) s s' := by
  have hsome : ((runAll .insertion dayOrders (.init .REJECT 1)).map fun r => r.2.orderCount) =
      some 5 := by
    decide +kernel
  obtain ⟨⟨_, s⟩, hrun, -⟩ := Option.map_eq_some_iff.mp hsome
  exact ⟨s, hrun, removals (Reach.init.runAll hrun)⟩

end Removal

end MatchingEngine.Cpp
