import MatchingEngine.Cpp.Runs

/-!
# The books and the index of the C++ engine

Between two calls the links of the queues and the entries of the index agree: every order that is
allocated rests in one queue or is a dormant stop, and the index has its address. The best bid is
below the best ask, as long as a tick can be added to and taken from the best prices.
-/

namespace MatchingEngine.Cpp

open Lib

/-! ## The spread -/

namespace Flat

variable {X : Special → Prop} {f f' : Flat} {fl fl' : List Order} {b : Side} {m : Levels} {o : Order}

/-- Every bid is below every ask. -/
def Uncrossed (f : Flat) : Prop := ∀ l ∈ f.bids, ∀ l' ∈ f.asks, l.1 < l'.1

/-- The same of the two sides as one sees them from the side `b`. -/
theorem uncrossed_side (f : Flat) (b : Side) : f.Uncrossed ↔
    ∀ l ∈ f.side b, ∀ l' ∈ f.side (oppositeSide b), better (oppositeSide b) l.1 l'.1 = true := by
  cases b with
  | BUY =>
    unfold Uncrossed
    simp only [oppositeSide, better, decide_eq_true_eq]
    exact Iff.rfl
  | SELL =>
    unfold Uncrossed
    simp only [oppositeSide, better, decide_eq_true_eq]
    exact ⟨fun h l hl l' hl' => h l' hl' l hl, fun h l hl l' hl' => h l' hl' l hl⟩

/-- A side is written, and each of its new prices is below or above the other side. -/
theorem Uncrossed.setSide (h : f.Uncrossed) (hm : ∀ l ∈ m, (∃ l₀ ∈ f.side b, l₀.1 = l.1) ∨
    ∀ l' ∈ f.side (oppositeSide b), better (oppositeSide b) l.1 l'.1 = true) :
    (f.setSide b m).Uncrossed := by
  rw [uncrossed_side _ b, side_setSide, side_setSide_opposite']
  intro l hl l' hl'
  rcases hm l hl with ⟨l₀, hl₀, he⟩ | hm
  · rw [← he]
    exact (uncrossed_side f b).mp h l₀ hl₀ l' hl'
  · exact hm l' hl'

/-- The tape is on no side. -/
theorem Uncrossed.withTape {t : Tape} (h : f.Uncrossed) : (f.withTape t).Uncrossed := h

/-- A queue in front of the levels that were behind it. -/
theorem Uncrossed.front {p : ℤ} {q q' : List Order} (h : f.Uncrossed) (hside : f.side b = (p, q) :: m) :
    (f.setSide b (front p q' m)).Uncrossed := by
  refine h.setSide fun l hl => .inl ?_
  rw [hside]
  rcases Levels.mem_front hl with ⟨rfl, -⟩ | hl
  · exact ⟨_, List.mem_cons_self, rfl⟩
  · exact ⟨l, List.mem_cons_of_mem _ hl, rfl⟩

/-- An order comes to rest at a price that the other side does not reach. -/
theorem Uncrossed.rest {st : OrderStatus} (h : f.Uncrossed)
    (ho : ∀ l' ∈ f.side (oppositeSide o.side), better (oppositeSide o.side) o.price l'.1 = true) :
    (f.rest o st).Uncrossed := by
  refine Uncrossed.withTape (h.setSide fun l hl => ?_)
  rcases Levels.mem_enqueue hl with hl | rfl | ⟨q, hq, rfl⟩
  · exact .inl ⟨l, hl, rfl⟩
  · exact .inr ho
  · exact .inl ⟨_, hq, rfl⟩

/-- The best level of a sorted side is the one to compare with. -/
theorem better_of_head {p : ℤ} (hs : Shelf (oppositeSide b) m)
    (h : ∀ l ∈ m.head?, better (oppositeSide b) p l.1 = true) :
    ∀ l ∈ m, better (oppositeSide b) p l.1 = true := by
  cases m with
  | nil => exact fun l hl => absurd hl List.not_mem_nil
  | cons l m =>
    have hl := h l rfl
    refine List.forall_mem_cons.mpr ⟨hl, fun l' hl' => ?_⟩
    exact better_trans hl ((List.pairwise_cons.mp hs.sorted).1 l' hl')

/-- A price that an order does not match is better than its own, on the other side. -/
theorem better_of_canMatch {p : ℤ} (h : canMatch o p = false) :
    better (oppositeSide o.side) o.price p = true := by
  unfold canMatch at h
  cases hs : o.side <;> rw [hs] at h <;> revert h <;> simp [better, oppositeSide]

/-- An order that would not cross leaves the best price of the other side better than its own. -/
theorem better_of_wouldCross (h : wouldCross o f = false) :
    ∀ l ∈ (f.side (oppositeSide o.side)).head?, better (oppositeSide o.side) o.price l.1 = true := by
  intro l hl
  unfold wouldCross at h
  cases hs : o.side with
  | BUY =>
    rw [hs] at h hl
    have hl : l ∈ f.asks.head? := hl
    cases ha : f.asks with
    | nil => rw [ha] at hl; cases hl
    | cons l' m =>
      rw [ha] at h hl
      cases hl
      simpa [better, oppositeSide] using h
  | SELL =>
    rw [hs] at h hl
    have hl : l ∈ f.bids.head? := hl
    cases ha : f.bids with
    | nil => rw [ha] at hl; cases hl
    | cons l' m =>
      rw [ha] at h hl
      cases hl
      simpa [better, oppositeSide] using h

/-! ## Settings -/

/-- A decrement keeps the settings. -/
theorem settings_afterDecrement (r : Order) (t : Tape) :
    (afterDecrement r t).2.tickSz = t.tickSz ∧ (afterDecrement r t).2.poPol = t.poPol := by
  unfold afterDecrement
  split
  · exact ⟨rfl, rfl⟩
  · split <;> exact ⟨rfl, rfl⟩

/-- What follows a fill keeps the settings. -/
theorem settings_afterFill (r : Order) (t : Tape) :
    (afterFill r t).2.tickSz = t.tickSz ∧ (afterFill r t).2.poPol = t.poPol := by
  unfold afterFill
  split
  · exact ⟨rfl, rfl⟩
  · split <;> exact ⟨rfl, rfl⟩

/-- Self-trade prevention keeps the settings. -/
theorem settings_handleStp (inc r : Order) (t : Tape) :
    (handleStp inc r t).2.2.tickSz = t.tickSz ∧ (handleStp inc r t).2.2.poPol = t.poPol := by
  unfold handleStp
  split
  · exact ⟨rfl, rfl⟩
  · exact ⟨rfl, rfl⟩
  · exact ⟨rfl, rfl⟩
  · exact settings_afterDecrement _ _
  · exact ⟨rfl, rfl⟩

/-- No act changes the tick size or the post-only policy. -/
theorem Step.settings (h : Step X (f, fl) (f', fl')) :
    f'.tape.tickSz = f.tape.tickSz ∧ f'.tape.poPol = f.tape.poPol := by
  cases h with
  -- Of the acts that match only the tape of the turn counts, and it keeps both.
  | trade hside hrem hm hc hpo hst hstop hfill =>
    obtain ⟨-, he⟩ := fill_eq hfill
    obtain ⟨-, hft⟩ := Prod.mk.inj he
    obtain rfl := congrArg Prod.snd hft
    exact settings_afterFill _ _
  | selfTrade hside hrem hm hc hst hstop hpo => exact settings_handleStp _ _ _
  | drop hside =>
    rw [tape_setSide]
    exact ⟨rfl, rfl⟩
  | reprice hpo hold hside hX hrep =>
    obtain ⟨-, rfl⟩ := Prod.mk.inj (reprice_eq hside hrep)
    exact ⟨rfl, rfl⟩
  | unlink =>
    unfold Flat.unlink
    rw [tape_setSide]
    exact ⟨rfl, rfl⟩
  | shrink =>
    rw [tape_setSide]
    exact ⟨rfl, rfl⟩
  | _ => exact ⟨rfl, rfl⟩

/-! ## The spread of a run -/

/-- A repricing is against a best price that a tick can be added to and taken from. -/
def HasRoom (tickSz : ℤ) : Special → Prop
  | .reprice _ best => -2 ^ 63 ≤ best - tickSz ∧ best + tickSz < 2 ^ 63
  | _ => True

/-- A signed word is not wrapped. -/
theorem wrap64_eq {n : ℤ} (h : -2 ^ 63 ≤ n) (h' : n < 2 ^ 63) : wrap64 n = n := by
  unfold wrap64
  exact Int.bmod_eq_of_le (by omega) (by omega)

/-- A price that was set a tick away does not cross, if there is room for the tick. -/
theorem better_of_reprice {o' : Order} {l : ℤ × List Order} {tickSz : ℤ}
    (h : reprice o f = some (o', f'))
    (hside : f.side (oppositeSide o.side) = l :: m) (htick : f.tape.tickSz = tickSz) (hpos : 1 ≤ tickSz)
    (hroom : HasRoom tickSz (.reprice o l.1)) :
    better (oppositeSide o.side) o'.price l.1 = true ∧ o'.side = o.side ∧
      ∃ t, f' = f.withTape t := by
  obtain ⟨rfl, rfl⟩ := Prod.mk.inj (reprice_eq hside h)
  obtain ⟨hlo, hhi⟩ := hroom
  refine ⟨?_, rfl, _, rfl⟩
  rw [htick]
  cases hs : o.side with
  | BUY =>
    rw [if_pos rfl, wrap64_eq hlo (by omega)]
    refine decide_eq_true ?_
    dsimp only
    omega
  | SELL =>
    rw [if_neg (by decide), wrap64_eq (by omega) hhi]
    refine decide_eq_true ?_
    dsimp only
    omega

/-- An act keeps the spread. -/
theorem Uncrossed.step {tickSz : ℤ} (hi : Inv f fl) (h : f.Uncrossed) (htick : f.tape.tickSz = tickSz)
    (hpos : 1 ≤ tickSz) (hact : Step (HasRoom tickSz) (f, fl) (f', fl')) : f'.Uncrossed := by
  cases hact with
  -- A turn leaves the prices of the other levels, and that of the first one if it stays.
  | trade hside hrem hm hc hpo hst hstop hfill => exact (h.front hside).withTape
  | selfTrade hside hrem hm hc hst hstop hpo => exact (h.front hside).withTape
  | drop hside =>
    refine h.setSide fun l hl => .inl ⟨l, ?_, rfl⟩
    rw [hside]
    exact List.mem_cons_of_mem _ hl
  -- What rests has nothing left to cross: all that it could match has been matched.
  | rest hst hold hrem htype htif hmin hcross =>
    have hrem' := hi.head.remaining
    refine h.rest (better_of_head (hi.sides _) fun l hl => better_of_canMatch ?_)
    exact hcross (by omega) l hl
  -- The price of the other side is worse, which is what the test of phase 2 says.
  | passive hpo hold hcross =>
    exact h.rest (better_of_head (hi.sides _) (better_of_wouldCross hcross))
  -- A tick off the best price of the other side, and `hX` says that it does not wrap.
  | reprice hpo hold hside hX hrep =>
    obtain ⟨hb, hs, t, rfl⟩ := better_of_reprice hrep hside htick hpos hX
    refine Uncrossed.rest h.withTape ?_
    rw [side_withTape, hs]
    refine better_of_head (hi.sides _) fun l hl => ?_
    rw [hside] at hl
    cases hl
    exact hb
  -- No price is new.
  | unlink ho hX =>
    refine h.setSide fun l hl => .inl ?_
    rcases mem_pull_level hl with hl | ⟨-, q, hq, -⟩
    · exact ⟨l, hl, rfl⟩
    · exact ⟨_, hq, rfl⟩
  | shrink hX ho hpos hlt =>
    refine h.setSide fun l hl => .inl ?_
    obtain ⟨l₀, hl₀, rfl⟩ := List.mem_map.mp hl
    exact ⟨l₀, hl₀, rfl⟩
  | _ => exact h

/-- A cancellation is confirmed just when there is an order of the id. -/
theorem cancelOrder_isSome (ht : Tidy f) (id : UInt64) :
    (cancelOrder id f).1 = true ↔ ∃ o ∈ f.orders, o.id = id := by
  unfold cancelOrder
  cases hl : f.locate id with
  | none =>
    constructor
    · exact fun h => absurd h Bool.false_ne_true
    · rintro ⟨o, ho, hid⟩
      exact absurd hid (locate_none hl o ho)
  | some w =>
    have hmem := mem_of_locate hl
    cases w with
    | resting b o =>
      have ho := mem_orders hmem.1
      dsimp only
      rw [if_pos (ht.status o ho)]
      exact ⟨fun _ => ⟨o, ho, hmem.2⟩, fun _ => rfl⟩
    | dormant o =>
      have ho := mem_orders_stop hmem.1
      dsimp only
      rw [if_pos (ht.status o ho)]
      exact ⟨fun _ => ⟨o, ho, hmem.2⟩, fun _ => rfl⟩

end Flat

/-! ## The heap -/

/-- The addresses of the resting orders, level by level, and of the dormant stops. -/
def Engine.places (s : Engine) : List ℕ :=
  (s.bids_ ++ s.asks_).flatMap (fun e => s.queue e.2) ++ s.stops_

/-- The books, the queues, the index, and the counters agree. -/
structure Consistent (s : Engine) : Prop where
  level : ∀ b, ∀ e ∈ s.book b, ∃ l, s.levels e.2 = some l ∧ l.price = e.1 ∧ s.queue e.2 ≠ [] ∧
    Spells s.orders l (s.queue e.2)
  owner : ∀ b, ∀ e ∈ s.book b, ∀ p ∈ s.queue e.2, ownerAt s.orders p = some e.2
  unowned : ∀ p ∈ s.stops_, ownerAt s.orders p = none
  sorted : ∀ b, (s.book b).Pairwise fun e e' => better b e.1 e'.1 = true
  spread : s.bids_ ≠ [] → s.asks_ ≠ [] → s.bestBid < s.bestAsk
  resting : ∀ b, ∀ e ∈ s.book b, ∀ p ∈ s.queue e.2,
    ∃ o, valueAt s.orders p = some o ∧ Resting b e.1 o
  dormant : ∀ p ∈ s.stops_, ∃ o, valueAt s.orders p = some o ∧ Dormant o
  nodup : s.places.Nodup
  live : ∀ p, (∃ o, valueAt s.orders p = some o) ↔ p ∈ s.places
  index : ∀ id p, s.idx_.get id = some p ↔
    p ∈ s.places ∧ ∃ o, valueAt s.orders p = some o ∧ o.id = id
  orderCount : s.orderCount = s.places.length
  activeOrders : s.activeOrders = s.orderCount
  activeLevels : s.activeLevels = s.bidLevelCount + s.askLevelCount

section Heap

variable {S : StdSort} {pop : PostOnlyPolicy} {tickSz : ℤ} {s : Engine} {G : Layout}

/-- The addresses of the cells are all the places of the engine. -/
theorem Holds.places (h : Holds s G) (hfl : G.flight = []) : s.places = G.cells.map (·.1) := by
  have hqueues : ∀ b, (s.book b).flatMap (fun e => s.queue e.2) = (spread (G.side b)).map (·.1) := by
    intro b
    rw [h.book b, List.flatMap_map]
    unfold spread
    rw [List.map_flatMap]
    exact List.flatMap_congr fun r hr => h.queue hr
  unfold Engine.places Layout.cells
  rw [hfl, List.append_nil, List.map_append, ← h.stops, List.flatMap_append]
  refine congrArg (· ++ s.stops_) ?_
  unfold spread
  rw [List.flatMap_append, List.map_append]
  exact congrArg₂ (· ++ ·) (hqueues .BUY) (hqueues .SELL)

/-- A layout without orders in flight whose values have the invariant. -/
theorem Holds.consistent (h : Holds s G) (hfl : G.flight = []) (hi : Inv (G.flat s.tape) [])
    (hu : (G.flat s.tape).Uncrossed) : Consistent s := by
  have hplaces := h.places hfl
  have hstored := h.standing.stored
  -- What the heap has in a book is a row of the layout, so each clause is read off the layout.
  have hrow : ∀ b, ∀ e ∈ s.book b, ∃ r ∈ G.side b, e = (r.price, r.addr) := by
    intro b e he
    rw [h.book b] at he
    obtain ⟨r, hr, rfl⟩ := List.mem_map.mp he
    exact ⟨r, hr, rfl⟩
  have hshelf : ∀ b, Shelf b (levelsOf (G.side b)) := fun b => by
    have hs := hi.sides b
    rwa [Layout.side_flat] at hs
  have hmem : ∀ {b r}, r ∈ G.side b → (r.price, r.queue.map (·.2)) ∈ levelsOf (G.side b) :=
    fun hr => List.mem_map.mpr ⟨_, hr, rfl⟩
  -- ?_, => The clauses in their order, the counters last.
  refine ⟨fun b e he => ?_, fun b e he p hp => ?_, fun p hp => ?_, fun b => ?_, fun hb ha => ?_,
    fun b e he p hp => ?_, fun p hp => ?_, ?_, fun p => ?_, fun id p => ?_, ?_, ?_, ?_⟩
  · obtain ⟨r, hr, rfl⟩ := hrow b e he
    obtain ⟨l, hl, hpr, hq⟩ := (h.standing.row r (Layout.mem_row hr)).level
    refine ⟨l, hl, hpr, ?_, by rw [h.queue hr]; exact hq⟩
    rw [h.queue hr]
    intro hnil
    refine (hshelf b).full _ (hmem hr) ?_
    rw [List.map_eq_nil_iff.mp hnil]
    rfl
  · obtain ⟨r, hr, rfl⟩ := hrow b e he
    rw [h.queue hr] at hp
    obtain ⟨x, hx, rfl⟩ := List.mem_map.mp hp
    exact (h.standing.row r (Layout.mem_row hr)).owner x hx
  · rw [h.stops] at hp
    obtain ⟨x, hx, rfl⟩ := List.mem_map.mp hp
    exact h.standing.loose x (List.mem_append_left _ hx)
  · rw [h.book b, List.pairwise_map]
    exact List.pairwise_map.mp (hshelf b).sorted
  -- The spread: the best levels are the first rows of the two sides.
  · have hbb := h.book .BUY
    have hba := h.book .SELL
    cases hgb : G.bids with
    | nil =>
      rw [show G.side .BUY = [] from hgb] at hbb
      exact absurd hbb hb
    | cons r rows =>
      cases hga : G.asks with
      | nil =>
        rw [show G.side .SELL = [] from hga] at hba
        exact absurd hba ha
      | cons r' rows' =>
        rw [show G.side .BUY = r :: rows from hgb] at hbb
        rw [show G.side .SELL = r' :: rows' from hga] at hba
        unfold Engine.bestBid Engine.bestAsk
        rw [show s.bids_ = _ from hbb, show s.asks_ = _ from hba]
        refine hu (r.price, r.queue.map (·.2)) ?_ (r'.price, r'.queue.map (·.2)) ?_
        · exact hmem (b := .BUY) (by rw [show G.side .BUY = _ from hgb]; exact List.mem_cons_self)
        · exact hmem (b := .SELL) (by rw [show G.side .SELL = _ from hga]; exact List.mem_cons_self)
  · obtain ⟨r, hr, rfl⟩ := hrow b e he
    rw [h.queue hr] at hp
    obtain ⟨x, hx, rfl⟩ := List.mem_map.mp hp
    refine ⟨x.2, (hstored.value x.1 x.2).mpr (Layout.mem_side hr hx), ?_⟩
    exact (hshelf b).rest _ (hmem hr) x.2 (List.mem_map_of_mem hx)
  · rw [h.stops] at hp
    obtain ⟨x, hx, rfl⟩ := List.mem_map.mp hp
    refine ⟨x.2, (hstored.value x.1 x.2).mpr (Layout.mem_stops hx), ?_⟩
    exact hi.stops x.2 (List.mem_map_of_mem hx)
  · rw [hplaces]
    exact hstored.nodup
  · rw [hplaces]
    constructor
    · rintro ⟨o, ho⟩
      exact List.mem_map_of_mem ((hstored.value p o).mp ho)
    · intro hp
      obtain ⟨x, hx, rfl⟩ := List.mem_map.mp hp
      exact ⟨x.2, (hstored.value x.1 x.2).mpr hx⟩
  -- The index knows the places of the layout and no others.
  · rw [hplaces, hstored.index id p]
    constructor
    · rintro ⟨o, ho, hid⟩
      exact ⟨List.mem_map_of_mem ho, o, (hstored.value p o).mpr ho, hid⟩
    · rintro ⟨-, o, ho, hid⟩
      exact ⟨o, (hstored.value p o).mp ho, hid⟩
  · rw [hplaces, List.length_map]
    exact hstored.size
  -- The counters say how many orders and levels there are.
  · have hcount := hstored.count
    have hsize := hstored.size
    unfold Engine.activeOrders Engine.orderCount
    omega
  · have hcount := h.standing.count
    have hb : s.bids_.length = G.bids.length := by
      rw [show s.bids_ = _ from h.book .BUY, List.length_map]
      rfl
    have ha : s.asks_.length = G.asks.length := by
      rw [show s.asks_ = _ from h.book .SELL, List.length_map]
      rfl
    rw [List.length_append] at hcount
    unfold Engine.activeLevels Engine.bidLevelCount Engine.askLevelCount
    omega

/-- A tick can be added to the best prices of a state, and taken from them. -/
def Roomy (tickSz : ℤ) (s : Engine) (_ : Call) : Prop :=
  ∀ b, ∀ e ∈ (s.book b).head?, -2 ^ 63 ≤ e.1 - tickSz ∧ e.1 + tickSz < 2 ^ 63

/-- A call with room for a tick is covered. -/
theorem Roomy.covers {c : Call} (h : Roomy tickSz s c) (hi : Inv s.flat []) :
    Flat.Covers (Flat.HasRoom tickSz) s.flat c := by
  -- The bound is on the best prices, which are all that a reprice reads.
  have hbest : ∀ b, ∀ l ∈ (s.flat.side b).head?, ∀ o, Flat.HasRoom tickSz (.reprice o l.1) := by
    intro b l hl o
    rw [Engine.side_flat] at hl
    obtain ⟨e, he, rfl⟩ := Option.map_eq_some_iff.mp (List.head?_map ▸ hl)
    exact h b e he
  cases c with
  | submit i =>
    refine ⟨trivial, trivial, fun _ hstop =>
      ⟨nofun, hstop, fun _ _ _ l hl => ?_, fun _ _ _ _ _ _ _ => trivial,
      .inl trivial, .inr (.inl trivial)⟩⟩
    exact hbest _ l hl _
  | cancel id => trivial
  -- The order has left its own queue, and the other side is as before.
  | amend id newPx newQty =>
    refine ⟨trivial, trivial, trivial, fun b o hl => ?_⟩
    obtain ⟨l, hlm, hol⟩ := Levels.mem_orders.mp (Flat.mem_of_locate hl).1
    have hr := (hi.sides b).rest l hlm o hol
    have hany := hr.ready newPx newQty (s.flat.tape.now + 1) s.flat
    refine ⟨hany.status, hany.notStop, fun _ _ _ l' hl' => ?_, fun _ _ _ _ _ _ _ => trivial,
      .inl trivial, .inr (.inl trivial)⟩
    refine hbest (oppositeSide b) l' ?_ _
    change l' ∈ ((s.flat.unlink b o).side (oppositeSide o.side)).head? at hl'
    unfold Flat.unlink at hl'
    rwa [hr.side, Flat.side_setSide_opposite'] at hl'
  | expire t => trivial
  | setTime t => trivial
  | assignId => trivial

/-- Bids stay below asks, call by call. -/
theorem ReachWhere.uncrossed (hpos : 1 ≤ tickSz) (hs : ReachWhere (Roomy tickSz) S pop tickSz s) :
    s.flat.Uncrossed := by
  have hboth := hs.rule (X := Flat.HasRoom tickSz)
    (J := fun x => x.1.Uncrossed ∧ x.1.tape.tickSz = tickSz)
    ⟨fun l hl => absurd hl List.not_mem_nil, rfl⟩
    (fun x y hi hj hact => ⟨hj.1.step hi hj.2 hpos hact, (Flat.Step.settings hact).1.trans hj.2⟩)
    fun s c hr hroom => hroom.covers hr.inv
  exact hboth.1

/-- In every state that a run reaches the books, the queues, the index, and the counters agree, and
so `cancelOrder` finds an order just when the engine has it. The best prices stay apart because a
tick can always be added to them and taken from them. -/
theorem books_consistent (hpos : 1 ≤ tickSz) (hs : ReachWhere (Roomy tickSz) S pop tickSz s) :
    Consistent s ∧ ∀ id, ∃ s', cancelOrder id s = some (s.hasOrder id, s') := by
  obtain ⟨hsh, hi⟩ := hs.reach.shown
  refine ⟨?_, fun id => ?_⟩
  · have hu := hs.uncrossed hpos
    obtain ⟨G, hG, hflat, hfl⟩ := hsh
    rw [← hflat] at hi hu
    exact hG.consistent (List.map_eq_nil_iff.mp hfl) hi hu
  · obtain ⟨a, s', he, ha, -⟩ := hsh.shows.cancelOrder hi id
    refine ⟨s', ?_⟩
    rw [he, ha]
    refine congrArg (fun r => some (r, s')) (Bool.eq_iff_iff.mpr ?_)
    rw [Flat.cancelOrder_isSome hi.tidy, hs.reach.hasOrder]

/-- A bid, and an ask that would cross it and is repriced. -/
def tickApart : List Call :=
  [.submit { id := 1, price := 100, quantity := 5 },
    .submit { id := 2, side := .SELL, price := 99, quantity := 5, postOnly := true }]

/-- The state after the repriced order, which rests a tick above the bid. -/
theorem books_consistent_tickApart :
    ∃ s, runAll .insertion tickApart (.init .REPRICE 1) = some ((), s) ∧
    s.asks_.map (·.1) = [101] ∧
    Consistent s ∧ ∀ id, ∃ s', cancelOrder id s = some (s.hasOrder id, s') := by
  have hsome : ((runAll .insertion tickApart (.init .REPRICE 1)).map fun r => r.2.asks_.map (·.1)) =
      some [101] := by
    decide +kernel
  obtain ⟨⟨_, s₂⟩, hrun, hask⟩ := Option.map_eq_some_iff.mp hsome
  refine ⟨s₂, hrun, hask, ?_⟩
  obtain ⟨_, s₁, h₁, hrun⟩ := run_bind_iff.mp hrun
  obtain ⟨_, s, h₂, hrun⟩ := run_bind_iff.mp hrun
  cases hrun
  have hroom₀ : Roomy 1 (.init .REPRICE 1) (.submit { id := 1, price := 100, quantity := 5 }) :=
    fun b e he => by cases b <;> cases he
  -- The one price of the state between the calls.
  have hbest : ((Call.run .insertion (.submit { id := 1, price := 100, quantity := 5 })
      (.init .REPRICE 1)).map fun r => (r.2.bids_.map (·.1), r.2.asks_.map (·.1))) =
        some ([100], []) := by
    decide +kernel
  rw [h₁] at hbest
  obtain ⟨hb, ha⟩ := Prod.mk.inj (Option.some.inj hbest)
  refine books_consistent (le_refl 1) ((ReachWhere.init.call _ hroom₀ h₁).call _ (fun b e he => ?_) h₂)
  have hprice : ∀ {m : List (ℤ × ℕ)}, e ∈ m.head? → e.1 ∈ m.map (·.1) := fun he =>
    List.mem_map_of_mem (List.mem_of_mem_head? he)
  cases b with
  | BUY =>
    have hp := hprice he
    rw [show (s₁.book .BUY).map (·.1) = _ from hb, List.mem_singleton] at hp
    rw [hp]
    decide
  | SELL =>
    have hp := hprice he
    rw [show (s₁.book .SELL).map (·.1) = _ from ha] at hp
    cases hp

end Heap

end MatchingEngine.Cpp
