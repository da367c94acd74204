import MatchingEngine.Cpp.Flat
import MatchingEngine.Cpp.Layout

/-!
# The C++ engine and its values

A `Layout` is an engine of `Cpp/Flat.lean` with the addresses of its levels and orders, and the
orders in flight with theirs. `Holds` says that a state of the engine has this layout. What follows
is a rule for each statement of `Cpp/State.lean`: it returns, and the layout is the one that the
statement makes.

The rules are in the order of the statements: reading an order or a level, writing an order where it
is (in a queue or in flight), taking it out of a queue and putting it in, the notices, the clock,
and the maps of levels. A rule is used with the part of the layout that it is about in front
(`Holds.focus`, `Holds.unfocus`), as the rest is not touched.
-/

namespace MatchingEngine.Cpp

open Lib

/-- What a run writes besides the books and the stops. -/
def Engine.tape (s : Engine) : Tape where
  trades := s.trades_
  tid := s.tid_
  now := s.now_
  lastPx := s.lastPx_
  lastDepth := s.lastDepth
  poPol := s.poPol_
  tickSz := s.tick_
  log := s.log

/-- The levels of some rows. -/
def levelsOf (rows : List Row) : Levels := rows.map fun r => (r.price, r.queue.map (·.2))

/-- The values of the best row and of those behind it. -/
@[simp] theorem levelsOf_cons (r : Row) (rows : List Row) :
    levelsOf (r :: rows) = (r.price, r.queue.map (·.2)) :: levelsOf rows := rfl

/-- The levels of both sides, the dormant stops, and the orders in flight, with their addresses. -/
structure Layout where
  bids : List Row := []
  asks : List Row := []
  stops : List (ℕ × Order) := []
  flight : List (ℕ × Order) := []

namespace Layout

/-- The rows of a side. -/
def side (G : Layout) : Side → List Row
  | .BUY => G.bids
  | .SELL => G.asks

/-- A layout with the rows of a side and the orders in flight replaced. -/
def put (G : Layout) (b : Side) (rows : List Row) (fl : List (ℕ × Order)) : Layout :=
  match b with
  | .BUY => { G with bids := rows, flight := fl }
  | .SELL => { G with asks := rows, flight := fl }

/-- The orders of a layout. -/
def cells (G : Layout) : List (ℕ × Order) := spread (G.bids ++ G.asks) ++ (G.stops ++ G.flight)

/-- The rows of both sides. -/
def rows (G : Layout) : List Row := G.bids ++ G.asks

/-- The engine on values. -/
def flat (G : Layout) (t : Tape) : Flat where
  bids := levelsOf G.bids
  asks := levelsOf G.asks
  stops := G.stops.map (·.2)
  tape := t

/-- The orders in flight. -/
def flying (G : Layout) : List Order := G.flight.map (·.2)

variable {G : Layout} {b : Side} {rows rows' : List Row} {fl fl' : List (ℕ × Order)}

/-- The side that was replaced. -/
@[simp] theorem side_put : (G.put b rows fl).side b = rows := by
  cases b <;> rfl

/-- The other side is kept. -/
@[simp] theorem side_put_opposite :
    (G.put b rows fl).side (oppositeSide b) = G.side (oppositeSide b) := by
  cases b <;> rfl

/-- The flight that was replaced. -/
@[simp] theorem flight_put : (G.put b rows fl).flight = fl := by
  cases b <;> rfl

/-- The stops are kept. -/
@[simp] theorem stops_put : (G.put b rows fl).stops = G.stops := by
  cases b <;> rfl

/-- A side and the flight are replaced by themselves. -/
theorem put_self (G : Layout) (b : Side) : G.put b (G.side b) G.flight = G := by
  cases b <;> rfl

/-- The values of a layout with a side replaced. -/
@[simp] theorem flat_put (t : Tape) :
    (G.put b rows fl).flat t = (G.flat t).setSide b (levelsOf rows) := by
  cases b <;> rfl

/-- The values of a side. -/
@[simp] theorem side_flat (t : Tape) : (G.flat t).side b = levelsOf (G.side b) := by
  cases b <;> rfl

/-- The rows of both sides, with those of a side first. -/
theorem rows_perm (G : Layout) (b : Side) :
    (G.bids ++ G.asks).Perm (G.side b ++ G.side (oppositeSide b)) := by
  cases b with
  | BUY => exact .refl _
  | SELL => exact List.perm_append_comm

end Layout

/-- A state of the engine with the layout `G`. -/
structure Holds (s : Engine) (G : Layout) : Prop where
  standing : Standing s (G.bids ++ G.asks) (G.stops ++ G.flight)
  book : ∀ b, s.book b = (G.side b).map fun r => (r.price, r.addr)
  stops : s.stops_ = G.stops.map (·.1)

section Rules

variable {s : Engine} {G : Layout} {b : Side} {rows pre post m : List Row}
  {fl q as bs : List (ℕ × Order)}
  {p : ℤ} {lv x y : ℕ} {o r : Order}

/-- The heap does not see what is not of it. -/
theorem Holds.congr {s' : Engine} (h : Holds s G) (hs : SameHeap s s') (hb : ∀ b, s'.book b = s.book b)
    (hst : s'.stops_ = s.stops_) : Holds s' G where
  standing := h.standing.congr hs
  book b := (hb b).trans (h.book b)
  stops := hst.trans h.stops

/-- A row of a side with the rest of the rows. -/
theorem Holds.focus {r : Row} (h : Holds s (G.put b (pre ++ r :: post) fl)) :
    Standing s (r :: (pre ++ (post ++ G.side (oppositeSide b)))) (G.stops ++ fl) := by
  have hp := (G.put b (pre ++ r :: post) fl).rows_perm b
  rw [Layout.side_put, Layout.side_put_opposite, List.append_assoc] at hp
  have hst := h.standing.perm (hp.trans List.perm_middle) (.refl _)
  rwa [Layout.stops_put, Layout.flight_put] at hst

/-- A row of a side is replaced, and the flight. -/
theorem Holds.unfocus {s' : Engine} {r r' : Row} {fl' : List (ℕ × Order)}
    (h : Holds s (G.put b (pre ++ r :: post) fl)) (haddr : r'.addr = r.addr)
    (hprice : r'.price = r.price)
    (hb : ∀ b, s'.book b = s.book b) (hs : s'.stops_ = s.stops_)
    (hst : Standing s' (r' :: (pre ++ (post ++ G.side (oppositeSide b)))) (G.stops ++ fl')) :
    Holds s' (G.put b (pre ++ r' :: post) fl') where
  standing := by
    have hp := (G.put b (pre ++ r' :: post) fl').rows_perm b
    rw [Layout.side_put, Layout.side_put_opposite, List.append_assoc] at hp
    rw [Layout.stops_put, Layout.flight_put]
    exact hst.perm (hp.trans List.perm_middle).symm (.refl _)
  book b' := by
    rw [hb, h.book]
    by_cases he : b' = b
    · subst he
      rw [Layout.side_put, Layout.side_put, List.map_append, List.map_append, List.map_cons,
        List.map_cons, haddr, hprice]
    · have he : b' = oppositeSide b := by
        cases b <;> cases b' <;> first | rfl | exact absurd rfl he
      subst he
      rw [Layout.side_put_opposite, Layout.side_put_opposite]
  stops := by
    rw [hs, h.stops, Layout.stops_put, Layout.stops_put]

/-- `*o` of an order of the engine. -/
theorem Holds.order (h : Holds s G) (hx : (x, o) ∈ G.cells) : Cpp.order x s = some (o, s) := by
  obtain ⟨c, hc, rfl⟩ := h.standing.cell hx
  unfold Cpp.order
  rw [hc]
  rfl

/-- The orders in flight are orders of the engine. -/
theorem Layout.mem_flight {e : ℕ × Order} (h : e ∈ G.flight) : e ∈ G.cells :=
  List.mem_append_right _ (List.mem_append_right _ h)

/-- A dormant stop is one of the cells. -/
theorem Layout.mem_stops {e : ℕ × Order} (h : e ∈ G.stops) : e ∈ G.cells :=
  List.mem_append_right _ (List.mem_append_left _ h)

/-- A queued order is one of the cells. -/
theorem Layout.mem_side {e : ℕ × Order} {r : Row} (hr : r ∈ G.side b) (h : e ∈ r.queue) :
    e ∈ G.cells := by
  refine List.mem_append_left _ (List.mem_flatMap.mpr ⟨r, ?_, h⟩)
  cases b with
  | BUY => exact List.mem_append_left _ hr
  | SELL => exact List.mem_append_right _ hr

/-- A row of a side is one of the rows. -/
theorem Layout.mem_row {r : Row} (hr : r ∈ G.side b) : r ∈ G.bids ++ G.asks := by
  cases b with
  | BUY => exact List.mem_append_left _ hr
  | SELL => exact List.mem_append_right _ hr

/-- `*o` of the order that is worked on. -/
theorem Holds.orderFlying (h : Holds s (G.put b m ((x, o) :: fl))) : Cpp.order x s = some (o, s) :=
  h.order (Layout.mem_flight (by rw [Layout.flight_put]; exact List.mem_cons_self))

/-- `*o` of an order of a queue. -/
theorem Holds.orderQueued (h : Holds s (G.put b (pre ++ ⟨p, lv, as ++ (y, r) :: bs⟩ :: post) fl)) :
    Cpp.order y s = some (r, s) :=
  h.order (Layout.mem_side (b := b) (r := ⟨p, lv, as ++ (y, r) :: bs⟩) (by rw [Layout.side_put]; simp)
    (by simp))

/-- The cell of an order: its values and its level. -/
theorem Holds.cell (h : Holds s G) (hx : (x, o) ∈ G.cells) :
    ∃ c, Cpp.cell x s = some (c, s) ∧ c.order = o ∧ ownerAt s.orders x = c.level ∧
      nextAt s.orders x = c.next := by
  obtain ⟨c, hc, ho⟩ := h.standing.cell hx
  refine ⟨c, ?_, ho, ownerAt_of_cell hc, nextAt_of_cell hc⟩
  unfold Cpp.cell
  rw [hc]
  rfl

/-- `*lv` of a row. -/
theorem Holds.level {r : Row} (h : Holds s G) (hr : r ∈ G.side b) :
    ∃ l, Cpp.level r.addr s = some (l, s) ∧ l.price = r.price ∧ l.head = (r.queue.map (·.1)).head? ∧
      Spells s.orders l (r.queue.map (·.1)) := by
  obtain ⟨l, hl, hp, hq⟩ := (h.standing.row r (Layout.mem_row hr)).level
  refine ⟨l, ?_, hp, hq.fwd.start_eq, hq⟩
  unfold Cpp.level
  rw [hl]
  rfl

/-- `remove`. -/
theorem Holds.remove (h : Holds s (G.put b (pre ++ ⟨p, lv, as ++ (x, o) :: bs⟩ :: post) fl)) :
    Returns (Cpp.remove lv x) s fun _ s' => s'.tape = s.tape ∧
      Holds s' (G.put b (pre ++ ⟨p, lv, as ++ bs⟩ :: post) ((x, o) :: fl)) := by
  obtain ⟨h', m', he, hst⟩ := h.focus.remove
  refine ⟨(), _, he, rfl, h.unfocus rfl rfl (fun b => by cases b <;> rfl) rfl ?_⟩
  exact hst.perm (.refl _) List.perm_middle.symm

/-- `pushBack`. -/
theorem Holds.pushBack (h : Holds s (G.put b (pre ++ ⟨p, lv, q⟩ :: post) ((x, o) :: fl))) :
    Returns (Cpp.pushBack lv x) s fun _ s' => s'.tape = s.tape ∧
      Holds s' (G.put b (pre ++ ⟨p, lv, q ++ [(x, o)]⟩ :: post) fl) := by
  obtain ⟨h', m', he, hst⟩ := (h.focus.perm (.refl _) List.perm_middle).pushBack
  exact ⟨(), _, he, rfl, h.unfocus rfl rfl (fun b => by cases b <;> rfl) rfl hst⟩

/-- `set` of an order of a queue. -/
theorem Holds.setQueued (h : Holds s (G.put b (pre ++ ⟨p, lv, as ++ (x, o) :: bs⟩ :: post) fl))
    (g : Order → Order) (hid : (g o).id = o.id) :
    Returns (Cpp.set x g) s fun _ s' => s'.tape = s.tape ∧
      Holds s' (G.put b (pre ++ ⟨p, lv, as ++ (x, g o) :: bs⟩ :: post) fl) := by
  obtain ⟨h', he, hst⟩ := h.focus.setQueued g hid
  exact ⟨(), _, he, rfl, h.unfocus rfl rfl (fun b => by cases b <;> rfl) rfl hst⟩

/-- The flight is replaced. -/
theorem Holds.fly {s' : Engine} {fl' : List (ℕ × Order)} (h : Holds s (G.put b m fl))
    (hb : ∀ b, s'.book b = s.book b) (hs : s'.stops_ = s.stops_)
    (hst : Standing s' (G.put b m fl').rows (G.stops ++ fl')) : Holds s' (G.put b m fl') where
  standing := by
    rw [Layout.stops_put, Layout.flight_put]
    exact hst
  book b' := by
    rw [hb, h.book]
    cases b <;> cases b' <;> rfl
  stops := by
    rw [hs, h.stops, Layout.stops_put, Layout.stops_put]

/-- The orders in flight may be taken in any order. -/
theorem Holds.permFlight {fl' : List (ℕ × Order)} (h : Holds s (G.put b m fl)) (hp : fl.Perm fl') :
    Holds s (G.put b m fl') := by
  have hst := h.standing
  rw [Layout.stops_put, Layout.flight_put] at hst
  refine h.fly (fun _ => rfl) rfl (hst.perm (.of_eq ?_) (hp.append_left _))
  cases b <;> rfl

/-- `set` of the order that is worked on. -/
theorem Holds.set (h : Holds s (G.put b m ((x, o) :: fl))) (g : Order → Order)
    (hid : (g o).id = o.id) :
    Returns (Cpp.set x g) s fun _ s' => s'.tape = s.tape ∧ Holds s' (G.put b m ((x, g o) :: fl)) := by
  have hst := h.standing
  rw [Layout.stops_put, Layout.flight_put] at hst
  obtain ⟨h', he, hst'⟩ := (hst.perm (.refl _) List.perm_middle).set g hid
  refine ⟨(), _, he, rfl, h.fly (fun b => by cases b <;> rfl) rfl (hst'.perm (.of_eq ?_)
    List.perm_middle.symm)⟩
  cases b <;> rfl

/-- `discard` of the order that is worked on. -/
theorem Holds.discard (h : Holds s (G.put b m ((x, o) :: fl))) :
    Returns (Cpp.discard x) s fun _ s' => s'.tape = s.tape.mark (.left o) ∧
    Holds s' (G.put b m fl) := by
  have hst := h.standing
  rw [Layout.stops_put, Layout.flight_put] at hst
  obtain ⟨h', i', n, he, hst'⟩ := (hst.perm (.refl _) List.perm_middle).discard
  refine ⟨(), _, he, rfl, h.fly (fun b => by cases b <;> rfl) rfl (hst'.perm (.of_eq ?_) (.refl _))⟩
  cases b <;> rfl

/-- `o->level->remove(o)`. -/
theorem Holds.unlink (h : Holds s (G.put b (pre ++ ⟨p, lv, as ++ (x, o) :: bs⟩ :: post) fl)) :
    Returns (Cpp.unlink x) s fun _ s' => s'.tape = s.tape ∧
      Holds s' (G.put b (pre ++ ⟨p, lv, as ++ bs⟩ :: post) ((x, o) :: fl)) := by
  have hmem : (x, o) ∈ (⟨p, lv, as ++ (x, o) :: bs⟩ : Row).queue := by simp
  have hrow : ⟨p, lv, as ++ (x, o) :: bs⟩ ∈
      (G.put b (pre ++ ⟨p, lv, as ++ (x, o) :: bs⟩ :: post) fl).side b := by
    rw [Layout.side_put]
    simp
  obtain ⟨c, hc, -, hlv, -⟩ := h.cell (Layout.mem_side hrow hmem)
  rw [(h.standing.row _ (Layout.mem_row hrow)).owner _ hmem] at hlv
  obtain ⟨a, s', he, hq⟩ := h.remove
  refine ⟨a, s', ?_, hq⟩
  unfold Cpp.unlink
  rw [run_bind hc, ← hlv]
  exact he

/-- A member that is not of the heap is written. -/
theorem Holds.write {f : Engine → Engine} (h : Holds s G) (hs : SameHeap s (f s))
    (hb : ∀ b, (f s).book b = s.book b) (hst : (f s).stops_ = s.stops_) :
    Returns (Cpp.write f) s fun _ s' => s'.tape = (f s).tape ∧ Holds s' G :=
  ⟨(), f s, rfl, rfl, h.congr hs hb hst⟩

/-- An entry of the history. -/
theorem Holds.mark (h : Holds s G) (e : Mark) :
    Returns (Cpp.mark e) s fun _ s' => s'.tape = s.tape.mark e ∧ Holds s' G :=
  h.write ⟨rfl, rfl, rfl, rfl, rfl, rfl, rfl⟩ (fun b => by cases b <;> rfl) rfl

/-- A call of the listener with an order of the engine. -/
theorem Holds.notify (h : Holds s G) (hx : (x, o) ∈ G.cells) (e : Order → Event) :
    Returns (Cpp.notify x e) s fun _ s' => s'.tape = s.tape.event (e o) ∧ Holds s' G := by
  obtain ⟨a, s', he, hq⟩ := h.mark (.event (e o))
  refine ⟨a, s', ?_, hq⟩
  unfold Cpp.notify
  rw [run_bind (h.order hx)]
  exact he

/-- `tick`. -/
theorem Holds.tick (h : Holds s G) :
    Returns Cpp.tick s fun t s' => t = s.now_ + 1 ∧ s'.tape = s.tape.tick ∧ Holds s' G :=
  ⟨_, _, rfl, rfl, rfl, h.congr ⟨rfl, rfl, rfl, rfl, rfl, rfl, rfl⟩ (fun b => by cases b <;> rfl) rfl⟩

/-! ## Levels -/

/-- The map of a side is written, and its rows with it. -/
theorem book_setBook (s : Engine) (b : Side) (e : List (ℤ × ℕ)) :
    (s.setBook b e).book b = e ∧ (s.setBook b e).book (oppositeSide b) = s.book (oppositeSide b) := by
  cases b <;> exact ⟨rfl, rfl⟩

/-- A level without orders is taken out of its map and freed. -/
theorem Holds.freeLvl (h : Holds s (G.put b (pre ++ ⟨p, lv, []⟩ :: post) fl)) :
    Returns (Cpp.freeLvl lv) (s.setBook b ((pre ++ post).map fun r => (r.price, r.addr))) fun _ s' =>
      s'.tape = s.tape ∧ Holds s' (G.put b (pre ++ post) fl) := by
  have hst : Standing (s.setBook b ((pre ++ post).map fun r => (r.price, r.addr))) _ _ :=
    h.focus.congr (by cases b <;> exact ⟨rfl, rfl, rfl, rfl, rfl, rfl, rfl⟩)
  obtain ⟨m', n, he, hst'⟩ := hst.freeLvl
  refine ⟨(), _, he, by cases b <;> rfl, ⟨?_, fun b' => ?_, ?_⟩⟩
  · rw [Layout.stops_put, Layout.flight_put]
    refine hst'.perm ?_ (.refl _)
    have hp := (G.put b (pre ++ post) fl).rows_perm b
    rw [Layout.side_put, Layout.side_put_opposite, List.append_assoc] at hp
    exact hp.symm
  · have hbk := book_setBook s b ((pre ++ post).map fun r => (r.price, r.addr))
    by_cases he : b' = b
    · subst he
      rw [Layout.side_put]
      cases b' <;> exact hbk.1
    · have he : b' = oppositeSide b := by
        cases b <;> cases b' <;> first | rfl | exact absurd rfl he
      subst he
      have hold := h.book (oppositeSide b)
      rw [Layout.side_put_opposite] at hold ⊢
      cases b <;> exact hbk.2.trans hold
  · have hs := h.stops
    rw [Layout.stops_put] at hs ⊢
    cases b <;> exact hs

/-- `closeLevel` of the best level. -/
theorem Holds.closeLevel (h : Holds s (G.put b (⟨p, lv, q⟩ :: m) fl)) :
    Returns (Cpp.closeLevel b 0 lv) s fun closed s' => s'.tape = s.tape ∧
      closed = q.isEmpty ∧ Holds s' (G.put b (if q.isEmpty then m else ⟨p, lv, q⟩ :: m) fl) := by
  obtain ⟨l, hl, -, hhead, -⟩ := h.level (b := b) (r := ⟨p, lv, q⟩) (by
    rw [Layout.side_put]
    exact List.mem_cons_self)
  cases q with
  -- Orders are left, and nothing is done.
  | cons e q =>
    refine ⟨false, s, ?_, rfl, rfl, h⟩
    unfold Cpp.closeLevel
    rw [run_bind hl, hhead]
    rfl
  -- The level is taken out of the map and freed.
  | nil =>
    obtain ⟨a, s', he, ht, hs'⟩ := Holds.freeLvl
      (show Holds s (G.put b ([] ++ ⟨p, lv, []⟩ :: m) fl) from h)
    have hbk := h.book b
    rw [Layout.side_put] at hbk
    have hw : Cpp.write (fun s => s.setBook b ((s.book b).eraseIdx 0)) s =
        some ((), s.setBook b (m.map fun r => (r.price, r.addr))) := by
      change some ((), s.setBook b ((s.book b).eraseIdx 0)) = _
      rw [hbk]
      rfl
    refine ⟨true, s', ?_, ht, rfl, hs'⟩
    unfold Cpp.closeLevel
    rw [run_bind hl, hhead]
    change ((Cpp.write fun s => s.setBook b ((s.book b).eraseIdx 0)) >>= fun _ =>
      Cpp.freeLvl lv >>= fun _ => pure true) s = _
    rw [List.nil_append] at he
    rw [run_bind hw, run_bind he]
    rfl

/-- A price that no level before has is erased where it is. -/
theorem erasePrice_map (hpre : ∀ r ∈ pre, r.price ≠ p) (r : Row) (hr : r.price = p) :
    erasePrice p ((pre ++ r :: post).map fun r => (r.price, r.addr)) =
      (pre ++ post).map fun r => (r.price, r.addr) := by
  unfold erasePrice
  rw [List.map_append, List.map_append, List.eraseP_append_right _ (fun e he => ?_), List.map_cons,
    List.eraseP_cons_of_pos (p := fun e : ℤ × ℕ => decide (e.1 = p)) (decide_eq_true hr)]
  obtain ⟨r', hr', rfl⟩ := List.mem_map.mp he
  simpa using hpre r' hr'

/-- `removeFrom`: the order leaves its queue, and the level goes when that was its last one. -/
theorem Holds.removeFrom (h : Holds s (G.put b (pre ++ ⟨p, lv, as ++ (x, o) :: bs⟩ :: post) fl))
    (hpre : ∀ r ∈ pre, r.price ≠ p) :
    Returns (Cpp.removeFrom lv x b) s fun _ s' => s'.tape = s.tape ∧
      Holds s' (G.put b (if as ++ bs = [] then pre ++ post else pre ++ ⟨p, lv, as ++ bs⟩ :: post)
        ((x, o) :: fl)) := by
  unfold Cpp.removeFrom
  refine h.remove.bind fun _ s₁ h₁ => ?_
  obtain ⟨ht₁, h₁⟩ := h₁
  obtain ⟨l, hl, hlp, hhead, -⟩ := h₁.level (b := b) (r := ⟨p, lv, as ++ bs⟩) (by
    rw [Layout.side_put]
    simp)
  refine (show Returns (Cpp.level lv) s₁ (fun l' s' => l' = l ∧ s' = s₁) from
    ⟨l, s₁, hl, rfl, rfl⟩).bind fun l' s' hls => ?_
  obtain ⟨rfl, rfl⟩ := hls
  rw [hhead]
  by_cases hnil : as ++ bs = []
  · rw [if_pos hnil]
    rw [hnil] at h₁ hl ⊢
    obtain ⟨a, s₂, he₂, ht₂, h₂⟩ := h₁.freeLvl
    have hbk := h₁.book b
    rw [Layout.side_put] at hbk
    have hw : Cpp.write (fun s => s.setBook b (erasePrice l'.price (s.book b))) s' =
        some ((), s'.setBook b ((pre ++ post).map fun r => (r.price, r.addr))) := by
      change some ((), s'.setBook b (erasePrice l'.price (s'.book b))) = _
      rw [hbk, hlp]
      dsimp only
      rw [erasePrice_map hpre _ rfl]
    refine ⟨a, s₂, ?_, ht₂.trans ht₁, h₂⟩
    change Cpp.rmLevel lv b s' = _
    unfold Cpp.rmLevel
    rw [run_bind hl, run_bind hw, he₂]
  · rw [if_neg hnil]
    obtain ⟨e, q, hq⟩ := List.exists_cons_of_ne_nil hnil
    refine ⟨(), s', ?_, ht₁, h₁⟩
    dsimp only
    rw [hq]
    rfl

/-! ## An order comes to rest -/

/-- The rows of a side from the best price on. -/
def Ranked (b : Side) (rows : List Row) : Prop :=
  rows.Pairwise fun r r' => better b r.price r'.price = true

/-- Of two prices only one is better. -/
theorem better_asymm {b : Side} {p q : ℤ} (h : better b p q = true) :
    ¬ better b q p = true ∧ q ≠ p := by
  cases b <;> simp only [better, decide_eq_true_eq] at * <;> omega

/-- A price that is found in a map has a row. -/
theorem lookup_rows (p : ℤ) (rows : List Row) :
    (∃ lv pre q post, (rows.map fun r => (r.price, r.addr)).lookup p = some lv ∧
      rows = pre ++ ⟨p, lv, q⟩ :: post) ∨
    (rows.map fun r => (r.price, r.addr)).lookup p = none ∧ ∀ r ∈ rows, r.price ≠ p := by
  induction rows with
  | nil => exact .inr ⟨rfl, fun r hr => absurd hr List.not_mem_nil⟩
  | cons r rows ih =>
    rw [List.map_cons, List.lookup_cons]
    by_cases hp : r.price = p
    · subst hp
      exact .inl ⟨r.addr, [], r.queue, rows, by rw [beq_self_eq_true], rfl⟩
    · have hne : (p == r.price) = false := beq_eq_false_iff_ne.mpr (Ne.symm hp)
      rw [hne]
      rcases ih with ⟨lv, pre, q, post, hl, rfl⟩ | ⟨hl, hno⟩
      · exact .inl ⟨lv, r :: pre, q, post, hl, rfl⟩
      · exact .inr ⟨hl, List.forall_mem_cons.mpr ⟨hp, hno⟩⟩

/-- Where a new level goes. -/
theorem put_rows {rows : List Row} (hno : ∀ r ∈ rows, r.price ≠ p) : ∃ pre post, rows = pre ++ post ∧
    (∀ lv, put b p lv (rows.map fun r => (r.price, r.addr)) =
      (pre ++ ⟨p, lv, []⟩ :: post).map fun r => (r.price, r.addr)) ∧
    ∀ lv x o, o.price = p → enqueue b o (levelsOf rows) =
      levelsOf (pre ++ ⟨p, lv, [(x, o)]⟩ :: post) := by
  induction rows with
  | nil =>
    refine ⟨[], [], rfl, fun lv => rfl, fun lv x o ho => ?_⟩
    subst ho
    rfl
  | cons r rows ih =>
    obtain ⟨hp, hno⟩ := List.forall_mem_cons.mp hno
    by_cases hb : better b p r.price = true
    · refine ⟨[], r :: rows, rfl, fun lv => if_pos hb, fun lv x o ho => ?_⟩
      subst ho
      exact if_pos hb
    · obtain ⟨pre, post, rfl, hput, henq⟩ := ih hno
      refine ⟨r :: pre, post, rfl, fun lv => ?_, fun lv x o ho => ?_⟩
      · rw [List.map_cons, put, if_neg hb, if_neg (Ne.symm hp), hput]
        rfl
      · subst ho
        rw [levelsOf_cons, enqueue, if_neg hb, if_neg (Ne.symm hp), henq lv x o rfl]
        rfl

/-- The end of the queue of a level that is there. -/
theorem enqueue_rows (h : Ranked b (pre ++ ⟨o.price, lv, q⟩ :: post)) :
    enqueue b o (levelsOf (pre ++ ⟨o.price, lv, q⟩ :: post)) =
      levelsOf (pre ++ ⟨o.price, lv, q ++ [(x, o)]⟩ :: post) := by
  induction pre with
  | nil =>
    rw [List.nil_append, levelsOf_cons, enqueue, if_neg (by cases b <;> simp [better]), if_pos rfl,
      List.nil_append, levelsOf_cons, List.map_append]
    rfl
  | cons r pre ih =>
    obtain ⟨hr, hpre⟩ := List.pairwise_cons.mp h
    obtain ⟨hb, hne⟩ := better_asymm (hr ⟨o.price, lv, q⟩ (by simp))
    rw [List.cons_append, levelsOf_cons, enqueue, if_neg hb, if_neg hne, ih hpre]
    rfl

/-- `insertSide`: the order is at the end of the queue of its price. -/
theorem Holds.insertSide (h : Holds s (G.put b m ((x, o) :: fl))) (hm : Ranked b m) :
    Returns (Cpp.insertSide x b) s fun _ s' => s'.tape = s.tape ∧ ∃ pre lv q post,
      Holds s' (G.put b (pre ++ ⟨o.price, lv, q ++ [(x, o)]⟩ :: post) fl) ∧
      (∀ o' : Order, o'.price = o.price → enqueue b o' (levelsOf m) =
        levelsOf (pre ++ ⟨o.price, lv, q ++ [(x, o')]⟩ :: post)) ∧
      spread m = spread pre ++ (q ++ spread post) := by
  have hbk := h.book b
  rw [Layout.side_put] at hbk
  rcases lookup_rows o.price m with ⟨lv, pre, q, post, hl, rfl⟩ | ⟨hl, hno⟩
  · obtain ⟨a, s', he, ht, hs'⟩ := h.pushBack
    refine ⟨a, s', ?_, ht, pre, lv, q, post, hs', fun o' ho' => ?_, ?_⟩
    · unfold Cpp.insertSide
      rw [run_bind h.orderFlying, run_bind (show Cpp.levelFor o.price b s = some (lv, s) by
        unfold Cpp.levelFor
        rw [run_bind (show Cpp.read (·.book b) s = some (s.book b, s) from rfl), hbk, hl]
        rfl)]
      exact he
    · rw [← ho'] at hm ⊢
      exact enqueue_rows hm
    · unfold spread
      rw [List.flatMap_append, List.flatMap_cons]
  · obtain ⟨pre, post, rfl, hput, henq⟩ := put_rows (b := b) hno
    -- The level is made, and then its place in the map.
    obtain ⟨m', n, k, he, hst⟩ := h.standing.allocLvl o.price
    have hs₁ : Holds ({ s with levels := m', lA_ := n, lP_ := k }.setBook b
        (put b o.price s.lA_ (s.book b))) (G.put b (pre ++ ⟨o.price, s.lA_, []⟩ :: post)
          ((x, o) :: fl)) := by
      refine ⟨?_, fun b' => ?_, ?_⟩
      · have hsame : SameHeap { s with levels := m', lA_ := n, lP_ := k }
            ({ s with levels := m', lA_ := n, lP_ := k }.setBook b
              (put b o.price s.lA_ (s.book b))) := by
          cases b <;> exact ⟨rfl, rfl, rfl, rfl, rfl, rfl, rfl⟩
        have hst' := hst.congr hsame
        rw [Layout.stops_put, Layout.flight_put] at hst' ⊢
        refine hst'.perm ?_ (.refl _)
        have hp := (G.put b (pre ++ post) ((x, o) :: fl)).rows_perm b
        have hp' := (G.put b (pre ++ ⟨o.price, s.lA_, []⟩ :: post) ((x, o) :: fl)).rows_perm b
        rw [Layout.side_put, Layout.side_put_opposite] at hp hp'
        refine ((hp.cons _).trans ?_).trans hp'.symm
        rw [List.append_assoc, List.append_assoc]
        exact List.perm_middle.symm
      · have hb := book_setBook { s with levels := m', lA_ := n, lP_ := k } b
          (put b o.price s.lA_ (s.book b))
        by_cases heq : b' = b
        · subst heq
          rw [Layout.side_put, hb.1, hbk, hput]
        · have heq : b' = oppositeSide b := by
            cases b <;> cases b' <;> first | rfl | exact absurd rfl heq
          subst heq
          have hold := h.book (oppositeSide b)
          rw [Layout.side_put_opposite] at hold ⊢
          cases b <;> exact hb.2.trans hold
      · have hstops := h.stops
        rw [Layout.stops_put] at hstops ⊢
        cases b <;> exact hstops
    obtain ⟨a, s', he', ht, hs'⟩ := hs₁.pushBack
    refine ⟨a, s', ?_, ht.trans (by cases b <;> rfl), pre, s.lA_, [], post, hs', henq _ _, ?_⟩
    · unfold Cpp.insertSide
      rw [run_bind h.orderFlying, run_bind (show Cpp.levelFor o.price b s = some (s.lA_, _) by
        unfold Cpp.levelFor
        rw [run_bind (show Cpp.read (·.book b) s = some (s.book b, s) from rfl), hbk, hl]
        dsimp only
        rw [run_bind he, run_bind (show Cpp.write _ _ = some ((), _) from rfl)]
        rfl)]
      refine Eq.trans ?_ he'
      cases b <;> rfl
    · unfold spread
      rw [List.flatMap_append]
      rfl

end Rules

end MatchingEngine.Cpp
