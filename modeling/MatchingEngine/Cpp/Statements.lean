import MatchingEngine.Cpp.Engine

/-!
# What every statement keeps

A relation between states that holds before and after each of the statements that a function is made
of holds before and after the function. `Silent` asks this of the statements that neither make nor
report a trade, `Trading` of the one that makes a trade as well, and `Whole` of all statements of a
call but those of `assignId` and those that take an order in.
-/

namespace MatchingEngine.Cpp

open Lib

/-- Whether an entry is for no trade, no report of one, and no order that comes or goes. -/
def Mark.isPlain : Mark → Bool
  | .executed .. | .event (.onTrade _) | .event (.onOrderAccepted _) | .left _ => false
  | _ => true

/-- A relation that the statements keep that neither make nor report a trade. -/
class Silent (P : Engine → Engine → Prop) : Prop extends Std.Refl P, IsTrans Engine P where
  frame {s s' : Engine} (ht : s'.trades_ = s.trades_) (hi : s'.tid_ = s.tid_) (hl : s'.log = s.log)
    (hx : s'.idx_ = s.idx_) : P s s'
  log (s : Engine) {m : Mark} (hm : m.isPlain = true) : P s { s with log := s.log ++ [m] }
  discard {s : Engine} {o : Order} {i : OrderIndex} (h : s.idx_.erase o.id = some i) :
    P s { s with log := s.log ++ [.left o], idx_ := i }

/-- A relation that the statement keeps as well that makes a trade. -/
class Trading (P : Engine → Engine → Prop) : Prop extends Silent P where
  record (contra : Side) (fq : ℤ) (inc rest : Order) : Moves P (record contra fq inc rest)

/-- A relation that all statements of a call keep but those that take an order in. -/
class Whole (P : Engine → Engine → Prop) : Prop extends Trading P where
  report (s : Engine) (t : Trade) (depth : ℕ) : P s
    { s with log := s.log ++ [.event (.onTrade t)], lastPx_ := t.price, lastDepth := depth }
  clear (s : Engine) : P s { s with trades_ := [] }

section Silent

variable {α : Type} {P : Engine → Engine → Prop} [Silent P]

/-! ## Statements -/

/-- A member is read, and the state stays. -/
theorem moves_read {f : Engine → α} : Moves P (read f) := by
  rintro s _ _ ⟨⟩
  exact refl_of P s

/-- The values of an order are read. -/
theorem moves_order (o : ℕ) : Moves P (order o) := by
  intro s a s' he
  obtain ⟨c, -, h⟩ := Option.map_eq_some_iff.mp he
  cases h
  exact refl_of P s

/-- The cell of an order is read. -/
theorem moves_cell (o : ℕ) : Moves P (cell o) := by
  intro s a s' he
  obtain ⟨c, -, h⟩ := Option.map_eq_some_iff.mp he
  cases h
  exact refl_of P s

/-- A level is read. -/
theorem moves_level (lv : ℕ) : Moves P (level lv) := by
  intro s a s' he
  obtain ⟨c, -, h⟩ := Option.map_eq_some_iff.mp he
  cases h
  exact refl_of P s

/-- A write to nothing that the relation looks at. -/
theorem moves_write {f : Engine → Engine} (ht : ∀ s, (f s).trades_ = s.trades_)
    (hi : ∀ s, (f s).tid_ = s.tid_) (hl : ∀ s, (f s).log = s.log) (hx : ∀ s, (f s).idx_ = s.idx_) :
    Moves P (write f) := by
  rintro s _ _ ⟨⟩
  exact Silent.frame (ht s) (hi s) (hl s) (hx s)

/-- An entry of the history that is neither about a trade nor about an order that leaves. -/
theorem moves_log {m : Engine → Mark} (h : ∀ s, (m s).isPlain = true) :
    Moves P (write fun s => { s with log := s.log ++ [m s] }) := by
  rintro s _ _ ⟨⟩
  exact Silent.log s (h s)

/-- An entry of the history that is plain moves along `P`. -/
theorem moves_mark {m : Mark} (h : m.isPlain = true) : Moves P (mark m) := moves_log fun _ => h

/-- A cell is written. It is none of the members that `P` may look at. -/
theorem moves_setCell (o : ℕ) (f : Cell → Cell) : Moves P (setCell o f) := by
  intro s a s' he
  obtain ⟨c, -, h⟩ := Option.map_eq_some_iff.mp he
  cases h
  exact Silent.frame rfl rfl rfl rfl

/-- The values of an order are written. -/
theorem moves_set (o : ℕ) (f : Order → Order) : Moves P (set o f) := moves_setCell o _

/-- A level is written. -/
theorem moves_setLevel (lv : ℕ) (f : PriceLevel → PriceLevel) : Moves P (setLevel lv f) := by
  intro s a s' he
  obtain ⟨l, -, h⟩ := Option.map_eq_some_iff.mp he
  cases h
  exact Silent.frame rfl rfl rfl rfl

/-- `freeOrd` gives a cell back. -/
theorem moves_freeOrd (o : ℕ) : Moves P (freeOrd o) := by
  intro s a s' he
  obtain ⟨c, -, h⟩ := Option.map_eq_some_iff.mp he
  cases h
  exact Silent.frame rfl rfl rfl rfl

/-- `freeLvl` gives a level back. -/
theorem moves_freeLvl (lv : ℕ) : Moves P (freeLvl lv) := by
  intro s a s' he
  obtain ⟨l, -, h⟩ := Option.map_eq_some_iff.mp he
  cases h
  exact Silent.frame rfl rfl rfl rfl

/-- `allocOrd` takes a cell. -/
theorem moves_allocOrd : Moves P allocOrd := by
  rintro s _ _ ⟨⟩
  exact Silent.frame rfl rfl rfl rfl

/-- `allocLvl` takes a level. -/
theorem moves_allocLvl (p : ℤ) : Moves P (allocLvl p) := by
  rintro s _ _ ⟨⟩
  exact Silent.frame rfl rfl rfl rfl

/-- The clock ticks. -/
theorem moves_tick : Moves P tick := by
  rintro s _ _ ⟨⟩
  exact Silent.frame rfl rfl rfl rfl

/-- The map of a side is written. -/
theorem moves_setBook (b : Side) (f : List (ℤ × ℕ) → List (ℤ × ℕ)) :
    Moves P (write fun s => s.setBook b (f (s.book b))) := by
  refine moves_write (fun s => ?_) (fun s => ?_) (fun s => ?_) fun s => ?_ <;> cases b <;> rfl

/-- The listener is told of something that is no trade and takes no order in. -/
theorem moves_notify (o : ℕ) {e : Order → Event} (h : ∀ c, (Mark.event (e c)).isPlain = true) :
    Moves P (notify o e) :=
  (moves_order o).bind fun c => moves_mark (h c)

/-- `rmStop` takes a stop out of its vector. -/
theorem moves_rmStop (o : ℕ) : Moves P (rmStop o) := by
  refine moves_write (fun s => ?_) (fun s => ?_) (fun s => ?_) fun s => ?_ <;> split <;> rfl

/-- The vector of stops is written. -/
theorem moves_stops (f : List ℕ → List ℕ) :
    Moves P (write fun s => { s with stops_ := f s.stops_ }) :=
  moves_write (fun _ => rfl) (fun _ => rfl) (fun _ => rfl) fun _ => rfl

/-! ## Queues and levels -/

/-- The link to a next order is written, in the order before or in the level's head. -/
theorem moves_linkNext (lv : ℕ) (p n : Option ℕ) : Moves P (linkNext lv p n) := by
  cases p with
  | none => exact moves_setLevel lv _
  | some p => exact moves_setCell p _

/-- The link to a previous order is written, in the order behind or in the level's tail. -/
theorem moves_linkPrev (lv : ℕ) (n p : Option ℕ) : Moves P (linkPrev lv n p) := by
  cases n with
  | none => exact moves_setLevel lv _
  | some n => exact moves_setCell n _

/-- An order is put at the end of a queue. -/
theorem moves_pushBack (lv o : ℕ) : Moves P (pushBack lv o) :=
  (moves_level lv).bind fun _ => (moves_setCell o _).bind fun _ =>
    (moves_linkNext lv _ _).bind fun _ => moves_setLevel lv _

/-- An order is taken out of a queue. -/
theorem moves_remove (lv o : ℕ) : Moves P (remove lv o) :=
  (moves_cell o).bind fun _ => (moves_linkNext lv _ _).bind fun _ => (moves_cell o).bind fun _ =>
    (moves_linkPrev lv _ _).bind fun _ => moves_setCell o _

/-- An order is taken out of wherever it rests. -/
theorem moves_unlink (o : ℕ) : Moves P (unlink o) := by
  refine (moves_cell o).bind fun c => ?_
  cases c.level with
  | none => exact .trap
  | some lv => exact moves_remove lv o

/-- An empty level goes. -/
theorem moves_rmLevel (lv : ℕ) (b : Side) : Moves P (rmLevel lv b) :=
  (moves_level lv).bind fun _ => (moves_setBook b _).bind fun _ => moves_freeLvl lv

/-- An order is taken out of a queue, and the level goes when it was the last one. -/
theorem moves_removeFrom (lv o : ℕ) (b : Side) : Moves P (removeFrom lv o b) := by
  refine (moves_remove lv o).bind fun _ => (moves_level lv).bind fun l => ?_
  cases l.head with
  | none => exact moves_rmLevel lv b
  | some _ => exact .pure

/-- The level of a price is found or made. -/
theorem moves_levelFor (p : ℤ) (b : Side) : Moves P (levelFor p b) := by
  refine moves_read.bind fun m => ?_
  cases m.lookup p with
  | none =>
    exact (moves_allocLvl p).bind fun lv => (moves_setBook b _).bind fun _ => .pure
  | some lv => exact .pure

/-- An order comes to rest. -/
theorem moves_insertOrder (o : ℕ) : Moves P (insertOrder o) := by
  refine (moves_set o _).bind fun _ => (moves_order o).bind fun c => ?_
  refine Moves.bind (moves_log fun _ => rfl) fun _ => (moves_order o).bind fun c => ?_
  exact (moves_levelFor _ _).bind fun lv => moves_pushBack lv o

/-- An order leaves the index and its cell is given back: the one statement that may end an order.
-/
theorem moves_discard (o : ℕ) : Moves P (discard o) := by
  intro s a s' h
  obtain ⟨c, s₁, hc, h⟩ := run_bind_iff.mp h
  obtain ⟨_, _, ⟨⟩, h⟩ := run_bind_iff.mp h
  obtain ⟨_, s₂, hx, h⟩ := run_bind_iff.mp h
  obtain ⟨i, hi, he⟩ := Option.map_eq_some_iff.mp hx
  cases he
  refine trans_of P (moves_order o _ _ _ hc) (trans_of P ?_ (moves_freeOrd o _ _ _ h))
  exact Silent.discard (s := s₁) hi

/-! ## Matching -/

/-- The scan of a queue for what can be had, by induction on the rest of the queue. -/
theorem moves_availLevel (inc : Order) (thresh : ℤ) : ∀ (n : ℕ) (p : Option ℕ) (avail : ℤ),
    Moves P (availLevel inc thresh n p avail) := by
  intro n
  induction n with
  | zero =>
    intro p avail
    cases p with
    | none => exact .pure
    | some r => exact .trap
  | succ n ih =>
    intro p avail
    cases p with
    | none => exact .pure
    | some r =>
      refine (moves_cell r).bind fun c => .ite (fun _ => ih _ _) fun _ => ?_
      exact .ite (fun _ => .pure) fun _ => ih _ _

/-- The scan of the levels for what can be had. -/
theorem moves_availLevels (inc : Order) (thresh : ℤ) : ∀ (m : List (ℤ × ℕ)) (avail : ℤ),
    Moves P (availLevels inc thresh m avail) := by
  intro m
  induction m with
  | nil => exact fun _ => .pure
  | cons e m ih =>
    intro avail
    refine .ite (fun _ => (moves_level e.2).bind fun _ => moves_read.bind fun _ => ?_) fun _ => .pure
    exact (moves_availLevel _ _ _ _ _).bind fun r => .ite (fun _ => .pure) fun _ => ih _

/-- `availQty` reads only. -/
theorem moves_availQty (inc : Order) (contra : Side) (thresh : ℤ) :
    Moves P (availQty inc contra thresh) :=
  moves_read.bind fun _ => moves_availLevels inc thresh _ 0

/-- `fokCheck` reads only. -/
theorem moves_fokCheck (o : Order) : Moves P (fokCheck o) :=
  (moves_availQty o _ _).bind fun _ => .pure

/-- `minQtyCheck` reads only. -/
theorem moves_minQtyCheck (o : Order) : Moves P (minQtyCheck o) :=
  (moves_availQty o _ _).bind fun _ => .pure

/-- The next slice of an iceberg is shown at the end of the queue. -/
theorem moves_reload (lv rest : ℕ) : Moves P (reload lv rest) :=
  moves_tick.bind fun _ => (moves_set rest _).bind fun _ => (moves_order rest).bind fun _ =>
    (moves_mark rfl).bind fun _ => (moves_remove lv rest).bind fun _ => moves_pushBack lv rest

/-- Two orders of one group lose the smaller remainder. -/
theorem moves_decrement (inc rest : ℕ) : Moves P (decrement inc rest) := by
  refine (moves_order inc).bind fun i => (moves_order rest).bind fun r => ?_
  refine (moves_set inc _).bind fun _ => (moves_set rest _).bind fun _ => ?_
  refine (moves_set inc _).bind fun _ => (moves_set rest _).bind fun _ => ?_
  refine (moves_order inc).bind fun i => (moves_order rest).bind fun r => ?_
  refine (moves_mark rfl).bind fun _ => .ite (fun _ => ?_) fun _ => .ite (fun _ => ?_) fun _ => .pure
  · exact (moves_unlink rest).bind fun _ => moves_discard rest
  · refine (moves_cell rest).bind fun c => ?_
    cases c.level with
    | none => exact .trap
    | some lv => exact moves_reload lv rest

/-- All five answers to a self-trade. -/
theorem moves_handleStp (inc rest : ℕ) : Moves P (handleStp inc rest) := by
  refine (moves_order inc).bind fun i => ?_
  cases i.stpPolicy with
  | NONE => exact .pure
  | CANCEL_NEWEST => exact (moves_set inc _).bind fun _ => moves_notify inc fun _ => rfl
  | CANCEL_OLDEST =>
    refine (moves_set rest _).bind fun _ => (moves_unlink rest).bind fun _ => ?_
    exact (moves_notify rest fun _ => rfl).bind fun _ => moves_discard rest
  | CANCEL_BOTH =>
    refine (moves_set inc _).bind fun _ => (moves_set rest _).bind fun _ => ?_
    refine (moves_unlink rest).bind fun _ => (moves_notify inc fun _ => rfl).bind fun _ => ?_
    exact (moves_notify rest fun _ => rfl).bind fun _ => moves_discard rest
  | DECREMENT => exact moves_decrement inc rest

/-- A level without orders is closed. -/
theorem moves_closeLevel (contra : Side) (li lv : ℕ) : Moves P (closeLevel contra li lv) := by
  refine (moves_level lv).bind fun l => ?_
  cases l.head with
  | none =>
    exact (moves_setBook contra (·.eraseIdx li)).bind fun _ => (moves_freeLvl lv).bind fun _ => .pure
  | some _ => exact .pure

/-! ## Dispose -/

/-- An order is cancelled and told of. -/
theorem moves_cancelWith (o : ℕ) (reason : String) : Moves P (cancelWith o reason) :=
  (moves_set o _).bind fun _ => moves_notify o fun _ => rfl

/-- The rest of an order that rests comes to rest. -/
theorem moves_disposeResting (o : ℕ) (hasTr : Bool) : Moves P (disposeResting o hasTr) :=
  (moves_order o).bind fun _ => .ite (fun _ => moves_cancelWith o _) fun _ =>
    (moves_insertOrder o).bind fun _ => moves_set o _

/-- What `dispose` does in each of its branches. -/
theorem moves_dispose (o : ℕ) (hasTr : Bool) : Moves P (dispose o hasTr) := by
  refine (moves_order o).bind fun c => .ite (fun _ => moves_set o _) fun _ => ?_
  cases c.timeInForce with
  | IOC => exact moves_cancelWith o _
  | FOK => exact .trap
  | GTC => exact moves_disposeResting o hasTr
  | GTD => exact moves_disposeResting o hasTr
  | DAY => exact moves_disposeResting o hasTr

/-- An order is killed before it is matched. -/
theorem moves_kill (o : ℕ) (reason : String) : Moves P (kill o reason) :=
  (moves_cancelWith o reason).bind fun _ => moves_discard o

/-- A post-only order that would cross is repriced. -/
theorem moves_reprice (o : ℕ) : Moves P (reprice o) := by
  refine (moves_order o).bind fun c => moves_read.bind fun m => moves_read.bind fun step => ?_
  cases m with
  | nil => exact .trap
  | cons e m =>
    exact (moves_set o _).bind fun _ => (moves_order o).bind fun _ => moves_mark rfl

/-- An order comes to rest as new. -/
theorem moves_restNew (o : ℕ) : Moves P (restNew o) :=
  (moves_insertOrder o).bind fun _ => moves_set o _

/-- The phase of the post-only orders, whatever the policy. -/
theorem moves_postOnlyPhase (o : ℕ) : Moves P (postOnlyPhase o) := by
  refine (moves_order o).bind fun c => moves_read.bind fun cross => moves_read.bind fun policy => ?_
  refine .ite (fun _ => .ite (fun _ => moves_kill o _) fun _ => ?_) fun _ => moves_restNew o
  exact (moves_reprice o).bind fun _ => moves_restNew o

/-- An order that is done is given back. -/
theorem moves_finish (savedId : UInt64) (o : ℕ) : Moves P (finish savedId o) := by
  refine moves_read.bind fun live => .ite (fun _ => (moves_order o).bind fun c => ?_) fun _ => .pure
  exact .ite (fun _ => moves_discard o) fun _ => .pure

/-! ## Trades and stops -/

/-- The scan of the stops for those that a price triggers. -/
theorem moves_takeStops (px : ℤ) : ∀ n i trig, Moves P (takeStops px n i trig) := by
  intro n
  induction n with
  | zero => exact fun _ _ => .trap
  | succ n ih =>
    intro i trig
    refine moves_read.bind fun stops => ?_
    cases stops[i]? with
    | none => exact .pure
    | some p =>
      refine (moves_order p).bind fun o => .ite (fun _ => ?_) fun _ => ih _ _
      exact (moves_stops (swapRemove · i)).bind fun _ => ih _ _

/-- A stop becomes a limit or a market order. -/
theorem moves_trigger (o : ℕ) : Moves P (trigger o) :=
  (moves_set o _).bind fun _ => (moves_notify o fun _ => rfl).bind fun _ => moves_set o _

/-- `cancelOrder`, of a resting order, of a stop, or of an id that is no order's. -/
theorem moves_cancelOrder (id : UInt64) : Moves P (cancelOrder id) := by
  refine moves_read.bind fun p => ?_
  cases p with
  | none => exact .pure
  | some o =>
    refine (moves_cell o).bind fun c => .ite (fun _ => (moves_set o _).bind fun _ => ?_) fun _ => .pure
    refine Moves.bind ?_ fun _ => (moves_notify o fun _ => rfl).bind fun _ =>
      (moves_discard o).bind fun _ => .pure
    cases c.level with
    | some lv => exact moves_removeFrom lv o _
    | none => exact moves_rmStop o

/-- The scan of a queue for orders that have expired. -/
theorem moves_scanLevel (t : ℕ) : ∀ n p exp, Moves P (scanLevel t n p exp) := by
  intro n
  induction n with
  | zero =>
    intro p exp
    cases p with
    | none => exact .pure
    | some o => exact .trap
  | succ n ih =>
    intro p exp
    cases p with
    | none => exact .pure
    | some o => exact (moves_cell o).bind fun c => ih _ _

/-- The scan of the levels of a side for orders that have expired. -/
theorem moves_scan (t : ℕ) : ∀ m exp, Moves P (scan t m exp) := by
  intro m
  induction m with
  | nil => exact fun _ => .pure
  | cons e m ih =>
    exact fun exp => (moves_level e.2).bind fun l => moves_read.bind fun fuel =>
      (moves_scanLevel t _ _ _).bind fun exp => ih exp

/-- One order expires, wherever it is taken out of. -/
theorem moves_expireOne (o : ℕ) {unlinked : Prog Engine Unit} (h : Moves P unlinked) :
    Moves P (expireOne o unlinked) :=
  (moves_set o _).bind fun _ => h.bind fun _ => (moves_notify o fun _ => rfl).bind fun _ =>
    moves_discard o

/-- The resting orders that were found expire. -/
theorem moves_expireResting : ∀ os, Moves P (expireResting os) := by
  intro os
  induction os with
  | nil => exact .pure
  | cons o os ih =>
    refine (moves_cell o).bind fun c => (moves_expireOne o ?_).bind fun _ => ih
    cases c.level with
    | some lv => exact moves_removeFrom lv o _
    | none => exact .pure

/-- The stops expire, the last one of the vector in the place of each. -/
theorem moves_expireStops (t : ℕ) : ∀ n i, Moves P (expireStops t n i) := by
  intro n
  induction n with
  | zero => exact fun _ => .trap
  | succ n ih =>
    intro i
    refine moves_read.bind fun stops => ?_
    cases stops[i]? with
    | none => exact .pure
    | some p =>
      refine (moves_order p).bind fun o => .ite (fun _ => ?_) fun _ => ih _
      exact (moves_stops (swapRemove · i)).bind fun _ => (moves_expireOne p .pure).bind fun _ => ih _

/-- `expireOrders`. -/
theorem moves_expireOrders (t : ℕ) : Moves P (expireOrders t) :=
  moves_read.bind fun _ => moves_read.bind fun _ => (moves_scan t _ _).bind fun _ =>
    (moves_scan t _ _).bind fun _ => (moves_expireResting _).bind fun _ => moves_read.bind fun _ =>
      moves_expireStops t _ 0

end Silent

section Trading

variable {P : Engine → Engine → Prop} [Trading P]

/-- One fill: the single statement that makes a trade. -/
theorem moves_fill (contra : Side) (inc lv rest : ℕ) : Moves P (fill contra inc lv rest) := by
  refine (moves_order inc).bind fun i => (moves_order rest).bind fun r => .ite (fun _ => ?_)
    fun _ => .trap
  refine (Trading.record contra _ i r).bind fun _ => ?_
  refine (moves_set inc _).bind fun _ => (moves_set rest _).bind fun _ =>
    (moves_order rest).bind fun r => .ite (fun _ => moves_reload lv rest) fun _ => ?_
  refine .ite (fun _ => ?_) fun _ => moves_set rest _
  exact (moves_set rest _).bind fun _ => (moves_remove lv rest).bind fun _ => moves_discard rest

/-- The matching loop in one queue. -/
theorem moves_matchLevel (contra : Side) (inc lv : ℕ) : ∀ n, Moves P (matchLevel contra inc lv n) := by
  intro n
  induction n with
  | zero => exact .trap
  | succ n ih =>
    refine (moves_order inc).bind fun i => (moves_level lv).bind fun l => .ite (fun _ => ?_)
      fun _ => .pure
    cases l.head with
    | none => exact .pure
    | some rest =>
      refine (moves_order rest).bind fun r => .ite (fun _ => ?_) fun _ => ?_
      · refine ((moves_handleStp inc rest)).bind fun _ => (moves_order inc).bind fun _ => ?_
        exact .ite (fun _ => .pure) fun _ => ih
      · exact (moves_fill contra inc lv rest).bind fun _ => ih

/-- The matching loop over the levels. -/
theorem moves_matchLevels (contra : Side) (inc : ℕ) : ∀ n li,
    Moves P (matchLevels contra inc n li) := by
  intro n
  induction n with
  | zero => exact fun _ => .trap
  | succ n ih =>
    intro li
    refine (moves_order inc).bind fun i => moves_read.bind fun m => ?_
    cases m[li]? with
    | none => exact .pure
    | some e =>
      refine .ite (fun _ => (moves_level e.2).bind fun l => .ite (fun _ => ?_) fun _ => .pure)
        fun _ => .pure
      refine moves_read.bind fun fuel => (moves_matchLevel contra inc e.2 _).bind fun returned => ?_
      refine ((moves_closeLevel contra li e.2)).bind fun erased => ?_
      exact .ite (fun _ => .pure) fun _ => ih _

/-- `matchOrd`. -/
theorem moves_matchOrd (o : ℕ) : Moves P (matchOrd o) :=
  (moves_order o).bind fun _ => moves_read.bind fun _ => moves_matchLevels _ o _ 0

/-- What is left of a market-to-limit order becomes a limit order, or goes. -/
theorem moves_toLimit (ts o : ℕ) : Moves P (toLimit ts o) := by
  refine moves_read.bind fun trades => ?_
  cases trades[ts]? with
  | none => exact .trap
  | some t =>
    refine ((moves_set o _)).bind fun _ => (moves_order o).bind fun c => ?_
    refine Moves.bind (.ite (fun _ => moves_matchOrd o) fun _ => .pure) fun _ => ?_
    exact (moves_order o).bind fun c => .ite (fun _ => (moves_dispose o _)) fun _ => .pure

/-- The match of an order of any other type, with what is done with the rest. -/
theorem moves_matchPlain (ts o : ℕ) : Moves P (matchPlain ts o) := by
  refine (moves_matchOrd o).bind fun _ => moves_read.bind fun trades => ?_
  refine ((moves_set o _)).bind fun _ => (moves_order o).bind fun c => ?_
  exact .ite (fun _ => (moves_dispose o _)) fun _ => .pure

end Trading

section Whole

variable {P : Engine → Engine → Prop} [Whole P] {f : ℕ → ℕ → Prog Engine Unit}

/-- `trades_.clear()` at the start of a call. -/
theorem moves_clear : Moves P (write fun s => { s with trades_ := [] }) := by
  rintro s _ _ ⟨⟩
  exact Whole.clear s

/-- The reports of the trades from `i` on, each with the stops that it triggers. -/
theorem moves_emitLoop {eval : ℤ → ℕ → Prog Engine Unit} (he : ∀ px d, Moves P (eval px d))
    (depth : ℕ) : ∀ n i, Moves P (emitLoop eval depth n i) := by
  intro n
  induction n with
  | zero => exact fun _ => .pure
  | succ n ih =>
    intro i s a s' h
    obtain ⟨_, _, ⟨⟩, h⟩ := run_bind_iff.mp h
    dsimp only at h
    cases ht : s.trades_[i]? with
    | none =>
      rw [ht] at h
      cases h
    | some t =>
      rw [ht] at h
      obtain ⟨_, _, ⟨⟩, h⟩ := run_bind_iff.mp h
      obtain ⟨_, _, ⟨⟩, h⟩ := run_bind_iff.mp h
      have hrest : Moves P ((if depth < maxCascade then eval t.price depth else pure ()) >>= fun _ =>
          emitLoop eval depth n (i + 1)) :=
        Moves.bind (.ite (fun _ => he _ _) fun _ => .pure) fun _ => ih _
      exact trans_of P (Whole.report s t depth) (hrest _ _ _ h)

/-- The reports of the trades of one match. -/
theorem moves_emitAndTrigger {eval : ℤ → ℕ → Prog Engine Unit} (he : ∀ px d, Moves P (eval px d))
    (start depth : ℕ) : Moves P (emitAndTrigger eval start depth) :=
  moves_read.bind fun _ => moves_emitLoop he depth _ _

/-- The triggered stops go through the pipeline one by one. -/
theorem moves_activate (hf : ∀ o d, Moves P (f o d)) (depth : ℕ) : ∀ ps,
    Moves P (activate f depth ps) := by
  intro ps
  induction ps with
  | nil => exact .pure
  | cons p ps ih => exact (moves_trigger p).bind fun _ => (hf _ _).bind fun _ => ih

/-- `evalStops`. -/
theorem moves_evalStops {S : StdSort} (hf : ∀ o d, Moves P (f o d)) (px : ℤ) (depth : ℕ) :
    Moves P (evalStops S f px depth) :=
  moves_read.bind fun _ => (moves_takeStops px _ _ _).bind fun _ => moves_read.bind fun _ =>
    moves_activate hf depth _

/-- The phase that matches an order and reports its trades. -/
theorem moves_matchPhase (he : ∀ start depth, Moves P (f start depth)) (o depth : ℕ) :
    Moves P (matchPhase f o depth) := by
  refine moves_read.bind fun trades => (moves_order o).bind fun c => .ite (fun _ => ?_) fun _ => ?_
  · refine (moves_matchOrd o).bind fun _ => moves_read.bind fun trades => .ite (fun _ => ?_) fun _ =>
      moves_kill o _
    exact (moves_toLimit _ o).bind fun _ => (he _ _).bind fun _ => moves_finish _ o
  · exact (moves_matchPlain _ o).bind fun _ => (he _ _).bind fun _ => moves_finish _ o

/-- `processActive`, once its reports keep the relation. -/
theorem moves_processActiveWith (he : ∀ start depth, Moves P (f start depth)) (o depth : ℕ) :
    Moves P (processActiveWith f o depth) := by
  refine (moves_order o).bind fun c => .ite (fun _ => moves_postOnlyPhase o) fun _ => ?_
  refine Moves.bind (.ite (fun _ => moves_fokCheck c) fun _ => .pure) fun fok => ?_
  refine .ite (fun _ => ?_) fun _ => moves_kill o _
  refine Moves.bind (.ite (fun _ => moves_minQtyCheck c) fun _ => .pure) fun enough => ?_
  exact .ite (fun _ => moves_matchPhase he o depth) fun _ => moves_kill o _

/-- By induction on the depth that is left. -/
theorem moves_processActiveIn (S : StdSort) : ∀ n o depth, Moves P (processActiveIn S n o depth) := by
  intro n
  induction n with
  | zero => exact fun _ _ => .trap
  | succ n ih => exact moves_processActiveWith (moves_emitAndTrigger (moves_evalStops ih))

/-- `process`, once `processActive` does. -/
theorem moves_process (hf : ∀ o d, Moves P (f o d)) (o depth : ℕ) : Moves P (process f o depth) := by
  refine (moves_order o).bind fun c => .ite (fun _ => moves_read.bind fun fire => ?_)
    fun _ => hf o depth
  refine .ite (fun _ => ?_) fun _ => moves_stops (· ++ [o])
  exact (moves_trigger o).bind fun _ => hf o depth

/-- A submitted order is not taken in, or the index and the history take it in before it is worked
on. -/
theorem submitWith_cases (hf : ∀ o d, Moves P (f o d)) {i : OrderInput} {s s' : Engine} {r : Bool}
    (h : submitWith f i s = some (r, s')) : P s s' ∨ r = true ∧ ∃ s₁ o idx c, P s s₁ ∧
      s₁.idx_.insert i.id o = some idx ∧ c.id = i.id ∧
      P { s₁ with idx_ := idx, log := s₁.log ++ [.event (.onOrderAccepted c)] } s' := by
  obtain ⟨_, _, ⟨⟩, h⟩ := run_bind_iff.mp h
  split at h
  · exact .inl (Moves.bind (moves_mark rfl) (fun _ => .pure) _ _ _ h)
  · obtain ⟨o, s₁, h₁, h⟩ := run_bind_iff.mp h
    obtain ⟨t, s₂, h₂, h⟩ := run_bind_iff.mp h
    obtain ⟨_, s₃, h₃, h⟩ := run_bind_iff.mp h
    obtain ⟨_, _, ⟨⟩, h⟩ := run_bind_iff.mp h
    obtain ⟨c, s₄, h₄, h⟩ := run_bind_iff.mp h
    have hp : P s s₄ := trans_of P (moves_allocOrd _ _ _ h₁) <| trans_of P (moves_tick _ _ _ h₂) <|
      trans_of P (moves_set o _ _ _ _ h₃) (moves_order o _ _ _ h₄)
    cases hv : validate s₃.now_ c with
    | some err =>
      rw [hv] at h
      have hrej : P s₄ s' := ((moves_set o _).bind fun _ => (moves_notify o fun _ => rfl).bind
        fun _ => (moves_freeOrd o).bind fun _ => .pure) _ _ _ h
      exact .inl (trans_of P hp hrej)
    | none =>
      rw [hv] at h
      obtain ⟨_, s₅, h₅, h⟩ := run_bind_iff.mp h
      obtain ⟨_, s₆, h₆, h⟩ := run_bind_iff.mp h
      obtain ⟨idx, hidx, he⟩ := Option.map_eq_some_iff.mp h₅
      cases he
      obtain ⟨c', s₇, h₇, h₆⟩ := run_bind_iff.mp h₆
      obtain ⟨k, hk, he⟩ := Option.map_eq_some_iff.mp h₇
      cases he
      cases h₆
      -- The order that the listener is told of is the one that was written.
      have hid : k.order.id = i.id := by
        obtain ⟨k₂, -, he₃⟩ := Option.map_eq_some_iff.mp h₃
        cases he₃
        obtain ⟨k₃, -, he₄⟩ := Option.map_eq_some_iff.mp h₄
        cases he₄
        change Function.update s₂.orders o _ o = some k at hk
        rw [Function.update_self] at hk
        cases hk
        rfl
      obtain ⟨_, s₈, h₈, h⟩ := run_bind_iff.mp h
      obtain ⟨_, s₉, h₉, h⟩ := run_bind_iff.mp h
      cases h
      exact .inr ⟨rfl, s₄, o, idx, _, hp, hidx, hid,
        trans_of P (moves_clear _ _ _ h₈) (moves_process hf o 0 _ _ _ h₉)⟩

/-- `amendOrder`, once `process` does. -/
theorem moves_amendWith (hf : ∀ o d, Moves P (f o d)) (id : UInt64) (newPx newQty : ℤ) :
    Moves P (amendWith f id newPx newQty) := by
  refine moves_read.bind fun p => ?_
  cases p with
  | none => exact .pure
  | some o =>
    refine (moves_cell o).bind fun c => .ite (fun _ => ?_) fun _ => .pure
    cases c.level with
    | none => exact .pure
    | some lv =>
      refine .ite (fun _ => (moves_set o _).bind fun _ => .pure) fun _ => .ite (fun _ => ?_)
        fun _ => .pure
      refine (moves_removeFrom lv o _).bind fun _ => (moves_set o _).bind fun _ => ?_
      refine moves_tick.bind fun t => (moves_set o _).bind fun _ => moves_clear.bind fun _ => ?_
      exact (hf o 0).bind fun _ => .pure

end Whole

end MatchingEngine.Cpp
