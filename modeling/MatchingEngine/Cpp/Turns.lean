import MatchingEngine.Cpp.Termination
import MatchingEngine.Cpp.Walks

/-!
# The matching loops of the C++ engine

A turn of matching works on the order at the head of the best level of the other side. Each
statement of a turn does to the layout what its counterpart of `Cpp/Flat.lean` does to the values,
so the two loops do as well. The addresses of the orders stay with their ids.

A turn reads the two orders through their addresses, writes one or both, and moves the order at the
head to the end of its queue, or out of it. `handleStp_run` and `fill_run` say what a turn does to
the layout, and `matchLevel_run` and `matchLevels_run` are the inductions on the fuel of the two
loops. `Keyed` is the condition that the addresses stay with the ids.
-/

namespace MatchingEngine.Cpp

open Lib

/-- The queue with what has become of its head, which is at the address `y`. -/
def Fate.place (y : ℕ) : Fate → List (ℕ × Order) → List (ℕ × Order)
  | stays o, q => (y, o) :: q
  | goes, q => q
  | moves o, q => q ++ [(y, o)]

/-- Without its addresses, the queue is the one of `Cpp/Flat.lean`. -/
theorem Fate.map_place (y : ℕ) (fate : Fate) (q : List (ℕ × Order)) :
    (fate.place y q).map (·.2) = fate.requeue (q.map (·.2)) := by
  cases fate with
  | stays o => rfl
  | goes => rfl
  | moves o => exact List.map_append

/-- The ids of orders at the addresses that `K` gives them. -/
def Keyed (K : UInt64 → ℕ) (q : List (ℕ × Order)) : Prop := ∀ e ∈ q, K e.2.id = e.1

/-- The head of a queue keeps its id, so it keeps its address. -/
theorem Keyed.place {K : UInt64 → ℕ} {y : ℕ} {r : Order} {q : List (ℕ × Order)}
    (h : Keyed K ((y, r) :: q)) {fate : Fate} (hid : ∀ o ∈ fate.left, o.id = r.id) :
    Keyed K (fate.place y q) := by
  obtain ⟨hy, hq⟩ := List.forall_mem_cons.mp h
  cases fate with
  | stays o => exact List.forall_mem_cons.mpr ⟨(congrArg K (hid o rfl)).trans hy, hq⟩
  | goes => exact hq
  | moves o =>
    refine List.forall_mem_append.mpr ⟨hq, List.forall_mem_singleton.mpr ?_⟩
    exact (congrArg K (hid o rfl)).trans hy

section Turns

variable {s : Engine} {G : Layout} {b : Side} {m : List Row} {fl q : List (ℕ × Order)} {p : ℤ}
  {lv x y : ℕ} {inc r : Order}

/-! ## The head of the best level -/

/-- The head is read. -/
theorem Holds.orderHead (h : Holds s (G.put b (⟨p, lv, (y, r) :: q⟩ :: m) fl)) :
    Cpp.order y s = some (r, s) := by
  have h : Holds s (G.put b ([] ++ ⟨p, lv, [] ++ (y, r) :: q⟩ :: m) fl) := h
  exact h.orderQueued

/-- The head is written. -/
theorem Holds.setHead (h : Holds s (G.put b (⟨p, lv, (y, r) :: q⟩ :: m) fl)) (g : Order → Order)
    (hid : (g r).id = r.id) :
    Returns (Cpp.set y g) s fun _ s' => s'.tape = s.tape ∧
      Holds s' (G.put b (⟨p, lv, (y, g r) :: q⟩ :: m) fl) := by
  have h : Holds s (G.put b ([] ++ ⟨p, lv, [] ++ (y, r) :: q⟩ :: m) fl) := h
  exact h.setQueued g hid

/-- The head is taken out of its queue. -/
theorem Holds.removeHead (h : Holds s (G.put b (⟨p, lv, (y, r) :: q⟩ :: m) fl)) :
    Returns (Cpp.remove lv y) s fun _ s' => s'.tape = s.tape ∧
      Holds s' (G.put b (⟨p, lv, q⟩ :: m) ((y, r) :: fl)) := by
  have h : Holds s (G.put b ([] ++ ⟨p, lv, [] ++ (y, r) :: q⟩ :: m) fl) := h
  exact h.remove

/-- The head is taken out through its own links. -/
theorem Holds.unlinkHead (h : Holds s (G.put b (⟨p, lv, (y, r) :: q⟩ :: m) fl)) :
    Returns (Cpp.unlink y) s fun _ s' => s'.tape = s.tape ∧
      Holds s' (G.put b (⟨p, lv, q⟩ :: m) ((y, r) :: fl)) := by
  have h : Holds s (G.put b ([] ++ ⟨p, lv, [] ++ (y, r) :: q⟩ :: m) fl) := h
  exact h.unlink

/-- An order in flight is put at the end of the queue. -/
theorem Holds.pushHead (h : Holds s (G.put b (⟨p, lv, q⟩ :: m) ((y, r) :: fl))) :
    Returns (Cpp.pushBack lv y) s fun _ s' => s'.tape = s.tape ∧
      Holds s' (G.put b (⟨p, lv, q ++ [(y, r)]⟩ :: m) fl) := by
  have h : Holds s (G.put b ([] ++ ⟨p, lv, q⟩ :: m) ((y, r) :: fl)) := h
  exact h.pushBack

/-- The level of the order at the head. -/
theorem Holds.cellHead (h : Holds s (G.put b (⟨p, lv, (y, r) :: q⟩ :: m) fl)) :
    ∃ c, Cpp.cell y s = some (c, s) ∧ c.order = r ∧ c.level = some lv := by
  have hrow : ⟨p, lv, (y, r) :: q⟩ ∈ (G.put b (⟨p, lv, (y, r) :: q⟩ :: m) fl).side b := by
    rw [Layout.side_put]
    exact List.mem_cons_self
  obtain ⟨c, hc, ho, hl, -⟩ := h.cell (Layout.mem_side hrow List.mem_cons_self)
  rw [(h.standing.row _ (Layout.mem_row hrow)).owner _ List.mem_cons_self] at hl
  exact ⟨c, hc, ho, hl.symm⟩

/-- The listener is told of the incoming order. -/
theorem Holds.notifyFlying (h : Holds s (G.put b m ((x, inc) :: fl))) (e : Order → Event) :
    Returns (Cpp.notify x e) s fun _ s' => s'.tape = s.tape.event (e inc) ∧
      Holds s' (G.put b m ((x, inc) :: fl)) :=
  h.notify (Layout.mem_flight (by rw [Layout.flight_put]; exact List.mem_cons_self)) e

/-! ## Turns -/

/-- The next slice of the head goes to the end of the queue. -/
theorem reload_run (h : Holds s (G.put b (⟨p, lv, (y, r) :: q⟩ :: m) fl)) :
    Returns (reload lv y) s fun _ s' => s'.tape = (Flat.reload r s.tape).2 ∧
      Holds s' (G.put b (⟨p, lv, (Flat.reload r s.tape).1.place y q⟩ :: m) fl) := by
  unfold reload
  refine h.tick.bind fun t s₁ h₁ => ?_
  obtain ⟨rfl, ht₁, h₁⟩ := h₁
  refine (h₁.setHead _ rfl).bind fun _ s₂ h₂ => ?_
  obtain ⟨ht₂, h₂⟩ := h₂
  refine .after h₂.orderHead ?_
  refine (h₂.mark _).bind fun _ s₃ h₃ => ?_
  obtain ⟨ht₃, h₃⟩ := h₃
  refine h₃.removeHead.bind fun _ s₄ h₄ => ?_
  obtain ⟨ht₄, h₄⟩ := h₄
  refine h₄.pushHead.mono fun _ s₅ h₅ => ?_
  obtain ⟨ht₅, h₅⟩ := h₅
  exact ⟨by rw [ht₅, ht₄, ht₃, ht₂, ht₁]; rfl, h₅⟩

/-- What is left of a decremented order stays, moves to the end, or is freed. -/
theorem afterDecrement_run (h : Holds s (G.put b (⟨p, lv, (y, r) :: q⟩ :: m) fl)) :
    Returns (if r.remainingQty = 0 then do
        unlink y
        discard y
      else if r.visibleQty = 0 ∧ 0 < r.displayQty then do
        let c ← cell y
        match c.level with
        | none => trap
        | some lv => reload lv y
      else pure ()) s fun _ s' => s'.tape = (Flat.afterDecrement r s.tape).2 ∧
      Holds s' (G.put b (⟨p, lv, (Flat.afterDecrement r s.tape).1.place y q⟩ :: m) fl) := by
  unfold Flat.afterDecrement
  refine .ite (fun hrem => ?_) fun hrem => ?_
  -- Nothing remains of it.
  · rw [if_pos hrem]
    refine h.unlinkHead.bind fun _ s₁ h₁ => ?_
    obtain ⟨ht₁, h₁⟩ := h₁
    refine h₁.discard.mono fun _ s₂ h₂ => ?_
    exact ⟨by rw [h₂.1, ht₁], h₂.2⟩
  -- Something remains, so it may have to show its next slice.
  · rw [if_neg hrem]
    refine .ite (fun hre => ?_) fun hre => ?_
    · rw [if_pos hre]
      obtain ⟨c, hc, -, hlv⟩ := h.cellHead
      refine .after hc ?_
      rw [hlv]
      exact reload_run h
    · rw [if_neg hre]
      exact .pure ⟨rfl, h⟩

/-- An order with nothing left is cancelled, as `handleStp` does after a decrement. -/
def cancelSpent (o : Order) : Order := if o.remainingQty = 0 then { o with status := .CANCELLED } else o

/-- The writes to an incoming order by a decrement are one. -/
theorem cancelSpent_incoming (inc : Order) (rq : ℤ) :
    cancelSpent { inc with
      remainingQty := inc.remainingQty - rq
      visibleQty := inc.shown (inc.remainingQty - rq) } = Flat.lessIncoming inc rq := by
  unfold cancelSpent Flat.lessIncoming
  dsimp only
  split <;> rfl

/-- The writes to a resting order by a decrement are one. -/
theorem cancelSpent_resting (r : Order) (rq : ℤ) :
    cancelSpent { r with
      remainingQty := r.remainingQty - rq
      visibleQty := r.visibleQty - rq } = Flat.lessResting r rq := by
  unfold cancelSpent Flat.lessResting
  dsimp only
  split <;> rfl

/-- The id of a cancelled order. -/
theorem id_cancelSpent (o : Order) : (cancelSpent o).id = o.id := by
  unfold cancelSpent
  split <;> rfl

/-- Both orders of a group lose the smaller remainder, and who has nothing left goes. -/
theorem decrement_run (h : Holds s (G.put b (⟨p, lv, (y, r) :: q⟩ :: m) ((x, inc) :: fl))) :
    Returns (decrement x y) s fun _ s' => s'.tape = (Flat.decrement inc r s.tape).2.2 ∧
      Holds s' (G.put b (⟨p, lv, (Flat.decrement inc r s.tape).2.1.place y q⟩ :: m)
        ((x, (Flat.decrement inc r s.tape).1) :: fl)) := by
  unfold decrement
  refine .after h.orderFlying (.after h.orderHead ?_)
  dsimp only
  -- Four writes: the quantities of both, then the status of whichever has nothing left.
  refine (h.set _ rfl).bind fun _ s₁ h₁ => ?_
  obtain ⟨ht₁, h₁⟩ := h₁
  refine (h₁.setHead _ rfl).bind fun _ s₂ h₂ => ?_
  obtain ⟨ht₂, h₂⟩ := h₂
  refine (h₂.set cancelSpent (id_cancelSpent _)).bind fun _ s₃ h₃ => ?_
  obtain ⟨ht₃, h₃⟩ := h₃
  refine (h₃.setHead cancelSpent (id_cancelSpent _)).bind fun _ s₄ h₄ => ?_
  obtain ⟨ht₄, h₄⟩ := h₄
  -- The values after the writes are those that `Flat.decrement` computes at once.
  rw [cancelSpent_incoming, cancelSpent_resting] at h₄
  refine .after h₄.orderFlying (.after h₄.orderHead ?_)
  refine (h₄.mark _).bind fun _ s₅ h₅ => ?_
  obtain ⟨ht₅, h₅⟩ := h₅
  have ht : s₅.tape = s.tape.event (.onOrderDecremented (Flat.lessIncoming inc
      (min inc.remainingQty r.visibleQty)) (Flat.lessResting r (min inc.remainingQty r.visibleQty))
      (min inc.remainingQty r.visibleQty)) := by
    rw [ht₅, ht₄, ht₃, ht₂, ht₁]
    rfl
  have hrun := afterDecrement_run h₅
  rw [ht] at hrun
  exact hrun

/-- Each policy takes out whom it says. -/
theorem handleStp_run (h : Holds s (G.put b (⟨p, lv, (y, r) :: q⟩ :: m) ((x, inc) :: fl))) :
    Returns (handleStp x y) s fun _ s' => s'.tape = (Flat.handleStp inc r s.tape).2.2 ∧
      Holds s' (G.put b (⟨p, lv, (Flat.handleStp inc r s.tape).2.1.place y q⟩ :: m)
        ((x, (Flat.handleStp inc r s.tape).1) :: fl)) := by
  unfold handleStp Flat.handleStp
  refine .after h.orderFlying ?_
  cases inc.stpPolicy with
  | NONE => exact .pure ⟨rfl, h⟩
  | DECREMENT => exact decrement_run h
  | CANCEL_NEWEST =>
    refine (h.set _ rfl).bind fun _ s₁ h₁ => ?_
    obtain ⟨ht₁, h₁⟩ := h₁
    refine (h₁.notifyFlying _).mono fun _ s₂ h₂ => ?_
    exact ⟨by rw [h₂.1, ht₁]; rfl, h₂.2⟩
  -- The order is taken out of its queue before the listener is told, and freed after it.
  | CANCEL_OLDEST =>
    refine (h.setHead _ rfl).bind fun _ s₁ h₁ => ?_
    obtain ⟨ht₁, h₁⟩ := h₁
    refine h₁.unlinkHead.bind fun _ s₂ h₂ => ?_
    obtain ⟨ht₂, h₂⟩ := h₂
    refine (h₂.notifyFlying _).bind fun _ s₃ h₃ => ?_
    obtain ⟨ht₃, h₃⟩ := h₃
    refine h₃.discard.mono fun _ s₄ h₄ => ?_
    exact ⟨by rw [h₄.1, ht₃, ht₂, ht₁]; rfl, h₄.2⟩
  -- The incoming order is first in flight, the resting one joins it when it is unlinked.
  | CANCEL_BOTH =>
    refine (h.set _ rfl).bind fun _ s₁ h₁ => ?_
    obtain ⟨ht₁, h₁⟩ := h₁
    refine (h₁.setHead _ rfl).bind fun _ s₂ h₂ => ?_
    obtain ⟨ht₂, h₂⟩ := h₂
    refine h₂.unlinkHead.bind fun _ s₃ h₃ => ?_
    obtain ⟨ht₃, h₃⟩ := h₃
    have hswap := h₃.permFlight (List.Perm.swap _ _ fl)
    refine (hswap.notifyFlying _).bind fun _ s₄ h₄ => ?_
    obtain ⟨ht₄, h₄⟩ := h₄
    refine ((h₄.permFlight (List.Perm.swap _ _ fl)).notifyFlying _).bind fun _ s₅ h₅ => ?_
    obtain ⟨ht₅, h₅⟩ := h₅
    refine h₅.discard.mono fun _ s₆ h₆ => ?_
    exact ⟨by rw [h₆.1, ht₅, ht₄, ht₃, ht₂, ht₁]; rfl, h₆.2⟩

/-- A trade is made and written down. -/
theorem record_run (h : Holds s G) (b : Side) (fq : ℤ) (inc r : Order) :
    Returns (record b fq inc r) s fun _ s' =>
      s'.tape = s.tape.record (levelsOf (G.side b)) fq inc r ∧ Holds s' G := by
  refine (h.write ⟨rfl, rfl, rfl, rfl, rfl, rfl, rfl⟩ (fun b => by cases b <;> rfl) rfl).mono
    fun _ s' h' => ⟨h'.1.trans ?_, h'.2⟩
  rw [← h.view]
  rfl

/-- What is left of an order that has traded stays, moves to the end, or is freed. -/
theorem afterFill_run (h : Holds s (G.put b (⟨p, lv, (y, r) :: q⟩ :: m) fl)) :
    Returns (if r.visibleQty = 0 ∧ 0 < r.remainingQty ∧ 0 < r.displayQty then reload lv y
      else if r.remainingQty = 0 then do
        set y fun o => { o with status := .FILLED }
        remove lv y
        discard y
      else set y fun o => { o with status := .PARTIALLY_FILLED }) s fun _ s' =>
      s'.tape = (Flat.afterFill r s.tape).2 ∧
      Holds s' (G.put b (⟨p, lv, (Flat.afterFill r s.tape).1.place y q⟩ :: m) fl) := by
  unfold Flat.afterFill
  refine .ite (fun hre => ?_) fun hre => ?_
  · rw [if_pos hre]
    exact reload_run h
  · rw [if_neg hre]
    refine .ite (fun hrem => ?_) fun hrem => ?_
    · rw [if_pos hrem]
      refine (h.setHead _ rfl).bind fun _ s₁ h₁ => ?_
      obtain ⟨ht₁, h₁⟩ := h₁
      refine h₁.removeHead.bind fun _ s₂ h₂ => ?_
      obtain ⟨ht₂, h₂⟩ := h₂
      refine h₂.discard.mono fun _ s₃ h₃ => ?_
      exact ⟨by rw [h₃.1, ht₂, ht₁], h₃.2⟩
    · rw [if_neg hrem]
      exact h.setHead _ rfl

/-- A fill: the trade, and what becomes of the head. -/
theorem fill_run {t : Order × Fate × Tape}
    (h : Holds s (G.put b (⟨p, lv, (y, r) :: q⟩ :: m) ((x, inc) :: fl)))
    (he : Flat.fill ((p, r :: q.map (·.2)) :: levelsOf m) inc r s.tape = some t) :
    Returns (fill b x lv y) s fun _ s' => s'.tape = t.2.2 ∧
      Holds s' (G.put b (⟨p, lv, t.2.1.place y q⟩ :: m) ((x, t.1) :: fl)) := by
  obtain ⟨hfq, rfl⟩ := Flat.fill_eq he
  unfold fill
  refine .after h.orderFlying (.after h.orderHead ?_)
  dsimp only
  refine .ite (fun _ => ?_) fun hn => absurd hfq hn
  refine (record_run h b _ inc r).bind fun _ s₁ h₁ => ?_
  obtain ⟨ht₁, h₁⟩ := h₁
  rw [Layout.side_put] at ht₁
  refine (h₁.set _ rfl).bind fun _ s₂ h₂ => ?_
  obtain ⟨ht₂, h₂⟩ := h₂
  refine (h₂.setHead _ rfl).bind fun _ s₃ h₃ => ?_
  obtain ⟨ht₃, h₃⟩ := h₃
  refine .after h₃.orderHead ?_
  have hrun := afterFill_run h₃
  rw [show s₃.tape = s.tape.record ((p, r :: q.map (·.2)) :: levelsOf m)
    (min inc.remainingQty r.visibleQty) inc r by rw [ht₃, ht₂, ht₁]; rfl] at hrun
  exact hrun

/-! ## The ids -/

/-- After a decrement, the head has its id. -/
theorem id_afterDecrement (r : Order) (t : Tape) :
    ∀ o ∈ (Flat.afterDecrement r t).1.left, o.id = r.id := by
  unfold Flat.afterDecrement
  split
  · exact fun o ho => absurd ho (Option.not_mem_none o)
  · split <;> (rintro o ⟨⟩; rfl)

/-- After self-trade prevention, the head has its id. -/
theorem id_handleStp (inc r : Order) (t : Tape) :
    ∀ o ∈ (Flat.handleStp inc r t).2.1.left, o.id = r.id := by
  unfold Flat.handleStp
  split
  · rintro o ⟨⟩
    rfl
  · exact fun o ho => absurd ho (Option.not_mem_none o)
  · exact fun o ho => absurd ho (Option.not_mem_none o)
  · exact id_afterDecrement _ _
  · rintro o ⟨⟩
    rfl

/-- After a fill, the head has its id. -/
theorem id_fill {contra : Levels} {t : Tape} {u : Order × Fate × Tape}
    (h : Flat.fill contra inc r t = some u) : ∀ o ∈ u.2.1.left, o.id = r.id := by
  rw [(Flat.fill_eq h).2]
  unfold Flat.afterFill
  dsimp only
  split
  · rintro o ⟨⟩
    rfl
  · split
    · exact fun o ho => absurd ho (Option.not_mem_none o)
    · rintro o ⟨⟩
      rfl

/-! ## The loops -/

variable {K : UInt64 → ℕ}

/-- `inc->remainingQty` and the head of the best level, which a turn starts from. -/
theorem Holds.headOf (h : Holds s (G.put b (⟨p, lv, q⟩ :: m) fl)) :
    ∃ l, Cpp.level lv s = some (l, s) ∧ l.price = p ∧ l.head = (q.map (·.1)).head? := by
  obtain ⟨l, hl, hp, hh, -⟩ := h.level (b := b) (r := ⟨p, lv, q⟩) (by
    rw [Layout.side_put]
    exact List.mem_cons_self)
  exact ⟨l, hl, hp, hh⟩

/-- The loop over a queue, with at least as many turns. -/
theorem matchLevel_run : ∀ n n' inc q s inc' q' t' ret, n ≤ n' →
    Holds s (G.put b (⟨p, lv, q⟩ :: m) ((x, inc) :: fl)) → Keyed K q →
    Flat.matchQueue p (levelsOf m) n inc (q.map (·.2)) s.tape = some (inc', q', t', ret) →
    Returns (matchLevel b x lv n') s fun ret' s' => ret' = ret ∧ s'.tape = t' ∧
      ∃ q'', q''.map (·.2) = q' ∧ Keyed K q'' ∧
        Holds s' (G.put b (⟨p, lv, q''⟩ :: m) ((x, inc') :: fl)) := by
  -- Induction on the turns of the values, which the loop on the heap has at least as many of.
  intro n
  induction n with
  | zero =>
    intro n' inc q s inc' q' t' ret _ _ _ he
    cases he
  | succ n ih =>
    intro n' inc q s inc' q' t' ret hn h hk he
    obtain ⟨n', rfl⟩ : ∃ k, n' = k + 1 := ⟨n' - 1, by omega⟩
    unfold Flat.matchQueue at he
    unfold matchLevel
    obtain ⟨l, hl, -, hhead⟩ := h.headOf
    refine .after h.orderFlying (.after hl ?_)
    by_cases hrem : 0 < inc.remainingQty
    · rw [if_pos hrem] at he ⊢
      cases q with
      | nil =>
        simp only [List.map_nil, Option.some.injEq, Prod.mk.injEq] at he
        obtain ⟨rfl, rfl, rfl, rfl⟩ := he
        rw [hhead]
        exact .pure ⟨rfl, rfl, [], rfl, hk, h⟩
      | cons e q =>
        obtain ⟨y, r⟩ := e
        rw [List.map_cons] at he
        rw [hhead, List.map_cons, List.head?_cons]
        dsimp only at he ⊢
        refine .after h.orderHead ?_
        by_cases hc : stpConflict inc r = true
        -- A turn with an order of the same group.
        · rw [if_pos hc] at he ⊢
          refine (handleStp_run h).bind fun _ s₁ h₁ => ?_
          obtain ⟨ht₁, h₁⟩ := h₁
          have hk₁ := hk.place (id_handleStp inc r s.tape)
          refine .after h₁.orderFlying ?_
          by_cases hend : (Flat.handleStp inc r s.tape).1.status = .CANCELLED ∨
              (Flat.handleStp inc r s.tape).1.remainingQty = 0
          · rw [if_pos hend] at he ⊢
            simp only [Option.some.injEq, Prod.mk.injEq] at he
            obtain ⟨rfl, rfl, rfl, rfl⟩ := he
            exact .pure ⟨rfl, ht₁, _, Fate.map_place _ _ _, hk₁, h₁⟩
          · rw [if_neg hend] at he ⊢
            rw [← Fate.map_place y, ← ht₁] at he
            exact ih n' _ _ s₁ _ _ _ _ (by omega) h₁ hk₁ he
        · rw [if_neg hc] at he ⊢
          cases hf : Flat.fill ((p, r :: q.map (·.2)) :: levelsOf m) inc r s.tape with
          | none =>
            rw [hf] at he
            cases he
          | some u =>
            rw [hf] at he
            dsimp only at he
            refine (fill_run h hf).bind fun _ s₁ h₁ => ?_
            obtain ⟨ht₁, h₁⟩ := h₁
            rw [← Fate.map_place y, ← ht₁] at he
            exact ih n' _ _ s₁ _ _ _ _ (by omega) h₁ (hk.place (id_fill hf)) he
    · rw [if_neg hrem] at he ⊢
      simp only [Option.some.injEq, Prod.mk.injEq] at he
      obtain ⟨rfl, rfl, rfl, rfl⟩ := he
      exact .pure ⟨rfl, rfl, q, rfl, hk, h⟩

/-- A queue that is left with orders was left because nothing remains of the incoming order. -/
theorem matchQueue_left {m : Levels} : ∀ n inc (q : List Order) t inc' q' t',
    Flat.matchQueue p m n inc q t = some (inc', q', t', false) → q' = [] ∨ ¬ 0 < inc'.remainingQty := by
  -- Induction on the turns: an exit is for want of an order or for want of quantity.
  intro n
  induction n with
  | zero =>
    intro inc q t inc' q' t' he
    cases he
  | succ n ih =>
    intro inc q t inc' q' t' he
    unfold Flat.matchQueue at he
    split at he
    · split at he
      · simp only [Option.some.injEq, Prod.mk.injEq] at he
        exact .inl he.2.1.symm
      · split at he
        · dsimp only at he
          split at he
          · simp only [Option.some.injEq, Prod.mk.injEq] at he
            exact absurd he.2.2.2 nofun
          · exact ih _ _ _ _ _ _ he
        · split at he
          · cases he
          · exact ih _ _ _ _ _ _ he
    · rename_i hrem
      simp only [Option.some.injEq, Prod.mk.injEq] at he
      obtain ⟨rfl, -⟩ := he
      exact .inr hrem

/-- The next turn of the loop over the levels, when nothing remains of the incoming order. -/
theorem matchLevels_spent (h : Holds s (G.put b m ((x, inc) :: fl))) (hrem : ¬ 0 < inc.remainingQty)
    (n li : ℕ) : matchLevels b x (n + 1) li s = some ((), s) := by
  unfold matchLevels
  rw [run_bind h.orderFlying, run_bind (show read (·.book b) s = some (s.book b, s) from rfl)]
  cases (s.book b)[li]? with
  | none => rfl
  | some e =>
    dsimp only
    rw [if_neg hrem]
    rfl

/-- The loop over the levels. -/
theorem matchLevels_run : ∀ m n inc s inc' m' t', m.length < n →
    Holds s (G.put b m ((x, inc) :: fl)) → Keyed K (spread m) →
    Flat.matchLevels (levelsOf m) inc s.tape = some (inc', m', t') →
    Returns (matchLevels b x n 0) s fun _ s' => s'.tape = t' ∧
      ∃ m'', levelsOf m'' = m' ∧ Keyed K (spread m'') ∧ Holds s' (G.put b m'' ((x, inc') :: fl)) := by
  -- Induction on the levels, with `matchLevel_run` for the first of them.
  intro m
  induction m with
  | nil =>
    intro n inc s inc' m' t' hn h hk he
    obtain ⟨n, rfl⟩ : ∃ k, n = k + 1 := ⟨n - 1, by omega⟩
    unfold Flat.matchLevels at he
    simp only [levelsOf, List.map_nil, Option.some.injEq, Prod.mk.injEq] at he
    obtain ⟨rfl, rfl, rfl⟩ := he
    have hbk := h.book b
    rw [Layout.side_put] at hbk
    unfold matchLevels
    refine .after h.orderFlying (.after (show read (·.book b) s = some (s.book b, s) from rfl) ?_)
    rw [hbk]
    exact .pure ⟨rfl, [], rfl, hk, h⟩
  | cons row m ih =>
    obtain ⟨p, lv, q⟩ := row
    intro n inc s inc' m' t' hn h hk he
    obtain ⟨n, rfl⟩ : ∃ k, n = k + 1 := ⟨n - 1, by omega⟩
    rw [List.length_cons] at hn
    have hbk := h.book b
    rw [Layout.side_put] at hbk
    obtain ⟨hkq, hkm⟩ := List.forall_mem_append.mp hk
    obtain ⟨l, hl, hlp, -⟩ := h.headOf
    rw [levelsOf_cons] at he
    unfold Flat.matchLevels at he
    unfold matchLevels
    refine .after h.orderFlying (.after (show read (·.book b) s = some (s.book b, s) from rfl) ?_)
    rw [hbk, List.map_cons, List.getElem?_cons_zero]
    dsimp only
    by_cases hgo : 0 < inc.remainingQty ∧ canMatch inc p = true
    · rw [if_pos hgo] at he
      refine .ite (fun _ => ?_) fun hn => absurd hgo.1 hn
      refine .after hl ?_
      rw [hlp]
      refine .ite (fun _ => ?_) fun hn => absurd hgo.2 hn
      refine .after (show read (·.oA_) s = some (s.oA_, s) from rfl) ?_
      -- The bound that the loop on the heap has is enough for the queue.
      have hlen : q.length ≤ s.oA_ := h.length_le (b := b) (r := ⟨p, lv, q⟩) (by
        rw [Layout.side_put]
        exact List.mem_cons_self)
      rw [List.length_map] at he
      cases hq : Flat.matchQueue p (levelsOf m) (inc.remainingQty.toNat + q.length + 1) inc
          (q.map (·.2)) s.tape with
      | none =>
        rw [hq] at he
        cases he
      | some u =>
        obtain ⟨i₁, q₁, t₁, ret⟩ := u
        rw [hq] at he
        refine (matchLevel_run _ _ inc q s _ _ _ _ (by omega) h hkq hq).bind fun ret' s₁ h₁ => ?_
        obtain ⟨rfl, ht₁, q₂, rfl, hkq₂, h₁⟩ := h₁
        refine h₁.closeLevel.bind fun closed s₂ h₂ => ?_
        obtain ⟨ht₂, rfl, h₂⟩ := h₂
        -- An empty level is closed, and the iterator stands on the next one.
        cases q₂ with
        | nil =>
          dsimp only [List.map_nil] at he
          cases ret' with
          | true =>
            cases he
            exact .pure ⟨ht₂.trans ht₁, m, rfl, hkm, h₂⟩
          | false =>
            rw [← ht₁, ← ht₂] at he
            exact ih n _ s₂ _ _ _ (by omega) h₂ hkm he
        -- A level that keeps orders ends the matching: the incoming order has nothing left, or
        -- has been stopped by its policy.
        | cons e q₂ =>
          have he : some (i₁, (p, e.2 :: q₂.map (·.2)) :: levelsOf m, t₁) = some (inc', m', t') := he
          simp only [Option.some.injEq, Prod.mk.injEq] at he
          obtain ⟨rfl, rfl, rfl⟩ := he
          have hend : s₂.tape = t₁ ∧ ∃ m'', levelsOf m'' = (p, e.2 :: q₂.map (·.2)) :: levelsOf m ∧
              Keyed K (spread m'') ∧ Holds s₂ (G.put b m'' ((x, i₁) :: fl)) :=
            ⟨ht₂.trans ht₁, ⟨p, lv, e :: q₂⟩ :: m, rfl, List.forall_mem_append.mpr ⟨hkq₂, hkm⟩, h₂⟩
          cases ret' with
          | true => exact .pure hend
          | false =>
            obtain ⟨n, rfl⟩ : ∃ k, n = k + 1 := ⟨n - 1, by omega⟩
            -- The source goes on to the next level, and finds that nothing remains.
            have hrem := (matchQueue_left _ _ _ _ _ _ _ hq).resolve_left (List.cons_ne_nil _ _)
            exact ⟨(), s₂, matchLevels_spent h₂ hrem n _, hend⟩
    -- Nothing remains, or the best price is not good enough.
    · rw [if_neg hgo] at he
      simp only [Option.some.injEq, Prod.mk.injEq] at he
      obtain ⟨rfl, rfl, rfl⟩ := he
      have hend : s.tape = s.tape ∧ ∃ m'', levelsOf m'' = (p, q.map (·.2)) :: levelsOf m ∧
          Keyed K (spread m'') ∧ Holds s (G.put b m'' ((x, inc) :: fl)) :=
        ⟨rfl, ⟨p, lv, q⟩ :: m, rfl, hk, h⟩
      refine .ite (fun hrem => ?_) fun _ => .pure hend
      refine .after hl ?_
      rw [hlp]
      exact .ite (fun hm => absurd ⟨hrem, hm⟩ hgo) fun _ => .pure hend

end Turns

end MatchingEngine.Cpp
