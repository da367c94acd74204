import Mathlib.Data.List.DropRight
import MatchingEngine.Cpp.Flat

/-!
# What the loops of matching write

The entries that a turn of matching adds to the history, and those of a whole match. A match that
makes no trade adds no entry of a trade. What a history says of an order is what it says since the
order was accepted, which `since` cuts out.

`Adds` says of a loop of matching that it takes no trade away, and that what it writes is `Plain` if
it makes none. `trades_handleStp` and `trades_afterFill` say which turns make a trade, and
`adds_matchQueue` and `adds_matchLevels` put the turns together. `since` cuts the history where the
order was last accepted, for an id may be used again.
-/

namespace MatchingEngine.Cpp

/-! ## Entries -/

namespace Mark

/-- Whether an entry is for a trade. -/
def isExecuted : Mark → Bool
  | .executed .. => true
  | _ => false

/-- Whether an entry is for the acceptance of an order of the id. -/
def accepts (id : UInt64) : Mark → Bool
  | .event (.onOrderAccepted o) => o.id = id
  | _ => false

/-- Whether an entry tells that an order of the id has become active: it was accepted, or triggered.
-/
def starts (id : UInt64) : Mark → Bool
  | .event (.onOrderAccepted o) => o.id = id
  | .event (.onOrderTriggered o) => o.id = id
  | _ => false

/-- Whether an entry is for a trade of an order of the id. -/
def trades (id : UInt64) : Mark → Bool
  | .executed t _ _ _ => t.aggressorId = id ∨ t.passiveId = id
  | _ => false

end Mark

/-- The entries of a history after the last one that satisfies `p`. -/
def since (p : Mark → Bool) (log : List Mark) : List Mark := log.rtakeWhile fun m => !p m

/-- What is said since an entry goes on with entries of another kind. -/
theorem since_append {p : Mark → Bool} {log new : List Mark} (h : ∀ m ∈ new, p m = false) :
    since p (log ++ new) = since p log ++ new := by
  induction new using List.reverseRecOn with
  | nil => rw [List.append_nil, List.append_nil]
  | append_singleton new m ih =>
    have hm := h m (List.mem_append_right _ (List.mem_singleton_self m))
    unfold since at ih ⊢
    rw [← List.append_assoc, List.rtakeWhile_concat_pos _ _ m (by rw [hm]; rfl),
      ih fun x hx => h x (List.mem_append_left _ hx), List.append_assoc]

/-- Nothing is said yet since the last entry. -/
theorem since_concat {p : Mark → Bool} {log : List Mark} {m : Mark} (h : p m = true) :
    since p (log ++ [m]) = [] :=
  List.rtakeWhile_concat_neg _ _ m (by rw [h]; decide)

/-- Whether an order of the id has traded since it last became active. -/
def sold (id : UInt64) (log : List Mark) : Bool :=
  (since (·.starts id) log).any (·.trades id)

/-- An order that has just become active has not traded. -/
theorem sold_started {id : UInt64} {log : List Mark} {m : Mark} (h : m.starts id = true) :
    sold id (log ++ [m]) = false := by
  unfold sold
  rw [since_concat h]
  rfl

namespace Flat

/-- Entries without trades. -/
def Plain (ms : List Mark) : Prop := ∀ m ∈ ms, m.isExecuted = false

/-- Two parts without trades. -/
theorem Plain.append {ms ms' : List Mark} (h : Plain ms) (h' : Plain ms') : Plain (ms ++ ms') :=
  List.forall_mem_append.mpr ⟨h, h'⟩

/-- Entries without trades are those of no trade of an order. -/
theorem Plain.sold {id : UInt64} {log new : List Mark} (h : Plain new) (hs : sold id log = false) :
    sold id (log ++ new) = false := by
  induction new using List.reverseRecOn with
  | nil => rwa [List.append_nil]
  | append_singleton new m ih =>
    obtain ⟨hnew, hm⟩ := List.forall_mem_append.mp h
    have hm := hm m (List.mem_singleton_self m)
    rw [← List.append_assoc]
    cases hst : m.starts id with
    | true => exact sold_started hst
    | false =>
      have htr : m.trades id = false := by
        cases m <;> first | rfl | cases hm
      have ih := ih hnew
      unfold Cpp.sold at ih ⊢
      rw [since_append (List.forall_mem_singleton.mpr hst), List.any_append, ih, List.any_cons, htr]
      rfl

/-! ## What a turn adds -/

/-- A decrement is no trade. -/
theorem plain_afterDecrement (r : Order) (t : Tape) :
    ∃ new, (afterDecrement r t).2.log = t.log ++ new ∧ Plain new := by
  unfold afterDecrement
  split
  · exact ⟨_, rfl, List.forall_mem_singleton.mpr rfl⟩
  · split
    · exact ⟨_, rfl, List.forall_mem_singleton.mpr rfl⟩
    · exact ⟨[], (List.append_nil _).symm, fun m hm => absurd hm List.not_mem_nil⟩

/-- What follows a fill is no trade. -/
theorem plain_afterFill (r : Order) (t : Tape) :
    ∃ new, (afterFill r t).2.log = t.log ++ new ∧ Plain new := by
  unfold afterFill
  split
  · exact ⟨_, rfl, List.forall_mem_singleton.mpr rfl⟩
  · split
    · exact ⟨_, rfl, List.forall_mem_singleton.mpr rfl⟩
    · exact ⟨[], (List.append_nil _).symm, fun m hm => absurd hm List.not_mem_nil⟩

/-- Self-trade prevention is no trade. -/
theorem plain_handleStp (inc r : Order) (t : Tape) :
    ∃ new, (handleStp inc r t).2.2.log = t.log ++ new ∧ Plain new := by
  unfold handleStp
  split
  · exact ⟨_, rfl, List.forall_mem_singleton.mpr rfl⟩
  · exact ⟨_, List.append_assoc _ _ _, List.forall_mem_append.mpr
      ⟨List.forall_mem_singleton.mpr rfl, List.forall_mem_singleton.mpr rfl⟩⟩
  · refine ⟨_, (congrArg (· ++ _) (List.append_assoc _ _ _)).trans (List.append_assoc _ _ _), ?_⟩
    refine List.forall_mem_append.mpr ⟨List.forall_mem_append.mpr ?_, List.forall_mem_singleton.mpr rfl⟩
    exact ⟨List.forall_mem_singleton.mpr rfl, List.forall_mem_singleton.mpr rfl⟩
  · obtain ⟨new, he, hn⟩ := plain_afterDecrement (lessResting r (min inc.remainingQty r.visibleQty))
      (t.event (.onOrderDecremented (lessIncoming inc (min inc.remainingQty r.visibleQty))
        (lessResting r (min inc.remainingQty r.visibleQty)) (min inc.remainingQty r.visibleQty)))
    refine ⟨_ :: new, he.trans (List.append_assoc _ [_] new), List.forall_mem_cons.mpr ⟨rfl, hn⟩⟩
  · exact ⟨[], (List.append_nil _).symm, fun m hm => absurd hm List.not_mem_nil⟩

/-- A decrement puts no trade into the buffer. -/
theorem trades_afterDecrement (r : Order) (t : Tape) : (afterDecrement r t).2.trades = t.trades := by
  unfold afterDecrement
  split
  · rfl
  · split <;> rfl

/-- What follows a fill puts no trade into the buffer. -/
theorem trades_afterFill (r : Order) (t : Tape) : (afterFill r t).2.trades = t.trades := by
  unfold afterFill
  split
  · rfl
  · split <;> rfl

/-- Self-trade prevention puts no trade into the buffer. -/
theorem trades_handleStp (inc rest : Order) (t : Tape) :
    (handleStp inc rest t).2.2.trades = t.trades := by
  unfold handleStp
  split
  · rfl
  · rfl
  · rfl
  · exact trades_afterDecrement _ _
  · rfl

/-- What a fill does where it does not trap. -/
theorem fill_eq {contra : Levels} {inc rest : Order} {t : Tape} {r : Order × Fate × Tape}
    (h : fill contra inc rest t = some r) :
    0 < min inc.remainingQty rest.visibleQty ∧
      r = ({ inc with remainingQty := inc.remainingQty - min inc.remainingQty rest.visibleQty },
        afterFill (filledBy rest (min inc.remainingQty rest.visibleQty))
          (t.record contra (min inc.remainingQty rest.visibleQty) inc rest)) := by
  unfold fill at h
  dsimp only at h
  split at h
  · exact ⟨‹_›, (Option.some.inj h).symm⟩
  · cases h

/-! ## What a match adds -/

/-- Trades are added, or no trade is and the entries are of none. -/
structure Adds (t t' : Tape) : Prop where
  grows : t.trades.length ≤ t'.trades.length
  plain : t'.trades.length ≤ t.trades.length → ∃ new, t'.log = t.log ++ new ∧ Plain new

/-- Nothing is added. -/
theorem Adds.refl (t : Tape) : Adds t t :=
  ⟨Nat.le_refl _, fun _ => ⟨[], (List.append_nil _).symm, fun _ hm => absurd hm List.not_mem_nil⟩⟩

/-- Two parts, of which neither may take a trade away. -/
theorem Adds.trans {t t' t'' : Tape} (h : Adds t t') (h' : Adds t' t'') : Adds t t'' where
  grows := h.grows.trans h'.grows
  plain hlen := by
    obtain ⟨new, he, hn⟩ := h.plain (h'.grows.trans hlen)
    obtain ⟨new', he', hn'⟩ := h'.plain (hlen.trans h.grows)
    exact ⟨new ++ new', by rw [he', he, List.append_assoc], hn.append hn'⟩

/-- Self-trade prevention adds no trade. -/
theorem adds_handleStp (inc r : Order) (t : Tape) : Adds t (handleStp inc r t).2.2 where
  grows := by rw [trades_handleStp]
  plain _ := plain_handleStp inc r t

/-- A fill adds a trade. -/
theorem length_trades_fill {contra : Levels} {inc rest : Order} {t : Tape} {r : Order × Fate × Tape}
    (h : fill contra inc rest t = some r) : r.2.2.trades.length = t.trades.length + 1 := by
  rw [(fill_eq h).2]
  dsimp only
  rw [trades_afterFill]
  exact List.length_append

/-- A fill adds its trade. -/
theorem adds_fill {contra : Levels} {inc rest : Order} {t : Tape} {r : Order × Fate × Tape}
    (h : fill contra inc rest t = some r) : Adds t r.2.2 where
  grows := by
    rw [length_trades_fill h]
    exact Nat.le_succ _
  plain hlen := by
    rw [length_trades_fill h] at hlen
    exact absurd hlen (Nat.not_succ_le_self _)

/-- The loop in one queue, turn by turn. -/
theorem adds_matchQueue {p : ℤ} {m : Levels} : ∀ n inc q t inc' q' t' ret,
    matchQueue p m n inc q t = some (inc', q', t', ret) → Adds t t' := by
  intro n
  induction n with
  | zero =>
    intro inc q t inc' q' t' ret h
    unfold matchQueue at h
    cases h
  | succ n ih =>
    intro inc q t inc' q' t' ret h
    unfold matchQueue at h
    split at h
    · cases q with
      | nil =>
        simp only [Option.some.injEq, Prod.mk.injEq] at h
        obtain ⟨-, -, rfl, -⟩ := h
        exact .refl t
      | cons rest q =>
        dsimp only at h
        split at h
        · split at h
          · simp only [Option.some.injEq, Prod.mk.injEq] at h
            obtain ⟨-, -, rfl, -⟩ := h
            exact adds_handleStp inc rest t
          · exact (adds_handleStp inc rest t).trans (ih _ _ _ _ _ _ _ h)
        · cases hfill : fill ((p, rest :: q) :: m) inc rest t with
          | none =>
            rw [hfill] at h
            cases h
          | some r =>
            rw [hfill] at h
            exact (adds_fill hfill).trans (ih _ _ _ _ _ _ _ h)
    · simp only [Option.some.injEq, Prod.mk.injEq] at h
      obtain ⟨-, -, rfl, -⟩ := h
      exact .refl t

/-- The loop over the levels, queue by queue. -/
theorem adds_matchLevels : ∀ m inc t inc' m' t',
    matchLevels m inc t = some (inc', m', t') → Adds t t' := by
  intro m
  induction m with
  | nil =>
    intro inc t inc' m' t' h
    unfold matchLevels at h
    simp only [Option.some.injEq, Prod.mk.injEq] at h
    obtain ⟨-, -, rfl⟩ := h
    exact .refl t
  | cons l m ih =>
    intro inc t inc' m' t' h
    obtain ⟨p, q⟩ := l
    unfold matchLevels at h
    split at h
    · cases hq : matchQueue p m (inc.remainingQty.toNat + q.length + 1) inc q t with
      | none =>
        rw [hq] at h
        cases h
      | some r =>
        obtain ⟨inc₁, q₁, t₁, ret⟩ := r
        have hadds := adds_matchQueue _ _ _ _ _ _ _ _ hq
        rw [hq] at h
        cases q₁ with
        | nil =>
          dsimp only at h
          split at h
          · simp only [Option.some.injEq, Prod.mk.injEq] at h
            obtain ⟨-, -, rfl⟩ := h
            exact hadds
          · exact hadds.trans (ih _ _ _ _ _ h)
        | cons o q₁ =>
          simp only [Option.some.injEq, Prod.mk.injEq] at h
          obtain ⟨-, -, rfl⟩ := h
          exact hadds
    · simp only [Option.some.injEq, Prod.mk.injEq] at h
      obtain ⟨-, -, rfl⟩ := h
      exact .refl t

end Flat

end MatchingEngine.Cpp
