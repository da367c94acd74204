import MatchingEngine.Book.Step
import Mathlib.Algebra.BigOperators.Group.List.Basic

/-!
# The ledger of a book

Where the quantity of an order goes. A request writes an entry for every order that it meets: a
trade, a decrement, or a cancellation. `Accounts` says what the entries of one request say of the
orders that it has met and of its own quantity, and `spent` adds up what the entries take from an
order on either side of them.
-/

namespace MatchingEngine

open Contract

/-- An entry of the ledger. -/
inductive Entry where
  /-- An order was accepted. -/
  | accepted (id qty : UInt64)
  | trade (t : TradeRow)
  /-- Self-trade prevention took `qty` from both orders. -/
  | decrement (maker taker qty : UInt64)
  /-- Self-trade prevention took the order off the book. -/
  | cancelled (maker : UInt64)
  deriving DecidableEq, Repr

namespace Entry

/-- What an entry takes from the order `id`. -/
def amount (id : UInt64) : Entry → ℕ
  | accepted _ _ => 0
  | trade t => if t.maker = id ∨ t.taker = id then t.qty.toNat else 0
  | decrement maker taker qty => if maker = id ∨ taker = id then qty.toNat else 0
  | cancelled _ => 0

/-- The trade that an entry reports. -/
def trade? : Entry → Option TradeRow
  | trade t => some t
  | _ => none

/-- The entry is one of the request `r` with an order of `os`, of the kind that self-trade
prevention allows for that order. -/
def Of (r : Request) (os : List OrderRow) : Entry → Prop
  | accepted _ _ => False
  | trade t => t.taker = r.id ∧ ∃ p ∈ os, p.id = t.maker ∧ r.prevention p = .none
  | decrement maker taker _ => taker = r.id ∧ ∃ p ∈ os, p.id = maker ∧ r.prevention p = .decrement
  | cancelled maker => ∃ p ∈ os, p.id = maker ∧
      (r.prevention p = .cancelOld ∨ r.prevention p = .cancelBoth)

/-- The entry takes `qty` from the order `p` and from the request `r`. -/
def Reduces (r : Request) (p : OrderRow) (qty : UInt64) (e : Entry) : Prop :=
  (∃ price, e = trade ⟨p.id, r.id, price, qty⟩) ∧ r.prevention p = .none ∨
    e = decrement p.id r.id qty ∧ r.prevention p = .decrement

namespace Reduces

variable {r : Request} {p : OrderRow} {qty : UInt64} {e : Entry}

/-- The entry is of the two orders. -/
theorem of (h : e.Reduces r p qty) : e.Of r [p] := by
  rcases h with ⟨⟨price, rfl⟩, hp⟩ | ⟨rfl, hp⟩
  · exact ⟨rfl, p, List.mem_cons_self, rfl, hp⟩
  · exact ⟨rfl, p, List.mem_cons_self, rfl, hp⟩

/-- The maker spends the quantity. -/
theorem maker (h : e.Reduces r p qty) : e.amount p.id = qty.toNat := by
  rcases h with ⟨⟨price, rfl⟩, -⟩ | ⟨rfl, -⟩ <;> exact if_pos (.inl rfl)

/-- The taker spends the quantity. -/
theorem taker (h : e.Reduces r p qty) : e.amount r.id = qty.toNat := by
  rcases h with ⟨⟨price, rfl⟩, -⟩ | ⟨rfl, -⟩ <;> exact if_pos (.inr rfl)

/-- A reduction is no cancellation. -/
theorem ne_cancelled (h : e.Reduces r p qty) {id : UInt64} : e ≠ cancelled id := by
  rcases h with ⟨⟨price, rfl⟩, -⟩ | ⟨rfl, -⟩ <;> exact nofun

end Reduces

end Entry

/-- What the entries take from the order `id`. -/
def spent (id : UInt64) (es : List Entry) : ℕ := (es.map (Entry.amount id)).sum

/-- Nobody has spent anything. -/
@[simp] theorem spent_nil (id : UInt64) : spent id [] = 0 := rfl

/-- What an order spends by the first entry and by those behind it. -/
@[simp] theorem spent_cons (id : UInt64) (e : Entry) (es : List Entry) :
    spent id (e :: es) = e.amount id + spent id es := by
  unfold spent
  rw [List.map_cons, List.sum_cons]

/-- What an order spends in two parts. -/
theorem spent_append (id : UInt64) (es es' : List Entry) :
    spent id (es ++ es') = spent id es + spent id es' := by
  unfold spent
  rw [List.map_append, List.sum_append]

/-- An entry of a match is one of a larger match. -/
theorem Entry.Of.mono {r : Request} {os os' : List OrderRow} (hsub : os ⊆ os') {e : Entry}
    (h : e.Of r os) : e.Of r os' := by
  cases e with
  | accepted => exact h
  | trade | decrement =>
    obtain ⟨htaker, p, hp, h⟩ := h
    exact ⟨htaker, p, hsub hp, h⟩
  | cancelled =>
    obtain ⟨p, hp, h⟩ := h
    exact ⟨p, hsub hp, h⟩

/-- Entries take nothing from an order that they do not name. -/
theorem spent_of_not_mem {r : Request} {os : List OrderRow} {es : List Entry} {id : UInt64}
    (h : ∀ e ∈ es, e.Of r os) (hid : id ∉ os.map OrderRow.id) (hr : id ≠ r.id) : spent id es = 0 := by
  have hnamed : ∀ maker, (∃ p ∈ os, p.id = maker) → maker ≠ id := by
    rintro _ ⟨p, hp, rfl⟩ rfl
    exact hid (List.mem_map_of_mem hp)
  induction es with
  | nil => rfl
  | cons e es ih =>
    rw [spent_cons, ih fun e he => h e (List.mem_cons_of_mem _ he), Nat.add_zero]
    have he := h e List.mem_cons_self
    cases e with
    | accepted | cancelled => rfl
    | trade t =>
      obtain ⟨htaker, p, hp, hmaker, -⟩ := he
      exact if_neg (not_or.mpr ⟨hnamed _ ⟨p, hp, hmaker⟩, fun hc => hr (hc.symm.trans htaker)⟩)
    | decrement maker taker qty =>
      obtain ⟨htaker, p, hp, hmaker, -⟩ := he
      exact if_neg (not_or.mpr ⟨hnamed _ ⟨p, hp, hmaker⟩, fun hc => hr (hc.symm.trans htaker)⟩)

/-- An order that entries do not name is not cancelled by them. -/
theorem not_cancelled_of_not_mem {r : Request} {os : List OrderRow} {es : List Entry} {id : UInt64}
    (h : ∀ e ∈ es, e.Of r os) (hid : id ∉ os.map OrderRow.id) : .cancelled id ∉ es := by
  intro he
  obtain ⟨p, hp, rfl, -⟩ := h _ he
  exact hid (List.mem_map_of_mem hp)

/-! ## The entries of one request -/

/-- The entries `es` account for what the request `r`, with the quantity `rem` left, does to the
queue `os`: an order is left unless it is cancelled or used up, reduced by what was taken from it,
and the request keeps `out` of its own quantity, unless self-trade prevention discards that. -/
structure Accounts (r : Request) (os left : List OrderRow) (es : List Entry) (rem out : ℕ) :
    Prop where
  named : ∀ e ∈ es, e.Of r os
  spent_le : ∀ p ∈ os, spent p.id es ≤ p.remaining.toNat
  mem_left : ∀ o, o ∈ left ↔ ∃ p ∈ os, .cancelled p.id ∉ es ∧ spent p.id es < p.remaining.toNat ∧
    o = { p with remaining := p.remaining - UInt64.ofNat (spent p.id es) }
  taker_le : spent r.id es + out ≤ rem
  taker : spent r.id es + out = rem ∨ out = 0 ∧ ∃ p ∈ os,
    r.prevention p = .cancelNew ∧ p ∈ left ∨ r.prevention p = .cancelBoth ∧ .cancelled p.id ∈ es

namespace Accounts

variable {r : Request} {os os' left left' : List OrderRow} {es es' : List Entry} {p : OrderRow}
  {rem mid out : ℕ}

/-- Nothing is done. -/
theorem refl (hpos : ∀ p ∈ os, 0 < p.remaining) : Accounts r os os [] rem rem where
  named := nofun
  spent_le _ _ := Nat.zero_le _
  mem_left o := by
    have hkeep : ∀ p : OrderRow, { p with remaining := p.remaining - UInt64.ofNat 0 } = p := by
      intro p
      rw [show UInt64.ofNat 0 = 0 from rfl, UInt64.sub_zero]
    constructor
    · exact fun ho => ⟨o, ho, List.not_mem_nil, UInt64.lt_iff_toNat_lt.mp (hpos o ho), (hkeep o).symm⟩
    · rintro ⟨p, hp, -, -, rfl⟩
      exact (hkeep p).symm ▸ hp
  taker_le := by rw [spent_nil, Nat.zero_add]
  taker := .inl (by rw [spent_nil, Nat.zero_add])

/-- The incoming order is discarded before it takes anything. -/
theorem discard (hpos : ∀ p ∈ os, 0 < p.remaining) (hp : p ∈ os) (hmode : r.prevention p = .cancelNew) :
    Accounts r os os [] rem 0 where
  __ := @refl r os 0 hpos
  taker_le := Nat.zero_le _
  taker := .inr ⟨rfl, p, hp, .inl ⟨hmode, hp⟩⟩

/-- One queue, and then another one. -/
theorem append (h : Accounts r os left es rem mid) (h' : Accounts r os' left' es' mid out)
    (hnd : ((os ++ os').map OrderRow.id).Nodup) (hid : r.id ∉ (os ++ os').map OrderRow.id) :
    Accounts r (os ++ os') (left ++ left') (es ++ es') rem out := by
  rw [List.map_append] at hnd hid
  have hdisj := (List.nodup_append.mp hnd).2.2
  have hne : ∀ p ∈ os ++ os', p.id ≠ r.id := fun p hp heq => hid (by
    rw [← List.map_append, ← heq]
    exact List.mem_map_of_mem hp)
  -- The entries of one queue do not name the orders of the other.
  have hleft : ∀ p ∈ os, p.id ∉ os'.map OrderRow.id := fun p hp hp' =>
    hdisj _ (List.mem_map_of_mem hp) _ hp' rfl
  have hright : ∀ p ∈ os', p.id ∉ os.map OrderRow.id := fun p hp hp' =>
    hdisj _ hp' _ (List.mem_map_of_mem hp) rfl
  have hspent : ∀ p ∈ os, spent p.id (es ++ es') = spent p.id es := fun p hp => by
    rw [spent_append, spent_of_not_mem h'.named (hleft p hp) (hne p (List.mem_append_left _ hp)),
      Nat.add_zero]
  have hspent' : ∀ p ∈ os', spent p.id (es ++ es') = spent p.id es' := fun p hp => by
    rw [spent_append, spent_of_not_mem h.named (hright p hp) (hne p (List.mem_append_right _ hp)),
      Nat.zero_add]
  refine ⟨fun e he => ?_, fun p hp => ?_, fun o => ?_, ?_, ?_⟩
  · rcases List.mem_append.mp he with he | he
    · exact (h.named e he).mono (List.subset_append_left _ _)
    · exact (h'.named e he).mono (List.subset_append_right _ _)
  · rcases List.mem_append.mp hp with hp | hp
    · rw [hspent p hp]
      exact h.spent_le p hp
    · rw [hspent' p hp]
      exact h'.spent_le p hp
  · rw [List.mem_append, h.mem_left, h'.mem_left]
    constructor
    · rintro (⟨p, hp, hc, hlt, rfl⟩ | ⟨p, hp, hc, hlt, rfl⟩)
      · rw [← hspent p hp] at hlt ⊢
        refine ⟨p, List.mem_append_left _ hp, ?_, hlt, rfl⟩
        rw [List.mem_append, not_or]
        exact ⟨hc, not_cancelled_of_not_mem h'.named (hleft p hp)⟩
      · rw [← hspent' p hp] at hlt ⊢
        refine ⟨p, List.mem_append_right _ hp, ?_, hlt, rfl⟩
        rw [List.mem_append, not_or]
        exact ⟨not_cancelled_of_not_mem h.named (hright p hp), hc⟩
    · rintro ⟨p, hp, hc, hlt, rfl⟩
      rw [List.mem_append, not_or] at hc
      rcases List.mem_append.mp hp with hp | hp
      · rw [hspent p hp] at hlt ⊢
        exact .inl ⟨p, hp, hc.1, hlt, rfl⟩
      · rw [hspent' p hp] at hlt ⊢
        exact .inr ⟨p, hp, hc.2, hlt, rfl⟩
  · have hle := h.taker_le
    have hle' := h'.taker_le
    rw [spent_append]
    omega
  · rw [spent_append]
    rcases h.taker with heq | ⟨rfl, p, hp, hmode⟩
    · rcases h'.taker with heq' | ⟨h0, p, hp, hmode⟩
      · exact .inl (by omega)
      · refine .inr ⟨h0, p, List.mem_append_right _ hp, hmode.imp ?_ ?_⟩
        · exact fun hm => ⟨hm.1, List.mem_append_right _ hm.2⟩
        · exact fun hm => ⟨hm.1, List.mem_append_right _ hm.2⟩
    · have hle' := h'.taker_le
      refine .inr ⟨by omega, p, List.mem_append_left _ hp, hmode.imp ?_ ?_⟩
      · exact fun hm => ⟨hm.1, List.mem_append_left _ hm.2⟩
      · exact fun hm => ⟨hm.1, List.mem_append_left _ hm.2⟩

/-- Orders behind those that are met. -/
theorem frame (h : Accounts r os left es rem out) (hpos : ∀ p ∈ os', 0 < p.remaining)
    (hnd : ((os ++ os').map OrderRow.id).Nodup) (hid : r.id ∉ (os ++ os').map OrderRow.id) :
    Accounts r (os ++ os') (left ++ os') es rem out := by
  have happend := h.append (refl hpos) hnd hid
  rwa [List.append_nil] at happend

/-- Only the orders matter, not their order. -/
theorem congr (h : Accounts r os left es rem out) (hos : ∀ p, p ∈ os' ↔ p ∈ os)
    (hleft : ∀ p, p ∈ left' ↔ p ∈ left) : Accounts r os' left' es rem out where
  named e he := (h.named e he).mono fun p hp => (hos p).mpr hp
  spent_le p hp := h.spent_le p ((hos p).mp hp)
  mem_left o := by
    rw [hleft, h.mem_left]
    exact exists_congr fun p => and_congr_left fun _ => (hos p).symm
  taker_le := h.taker_le
  taker := h.taker.imp_right fun ⟨h0, p, hp, hmode⟩ =>
    ⟨h0, p, (hos p).mpr hp, hmode.imp_left fun hm => ⟨hm.1, (hleft p).mpr hm.2⟩⟩

/-- The orders that are left. -/
theorem mem_ids (h : Accounts r os left es rem out) (hnd : (os.map OrderRow.id).Nodup) (hp : p ∈ os) :
    p.id ∈ left.map OrderRow.id ↔ .cancelled p.id ∉ es ∧ spent p.id es < p.remaining.toNat := by
  rw [List.mem_map]
  constructor
  · rintro ⟨o, ho, hid⟩
    obtain ⟨p', hp', hc, hlt, rfl⟩ := (h.mem_left o).mp ho
    obtain rfl : p' = p := List.inj_on_of_nodup_map hnd hp' hp hid
    exact ⟨hc, hlt⟩
  · rintro ⟨hc, hlt⟩
    exact ⟨_, (h.mem_left _).mpr ⟨p, hp, hc, hlt, rfl⟩, rfl⟩

/-! ## One order met -/

section One

variable {q : UInt64}

/-- Both orders are reduced by `q`, and the one that rests stays unless that uses it up. -/
theorem reduce {e : Entry} (he : e.Reduces r p q) (hq : q ≤ p.remaining) (hrem : q.toNat ≤ rem) :
    Accounts r [p] (if q < p.remaining then [{ p with remaining := p.remaining - q }] else []) [e] rem
      (rem - q.toNat) where
  named e' he' := by
    rw [List.mem_singleton.mp he']
    exact he.of
  spent_le p' hp' := by
    rw [List.mem_singleton.mp hp', spent_cons, spent_nil, he.maker, Nat.add_zero]
    exact UInt64.le_iff_toNat_le.mp hq
  mem_left o := by
    have hspent : spent p.id [e] = q.toNat := by rw [spent_cons, spent_nil, he.maker, Nat.add_zero]
    -- The order stays exactly if the entry does not use it up.
    have hiff : q < p.remaining ↔ spent p.id [e] < p.remaining.toNat := by
      rw [hspent, UInt64.lt_iff_toNat_lt]
    have hsub : UInt64.ofNat (spent p.id [e]) = q := by rw [hspent, UInt64.ofNat_toNat]
    constructor
    · intro ho
      by_cases hlt : q < p.remaining
      · rw [if_pos hlt] at ho
        refine ⟨p, List.mem_cons_self, ?_, hiff.mp hlt, ?_⟩
        · exact fun hc => he.ne_cancelled (List.mem_singleton.mp hc).symm
        · rw [hsub]
          exact List.mem_singleton.mp ho
      · rw [if_neg hlt] at ho
        exact absurd ho List.not_mem_nil
    · rintro ⟨p', hp', -, hlt, rfl⟩
      obtain rfl := List.mem_singleton.mp hp'
      rw [if_pos (hiff.mpr hlt), hsub]
      exact List.mem_cons_self
  taker_le := by
    rw [spent_cons, spent_nil, he.taker]
    omega
  taker := .inl (by
    rw [spent_cons, spent_nil, he.taker]
    omega)

/-- The order that rests is cancelled. -/
theorem cancel (hmode : r.prevention p = .cancelOld ∨ r.prevention p = .cancelBoth)
    (hout : out = rem ∨ out = 0 ∧ r.prevention p = .cancelBoth) :
    Accounts r [p] [] [.cancelled p.id] rem out where
  named e he := by
    rw [List.mem_singleton.mp he]
    exact ⟨p, List.mem_cons_self, rfl, hmode⟩
  spent_le p' _ := Nat.zero_le _
  mem_left o := by
    refine iff_of_false List.not_mem_nil ?_
    rintro ⟨p', hp', hc, -⟩
    rw [List.mem_singleton.mp hp'] at hc
    exact hc List.mem_cons_self
  taker_le := by
    rcases hout with rfl | ⟨rfl, -⟩ <;> simp [Entry.amount]
  taker := by
    rcases hout with rfl | ⟨rfl, hboth⟩
    · exact .inl (by simp [Entry.amount])
    · exact .inr ⟨rfl, p, List.mem_cons_self, .inr ⟨hboth, List.mem_cons_self⟩⟩

end One

end Accounts

/-! ## The entries of matching -/

namespace Request

variable (r : Request)

/-- The entries of `matchOrders`. -/
def entriesOrders (price : UInt64) : List OrderRow → UInt64 → List Entry
  | [], _ => []
  | p :: ps, rem =>
    if rem = 0 then []
    else
      match r.prevention p with
      | .cancelNew => []
      | .cancelOld => .cancelled p.id :: entriesOrders price ps rem
      | .cancelBoth => [.cancelled p.id]
      | .decrement =>
        if p.remaining ≤ rem then
          .decrement p.id r.id p.remaining :: entriesOrders price ps (rem - p.remaining)
        else [.decrement p.id r.id rem]
      | .none =>
        if p.remaining ≤ rem then
          .trade ⟨p.id, r.id, price, p.remaining⟩ :: entriesOrders price ps (rem - p.remaining)
        else [.trade ⟨p.id, r.id, price, rem⟩]

/-- The entries of `matchLevels`. -/
def entriesLevels : List Level → UInt64 → List Entry
  | [], _ => []
  | l :: ls, rem =>
    if rem = 0 ∨ ¬ r.crosses l.price then []
    else
      let o := r.matchOrders l.price l.orders rem
      r.entriesOrders l.price l.orders rem ++ if o.left = [] then entriesLevels ls o.rem else []

variable {r} {price : UInt64}

/-- The trades among the entries are those that matching reports. -/
theorem entriesOrders_trades (os : List OrderRow) (rem : UInt64) :
    (r.entriesOrders price os rem).filterMap Entry.trade? = (r.matchOrders price os rem).trades := by
  fun_induction matchOrders r price os rem with
  | case1 => rfl
  | case2 => rw [entriesOrders, if_pos rfl]; rfl
  | case3 p ps rem h0 hp => rw [entriesOrders, if_neg h0, hp]; rfl
  -- A cancellation is no trade, and neither is a decrement.
  | case4 p ps rem h0 hp ih =>
    rw [entriesOrders, if_neg h0, hp]
    exact ih
  | case5 p ps rem h0 hp => rw [entriesOrders, if_neg h0, hp]; rfl
  | case6 p ps rem h0 hp hle ih =>
    simp only [entriesOrders, if_neg h0, hp, if_pos hle]
    exact ih
  | case7 p ps rem h0 hp hle =>
    simp only [entriesOrders, if_neg h0, hp, if_neg hle]
    rfl
  -- A trade is the entry itself.
  | case8 p ps rem h0 hp hle ih =>
    simp only [entriesOrders, if_neg h0, hp, if_pos hle]
    exact congrArg _ ih
  | case9 p ps rem h0 hp hle =>
    simp only [entriesOrders, if_neg h0, hp, if_neg hle]
    rfl

/-- The trades of the ledger of a match are the trades of the match. -/
theorem entriesLevels_trades (ls : List Level) (rem : UInt64) :
    (r.entriesLevels ls rem).filterMap Entry.trade? = (r.matchLevels ls rem).trades := by
  fun_induction matchLevels r ls rem with
  | case1 => rfl
  | case2 l ls rem h => rw [entriesLevels, if_pos h]; rfl
  | case3 l ls rem h o hnil ih =>
    rw [entriesLevels, if_neg h, List.filterMap_append, entriesOrders_trades]
    exact congrArg _ ((congrArg _ (if_pos hnil)).trans ih)
  | case4 l ls rem h o hne =>
    rw [entriesLevels, if_neg h, List.filterMap_append, entriesOrders_trades]
    exact (congrArg _ (congrArg _ (if_neg hne))).trans (List.append_nil _)

/-- A reduction of an order that is used up. -/
theorem accounts_used {p : OrderRow} {rem : UInt64} {e : Entry} (he : e.Reduces r p p.remaining)
    (hle : p.remaining ≤ rem) :
    Accounts r [p] [] [e] rem.toNat (rem - p.remaining).toNat := by
  have h := Accounts.reduce he (UInt64.le_refl _) (UInt64.le_iff_toNat_le.mp hle)
  rw [if_neg (UInt64.lt_irrefl _)] at h
  rwa [UInt64.toNat_sub_of_le _ _ hle]

/-- A reduction of an order that is not used up. -/
theorem accounts_part {p : OrderRow} {rem : UInt64} {e : Entry} (he : e.Reduces r p rem)
    (hlt : ¬ p.remaining ≤ rem) :
    Accounts r [p] [{ p with remaining := p.remaining - rem }] [e] rem.toNat (0 : UInt64).toNat := by
  have hlt := UInt64.not_le.mp hlt
  have h := Accounts.reduce he (UInt64.le_of_lt hlt) le_rfl
  rw [if_pos hlt] at h
  rwa [Nat.sub_self] at h

/-- The entries of one queue account for what matching does to it. -/
theorem accounts_orders {os : List OrderRow} (price : UInt64) (hnd : (os.map OrderRow.id).Nodup)
    (hid : r.id ∉ os.map OrderRow.id) (hpos : ∀ p ∈ os, 0 < p.remaining) (rem : UInt64) :
    Accounts r os (r.matchOrders price os rem).left (r.entriesOrders price os rem) rem.toNat
      (r.matchOrders price os rem).rem.toNat := by
  fun_induction matchOrders r price os rem with
  | case1 => exact .refl hpos
  | case2 => rw [entriesOrders, if_pos rfl]; exact .refl hpos
  | case3 p ps rem h0 hp =>
    rw [entriesOrders, if_neg h0, hp]
    exact .discard hpos List.mem_cons_self hp
  -- One mode cancels the resting order, and the loop goes on.
  | case4 p ps rem h0 hp ih =>
    rw [entriesOrders, if_neg h0, hp]
    have hrest := ih (List.nodup_cons.mp hnd).2 (fun h => hid (List.mem_cons_of_mem _ h))
      fun q hq => hpos q (List.mem_cons_of_mem _ hq)
    exact (Accounts.cancel (.inl hp) (.inl rfl)).append hrest hnd hid
  -- The other cancels it too, but the loop stops.
  | case5 p ps rem h0 hp =>
    rw [entriesOrders, if_neg h0, hp]
    exact (Accounts.cancel (.inr hp) (.inr ⟨rfl, hp⟩)).frame
      (fun q hq => hpos q (List.mem_cons_of_mem _ hq)) hnd hid
  -- A decrement, of the whole order or of a part.
  | case6 p ps rem h0 hp hle ih =>
    simp only [entriesOrders, if_neg h0, hp, if_pos hle]
    have hrest := ih (List.nodup_cons.mp hnd).2 (fun h => hid (List.mem_cons_of_mem _ h))
      fun q hq => hpos q (List.mem_cons_of_mem _ hq)
    exact (accounts_used (.inr ⟨rfl, hp⟩) hle).append hrest hnd hid
  | case7 p ps rem h0 hp hle =>
    simp only [entriesOrders, if_neg h0, hp, if_neg hle]
    exact (accounts_part (.inr ⟨rfl, hp⟩) hle).frame
      (fun q hq => hpos q (List.mem_cons_of_mem _ hq)) hnd hid
  -- A trade, of the whole order or of a part.
  | case8 p ps rem h0 hp hle ih =>
    simp only [entriesOrders, if_neg h0, hp, if_pos hle]
    have hrest := ih (List.nodup_cons.mp hnd).2 (fun h => hid (List.mem_cons_of_mem _ h))
      fun q hq => hpos q (List.mem_cons_of_mem _ hq)
    exact (accounts_used (.inl ⟨⟨_, rfl⟩, hp⟩) hle).append hrest hnd hid
  | case9 p ps rem h0 hp hle =>
    simp only [entriesOrders, if_neg h0, hp, if_neg hle]
    exact (accounts_part (.inl ⟨⟨_, rfl⟩, hp⟩) hle).frame
      (fun q hq => hpos q (List.mem_cons_of_mem _ hq)) hnd hid

/-- The entries of a request account for what matching does to the other side. -/
theorem accounts_levels {ls : List Level} (hnd : ((ls.flatMap Level.orders).map OrderRow.id).Nodup)
    (hid : r.id ∉ (ls.flatMap Level.orders).map OrderRow.id)
    (hpos : ∀ p ∈ ls.flatMap Level.orders, 0 < p.remaining) (rem : UInt64) :
    Accounts r (ls.flatMap Level.orders) ((r.matchLevels ls rem).left.flatMap Level.orders)
      (r.entriesLevels ls rem) rem.toNat (r.matchLevels ls rem).rem.toNat := by
  fun_induction matchLevels r ls rem with
  | case1 => exact .refl hpos
  | case2 l ls rem h => rw [entriesLevels, if_pos h]; exact .refl hpos
  -- The level is used up, and the next one follows.
  | case3 l ls rem h o hnil ih =>
    rw [List.flatMap_cons] at hnd hid hpos ⊢
    have hnd' := List.nodup_append.mp (List.map_append ▸ hnd)
    have hid' := not_or.mp fun hc => hid (List.map_append ▸ List.mem_append.mpr hc)
    have hhead : Accounts r l.orders o.left _ rem.toNat o.rem.toNat :=
      accounts_orders l.price hnd'.1 hid'.1 (fun p hp => hpos p (List.mem_append_left _ hp))
        rem
    have hrest := ih hnd'.2.1 hid'.2 fun p hp => hpos p (List.mem_append_right _ hp)
    rw [entriesLevels, if_neg h]
    dsimp only
    rw [if_pos hnil]
    rw [hnil] at hhead
    exact hhead.append hrest hnd hid
  -- Orders are left, and the levels behind are as they were.
  | case4 l ls rem h o hne =>
    rw [List.flatMap_cons] at hnd hid hpos ⊢
    have hnd' := List.nodup_append.mp (List.map_append ▸ hnd)
    have hid' := not_or.mp fun hc => hid (List.map_append ▸ List.mem_append.mpr hc)
    have hhead : Accounts r l.orders o.left _ rem.toNat o.rem.toNat :=
      accounts_orders l.price hnd'.1 hid'.1 (fun p hp => hpos p (List.mem_append_left _ hp))
        rem
    rw [entriesLevels, if_neg h]
    dsimp only
    rw [if_neg hne, List.append_nil]
    exact hhead.frame (fun p hp => hpos p (List.mem_append_right _ hp)) hnd hid

end Request

/-! ## An accepted request -/

/-- What becomes of the remainder `rem` of the request `r`, which finds the book `b`, writes the
entries `es`, and leaves the book `b'`. -/
inductive Fate (r : Request) (b b' : Book) (es : List Entry) (rem : ℕ) : Prop where
  | filled (hrem : rem = 0) (hid : r.id ∉ b'.ids)
  | rests (hrem : 0 < rem) (hrests : r.rests) (hmem : r.row (UInt64.ofNat rem) ∈ b'.orders)
  | dropped (hrem : 0 < rem) (hrests : ¬ r.rests) (hid : r.id ∉ b'.ids)
  /-- Self-trade prevention discards the remainder when the order meets `p`. -/
  | discarded (hrem : 0 < rem) (p : OrderRow) (hp : p ∈ b.orders)
      (hmode : r.prevention p = .cancelNew ∧ p.id ∈ b'.ids ∨
        r.prevention p = .cancelBoth ∧ .cancelled p.id ∈ es) (hid : r.id ∉ b'.ids)

/-- The request `r` takes the book `b` to `b'`, and the entries `es` and the remainder `rem` account
for its quantity and for that of every order. -/
structure Conserves (r : Request) (b b' : Book) (es : List Entry) (rem : ℕ) : Prop where
  named : ∀ e ∈ es, e.Of r b.orders
  quantity : r.qty.toNat = spent r.id es + rem
  fate : Fate r b b' es rem
  spent_le : ∀ p ∈ b.orders, spent p.id es ≤ p.remaining.toNat
  /-- An order leaves the book exactly when it is cancelled or used up. -/
  leaves : ∀ p ∈ b.orders, p.id ∉ b'.ids ↔
    .cancelled p.id ∈ es ∨ spent p.id es = p.remaining.toNat
  /-- An order that stays is reduced by what was taken from it, and nothing else of it changes. -/
  stays : ∀ p ∈ b.orders, p.id ∈ b'.ids →
    { p with remaining := p.remaining - UInt64.ofNat (spent p.id es) } ∈ b'.orders
  /-- No other order is on the book. -/
  only : ∀ o ∈ b'.orders, o = r.row (UInt64.ofNat rem) ∨
    ∃ p ∈ b.orders, o = { p with remaining := p.remaining - UInt64.ofNat (spent p.id es) }

namespace Book

variable {b : Book} {r : Request}

/-- The entries of a request on a book. -/
def entries (b : Book) (r : Request) : List Entry := r.entriesLevels (b.side r.side.other) r.qty

/-- The trades of the ledger of a request are the trades of the request. -/
theorem entries_trades (b : Book) (r : Request) :
    (b.entries r).filterMap Entry.trade? = (b.place r).trades := by
  have hplace : (b.place r).trades = (b.matched r).trades := by
    unfold place
    dsimp only
    split <;> rfl
  rw [hplace]
  exact r.entriesLevels_trades _ _

/-- The entries of a request account for what matching does to the book. -/
theorem Inv.accounts (h : b.Inv) (hid : r.id ∉ b.ids) : Accounts r b.orders
    (b.matched r).left.orders (b.entries r) r.qty.toNat (b.matched r).rem.toNat := by
  have hperm := b.orders_perm r.side.other
  have hnd := (hperm.map OrderRow.id).nodup_iff.mp h.ids
  have hid' := fun hc => hid ((hperm.map OrderRow.id).mem_iff.mpr hc)
  have hpos : ∀ t, ∀ p ∈ (b.side t).flatMap Level.orders, 0 < p.remaining := by
    intro t p hp
    obtain ⟨l, hl, hp⟩ := List.mem_flatMap.mp hp
    exact ((h.side t).row l hl p hp).pos
  have hnd' := List.nodup_append.mp (List.map_append ▸ hnd)
  have hcontra := Request.accounts_levels (r := r) hnd'.1
    (fun hc => hid' (List.map_append ▸ List.mem_append_left _ hc)) (hpos r.side.other) r.qty
  refine (hcontra.frame (hpos r.side.other.other) hnd hid').congr (fun p => hperm.mem_iff) fun p => ?_
  rw [((b.matched r).left.orders_perm r.side.other).mem_iff]
  unfold Book.matched Book.matchedFrom
  rw [side_setSide_self, side_setSide_other]

/-- The fields of `Conserves` that do not depend on the remainder. -/
theorem Inv.conserves (h : b.Inv) (hid : r.id ∉ b.ids) {b' : Book} {rem : ℕ}
    (hb' : ∀ o, o ∈ b'.orders ↔ o ∈ (b.matched r).left.orders ∨
      o = r.row (UInt64.ofNat rem) ∧ r.id ∈ b'.ids)
    (hquantity : r.qty.toNat = spent r.id (b.entries r) + rem) (hfate : Fate r b b' (b.entries r) rem) :
    Conserves r b b' (b.entries r) rem := by
  have hacc := h.accounts hid
  -- The request has a new id, so it is none of the old orders.
  have hids : ∀ p ∈ b.orders, p.id ∈ b'.ids ↔ p.id ∈ (b.matched r).left.ids := by
    intro p hp
    have hne : r.id ≠ p.id := fun heq => hid (heq ▸ List.mem_map_of_mem hp)
    unfold Book.ids
    rw [List.mem_map, List.mem_map]
    refine exists_congr fun o => and_congr_left fun heq => (hb' o).trans (or_iff_left ?_)
    rintro ⟨rfl, -⟩
    exact hne heq
  refine ⟨hacc.named, hquantity, hfate, hacc.spent_le, fun p hp => ?_, fun p hp hin => ?_,
    fun o ho => ?_⟩
  · have hle := hacc.spent_le p hp
    rw [hids p hp]
    refine (not_congr (hacc.mem_ids h.ids hp)).trans ?_
    rw [not_and_or, not_not]
    exact or_congr_right ⟨fun hlt => le_antisymm hle (not_lt.mp hlt), fun heq => heq.not_lt⟩
  · obtain ⟨hc, hlt⟩ := (hacc.mem_ids h.ids hp).mp ((hids p hp).mp hin)
    exact (hb' _).mpr (.inl ((hacc.mem_left _).mpr ⟨p, hp, hc, hlt, rfl⟩))
  · rcases (hb' o).mp ho with ho | ⟨ho, -⟩
    · obtain ⟨p, hp, -, -, rfl⟩ := (hacc.mem_left o).mp ho
      exact .inr ⟨p, hp, rfl⟩
    · exact .inl ho

/-- A request that is placed conserves quantity. -/
theorem Inv.conserves_place (h : b.Inv) (hid : r.id ∉ b.ids) :
    ∃ rem, Conserves r b (b.place r).left (b.entries r) rem := by
  have hacc := h.accounts hid
  have hnot : r.id ∉ (b.matched r).left.ids := fun hc => hid (matched_ids hc)
  by_cases hrests : (b.matched r).rem ≠ 0 ∧ r.rests
  · -- The remainder rests.
    have hpos : 0 < (b.matched r).rem.toNat := UInt64.lt_iff_toNat_lt.mp
      (UInt64.pos_iff_ne_zero.mpr hrests.1)
    have hquantity := hacc.taker.resolve_right fun h0 => hpos.ne' h0.1
    have hmem : ∀ o, o ∈ (b.place r).left.orders ↔
        o = r.row (b.matched r).rem ∨ o ∈ (b.matched r).left.orders := fun o => by
      rw [place_of_rests hrests]
      exact (rest_orders ..).mem_iff.trans List.mem_cons
    have hrow : r.row (b.matched r).rem ∈ (b.place r).left.orders := (hmem _).mpr (.inl rfl)
    have hin : r.id ∈ (b.place r).left.ids := List.mem_map_of_mem hrow
    refine ⟨(b.matched r).rem.toNat, h.conserves hid (fun o => ?_) hquantity.symm ?_⟩
    · rw [UInt64.ofNat_toNat, hmem, and_iff_left hin]
      exact Or.comm
    · refine .rests hpos hrests.2 ?_
      rw [UInt64.ofNat_toNat]
      exact hrow
  · -- Nothing rests.
    rw [place_of_not_rests hrests]
    have hmem : ∀ rem o, o ∈ (b.matched r).left.orders ↔ o ∈ (b.matched r).left.orders ∨
        o = r.row (UInt64.ofNat rem) ∧ r.id ∈ (b.matched r).left.ids := fun rem o =>
      (or_iff_left fun hc => hnot hc.2).symm
    rcases hacc.taker with hquantity | ⟨h0, p, hp, hmode⟩
    · refine ⟨_, h.conserves hid (hmem _) hquantity.symm ?_⟩
      -- Filled, or dropped because it may not rest.
      by_cases hrem : (b.matched r).rem = 0
      · exact .filled (by rw [hrem]; rfl) hnot
      · exact .dropped (UInt64.lt_iff_toNat_lt.mp (UInt64.pos_iff_ne_zero.mpr hrem))
          (fun hc => hrests ⟨hrem, hc⟩) hnot
    · have hle := hacc.taker_le
      refine ⟨r.qty.toNat - spent r.id (b.entries r), h.conserves hid (hmem _) (by omega) ?_⟩
      -- Discarded by self-trade prevention, with what then remained.
      by_cases hrem : r.qty.toNat - spent r.id (b.entries r) = 0
      · exact .filled hrem hnot
      · refine .discarded (Nat.pos_of_ne_zero hrem) p hp (hmode.imp_left fun hm => ⟨hm.1, ?_⟩) hnot
        exact List.mem_map_of_mem hm.2

end Book

end MatchingEngine
