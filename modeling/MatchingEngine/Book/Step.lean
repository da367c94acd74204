import MatchingEngine.Book.Invariant

/-!
# The steps of an engine on its book

How a valid request ends when the store may be full (`Book.Ends`), and what the generated engine
makes of any request or cancellation (`Book.processed`, `Book.cancelled`).

A request that passes the checks ends in one of three ways: a post-only one that crosses is refused,
one whose remainder finds no room is refused after it was matched, and any other is placed. Each
leaves a book with the invariant (`Ends.inv`) and no more orders than rows (`Ends.orders_le`). Room
is wanting only where nothing was matched (`Inv.matched_of_full`), since a request that matches and
leaves a remainder uses up a level with its orders, and frees their rows.
-/

namespace MatchingEngine

open Contract

/-- How matching a valid request ends, when no resting order has its id: the code, the book, and the
trades. -/
inductive Book.Ends (b : Book) (r : Request) (caps : Caps) : UInt64 → Book → List TradeRow → Prop
    where
  | postOnly (h : r.otype = .postOnly ∧ b.crossing r) : b.Ends r caps 6 b []
  | full (h : ¬ (r.otype = .postOnly ∧ b.crossing r)) (hrest : (b.matched r).rem ≠ 0 ∧ r.rests)
      (hroom : ¬ (b.matched r).left.HasRoom r caps) :
      b.Ends r caps 5 (b.matched r).left (b.matched r).trades
  | placed (h : ¬ (r.otype = .postOnly ∧ b.crossing r))
      (hroom : (b.matched r).rem ≠ 0 ∧ r.rests → (b.matched r).left.HasRoom r caps) :
      b.Ends r caps 0 (b.place r).left (b.place r).trades

namespace Book

variable {b b' : Book} {r : Request} {caps : Caps} {c : UInt64} {ts : List TradeRow}

/-- However a request ends, it keeps the invariant. -/
theorem Ends.inv (h : b.Ends r caps c b' ts) (hb : b.Inv) (hid : r.id ∉ b.ids) : b'.Inv := by
  cases h with
  | postOnly => exact hb
  | full => exact hb.matched
  | placed => exact hb.place hid

/-- Matching leaves no more orders than there were. -/
theorem matched_orders_le : (b.matched r).left.orders.length ≤ b.orders.length := by
  have hcut := b.matched_cut r
  have hle := hcut.ids.length_le
  rw [List.length_map, List.length_map] at hle
  rw [length_orders _ r.side.other, b.length_orders r.side.other]
  unfold Book.matched Book.matchedFrom
  rw [side_setSide_self, side_setSide_other]
  exact Nat.add_le_add_right hle _

/-- However a request ends, its orders fit. -/
theorem Ends.orders_le (h : b.Ends r caps c b' ts) (hb : b.orders.length ≤ caps.orders) :
    b'.orders.length ≤ caps.orders := by
  cases h with
  | postOnly => exact hb
  | full => exact matched_orders_le.trans hb
  | placed _ hroom =>
    by_cases hrest : (b.matched r).rem ≠ 0 ∧ r.rests
    · rw [place_of_rests hrest]
      rw [(rest_orders ..).length_eq, List.length_cons]
      exact (hroom hrest).1
    · rw [place_of_not_rests hrest]
      exact matched_orders_le.trans hb

/-- A request adds at most its own order. -/
theorem submit_orders_le {o : Outcome Book} (h : b.submit r = some o) :
    o.left.orders.length ≤ b.orders.length + 1 := by
  have hle : (b.matched r).left.orders.length ≤ b.orders.length := matched_orders_le
  unfold submit at h
  split at h
  · cases h
  · split at h
    · cases h
    · cases h
      by_cases hrest : (b.matched r).rem ≠ 0 ∧ r.rests
      · rw [place_of_rests hrest, (rest_orders ..).length_eq, List.length_cons]
        omega
      · rw [place_of_not_rests hrest]
        omega

/-- A cancellation adds no order. -/
theorem cancel_orders_le {id : UInt64} (h : b.cancel id = some b') :
    b'.orders.length ≤ b.orders.length := by
  unfold cancel at h
  split at h
  · cases h
    rw [remove_orders]
    exact List.length_filter_le _ _
  · cases h

/-- A book has no more levels than orders. -/
theorem Inv.levels_le (h : b.Inv) : b.bids.length + b.asks.length ≤ b.orders.length := by
  have hbids := (h.side .bids).length_le
  have hasks := (h.side .asks).length_le
  rw [b.length_orders .bids]
  exact Nat.add_le_add hbids hasks

/-- With one capacity for both kinds of rows, there is room for as long as it is not full. -/
theorem Inv.hasRoom {cap : ℕ} (h : b.Inv) (hb : b.orders.length < cap) :
    (b.matched r).left.HasRoom r (.uniform cap) :=
  have hle := matched_orders_le.trans_lt hb
  ⟨hle, .inr ((h.matched (r := r)).levels_le.trans_lt hle)⟩

/-- The levels of a book, counted by side. -/
theorem length_levels (b : Book) (t : Tree) :
    b.bids.length + b.asks.length = (b.side t).length + (b.side t.other).length := by
  cases t with
  | bids => rfl
  | asks => exact Nat.add_comm _ _

/-- Matching leaves no more levels than there were. -/
theorem matched_levels_le : (b.matched r).left.bids.length + (b.matched r).left.asks.length ≤
    b.bids.length + b.asks.length := by
  have hle := (b.matched_cut r).prices.length_le
  rw [List.length_map, List.length_map] at hle
  rw [length_levels _ r.side.other, b.length_levels r.side.other]
  unfold Book.matched Book.matchedFrom
  rw [side_setSide_self, side_setSide_other]
  exact Nat.add_le_add_right hle _

/-- A pool is exhausted when the remainder is to rest only if nothing was matched: matching that
leaves a remainder uses up a level with its orders, and frees their rows. -/
theorem Inv.matched_of_full (h : b.Inv) (horders : b.orders.length ≤ caps.orders)
    (hlevels : b.bids.length + b.asks.length ≤ caps.levels) (hrem : (b.matched r).rem ≠ 0)
    (hroom : ¬ (b.matched r).left.HasRoom r caps) : b.matched r = ⟨b, r.qty, []⟩ := by
  have hne : ∀ l ∈ b.side r.side.other, l.orders ≠ [] := (h.side _).nonempty
  rcases @Request.matchLevels_progress r r.qty _ hne hrem with hsame | ⟨hls, hos⟩
  · unfold Book.matched Book.matchedFrom
    rw [hsame]
    dsimp only
    rw [setSide_side]
  · refine absurd ⟨?_, .inr ?_⟩ hroom
    · rw [length_orders _ r.side.other] at horders ⊢
      unfold Book.matched Book.matchedFrom
      rw [side_setSide_self, side_setSide_other]
      omega
    · rw [length_levels _ r.side.other] at hlevels ⊢
      unfold Book.matched Book.matchedFrom
      rw [side_setSide_self, side_setSide_other]
      omega

/-- A request that is refused leaves the book as it was, without trades. -/
theorem Ends.of_ne_zero (h : b.Ends r caps c b' ts) (hb : b.Inv)
    (horders : b.orders.length ≤ caps.orders)
    (hlevels : b.bids.length + b.asks.length ≤ caps.levels) (hc : c ≠ 0) : b' = b ∧ ts = [] := by
  cases h with
  | postOnly => exact ⟨rfl, rfl⟩
  | full _ hrest hroom =>
    rw [hb.matched_of_full horders hlevels hrest.1 hroom]
    exact ⟨rfl, rfl⟩
  | placed => exact absurd rfl hc

end Book

/-! ## Requests and their codes -/

/-- The code of a type. -/
theorem OrderType.ofCode_eq_some {c : UInt64} {t : OrderType} :
    OrderType.ofCode c = some t ↔ t.code = c := by
  unfold OrderType.ofCode
  constructor
  · intro h
    simpa using List.find?_some h
  · rintro rfl
    cases t <;> decide

/-- The code of a mode. -/
theorem StpMode.ofCode_eq_some {c : UInt64} {m : StpMode} :
    StpMode.ofCode c = some m ↔ m.code = c := by
  unfold StpMode.ofCode
  constructor
  · intro h
    simpa using List.find?_some h
  · rintro rfl
    cases m <;> decide

/-- The code of a side. -/
theorem Contract.Tree.ofCode_eq_some {c : UInt64} {t : Tree} :
    Tree.ofCode c = some t ↔ t.code = c := by
  unfold Tree.ofCode
  constructor
  · intro h
    simpa using List.find?_some h
  · rintro rfl
    cases t <;> decide

/-- The request `r` that a `struct OrderRequest` stands for. -/
structure OrderRequest.Decodes (q : OrderRequest) (r : Request) : Prop where
  id : r.id = q.id
  account : r.account = q.account_id
  side : r.side.code = q.side.toUInt64
  otype : r.otype.code = q.order_type.toUInt64
  stp : r.stp.code = q.stp_mode.toUInt64
  price : r.price = q.price
  qty : r.qty = q.qty

/-- What a valid request holds, field by field. -/
theorem OrderRequest.decodes {q : OrderRequest} {r : Request} (h : q.decode = some r) :
    q.Decodes r := by
  unfold OrderRequest.decode at h
  split at h
  · rename_i side otype stp hside hotype hstp
    split at h
    · cases h
      exact ⟨rfl, rfl, Tree.ofCode_eq_some.mp hside, OrderType.ofCode_eq_some.mp hotype,
        StpMode.ofCode_eq_some.mp hstp, rfl, rfl⟩
    · cases h
  · cases h

/-- A request is valid when its codes are, its quantity is not zero, and its price is not zero
unless it is a market order. -/
theorem OrderRequest.decode_isSome {q : OrderRequest} : q.decode.isSome ↔
    (OrderType.ofCode q.order_type.toUInt64).isSome ∧ (Tree.ofCode q.side.toUInt64).isSome ∧
      (StpMode.ofCode q.stp_mode.toUInt64).isSome ∧ q.qty ≠ 0 ∧
      (q.order_type.toUInt64 ≠ 1 → q.price ≠ 0) := by
  have hone : ∀ {t : OrderType}, t.code = 1 ↔ t = .market := fun {t} => by cases t <;> decide
  unfold OrderRequest.decode
  cases hotype : OrderType.ofCode q.order_type.toUInt64 with
  | none => simp
  | some t =>
    rw [← OrderType.ofCode_eq_some.mp hotype]
    cases Tree.ofCode q.side.toUInt64 with
    | none => simp
    | some side =>
      cases StpMode.ofCode q.stp_mode.toUInt64 with
      | none => simp
      | some stp =>
        simp only [Option.isSome_some, true_and, ne_eq, hone]
        split <;> simp_all

/-! ## The step of the generated engine -/

namespace Book

/-- The largest quantity that the generated engine accepts. -/
def qmax (cap : ℕ) : ℕ := (2^64 - 1) / (cap + 1)

/-- The code of a request and its outcome, with the capacity `cap`. -/
def processed (cap : ℕ) (b : Book) (q : OrderRequest) : UInt64 × Outcome Book :=
  match OrderType.ofCode q.order_type.toUInt64, q.decode with
  | none, _ => (2, ⟨b, q.qty, []⟩)
  | some _, none => (3, ⟨b, q.qty, []⟩)
  | some _, some r =>
    if qmax cap < r.qty.toNat then (3, ⟨b, q.qty, []⟩)
    else if r.id ∈ b.ids then (4, ⟨b, q.qty, []⟩)
    else if r.rests ∧ cap ≤ b.orders.length then (5, ⟨b, q.qty, []⟩)
    else if r.otype = .postOnly ∧ b.crossing r then (6, ⟨b, q.qty, []⟩)
    else (0, b.place r)

section Processed

variable {b : Book} {r : Request} {cap : ℕ} {q : OrderRequest}

/-- A type that is not supported. -/
theorem processed_unsupported (h : OrderType.ofCode q.order_type.toUInt64 = none) :
    b.processed cap q = (2, ⟨b, q.qty, []⟩) := by
  unfold processed
  rw [h]

/-- A request with a code or a number that is not valid. -/
theorem processed_invalid (h : (OrderType.ofCode q.order_type.toUInt64).isSome)
    (hd : q.decode = none) : b.processed cap q = (3, ⟨b, q.qty, []⟩) := by
  obtain ⟨t, ht⟩ := Option.isSome_iff_exists.mp h
  unfold processed
  rw [ht, hd]

/-- The checks of a valid request, in their order. -/
theorem processed_valid (hd : q.decode = some r) : b.processed cap q =
    if qmax cap < r.qty.toNat then (3, ⟨b, q.qty, []⟩)
    else if r.id ∈ b.ids then (4, ⟨b, q.qty, []⟩)
    else if r.rests ∧ cap ≤ b.orders.length then (5, ⟨b, q.qty, []⟩)
    else if r.otype = .postOnly ∧ b.crossing r then (6, ⟨b, q.qty, []⟩)
    else (0, b.place r) := by
  have ht := OrderType.ofCode_eq_some.mpr (OrderRequest.decodes hd).otype
  unfold processed
  rw [ht, hd]

end Processed

/-- The code of a cancellation and the book after it. -/
def cancelled (b : Book) (id : UInt64) : UInt64 × Book :=
  match b.cancel id with
  | none => (7, b)
  | some b' => (1, b')

end Book

end MatchingEngine
