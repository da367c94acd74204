import MatchingEngine.Book.Step

/-!
# The book seen from the other side

The mirror of a book has the asks for bids and the bids for asks, each at the negated price, which
turns the order of prices around. Matching, resting, and cancelling are the same on both sides, so
each commutes with the mirror. A price is negated modulo `2^64`, so none may be zero.

The mirror of a request has the other side and the negated price, but a market request keeps its
price, which is not looked at. `matchOrders_mirror` and `matchLevels_mirror` are inductions along
the loops. `Ends.mirror` is the statement for requests that may be refused, and `Priced` the
condition that no order rests at the price zero.
-/

namespace MatchingEngine

open Contract

/-! ## Mirrors -/

/-- A row of the other side, at the negated price. -/
def Contract.OrderRow.mirror (o : OrderRow) : OrderRow :=
  { o with side := 1 - o.side, price := -o.price }

/-- A trade at the negated price. -/
def Contract.TradeRow.mirror (t : TradeRow) : TradeRow := { t with price := -t.price }

/-- A level at the negated price. -/
def Level.mirror (l : Level) : Level := ⟨-l.price, l.orders.map OrderRow.mirror⟩

/-- The book with its sides exchanged. -/
def Book.mirror (b : Book) : Book := ⟨b.asks.map Level.mirror, b.bids.map Level.mirror⟩

/-- A request of the other side at the negated price. A market order keeps the price that it does
not use. -/
def Request.mirror (r : Request) : Request where
  id := r.id
  account := r.account
  side := r.side.other
  otype := r.otype
  stp := r.stp
  price := if r.otype = .market then r.price else -r.price
  qty := r.qty
  qty_ne := r.qty_ne
  price_ne h := by
    rw [if_neg h]
    exact fun h0 => r.price_ne h (neg_eq_zero.mp h0)

/-- An outcome with the mirror of what matching left. -/
def Outcome.mirror {α : Type} (f : α → α) (o : Outcome α) : Outcome α :=
  ⟨f o.left, o.rem, o.trades.map TradeRow.mirror⟩

/-- Every level of the book has a price. -/
def Book.Priced (b : Book) : Prop := ∀ t, ∀ l ∈ b.side t, l.price ≠ 0

/-! ## Prices -/

section Prices

variable {t : Tree} {p q : UInt64}

/-- The other side of the other side. -/
@[simp] theorem Tree.other_other : t.other.other = t := by
  cases t <;> rfl

/-- The codes of the sides are zero and one. -/
theorem Tree.code_other : t.other.code = 1 - t.code := by
  cases t <;> rfl

/-- The negation of a word that is not zero is what is left to `2^64`. -/
theorem toNat_neg_of_ne (hp : p ≠ 0) : (-p).toNat = 2^64 - p.toNat := by
  have hpos : p.toNat ≠ 0 := fun h => hp (UInt64.toNat_inj.mp h)
  have hlt := p.toNat_lt
  rw [UInt64.toNat_neg]
  change (2^64 - p.toNat) % 2^64 = _
  omega

/-- Negation turns the order of prices around. -/
theorem neg_lt_neg_of_ne (hp : p ≠ 0) (hq : q ≠ 0) : -p < -q ↔ q < p := by
  rw [UInt64.lt_iff_toNat_lt, UInt64.lt_iff_toNat_lt, toNat_neg_of_ne hp, toNat_neg_of_ne hq]
  have := p.toNat_lt
  have := q.toNat_lt
  omega

/-- What comes before on one side comes before on the other at negated prices. -/
theorem before_mirror (hp : p ≠ 0) (hq : q ≠ 0) : before t.other (-p) (-q) ↔ before t p q := by
  cases t with
  | bids => exact neg_lt_neg_of_ne hp hq
  | asks => exact neg_lt_neg_of_ne hq hp

/-- What is better on one side is better on the other at negated prices. -/
theorem better_mirror (hp : p ≠ 0) (hq : q ≠ 0) : better t.other (-p) (-q) ↔ better t p q := by
  rw [better_iff, better_iff, before_mirror hq hp]

end Prices

/-! ## Matching -/

section Matching

variable {r : Request} {t : Tree} {b : Book} {l : Level} {ls : List Level} {os : List OrderRow}
  {p rem : UInt64}

/-- A side of the mirror is the mirror of the other side. -/
@[simp] theorem Book.side_mirror : b.mirror.side t = (b.side t.other).map Level.mirror := by
  cases t <;> rfl

/-- A side that is replaced is replaced in the mirror. -/
theorem Book.setSide_mirror :
    (b.setSide ls t).mirror = b.mirror.setSide (ls.map Level.mirror) t.other := by
  cases t <;> rfl

/-- A request crosses a level just when its mirror crosses the mirrored level. -/
theorem Request.crosses_mirror (hp : p ≠ 0) : r.mirror.crosses (-p) ↔ r.crosses p := by
  unfold Request.crosses
  refine or_congr_right' fun (hm : r.otype ≠ .market) => ?_
  change better r.side.other.other (-p) (if r.otype = .market then r.price else -r.price) ↔ _
  rw [if_neg hm, better_mirror hp (r.price_ne hm)]

/-- The row of a request that may rest has a mirror, since such a request has a price. -/
theorem Request.row_mirror (h : r.rests) : r.mirror.row rem = (r.row rem).mirror := by
  have hm : r.otype ≠ .market := by
    rcases h with h | h <;> rw [h] <;> decide
  unfold Request.row OrderRow.mirror
  dsimp only [Request.mirror]
  rw [if_neg hm, Tree.code_other]

/-- A queue is met in the same way from the other side. -/
theorem matchOrders_mirror : r.mirror.matchOrders (-p) (os.map OrderRow.mirror) rem =
    (r.matchOrders p os rem).mirror (List.map OrderRow.mirror) := by
  -- The accounts are the same, and so is the mode that applies.
  have hprev : ∀ o : OrderRow, r.mirror.prevention o.mirror = r.prevention o := fun _ => rfl
  fun_induction r.matchOrders p os rem with
  | case1 => rfl
  | case2 => rw [List.map_cons, Request.matchOrders, if_pos rfl]; rfl
  | case3 o os rem h0 ho =>
    rw [List.map_cons, Request.matchOrders, if_neg h0, hprev, ho]
    rfl
  | case4 o os rem h0 ho ih =>
    rw [List.map_cons, Request.matchOrders, if_neg h0, hprev, ho]
    exact ih
  | case5 o os rem h0 ho =>
    rw [List.map_cons, Request.matchOrders, if_neg h0, hprev, ho]
    rfl
  | case6 o os rem h0 ho hle ih =>
    rw [List.map_cons, Request.matchOrders, if_neg h0, hprev, ho]
    exact (if_pos hle).trans ih
  | case7 o os rem h0 ho hle =>
    rw [List.map_cons, Request.matchOrders, if_neg h0, hprev, ho]
    exact if_neg hle
  | case8 o os rem h0 ho hle ih =>
    rw [List.map_cons, Request.matchOrders, if_neg h0, hprev, ho]
    exact (if_pos hle).trans (congrArg (Outcome.after _) ih)
  | case9 o os rem h0 ho hle =>
    rw [List.map_cons, Request.matchOrders, if_neg h0, hprev, ho]
    exact if_neg hle

/-- So is a side. -/
theorem matchLevels_mirror (hp : ∀ l ∈ ls, l.price ≠ 0) :
    r.mirror.matchLevels (ls.map Level.mirror) rem =
      (r.matchLevels ls rem).mirror (List.map Level.mirror) := by
  fun_induction r.matchLevels ls rem with
  | case1 => rfl
  | case2 l ls rem h =>
    rw [List.map_cons, Request.matchLevels, if_pos]
    · rfl
    · exact h.imp_right fun hc => mt (Request.crosses_mirror (hp l List.mem_cons_self)).mp hc
  | case3 l ls rem h o hnil ih =>
    -- The mirror crosses exactly where the request does.
    have h' : ¬ (rem = 0 ∨ ¬ r.mirror.crosses l.mirror.price) := fun hx => h <|
      hx.imp_right fun hc => mt (Request.crosses_mirror (hp l List.mem_cons_self)).mpr hc
    rw [List.map_cons, Request.matchLevels, if_neg h']
    have ho : r.mirror.matchOrders l.mirror.price l.mirror.orders rem = _ := matchOrders_mirror
    rw [ho]
    change (if o.left.map OrderRow.mirror = [] then _ else _) = _
    rw [if_pos (by rw [hnil]; rfl)]
    refine (congrArg (Outcome.after _) (ih fun m hm => hp m (List.mem_cons_of_mem _ hm))).trans ?_
    unfold Outcome.after Outcome.mirror
    rw [List.map_append]
  | case4 l ls rem h o hne =>
    have h' : ¬ (rem = 0 ∨ ¬ r.mirror.crosses l.mirror.price) := fun hx => h <|
      hx.imp_right fun hc => mt (Request.crosses_mirror (hp l List.mem_cons_self)).mpr hc
    rw [List.map_cons, Request.matchLevels, if_neg h']
    have ho : r.mirror.matchOrders l.mirror.price l.mirror.orders rem = _ := matchOrders_mirror
    rw [ho]
    change (if o.left.map OrderRow.mirror = [] then _ else _) = _
    rw [if_neg fun hx => hne (List.map_eq_nil_iff.mp hx)]
    rfl

end Matching

/-! ## Resting and cancelling -/

section Rest

variable {t : Tree} {ls : List Level} {row : OrderRow} {id : UInt64}

/-- A row finds its place in the mirror too: the first level of its price, or the first worse one.
-/
theorem insertRow_mirror (hp : ∀ l ∈ ls, l.price ≠ 0) (hrow : row.price ≠ 0) :
    insertRow t.other row.mirror (ls.map Level.mirror) = (insertRow t row ls).map Level.mirror := by
  fun_induction insertRow t row ls with
  | case1 => rfl
  | case2 l ls heq =>
    refine (if_pos (congrArg Neg.neg heq)).trans ?_
    rw [List.map_cons]
    refine congrArg (· :: _) ?_
    unfold Level.mirror
    rw [List.map_append]
    rfl
  | case3 l ls hne hlt =>
    refine (if_neg fun hx => hne (neg_injective hx)).trans (if_pos ?_)
    exact (before_mirror hrow (hp l List.mem_cons_self)).mpr hlt
  | case4 l ls hne hlt ih =>
    refine (if_neg fun hx => hne (neg_injective hx)).trans ((if_neg ?_).trans ?_)
    · exact fun hx => hlt ((before_mirror hrow (hp l List.mem_cons_self)).mp hx)
    · rw [List.map_cons, ih fun m hm => hp m (List.mem_cons_of_mem _ hm)]

/-- An id is taken out of the mirror too. -/
theorem removeId_mirror : removeId id (ls.map Level.mirror) = (removeId id ls).map Level.mirror := by
  have hlevel : ∀ l : Level, ({ l.mirror with orders := l.mirror.orders.filter (·.id ≠ id) } : Level) =
      Level.mirror { l with orders := l.orders.filter (·.id ≠ id) } := fun l => by
    change Level.mk _ ((l.orders.map OrderRow.mirror).filter _) = Level.mk _ (List.map _ _)
    rw [List.filter_map]
    rfl
  unfold removeId
  rw [List.map_map, List.filter_map, List.filter_map, List.map_map]
  have hmap :
      (fun l : Level => ({ l with orders := l.orders.filter (·.id ≠ id) } : Level)) ∘ Level.mirror =
      Level.mirror ∘ fun l : Level => { l with orders := l.orders.filter (·.id ≠ id) } := funext hlevel
  rw [hmap]
  refine congrArg _ (List.filter_congr fun l _ => ?_)
  change decide (List.map OrderRow.mirror _ ≠ []) = decide (_ ≠ [])
  rw [decide_eq_decide, ne_eq, ne_eq, List.map_eq_nil_iff]

end Rest

/-! ## Calls -/

namespace Book

variable {b b' : Book} {r : Request} {caps : Caps} {c : UInt64} {id : UInt64} {ts : List TradeRow}

/-- The orders of the mirror are those of the book, the asks first. -/
theorem orders_mirror : b.mirror.orders.Perm (b.orders.map OrderRow.mirror) := by
  have hside : ∀ ls : List Level, (ls.map Level.mirror).flatMap Level.orders =
      (ls.flatMap Level.orders).map OrderRow.mirror := fun ls => by
    rw [List.flatMap_map, List.map_flatMap]
    rfl
  change ((b.asks.map Level.mirror ++ b.bids.map Level.mirror).flatMap Level.orders).Perm _
  rw [← List.map_append, hside, Book.orders]
  refine List.Perm.map _ ?_
  rw [List.flatMap_append, List.flatMap_append]
  exact List.perm_append_comm

/-- The mirror has the same ids. -/
theorem mem_ids_mirror : id ∈ b.mirror.ids ↔ id ∈ b.ids := by
  unfold Book.ids
  rw [(orders_mirror.map OrderRow.id).mem_iff, List.map_map]
  rfl

/-- A request would cross a book just when its mirror would cross the mirror. -/
theorem crossing_mirror (hb : b.Priced) : b.mirror.crossing r.mirror ↔ b.crossing r := by
  unfold Book.crossing
  rw [side_mirror, Tree.other_other, List.head?_map]
  change (∃ l ∈ Option.map Level.mirror (b.side r.side.other).head?, r.mirror.crosses l.price) ↔ _
  cases hl : (b.side r.side.other).head? with
  | none => simp
  | some l =>
    have hp := hb _ l (List.mem_of_head? hl)
    have hcross : r.mirror.crosses l.mirror.price ↔ r.crosses l.price := Request.crosses_mirror hp
    simpa using hcross

/-- Matching commutes with the mirror. -/
theorem matched_mirror (hb : b.Priced) :
    b.mirror.matched r.mirror = (b.matched r).mirror Book.mirror := by
  unfold Book.matched Book.matchedFrom
  have hside : b.mirror.side r.mirror.side.other = (b.side r.side.other).map Level.mirror := by
    rw [side_mirror, Tree.other_other]
    rfl
  rw [hside, matchLevels_mirror (hb _)]
  unfold Outcome.mirror
  rw [setSide_mirror]
  rfl

/-- Matching leaves a book with prices. -/
theorem Priced.matched (hb : b.Priced) : (b.matched r).left.Priced := by
  intro t l hl
  unfold Book.matched Book.matchedFrom at hl
  rw [side_setSide] at hl
  split at hl
  · obtain ⟨m, hm, hprice, -⟩ := Request.matchLevels_cut.mem hl
    exact hprice ▸ hb _ m hm
  · exact hb t l hl

/-- Resting commutes with the mirror. -/
theorem rest_mirror {row : OrderRow} {t : Tree} (hb : b.Priced) (hrow : row.price ≠ 0) :
    b.mirror.rest row.mirror t.other = (b.rest row t).mirror := by
  unfold Book.rest
  rw [setSide_mirror, side_mirror, Tree.other_other, insertRow_mirror (hb t) hrow]

/-- A row with a price may rest. -/
theorem Priced.rest {row : OrderRow} {t : Tree} (hb : b.Priced) (hrow : row.price ≠ 0) :
    (b.rest row t).Priced := by
  intro s l hl
  unfold Book.rest at hl
  rw [side_setSide] at hl
  split at hl
  · rcases SideInv.insertRow_prices.mp (List.mem_map_of_mem hl) with hp | hp
    · rwa [hp]
    · obtain ⟨m, hm, hp⟩ := List.mem_map.mp hp
      exact hp ▸ hb t m hm
  · exact hb s l hl

/-- A request that may rest has a price. -/
theorem price_ne_of_rests (h : r.rests) : r.price ≠ 0 := by
  refine r.price_ne ?_
  rcases h with h | h <;> rw [h] <;> decide

/-- A request is placed in the mirror as its mirror. -/
theorem place_mirror (hb : b.Priced) : b.mirror.place r.mirror = (b.place r).mirror Book.mirror := by
  have hm := matched_mirror (r := r) hb
  have hrem : (b.mirror.matched r.mirror).rem = (b.matched r).rem := by rw [hm]; rfl
  by_cases hrest : (b.matched r).rem ≠ 0 ∧ r.rests
  · rw [place_of_rests hrest, place_of_rests (r := r.mirror) (hrem.symm ▸ hrest), hrem, hm,
      Request.row_mirror hrest.2]
    exact congrArg (Outcome.mk · _ _) (rest_mirror hb.matched (price_ne_of_rests hrest.2))
  · rw [place_of_not_rests hrest, place_of_not_rests (r := r.mirror) (hrem.symm ▸ hrest), hm]

/-- Placing a request leaves a book with prices. -/
theorem Priced.place (hb : b.Priced) : (b.place r).left.Priced := by
  by_cases hrest : (b.matched r).rem ≠ 0 ∧ r.rests
  · rw [place_of_rests hrest]
    exact hb.matched.rest (price_ne_of_rests hrest.2)
  · rw [place_of_not_rests hrest]
    exact hb.matched

/-- Cancelling commutes with the mirror. -/
theorem cancel_mirror : b.mirror.cancel id = (b.cancel id).map Book.mirror := by
  unfold Book.cancel
  by_cases hid : id ∈ b.ids
  · rw [if_pos hid, if_pos (mem_ids_mirror.mpr hid)]
    refine congrArg some ?_
    change Book.mk (removeId id (b.asks.map _)) (removeId id (b.bids.map _)) = _
    rw [removeId_mirror, removeId_mirror]
    rfl
  · rw [if_neg hid, if_neg (mt mem_ids_mirror.mp hid)]
    rfl

/-- Cancelling leaves a book with prices. -/
theorem Priced.cancel (hb : b.Priced) (h : b.cancel id = some b') : b'.Priced := by
  unfold Book.cancel at h
  split at h
  · cases h
    have hside : ∀ ls : List Level, (∀ l ∈ ls, l.price ≠ 0) → ∀ l ∈ removeId id ls, l.price ≠ 0 := by
      intro ls hls l hl
      obtain ⟨m, hm, hp, -⟩ := SideInv.mem_removeId hl
      exact hp ▸ hls m hm
    intro t l hl
    cases t with
    | bids => exact hside _ (hb .bids) l hl
    | asks => exact hside _ (hb .asks) l hl
  · cases h

/-- A book and its mirror have room together. -/
theorem hasRoom_mirror (hr : r.rests) : b.mirror.HasRoom r.mirror caps ↔ b.HasRoom r caps := by
  have hm : r.otype ≠ .market := by
    rcases hr with h | h <;> rw [h] <;> decide
  unfold Book.HasRoom
  rw [orders_mirror.length_eq, List.length_map]
  refine and_congr_right' (or_congr ?_ ?_)
  · have hprice : r.mirror.price = -r.price := if_neg hm
    have hside : b.mirror.side r.mirror.side = (b.side r.side).map Level.mirror := by
      rw [side_mirror]
      exact congrArg (fun t => (b.side t).map Level.mirror) Tree.other_other
    rw [hside, hprice]
    constructor
    · rintro ⟨l, hl, hp⟩
      obtain ⟨m, hmem, rfl⟩ := List.mem_map.mp hl
      exact ⟨m, hmem, neg_injective hp⟩
    · rintro ⟨l, hl, hp⟩
      exact ⟨l.mirror, List.mem_map_of_mem hl, congrArg Neg.neg hp⟩
  · change (List.map _ b.asks).length + (List.map _ b.bids).length < _ ↔ _
    rw [List.length_map, List.length_map, Nat.add_comm]

/-- A request ends for the mirror of a book as its mirror does for the book. -/
theorem Ends.mirror (hb : b.Priced) (h : b.Ends r caps c b' ts) :
    b.mirror.Ends r.mirror caps c b'.mirror (ts.map TradeRow.mirror) := by
  have hm := matched_mirror (r := r) hb
  have hpl := place_mirror (r := r) hb
  have hcross := crossing_mirror (r := r) hb
  cases h with
  | postOnly hpo => exact .postOnly (hpo.imp_right hcross.mpr)
  | full hpo hrest hroom =>
    have h' : b.mirror.Ends r.mirror caps _ _ _ := .full
      (fun hx => hpo (hx.imp_right hcross.mp)) (by rw [hm]; exact hrest)
      (by rw [hm]; exact fun hx => hroom ((hasRoom_mirror hrest.2).mp hx))
    rw [hm] at h'
    exact h'
  | placed hpo hroom =>
    have h' : b.mirror.Ends r.mirror caps _ _ _ := .placed
      (fun hx => hpo (hx.imp_right hcross.mp))
      (by rw [hm]; exact fun hx => (hasRoom_mirror (r := r) hx.2).mpr (hroom hx))
    rw [hpl] at h'
    exact h'

/-- However a request ends, the book has prices. -/
theorem Ends.priced (hb : b.Priced) (h : b.Ends r caps c b' ts) : b'.Priced := by
  cases h with
  | postOnly => exact hb
  | full => exact hb.matched
  | placed => exact hb.place

/-- A request ends in one way only. -/
theorem Ends.unique {c' : UInt64} {b'' : Book} {ts' : List TradeRow} (h : b.Ends r caps c b' ts)
    (h' : b.Ends r caps c' b'' ts') : c = c' ∧ b' = b'' ∧ ts = ts' := by
  cases h with
  | postOnly hpo =>
    cases h' with
    | postOnly => exact ⟨rfl, rfl, rfl⟩
    | full hno => exact absurd hpo hno
    | placed hno => exact absurd hpo hno
  | full hno hrest hroom =>
    cases h' with
    | postOnly hpo => exact absurd hpo hno
    | full => exact ⟨rfl, rfl, rfl⟩
    | placed _ hroom' => exact absurd (hroom' hrest) hroom
  | placed hno hroom =>
    cases h' with
    | postOnly hpo => exact absurd hpo hno
    | full _ hrest hroom' => exact absurd (hroom hrest) hroom'
    | placed => exact ⟨rfl, rfl, rfl⟩

end Book

end MatchingEngine
