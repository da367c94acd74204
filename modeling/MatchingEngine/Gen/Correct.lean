import MatchingEngine.Book.Step
import MatchingEngine.Gen.Rest

/-!
# The generated matcher is correct

What a call does over any storage layer that satisfies the contract, in terms of the book that the
store stands for: `gen_process_buy` and `gen_process_sell` end as `Book.Ends` says, and
`gen_process_order` and `gen_cancel_order` are `Book.processed` and `Book.cancelled`.

Every function gets one lemma, named after it with `returns_` in front, which says that it returns
and what it leaves, and a caller is proved from the lemmas of what it calls. Between two calls the
store is `Ready`: it holds a book with the invariant, of no more orders than it has rows. The checks
on the arguments come first, as in the code, and a request that passes them all decodes to a
`Request`.
-/

namespace MatchingEngine.Gen

open Contract Lib

variable {S : Type} {caps : Caps} {st : Store caps S} {s : State S} {db : Db} {n : UInt64}
  {hs : Tree → List LevelH} {r : Request}

/-- The code of the post-only type. -/
theorem code_eq_three {o : OrderType} : o.code = 3 ↔ o = .postOnly := by
  cases o <;> decide

/-- The post-only test. -/
theorem returns_genCrossed {crosses : UInt64 → UInt64 → Bool} (h : At st s db n)
    (hlink : Linked db hs) (hside : SideInv r.side.other ((db.book hs).side r.side.other))
    (hcross : ∀ p, crosses p r.price = decide (better r.side.other p r.price)) :
    Returns (genCrossed st.exec r.side.other crosses r.otype.code r.price) s fun b s' =>
      (b = true ↔ r.otype = .postOnly ∧ (db.book hs).crossing r) ∧ At st s' db n := by
  unfold genCrossed
  by_cases hp : r.otype = .postOnly
  · rw [if_pos (code_eq_three.mpr hp)]
    refine (returns_treeBest h hlink hside).bind ?_
    rintro _ s₁ ⟨rfl, h₁⟩
    -- The best level is the head of the list of levels.
    have hcrossing : (db.book hs).crossing r ↔
        ∃ l ∈ (hs r.side.other).head?, r.crosses (db.levelPrice l) := by
      unfold Book.crossing
      rw [Db.book_side, List.head?_map]
      simp [Db.levelOf]
    rw [hcrossing]
    cases hl : hs r.side.other with
    | nil => exact .pure ⟨by simp, h₁⟩
    | cons l ls =>
      have hlive := hlink.level_live (hl ▸ List.mem_cons_self : l ∈ hs r.side.other)
      refine (returns_levelGetPrice h₁ hlive).bind ?_
      rintro _ s₂ ⟨rfl, h₂⟩
      refine .pure ⟨?_, h₂⟩
      rw [hcross, decide_eq_true_iff]
      unfold Request.crosses
      simp [hp]
  · rw [if_neg fun hc => hp (code_eq_three.mp hc)]
    exact .pure ⟨by simp [hp], h⟩

/-- The codes of the types that may rest. -/
theorem rests_iff {o : OrderType} : (o.code ≠ 2 ∧ o.code ≠ 1) ↔ o = .limit ∨ o = .postOnly := by
  cases o <;> decide

/-- `gen_process_buy` and `gen_process_sell`. -/
theorem returns_genProcess (crosses : UInt64 → UInt64 → Bool) (hcap : caps.orders + 1 < 2^64)
    (hcross : ∀ p, crosses p r.price = decide (better r.side.other p r.price))
    (h : At st s db 0) (hlink : Linked db hs) (hinv : (db.book hs).Inv)
    (hid : r.id ∉ (db.book hs).ids) (htrades : db.trades = [])
    (hroom : db.oLive.card ≤ caps.orders) :
    Returns (genProcess st.exec r.side r.side.other crosses r.id r.account r.side.code r.otype.code
      r.stp.code r.price r.qty) s fun c s' => ∃ db' hs' n', At st s' db' n' ∧ Linked db' hs' ∧
        (db.book hs).Ends r caps c (db'.book hs') db'.trades := by
  unfold genProcess
  refine (returns_genCrossed h hlink (hinv.side _) hcross).bind ?_
  rintro _ s₁ ⟨hb, h₁⟩
  by_cases hpost : r.otype = .postOnly ∧ (db.book hs).crossing r
  · rw [if_pos (hb.mpr hpost)]
    exact .pure ⟨db, hs, 0, h₁, hlink, htrades ▸ .postOnly hpost⟩
  · rw [if_neg fun hc => hpost (hb.mp hc)]
    -- What the loop leaves is `Book.matched`, and what follows depends on its remainder.
    refine (returns_matchLoop hcap hcross h₁ hlink (hinv.side _) rfl htrades hroom
      fun h : False => h.elim).bind ?_
    rintro ⟨rem, stop⟩ s₂ ⟨db₂, hs₂, n₂, h₂, hm, hmatched⟩
    have hleft : db₂.book hs₂ = ((db.book hs).matched r).left := by rw [hmatched]
    have hrem : rem = ((db.book hs).matched r).rem := by rw [hmatched]
    have hts : db₂.trades = ((db.book hs).matched r).trades := by rw [hmatched]
    have hpos : (0 < rem ∧ r.otype.code ≠ 2 ∧ r.otype.code ≠ 1) ↔
        ((db.book hs).matched r).rem ≠ 0 ∧ r.rests := by
      rw [rests_iff, hrem, UInt64.pos_iff_ne_zero]
      exact Iff.rfl
    change Returns (if 0 < rem ∧ r.otype.code ≠ 2 ∧ r.otype.code ≠ 1 then _ else _) s₂ _
    by_cases hrest : ((db.book hs).matched r).rem ≠ 0 ∧ r.rests
    -- The remainder rests if there is room, and the trades stand in any case.
    · rw [if_pos (hpos.mpr hrest)]
      have hinv₂ : (db₂.book hs₂).Inv := hleft ▸ hinv.matched
      have hid₂ : r.id ∉ (db₂.book hs₂).ids := fun hm => hid (Book.matched_ids (hleft ▸ hm))
      refine (returns_genRest h₂ hm.linked (hinv₂.side _) hid₂ rem).mono ?_
      rintro c s₃ (⟨hfull, rfl, h₃⟩ | ⟨hroom', rfl, db₃, hs₃, h₃, hlink₃, hbook₃, hts₃⟩)
      · refine ⟨db₂, hs₂, n₂, h₃, hm.linked, ?_⟩
        rw [hleft, hts]
        exact .full hpost hrest (hleft ▸ hfull)
      · refine ⟨db₃, hs₃, n₂, h₃, hlink₃, ?_⟩
        have hplaced := Book.Ends.placed hpost fun _ => hleft ▸ hroom'
        rw [Book.place_of_rests hrest] at hplaced
        rw [hbook₃, hts₃, hleft, hts, hrem]
        exact hplaced
    · rw [if_neg (fun hc => hrest (hpos.mp hc))]
      have hplaced : (db.book hs).Ends r caps _ _ _ := .placed hpost fun hc => absurd hc hrest
      rw [Book.place_of_not_rests hrest] at hplaced
      refine .pure ⟨db₂, hs₂, n₂, h₂, hm.linked, ?_⟩
      rw [hleft, hts]
      exact hplaced

/-! ## Calls -/

/-- The state between two calls, for a store that stands for the book `b`. -/
structure Ready (st : Store caps S) (s : State S) (b : Book) : Prop where
  linked : ∃ db hs n, At st s db n ∧ Linked db hs ∧ db.book hs = b
  inv : b.Inv
  room : b.orders.length ≤ caps.orders

/-- The trades of the last call. -/
def trades (st : Store caps S) (s : State S) : List TradeRow := (st.view s.store).trades

/-- A store whose trades are reset. -/
def reset (db : Db) : Db := { db with trades := [] }

/-- The start of a call. -/
theorem returns_start (h : At st s db n) (hlink : Linked db hs) {α : Type}
    {f : Prog (State S) α} {Q : α → State S → Prop}
    (hf : ∀ s', At st s' (reset db) 0 → Linked (reset db) hs → Returns f s' Q) :
    Returns (do
      modify fun s => { s with me_ntrades := 0 }
      call st.exec .tradeReset
      f) s Q := by
  have h₀ : At st { s with me_ntrades := 0 } db 0 := ⟨h.valid, h.view, rfl⟩
  refine .bind (Q := fun _ s' => At st s' db 0) ⟨(), _, rfl, h₀⟩ fun _ s₁ h₁ => ?_
  refine (returns_call h₁ .tradeReset trivial).bind ?_
  rintro _ s₂ ⟨_, rfl, h₂⟩
  exact hf s₂ h₂ ⟨h₂.wf, hlink.nodup, hlink.tree, hlink.queued, hlink.hash, hlink.levels⟩

/-- `ME_hash_find`. -/
theorem returns_hashFind (h : At st s db n) (hlink : Linked db hs) (id : UInt64) :
    Returns (call st.exec (.hashFind id)) s fun o s' => At st s' db n ∧
      (o = none ∧ id ∉ (db.book hs).ids ∨
        id ∈ (db.book hs).ids ∧ ∃ o', o = some o' ∧ o' ∈ db.oLive ∧ (db.row o').id = id) := by
  refine (returns_call h (.hashFind id) trivial).mono ?_
  rintro o s' ⟨db', ⟨hdb, ho⟩, h'⟩
  obtain rfl : db = db' := hdb.symm
  refine ⟨h', ?_⟩
  rw [hlink.mem_ids]
  cases o with
  | none => exact .inl ⟨rfl, fun ⟨q, hq, he⟩ => ho q hq he⟩
  | some o =>
    have hlive : o ∈ db.oLive := hlink.hash ▸ ho.1
    refine .inr ⟨⟨o, ho⟩, o, rfl, hlive, ?_⟩
    obtain ⟨r, hr⟩ := Option.isSome_iff_exists.mp ((h'.wf.orders_live o).mpr hlive)
    have hid := ho.2
    unfold Db.orderId at hid
    rw [hr] at hid
    rw [Db.row_eq hr]
    exact hid

/-- The codes of the types for which the capacity is checked. -/
theorem full_iff {o : OrderType} : (o.code = 0 ∨ o.code = 3) ↔ o = .limit ∨ o = .postOnly := by
  cases o <;> decide

/-- The test for a full store. -/
theorem returns_genFull (h : At st s db n) (hlink : Linked db hs) :
    Returns (genFull st.exec r.otype.code) s fun b s' =>
      (b = true ↔ r.rests ∧ caps.orders ≤ (db.book hs).orders.length) ∧ At st s' db n := by
  unfold genFull Request.rests
  by_cases hr : r.otype = .limit ∨ r.otype = .postOnly
  · rw [if_pos (full_iff.mpr hr)]
    refine (returns_call h .capacity trivial).bind ?_
    rintro c s₁ ⟨db₁, ⟨hc, hdb₁⟩, h₁⟩
    obtain rfl : db₁ = db := hdb₁
    refine (returns_call h₁ .orderCount trivial).bind ?_
    rintro k s₂ ⟨db₂, ⟨hk, hdb₂⟩, h₂⟩
    obtain rfl : db₂ = db₁ := hdb₂
    refine .pure ⟨?_, h₂⟩
    rw [decide_eq_true_iff, UInt64.le_iff_toNat_le, hc, hk, ← hlink.card_orders]
    exact ⟨fun hle => ⟨hr, hle⟩, And.right⟩
  · rw [if_neg fun hc => hr (full_iff.mp hc)]
    exact .pure ⟨by simp [hr], h⟩

/-- The codes of the types. -/
theorem typeOk_iff {c : UInt64} :
    ((c = 0 ∨ c = 1) ∨ (c = 2 ∨ c = 3)) ↔ (OrderType.ofCode c).isSome := by
  simp only [Option.isSome_iff_exists, OrderType.ofCode_eq_some]
  constructor
  · rintro ((rfl | rfl) | (rfl | rfl))
    exacts [⟨.limit, rfl⟩, ⟨.market, rfl⟩, ⟨.ioc, rfl⟩, ⟨.postOnly, rfl⟩]
  · rintro ⟨t, rfl⟩
    cases t <;> decide

/-- The codes of the sides. -/
theorem sideOk_iff {c : UInt64} : (c = 0 ∨ c = 1) ↔ (Tree.ofCode c).isSome := by
  simp only [Option.isSome_iff_exists, Tree.ofCode_eq_some]
  constructor
  · rintro (rfl | rfl)
    exacts [⟨.bids, rfl⟩, ⟨.asks, rfl⟩]
  · rintro ⟨t, rfl⟩
    cases t <;> decide

/-- The codes of the modes. -/
theorem stpOk_iff {c : UInt64} :
    ((c = 0 ∨ c = 1) ∨ ((c = 2 ∨ c = 3) ∨ c = 4)) ↔ (StpMode.ofCode c).isSome := by
  simp only [Option.isSome_iff_exists, StpMode.ofCode_eq_some]
  constructor
  · rintro ((rfl | rfl) | ((rfl | rfl) | rfl))
    exacts [⟨.none, rfl⟩, ⟨.cancelNew, rfl⟩, ⟨.cancelOld, rfl⟩, ⟨.cancelBoth, rfl⟩,
      ⟨.decrement, rfl⟩]
  · rintro ⟨m, rfl⟩
    cases m <;> decide

/-- `me_div(18446744073709551615, bound)` is the largest quantity. -/
theorem returns_qmax {bound : UInt64}
    (hb : bound.toNat = caps.orders + 1) (h : At st s db n) :
    Returns (meDiv 18446744073709551615 bound) s fun v s' =>
      v.toNat = Book.qmax caps.orders ∧ At st s' db n := by
  have hne : bound ≠ 0 := fun h0 => by
    rw [h0] at hb
    cases hb
  unfold meDiv
  rw [if_neg hne]
  refine .pure ⟨?_, h⟩
  rw [UInt64.toNat_div, hb]
  rfl

/-- The two calls that a valid request may end with. -/
theorem returns_genProcessSide (hcap : caps.orders + 1 < 2^64) (h : At st s db 0)
    (hlink : Linked db hs) (hinv : (db.book hs).Inv) (hid : r.id ∉ (db.book hs).ids)
    (htrades : db.trades = []) (hroom : db.oLive.card ≤ caps.orders) :
    Returns (if r.side.code = 0 then genProcessBuy st.exec r.id r.account r.side.code r.otype.code
        r.stp.code r.price r.qty
      else genProcessSell st.exec r.id r.account r.side.code r.otype.code r.stp.code r.price r.qty) s
      fun c s' => ∃ db' hs' n', At st s' db' n' ∧ Linked db' hs' ∧
        (db.book hs).Ends r caps c (db'.book hs') db'.trades := by
  unfold genProcessBuy genProcessSell
  cases hside : r.side with
  | bids =>
    have := returns_genProcess (fun best price => best ≤ price) hcap
      (fun p => by rw [hside]; rfl) h hlink hinv hid htrades hroom
    rw [hside] at this
    exact this
  | asks =>
    have := returns_genProcess (fun best price => price ≤ best) hcap
      (fun p => by rw [hside]; rfl) h hlink hinv hid htrades hroom
    rw [hside] at this
    exact this

section Request

variable {cap : ℕ} {st : Store (.uniform cap) S} {q : OrderRequest}

/-- A request that leaves the book as it is. -/
theorem Ready.kept {c : UInt64} {b : Book} (h : Ready st s b)
    (hp : b.processed cap q = (c, ⟨b, q.qty, []⟩)) (hts : trades st s = []) :
    c = (b.processed cap q).1 ∧ trades st s = (b.processed cap q).2.trades ∧
      Ready st s (b.processed cap q).2.left := by
  rw [hp]
  exact ⟨rfl, hts, h⟩

/-- A valid request after the checks that do not need the store. -/
theorem returns_genProcessValid (hcap : cap + 1 < 2^64) (h : At st s db 0) (hlink : Linked db hs)
    (hts : db.trades = []) (hinv : (db.book hs).Inv) (hroom : (db.book hs).orders.length ≤ cap)
    (hd : q.decode = some r) :
    Returns (do
      let bound ← meAdd (← call st.exec .capacity) 1
      let qmax ← meDiv 18446744073709551615 bound
      if qmax < r.qty then return 3
      else if (← call st.exec (.hashFind r.id)).isSome then return 4
      else if ← genFull st.exec r.otype.code then return 5
      else if r.side.code = 0 then
        genProcessBuy st.exec r.id r.account r.side.code r.otype.code r.stp.code r.price r.qty
      else genProcessSell st.exec r.id r.account r.side.code r.otype.code r.stp.code r.price r.qty)
      s fun c s' => c = ((db.book hs).processed cap q).1 ∧
        trades st s' = ((db.book hs).processed cap q).2.trades ∧
          Ready st s' ((db.book hs).processed cap q).2.left := by
  have hp : (db.book hs).processed cap q = _ := Book.processed_valid hd
  -- A refusal leaves the book as it is, and without trades.
  have hready : ∀ {s'}, At st s' db 0 → Ready st s' (db.book hs) ∧ trades st s' = [] :=
    fun h' => ⟨⟨⟨db, hs, 0, h', hlink, rfl⟩, hinv, hroom⟩, (congrArg Db.trades h'.view).trans hts⟩
  refine returns_bound hcap h fun bound s₁ hbound h₁ => ?_
  refine (returns_qmax hbound h₁).bind ?_
  rintro v s₂ ⟨hv, h₂⟩
  have hlt : v < r.qty ↔ Book.qmax cap < r.qty.toNat := by
    rw [UInt64.lt_iff_toNat_lt, hv]
    exact Iff.rfl
  -- The checks in the order of the code: bound, duplicate, room.
  by_cases hq : Book.qmax cap < r.qty.toNat
  · rw [if_pos (hlt.mpr hq)]
    rw [if_pos hq] at hp
    exact .pure ((hready h₂).1.kept hp (hready h₂).2)
  rw [if_neg (fun hc => hq (hlt.mp hc))]
  rw [if_neg hq] at hp
  refine (returns_hashFind h₂ hlink r.id).bind ?_
  rintro _ s₃ ⟨h₃, ⟨rfl, hid⟩ | ⟨hid, o, rfl, -⟩⟩
  swap
  · rw [if_pos hid] at hp
    exact .pure ((hready h₃).1.kept hp (hready h₃).2)
  rw [if_neg hid] at hp
  refine (returns_genFull h₃ hlink).bind ?_
  rintro f s₄ ⟨hf, h₄⟩
  by_cases hfull : r.rests ∧ cap ≤ (db.book hs).orders.length
  · rw [if_pos (hf.mpr hfull)]
    rw [if_pos hfull] at hp
    exact .pure ((hready h₄).1.kept hp (hready h₄).2)
  rw [if_neg (fun hc => hfull (hf.mp hc))]
  rw [if_neg hfull] at hp
  have hcard : db.oLive.card ≤ (Caps.uniform cap).orders := hlink.card_orders ▸ hroom
  refine (returns_genProcessSide hcap h₄ hlink hinv hid hts hcard).mono ?_
  rintro c s₅ ⟨db₅, hs₅, n₅, h₅, hlink₅, hends⟩
  have hready₅ : Ready st s₅ (db₅.book hs₅) :=
    ⟨⟨db₅, hs₅, n₅, h₅, hlink₅, rfl⟩, hends.inv hinv hid, hends.orders_le hroom⟩
  have hts₅ : trades st s₅ = db₅.trades := congrArg Db.trades h₅.view
  generalize db₅.book hs₅ = b', db₅.trades = ts at hends hready₅ hts₅
  -- The three ends of a request. That the book is full has been ruled out by the check for room.
  cases hends with
  | postOnly hpost =>
    rw [if_pos hpost] at hp
    exact hready₅.kept hp hts₅
  | full _ hrest hfull' =>
    exact absurd (hinv.hasRoom (not_le.mp fun hle => hfull ⟨hrest.2, hle⟩)) hfull'
  | placed hpost =>
    rw [if_neg hpost] at hp
    rw [hp]
    exact ⟨rfl, hts₅, hready₅⟩

/-- A request over a store with one capacity for both kinds of rows. -/
theorem returns_genProcessOrder (hcap : cap + 1 < 2^64) {b : Book} (h : Ready st s b)
    (q : OrderRequest) :
    Returns (genProcessOrder st.exec q.id q.account_id q.side.toUInt64 q.order_type.toUInt64
      q.stp_mode.toUInt64 q.price q.qty) s fun c s' => c = (b.processed cap q).1 ∧
        trades st s' = (b.processed cap q).2.trades ∧ Ready st s' (b.processed cap q).2.left := by
  obtain ⟨⟨db, hs, n, hat, hlink, rfl⟩, hinv, hroom⟩ := h
  unfold genProcessOrder
  refine returns_start hat hlink fun s₁ h₁ hlink₁ => ?_
  have hts₁ : (reset db).trades = [] := rfl
  rw [show db.book hs = (reset db).book hs from rfl] at hinv hroom ⊢
  generalize reset db = db₁ at h₁ hlink₁ hinv hroom hts₁ ⊢
  have hready : Ready st s₁ (db₁.book hs) := ⟨⟨_, hs, 0, h₁, hlink₁, rfl⟩, hinv, hroom⟩
  have hts : trades st s₁ = [] := (congrArg Db.trades h₁.view).trans hts₁
  have hsome := q.decode_isSome
  rw [← typeOk_iff, ← sideOk_iff, ← stpOk_iff] at hsome
  -- The request decodes just when the five checks before the bound let it through.
  cases hd : q.decode with
  | some r =>
    rw [hd] at hsome
    obtain ⟨htype, hside, hstp, hqty, hprice⟩ := hsome.mp rfl
    rw [if_neg (not_not.mpr htype), if_neg (not_not.mpr hside), if_neg (not_not.mpr hstp),
      if_neg hqty, if_neg (fun hc => hprice hc.1 hc.2)]
    have hdecodes := OrderRequest.decodes hd
    rw [← hdecodes.id, ← hdecodes.account, ← hdecodes.side, ← hdecodes.otype, ← hdecodes.stp,
      ← hdecodes.price, ← hdecodes.qty]
    exact returns_genProcessValid hcap h₁ hlink₁ hts₁ hinv hroom hd
  | none =>
    rw [hd] at hsome
    by_cases htype : (q.order_type.toUInt64 = 0 ∨ q.order_type.toUInt64 = 1) ∨
      (q.order_type.toUInt64 = 2 ∨ q.order_type.toUInt64 = 3)
    swap
    · rw [if_pos htype]
      rw [typeOk_iff, Option.not_isSome_iff_eq_none] at htype
      exact .pure (hready.kept (Book.processed_unsupported htype) hts)
    -- A wrong type has a code of its own.
    have hinvalid := hready.kept (Book.processed_invalid (typeOk_iff.mp htype) hd) hts
    rw [if_neg (not_not.mpr htype)]
    refine .ite (fun _ => .pure hinvalid) fun hside => ?_
    refine .ite (fun _ => .pure hinvalid) fun hstp => ?_
    refine .ite (fun _ => .pure hinvalid) fun hqty => ?_
    refine .ite (fun _ => .pure hinvalid) fun hprice => ?_
    rw [not_not] at hside hstp
    cases hsome.mpr ⟨htype, hside, hstp, hqty, fun h1 h0 => hprice ⟨h1, h0⟩⟩

end Request

section Cancel

variable {t : Tree} {l : LevelH} {o : OrderH}

/-- The empty level of an order that is taken out. -/
theorem returns_genUnlink (h : At st s db n) (hlink : Linked db hs) (hl : l ∈ hs t)
    (hq : db.queue l = []) {α : Type} {f : Prog (State S) α} {Q : α → State S → Prop}
    (hf : ∀ s', At st s' (db.dropLevel t l) n → Returns f s' Q) :
    Returns (do
      if t.code = 0 then call st.exec (.treeRemove .bids l)
      else call st.exec (.treeRemove .asks l)
      call st.exec (.levelFree l)
      f) s Q := by
  have hdrop := (returns_genDropLevel h hlink hl hq).bind fun _ s' h' => hf s' h'
  unfold genDropLevel at hdrop
  rw [bind_assoc] at hdrop
  cases t with
  | bids => exact hdrop
  | asks => exact hdrop

/-- The owner of a queued order is its level. -/
theorem returns_orderOwner (h : At st s db n) (hlink : Linked db hs) (ho : o ∈ db.queue l) :
    Returns (call st.exec (.orderOwner o)) s fun r s' => r = some l ∧ At st s' db n := by
  refine (returns_call h (.orderOwner o) (hlink.order_live ho)).mono ?_
  rintro r s' ⟨db', ⟨hdb, hr⟩, h'⟩
  obtain rfl : db = db' := hdb.symm
  cases r with
  | none => exact absurd ⟨l, ho⟩ hr
  | some m => exact ⟨congrArg some (hlink.queue_inj hr ho), h'⟩

/-- `gen_cancel_order`. -/
theorem returns_genCancelOrder {b : Book} (h : Ready st s b) (id : UInt64) :
    Returns (genCancelOrder st.exec id) s fun c s' => c = (b.cancelled id).1 ∧ trades st s' = [] ∧
      Ready st s' (b.cancelled id).2 := by
  obtain ⟨⟨db, hs, n, hat, hlink, rfl⟩, hinv, hroom⟩ := h
  unfold genCancelOrder
  refine returns_start hat hlink fun s₁ h₁ hlink₁ => ?_
  have hts₁ : (reset db).trades = [] := rfl
  rw [show db.book hs = (reset db).book hs from rfl] at hinv hroom ⊢
  generalize reset db = db₁ at h₁ hlink₁ hinv hroom hts₁ ⊢
  unfold Book.cancelled Book.cancel
  refine (returns_hashFind h₁ hlink₁ id).bind ?_
  rintro _ s₂ ⟨h₂, ⟨rfl, hid⟩ | ⟨hid, o, rfl, hlive, rfl⟩⟩
  -- No order has the id.
  · rw [if_neg hid]
    exact .pure ⟨rfl, (congrArg Db.trades h₂.view).trans hts₁, ⟨_, hs, 0, h₂, hlink₁, rfl⟩, hinv, hroom⟩
  · rw [if_pos hid]
    -- The order with its level and the side that its row says.
    obtain ⟨t, l, hl, ho⟩ := (hlink₁.queued o).mp hlive
    obtain ⟨p, hp⟩ := Option.isSome_iff_exists.mp (hlink₁.order_live ho)
    have hside : p.get .side = t.code := by
      refine ((hinv.side t).row (db₁.levelOf l) ?_ p ?_).side_eq
      · rw [Db.book_side]
        exact List.mem_map_of_mem hl
      · exact Db.row_eq hp ▸ List.mem_map_of_mem ho
    have hne : ∀ u, ∀ m ∈ hs u, db₁.queue m ≠ [] := by
      intro u m hm hq
      refine (hinv.side u).nonempty (db₁.levelOf m) ?_ (by unfold Db.levelOf; rw [hq]; rfl)
      rw [Db.book_side]
      exact List.mem_map_of_mem hm
    refine (returns_orderOwner h₂ hlink₁ ho).bind ?_
    rintro _ s₃ ⟨rfl, h₃⟩
    refine (returns_orderGet h₃ hp .side).bind ?_
    rintro _ s₄ ⟨rfl, h₄⟩
    refine (returns_genDrop h₄ hlink₁ ho).bind fun _ s₅ h₅ => ?_
    have hlink₅ := hlink₁.dropOrder ho h₅.wf
    refine (returns_levelGetCount h₅ (hlink₁.level_live hl)).bind ?_
    rintro k s₆ ⟨hk, h₆⟩
    -- What both ends have in common: the order is off its side, and no trade is made.
    have hdone : ∀ {s' db' hs'}, At st s' db' 0 → Linked db' hs' → db'.trades = [] →
        (∀ u, (db'.book hs').side u = removeId (db₁.row o).id ((db₁.book hs).side u)) →
        trades st s' = [] ∧ Ready st s' ⟨removeId (db₁.row o).id (db₁.book hs).bids,
          removeId (db₁.row o).id (db₁.book hs).asks⟩ := by
      intro s' db' hs' h' hlink' hts' hbook
      have hbook' : db'.book hs' = ⟨removeId (db₁.row o).id (db₁.book hs).bids,
          removeId (db₁.row o).id (db₁.book hs).asks⟩ := Book.ext (hbook .bids) (hbook .asks)
      have hcancel := hinv.cancel (if_pos hid)
      refine ⟨(congrArg Db.trades h'.view).trans hts', ⟨_, _, _, h', hlink', hbook'⟩, hcancel, ?_⟩
      rw [Book.remove_orders]
      exact (List.length_filter_le _ _).trans hroom
    by_cases hempty : k = 0
    · -- The level is used up and taken out.
      have hq := hk.mp hempty
      rw [if_pos hempty, hside]
      refine returns_genUnlink h₆ hlink₅ hl hq fun s₇ h₇ => .pure ⟨rfl, ?_⟩
      refine hdone h₇ (hlink₅.dropLevel hl hq h₇.wf) hts₁ fun u => ?_
      exact hlink₁.removeId_side_of_nil hl ho (hne u) hq
    · rw [if_neg hempty]
      refine .pure ⟨rfl, hdone h₆ hlink₅ hts₁ fun u => ?_⟩
      exact hlink₁.removeId_side_of_ne ho (hne u) fun hq => hempty (hk.mpr hq)

end Cancel

end MatchingEngine.Gen
