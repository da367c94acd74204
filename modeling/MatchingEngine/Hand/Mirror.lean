import MatchingEngine.Book.Mirror
import MatchingEngine.Hand.Book

/-!
# The handwritten matcher treats both sides alike

`MatchingEngine_ProcessOrder` has a half for buyers and one for sellers. A run of calls on a matcher
and the run of the mirrored calls on its mirror return the same, report mirrored trades, and end in
mirrored books, whether or not a pool is exhausted on the way.

By `Hand/Refine.lean` a call does what `Steps` says, so it is enough that `Steps` has one outcome
(`Steps.unique`) and commutes with the mirror (`Steps.mirror`). No resting order has the price zero,
which is `Steps.priced`. `runs_mirror` is the induction on the calls, from any two reachable states
whose books are mirrors of each other.
-/

namespace MatchingEngine

open Contract Lib C

/-! ## Mirrored calls -/

/-- A request of the other side at the negated price. Codes that are no side, and the price of a
market order, stay. -/
def OrderRequest.mirror (q : OrderRequest) : OrderRequest :=
  { q with
    side := if q.side = 0 then 1 else if q.side = 1 then 0 else q.side
    price := if q.order_type = 1 then q.price else -q.price }

/-- The side of a mirrored request. -/
theorem Tree.ofCode_mirror (q : OrderRequest) :
    Tree.ofCode q.mirror.side.toUInt64 = (Tree.ofCode q.side.toUInt64).map Tree.other := by
  -- Any other code is no side, and its mirror is none either.
  have hnone : ∀ c : UInt8, c ≠ 0 → c ≠ 1 → Tree.ofCode c.toUInt64 = none := by
    refine fun c h0 h1 => Option.eq_none_iff_forall_ne_some.mpr fun t ht => ?_
    have hcode := Tree.ofCode_eq_some.mp ht
    cases t with
    | bids => exact h0 (UInt8.toUInt64_inj.mp (show UInt8.toUInt64 0 = _ from hcode)).symm
    | asks => exact h1 (UInt8.toUInt64_inj.mp (show UInt8.toUInt64 1 = _ from hcode)).symm
  unfold OrderRequest.mirror
  dsimp only
  split
  · rename_i h
    rw [h]
    rfl
  · rename_i h0
    split
    · rename_i h1
      rw [h1]
      rfl
    · rename_i h1
      rw [hnone _ h0 h1]
      rfl

/-- The mirror of a valid request is valid. -/
theorem OrderRequest.decode_mirror (q : OrderRequest) :
    q.mirror.decode = q.decode.map Request.mirror := by
  unfold OrderRequest.decode
  rw [Tree.ofCode_mirror]
  cases Tree.ofCode q.side.toUInt64 with
  | none => rfl
  | some side =>
    cases hotype : OrderType.ofCode q.order_type.toUInt64 with
    | none =>
      have hotype : OrderType.ofCode q.mirror.order_type.toUInt64 = none := hotype
      rw [hotype]
      rfl
    | some otype =>
      have hotype' : OrderType.ofCode q.mirror.order_type.toUInt64 = some otype := hotype
      rw [hotype']
      cases hstp : StpMode.ofCode q.stp_mode.toUInt64 with
      | none =>
        have hstp : StpMode.ofCode q.mirror.stp_mode.toUInt64 = none := hstp
        rw [hstp]
        rfl
      | some stp =>
        have hstp : StpMode.ofCode q.mirror.stp_mode.toUInt64 = some stp := hstp
        rw [hstp]
        -- The price of a market request is kept, and that of any other is negated.
        have hmarket : q.order_type = 1 ↔ otype = .market := by
          have hcode := OrderType.ofCode_eq_some.mp hotype
          constructor
          · intro h
            rw [h] at hcode
            cases otype <;> first | rfl | exact absurd hcode (by decide)
          · rintro rfl
            exact (UInt8.toUInt64_inj.mp (show UInt8.toUInt64 1 = _ from hcode)).symm
        have hprice : q.mirror.price = if otype = .market then q.price else -q.price :=
          if_congr hmarket rfl rfl
        dsimp only [Option.map_some]
        -- A price is zero exactly if its negation is.
        by_cases h : q.qty ≠ 0 ∧ (otype ≠ .market → q.price ≠ 0)
        · have h' : q.mirror.qty ≠ 0 ∧ (otype ≠ .market → q.mirror.price ≠ 0) := by
            refine ⟨h.1, fun hm => ?_⟩
            rw [hprice, if_neg hm]
            exact fun h0 => h.2 hm (neg_eq_zero.mp h0)
          rw [dif_pos h, dif_pos h', Option.map_some]
          refine congrArg some ?_
          unfold Request.mirror
          simp only [Request.mk.injEq, hprice]
          exact ⟨rfl, rfl, trivial, trivial, trivial, trivial, rfl⟩
        · have h' : ¬ (q.mirror.qty ≠ 0 ∧ (otype ≠ .market → q.mirror.price ≠ 0)) := by
            refine fun hx => h ⟨hx.1, fun hm h0 => hx.2 hm ?_⟩
            rw [hprice, if_neg hm, h0]
            rfl
          rw [dif_neg h, dif_neg h']
          rfl

namespace Hand

/-- A trade at the negated price. -/
def TradeEvent.mirror (e : TradeEvent) : TradeEvent := { e with price := -e.price }

/-- A call for the mirror of a book. -/
def Call.mirror : Call → Call
  | .process req => .process (req.map OrderRequest.mirror)
  | .cancel order_id => .cancel order_id

/-! ## One call -/

section Steps

variable {caps : Caps} {b b' b'' : Book} {c : Call} {ok ok' : Bool} {ts ts' : List TradeRow}

/-- A call that does something to a book does the mirrored thing to the mirror. -/
theorem Steps.mirror (hb : b.Priced) (h : Steps caps b c ok b' ts) :
    Steps caps b.mirror c.mirror ok b'.mirror (ts.map TradeRow.mirror) := by
  cases h with
  | null => exact .null
  | invalid hd => exact .invalid (by rw [OrderRequest.decode_mirror, hd]; rfl)
  | @duplicate q r hd hid =>
    have hd : q.mirror.decode = some r.mirror := by rw [OrderRequest.decode_mirror, hd]; rfl
    exact .duplicate hd (Book.mem_ids_mirror.mpr hid)
  | @ends q r _ _ _ hd hid h =>
    have hd : q.mirror.decode = some r.mirror := by rw [OrderRequest.decode_mirror, hd]; rfl
    exact .ends hd (mt Book.mem_ids_mirror.mp hid) (h.mirror hb)
  | cancel id =>
    have h : Steps caps b.mirror (.cancel id) _ _ _ := .cancel id
    rw [Book.cancel_mirror, Option.isSome_map, Option.getD_map] at h
    exact h

/-- A call leaves a book with prices. -/
theorem Steps.priced (hb : b.Priced) (h : Steps caps b c ok b' ts) : b'.Priced := by
  cases h with
  | null | invalid | duplicate => exact hb
  | ends _ _ h => exact h.priced hb
  | cancel id =>
    cases hc : b.cancel id with
    | none => exact hb
    | some b' => exact hb.cancel hc

/-- A call does one thing only. -/
theorem Steps.unique (h : Steps caps b c ok b' ts) (h' : Steps caps b c ok' b'' ts') :
    ok = ok' ∧ b' = b'' ∧ ts = ts' := by
  cases h with
  | null =>
    cases h'
    exact ⟨rfl, rfl, rfl⟩
  | invalid hd =>
    cases h' with
    | invalid => exact ⟨rfl, rfl, rfl⟩
    | duplicate hd' | ends hd' =>
      rw [hd] at hd'
      cases hd'
  | duplicate hd hid =>
    cases h' with
    | invalid => exact ⟨rfl, rfl, rfl⟩
    | duplicate => exact ⟨rfl, rfl, rfl⟩
    | ends hd' hid' =>
      rw [hd] at hd'
      cases hd'
      exact absurd hid hid'
  | ends hd hid h =>
    cases h' with
    | invalid hd' =>
      rw [hd] at hd'
      cases hd'
    | duplicate hd' hid' =>
      rw [hd] at hd'
      cases hd'
      exact absurd hid' hid
    | ends hd' _ h' =>
      rw [hd] at hd'
      cases hd'
      obtain ⟨rfl, rfl, rfl⟩ := h.unique h'
      exact ⟨rfl, rfl, rfl⟩
  | cancel id =>
    cases h'
    exact ⟨rfl, rfl, rfl⟩

end Steps

/-! ## Runs -/

section Runs

variable {calloc : EngineDb.Calloc} {engine : Option Engine} {cb : Bool} {t t' : State}

/-- The book of every reachable state has prices. -/
theorem Reach.priced (h : Reach (Hand.init calloc engine cb) t) : t.book.Priced := by
  induction h with
  | init =>
    rw [book_init]
    intro t l hl
    cases t <;> cases hl
  | call c h hexec ih =>
    obtain ⟨b, hb⟩ := h.standsFor
    obtain ⟨ok, t'', hrun, b', ts, hstep, hb', -⟩ := hb.call c nofun
    rw [hexec] at hrun
    cases hrun
    rw [hb.book_eq] at ih
    rw [hb'.book_eq]
    exact hstep.priced ih

/-- A call on a matcher and the mirrored call on its mirror. -/
theorem call_mirror {e e' : Engine} (h : Reach (Hand.init calloc (some e) true) t)
    (h' : Reach (Hand.init calloc (some e') true) t') (hbook : t'.book = t.book.mirror) (c : Call) :
    ∃ ok u u' es, c.exec t = some (ok, u) ∧ c.mirror.exec t' = some (ok, u') ∧
      u'.book = u.book.mirror ∧ u.events = t.events ++ es ∧
      u'.events = t'.events ++ es.map TradeEvent.mirror := by
  obtain ⟨b, hb⟩ := h.standsFor
  obtain ⟨b', hb'⟩ := h'.standsFor
  obtain ⟨x, hx, hcb⟩ := h.engine_eq
  obtain ⟨x', hx', hcb'⟩ := h'.engine_eq
  obtain ⟨ok, u, hrun, d, ts, hstep, hd, hu⟩ := hb.call c nofun
  obtain ⟨ok', u', hrun', d', ts', hstep', hd', hu'⟩ := hb'.call c.mirror nofun
  rw [hb.book_eq, hb'.book_eq] at hbook
  have hpriced := h.priced
  rw [hb.book_eq] at hpriced
  rw [hbook] at hstep'
  -- The mirror of what the first call does is what the second one does.
  obtain ⟨rfl, rfl, rfl⟩ := (hstep.mirror hpriced).unique hstep'
  refine ⟨ok, u, u', ts.map eventOf, hrun, hrun', ?_, ?_, ?_⟩
  · rw [hd.book_eq, hd'.book_eq]
  · rw [hu, State.reports_eq hx, if_pos hcb]
  · rw [hu', State.reports_eq hx', if_pos hcb', List.map_map, List.map_map]
    rfl

/-- Both sides are treated alike: a run of calls on a matcher and the run of the mirrored calls on
one that holds the mirrored book return the same, call back for mirrored trades, and leave a book
and its mirror, however full the pools are. -/
theorem runs_mirror {e e' : Engine} (h : Reach (Hand.init calloc (some e) true) t)
    (h' : Reach (Hand.init calloc (some e') true) t') (hbook : t'.book = t.book.mirror)
    (cs : List Call) :
    ∃ oks u u' es, run cs t = some (oks, u) ∧ run (cs.map Call.mirror) t' = some (oks, u') ∧
      u'.book = u.book.mirror ∧ u.events = t.events ++ es ∧
      u'.events = t'.events ++ es.map TradeEvent.mirror := by
  induction cs generalizing t t' with
  | nil =>
    refine ⟨[], t, t', [], rfl, rfl, hbook, ?_, ?_⟩
    · rw [List.append_nil]
    · rw [List.map_nil, List.append_nil]
  | cons c cs ih =>
    obtain ⟨ok, v, v', es₁, hc, hc', hv, he, he'⟩ := call_mirror h h' hbook c
    obtain ⟨oks, u, u', es₂, hcs, hcs', hu, hes, hes'⟩ := ih (.call c h hc) (.call c.mirror h' hc') hv
    refine ⟨ok :: oks, u, u', es₁ ++ es₂, ?_, ?_, hu, ?_, ?_⟩
    · exact run_bind_iff.mpr ⟨ok, v, hc, run_bind_iff.mpr ⟨oks, u, hcs, rfl⟩⟩
    · exact run_bind_iff.mpr ⟨ok, v', hc', run_bind_iff.mpr ⟨oks, u', hcs', rfl⟩⟩
    · rw [hes, he, List.append_assoc]
    · rw [hes', he', List.map_append, List.append_assoc]

/-- A bid and an ask that trade, and their mirrors. -/
theorem runs_mirror_init :
    let cs := [Call.process (some ⟨1, 7, 0, 0, 0, 100, 5⟩), .process (some ⟨2, 8, 1, 0, 0, 99, 3⟩)]
    let t := Hand.init ⟨true, true⟩ (some ⟨0, 0, false⟩) true
    ∃ oks u u' es, run cs t = some (oks, u) ∧ run (cs.map Call.mirror) t = some (oks, u') ∧
      u'.book = u.book.mirror ∧ u.events = t.events ++ es ∧
      u'.events = t.events ++ es.map TradeEvent.mirror :=
  runs_mirror .init .init (by rw [book_init]; rfl) _

end Runs

end Hand

end MatchingEngine
