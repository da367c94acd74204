import MatchingEngine.Book.Totals
import MatchingEngine.Decode
import MatchingEngine.Gen.Program

/-!
# The inner loop of the generated matcher

The inner loop meets the orders of the best level one after the other. Its variable `passive` is the
head of the level's queue until nothing remains of the order, so a turn is one step of
`Request.matchOrders`: what that function makes of the current queue, remainder, and trades stays
the same from turn to turn (`Meeting.target`).
-/

namespace MatchingEngine.Gen

open Contract Lib

variable {S α β : Type} {caps : Caps} {careful : Prop}

/-- The matcher's state `s` is valid and stands for the abstract store `db`, with `n` trades
counted. -/
structure At (st : Store caps S) (s : State S) (db : Db) (n : UInt64) : Prop where
  valid : st.valid s.store
  view : st.view s.store = db
  count : s.me_ntrades = n

section Calls

variable {st : Store caps S} {s : State S} {db : Db} {n : UInt64}

/-- The store is well formed. -/
theorem At.wf (h : At st s db n) : db.WF := h.view ▸ st.wf _ h.valid

/-- A call within its precondition returns and meets its postcondition. -/
theorem returns_call (h : At st s db n) (op : Op α) (hpre : op.pre caps db) :
    Returns (call st.exec op) s fun r s' => ∃ db', op.post caps db r db' ∧ At st s' db' n := by
  obtain ⟨r, store, hexec, hvalid, hpost⟩ := st.law s.store op h.valid (h.view.symm ▸ hpre)
  refine ⟨r, { s with store := store }, ?_, st.view store, h.view ▸ hpost, hvalid, rfl, h.count⟩
  change (st.exec op s.store).map _ = _
  rw [hexec]
  rfl

/-- A field of a live order is read. -/
theorem returns_orderGet (h : At st s db n) {o : OrderH} {p : OrderRow} (ho : db.orders o = some p)
    (f : OrderField) :
    Returns (call st.exec (.orderGet f o)) s fun v s' => v = p.get f ∧ At st s' db n := by
  have hpre : (Op.orderGet f o).pre caps db := by
    change (db.orders o).isSome
    rw [ho]
    rfl
  refine (returns_call h _ hpre).mono ?_
  rintro v s' ⟨db', ⟨rfl, p', hp', rfl⟩, h'⟩
  rw [ho] at hp'
  cases hp'
  exact ⟨rfl, h'⟩

/-- The price of a live level is read. -/
theorem returns_levelGetPrice (h : At st s db n) {l : LevelH} (hl : (db.levels l).isSome) :
    Returns (call st.exec (.levelGetPrice l)) s fun v s' => v = db.levelPrice l ∧ At st s' db n := by
  refine (returns_call h (.levelGetPrice l) hl).mono ?_
  rintro v s' ⟨db', ⟨rfl, hv⟩, h'⟩
  exact ⟨(Db.levelPrice_eq hv).symm, h'⟩

/-- The count of a live level is read, which is zero just when its queue is empty. -/
theorem returns_levelGetCount (h : At st s db n) {l : LevelH} (hl : (db.levels l).isSome) :
    Returns (call st.exec (.levelGetCount l)) s fun v s' =>
      (v = 0 ↔ db.queue l = []) ∧ At st s' db n := by
  refine (returns_call h (.levelGetCount l) hl).mono ?_
  rintro v s' ⟨db', ⟨rfl, hv⟩, h'⟩
  refine ⟨?_, h'⟩
  rw [← List.length_eq_zero_iff, ← hv, ← UInt64.toNat_inj]
  exact Iff.rfl

/-- `me_sub` of a number that is no larger. -/
theorem returns_meSub {a b : UInt64} (hle : b ≤ a) (h : At st s db n) :
    Returns (meSub a b) s fun c s' => c = a - b ∧ At st s' db n := by
  unfold meSub
  rw [if_pos hle]
  exact .pure ⟨rfl, h⟩

/-- `ME_capacity() + 1`, which does not overflow. -/
theorem returns_bound (hcap : caps.orders + 1 < 2^64) (h : At st s db n)
    {f : UInt64 → Prog (State S) β} {Q : β → State S → Prop}
    (hf : ∀ b s', b.toNat = caps.orders + 1 → At st s' db n → Returns (f b) s' Q) :
    Returns (do let b ← meAdd (← call st.exec .capacity) 1; f b) s Q := by
  have h1 : (1 : UInt64).toNat = 1 := rfl
  refine (returns_call h .capacity trivial).bind ?_
  rintro c s' ⟨db', ⟨hc, rfl⟩, h'⟩
  have hadd : c.toNat + (1 : UInt64).toNat < 2^64 := by
    rw [hc, h1]
    exact hcap
  have hsum : (c + 1).toNat = caps.orders + 1 := by
    rw [UInt64.toNat_add, h1, hc]
    exact Nat.mod_eq_of_lt hcap
  unfold meAdd
  rw [if_pos hadd]
  exact hf _ _ hsum h'

/-- A trade emitted. -/
theorem returns_meEmit (hcap : caps.orders + 1 < 2^64) (h : At st s db n)
    (hn : n.toNat = db.trades.length) (hroom : db.trades.length ≤ caps.orders)
    (m t p q : UInt64) :
    Returns (meEmit st.exec m t p q) s fun _ s' =>
      At st s' { db with trades := db.trades ++ [⟨m, t, p, q⟩] } (n + 1) := by
  unfold meEmit
  refine returns_bound hcap h fun b s' hb h' => ?_
  have hlt : ¬ s'.me_ntrades ≥ b := by
    rw [h'.count, ge_iff_le, UInt64.le_iff_toNat_le, hb, hn]
    omega
  refine .bind (.pure (Q := fun x s'' => x = s' ∧ s'' = s') ⟨rfl, rfl⟩) ?_
  rintro _ _ ⟨rfl, rfl⟩
  rw [if_neg hlt]
  refine (returns_call h' (.tradeEmit m t p q) hroom).bind ?_
  rintro _ s'' ⟨db', rfl, h''⟩
  exact ⟨(), _, rfl, h''.valid, h''.view, congrArg (· + 1) h''.count⟩

/-- An order taken out of its queue. -/
theorem returns_genDrop {hs : Tree → List LevelH} {l : LevelH} {o : OrderH} (h : At st s db n)
    (hlink : Linked db hs) (ho : o ∈ db.queue l) :
    Returns (genDrop st.exec l o) s fun _ s' => At st s' (db.dropOrder l o) n := by
  unfold genDrop
  refine (returns_call h (.queueRemove l o) ho).bind ?_
  rintro _ s₁ ⟨_, rfl, h₁⟩
  refine (returns_call h₁ (.hashRemove o) (hlink.order_hashed ho)).bind ?_
  rintro _ s₂ ⟨_, rfl, h₂⟩
  have hfree : (Op.orderFree o).pre caps { db with
      queue := Function.update db.queue l ((db.queue l).erase o), hash := db.hash.erase o } := by
    refine ⟨hlink.order_live ho, ?_, by simp⟩
    rintro ⟨m, hm⟩
    change o ∈ Function.update db.queue l ((db.queue l).erase o) m at hm
    rw [Function.update_apply] at hm
    split at hm
    · exact ((hlink.wf.queue_nodup l).mem_erase_iff.mp hm).1 rfl
    · exact absurd (hlink.queue_inj hm ho) ‹_›
  refine (returns_call h₂ (.orderFree o) hfree).mono ?_
  rintro _ s₃ ⟨_, rfl, h₃⟩
  exact h₃

/-- `gen_min_u64`, with the comparison the other way round. -/
theorem genMinU64_eq (rem q : UInt64) : genMinU64 rem q = if q ≤ rem then q else rem := by
  unfold genMinU64
  split <;> split <;> first | rfl | grind

/-- `ME_queue_next` at the head of a queue. -/
theorem returns_queueNext {l : LevelH} {o : OrderH} {os : List OrderH} (h : At st s db n)
    (hq : db.queue l = o :: os) :
    Returns (call st.exec (.queueNext o)) s fun r s' => r = os.head? ∧ At st s' db n := by
  have ho : o ∈ db.queue l := hq ▸ List.mem_cons_self
  refine (returns_call h (.queueNext o) ⟨l, ho⟩).mono ?_
  rintro r s' ⟨_, ⟨rfl, m, hm, rfl⟩, h'⟩
  obtain rfl := h'.wf.queue_unique l m o ho hm
  rw [hq]
  exact ⟨if_pos rfl, h'⟩

/-- The head of a queue and the remainder `rem` reduced by each other, with `db'` the store after
the report. -/
theorem returns_genReduce {hs : Tree → List LevelH} {l : LevelH} {o : OrderH} {os : List OrderH}
    {p : OrderRow} {rem : UInt64} {report : UInt64 → Prog (State S) Unit} (ts : List TradeRow)
    (k : UInt64) (h : At st s db n) (hlink : Linked db hs)
    (hq : db.queue l = o :: os) (ho : db.orders o = some p)
    (hreport : ∀ fill s' v, fill = (if p.remaining ≤ rem then p.remaining else rem) →
      At st s' (db.setRow o { p with remaining := v }) n → Returns (report fill) s' fun _ s'' =>
        At st s'' { db.setRow o { p with remaining := v } with trades := ts } k) :
    Returns (genReduce st.exec l rem o report) s fun x s' =>
      x = (if p.remaining ≤ rem then rem - p.remaining else 0, os.head?) ∧
        At st s' { (if p.remaining ≤ rem then db.dropOrder l o
          else db.setRow o { p with remaining := p.remaining - rem }) with trades := ts } k := by
  have hmem : o ∈ db.queue l := hq ▸ List.mem_cons_self
  -- Neither checked subtraction traps.
  have hle : genMinU64 rem p.remaining ≤ rem ∧ genMinU64 rem p.remaining ≤ p.remaining := by
    rw [genMinU64_eq]
    split <;> constructor <;> grind
  unfold genReduce
  refine (returns_orderGet h ho .remaining).bind ?_
  rintro _ s₁ ⟨rfl, h₁⟩
  refine (returns_meSub hle.1 h₁).bind ?_
  rintro _ s₂ ⟨rfl, h₂⟩
  refine (returns_orderGet h₂ ho .remaining).bind ?_
  rintro _ s₃ ⟨rfl, h₃⟩
  refine (returns_meSub hle.2 h₃).bind ?_
  rintro _ s₄ ⟨rfl, h₄⟩
  -- The id is not written, so the store accepts the write.
  have hset : (Op.orderSet .remaining o (p.remaining - genMinU64 rem p.remaining)).pre caps db :=
    ⟨by rw [ho]; rfl, fun hf => by cases hf⟩
  refine (returns_call h₄ _ hset).bind ?_
  rintro _ s₅ ⟨_, ⟨p', hp', rfl⟩, h₅⟩
  rw [ho] at hp'
  cases hp'
  refine (hreport _ _ _ (genMinU64_eq ..) h₅).bind ?_
  rintro _ s₆ h₆
  refine (returns_queueNext h₆ hq).bind ?_
  rintro _ s₇ ⟨rfl, h₇⟩
  change Returns (if p.remaining - genMinU64 rem p.remaining = 0 then _ else _) s₇ _
  simp only [genMinU64_eq] at h₇ ⊢
  by_cases hfull : p.remaining ≤ rem
  · -- The passive order is used up.
    simp only [if_pos hfull, UInt64.sub_self, if_true] at h₇ ⊢
    refine (returns_genDrop h₇ (hlink.setRow h₇.wf) hmem).bind fun _ s₈ h₈ => .pure ⟨rfl, ?_⟩
    rw [← Linked.setRow_dropOrder]
    exact h₈
  · have hpos := (Request.sub_pos_of_not_le hfull).1
    have hne : ¬ p.remaining - rem = 0 := fun he => by simp [he] at hpos
    simp only [if_neg hfull, UInt64.sub_self, if_neg hne] at h₇ ⊢
    exact .pure ⟨rfl, h₇⟩

end Calls

/-- The inner loop on the level `l`, from the store `db₀`, when it is to end with `tgt`: where it
stands with the variables `rem` and `passive`, the store `db`, and `n` trades counted. If `careful`
holds, the orders that it takes out fit into what is left of their level. -/
structure Meeting (caps : Caps) (careful : Prop) (r : Request) (hs : Tree → List LevelH)
    (l : LevelH) (db₀ : Db)
    (tgt : Outcome (List OrderRow)) (x : UInt64 × Option OrderH) (db : Db) (n : UInt64) :
    Prop where
  linked : Linked db hs
  off : ∀ m, m ≠ l → db.levelOf m = db₀.levelOf m
  price : db.levelPrice l = db₀.levelPrice l
  /-- The next order to meet is the head of the queue. -/
  passive : x.1 ≠ 0 → x.2 = (db.queue l).head?
  count : n.toNat = db.trades.length
  /-- Every trade but the last one has freed an order. -/
  room : db.trades.length + db.oLive.card ≤ caps.orders + 1 ∧
    (x.1 ≠ 0 → db.trades.length + db.oLive.card ≤ caps.orders)
  /-- What the rest of the loop makes of the queue does not depend on how far it is. -/
  target : (r.matchOrders (db₀.levelPrice l) (db.levelOf l).orders x.1).after db.trades = tgt
  fits : careful → r.FitsOrders (db.levelOf l).orders x.1

namespace Meeting

variable {r : Request} {hs : Tree → List LevelH} {t : Tree} {l : LevelH} {db₀ db : Db}
  {tgt : Outcome (List OrderRow)} {rem rem' : UInt64} {n n' : UInt64} {o : OrderH}
  {os : List OrderH} {p : OrderRow} {us : List TradeRow}

/-- The rows of a queue with its head. -/
theorem orders_eq (hq : db.queue l = o :: os) (ho : db.orders o = some p) :
    (db.levelOf l).orders = p :: os.map db.row := by
  unfold Db.levelOf
  rw [hq, List.map_cons, Db.row_eq ho]

/-- The inner loop starts. -/
theorem start (hlink : Linked db₀ hs) (hn : n.toNat = db₀.trades.length)
    (hroom : db₀.trades.length + db₀.oLive.card ≤ caps.orders)
    (htgt : (r.matchOrders (db₀.levelPrice l) (db₀.levelOf l).orders rem).after db₀.trades = tgt)
    (hfits : careful → r.FitsOrders (db₀.levelOf l).orders rem) :
    Meeting caps careful r hs l db₀ tgt (rem, (db₀.queue l).head?) db₀ n where
  linked := hlink
  off _ _ := rfl
  price := rfl
  passive _ := rfl
  count := hn
  room := ⟨hroom.trans (Nat.le_succ _), fun _ => hroom⟩
  target := htgt
  fits := hfits

/-- The head of the queue taken out, with at most one trade. -/
theorem drop (h : Meeting caps careful r hs l db₀ tgt (rem, some o) db n)
    (hq : db.queue l = o :: os) (hrem : rem ≠ 0) (hus : us.length ≤ db.trades.length + 1)
    (hn : n'.toNat = us.length)
    (hwf : Db.WF { db.dropOrder l o with trades := us })
    (htgt : (r.matchOrders (db₀.levelPrice l) (os.map db.row) rem').after us = tgt)
    (hfits : careful → r.FitsOrders (os.map db.row) rem') :
    Meeting caps careful r hs l db₀ tgt (rem', os.head?)
      { db.dropOrder l o with trades := us } n' := by
  have ho : o ∈ db.queue l := hq ▸ List.mem_cons_self
  have herase : (db.queue l).erase o = os := by rw [hq, List.erase_cons_head]
  -- The order was the head, so the rest of the queue is left.
  have hqueue : (db.dropOrder l o).queue l = os := (Function.update_self ..).trans herase
  have hlive : o ∈ db.oLive := (h.linked.wf.orders_live o).mp (h.linked.order_live ho)
  have hcard : (db.dropOrder l o).oLive.card + 1 = db.oLive.card := by
    change (db.oLive.erase o).card + 1 = _
    exact Finset.card_erase_add_one hlive
  -- No other level changes.
  have hlevel : ∀ m, Db.levelOf { db.dropOrder l o with trades := us } m =
      if m = l then ⟨db.levelPrice l, os.map db.row⟩ else db.levelOf m := fun m => by
    rw [← herase]
    exact h.linked.dropOrder_levelOf ho m
  have hroom := h.room.2 hrem
  refine ⟨h.linked.dropOrder ho hwf, fun m hm => ?_, h.price,
    fun _ => congrArg List.head? hqueue.symm, hn, ?_, ?_, ?_⟩
  · rw [hlevel, if_neg hm]
    exact h.off m hm
  · dsimp only
    omega
  · rw [hlevel, if_pos rfl]
    exact htgt
  · rw [hlevel, if_pos rfl]
    exact hfits

/-- The head of the queue reduced, with at most one trade, when nothing remains of the order. -/
theorem reduce {v : UInt64} {y : Option OrderH}
    (h : Meeting caps careful r hs l db₀ tgt (rem, some o) db n) (hq : db.queue l = o :: os)
    (hrem : rem ≠ 0) (hus : us.length ≤ db.trades.length + 1) (hn : n'.toNat = us.length)
    (hwf : Db.WF { db.setRow o { p with remaining := v } with trades := us })
    (htgt : ⟨{ p with remaining := v } :: os.map db.row, 0, us⟩ = tgt) :
    Meeting caps careful r hs l db₀ tgt (0, y)
      { db.setRow o { p with remaining := v } with trades := us } n' := by
  have ho : o ∈ db.queue l := hq ▸ List.mem_cons_self
  have hroom := h.room.2 hrem
  refine ⟨h.linked.setRow hwf, fun m hm => ?_, h.price, fun h0 => absurd rfl h0, hn, ?_, ?_,
    fun _ => r.fitsOrders_zero _⟩
  · refine (h.off m hm).symm.trans ?_ |>.symm
    exact (Linked.setRow_levelOf_of_not_mem fun hm' => hm (h.linked.queue_inj hm' ho)).symm
  · exact ⟨by change us.length + db.oLive.card ≤ _; omega, fun h0 => absurd rfl h0⟩
  · rw [Request.matchOrders_zero]
    have hlevel := h.linked.setRow_levelOf_head (r := { p with remaining := v }) hq
    refine Eq.trans ?_ htgt
    unfold Outcome.after
    rw [List.append_nil]
    exact congrArg (Outcome.mk · _ _) (congrArg Level.orders hlevel)

end Meeting

section Loop

variable {st : Store caps S} {r : Request} {hs : Tree → List LevelH} {t : Tree} {l : LevelH}
  {db₀ : Db} {tgt : Outcome (List OrderRow)}

/-- Where the inner loop stands. -/
def MeetingAt (st : Store caps S) (careful : Prop) (r : Request) (hs : Tree → List LevelH)
    (l : LevelH) (db₀ : Db) (tgt : Outcome (List OrderRow)) (x : UInt64 × Option OrderH)
    (s : State S) : Prop :=
  ∃ db n, At st s db n ∧ Meeting caps careful r hs l db₀ tgt x db n

/-- The turns that the inner loop has left: one for each order of the queue. -/
def meetingMeasure (st : Store caps S) (l : LevelH) (x : UInt64 × Option OrderH) (s : State S) : ℕ :=
  if x.1 = 0 then 0 else ((st.view s.store).queue l).length

/-- The account test is the one of `Request.prevention`. -/
theorem returns_genSameAccount {s : State S} {db : Db} {n : UInt64} {o : OrderH} {p : OrderRow}
    (h : At st s db n) (ho : db.orders o = some p) :
    Returns (genSameAccount st.exec r.account o) s fun b s' =>
      b = decide (r.account ≠ 0 ∧ r.account = p.account) ∧ At st s' db n := by
  unfold genSameAccount
  by_cases h0 : r.account ≠ 0
  · rw [if_pos h0]
    refine (returns_orderGet h ho .account).bind ?_
    rintro _ s' ⟨rfl, h'⟩
    refine .pure ⟨?_, h'⟩
    rw [Bool.eq_iff_iff, decide_eq_true_iff, decide_eq_true_iff]
    exact ⟨fun he => ⟨h0, he⟩, And.right⟩
  · rw [if_neg h0]
    exact .pure ⟨by simp [h0], h⟩

/-- The report of a trade. -/
theorem returns_report (hcap : caps.orders + 1 < 2^64) {s : State S} {db : Db} {n : UInt64}
    {o : OrderH} {p : OrderRow} {fill v : UInt64}
    (h : At st s (db.setRow o { p with remaining := v }) n) (hl : (db.levels l).isSome)
    (hn : n.toNat = db.trades.length) (hroom : db.trades.length ≤ caps.orders) :
    Returns (do
      let pid ← call st.exec (.orderGet .id o)
      let bprice ← call st.exec (.levelGetPrice l)
      meEmit st.exec pid r.id bprice fill) s fun _ s' =>
        At st s' { db.setRow o { p with remaining := v } with
          trades := db.trades ++ [⟨p.id, r.id, db.levelPrice l, fill⟩] } (n + 1) := by
  refine (returns_orderGet h (Function.update_self ..) .id).bind ?_
  rintro _ s₁ ⟨rfl, h₁⟩
  refine (returns_levelGetPrice h₁ hl).bind ?_
  rintro _ s₂ ⟨rfl, h₂⟩
  exact returns_meEmit hcap h₂ hn hroom ..

/-- A turn of the inner loop. -/
theorem returns_genMeet (hcap : caps.orders + 1 < 2^64) (hl : l ∈ hs t)
    {x : UInt64 × Option OrderH} {s : State S} (hI : MeetingAt st careful r hs l db₀ tgt x s)
    (hgo : (x.2.isSome && 0 < x.1) = true) :
    Returns (genMeet st.exec l r.id r.account r.stp.code x) s fun x' s' =>
      MeetingAt st careful r hs l db₀ tgt x' s' ∧
        meetingMeasure st l x' s' < meetingMeasure st l x s := by
  obtain ⟨db, n, h, hm⟩ := hI
  obtain ⟨rem, passive⟩ := x
  rw [Bool.and_eq_true, Option.isSome_iff_exists, decide_eq_true_iff] at hgo
  obtain ⟨⟨o, rfl : passive = some o⟩, hpos : 0 < rem⟩ := hgo
  have hrem : rem ≠ 0 := UInt64.pos_iff_ne_zero.mp hpos
  obtain ⟨os, hq⟩ : ∃ os, db.queue l = o :: os := List.head?_eq_some_iff.mp (hm.passive hrem).symm
  have hmem : o ∈ db.queue l := hq ▸ List.mem_cons_self
  obtain ⟨p, ho⟩ := Option.isSome_iff_exists.mp (hm.linked.order_live hmem)
  have htgt := hm.target
  simp only [Meeting.orders_eq hq ho, Request.matchOrders, if_neg hrem] at htgt
  have hfits : careful → r.FitsOrders (p :: os.map db.row) rem := Meeting.orders_eq hq ho ▸ hm.fits
  have hmu : meetingMeasure st l (rem, some o) s = os.length + 1 := by
    unfold meetingMeasure
    rw [if_neg hrem, h.view, hq, List.length_cons]
  -- The two ways in which a turn ends.
  have hdrop : ∀ {rem' us n' s'}, us.length ≤ db.trades.length + 1 → n'.toNat = us.length →
      At st s' { db.dropOrder l o with trades := us } n' →
      (r.matchOrders (db₀.levelPrice l) (os.map db.row) rem').after us = tgt →
      (careful → r.FitsOrders (os.map db.row) rem') →
      MeetingAt st careful r hs l db₀ tgt (rem', os.head?) s' ∧
        meetingMeasure st l (rem', os.head?) s' < meetingMeasure st l (rem, some o) s := by
    intro rem' us n' s' hus hn h' ht hf
    refine ⟨⟨_, _, h', hm.drop hq hrem hus hn h'.wf ht hf⟩, ?_⟩
    have hqueue : (st.view s'.store).queue l = os := by
      rw [h'.view]
      exact (Function.update_self ..).trans (by rw [hq, List.erase_cons_head])
    rw [hmu]
    unfold meetingMeasure
    split
    · omega
    · rw [hqueue]
      omega
  have hzero : ∀ {y s'}, meetingMeasure st l (0, y) s' < meetingMeasure st l (rem, some o) s := by
    intro y s'
    rw [hmu]
    exact Nat.succ_pos _
  have hcut : ∀ {v us n' s'}, us.length ≤ db.trades.length + 1 → n'.toNat = us.length →
      At st s' { db.setRow o { p with remaining := v } with trades := us } n' →
      ⟨{ p with remaining := v } :: os.map db.row, 0, us⟩ = tgt →
      MeetingAt st careful r hs l db₀ tgt (0, os.head?) s' ∧
        meetingMeasure st l (0, os.head?) s' < meetingMeasure st l (rem, some o) s :=
    fun hus hn h' ht => ⟨⟨_, _, h', hm.reduce hq hrem hus hn h'.wf ht⟩, hzero⟩
  have hreduce : ∀ {us n'} (x : UInt64 × Option OrderH) s',
      (r.prevention p = .decrement ∨ r.prevention p = .none) →
      (x = (if p.remaining ≤ rem then rem - p.remaining else 0, os.head?) ∧
        At st s' { (if p.remaining ≤ rem then db.dropOrder l o
          else db.setRow o { p with remaining := p.remaining - rem }) with trades := us } n') →
      us.length ≤ db.trades.length + 1 → n'.toNat = us.length →
      (if p.remaining ≤ rem then
        (r.matchOrders (db₀.levelPrice l) (os.map db.row) (rem - p.remaining)).after us
        else ⟨{ p with remaining := p.remaining - rem } :: os.map db.row, 0, us⟩) = tgt →
      MeetingAt st careful r hs l db₀ tgt x s' ∧
        meetingMeasure st l x s' < meetingMeasure st l (rem, some o) s := by
    rintro us n' _ s' hmode ⟨rfl, h'⟩ hus hn ht
    by_cases hfull : p.remaining ≤ rem
    · simp only [if_pos hfull] at h' ht ⊢
      refine hdrop hus hn h' ht fun hc => ?_
      have hstep := hfits hc hrem
      rcases hmode with hmode | hmode <;> (rw [hmode] at hstep; exact hstep hfull)
    · simp only [if_neg hfull] at h' ht ⊢
      exact hcut hus hn h' ht
  have hlive := hm.linked.level_live hl
  have hroom : db.trades.length ≤ caps.orders := by
    have := hm.room.2 hrem
    omega
  have hcount : (n + 1).toNat = (db.trades.length + 1) := by
    have h1 : (1 : UInt64).toNat = 1 := rfl
    rw [UInt64.toNat_add, h1, hm.count]
    omega
  have htrade : ∀ {s₁}, At st s₁ db n → r.prevention p = .none →
      Outcome.after db.trades (if p.remaining ≤ rem then
        (r.matchOrders (db₀.levelPrice l) (os.map db.row) (rem - p.remaining)).after
          [⟨p.id, r.id, db₀.levelPrice l, p.remaining⟩]
        else ⟨{ p with remaining := p.remaining - rem } :: os.map db.row, 0,
          [⟨p.id, r.id, db₀.levelPrice l, rem⟩]⟩) = tgt →
      Returns (genReduce st.exec l rem o fun fill => do
        let pid ← call st.exec (.orderGet .id o)
        let bprice ← call st.exec (.levelGetPrice l)
        meEmit st.exec pid r.id bprice fill) s₁ fun x s' => MeetingAt st careful r hs l db₀ tgt x s' ∧
          meetingMeasure st l x s' < meetingMeasure st l (rem, some o) s := by
    intro s₁ h₁ hmode ht
    refine (returns_genReduce (db.trades ++ [⟨p.id, r.id, db.levelPrice l,
      if p.remaining ≤ rem then p.remaining else rem⟩]) (n + 1) h₁ hm.linked hq ho
      fun fill s' v hfill h' => ?_).mono fun x s' hx =>
        hreduce x s' (.inr hmode) hx (by simp) (by simpa) ?_
    · subst hfill
      exact returns_report hcap h' hlive hm.count hroom
    · rw [← ht, hm.price]
      split <;> simp [Outcome.after, List.append_assoc]
  unfold genMeet
  refine (returns_genSameAccount h ho).bind ?_
  rintro _ s₁ ⟨rfl, h₁⟩
  by_cases hsame : r.account ≠ 0 ∧ r.account = p.account
  · have hprev : r.prevention p = r.stp := if_pos hsame
    rw [hprev] at htgt
    cases hstp : r.stp with
    | none =>
      rw [hstp] at htgt
      rw [if_neg fun hc => hc.2 rfl]
      exact htrade h₁ (hprev.trans hstp) htgt
    | cancelNew =>
      rw [hstp] at htgt
      rw [if_pos ⟨decide_eq_true hsame, by decide⟩, if_pos (by decide)]
      refine .pure ⟨⟨db, n, h₁, hm.linked, hm.off, hm.price, fun h0 => absurd rfl h0, hm.count,
        ⟨hm.room.1, fun h0 => absurd rfl h0⟩, ?_, fun _ => r.fitsOrders_zero _⟩, hzero⟩
      rw [Request.matchOrders_zero, Meeting.orders_eq hq ho]
      exact htgt
    | cancelOld =>
      rw [hstp] at htgt
      rw [if_pos ⟨decide_eq_true hsame, by decide⟩, if_neg (by decide), if_pos (by decide)]
      refine (returns_queueNext h₁ hq).bind ?_
      rintro _ s₂ ⟨rfl, h₂⟩
      refine (returns_genDrop h₂ hm.linked hmem).bind fun _ s₃ h₃ =>
        .pure (hdrop (Nat.le_succ _) hm.count h₃ htgt fun hc => ?_)
      have hstep := hfits hc hrem
      rw [hprev, hstp] at hstep
      exact hstep.2
    | cancelBoth =>
      rw [hstp] at htgt
      rw [if_pos ⟨decide_eq_true hsame, by decide⟩, if_neg (by decide), if_pos (by decide)]
      refine (returns_queueNext h₁ hq).bind ?_
      rintro _ s₂ ⟨rfl, h₂⟩
      refine (returns_genDrop h₂ hm.linked hmem).bind fun _ s₃ h₃ =>
        .pure (hdrop (Nat.le_succ _) hm.count h₃ ?_ fun _ => r.fitsOrders_zero _)
      rw [if_pos (by decide), Request.matchOrders_zero]
      exact htgt
    | decrement =>
      rw [hstp] at htgt
      rw [if_pos ⟨decide_eq_true hsame, by decide⟩, if_neg (by decide), if_neg (by decide)]
      refine (returns_genReduce db.trades n h₁ hm.linked hq ho fun fill s' v _ h' =>
        .pure h').mono fun x s' hx =>
          hreduce x s' (.inl (hprev.trans hstp)) hx (Nat.le_succ _) hm.count ?_
      rw [← htgt]
      split <;> simp [Outcome.after]
  · have hprev : r.prevention p = .none := if_neg hsame
    rw [hprev] at htgt
    rw [if_neg (by simp [hsame])]
    exact htrade h₁ hprev htgt

/-- The inner loop does to the queue of the level what `Request.matchOrders` does. -/
theorem returns_genMeetAll (hcap : caps.orders + 1 < 2^64) (hl : l ∈ hs t) {s : State S} {n : UInt64}
    {rem : UInt64} (h : At st s db₀ n) (hlink : Linked db₀ hs) (hn : n.toNat = db₀.trades.length)
    (hroom : db₀.trades.length + db₀.oLive.card ≤ caps.orders)
    (htgt : (r.matchOrders (db₀.levelPrice l) (db₀.levelOf l).orders rem).after db₀.trades = tgt)
    (hfits : careful → r.FitsOrders (db₀.levelOf l).orders rem) :
    Returns (genMeetAll st.exec l r.id r.account r.stp.code rem (db₀.queue l).head?) s fun x s' =>
      ∃ db n, At st s' db n ∧ Meeting caps careful r hs l db₀ tgt x db n ∧
        tgt = ⟨(db.levelOf l).orders, x.1, db.trades⟩ := by
  unfold genMeetAll boundedLoop
  refine returns_bound hcap h fun b s₁ hb h₁ => ?_
  refine .loop (I := MeetingAt st careful r hs l db₀ tgt) (meetingMeasure st l) (fun x s hI hgo => ?_)
    (fun x s hI hgo => ?_) (fun x s hI hstop => ?_) ?_ ?_
  · exact Nat.zero_lt_of_lt (returns_genMeet hcap hl hI hgo).choose_spec.choose_spec.2.2
  · exact (returns_genMeet hcap hl hI hgo).bind fun x s' hx => .pure hx
  · obtain ⟨db, n, h', hm⟩ := hI
    refine ⟨db, n, h', hm, ?_⟩
    have ht := hm.target
    by_cases h0 : x.1 = 0
    · rw [h0, Request.matchOrders_zero] at ht
      rw [← ht, h0]
      simp [Outcome.after]
    · -- The queue is used up.
      have hnone : (db.queue l).head? = none := by
        rw [← hm.passive h0]
        have hpos : 0 < x.1 := UInt64.pos_iff_ne_zero.mpr h0
        simpa [hpos] using hstop
      have hnil : (db.levelOf l).orders = [] := by
        unfold Db.levelOf
        rw [List.head?_eq_none_iff.mp hnone]
        rfl
      rw [hnil] at ht ⊢
      rw [← ht]
      simp [Request.matchOrders, Outcome.after]
  · exact ⟨db₀, n, h₁, .start hlink hn hroom htgt hfits⟩
  · unfold meetingMeasure
    split
    · exact Nat.zero_le _
    · rw [h₁.view, hb]
      have := hlink.queue_length_le l
      omega

end Loop

end MatchingEngine.Gen
