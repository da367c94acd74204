import MatchingEngine.Gen.Meet

/-!
# The outer loop of the generated matcher

The outer loop takes the best level of the other side for as long as it crosses. As in the inner
loop, what `Request.matchLevels` makes of the current side, remainder, and trades stays the same
from turn to turn (`Matching.target`).

One turn meets the orders of the best level (`returns_meetLevel`), and drops the level if that has
emptied it (`returns_genDropLevel`). `Matching` is the invariant of the loop, with `start`, `done`,
and `stop` for its first turn and its two ways out. The measure counts the levels that are left, and
one more turn to see that it is over, so the loop ends within the bound that the code counts its
turns against.
-/

namespace MatchingEngine.Gen

open Contract Lib

variable {S : Type} {caps : Caps} {careful : Prop}

/-- The outer loop, when it is to end with `tgt`: where it stands with the variables `rem` and
`stop`, the store `db` with the handles `hs`, and `n` trades counted. If `careful` holds, the orders
that it takes out fit into what is left of their levels. -/
structure Matching (caps : Caps) (careful : Prop) (r : Request) (tgt : Outcome Book)
    (x : UInt64 × Bool) (db : Db) (hs : Tree → List LevelH) (n : UInt64) : Prop where
  linked : Linked db hs
  side : SideInv r.side.other ((db.book hs).side r.side.other)
  count : n.toNat = db.trades.length
  room : db.trades.length + db.oLive.card ≤ caps.orders + 1 ∧
    (x.1 ≠ 0 → db.trades.length + db.oLive.card ≤ caps.orders)
  /-- The loop stops at a side that the order does not cross. -/
  stopped : x.2 = true → r.matchLevels ((db.book hs).side r.side.other) x.1 =
    ⟨(db.book hs).side r.side.other, x.1, []⟩
  /-- What the rest of the loop makes of the book does not depend on how far it is. -/
  target : ((db.book hs).matchedFrom r x.1).after db.trades = tgt
  fits : careful → r.FitsLevels ((db.book hs).side r.side.other) x.1

namespace Matching

variable {r : Request} {tgt : Outcome Book} {x : UInt64 × Bool} {db : Db}
  {hs : Tree → List LevelH} {n : UInt64}

/-- The loop starts. -/
theorem start (hlink : Linked db hs) (hside : SideInv r.side.other ((db.book hs).side r.side.other))
    (htrades : db.trades = []) (hroom : db.oLive.card ≤ caps.orders)
    (hfits : careful → r.FitsLevels ((db.book hs).side r.side.other) r.qty) :
    Matching caps careful r ((db.book hs).matched r) (r.qty, false) db hs 0 := by
  refine ⟨hlink, hside, ?_, ?_, nofun, ?_, hfits⟩
  · rw [htrades]
    rfl
  · rw [htrades, List.length_nil, Nat.zero_add]
    exact ⟨hroom.trans (Nat.le_succ _), fun _ => hroom⟩
  · rw [htrades, Outcome.after_nil]
    rfl

/-- The loop ends with its target. -/
theorem done (h : Matching caps careful r tgt x db hs n) (hstop : (0 < x.1 && !x.2) = false) :
    tgt = ⟨db.book hs, x.1, db.trades⟩ := by
  have hside : r.matchLevels ((db.book hs).side r.side.other) x.1 =
      ⟨(db.book hs).side r.side.other, x.1, []⟩ := by
    by_cases h0 : x.1 = 0
    · rw [h0, Request.matchLevels_zero]
    · have hpos : 0 < x.1 := UInt64.pos_iff_ne_zero.mpr h0
      exact h.stopped (by simpa [hpos] using hstop)
  rw [← h.target, Book.matchedFrom_eq hside, Book.setSide_side]
  exact congrArg (Outcome.mk _ _) (List.append_nil _)

/-- The loop stops. -/
theorem stop {rem : UInt64} (h : Matching caps careful r tgt (rem, false) db hs n)
    (hside : r.matchLevels ((db.book hs).side r.side.other) rem =
      ⟨(db.book hs).side r.side.other, rem, []⟩) : Matching caps careful r tgt (rem, true) db hs n where
  linked := h.linked
  side := h.side
  count := h.count
  room := h.room
  stopped _ := hside
  target := h.target
  fits := h.fits

end Matching

section Calls

variable {st : Store caps S} {s : State S} {db : Db} {hs : Tree → List LevelH} {n : UInt64}
  {t : Tree}

/-- `ME_*_best` on a sorted side. -/
theorem returns_treeBest (h : At st s db n) (hlink : Linked db hs)
    (hsort : SideInv t ((db.book hs).side t)) :
    Returns (call st.exec (.treeBest t)) s fun o s' => o = (hs t).head? ∧ At st s' db n := by
  refine (returns_call h (.treeBest t) trivial).mono ?_
  rintro o s' ⟨_, ⟨rfl, hbest⟩, h'⟩
  refine ⟨?_, h'⟩
  cases o with
  | none =>
    have hnil : hs t = [] := by
      refine List.eq_nil_iff_forall_not_mem.mpr fun l hl => ?_
      have hmem := hlink.mem_tree.mpr hl
      rw [hbest] at hmem
      cases hmem
    rw [hnil]
    rfl
  | some l =>
    obtain ⟨ls, hls⟩ :=
      hlink.eq_head ((Linked.sorted_handles hs).mp hsort.sorted) hbest.1 hbest.2
    rw [hls]
    rfl

/-- The first order of a live level is read. -/
theorem returns_queueFirst {l : LevelH} (h : At st s db n) (hl : (db.levels l).isSome) :
    Returns (call st.exec (.queueFirst l)) s fun o s' =>
      o = (db.queue l).head? ∧ At st s' db n := by
  refine (returns_call h (.queueFirst l) hl).mono ?_
  rintro o s' ⟨_, ⟨rfl, ho⟩, h'⟩
  exact ⟨ho, h'⟩

/-- An empty level taken out. -/
theorem returns_genDropLevel {l : LevelH} (h : At st s db n) (hlink : Linked db hs) (hl : l ∈ hs t)
    (hq : db.queue l = []) :
    Returns (genDropLevel st.exec t l) s fun _ s' => At st s' (db.dropLevel t l) n := by
  unfold genDropLevel
  refine (returns_call h (.treeRemove t l) (hlink.mem_tree.mpr hl)).bind ?_
  rintro _ s₁ ⟨_, rfl, h₁⟩
  have hfree : (Op.levelFree l).pre caps { db with
      tree := Function.update db.tree t ((db.tree t).erase l) } := by
    refine ⟨hlink.level_live hl, fun u hu => ?_, hq⟩
    change l ∈ Function.update db.tree t ((db.tree t).erase l) u at hu
    rw [Function.update_apply] at hu
    split at hu
    · exact Finset.notMem_erase l _ hu
    · have hother : u = t.other := by
        rename_i hne
        revert hne
        cases u <;> cases t <;> simp [Tree.other]
      exact hlink.not_mem_other hl (hlink.mem_tree.mp (hother ▸ hu))
  refine (returns_call h₁ (.levelFree l) hfree).mono ?_
  rintro _ s₂ ⟨_, rfl, h₂⟩
  exact h₂

/-- The code of the market type. -/
theorem code_eq_one {o : OrderType} : o.code = 1 ↔ o = .market := by
  cases o <;> decide

/-- The price test of the outer loop. -/
theorem returns_genAway {r : Request} {crosses : UInt64 → UInt64 → Bool} {l : LevelH}
    (hcross : ∀ p, crosses p r.price = decide (better r.side.other p r.price)) (h : At st s db n)
    (hl : (db.levels l).isSome) :
    Returns (genAway st.exec crosses r.otype.code r.price l) s fun b s' =>
      b = !decide (r.crosses (db.levelPrice l)) ∧ At st s' db n := by
  unfold genAway Request.crosses
  by_cases hm : r.otype = .market
  · rw [if_neg (not_not.mpr (code_eq_one.mpr hm))]
    exact .pure ⟨by simp [hm], h⟩
  · rw [if_pos fun hc => hm (code_eq_one.mp hc)]
    refine (returns_levelGetPrice h hl).bind ?_
    rintro _ s' ⟨rfl, h'⟩
    refine .pure ⟨?_, h'⟩
    rw [hcross]
    simp [hm]

end Calls

section Loop

variable {st : Store caps S} {r : Request} {tgt : Outcome Book} {crosses : UInt64 → UInt64 → Bool}

/-- Where the outer loop stands. -/
def MatchingAt (st : Store caps S) (careful : Prop) (r : Request) (tgt : Outcome Book)
    (x : UInt64 × Bool) (s : State S) : Prop :=
  ∃ db hs n, At st s db n ∧ Matching caps careful r tgt x db hs n

/-- The turns that the outer loop has left: one for each level of the other side, and one to see
that it is over. -/
def matchingMeasure (st : Store caps S) (r : Request) (x : UInt64 × Bool) (s : State S) : ℕ :=
  if x.1 = 0 ∨ x.2 then 0 else ((st.view s.store).tree r.side.other).card + 1

/-- A tree has as many levels as its side of the book. -/
theorem card_tree {db : Db} {hs : Tree → List LevelH} (h : Linked db hs) (t : Tree) :
    (db.tree t).card = (hs t).length := by
  rw [h.tree, List.toFinset_card_of_nodup (h.nodup t)]

/-- The inner loop and the test for an empty level, on the best level. -/
theorem returns_meetLevel (hcap : caps.orders + 1 < 2^64) {s : State S} {db : Db}
    {hs : Tree → List LevelH} {n : UInt64} {l : LevelH} {ls : List LevelH} {rem : UInt64}
    (h : At st s db n) (hm : Matching caps careful r tgt (rem, false) db hs n)
    (hl : hs r.side.other = l :: ls) (hrem : rem ≠ 0) (hcross : r.crosses (db.levelPrice l)) :
    Returns (do
      let passive ← call st.exec (.queueFirst l)
      let (rem, _) ← genMeetAll st.exec l r.id r.account r.stp.code rem passive
      if (← call st.exec (.levelGetCount l)) = 0 then genDropLevel st.exec r.side.other l
      return (rem, false)) s fun x s' => MatchingAt st careful r tgt x s' ∧
        matchingMeasure st r x s' < matchingMeasure st r (rem, false) s := by
  have hmem : l ∈ hs r.side.other := hl ▸ List.mem_cons_self
  have hside : (db.book hs).side r.side.other = db.levelOf l :: ls.map db.levelOf := by
    rw [Db.book_side, hl, List.map_cons]
  have hlive := hm.linked.level_live hmem
  have hfits := hm.fits
  rw [hside] at hfits
  refine (returns_queueFirst h hlive).bind ?_
  rintro _ s₁ ⟨rfl, h₁⟩
  refine (returns_genMeetAll hcap hmem h₁ hm.linked hm.count (hm.room.2 hrem) rfl
    fun hc => (hfits hc hrem hcross).1).bind ?_
  rintro ⟨rem', y⟩ s₂ ⟨db₂, n₂, h₂, hmeet, htgt⟩
  set o := r.matchOrders (db.levelPrice l) (db.levelOf l).orders rem with ho
  have hleft : (db₂.levelOf l).orders = o.left := (congrArg Outcome.left htgt).symm
  obtain rfl : o.rem = rem' := congrArg Outcome.rem htgt
  have htrades : db₂.trades = db.trades ++ o.trades := (congrArg Outcome.trades htgt).symm
  have hlevel : db₂.levelOf l = { db.levelOf l with orders := o.left } := by
    rw [← hleft]
    exact congrArg (Level.mk · _) hmeet.price
  have hbook₂ := hm.linked.book_head hl hmeet.off
  have hmu : matchingMeasure st r (rem, false) s = ls.length + 2 := by
    unfold matchingMeasure
    rw [if_neg (by simp [hrem]), h.view, card_tree hm.linked, hl, List.length_cons]
  have htarget := hm.target
  refine (returns_levelGetCount h₂ (hmeet.linked.level_live hmem)).bind ?_
  rintro c s₃ ⟨hc, h₃⟩
  by_cases hempty : c = 0
  · -- The level is used up and taken out.
    have hq := hc.mp hempty
    have hnil : o.left = [] := by
      rw [← hleft]
      unfold Db.levelOf
      rw [hq]
      rfl
    rw [if_pos hempty]
    refine (returns_genDropLevel h₃ hmeet.linked hmem hq).bind fun _ s₄ h₄ => .pure ?_
    have hbook₄ := hmeet.linked.dropLevel_book hl
    have hnd := hm.linked.nodup r.side.other
    rw [hl, List.nodup_cons] at hnd
    have hls : ls.map db₂.levelOf = ls.map db.levelOf :=
      List.map_congr_left fun m hmem' => hmeet.off m fun he => hnd.1 (he ▸ hmem')
    rw [hls, hbook₂, Book.setSide_setSide] at hbook₄
    have hstep : r.matchLevels (db.levelOf l :: ls.map db.levelOf) rem =
        (r.matchLevels (ls.map db.levelOf) o.rem).after o.trades :=
      Request.matchLevels_cons_nil hrem hcross hnil
    rw [Book.matchedFrom_eq (hside ▸ hstep)] at htarget
    refine ⟨⟨_, _, n₂, h₄, hmeet.linked.dropLevel hmem hq h₄.wf, ?_, hmeet.count, hmeet.room,
      nofun, ?_, fun hc => ?_⟩, ?_⟩
    · rw [hbook₄, Book.side_setSide_self]
      refine hm.side.cut ?_
      rw [hside]
      exact (CutLevels.refl _).drop
    · rw [hbook₄, Book.matchedFrom_setSide, ← htarget]
      change Outcome.after db₂.trades _ = _
      rw [htrades, ← Outcome.after_after]
      rfl
    · rw [hbook₄, Book.side_setSide_self]
      exact (hfits hc hrem hcross).2 hnil
    · rw [hmu]
      unfold matchingMeasure
      split
      · exact Nat.succ_pos _
      · rw [h₄.view, card_tree (hmeet.linked.dropLevel hmem hq h₄.wf), Function.update_self, hl,
          List.erase_cons_head]
        omega
  · have hne : o.left ≠ [] := by
      rw [← hleft]
      unfold Db.levelOf
      simpa using fun hq => hempty (hc.mpr hq)
    -- The level is not used up, so the order is.
    have h0 : o.rem = 0 := by
      by_contra h0
      exact hne (Request.matchOrders_left_nil h0)
    have hstep : r.matchLevels (db.levelOf l :: ls.map db.levelOf) rem =
        ⟨{ db.levelOf l with orders := o.left } :: ls.map db.levelOf, 0, o.trades⟩ :=
      Request.matchLevels_cons_ne hrem hcross hne
    rw [Book.matchedFrom_eq (hside ▸ hstep)] at htarget
    rw [if_neg hempty]
    refine .pure ⟨⟨db₂, hs, n₂, h₃, hmeet.linked, ?_, hmeet.count, hmeet.room,
      nofun, ?_, fun _ => ?_⟩, ?_⟩
    · rw [hbook₂, Book.side_setSide_self, hlevel]
      refine hm.side.cut ?_
      rw [hside]
      exact .reduce Request.matchOrders_cut hne
    · rw [h0, ← htarget, hbook₂, hlevel, Book.matchedFrom_setSide, Request.matchLevels_zero,
        htrades, ← Outcome.after_after]
      exact congrArg (Outcome.after _) (congrArg (Outcome.mk _ _) (List.append_nil _))
    · rw [h0]
      exact r.fitsLevels_zero _
    · rw [hmu, h0]
      exact Nat.succ_pos _

/-- A turn of the outer loop. -/
theorem returns_genLevel (hcap : caps.orders + 1 < 2^64)
    (hcross : ∀ p, crosses p r.price = decide (better r.side.other p r.price))
    {x : UInt64 × Bool} {s : State S} (hI : MatchingAt st careful r tgt x s)
    (hgo : (0 < x.1 && !x.2) = true) :
    Returns (genLevel st.exec r.side.other crosses r.id r.account r.otype.code r.stp.code r.price x)
      s fun x' s' => MatchingAt st careful r tgt x' s' ∧
        matchingMeasure st r x' s' < matchingMeasure st r x s := by
  obtain ⟨db, hs, n, h, hm⟩ := hI
  obtain ⟨rem, stop⟩ := x
  rw [Bool.and_eq_true, decide_eq_true_iff] at hgo
  obtain ⟨hpos : 0 < rem, hstop : (!stop) = true⟩ := hgo
  obtain rfl : stop = false := by simpa using hstop
  have hrem : rem ≠ 0 := UInt64.pos_iff_ne_zero.mp hpos
  -- A turn that stops brings the measure to zero, and one that goes on takes a level or ends the
  -- request.
  have hmu : 0 < matchingMeasure st r (rem, false) s := by
    unfold matchingMeasure
    rw [if_neg (by simp [hrem])]
    exact Nat.succ_pos _
  have hdone : ∀ {s'}, matchingMeasure st r (rem, true) s' < matchingMeasure st r (rem, false) s := by
    intro s'
    unfold matchingMeasure at hmu ⊢
    rwa [if_pos (.inr rfl)]
  unfold genLevel
  refine (returns_treeBest h hm.linked hm.side).bind ?_
  rintro _ s₁ ⟨rfl, h₁⟩
  -- No level, a level that does not cross, or one to be met.
  cases hl : hs r.side.other with
  | nil =>
    refine .pure ⟨⟨db, hs, n, h₁, hm.stop ?_⟩, hdone⟩
    rw [Db.book_side, hl]
    rfl
  | cons l ls =>
    have hlive := hm.linked.level_live (hl ▸ List.mem_cons_self : l ∈ hs r.side.other)
    refine (returns_genAway hcross h₁ hlive).bind ?_
    rintro _ s₂ ⟨rfl, h₂⟩
    by_cases hc : r.crosses (db.levelPrice l)
    · rw [if_neg (by simp [hc])]
      refine (returns_meetLevel hcap h₂ hm hl hrem hc).mono fun x' s' hx => ⟨hx.1, ?_⟩
      refine hx.2.trans_eq ?_
      unfold matchingMeasure
      rw [h₂.view, h.view]
    · rw [if_pos (by simp [hc])]
      refine .pure ⟨⟨db, hs, n, h₂, hm.stop ?_⟩, hdone⟩
      rw [Db.book_side, hl, List.map_cons, Request.matchLevels, if_pos (.inr hc)]

/-- The outer loop does to the book what `Book.matched` does. -/
theorem returns_matchLoop (hcap : caps.orders + 1 < 2^64)
    (hcross : ∀ p, crosses p r.price = decide (better r.side.other p r.price)) {s : State S} {db : Db}
    {hs : Tree → List LevelH} {n : UInt64} (h : At st s db n) (hlink : Linked db hs)
    (hside : SideInv r.side.other ((db.book hs).side r.side.other)) (hn : n = 0)
    (htrades : db.trades = []) (hroom : db.oLive.card ≤ caps.orders)
    (hfits : careful → r.FitsLevels ((db.book hs).side r.side.other) r.qty) :
    Returns (boundedLoop st.exec (fun x => 0 < x.1 && !x.2)
      (genLevel st.exec r.side.other crosses r.id r.account r.otype.code r.stp.code r.price)
      (r.qty, false)) s fun x s' => ∃ db' hs' n', At st s' db' n' ∧
        Matching caps careful r ((db.book hs).matched r) x db' hs' n' ∧
        (db.book hs).matched r = ⟨db'.book hs', x.1, db'.trades⟩ := by
  unfold boundedLoop
  refine returns_bound hcap h fun b s₁ hb h₁ => ?_
  -- The loop rule: the bound holds while the measure is below it, and the turn is
  -- `returns_genLevel`.
  refine .loop (I := MatchingAt st careful r ((db.book hs).matched r)) (matchingMeasure st r)
    (fun x s hI hgo => ?_) (fun x s hI hgo => ?_) (fun x s hI hstop => ?_) ?_ ?_
  · exact Nat.zero_lt_of_lt (returns_genLevel hcap hcross hI hgo).choose_spec.choose_spec.2.2
  · exact (returns_genLevel hcap hcross hI hgo).bind fun x s' hx => .pure hx
  · obtain ⟨db', hs', n', h', hm⟩ := hI
    exact ⟨db', hs', n', h', hm, hm.done hstop⟩
  · exact ⟨db, hs, n, h₁, hn ▸ .start hlink hside htrades hroom hfits⟩
  -- At the start there are at most as many levels as orders, and so as turns.
  · unfold matchingMeasure
    rw [if_neg (by simp [r.qty_ne]), h₁.view, hb, card_tree hlink]
    have hle := hside.length_le
    have horders := (db.book hs).length_orders r.side.other
    rw [← hlink.card_orders] at horders
    have hlen : ((db.book hs).side r.side.other).length = (hs r.side.other).length := by
      rw [Db.book_side, List.length_map]
    omega

end Loop

end MatchingEngine.Gen
