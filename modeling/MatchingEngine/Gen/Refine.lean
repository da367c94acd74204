import MatchingEngine.C.Adapter
import MatchingEngine.Gen.Correct
import MatchingEngine.Spec.Agree

/-!
# The generated engine refines the specification

Over any storage layer that satisfies the contract, call by call from the initial store: the code,
the trades, and the book that the store decodes to are those of `processB`.

The specification sees the book through `Linked.decoded`, which reads the levels off the store in
the order of their prices. A step is `genStep_refines`: what the generated engine does is
`Book.Ends` by `Gen/Correct.lean`, and that is `processB` by `Spec/Agree.lean`. A run is an
induction on the calls (`genRun_refines`), and the main result is `gen_refines_processB`.
-/

namespace MatchingEngine

open Contract Lib Spec

/-- The handles of a tree, best price first. -/
noncomputable def Contract.Db.sortedHandles (db : Db) (t : Tree) : List LevelH :=
  (db.tree t).toList.mergeSort fun l m => better t (db.levelPrice l) (db.levelPrice m)

/-- The book that a store decodes to: its trees, best price first, with their queues. -/
noncomputable def Contract.Db.decoded (db : Db) : Book := db.book db.sortedHandles

/-- What is better is transitive. -/
theorem better_trans {t : Tree} {p q s : UInt64} (h : better t p q) (h' : better t q s) :
    better t p s := by
  cases t
  · exact UInt64.le_trans h' h
  · exact UInt64.le_trans h h'

/-- Of two prices one is better, or both are the same. -/
theorem better_total (t : Tree) (p q : UInt64) : better t p q ∨ better t q p := by
  cases t <;> exact UInt64.le_total ..

/-- The handles of a store, best price first, are those of the book that it stands for. -/
theorem Linked.sortedHandles {db : Db} {hs : Tree → List LevelH} (h : Linked db hs)
    (hinv : (db.book hs).Inv) : db.sortedHandles = hs := by
  funext t
  have hperm : (db.sortedHandles t).Perm (hs t) := by
    refine (List.mergeSort_perm ..).trans ?_
    rw [h.tree]
    exact List.toFinset_toList (h.nodup t)
  have hsorted : (db.sortedHandles t).Pairwise fun l m =>
      better t (db.levelPrice l) (db.levelPrice m) := by
    refine (List.pairwise_mergeSort (fun l m k hlm hmk => ?_) (fun l m => ?_) _).imp
      fun hb => of_decide_eq_true hb
    · exact decide_eq_true (better_trans (of_decide_eq_true hlm) (of_decide_eq_true hmk))
    · rw [Bool.or_eq_true, decide_eq_true_iff, decide_eq_true_iff]
      exact better_total ..
  have hsorted' : (hs t).Pairwise fun l m => better t (db.levelPrice l) (db.levelPrice m) := by
    have := (Linked.sorted_handles hs).mp (hinv.side t).sorted
    rw [List.pairwise_map] at this
    exact this.imp fun hb => better_iff.mpr (before_asymm hb)
  refine List.Perm.eq_of_pairwise (fun l m hl hm hlm hml => ?_) hsorted hsorted' hperm
  -- Levels of one tree have different prices.
  refine h.wf.tree_prices t l (h.mem_tree.mpr (hperm.mem_iff.mp hl)) m (h.mem_tree.mpr hm) ?_
  cases t
  · exact UInt64.le_antisymm hml hlm
  · exact UInt64.le_antisymm hlm hml

/-- A store decodes to the book that it stands for. -/
theorem Linked.decoded {db : Db} {hs : Tree → List LevelH} (h : Linked db hs)
    (hinv : (db.book hs).Inv) : db.decoded = db.book hs := by
  unfold Db.decoded
  rw [h.sortedHandles hinv]

namespace Gen

variable {S : Type} {cap : ℕ}

/-- A request of the generated engine. -/
def genStep (exec : {α : Type} → Op α → S → Option (α × S)) : Req → Prog (State S) UInt64
  | .order q => genProcessOrder exec q.id q.account_id q.side.toUInt64 q.order_type.toUInt64
      q.stp_mode.toUInt64 q.price q.qty
  | .cancel id => genCancelOrder exec id

/-- The results of a run and the states after each request, or `none` if a call does not return. -/
def genRun (exec : {α : Type} → Op α → S → Option (α × S)) :
    State S → List Req → Option (List (UInt64 × State S))
  | _, [] => some []
  | s, req :: reqs => do
    let (c, s') ← genStep exec req s
    return (c, s') :: (← genRun exec s' reqs)

/-- What a call of the generated engine shows. -/
noncomputable def obs (st : Store (.uniform cap) S) (x : UInt64 × State S) : Obs :=
  ⟨x.1, (trades st x.2).map viewTrade, viewBook (st.view x.2.store).decoded⟩

/-- The book that a store is ready with is the one that is read from it. -/
theorem Ready.decoded {st : Store (.uniform cap) S} {s : State S} {b : Book} (h : Ready st s b) :
    (st.view s.store).decoded = b := by
  obtain ⟨db, hs, n, hat, hlink, rfl⟩ := h.linked
  rw [hat.view]
  exact hlink.decoded h.inv

/-- A store is ready with the empty book. -/
theorem Ready.init {caps : Caps} (st : Store caps S) : Ready st ⟨st.init, 0⟩ Book.empty where
  linked := ⟨_, _, 0, ⟨st.valid_init, st.view_init, rfl⟩, Linked.empty, rfl⟩
  inv := .empty
  room := Nat.zero_le _

/-- A call shows what `processB` does. -/
theorem genStep_refines (hcap : cap + 1 < 2^64) {st : Store (.uniform cap) S} {s : State S}
    {b : Book} {σ : BookState} (h : Ready st s b) (hσ : Same b σ) (req : Req) :
    Returns (genStep st.exec req) s fun c s' => obs st (c, s') = obsSpec (processB cap σ req) ∧
      ∃ b', Ready st s' b' ∧ Same b' (processB cap σ req).2.book := by
  cases req with
  | order q =>
    refine (returns_genProcessOrder hcap h q).mono ?_
    rintro c s' ⟨rfl, hts, hready⟩
    obtain ⟨hcode, htrades, hsame⟩ := processB_order_agrees cap hσ h.inv q
    refine ⟨?_, _, hready, hsame⟩
    unfold obs obsSpec
    rw [hready.decoded, hts, hcode, htrades, hsame]
  | cancel id =>
    refine (returns_genCancelOrder h id).mono ?_
    rintro c s' ⟨rfl, hts, hready⟩
    obtain ⟨hcode, htrades, hsame⟩ := processB_cancel_agrees cap hσ h.inv id
    refine ⟨?_, _, hready, hsame⟩
    unfold obs obsSpec
    rw [hready.decoded, hts, hcode, htrades, hsame]
    rfl

/-- A run, call by call: the generated matcher shows what the specification shows. -/
theorem genRun_refines (hcap : cap + 1 < 2^64) {st : Store (.uniform cap) S} (reqs : List Req) :
    ∀ {s : State S} {b : Book} {σ : BookState}, Ready st s b → Same b σ →
      ∃ xs, genRun st.exec s reqs = some xs ∧ xs.map (obs st) = (runB cap σ reqs).map obsSpec := by
  induction reqs with
  | nil => exact fun _ _ => ⟨[], rfl, rfl⟩
  | cons req reqs ih =>
    intro s b σ h hσ
    obtain ⟨c, s', hstep, hobs, b', hready, hsame⟩ := genStep_refines hcap h hσ req
    obtain ⟨xs, hrun, hxs⟩ := ih hready hsame
    refine ⟨(c, s') :: xs, ?_, ?_⟩
    · unfold genRun
      rw [hstep, Option.bind_eq_bind, Option.bind_some]
      dsimp only
      rw [hrun]
      rfl
    · rw [List.map_cons, runB, List.map_cons, hobs, hxs]

/-- The generated engine refines `processB`: over any storage layer, every run from the initial
store returns, and each of its calls shows what the specification does. -/
theorem gen_refines_processB (hcap : cap + 1 < 2^64) (st : Store (.uniform cap) S)
    (reqs : List Req) : ∃ xs, genRun st.exec ⟨st.init, 0⟩ reqs = some xs ∧
      xs.map (obs st) = (runB cap BookState.empty reqs).map obsSpec :=
  genRun_refines hcap reqs (.init st) rfl

/-- A seller rests, a buyer takes a part of it, and the rest is cancelled. -/
theorem gen_refines_processB_two :
    ∃ (s₀ : C.Adapter) (h : C.Adapter.init ⟨⟨false, false⟩, true, true, true⟩ 2 = some s₀),
      let reqs := [.order ⟨1, 7, 1, 0, 0, 100, 5⟩, .order ⟨2, 8, 0, 2, 0, 100, 3⟩, .cancel 1]
      let st := C.Adapter.store (by decide) h
      ∃ xs, genRun st.exec ⟨st.init, 0⟩ reqs = some xs ∧
        xs.map (obs st) = (runB 2 BookState.empty reqs).map obsSpec :=
  ⟨_, rfl, gen_refines_processB (by decide) _ _⟩

end Gen

end MatchingEngine
