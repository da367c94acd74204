import MatchingEngine.Gen.Refine

/-!
# The calls of the generated matcher

What the matcher asks of its store. Over a store that does not return from a call that breaks a
condition, the matcher does what it does without the check, as long as every call in the states `G`
meets the condition. The quantities that it writes are at most `m` if those that it reads and the
one that it is called with are.
-/

namespace MatchingEngine

open Contract Lib

namespace Contract

/-- The handles that an operation is given are live. -/
def Op.Live (db : Db) : {α : Type} → Op α → Prop
  | _, .orderFree o => (db.orders o).isSome
  | _, .levelFree l => (db.levels l).isSome
  | _, .orderGet _ o => (db.orders o).isSome
  | _, .orderSet _ o _ => (db.orders o).isSome
  | _, .levelGetPrice l => (db.levels l).isSome
  | _, .levelGetCount l => (db.levels l).isSome
  | _, .levelSetPrice l _ => (db.levels l).isSome
  | _, .hashInsert o => (db.orders o).isSome
  | _, .hashRemove o => (db.orders o).isSome
  | _, .queueInsertTail l o => (db.levels l).isSome ∧ (db.orders o).isSome
  | _, .queueRemove l o => (db.levels l).isSome ∧ (db.orders o).isSome
  | _, .queueFirst l => (db.levels l).isSome
  | _, .queueNext o => (db.orders o).isSome
  | _, .orderOwner o => (db.orders o).isSome
  | _, .treeInsert _ l => (db.levels l).isSome
  | _, .treeRemove _ l => (db.levels l).isSome
  | _, _ => True

/-- The precondition of an operation asks for live handles. -/
theorem Op.live_of_pre {caps : Caps} {db : Db} (hwf : db.WF) {α : Type} {op : Op α}
    (h : op.pre caps db) : op.Live db := by
  cases op with
  | orderFree | levelFree | orderSet | levelSetPrice | hashInsert => exact h.1
  | orderGet | levelGetPrice | levelGetCount | queueFirst | orderOwner => exact h
  | treeInsert => exact h.1
  | hashRemove o => exact hwf.hash_live o h
  | queueInsertTail => exact ⟨h.1, h.2.1⟩
  | queueRemove l o => exact (hwf.queue_live l o h).symm
  | queueNext o =>
    obtain ⟨l, hl⟩ := h
    exact (hwf.queue_live l o hl).1
  | treeRemove t l => exact hwf.tree_live t l h
  | capacity | orderCount | tradeReset | tradeEmit | orderAlloc | levelAlloc | hashFind | treeFind
  | treeBest => trivial

/-- An implementation of the operations that does not return from a call outside of `ok`. -/
noncomputable def checked {S : Type} (ok : {α : Type} → Op α → S → Prop)
    (exec : {α : Type} → Op α → S → Option (α × S)) : {α : Type} → Op α → S → Option (α × S) :=
  fun op s => open Classical in if ok op s then exec op s else none

section Checked

variable {S α : Type} {ok : {α : Type} → Op α → S → Prop}
  {exec : {α : Type} → Op α → S → Option (α × S)} {op : Op α} {s : S} {r : α × S}

/-- A call that meets the condition is made. -/
theorem checked_eq (h : ok op s) : checked ok exec op s = exec op s := if_pos h

/-- A call that is made has met the condition. -/
theorem checked_eq_some : checked ok exec op s = some r ↔ ok op s ∧ exec op s = some r := by
  classical
  unfold checked
  split
  · rw [and_iff_right ‹_›]
  · exact iff_of_false nofun fun h => absurd h.1 ‹_›

end Checked

/-- The call is within its precondition and on live handles. -/
def Op.Meets (caps : Caps) (db : Db) {α : Type} (op : Op α) : Prop := op.pre caps db ∧ op.Live db

/-- A storage layer that returns from the calls only that meet their precondition. -/
noncomputable def Store.guarded {S : Type} {caps : Caps} (st : Store caps S) : Store caps S where
  exec := checked (fun op s => op.Meets caps (st.view s)) st.exec
  init := st.init
  view := st.view
  valid := st.valid
  valid_init := st.valid_init
  view_init := st.view_init
  wf := st.wf
  law s op hv hpre := by
    rw [checked_eq ⟨hpre, Op.live_of_pre (st.wf s hv) hpre⟩]
    exact st.law s op hv hpre

/-- An operation that writes a remaining quantity writes at most `m`. -/
def Op.Within (m : UInt64) : {α : Type} → Op α → Prop
  | _, .orderSet .remaining _ v => v ≤ m
  | _, _ => True

/-- A remaining quantity that is read is at most `m`, and so is the largest quantity that the
capacity admits. -/
def Op.Yields (m : UInt64) : {α : Type} → Op α → α → Prop
  | _, .orderGet .remaining _, r => r ≤ m
  | _, .capacity, r => 18446744073709551615 / (r + 1) ≤ m
  | _, _, _ => True

end Contract

namespace Gen

variable {S α β : Type}

/-- From a state in `G`, what an operation of `exec` returns that of `exec'` returns as well, in a
state in `G`, where the quantities stay at most `m`. -/
def Tracked (exec exec' : {α : Type} → Op α → S → Option (α × S)) (G : S → Prop) (m : UInt64) :
    Prop :=
  ∀ {α : Type} (op : Op α) s r s', G s → op.Within m → exec op s = some (r, s') →
    exec' op s = some (r, s') ∧ G s' ∧ op.Yields m r

section Programs

variable {exec exec' : {α : Type} → Op α → S → Option (α × S)} {G : S → Prop} {m : UInt64}

/-- `me_add` calls no operation of the store. -/
theorem tracks_meAdd (a b : UInt64) :
    Tracks (fun s : State S => G s.store) (meAdd a b) (meAdd a b) (· = a + b) :=
  .ite (fun _ => .pure rfl) fun _ => .trap

/-- `me_sub` calls no operation of the store, and traps rather than go below zero. -/
theorem tracks_meSub (a b : UInt64) :
    Tracks (fun s : State S => G s.store) (meSub a b) (meSub a b) (· ≤ a) := by
  refine .ite (fun h => .pure ?_) fun _ => .trap
  rw [UInt64.le_iff_toNat_le, UInt64.toNat_sub_of_le _ _ h]
  exact Nat.sub_le _ _

/-- `me_div` calls no operation of the store. -/
theorem tracks_meDiv (a b : UInt64) :
    Tracks (fun s : State S => G s.store) (meDiv a b) (meDiv a b) (· = a / b) :=
  .ite (fun _ => .trap) fun _ => .pure rfl

/-- A write of the matcher's counter. -/
theorem tracks_count (f : UInt64 → UInt64) : Tracks (fun s : State S => G s.store)
    (modify fun s => { s with me_ntrades := f s.me_ntrades })
    (modify fun s => { s with me_ntrades := f s.me_ntrades }) fun _ => True := by
  rintro s _ _ hg ⟨⟩
  exact ⟨rfl, hg, trivial⟩

/-- A read of the matcher's own state. -/
theorem tracks_get :
    Tracks (fun s : State S => G s.store) (get : Prog (State S) (State S)) get fun _ => True := by
  rintro s _ _ hg ⟨⟩
  exact ⟨rfl, hg, trivial⟩

variable (h : Tracked exec exec' G m)

include h

/-- A call of the store, if it writes no quantity above `m`. -/
theorem tracks_call (op : Op α) (hw : op.Within m) :
    Tracks (fun s => G s.store) (call exec op) (call exec' op) (op.Yields m) := by
  intro s r s' hg he
  obtain ⟨⟨r', t⟩, hexec, heq⟩ :=
    Option.map_eq_some_iff.mp (show (exec op s.store).map _ = some (r, s') from he)
  cases heq
  obtain ⟨hexec', hg', hr⟩ := h op _ _ _ hg hw hexec
  refine ⟨?_, hg', hr⟩
  exact congrArg (Option.map _) hexec'

/-- An operation whose result does not matter, before the rest of a program. -/
theorem tracks_then {op : Op α} {f f' : α → Prog (State S) β} {Q : β → Prop} (hw : op.Within m)
    (hf : ∀ r, Tracks (fun s => G s.store) (f r) (f' r) Q) :
    Tracks (fun s => G s.store) (call exec op >>= f) (call exec' op >>= f') Q :=
  (tracks_call h _ hw).bind fun r _ => hf r

/-- An operation at the end of a program. -/
theorem tracks_last {op : Op Unit} (hw : op.Within m) :
    Tracks (fun s => G s.store) (call exec op) (call exec' op) fun _ => True :=
  (tracks_call h _ hw).mono fun _ _ => trivial

/-- A trade goes to the buffer. -/
theorem tracks_meEmit (a t p q : UInt64) : Tracks (fun s => G s.store) (meEmit exec a t p q)
    (meEmit exec' a t p q) fun _ => True := by
  refine tracks_then h trivial fun _ => ?_
  refine (tracks_meAdd _ _).bind fun bound _ => ?_
  refine tracks_get.bind fun s _ => ?_
  refine .ite (fun _ => .trap) fun _ => ?_
  exact tracks_then h trivial fun _ => tracks_count (· + 1)

/-- A bounded loop goes as far over one store as over the other, if each turn does. -/
theorem tracks_boundedLoop {guard : β → Bool} {body body' : β → Prog (State S) β} {P : β → Prop}
    (hbody : ∀ b, P b → Tracks (fun s => G s.store) (body b) (body' b) P) {b : β} (hb : P b) :
    Tracks (fun s => G s.store) (boundedLoop exec guard body b)
      (boundedLoop exec' guard body' b) P := by
  refine tracks_then h trivial fun _ => ?_
  refine (tracks_meAdd _ _).bind fun n _ => ?_
  refine .loop (fun b hb => ?_) hb
  exact (hbody b hb).bind fun b' hb' => .pure (a := ForInStep.yield b') hb'

/-- An order is dropped from its queue and from the index. -/
theorem tracks_genDrop (best : LevelH) (passive : OrderH) : Tracks (fun s => G s.store)
    (genDrop exec best passive) (genDrop exec' best passive) fun _ => True := by
  refine tracks_then h trivial fun _ => ?_
  exact tracks_then h trivial fun _ => tracks_last h trivial

/-- A level is dropped from its tree. -/
theorem tracks_genDropLevel (tree : Tree) (best : LevelH) : Tracks (fun s => G s.store)
    (genDropLevel exec tree best) (genDropLevel exec' tree best) fun _ => True :=
  tracks_then h trivial fun _ => tracks_last h trivial

/-- The meeting with an order that is reduced or used up: what is written is at most the remainder.
-/
theorem tracks_genReduce {best : LevelH} {rem : UInt64} (hrem : rem ≤ m) {passive : OrderH}
    {report report' : UInt64 → Prog (State S) Unit}
    (hreport : ∀ fill, Tracks (fun s => G s.store) (report fill) (report' fill) fun _ => True) :
    Tracks (fun s => G s.store) (genReduce exec best rem passive report)
      (genReduce exec' best rem passive report') fun x => x.1 ≤ m := by
  refine tracks_then h trivial fun avail => ?_
  refine (tracks_meSub _ _).bind fun rem' hrem' => ?_
  refine (tracks_call h (.orderGet .remaining passive) trivial).bind fun old hold => ?_
  -- What is written is at most what was read.
  refine (tracks_meSub _ _).bind fun prem hprem => ?_
  refine tracks_then h (UInt64.le_trans hprem hold) fun _ => ?_
  refine (hreport _).bind fun _ _ => ?_
  refine tracks_then h trivial fun nextp => ?_
  have hle : rem' ≤ m := UInt64.le_trans hrem' hrem
  exact .ite (fun _ => (tracks_genDrop h _ _).bind fun _ _ => .pure hle) fun _ => .pure hle

/-- The test for orders of one account. -/
theorem tracks_genSameAccount (account : UInt64) (passive : OrderH) : Tracks (fun s => G s.store)
    (genSameAccount exec account passive) (genSameAccount exec' account passive) fun _ => True :=
  .ite (fun _ => tracks_then h trivial fun _ => .pure trivial) fun _ => .pure trivial

/-- A turn of the inner loop, whose remainder does not grow. -/
theorem tracks_genMeet (best : LevelH) (id account stp : UInt64) (x : UInt64 × Option OrderH)
    (hx : x.1 ≤ m) : Tracks (fun s => G s.store) (genMeet exec best id account stp x)
      (genMeet exec' best id account stp x) fun x => x.1 ≤ m := by
  obtain ⟨rem, _ | passive⟩ := x
  · exact .trap
  refine (tracks_genSameAccount h _ _).bind fun b _ => ?_
  refine .ite (fun _ => ?_) fun _ => ?_
  · refine .ite (fun _ => .pure (UInt64.zero_le)) fun _ => ?_
    refine .ite (fun _ => ?_) fun _ => tracks_genReduce h hx fun _ => .pure trivial
    refine tracks_then h trivial fun next => ?_
    refine (tracks_genDrop h _ _).bind fun _ _ => .pure ?_
    dsimp only
    split
    · exact UInt64.zero_le
    · exact hx
  · refine tracks_genReduce h hx fun fill => ?_
    refine tracks_then h trivial fun pid => ?_
    exact tracks_then h trivial fun bprice => tracks_meEmit h _ _ _ _

/-- The test whether the best level is out of reach. -/
theorem tracks_genAway (crosses : UInt64 → UInt64 → Bool) (otype price : UInt64) (best : LevelH) :
    Tracks (fun s => G s.store) (genAway exec crosses otype price best)
      (genAway exec' crosses otype price best) fun _ => True :=
  .ite (fun _ => tracks_then h trivial fun _ => .pure trivial) fun _ => .pure trivial

/-- A turn of the outer loop, whose remainder does not grow. -/
theorem tracks_genLevel (contra : Tree) (crosses : UInt64 → UInt64 → Bool)
    (id account otype stp price : UInt64) (x : UInt64 × Bool) (hx : x.1 ≤ m) :
    Tracks (fun s => G s.store) (genLevel exec contra crosses id account otype stp price x)
      (genLevel exec' contra crosses id account otype stp price x) fun x => x.1 ≤ m := by
  obtain ⟨rem, stop⟩ := x
  refine tracks_then h trivial fun best => ?_
  cases best with
  | none => exact .pure hx
  | some best =>
    refine (tracks_genAway h _ _ _ _).bind fun away _ => ?_
    refine .ite (fun _ => .pure hx) fun _ => ?_
    refine tracks_then h trivial fun passive => ?_
    refine (tracks_boundedLoop h (tracks_genMeet h best id account stp) hx).bind fun y hy => ?_
    refine tracks_then h trivial fun count => ?_
    exact .ite (fun _ => (tracks_genDropLevel h _ _).bind fun _ _ => .pure hy) fun _ => .pure hy

/-- The level that was made for an order that finds no row is freed again. -/
theorem tracks_genEmptied (lvl : LevelH) (isnew : Bool) : Tracks (fun s => G s.store)
    (genEmptied exec lvl isnew) (genEmptied exec' lvl isnew) fun _ => True :=
  .ite (fun _ => tracks_then h trivial fun _ => .pure trivial) fun _ => .pure trivial

/-- A new row is linked into the index, its queue, and its tree. -/
theorem tracks_genLink (own : Tree) (lvl : LevelH) (ord : OrderH) (isnew : Bool) :
    Tracks (fun s => G s.store) (genLink exec own lvl ord isnew) (genLink exec' own lvl ord isnew)
      fun _ => True := by
  refine tracks_then h trivial fun _ => ?_
  refine tracks_then h trivial fun ok => ?_
  refine .ite (fun _ => .pure trivial) fun _ => ?_
  refine tracks_then h trivial fun _ => ?_
  refine (tracks_genEmptied h _ _).bind fun emptied _ => ?_
  have hfree : Tracks (fun s : State S => G s.store)
      (do call exec (.orderFree ord); return (4 : UInt64))
      (do call exec' (.orderFree ord); return (4 : UInt64)) fun _ => True :=
    tracks_then h trivial fun _ => .pure trivial
  exact .ite (fun _ => (tracks_genDropLevel h _ _).bind fun _ _ => hfree) fun _ => hfree

/-- What is left of an order rests, with at most `m`. -/
theorem tracks_genRest (own : Tree) (id account side stp price qty : UInt64) {rem : UInt64}
    (hrem : rem ≤ m) : Tracks (fun s => G s.store)
      (genRest exec own id account side stp price qty rem)
      (genRest exec' own id account side stp price qty rem) fun _ => True := by
  refine tracks_then h trivial fun ord => ?_
  cases ord with
  | none => exact .pure trivial
  | some ord =>
    refine tracks_then h trivial fun _ => ?_
    refine tracks_then h trivial fun _ => ?_
    refine tracks_then h trivial fun _ => ?_
    refine tracks_then h trivial fun _ => ?_
    refine tracks_then h trivial fun _ => ?_
    refine tracks_then h trivial fun _ => ?_
    refine tracks_then h hrem fun _ => ?_
    refine tracks_then h trivial fun lvl => ?_
    cases lvl with
    | some lvl => exact tracks_genLink h _ _ _ _
    | none =>
      refine tracks_then h trivial fun lvl => ?_
      cases lvl with
      | none => exact tracks_then h trivial fun _ => .pure trivial
      | some lvl =>
        refine tracks_then h trivial fun _ => ?_
        exact tracks_then h trivial fun _ => tracks_genLink h _ _ _ _

/-- The test of a post-only order. -/
theorem tracks_genCrossed (contra : Tree) (crosses : UInt64 → UInt64 → Bool) (otype price : UInt64) :
    Tracks (fun s => G s.store) (genCrossed exec contra crosses otype price)
      (genCrossed exec' contra crosses otype price) fun _ => True := by
  refine .ite (fun _ => ?_) fun _ => .pure trivial
  refine tracks_then h trivial fun best => ?_
  cases best with
  | none => exact .pure trivial
  | some best => exact tracks_then h trivial fun _ => .pure trivial

/-- One half of `matcher_process`, on a quantity of at most `m`. -/
theorem tracks_genProcess (own contra : Tree) (crosses : UInt64 → UInt64 → Bool)
    (id account side otype stp price : UInt64) {qty : UInt64} (hqty : qty ≤ m) :
    Tracks (fun s => G s.store)
      (genProcess exec own contra crosses id account side otype stp price qty)
      (genProcess exec' own contra crosses id account side otype stp price qty) fun _ => True := by
  refine (tracks_genCrossed h _ _ _ _).bind fun crossed _ => ?_
  refine .ite (fun _ => .pure trivial) fun _ => ?_
  refine (tracks_boundedLoop h (tracks_genLevel h contra crosses id account otype stp price)
    (b := (qty, false)) hqty).bind fun x hx => ?_
  exact .ite (fun _ => tracks_genRest h _ _ _ _ _ _ _ hx) fun _ => .pure trivial

/-- The test whether the pool is exhausted. -/
theorem tracks_genFull (otype : UInt64) : Tracks (fun s => G s.store) (genFull exec otype)
    (genFull exec' otype) fun _ => True := by
  refine .ite (fun _ => ?_) fun _ => .pure trivial
  refine tracks_then h trivial fun _ => ?_
  exact tracks_then h trivial fun _ => .pure trivial

/-- `gen_process_order`. -/
theorem tracks_genProcessOrder (id account side otype stp price qty : UInt64) :
    Tracks (fun s => G s.store) (genProcessOrder exec id account side otype stp price qty)
      (genProcessOrder exec' id account side otype stp price qty) fun _ => True := by
  refine (tracks_count fun _ => 0).bind fun _ _ => ?_
  refine tracks_then h trivial fun _ => ?_
  refine .ite (fun _ => .pure trivial) fun _ => ?_
  refine .ite (fun _ => .pure trivial) fun _ => ?_
  refine .ite (fun _ => .pure trivial) fun _ => ?_
  refine .ite (fun _ => .pure trivial) fun _ => ?_
  refine .ite (fun _ => .pure trivial) fun _ => ?_
  refine (tracks_call h .capacity trivial).bind fun cap hcap => ?_
  refine (tracks_meAdd _ _).bind fun bound hbound => ?_
  refine (tracks_meDiv _ _).bind fun qmax hqmax => ?_
  subst hbound hqmax
  -- The gate on the quantity.
  refine .ite (fun _ => .pure trivial) fun hgate => ?_
  have hqty : qty ≤ m := UInt64.le_trans (UInt64.not_lt.mp hgate) hcap
  refine tracks_then h trivial fun found => ?_
  refine .ite (fun _ => .pure trivial) fun _ => ?_
  refine (tracks_genFull h _).bind fun full _ => ?_
  refine .ite (fun _ => .pure trivial) fun _ => ?_
  exact .ite (fun _ => tracks_genProcess h _ _ _ _ _ _ _ _ _ hqty)
    fun _ => tracks_genProcess h _ _ _ _ _ _ _ _ _ hqty

/-- `gen_cancel_order`. -/
theorem tracks_genCancelOrder (id : UInt64) : Tracks (fun s => G s.store) (genCancelOrder exec id)
    (genCancelOrder exec' id) fun _ => True := by
  refine (tracks_count fun _ => 0).bind fun _ _ => ?_
  refine tracks_then h trivial fun _ => ?_
  refine tracks_then h trivial fun ord => ?_
  cases ord with
  | none => exact .pure trivial
  | some ord =>
    refine tracks_then h trivial fun lvl => ?_
    cases lvl with
    | none => exact .pure trivial
    | some lvl =>
      refine tracks_then h trivial fun side => ?_
      refine (tracks_genDrop h _ _).bind fun _ _ => ?_
      refine tracks_then h trivial fun count => ?_
      have hfree : Tracks (fun s : State S => G s.store)
          (do call exec (.levelFree lvl); return (1 : UInt64))
          (do call exec' (.levelFree lvl); return (1 : UInt64)) fun _ => True :=
        tracks_then h trivial fun _ => .pure trivial
      refine .ite (fun _ => ?_) fun _ => .pure trivial
      exact .ite (fun _ => tracks_then h trivial fun _ => hfree)
        fun _ => tracks_then h trivial fun _ => hfree

end Programs

end Gen

end MatchingEngine
