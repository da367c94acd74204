import MatchingEngine.Cpp.OrderIndex

/-!
# Histories of the order index

A sequence of operations on a new index, each insertion of an id that is not there and each erasure
of one that is. The index answers as a map does just when every id that is inserted is below `2^31`:
the insertion of any other id does not return.

`Represents` says that an index holds what a history makes live, and `Represents.run` that an
operation which inserts no id from `2^31` on keeps it so. The other insertions get stuck in the
doubling loop (`Represents.stuck`), at once and from any index, so nothing is answered from there
on. `index_serves` puts both together into an equivalence on histories.
-/

namespace MatchingEngine.Cpp

/-- An operation of the index. -/
inductive IndexOp
  | insert (id : UInt64) (o : ℕ)
  | erase (id : UInt64)
  | get (id : UInt64)
  deriving DecidableEq

namespace IndexOp

/-- The ids that are there after an operation. -/
def liveAfter (live : List UInt64) : IndexOp → List UInt64
  | insert id _ => id :: live
  | erase id => live.erase id
  | get _ => live

/-- An insertion is of an id that is not there, and an erasure of one that is. -/
def Proper (live : List UInt64) : IndexOp → Prop
  | insert id _ => id ∉ live
  | erase id => id ∈ live
  | get _ => True

/-- The pointers of the ids after an operation. -/
def heldAfter (held : UInt64 → Option ℕ) : IndexOp → UInt64 → Option ℕ
  | insert id o => Function.update held id (some o)
  | erase id => Function.update held id none
  | get _ => held

/-- What an operation does to the index, with the pointer that `get` returns. -/
def run (i : OrderIndex) : IndexOp → Option (Option ℕ × OrderIndex)
  | insert id o => (i.insert id o).map (none, ·)
  | erase id => (i.erase id).map (none, ·)
  | get id => some (i.get id, i)

/-- What an operation returns: `get` the pointer of its id. -/
def answer (held : UInt64 → Option ℕ) : IndexOp → Option ℕ
  | get id => held id
  | _ => none

/-- Whether an operation inserts no id from `2^31` on. -/
def Near : IndexOp → Prop
  | insert id _ => id.toNat < 2 ^ 31
  | _ => True

end IndexOp

/-- The operations are proper ones, one after the other. -/
def ProperOps : List UInt64 → List IndexOp → Prop
  | _, [] => True
  | live, op :: ops => op.Proper live ∧ ProperOps (op.liveAfter live) ops

/-- The ids that are there after some operations. -/
def liveAfter (live : List UInt64) (ops : List IndexOp) : List UInt64 :=
  ops.foldl IndexOp.liveAfter live

/-- The pointer of each id after some operations: the one that was inserted last, unless the id was
erased since. -/
def heldAfter (held : UInt64 → Option ℕ) (ops : List IndexOp) : UInt64 → Option ℕ :=
  ops.foldl IndexOp.heldAfter held

/-- What some operations return. -/
def answers : (UInt64 → Option ℕ) → List IndexOp → List (Option ℕ)
  | _, [] => []
  | held, op :: ops => op.answer held :: answers (op.heldAfter held) ops

/-- What some operations do to the index, with what they return. -/
def runOps : OrderIndex → List IndexOp → Option (List (Option ℕ) × OrderIndex)
  | i, [] => some ([], i)
  | i, op :: ops =>
    match op.run i with
    | none => none
    | some (a, i) => (runOps i ops).map fun r => (a :: r.1, r.2)

/-- The operations return what those of a map would, and leave the index with its pointers and its
size. -/
def Serves (i : OrderIndex) (live : List UInt64) (held : UInt64 → Option ℕ) (ops : List IndexOp) :
    Prop :=
  ∃ i', runOps i ops = some (answers held ops, i') ∧ (∀ id, i'.get id = heldAfter held ops id) ∧
    i'.count_ = (liveAfter live ops).length

/-- The index holds the pointers `held`, of the ids `live`. -/
structure Represents (i : OrderIndex) (live : List UInt64) (held : UInt64 → Option ℕ) : Prop where
  get : ∀ id, i.get id = held id
  mem : ∀ id, id ∈ live ↔ (held id).isSome = true
  count : i.count_ = live.length
  sized : i.Sized

section Histories

variable {i : OrderIndex} {live : List UInt64} {held : UInt64 → Option ℕ} {op : IndexOp}
  {ops : List IndexOp}

/-- An operation on an index that represents a map. -/
theorem Represents.run (h : Represents i live held) (hnd : live.Nodup) (hop : op.Proper live)
    (hnear : op.Near) : ∃ i', op.run i = some (op.answer held, i') ∧
      Represents i' (op.liveAfter live) (op.heldAfter held) ∧ (op.liveAfter live).Nodup := by
  cases op with
  | insert id o =>
    obtain ⟨i', he, hget, hcount, hsized⟩ := OrderIndex.insert_run h.sized hnear o
    refine ⟨i', congrArg (Option.map _) he, ⟨fun id' => ?_, fun id' => ?_, ?_, hsized⟩,
      List.nodup_cons.mpr ⟨hop, hnd⟩⟩
    · rw [hget, h.get]
      exact (Function.update_apply held id (some o) id').symm
    · change id' ∈ id :: live ↔ (Function.update held id (some o) id').isSome = true
      rw [List.mem_cons, h.mem, Function.update_apply]
      by_cases hid : id' = id
      · simp [hid]
      · simp [hid]
    · rw [hcount, h.count]
      rfl
  | erase id =>
    have hsome := (h.mem id).mp hop
    rw [← h.get] at hsome
    obtain ⟨p, hp⟩ := Option.isSome_iff_exists.mp hsome
    obtain ⟨i', he, hget, hcount, hcap⟩ := OrderIndex.erase_run hp
    refine ⟨i', congrArg (Option.map _) he, ⟨fun id' => ?_, fun id' => ?_, ?_, ?_⟩, hnd.erase id⟩
    · rw [hget, h.get]
      exact (Function.update_apply held id none id').symm
    · change id' ∈ live.erase id ↔ (Function.update held id none id').isSome = true
      rw [hnd.mem_erase_iff, h.mem, Function.update_apply]
      by_cases hid : id' = id
      · simp [hid]
      · simp [hid]
    · rw [hcount, h.count]
      exact (List.length_erase_of_mem hop).symm
    · obtain ⟨k, hk, hk', hc⟩ := h.sized
      exact ⟨k, hk, hk', by rw [hcap]; exact hc⟩
  | get id => exact ⟨i, congrArg (fun p => some (p, i)) (h.get id), h, hnd⟩

/-- An insertion of an id from `2^31` on. -/
theorem Represents.stuck (h : Represents i live held) (hnear : ¬ op.Near) : op.run i = none := by
  cases op with
  | insert id o =>
    have hid : 2 ^ 31 ≤ id.toNat := Nat.le_of_not_lt hnear
    exact congrArg (Option.map _) (OrderIndex.insert_eq_none h.sized hid o)
  | erase id => exact absurd trivial hnear
  | get id => exact absurd trivial hnear

/-- An index that represents a map serves all further operations as that map just when each id is
near. -/
theorem Represents.serves (h : Represents i live held) (hnd : live.Nodup) (hops : ProperOps live ops) :
    Serves i live held ops ↔ ∀ op ∈ ops, op.Near := by
  induction ops generalizing i live held with
  | nil =>
    refine ⟨fun _ op hop => absurd hop List.not_mem_nil, fun _ => ⟨i, rfl, h.get, h.count⟩⟩
  | cons op ops ih =>
    obtain ⟨hop, hops⟩ := hops
    by_cases hnear : op.Near
    · obtain ⟨i', he, hrep, hnd'⟩ := h.run hnd hop hnear
      rw [List.forall_mem_cons, ← ih hrep hnd' hops]
      constructor
      · rintro ⟨i'', hrun, hget, hcount⟩
        unfold runOps answers at hrun
        rw [he] at hrun
        obtain ⟨r, hr, hr'⟩ := Option.map_eq_some_iff.mp hrun
        obtain ⟨hl, rfl⟩ := Prod.mk.inj hr'
        obtain ⟨-, hl⟩ := List.cons.inj hl
        exact ⟨hnear, r.2, by rw [hr, ← hl], hget, hcount⟩
      · rintro ⟨-, i'', hrun, hget, hcount⟩
        refine ⟨i'', ?_, hget, hcount⟩
        unfold runOps answers
        rw [he]
        exact Option.map_eq_some_iff.mpr ⟨_, hrun, rfl⟩
    · constructor
      · rintro ⟨i', hrun, -⟩
        unfold runOps at hrun
        rw [h.stuck hnear] at hrun
        cases hrun
      · exact fun hall => absurd (hall op List.mem_cons_self) hnear

/-- A new index represents the empty map. -/
theorem Represents.new : Represents {} [] fun _ => none where
  get id := by
    change (if _ then none else none) = none
    exact ite_self _
  mem id := ⟨fun h => absurd h List.not_mem_nil, nofun⟩
  count := rfl
  sized := ⟨20, le_refl _, by decide, rfl⟩

/-- A new index serves a sequence of operations as a map does just when no id from `2^31` on is
inserted. -/
theorem index_serves (hops : ProperOps [] ops) :
    Serves {} [] (fun _ => none) ops ↔ ∀ op ∈ ops, op.Near :=
  Represents.new.serves List.nodup_nil hops

/-- An id beyond the first capacity, which is inserted, read, and erased. -/
def pastFirstCapacity : List IndexOp := [.insert 2000000 7, .get 2000000, .erase 2000000, .get 2000000]

/-- The operations past the first capacity, for which the index has to grow. -/
theorem index_serves_pastFirstCapacity :
    Serves {} [] (fun _ => none) pastFirstCapacity ↔ ∀ op ∈ pastFirstCapacity, op.Near :=
  index_serves ⟨List.not_mem_nil, trivial, List.mem_singleton.mpr rfl, trivial, trivial⟩

/-- The first id that the index has no room for is not served. -/
theorem not_serves_far_id :
    ¬ ∀ ops : List IndexOp, ProperOps [] ops → Serves {} [] (fun _ => none) ops := by
  intro h
  obtain ⟨i', hrun, -⟩ := h [.insert 2147483648 7] ⟨List.not_mem_nil, trivial⟩
  unfold runOps at hrun
  have hfar : ¬ (IndexOp.insert 2147483648 7).Near := by
    unfold IndexOp.Near
    decide
  rw [Represents.new.stuck hfar] at hrun
  cases hrun

end Histories

end MatchingEngine.Cpp
