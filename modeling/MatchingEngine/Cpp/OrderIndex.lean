import MatchingEngine.Cpp.Types

/-!
# The order index of the C++ engine

`class OrderIndex` of `cpp_reference/src/engine.h`: an array of slots that doubles, and a stack of
the ids to hand out again. The capacity is a `uint32_t`, and `grow` gets its argument cut to one.
The doubling loop does not end once the capacity has become zero, and a slot outside the array is
not written: in both cases the operation does not return.
-/

namespace MatchingEngine.Cpp

/-- `class OrderIndex`. The slots from `cap_` on are not there. -/
structure OrderIndex where
  slots_ : UInt64 → Option ℕ := fun _ => none
  cap_ : UInt32 := 1048576
  count_ : ℕ := 0
  freeStack_ : List UInt64 := []
  nextId_ : UInt64 := 1

namespace OrderIndex

/-- `FREE_STACK_CAP`. -/
def freeStackCap : ℕ := 1048576

/-- `while (nc <= need) nc *= 2`, which has ended after 32 turns or never ends. -/
def double (need : UInt32) : ℕ → UInt32 → Option UInt32
  | 0, nc => if nc ≤ need then none else some nc
  | n + 1, nc => if nc ≤ need then double need n (nc * 2) else some nc

/-- `grow`. The new slots are null. -/
def grow (need : UInt32) (i : OrderIndex) : Option OrderIndex :=
  (double need 32 i.cap_).map fun nc =>
    { i with slots_ := fun k => if k < i.cap_.toUInt64 then i.slots_ k else none, cap_ := nc }

/-- `get`. -/
def get (i : OrderIndex) (id : UInt64) : Option ℕ :=
  if i.cap_.toUInt64 ≤ id then none else i.slots_ id

/-- `has`. -/
def has (i : OrderIndex) (id : UInt64) : Bool := (i.get id).isSome

/-- `slots_[id] = p`. -/
def setSlot (i : OrderIndex) (id : UInt64) (p : Option ℕ) : Option OrderIndex :=
  if id < i.cap_.toUInt64 then some { i with slots_ := Function.update i.slots_ id p } else none

/-- The first statement of `insert`. -/
def reserve (i : OrderIndex) (id : UInt64) : Option OrderIndex :=
  if i.cap_.toUInt64 ≤ id then i.grow id.toUInt32 else some i

/-- `insert`. -/
def insert (i : OrderIndex) (id : UInt64) (o : ℕ) : Option OrderIndex := do
  let i ← i.reserve id
  let i ← i.setSlot id (some o)
  pure { i with count_ := i.count_ + 1 }

/-- `erase`. -/
def erase (i : OrderIndex) (id : UInt64) : Option OrderIndex := do
  let i ← i.setSlot id none
  pure { i with
    count_ := i.count_ - 1
    freeStack_ := if i.freeStack_.length < freeStackCap then id :: i.freeStack_ else i.freeStack_ }

/-- `assignId`. -/
def assignId (i : OrderIndex) : Option (UInt64 × OrderIndex) :=
  match i.freeStack_ with
  | id :: ids => some (id, { i with freeStack_ := ids })
  | [] => do
    let id := i.nextId_
    let i ← { i with nextId_ := id + 1 }.reserve id
    pure (id, i)

/-! ## What the operations do -/

/-- The capacity is a power of two, from the first one on and below the last one that fits. -/
def Sized (i : OrderIndex) : Prop := ∃ k, 20 ≤ k ∧ k ≤ 31 ∧ i.cap_.toNat = 2 ^ k

/-- The capacity is at most the last power of two in a `uint32_t`. -/
theorem Sized.cap_le {i : OrderIndex} (h : i.Sized) : i.cap_.toNat ≤ 2 ^ 31 := by
  obtain ⟨k, -, hk, hc⟩ := h
  rw [hc]
  exact Nat.pow_le_pow_right (by decide) hk

/-- Doubling ends when the slot is below the last capacity. -/
theorem double_run {need : UInt32} (hneed : need.toNat < 2 ^ 31) : ∀ n k (nc : UInt32),
    nc.toNat = 2 ^ k → k ≤ 31 → 31 ≤ k + n →
    ∃ nc' j, double need n nc = some nc' ∧ nc'.toNat = 2 ^ j ∧ k ≤ j ∧ j ≤ 31 ∧ need.toNat < 2 ^ j := by
  intro n
  induction n with
  | zero =>
    intro k nc hnc hk hn
    obtain rfl : k = 31 := by omega
    have hlt : ¬ nc ≤ need := by
      rw [UInt32.le_iff_toNat_le]
      omega
    exact ⟨nc, 31, if_neg hlt, hnc, le_refl _, le_refl _, hneed⟩
  | succ n ih =>
    intro k nc hnc hk hn
    unfold double
    split
    · rename_i hle
      rw [UInt32.le_iff_toNat_le, hnc] at hle
      have hk31 : k < 31 := by
        by_contra hge
        have := Nat.pow_le_pow_right (n := 2) (by decide) (show 31 ≤ k by omega)
        omega
      have hle30 : 2 ^ k ≤ 2 ^ 30 := Nat.pow_le_pow_right (by decide) (by omega)
      have hnc' : (nc * 2).toNat = 2 ^ (k + 1) := by
        rw [UInt32.toNat_mul, hnc, Nat.pow_succ]
        exact Nat.mod_eq_of_lt (by change 2 ^ k * 2 < 4294967296; omega)
      obtain ⟨nc', j, he, hj, hkj, hj31, hlt⟩ := ih (k + 1) _ hnc' (by omega) (by omega)
      exact ⟨nc', j, he, hj, by omega, hj31, hlt⟩
    · rename_i hle
      rw [UInt32.le_iff_toNat_le, hnc] at hle
      exact ⟨nc, k, rfl, hnc, le_refl _, hk, by omega⟩

/-- Doubling does not end for a slot from the last capacity on: the next one wraps to zero. -/
theorem double_eq_none {need : UInt32} (hneed : 2 ^ 31 ≤ need.toNat) : ∀ n (nc : UInt32),
    nc.toNat = 0 ∨ (∃ k ≤ 31, nc.toNat = 2 ^ k) → double need n nc = none := by
  intro n
  induction n with
  | zero =>
    intro nc hnc
    refine if_pos (UInt32.le_iff_toNat_le.mpr ?_)
    rcases hnc with h | ⟨k, hk, h⟩
    · omega
    · have := Nat.pow_le_pow_right (n := 2) (by decide) hk
      omega
  | succ n ih =>
    intro nc hnc
    unfold double
    rw [if_pos]
    · refine ih _ ?_
      rw [UInt32.toNat_mul]
      rcases hnc with h | ⟨k, hk, h⟩
      · exact .inl (by rw [h]; rfl)
      · rw [h]
        change 2 ^ k * 2 % 4294967296 = 0 ∨ ∃ k' ≤ 31, 2 ^ k * 2 % 4294967296 = 2 ^ k'
        rcases Nat.lt_or_ge k 31 with hlt | hge
        · have hle : 2 ^ k ≤ 2 ^ 30 := Nat.pow_le_pow_right (by decide) (by omega)
          exact .inr ⟨k + 1, hlt, by rw [Nat.mod_eq_of_lt (by omega), Nat.pow_succ]⟩
        · obtain rfl : k = 31 := by omega
          exact .inl rfl
    · rw [UInt32.le_iff_toNat_le]
      rcases hnc with h | ⟨k, hk, h⟩
      · omega
      · have := Nat.pow_le_pow_right (n := 2) (by decide) hk
        omega

/-- An id past the capacity is not found. -/
theorem get_none_of_le {i : OrderIndex} {id : UInt64} (h : i.cap_.toUInt64 ≤ id) : i.get id = none :=
  if_pos h

/-- An id that is found is below the capacity. -/
theorem lt_of_get {i : OrderIndex} {id : UInt64} {p : ℕ} (h : i.get id = some p) :
    id < i.cap_.toUInt64 := by
  by_contra hn
  rw [get_none_of_le (UInt64.not_lt.mp hn)] at h
  cases h

/-- What two indices have in common when they have the same slots. -/
theorem get_update {i : OrderIndex} {id : UInt64} {p : Option ℕ} (h : id < i.cap_.toUInt64)
    (id' : UInt64) : ({ i with slots_ := Function.update i.slots_ id p } : OrderIndex).get id' =
      if id' = id then p else i.get id' := by
  unfold get
  dsimp only
  by_cases hid : id' = id
  · rw [if_pos hid, hid, if_neg (UInt64.not_le.mpr h), Function.update_self]
  · rw [if_neg hid, Function.update_of_ne hid]

/-- `erase` of an id that is there. -/
theorem erase_run {i : OrderIndex} {id : UInt64} {p : ℕ} (h : i.get id = some p) :
    ∃ i', i.erase id = some i' ∧ (∀ id', i'.get id' = if id' = id then none else i.get id') ∧
      i'.count_ = i.count_ - 1 ∧ i'.cap_ = i.cap_ := by
  have hlt := lt_of_get h
  refine ⟨{ i with
    slots_ := Function.update i.slots_ id none
    count_ := i.count_ - 1
    freeStack_ := if i.freeStack_.length < freeStackCap then id :: i.freeStack_ else i.freeStack_ },
    ?_, get_update (p := none) hlt, rfl, rfl⟩
  unfold erase setSlot
  rw [if_pos hlt]
  rfl

/-- Two indices that hold the same, in arrays that may differ in size. -/
structure Like (i i' : OrderIndex) : Prop where
  get : ∀ id, i'.get id = i.get id
  count : i'.count_ = i.count_
  sized : i'.Sized

/-- `grow` to a slot below the last capacity. -/
theorem grow_run (need : UInt32) {i : OrderIndex} (hs : i.Sized) (hneed : need.toNat < 2 ^ 31) :
    ∃ i', i.grow need = some i' ∧ Like i i' ∧ need.toNat < i'.cap_.toNat := by
  obtain ⟨k, hk20, hk31, hcap⟩ := hs
  obtain ⟨nc, j, he, hnc, hkj, hj31, hlt⟩ := double_run hneed 32 k i.cap_ hcap hk31 (by omega)
  have hpow : 2 ^ k ≤ 2 ^ j := Nat.pow_le_pow_right (by decide) hkj
  unfold grow
  rw [he]
  refine ⟨_, rfl, ⟨fun id => ?_, rfl, ⟨j, by omega, hj31, hnc⟩⟩, by rw [hnc]; exact hlt⟩
  unfold OrderIndex.get
  dsimp only
  by_cases hcap' : i.cap_.toUInt64 ≤ id
  · rw [if_pos hcap', if_neg (UInt64.not_lt.mpr hcap')]
    split <;> rfl
  · rw [if_neg hcap', if_pos (UInt64.not_le.mp hcap')]
    refine if_neg fun hx => hcap' ?_
    rw [UInt64.le_iff_toNat_le, UInt32.toNat_toUInt64] at hx ⊢
    omega

/-- `grow` to a slot from the last capacity on. -/
theorem grow_eq_none {i : OrderIndex} {need : UInt32} (hs : i.Sized) (hneed : 2 ^ 31 ≤ need.toNat) :
    i.grow need = none := by
  obtain ⟨k, -, hk31, hcap⟩ := hs
  unfold grow
  rw [double_eq_none hneed 32 _ (.inr ⟨k, hk31, hcap⟩)]
  rfl

/-- `reserve` changes the size of the array only. -/
theorem reserve_like {i i' : OrderIndex} {id : UInt64} (hs : i.Sized) (h : i.reserve id = some i') :
    Like i i' := by
  unfold reserve at h
  split at h
  · rcases Nat.lt_or_ge id.toUInt32.toNat (2 ^ 31) with hneed | hneed
    · obtain ⟨i₁, he, hlike, -⟩ := grow_run _ hs hneed
      rw [he] at h
      cases h
      exact hlike
    · rw [grow_eq_none hs hneed] at h
      cases h
  · cases h
    exact ⟨fun _ => rfl, rfl, hs⟩

/-- `reserve` makes room for an id below the last capacity. -/
theorem reserve_run {i : OrderIndex} {id : UInt64} (hs : i.Sized) (hid : id.toNat < 2 ^ 31) :
    ∃ i', i.reserve id = some i' ∧ Like i i' ∧ id < i'.cap_.toUInt64 := by
  have hneed : id.toUInt32.toNat = id.toNat := by
    rw [UInt64.toNat_toUInt32]
    omega
  unfold reserve
  split
  · obtain ⟨i', he, hlike, hlt⟩ := grow_run id.toUInt32 hs (by omega)
    refine ⟨i', he, hlike, ?_⟩
    rw [UInt64.lt_iff_toNat_lt, UInt32.toNat_toUInt64]
    omega
  · rename_i hle
    exact ⟨i, rfl, ⟨fun _ => rfl, rfl, hs⟩, UInt64.not_le.mp hle⟩

/-- `insert` of an id below the last capacity. -/
theorem insert_run {i : OrderIndex} {id : UInt64} (hs : i.Sized) (hid : id.toNat < 2 ^ 31) (p : ℕ) :
    ∃ i', i.insert id p = some i' ∧ (∀ id', i'.get id' = if id' = id then some p else i.get id') ∧
      i'.count_ = i.count_ + 1 ∧ i'.Sized := by
  obtain ⟨i₁, he, hlike, hlt⟩ := reserve_run hs hid
  refine ⟨{ i₁ with slots_ := Function.update i₁.slots_ id (some p), count_ := i₁.count_ + 1 }, ?_,
    fun id' => ?_, ?_, hlike.sized⟩
  · unfold insert setSlot
    rw [he]
    dsimp only [Option.bind_eq_bind, Option.bind_some]
    rw [if_pos hlt]
    rfl
  · refine (get_update (p := some p) hlt id').trans ?_
    rw [hlike.get]
  · exact congrArg (· + 1) hlike.count

/-- `insert` of an id from the last capacity on does not return, or writes outside of the array. -/
theorem insert_eq_none {i : OrderIndex} {id : UInt64} (hs : i.Sized) (hid : 2 ^ 31 ≤ id.toNat) (p : ℕ) :
    i.insert id p = none := by
  have hcap := hs.cap_le
  unfold insert reserve
  rw [if_pos (by rw [UInt64.le_iff_toNat_le, UInt32.toNat_toUInt64]; omega)]
  rcases Nat.lt_or_ge id.toUInt32.toNat (2 ^ 31) with hneed | hneed
  · obtain ⟨i', he, hlike, -⟩ := grow_run _ hs hneed
    have hcap' := hlike.sized.cap_le
    rw [he]
    unfold setSlot
    dsimp only [Option.bind_eq_bind, Option.bind_some]
    rw [if_neg]
    · rfl
    · rw [UInt64.lt_iff_toNat_lt, UInt32.toNat_toUInt64]
      omega
  · rw [grow_eq_none hs hneed]
    rfl

/-- `assignId` leaves the slots alone. -/
theorem assignId_like {i i' : OrderIndex} {id : UInt64} (hs : i.Sized)
    (h : i.assignId = some (id, i')) : Like i i' := by
  unfold assignId at h
  cases hf : i.freeStack_ with
  | cons x ids =>
    rw [hf] at h
    simp only [Option.some.injEq, Prod.mk.injEq] at h
    obtain ⟨-, rfl⟩ := h
    exact ⟨fun _ => rfl, rfl, hs⟩
  | nil =>
    rw [hf] at h
    obtain ⟨i₁, hr, h⟩ := Option.bind_eq_some_iff.mp h
    cases h
    have hlike := reserve_like (i := { i with freeStack_ := [], nextId_ := i.nextId_ + 1 }) hs hr
    exact ⟨hlike.get, hlike.count, hlike.sized⟩

end OrderIndex

end MatchingEngine.Cpp
