import MatchingEngine.Cpp.State

/-!
# The queues of the C++ engine in its heap

`PriceLevel::pushBack` and `PriceLevel::remove` write the links of an order and of its neighbours
and the ends of the queue. What they do is said with four readings of the heap (the values of an
order, its two links, and its level): the readings that change, where they change, and the queue
that the links then spell, by the rules of `Lib/Chain.lean`.
-/

namespace MatchingEngine.Cpp

open Lib

/-! ## Readings of a heap -/

/-- The values of an order. -/
def valueAt (h : ℕ → Option Cell) (p : ℕ) : Option Order := (h p).map (·.order)

/-- The `next` link of an order. -/
def nextAt (h : ℕ → Option Cell) (p : ℕ) : Option ℕ := (h p).bind (·.next)

/-- The `prev` link of an order. -/
def prevAt (h : ℕ → Option Cell) (p : ℕ) : Option ℕ := (h p).bind (·.prev)

/-- The level of an order. -/
def ownerAt (h : ℕ → Option Cell) (p : ℕ) : Option ℕ := (h p).bind (·.level)

section Readings

variable {h : ℕ → Option Cell} {p : ℕ} {c : Cell}

/-- The values after a cell is written. -/
theorem valueAt_update : valueAt (Function.update h p (some c)) =
    Function.update (valueAt h) p (some c.order) := by
  funext q
  by_cases hq : q = p
  · simp [valueAt, hq]
  · simp [valueAt, hq]

/-- The links to the next orders after a cell is written. -/
theorem nextAt_update :
    nextAt (Function.update h p (some c)) = Function.update (nextAt h) p c.next := by
  funext q
  by_cases hq : q = p
  · simp [nextAt, hq]
  · simp [nextAt, hq]

/-- The links to the previous orders after a cell is written. -/
theorem prevAt_update :
    prevAt (Function.update h p (some c)) = Function.update (prevAt h) p c.prev := by
  funext q
  by_cases hq : q = p
  · simp [prevAt, hq]
  · simp [prevAt, hq]

/-- The owners after a cell is written. -/
theorem ownerAt_update : ownerAt (Function.update h p (some c)) =
    Function.update (ownerAt h) p c.level := by
  funext q
  by_cases hq : q = p
  · simp [ownerAt, hq]
  · simp [ownerAt, hq]

/-- The links of the other orders. -/
theorem at_update_of_ne {q : ℕ} (v : Option Cell) (hq : q ≠ p) :
    nextAt (Function.update h p v) q = nextAt h q ∧ prevAt (Function.update h p v) q = prevAt h q ∧
      ownerAt (Function.update h p v) q = ownerAt h q := by
  simp [nextAt, prevAt, ownerAt, hq]

/-- An order that is there has a cell. -/
theorem cell_of_valueAt {o : Order} (hv : valueAt h p = some o) : ∃ c, h p = some c ∧ c.order = o := by
  obtain ⟨c, hc, ho⟩ := Option.map_eq_some_iff.mp hv
  exact ⟨c, hc, ho⟩

/-- The values in a cell. -/
theorem valueAt_of_cell (hc : h p = some c) : valueAt h p = some c.order := by
  unfold valueAt
  rw [hc]
  rfl

/-- The link to the next order in a cell. -/
theorem nextAt_of_cell (hc : h p = some c) : nextAt h p = c.next := by
  unfold nextAt
  rw [hc]
  rfl

/-- The link to the previous order in a cell. -/
theorem prevAt_of_cell (hc : h p = some c) : prevAt h p = c.prev := by
  unfold prevAt
  rw [hc]
  rfl

/-- The owner in a cell. -/
theorem ownerAt_of_cell (hc : h p = some c) : ownerAt h p = c.level := by
  unfold ownerAt
  rw [hc]
  rfl

/-- A cell written with the values that it has. -/
theorem valueAt_update_self (hc : h p = some c) {c' : Cell} (ho : c'.order = c.order) :
    valueAt (Function.update h p (some c')) = valueAt h := by
  rw [valueAt_update, ho, ← valueAt_of_cell hc, Function.update_eq_self]

/-- A cell that keeps its link to the next order keeps all of them. -/
theorem nextAt_update_self (hc : h p = some c) {d : Cell} (hn : d.next = c.next) :
    nextAt (Function.update h p (some d)) = nextAt h := by
  rw [nextAt_update, hn, ← nextAt_of_cell hc, Function.update_eq_self]

/-- A cell that keeps its link to the previous order keeps all of them. -/
theorem prevAt_update_self (hc : h p = some c) {d : Cell} (hn : d.prev = c.prev) :
    prevAt (Function.update h p (some d)) = prevAt h := by
  rw [prevAt_update, hn, ← prevAt_of_cell hc, Function.update_eq_self]

/-- A cell that keeps its owner keeps all of them. -/
theorem ownerAt_update_self (hc : h p = some c) {d : Cell} (hn : d.level = c.level) :
    ownerAt (Function.update h p (some d)) = ownerAt h := by
  rw [ownerAt_update, hn, ← ownerAt_of_cell hc, Function.update_eq_self]

end Readings

/-! ## The two links of a neighbour -/

/-- A queue of a level: its links spell the addresses `xs`. -/
def Spells (h : ℕ → Option Cell) (l : PriceLevel) (xs : List ℕ) : Prop :=
  Queue (nextAt h) (prevAt h) l.head l.tail xs

section Links

variable {s : Engine} {lv : ℕ} {l : PriceLevel} {p n : Option ℕ}

/-- What `linkNext` writes. -/
theorem linkNext_run (hl : s.levels lv = some l) (hp : ∀ a ∈ p, ∃ o, valueAt s.orders a = some o) :
    ∃ h, linkNext lv p n s = some ((), { s with
        orders := h
        levels := Function.update s.levels lv
          (some { l with head := if p = none then n else l.head }) }) ∧
      valueAt h = valueAt s.orders ∧ ownerAt h = ownerAt s.orders ∧ prevAt h = prevAt s.orders ∧
      ∀ z, nextAt h z = if p = some z then n else nextAt s.orders z := by
  cases p with
  | none =>
    refine ⟨s.orders, ?_, rfl, rfl, rfl, fun z => rfl⟩
    unfold linkNext setLevel
    dsimp only
    rw [hl]
    rfl
  | some a =>
    obtain ⟨o, ho⟩ := hp a rfl
    obtain ⟨c, hc, -⟩ := cell_of_valueAt ho
    refine ⟨Function.update s.orders a (some { c with next := n }), ?_, valueAt_update_self hc rfl,
      ownerAt_update_self hc rfl, prevAt_update_self hc rfl, fun z => ?_⟩
    · unfold linkNext setCell
      dsimp only
      have hsame : ({ l with head := if some a = none then n else l.head } : PriceLevel) = l := by
        rw [if_neg nofun]
      rw [hc, hsame, ← hl, Function.update_eq_self]
      rfl
    · rw [nextAt_update]
      by_cases hz : z = a
      · rw [hz, Function.update_self, if_pos rfl]
      · rw [Function.update_of_ne hz, if_neg fun h => hz (Option.some.inj h).symm]

/-- What `linkPrev` writes. -/
theorem linkPrev_run (hl : s.levels lv = some l) (hn : ∀ a ∈ n, ∃ o, valueAt s.orders a = some o) :
    ∃ h, linkPrev lv n p s = some ((), { s with
        orders := h
        levels := Function.update s.levels lv
          (some { l with tail := if n = none then p else l.tail }) }) ∧
      valueAt h = valueAt s.orders ∧ ownerAt h = ownerAt s.orders ∧ nextAt h = nextAt s.orders ∧
      ∀ z, prevAt h z = if n = some z then p else prevAt s.orders z := by
  cases n with
  | none =>
    refine ⟨s.orders, ?_, rfl, rfl, rfl, fun z => rfl⟩
    unfold linkPrev setLevel
    dsimp only
    rw [hl]
    rfl
  | some a =>
    obtain ⟨o, ho⟩ := hn a rfl
    obtain ⟨c, hc, -⟩ := cell_of_valueAt ho
    refine ⟨Function.update s.orders a (some { c with prev := p }), ?_, valueAt_update_self hc rfl,
      ownerAt_update_self hc rfl, nextAt_update_self hc rfl, fun z => ?_⟩
    · unfold linkPrev setCell
      dsimp only
      have hsame : ({ l with tail := if some a = none then p else l.tail } : PriceLevel) = l := by
        rw [if_neg nofun]
      rw [hc, hsame, ← hl, Function.update_eq_self]
      rfl
    · rw [prevAt_update]
      by_cases hz : z = a
      · rw [hz, Function.update_self, if_pos rfl]
      · rw [Function.update_of_ne hz, if_neg fun h => hz (Option.some.inj h).symm]

end Links

/-! ## `pushBack` and `remove` -/

/-- What an operation on the queue of a level leaves as it is: the values of all orders, the levels
of the orders other than `o`, and the links of the orders outside of `xs`. -/
structure Relinked (h h' : ℕ → Option Cell) (o : ℕ) (owner : Option ℕ) (xs : List ℕ) : Prop where
  value : valueAt h' = valueAt h
  owner : ownerAt h' = Function.update (ownerAt h) o owner
  next : ∀ z ∉ xs, nextAt h' z = nextAt h z
  prev : ∀ z ∉ xs, prevAt h' z = prevAt h z

section Queues

variable {s : Engine} {lv o : ℕ} {l : PriceLevel} {as bs xs : List ℕ}

/-- `remove` takes an order out of the queue of its level. -/
theorem remove_run (hl : s.levels lv = some l) (hq : Spells s.orders l (as ++ o :: bs))
    (hlive : ∀ z ∈ as ++ o :: bs, ∃ v, valueAt s.orders z = some v) :
    ∃ h l', remove lv o s = some ((), { s with
        orders := h
        levels := Function.update s.levels lv (some l') }) ∧
      l'.price = l.price ∧ Spells h l' (as ++ bs) ∧ Relinked s.orders h o none (as ++ o :: bs) := by
  have hnd := hq.nodup
  have hprev : prevAt s.orders o = as.getLast? := hq.prev_eq
  have hnext : nextAt s.orders o = bs.head? := hq.next_eq
  have hlast : ∀ a ∈ as.getLast?, a ∈ as ++ o :: bs := fun a ha =>
    List.mem_append_left _ (List.mem_of_getLast? ha)
  have hfirst : ∀ b ∈ bs.head?, b ∈ as ++ o :: bs := fun b hb =>
    List.mem_append_right _ (List.mem_cons_of_mem _ (List.mem_of_head? hb))
  have hoas : o ∉ as := fun h => (List.nodup_append.mp hnd).2.2 o h o List.mem_cons_self rfl
  have hobs : o ∉ bs := (List.nodup_cons.mp (List.nodup_append.mp hnd).2.1).1
  obtain ⟨v, hv⟩ := hlive o (List.mem_append_right _ List.mem_cons_self)
  obtain ⟨c, hc, -⟩ := cell_of_valueAt hv
  have hcp : c.prev = as.getLast? := (prevAt_of_cell hc).symm.trans hprev
  have hcn : c.next = bs.head? := (nextAt_of_cell hc).symm.trans hnext
  -- The link of the order before.
  obtain ⟨h₁, he₁, hv₁, ho₁, hp₁, hn₁⟩ := linkNext_run (s := s) (p := c.prev) (n := c.next) hl
    fun a ha => hlive a (hlast a (by rwa [hcp] at ha))
  obtain ⟨c₁, hc₁, -⟩ := cell_of_valueAt (h := h₁) (p := o) (o := v) (by rw [hv₁]; exact hv)
  have hc₁n : c₁.next = c.next := by
    rw [← nextAt_of_cell hc₁, hn₁, if_neg, nextAt_of_cell hc]
    rw [hcp]
    exact fun h => hoas (List.mem_of_getLast? h)
  have hc₁p : c₁.prev = c.prev := by rw [← prevAt_of_cell hc₁, hp₁, prevAt_of_cell hc]
  -- The link of the order after.
  obtain ⟨h₂, he₂, hv₂, ho₂, hn₂, hp₂⟩ := linkPrev_run (s := { s with
      orders := h₁
      levels := Function.update s.levels lv
        (some { l with head := if c.prev = none then c.next else l.head }) })
    (n := c₁.next) (p := c₁.prev) (Function.update_self ..) fun a ha => by
      rw [hv₁]
      exact hlive a (hfirst a (by rwa [hc₁n, hcn] at ha))
  obtain ⟨c₂, hc₂, hc₂v⟩ := cell_of_valueAt (h := h₂) (p := o) (o := v) (by rw [hv₂, hv₁]; exact hv)
  refine ⟨Function.update h₂ o (some { c₂ with prev := none, next := none, level := none }),
    { l with
      head := if c.prev = none then c.next else l.head
      tail := if c₁.next = none then c₁.prev else l.tail }, ?_, rfl, ?_, ?_⟩
  · unfold remove
    rw [run_bind (show cell o s = some (c, s) by unfold cell; rw [hc]; rfl), run_bind he₁,
      run_bind (show cell o _ = some (c₁, _) by unfold cell; dsimp only; rw [hc₁]; rfl), run_bind he₂]
    unfold setCell
    dsimp only
    rw [hc₂, Function.update_idem]
    rfl
  · have hnx : ∀ z, z ≠ o → nextAt (Function.update h₂ o (some { c₂ with
        prev := none, next := none, level := none })) z =
        if as.getLast? = some z then bs.head? else nextAt s.orders z := by
      intro z hz
      rw [nextAt_update, Function.update_of_ne hz, hn₂]
      exact (hn₁ z).trans (by rw [hcp, hcn])
    have hpx : ∀ z, z ≠ o → prevAt (Function.update h₂ o (some { c₂ with
        prev := none, next := none, level := none })) z =
        if bs.head? = some z then as.getLast? else prevAt s.orders z := by
      intro z hz
      rw [prevAt_update, Function.update_of_ne hz, hp₂, hp₁, hc₁n, hc₁p, hcn, hcp]
    have hne : ∀ z ∈ as ++ bs, z ≠ o := by
      rintro z hz rfl
      exact (List.mem_append.mp hz).elim hoas hobs
    refine hq.unlink ?_ ?_ ?_ ?_ ?_ ?_
    · dsimp only
      rw [hcp, hcn, hnext]
      simp only [List.getLast?_eq_none_iff]
    · dsimp only
      rw [hc₁n, hc₁p, hcp, hcn, hprev]
      simp only [List.head?_eq_none_iff]
    · intro z hz
      have hzo := hne z (List.mem_append_left _ (List.mem_of_getLast? hz))
      exact (hnx z hzo).trans ((if_pos hz).trans hnext.symm)
    · intro z hz
      have hzo := hne z (List.mem_append_right _ (List.mem_of_head? hz))
      exact (hpx z hzo).trans ((if_pos hz).trans hprev.symm)
    · intro z hz hz'
      exact (hnx z (hne z hz)).trans (if_neg hz')
    · intro z hz hz'
      exact (hpx z (hne z hz)).trans (if_neg hz')
  · refine ⟨?_, ?_, fun z hz => ?_, fun z hz => ?_⟩
    · exact (valueAt_update_self hc₂ (by rfl)).trans (hv₂.trans hv₁)
    · rw [ownerAt_update, ho₂, ho₁]
    · have hzo : z ≠ o := fun h => hz (by rw [h]; exact List.mem_append_right _ List.mem_cons_self)
      rw [nextAt_update, Function.update_of_ne hzo, hn₂]
      refine (hn₁ z).trans (if_neg fun h => ?_)
      rw [hcp] at h
      exact hz (hlast z h)
    · have hzo : z ≠ o := fun h => hz (by rw [h]; exact List.mem_append_right _ List.mem_cons_self)
      rw [prevAt_update, Function.update_of_ne hzo, hp₂, hp₁, hc₁n, hcn]
      exact if_neg fun h => hz (hfirst z h)

/-- `pushBack` puts an order at the end of the queue of a level. -/
theorem pushBack_run (hl : s.levels lv = some l) (hq : Spells s.orders l xs) (ho : o ∉ xs)
    (hlive : ∀ z ∈ o :: xs, ∃ v, valueAt s.orders z = some v) :
    ∃ h l', pushBack lv o s = some ((), { s with
        orders := h
        levels := Function.update s.levels lv (some l') }) ∧
      l'.price = l.price ∧ Spells h l' (xs ++ [o]) ∧ Relinked s.orders h o (some lv) (o :: xs) := by
  have htail : l.tail = xs.getLast? := hq.tail_eq
  obtain ⟨v, hv⟩ := hlive o List.mem_cons_self
  obtain ⟨c, hc, -⟩ := cell_of_valueAt hv
  -- The links of the order itself.
  have hvx : valueAt (Function.update s.orders o (some { c with
      prev := l.tail, next := none, level := some lv })) = valueAt s.orders :=
        valueAt_update_self hc rfl
  obtain ⟨h₂, he₂, hv₂, ho₂, hp₂, hn₂⟩ := linkNext_run (s := { s with
      orders := Function.update s.orders o (some { c with
        prev := l.tail, next := none, level := some lv }) }) (p := l.tail) (n := some o) hl
    fun a ha => by
      dsimp only
      rw [hvx]
      exact hlive a (List.mem_cons_of_mem _ (List.mem_of_getLast? (by rwa [← htail])))
  refine ⟨h₂, { l with head := if l.tail = none then some o else l.head, tail := some o }, ?_,
    rfl, ?_, ?_⟩
  · unfold pushBack
    rw [run_bind (show level lv s = some (l, s) by unfold level; rw [hl]; rfl), run_bind
      (show setCell o _ s = some ((), _) by unfold setCell; rw [hc]; rfl), run_bind he₂]
    unfold setLevel
    dsimp only
    rw [Function.update_self, Option.map_some, Function.update_idem]
  · have hnx : ∀ z, z ≠ o → nextAt h₂ z = if l.tail = some z then some o else nextAt s.orders z := by
      intro z hz
      rw [hn₂, nextAt_update, Function.update_of_ne hz]
    have hne : ∀ z ∈ xs, z ≠ o := by
      rintro z hz rfl
      exact ho hz
    refine hq.snoc ?_ ?_ ?_ ?_ ?_ ?_
    · rw [hn₂, nextAt_update, Function.update_self, if_neg]
      rw [htail]
      exact fun h => ho (List.mem_of_getLast? h)
    · rw [hp₂, prevAt_update, Function.update_self]
    · dsimp only
      rw [htail]
      simp only [List.getLast?_eq_none_iff]
    · intro z hz
      rw [hnx z (hne z (List.mem_of_getLast? hz)), htail]
      exact if_pos hz
    · intro z hz hz'
      rw [hnx z (hne z hz), htail]
      exact if_neg hz'
    · intro z hz
      rw [hp₂, prevAt_update, Function.update_of_ne (hne z hz)]
  · refine ⟨hv₂.trans hvx, ?_, fun z hz => ?_, fun z hz => ?_⟩
    · rw [ho₂, ownerAt_update]
    · obtain ⟨hzo, hz⟩ := not_or.mp (mt List.mem_cons.mpr hz)
      rw [hn₂, nextAt_update, Function.update_of_ne hzo, htail]
      exact if_neg fun h => hz (List.mem_of_getLast? h)
    · obtain ⟨hzo, -⟩ := not_or.mp (mt List.mem_cons.mpr hz)
      rw [hp₂, prevAt_update, Function.update_of_ne hzo]

end Queues

end MatchingEngine.Cpp
