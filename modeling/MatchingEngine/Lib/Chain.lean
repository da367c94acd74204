import Mathlib.Data.List.Nodup
import Mathlib.Logic.Function.Basic

/-!
# Chains of links in a heap

A link field of a heap is a function `next : α → Option α`, and the list that a chain of links
spells from a start pointer is a relation, `Chain next p xs`. Every operation on a linked structure
is then a statement about which links changed: `Chain.congr` is the frame rule (links outside the
chain may change), and `Chain.cons`, `Chain.snoc`, and `Chain.unlink` are the three ways a chain
changes. A doubly linked queue is two chains over the same list, one in each direction, so its rules
are these rules used twice.
-/

namespace MatchingEngine.Lib

variable {α : Type*}

/-- From the pointer `p`, the links `next` spell exactly the list `xs` and then end. -/
def Chain (next : α → Option α) : Option α → List α → Prop
  | p, [] => p = none
  | p, x :: xs => p = some x ∧ Chain next (next x) xs

/-- Following the links `next` for at most `fuel` steps. -/
def walk (next : α → Option α) : ℕ → Option α → List α
  | 0, _ => []
  | _ + 1, none => []
  | fuel + 1, some x => x :: walk next fuel (next x)

namespace Chain

variable {next next' : α → Option α} {p : Option α} {x y : α} {xs ys as bs : List α}

/-- The empty chain starts nowhere. -/
@[simp] theorem nil_iff : Chain next p [] ↔ p = none := Iff.rfl

/-- A chain starts at its first element. -/
@[simp] theorem cons_iff : Chain next p (x :: xs) ↔ p = some x ∧ Chain next (next x) xs := Iff.rfl

/-- The start of a chain is the head of its list. -/
theorem start_eq (h : Chain next p xs) : p = xs.head? := by
  cases xs with
  | nil => exact h
  | cons x xs => exact h.1

/-- A pointer starts at most one chain. -/
theorem unique : ∀ {p : Option α} {xs ys : List α}, Chain next p xs → Chain next p ys → xs = ys
  | _, [], [], _, _ => rfl
  | _, [], _ :: _, h, h' => by cases h; cases h'.1
  | _, _ :: _, [], h, h' => by cases h'; cases h.1
  | _, x :: xs, y :: ys, h, h' => by
    obtain rfl : x = y := Option.some.inj (h.1.symm.trans h'.1)
    rw [unique h.2 h'.2]

/-- The frame rule: a chain depends only on the links of its own elements. -/
theorem congr : ∀ {p : Option α} {xs : List α}, Chain next p xs → (∀ z ∈ xs, next' z = next z) →
    Chain next' p xs
  | _, [], h, _ => h
  | _, x :: xs, h, hc => by
    refine ⟨h.1, ?_⟩
    rw [hc x List.mem_cons_self]
    exact congr h.2 fun z hz => hc z (List.mem_cons_of_mem _ hz)

/-- The part of a chain from one of its elements on is the chain that starts there. -/
theorem suffix : ∀ {p : Option α} {as : List α}, Chain next p (as ++ x :: bs) →
    Chain next (some x) (x :: bs)
  | _, [], h => ⟨rfl, h.2⟩
  | _, _ :: _, h => suffix h.2

/-- The link of an element leads to the element after it. -/
theorem next_eq (h : Chain next p (as ++ x :: bs)) : next x = bs.head? :=
  h.suffix.2.start_eq

/-- A chain that ends visits no element twice: an element that recurs would start two chains of
different lengths. -/
theorem nodup (h : Chain next p xs) : xs.Nodup := by
  induction xs generalizing p with
  | nil => exact List.nodup_nil
  | cons x xs ih =>
    refine List.nodup_cons.mpr ⟨fun hx => ?_, ih h.2⟩
    obtain ⟨as, bs, rfl⟩ := List.append_of_mem hx
    have hwhole : Chain next (some x) (x :: (as ++ x :: bs)) := ⟨rfl, h.2⟩
    have hlen := congrArg List.length (hwhole.unique h.2.suffix)
    simp only [List.length_cons, List.length_append] at hlen
    omega

/-- A new first element. -/
theorem cons (h : Chain next p xs) (hx : next' x = p) (hc : ∀ z ∈ xs, next' z = next z) :
    Chain next' (some x) (x :: xs) :=
  ⟨rfl, by rw [hx]; exact h.congr hc⟩

/-- A new last element: the link of the old last element, or the start when there was none, now
leads to it. -/
theorem snoc (h : Chain next p xs) {p' : Option α} (hend : next' x = none)
    (hp : p' = if xs = [] then some x else p)
    (hlast : ∀ z ∈ xs.getLast?, next' z = some x)
    (hc : ∀ z ∈ xs, z ∉ xs.getLast? → next' z = next z) : Chain next' p' (xs ++ [x]) := by
  induction xs generalizing p p' with
  | nil => exact ⟨by simpa using hp, hend⟩
  | cons y ys ih =>
    have hnd := h.nodup
    refine ⟨by rw [hp, if_neg (List.cons_ne_nil _ _)]; exact h.1, ?_⟩
    cases ys with
    -- `y` was the last element, and its link is the new one.
    | nil => exact ⟨hlast y (by simp), hend⟩
    | cons z zs =>
      -- `y` is not the last element, so its link is the old one.
      have hny : y ∉ (z :: zs).getLast? := fun hy =>
        (List.nodup_cons.mp hnd).1 (List.mem_of_getLast? hy)
      refine ih h.2 ?_ ?_ ?_
      · rw [if_neg (List.cons_ne_nil _ _)]
        exact hc y List.mem_cons_self (by simpa [List.getLast?_cons_cons] using hny)
      · intro w hw
        exact hlast w (by simpa [List.getLast?_cons_cons] using hw)
      · intro w hw hw'
        exact hc w (List.mem_cons_of_mem _ hw) (by simpa [List.getLast?_cons_cons] using hw')

/-- An element unlinked from the middle: the link that led to it, which is the start when it was
first, now leads where its own link led. -/
theorem unlink (h : Chain next p (as ++ x :: bs)) {p' : Option α}
    (hp : p' = if as = [] then next x else p)
    (hlast : ∀ z ∈ as.getLast?, next' z = next x)
    (hc : ∀ z ∈ as ++ bs, z ∉ as.getLast? → next' z = next z) : Chain next' p' (as ++ bs) := by
  induction as generalizing p p' with
  -- The first element: the start leads past it.
  | nil =>
    rw [if_pos rfl] at hp
    subst hp
    exact h.2.congr fun z hz => hc z (by simpa using hz) (by simp)
  | cons y ys ih =>
    refine ⟨by rw [hp, if_neg (List.cons_ne_nil _ _)]; exact h.1, ?_⟩
    have hnd := h.nodup
    cases ys with
    | nil =>
      -- `y` stood right before the element, and its link leads past it.
      rw [hlast y (by simp)]
      refine h.2.2.congr fun z hz => hc z (by simp [hz]) fun hzy => ?_
      obtain rfl : z = y := by simpa [eq_comm] using hzy
      simp only [List.cons_append, List.nil_append, List.nodup_cons, List.mem_cons, not_or] at hnd
      exact hnd.1.2 hz
    | cons w ws =>
      -- `y` is farther up, so its link is the old one.
      have hny : y ∉ (w :: ws).getLast? := fun hy => by
        have hmem : y ∈ w :: ws := List.mem_of_getLast? hy
        exact (List.nodup_cons.mp hnd).1 (List.mem_append_left _ hmem)
      refine ih h.2 ?_ ?_ ?_
      · rw [if_neg (List.cons_ne_nil _ _)]
        exact hc y (by simp) (by simpa [List.getLast?_cons_cons] using hny)
      · intro z hz
        exact hlast z (by simpa [List.getLast?_cons_cons] using hz)
      · intro z hz hz'
        exact hc z (List.mem_cons_of_mem _ hz) (by simpa [List.getLast?_cons_cons] using hz')

/-- Walking a chain with enough fuel returns its list. -/
theorem walk_eq : ∀ {p : Option α} {xs : List α} {fuel : ℕ}, Chain next p xs → xs.length ≤ fuel →
    walk next fuel p = xs
  | _, [], 0, _, _ => rfl
  | _, [], _ + 1, h, _ => by cases h; rfl
  | _, _ :: _, 0, _, hf => by simp at hf
  | _, x :: xs, fuel + 1, h, hf => by
    rw [h.1, walk, walk_eq h.2 (by simpa using hf)]

end Chain

/-- A doubly linked queue: the `next` links spell `xs` from `head`, and the `prev` links spell it
backwards from `tail`. -/
structure Queue (next prev : α → Option α) (head tail : Option α) (xs : List α) : Prop where
  /-- The forward chain. -/
  fwd : Chain next head xs
  /-- The backward chain. -/
  bwd : Chain prev tail xs.reverse

namespace Queue

variable {next prev next' prev' : α → Option α} {head tail : Option α} {x : α} {xs as bs : List α}

/-- Nothing is twice in a queue. -/
theorem nodup (h : Queue next prev head tail xs) : xs.Nodup := h.fwd.nodup

/-- The frame rule for queues. -/
theorem congr (h : Queue next prev head tail xs) (hn : ∀ z ∈ xs, next' z = next z)
    (hp : ∀ z ∈ xs, prev' z = prev z) : Queue next' prev' head tail xs :=
  ⟨h.fwd.congr hn, h.bwd.congr fun z hz => hp z (List.mem_reverse.mp hz)⟩

/-- The tail pointer is the last element. -/
theorem tail_eq (h : Queue next prev head tail xs) : tail = xs.getLast? := by
  rw [h.bwd.start_eq, List.head?_reverse]

/-- The back link of an element leads to the element before it. -/
theorem prev_eq (h : Queue next prev head tail (as ++ x :: bs)) : prev x = as.getLast? := by
  have hb := h.bwd
  rw [List.reverse_append, List.reverse_cons, List.append_assoc] at hb
  rw [hb.next_eq]
  exact List.head?_reverse

/-- The forward link of an element leads to the element after it. -/
theorem next_eq (h : Queue next prev head tail (as ++ x :: bs)) : next x = bs.head? :=
  h.fwd.next_eq

/-- The element at the tail. -/
theorem snoc (h : Queue next prev head tail xs) {head' : Option α} (hn : next' x = none)
    (hp : prev' x = tail) (hh : head' = if xs = [] then some x else head)
    (hlast : ∀ z ∈ xs.getLast?, next' z = some x)
    (hnc : ∀ z ∈ xs, z ∉ xs.getLast? → next' z = next z) (hpc : ∀ z ∈ xs, prev' z = prev z) :
    Queue next' prev' head' (some x) (xs ++ [x]) := by
  refine ⟨h.fwd.snoc hn hh hlast hnc, ?_⟩
  rw [List.reverse_append]
  exact h.bwd.cons hp fun z hz => hpc z (List.mem_reverse.mp hz)

/-- An element unlinked: the links on its two sides, or the head and the tail, now lead past it. -/
theorem unlink (h : Queue next prev head tail (as ++ x :: bs)) {head' tail' : Option α}
    (hh : head' = if as = [] then next x else head)
    (ht : tail' = if bs = [] then prev x else tail)
    (hlast : ∀ z ∈ as.getLast?, next' z = next x)
    (hfirst : ∀ z ∈ bs.head?, prev' z = prev x)
    (hnc : ∀ z ∈ as ++ bs, z ∉ as.getLast? → next' z = next z)
    (hpc : ∀ z ∈ as ++ bs, z ∉ bs.head? → prev' z = prev z) :
    Queue next' prev' head' tail' (as ++ bs) := by
  refine ⟨h.fwd.unlink hh hlast hnc, ?_⟩
  have hb := h.bwd
  rw [List.reverse_append, List.reverse_cons, List.append_assoc] at hb
  rw [List.reverse_append]
  refine Chain.unlink (x := x) hb ?_ ?_ ?_
  · rw [ht]; simp [List.reverse_eq_nil_iff]
  · intro z hz
    exact hfirst z (by simpa [List.getLast?_reverse] using hz)
  · intro z hz hz'
    refine hpc z ?_ (by simpa [List.getLast?_reverse] using hz')
    simpa [or_comm] using hz

end Queue

end MatchingEngine.Lib
