import Mathlib.Data.List.Forall2
import Mathlib.Order.Basic

/-!
# Related results

Two computations that may fail are related when both fail, or both return and their values are
related. Two that are made of related steps are related.

The relation on options is `Option.Rel` of the library. The rules say how it goes through a bind, a
map, a test that both sides decide alike, and a pure result, which is all that a proof by recursion
on two programs of one shape needs.
-/

namespace MatchingEngine.Lib

variable {α α' β β' : Type*} {R : α → α' → Prop} {P : β → β' → Prop}

/-- Two sequences of which the parts are related. -/
theorem rel_bind {x : Option α} {x' : Option α'} {g : α → Option β} {g' : α' → Option β'}
    (h : Option.Rel R x x') (hg : ∀ a a', R a a' → Option.Rel P (g a) (g' a')) :
    Option.Rel P (x.bind g) (x'.bind g') := by
  cases h with
  | some h => exact hg _ _ h
  | none => exact .none

/-- Two images of related results. -/
theorem rel_map {x : Option α} {x' : Option α'} {g : α → β} {g' : α' → β'} (h : Option.Rel R x x')
    (hg : ∀ a a', R a a' → P (g a) (g' a')) : Option.Rel P (x.map g) (x'.map g') := by
  cases h with
  | some h => exact .some (hg _ _ h)
  | none => exact .none

/-- Two tests of conditions that agree. -/
theorem rel_ite {c c' : Prop} [Decidable c] [Decidable c'] {x y : Option α} {x' y' : Option α'}
    (hc : c' ↔ c) (h : c → Option.Rel R x x') (hn : ¬ c → Option.Rel R y y') :
    Option.Rel R (if c then x else y) (if c' then x' else y') := by
  by_cases hp : c
  · rw [if_pos hp, if_pos (hc.mpr hp)]
    exact h hp
  · rw [if_neg hp, if_neg fun hx => hp (hc.mp hx)]
    exact hn hp

/-- What is related to a result is a result. -/
theorem rel_some {x : Option α} {x' : Option α'} (h : Option.Rel R x x') {a : α} (ha : x = some a) :
    ∃ a', x' = some a' ∧ R a a' := by
  cases h with
  | some h =>
    cases ha
    exact ⟨_, rfl, h⟩
  | none => cases ha

end MatchingEngine.Lib
