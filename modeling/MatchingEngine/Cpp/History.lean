import MatchingEngine.Cpp.Runs

/-!
# The history of a run

An act adds entries to the history and takes none away. `Step.executed` says what the entries for
trades are, and a property of the entries that an act can add is one of all entries of a run.

`Executes` says of a trade between which orders it was made, and what was true of them and of the
book then. Every act writes at most one trade (`Step.executed`), so a statement about all trades of
a run is proved of the act that makes one.
-/

namespace MatchingEngine.Cpp

open Lib

/-- A trade between an incoming order and the best order of the other side. -/
structure Executes (f : Flat) (t : Trade) (inc r : Order) (contra : Levels) : Prop where
  side : f.side (oppositeSide inc.side) = contra
  head : ∃ p q m, contra = (p, r :: q) :: m ∧ canMatch inc p = true
  conflict : stpConflict inc r = false
  postOnly : inc.postOnly = false
  positive : 0 < min inc.remainingQty r.visibleQty
  trade : t = ⟨f.tape.tid, r.price, min inc.remainingQty r.visibleQty, inc.id, r.id,
    inc.side, f.tape.now⟩

namespace Flat

variable {X : Special → Prop} {f f' : Flat} {fl fl' : List Order}

/-- What an act adds to the history: at most one trade, of the order in flight with the best order
of the other side, and before all else. -/
theorem Step.executed (h : Step X (f, fl) (f', fl')) : ∃ new, f'.tape.log = f.tape.log ++ new ∧
    Plain new.tail ∧ ∀ t inc r contra, .executed t inc r contra ∈ new → Executes f t inc r contra := by
  have hplain : ∀ new : List Mark, f'.tape.log = f.tape.log ++ new → Plain new →
      ∃ new, f'.tape.log = f.tape.log ++ new ∧ Plain new.tail ∧
        ∀ t inc r contra, .executed t inc r contra ∈ new → Executes f t inc r contra :=
    fun _ he hn => ⟨_, he, fun m hm => hn m (List.mem_of_mem_tail hm),
      fun t inc r contra hm => absurd (hn _ hm) nofun⟩
  have hnone : f'.tape.log = f.tape.log → ∃ new, f'.tape.log = f.tape.log ++ new ∧ Plain new.tail ∧
      ∀ t inc r contra, .executed t inc r contra ∈ new → Executes f t inc r contra := fun he =>
    hplain [] (by rw [he, List.append_nil]) fun m hm => absurd hm List.not_mem_nil
  have hone : ∀ m : Mark, f'.tape.log = f.tape.log ++ [m] → m.isExecuted = false →
      ∃ new, f'.tape.log = f.tape.log ++ new ∧ Plain new.tail ∧
        ∀ t inc r contra, .executed t inc r contra ∈ new → Executes f t inc r contra :=
    fun m he hm => hplain _ he (List.forall_mem_singleton.mpr hm)
  cases h with
  | trade hside hrem hm hc hpo hst hstop hfill =>
    rename_i fl inc r inc' p q m fate t
    obtain ⟨hfq, he⟩ := fill_eq hfill
    obtain ⟨-, hft⟩ := Prod.mk.inj he
    obtain ⟨new, hlog, hnew⟩ := plain_afterFill (filledBy r (min inc.remainingQty r.visibleQty))
      (f.tape.record ((p, r :: q) :: m) (min inc.remainingQty r.visibleQty) inc r)
    rw [← hft] at hlog
    refine ⟨_ :: new, hlog.trans (List.append_assoc _ [_] new), hnew, ?_⟩
    intro t' inc' r' contra hmem
    rcases List.mem_cons.mp hmem with hx | hx
    · obtain ⟨rfl, rfl, rfl, rfl⟩ := Mark.executed.inj hx
      exact ⟨hside, ⟨p, q, m, rfl, hm⟩, hc, hpo, hfq, rfl⟩
    · exact absurd (hnew _ hx) nofun
  | selfTrade hside hrem hm hc hst hstop hpo =>
    obtain ⟨new, he, hn⟩ := plain_handleStp _ _ f.tape
    exact hplain _ he hn
  | drop hside => exact hnone (by rw [tape_setSide])
  | cancel => exact hone _ rfl rfl
  | kill reason hst =>
    refine hplain _ (List.append_assoc _ _ _) (List.forall_mem_append.mpr ?_)
    exact ⟨List.forall_mem_singleton.mpr rfl, List.forall_mem_singleton.mpr rfl⟩
  | recancel reason htype hst hX =>
    refine hplain _ (List.append_assoc _ _ _) (List.forall_mem_append.mpr ?_)
    exact ⟨List.forall_mem_singleton.mpr rfl, List.forall_mem_singleton.mpr rfl⟩
  | expire =>
    refine hplain _ (List.append_assoc _ _ _) (List.forall_mem_append.mpr ?_)
    exact ⟨List.forall_mem_singleton.mpr rfl, List.forall_mem_singleton.mpr rfl⟩
  | rest => exact hone _ rfl rfl
  | passive => exact hone _ rfl rfl
  | reprice hpo hold hside hX hrep =>
    obtain ⟨-, rfl⟩ := Prod.mk.inj (reprice_eq hside hrep)
    refine hplain _ (List.append_assoc _ _ _) (List.forall_mem_append.mpr ?_)
    exact ⟨List.forall_mem_singleton.mpr rfl, List.forall_mem_singleton.mpr rfl⟩
  | leave => exact hone _ rfl rfl
  | report => exact hone _ rfl rfl
  | trigger => exact hone _ rfl rfl
  | reject => exact hone _ rfl rfl
  | accept => exact hone _ rfl rfl
  | unlink => exact hnone (by unfold Flat.unlink; rw [tape_setSide])
  | shrink => exact hnone (by rw [tape_setSide])
  | _ => exact hnone rfl

end Flat

end MatchingEngine.Cpp
