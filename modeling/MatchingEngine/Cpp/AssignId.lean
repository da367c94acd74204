import MatchingEngine.Cpp.Balance
import MatchingEngine.Cpp.Refusals
import MatchingEngine.Cpp.Statements
import MatchingEngine.Cpp.Totality

/-!
# The ids that `assignId` hands out

`assignId` takes an id from the stack of those whose orders have left, or the next one of a counter.
`insert` leaves both alone, so an order may come in under an id that waits in the stack or that the
counter is still to come to. Such an id comes in before its turn, and `assignId` may come to it
while it is in use. For every other id there is one place at most: it waits in the stack, or it has
been handed out, or it is that of a live order.

So whatever calls are made, the id that `assignId` returns is not in use, unless it is an id that
has once come in before its turn and is in use.
-/

namespace MatchingEngine.Cpp

open Lib

namespace OrderIndex

/-- The stack after an order of the id has left. -/
def recycle (stack : List UInt64) (id : UInt64) : List UInt64 :=
  if stack.length < freeStackCap then id :: stack else stack

/-- What is on the stack was there before or has left. -/
theorem mem_recycle {ids stack : List UInt64} {id : UInt64} (h : id ∈ ids.foldl recycle stack) :
    id ∈ stack ∨ id ∈ ids := by
  induction ids generalizing stack with
  | nil => exact .inl h
  | cons x ids ih =>
    rcases ih h with h | h
    · unfold recycle at h
      split at h
      · rcases List.mem_cons.mp h with rfl | h
        · exact .inr List.mem_cons_self
        · exact .inl h
      · exact .inl h
    · exact .inr (List.mem_cons_of_mem _ h)

/-- An id is on the stack at most once more for each order of it that has left. -/
theorem count_recycle (x : UInt64) (ids stack : List UInt64) :
    (ids.foldl recycle stack).count x ≤ stack.count x + ids.count x := by
  induction ids generalizing stack with
  | nil => exact Nat.le_refl _
  | cons id ids ih =>
    have hstep : (recycle stack id).count x ≤ stack.count x + (if id == x then 1 else 0) := by
      unfold recycle
      split
      · exact Nat.le_of_eq List.count_cons
      · exact Nat.le_add_right _ _
    have hrest := ih (recycle stack id)
    rw [List.foldl_cons, List.count_cons]
    omega

/-- Growing the array of slots hands out no id. -/
theorem grow_free {i i' : OrderIndex} {need : UInt32} (h : i.grow need = some i') :
    i'.freeStack_ = i.freeStack_ ∧ i'.nextId_ = i.nextId_ := by
  obtain ⟨nc, -, he⟩ := Option.map_eq_some_iff.mp h
  cases he
  exact ⟨rfl, rfl⟩

/-- Reserving a slot hands out no id. -/
theorem reserve_free {i i' : OrderIndex} {id : UInt64} (h : i.reserve id = some i') :
    i'.freeStack_ = i.freeStack_ ∧ i'.nextId_ = i.nextId_ := by
  unfold reserve at h
  split at h
  · exact grow_free h
  · cases h
    exact ⟨rfl, rfl⟩

/-- Writing a slot hands out no id. -/
theorem setSlot_free {i i' : OrderIndex} {id : UInt64} {p : Option ℕ} (h : i.setSlot id p = some i') :
    i'.freeStack_ = i.freeStack_ ∧ i'.nextId_ = i.nextId_ := by
  unfold setSlot at h
  split at h
  · cases h
    exact ⟨rfl, rfl⟩
  · cases h

/-- `insert` leaves the stack and the counter alone. -/
theorem insert_free {i i' : OrderIndex} {id : UInt64} {o : ℕ} (h : i.insert id o = some i') :
    i'.freeStack_ = i.freeStack_ ∧ i'.nextId_ = i.nextId_ := by
  obtain ⟨i₁, h₁, h⟩ := Option.bind_eq_some_iff.mp h
  obtain ⟨i₂, h₂, h⟩ := Option.bind_eq_some_iff.mp h
  cases h
  obtain ⟨hs₁, hn₁⟩ := reserve_free h₁
  obtain ⟨hs₂, hn₂⟩ := setSlot_free h₂
  exact ⟨hs₂.trans hs₁, hn₂.trans hn₁⟩

/-- `erase` puts the id on the stack, unless that is full. -/
theorem erase_free {i i' : OrderIndex} {id : UInt64} (h : i.erase id = some i') :
    i'.freeStack_ = recycle i.freeStack_ id ∧ i'.nextId_ = i.nextId_ := by
  obtain ⟨i₁, h₁, h⟩ := Option.bind_eq_some_iff.mp h
  cases h
  obtain ⟨hs₁, hn₁⟩ := setSlot_free h₁
  exact ⟨by dsimp only; rw [hs₁]; rfl, hn₁⟩

/-- The id that `assignId` comes to: the one on top of the stack, or the next one of the counter. -/
def upNext (i : OrderIndex) : UInt64 := i.freeStack_.headD i.nextId_

/-- Where the id that `assignId` returns comes from. -/
theorem assignId_cases {i i' : OrderIndex} {id : UInt64} (hs : i.Sized) (hn : i.nextId_.toNat ≤ 2 ^ 31)
    (h : i.assignId = some (id, i')) :
    i.freeStack_ = id :: i'.freeStack_ ∧ i'.nextId_ = i.nextId_ ∨
      i.freeStack_ = [] ∧ i'.freeStack_ = [] ∧ id = i.nextId_ ∧ id.toNat < 2 ^ 31 ∧
        i'.nextId_ = i.nextId_ + 1 := by
  unfold assignId at h
  cases hf : i.freeStack_ with
  | cons x ids =>
    rw [hf] at h
    simp only [Option.some.injEq, Prod.mk.injEq] at h
    obtain ⟨rfl, rfl⟩ := h
    exact .inl ⟨rfl, rfl⟩
  | nil =>
    rw [hf] at h
    obtain ⟨i₁, hr, h⟩ := Option.bind_eq_some_iff.mp h
    cases h
    obtain ⟨hs₁, hn₁⟩ := reserve_free hr
    refine .inr ⟨rfl, hs₁, rfl, ?_, hn₁⟩
    -- From `2^31` on there is no room for the id, and then the call does not return.
    by_contra hge
    have hid : i.nextId_.toNat = 2 ^ 31 := by omega
    have hcap : i.cap_.toUInt64 ≤ i.nextId_ := by
      rw [UInt64.le_iff_toNat_le, UInt32.toNat_toUInt64, hid]
      exact hs.cap_le
    have hneed : 2 ^ 31 ≤ i.nextId_.toUInt32.toNat := by
      rw [UInt64.toNat_toUInt32, hid]
      decide
    have hg := grow_eq_none (i := { i with freeStack_ := [], nextId_ := i.nextId_ + 1 }) hs hneed
    have hr : (if i.cap_.toUInt64 ≤ i.nextId_ then
        grow i.nextId_.toUInt32 { i with freeStack_ := [], nextId_ := i.nextId_ + 1 } else
        some { i with freeStack_ := [], nextId_ := i.nextId_ + 1 }) = some _ := hr
    rw [if_pos hcap, hg] at hr
    cases hr

end OrderIndex

/-- The entries `new` that were added account for what the stack and the counter are. -/
structure Frees (s s' : Engine) (new : List Mark) : Prop where
  log : s'.log = s.log ++ new
  stack : s'.idx_.freeStack_ = (departures new).foldl OrderIndex.recycle s.idx_.freeStack_
  next : s'.idx_.nextId_ = s.idx_.nextId_

/-- Two parts of a call, one after the other. -/
theorem Frees.trans {s s' s'' : Engine} {new new' : List Mark} (h : Frees s s' new)
    (h' : Frees s' s'' new') : Frees s s'' (new ++ new') where
  log := by rw [h'.log, h.log, List.append_assoc]
  stack := by rw [h'.stack, h.stack, departures_append, List.foldl_append]
  next := h'.next.trans h.next

/-- The stack and the counter are accounted for, and no order is taken in. -/
def Settling (s s' : Engine) : Prop := ∃ new, Frees s s' new ∧ arrivals new = []

/-- An entry that tells of nobody that arrives or departs. -/
theorem Settling.of_log {s s' : Engine} {m : Mark} (hl : s'.log = s.log ++ [m])
    (hx : s'.idx_ = s.idx_) (ha : arrivals [m] = []) (hd : departures [m] = []) : Settling s s' :=
  ⟨[m], ⟨hl, by rw [hd, hx]; rfl, by rw [hx]⟩, ha⟩

instance : Whole Settling where
  refl s := ⟨[], ⟨(List.append_nil _).symm, rfl, rfl⟩, rfl⟩
  trans := fun _ _ _ ⟨_, h, ha⟩ ⟨_, h', ha'⟩ => ⟨_, h.trans h', by rw [arrivals_append, ha, ha']; rfl⟩
  frame _ _ hl hx := ⟨[], ⟨by rw [hl, List.append_nil], by rw [hx]; rfl, by rw [hx]⟩, rfl⟩
  log s m hm := by
    have ha : arrivals [m] = [] := by
      cases m with
      | event e => cases e <;> first | rfl | cases hm
      | _ => rfl
    have hd : departures [m] = [] := by cases m <;> first | rfl | cases hm
    exact .of_log rfl rfl ha hd
  discard h := by
    obtain ⟨hs, hn⟩ := OrderIndex.erase_free h
    exact ⟨_, ⟨rfl, hs, hn⟩, rfl⟩
  record contra fq inc rest := by
    rintro s _ _ ⟨⟩
    exact .of_log rfl rfl rfl rfl
  report s t depth := .of_log rfl rfl rfl rfl
  clear s := ⟨[], ⟨(List.append_nil _).symm, rfl, rfl⟩, rfl⟩

section Ids

variable {S : StdSort} {pop : PostOnlyPolicy} {tickSz : ℤ} {s s' : Engine} {out early : List UInt64}
  {id : UInt64}

/-- What a call does to the stack and the counter, and the order that it may take in. -/
theorem frees_run {c : Call} (hc : c ≠ .assignId) (h : c.run S s = some ((), s')) :
    ∃ new, Frees s s' new ∧ (arrivals new = [] ∨
      ∃ i, c = .submit i ∧ submitOrder S i s = some (true, s') ∧ arrivals new = [i.id]) := by
  -- A call that takes no order in.
  have hsettling : Settling s s' → ∃ new, Frees s s' new ∧ (arrivals new = [] ∨
      ∃ i, c = .submit i ∧ submitOrder S i s = some (true, s') ∧ arrivals new = [i.id]) :=
    fun ⟨new, hf, ha⟩ => ⟨new, hf, .inl ha⟩
  have hactive := moves_processActiveIn (P := Settling) S (maxCascade + 1)
  cases c with
  | submit i =>
    obtain ⟨r, _, h, ⟨⟩⟩ := run_bind_iff.mp h
    rcases submitWith_cases (P := Settling) hactive h with hs | ⟨rfl, s₁, o, idx, k, hs₁, hidx, hk, hs₂⟩
    · exact hsettling hs
    · obtain ⟨new₁, hf₁, ha₁⟩ := hs₁
      obtain ⟨new₂, hf₂, ha₂⟩ := hs₂
      obtain ⟨hst, hn⟩ := OrderIndex.insert_free hidx
      have hf : Frees s₁ { s₁ with idx_ := idx, log := s₁.log ++ [.event (.onOrderAccepted k)] }
          [.event (.onOrderAccepted k)] := ⟨rfl, hst, hn⟩
      refine ⟨_, (hf₁.trans hf).trans hf₂, .inr ⟨i, rfl, h, ?_⟩⟩
      rw [arrivals_append, arrivals_append, ha₁, ha₂, ← hk]
      rfl
  | cancel id => exact hsettling (((moves_cancelOrder id).bind fun _ => .pure) _ _ _ h)
  | amend id newPx newQty =>
    exact hsettling (((moves_amendWith hactive id newPx newQty).bind fun _ => .pure) _ _ _ h)
  | expire t => exact hsettling (moves_expireOrders t _ _ _ h)
  | setTime t =>
    have hmoves : Moves Settling (setTime t) :=
      moves_write (fun _ => rfl) (fun _ => rfl) (fun _ => rfl) fun _ => rfl
    exact hsettling (hmoves _ _ _ h)
  | assignId => exact absurd rfl hc

/-- An order that comes in under the id does so before its turn: the id waits in the stack, or the
counter is still to come to it. -/
def Engine.awaits (s : Engine) (id : UInt64) : Prop :=
  id ∈ s.idx_.freeStack_ ∨ s.idx_.nextId_ ≤ id

instance (s : Engine) (id : UInt64) : Decidable (s.awaits id) :=
  inferInstanceAs (Decidable (_ ∨ _))

/-- A run, with the ids that `assignId` has returned and under which no order has left since, and
with those that have come in before their turn. -/
inductive Assigned (S : StdSort) (pop : PostOnlyPolicy) (tickSz : ℤ) :
    Engine → List UInt64 → List UInt64 → Prop
  | init : Assigned S pop tickSz (.init pop tickSz) [] []
  | call {s s' : Engine} {out early : List UInt64} {new : List Mark} (c : Call) (hc : c ≠ .assignId)
      (hs : Assigned S pop tickSz s out early) (h : c.run S s = some ((), s'))
      (hlog : s'.log = s.log ++ new) :
      Assigned S pop tickSz s' (out.filter fun id => id ∉ departures new)
        (early ++ (arrivals new).filter fun id => s.awaits id)
  | assign {s s' : Engine} {out early : List UInt64} {id : UInt64}
      (hs : Assigned S pop tickSz s out early) (h : assignId s = some (id, s')) :
      Assigned S pop tickSz s' (id :: out) early

/-- The calls of such a run are calls of a run. -/
theorem Assigned.reach (hs : Assigned S pop tickSz s out early) : Reach S pop tickSz s := by
  induction hs with
  | init => exact .init
  | call c _ _ h _ ih => exact ih.call c h
  | assign _ h ih => exact ih.call .assignId (run_bind_iff.mpr ⟨_, _, h, rfl⟩)

/-- The id that `assignId` comes to is not one that has come in before its turn and is in use. -/
def Clear (s : Engine) (out early : List UInt64) : Prop :=
  s.idx_.upNext ∈ early → s.hasOrder s.idx_.upNext = false ∧ s.idx_.upNext ∉ out

instance (s : Engine) (out early : List UInt64) : Decidable (Clear s out early) :=
  inferInstanceAs (Decidable (_ → _))

/-- An id that has not come in before its turn waits on the stack once at most, and is then neither
handed out nor live, and the counter has passed it if it is in use. -/
structure Apart (s : Engine) (out early : List UInt64) : Prop where
  once : ∀ id ∉ early, s.idx_.freeStack_.count id ≤ 1
  free : ∀ id ∉ early, id ∈ s.idx_.freeStack_ →
    id < s.idx_.nextId_ ∧ id ∉ out ∧ s.hasOrder id = false
  live : ∀ id ∉ early, s.hasOrder id = true → id < s.idx_.nextId_
  out : ∀ id ∉ early, id ∈ out → id < s.idx_.nextId_
  next : s.idx_.nextId_.toNat ≤ 2 ^ 31

/-- The index has the ids of the engine's orders. -/
theorem Reach.hasOrder_ids (hs : Reach S pop tickSz s) (id : UInt64) :
    s.hasOrder id = true ↔ id ∈ s.flat.ids [] := by
  rw [hs.hasOrder]
  unfold Flat.ids
  rw [List.append_nil]
  constructor
  · rintro ⟨o, ho, rfl⟩
    exact List.mem_map_of_mem ho
  · intro h
    obtain ⟨o, ho, hid⟩ := List.mem_map.mp h
    exact ⟨o, ho, hid⟩

/-- What was live and what comes in is what is live and what has left, and no id occurs there twice.
-/
theorem Reach.turnover {c : Call} {new : List Mark} (hs : Reach S pop tickSz s)
    (hc : c ≠ .assignId) (he : c.run S s = some ((), s')) (hlog : s'.log = s.log ++ new) :
    (s'.flat.ids [] ++ departures new).Perm (s.flat.ids [] ++ arrivals new) ∧
      (s'.flat.ids [] ++ departures new).Nodup := by
  obtain ⟨new', hf, ha⟩ := frees_run hc he
  obtain rfl : new = new' := List.append_cancel_left (hlog.symm.trans hf.log)
  obtain ⟨new', hlog', hbal⟩ := Flat.balance_steps hs.inv (hs.steps he (covers_any hs.inv c))
  obtain rfl : new = new' := List.append_cancel_left (hf.log.symm.trans hlog')
  refine ⟨hbal, hbal.nodup_iff.mpr (List.nodup_append.mpr ⟨hs.inv.ids, ?_, ?_⟩)⟩
  · rcases ha with ha | ⟨i, -, -, ha⟩
    · rw [ha]
      exact List.nodup_nil
    · rw [ha]
      exact List.nodup_singleton _
  · rintro x hx y hy rfl
    rcases ha with ha | ⟨i, rfl, hsub, ha⟩
    · rw [ha] at hy
      cases hy
    · -- An order is taken in under an id that no live order has.
      rw [ha] at hy
      obtain rfl := List.mem_singleton.mp hy
      obtain ⟨hfresh, -, -⟩ := Flat.submitOrder_eq_true (hs.submitOrder hsub)
      obtain ⟨o, ho, hid⟩ := (hs.hasOrder _).mp ((hs.hasOrder_ids _).mpr hx)
      exact hfresh o ho hid

/-- A call that hands out no id: those that leave are free again, and those that arrive without
being handed out are remembered while the counter has not passed them. -/
theorem Apart.call {c : Call} {new : List Mark} (h : Apart s out early) (hs : Reach S pop tickSz s)
    (hc : c ≠ .assignId) (he : c.run S s = some ((), s')) (hlog : s'.log = s.log ++ new) :
    Apart s' (out.filter fun id => id ∉ departures new)
      (early ++ (arrivals new).filter fun id => s.awaits id) := by
  obtain ⟨new', hf, -⟩ := frees_run hc he
  obtain rfl : new = new' := List.append_cancel_left (hlog.symm.trans hf.log)
  obtain ⟨hbal, hnodup⟩ := hs.turnover hc he hlog
  obtain ⟨-, hleft, hdisjoint⟩ := List.nodup_append.mp hnodup
  have hs' := hs.call c he
  -- An id that comes in does so in its turn.
  have hnot : ∀ id, id ∉ early ++ (arrivals new).filter (fun id => s.awaits id) →
      id ∉ early ∧ (id ∈ arrivals new → id ∉ s.idx_.freeStack_ ∧ id < s.idx_.nextId_) := by
    intro id hid
    rw [List.mem_append, not_or, List.mem_filter, not_and, decide_eq_true_iff] at hid
    refine ⟨hid.1, fun ha => ?_⟩
    obtain ⟨hfree, hnext⟩ := not_or.mp (hid.2 ha)
    exact ⟨hfree, UInt64.not_le.mp hnext⟩
  -- What is in use after the call or has left in it was not on the stack.
  have hused : ∀ id, id ∉ early ++ (arrivals new).filter (fun id => s.awaits id) →
      id ∈ s'.flat.ids [] ++ departures new → id < s.idx_.nextId_ ∧ id ∉ s.idx_.freeStack_ := by
    intro id hid hmem
    obtain ⟨hearly, hturn⟩ := hnot id hid
    rcases List.mem_append.mp (hbal.mem_iff.mp hmem) with hmem | hmem
    · have hlive := (hs.hasOrder_ids id).mpr hmem
      refine ⟨h.live id hearly hlive, fun hfree => ?_⟩
      rw [(h.free id hearly hfree).2.2] at hlive
      cases hlive
    · exact ⟨(hturn hmem).2, (hturn hmem).1⟩
  refine ⟨fun id hid => ?_, fun id hid hfree => ?_, fun id hid hlive => ?_, fun id hid hout => ?_, ?_⟩
  · rw [hf.stack]
    have hcount := OrderIndex.count_recycle id (departures new) s.idx_.freeStack_
    by_cases hmem : id ∈ departures new
    · have hzero := List.count_eq_zero.mpr (hused id hid (List.mem_append_right _ hmem)).2
      have hone := List.nodup_iff_count_le_one.mp hleft id
      omega
    · have hzero := List.count_eq_zero.mpr hmem
      have hone := h.once id (hnot id hid).1
      omega
  · rw [hf.stack] at hfree
    rw [hf.next]
    rcases OrderIndex.mem_recycle hfree with hfree | hmem
    · obtain ⟨hn, hout, -⟩ := h.free id (hnot id hid).1 hfree
      refine ⟨hn, fun hx => hout (List.mem_filter.mp hx).1, Bool.eq_false_iff.mpr fun hx => ?_⟩
      exact (hused id hid (List.mem_append_left _ ((hs'.hasOrder_ids id).mp hx))).2 hfree
    · refine ⟨(hused id hid (List.mem_append_right _ hmem)).1, fun hx => ?_,
        Bool.eq_false_iff.mpr fun hx => hdisjoint id ((hs'.hasOrder_ids id).mp hx) id hmem rfl⟩
      exact of_decide_eq_true (List.mem_filter.mp hx).2 hmem
  · rw [hf.next]
    exact (hused id hid (List.mem_append_left _ ((hs'.hasOrder_ids id).mp hlive))).1
  · rw [hf.next]
    exact h.out id (hnot id hid).1 (List.mem_filter.mp hout).1
  · rw [hf.next]
    exact h.next

/-- An engine without orders has handed out nothing. -/
theorem Apart.init : Apart (.init pop tickSz) [] [] where
  once _ _ := Nat.zero_le _
  free _ _ hid := by cases hid
  live id _ hid := by
    rw [Reach.init (S := .insertion).hasOrder] at hid
    obtain ⟨o, ho, -⟩ := hid
    cases ho
  out _ _ hid := by cases hid
  next := show (1 : UInt64).toNat ≤ 2 ^ 31 by decide

/-- What `assignId` does: it takes the id from the stack, or takes the counter past it. -/
theorem Reach.assignId_cases (hs : Reach S pop tickSz s) (hnext : s.idx_.nextId_.toNat ≤ 2 ^ 31)
    (he : assignId s = some (id, s')) : id = s.idx_.upNext ∧ (∀ x, s'.hasOrder x = s.hasOrder x) ∧
      (s.idx_.freeStack_ = id :: s'.idx_.freeStack_ ∧ s'.idx_.nextId_ = s.idx_.nextId_ ∨
        s.idx_.freeStack_ = [] ∧ s'.idx_.freeStack_ = [] ∧ id = s.idx_.nextId_ ∧
          id.toNat < 2 ^ 31 ∧ s'.idx_.nextId_ = s.idx_.nextId_ + 1) := by
  have hs' : Reach S pop tickSz s' := hs.call .assignId (run_bind_iff.mpr ⟨id, s', he, rfl⟩)
  have hflat : s.flat = s'.flat := (hs.shown.1.assignId he).eq
  have hsized : s.idx_.Sized := by
    obtain ⟨G, hG, -⟩ := hs.shown.1
    exact hG.standing.stored.sized
  obtain ⟨⟨id', i'⟩, ha, he⟩ := Option.map_eq_some_iff.mp he
  obtain ⟨rfl, rfl⟩ := Prod.mk.inj he
  have hcases := OrderIndex.assignId_cases hsized hnext ha
  refine ⟨?_, fun x => ?_, hcases⟩
  · unfold OrderIndex.upNext
    rcases hcases with ⟨hst, -⟩ | ⟨hst, -, hid, -⟩
    · rw [hst]
      rfl
    · rw [hst]
      exact hid
  · rw [Bool.eq_iff_iff, hs'.hasOrder_ids, hs.hasOrder_ids, hflat]

/-- Handing an id out keeps the ids apart. -/
theorem Apart.assign (h : Apart s out early) (hs : Reach S pop tickSz s)
    (he : assignId s = some (id, s')) : Apart s' (id :: out) early := by
  obtain ⟨-, hlive, ⟨hst, hn⟩ | ⟨hst, hst', rfl, hlt, hn⟩⟩ := hs.assignId_cases h.next he
  · have hcount : ∀ x, s.idx_.freeStack_.count x =
        s'.idx_.freeStack_.count x + if id == x then 1 else 0 := fun x => by
      rw [hst, List.count_cons]
    refine ⟨fun x hx => ?_, fun x hx hfree => ?_, fun x hx hx' => ?_, fun x hx hout => ?_, ?_⟩
    · have := h.once x hx
      have := hcount x
      omega
    · obtain ⟨hx₁, hx₂, hx₃⟩ := h.free x hx (hst ▸ List.mem_cons_of_mem _ hfree)
      refine ⟨hn ▸ hx₁, fun hout => ?_, (hlive x).trans hx₃⟩
      rcases List.mem_cons.mp hout with rfl | hout
      · -- The id that was on top was on the stack once.
        have := h.once x hx
        have hmore := hcount x
        have hpos := List.count_pos_iff.mpr hfree
        rw [if_pos (beq_self_eq_true x)] at hmore
        omega
      · exact hx₂ hout
    · exact hn ▸ h.live x hx ((hlive x).symm.trans hx')
    · rcases List.mem_cons.mp hout with rfl | hout
      · exact hn ▸ (h.free x hx (hst ▸ List.mem_cons_self)).1
      · exact hn ▸ h.out x hx hout
    · exact hn ▸ h.next
  · have hsucc : s'.idx_.nextId_.toNat = s.idx_.nextId_.toNat + 1 := by
      rw [hn, UInt64.toNat_add]
      simp only [UInt64.reduceToNat]
      omega
    have hlt_succ : ∀ x, x ≤ s.idx_.nextId_ → x < s'.idx_.nextId_ := fun x hx => by
      rw [UInt64.le_iff_toNat_le] at hx
      rw [UInt64.lt_iff_toNat_lt]
      omega
    refine ⟨fun x _ => ?_, fun x hx hfree => ?_, fun x hx hx' => ?_, fun x hx hout => ?_, ?_⟩
    · rw [hst']
      exact Nat.zero_le _
    · rw [hst'] at hfree
      cases hfree
    · exact hlt_succ x (UInt64.le_of_lt (h.live x hx ((hlive x).symm.trans hx')))
    · rcases List.mem_cons.mp hout with rfl | hout
      · exact hlt_succ _ (UInt64.le_refl _)
      · exact hlt_succ x (UInt64.le_of_lt (h.out x hx hout))
    · omega

/-- This holds in every run, with or without ids that come too early. -/
theorem Assigned.apart (hs : Assigned S pop tickSz s out early) : Apart s out early := by
  induction hs with
  | init => exact .init
  | call c hc hs h hlog ih => exact ih.call hs.reach hc h hlog
  | assign hs h ih => exact ih.assign hs.reach h

/-- A sequence of calls, with the two lists of ids. -/
def track (S : StdSort) :
    List Call → Engine × List UInt64 × List UInt64 → Option (Engine × List UInt64 × List UInt64)
  | [], x => some x
  | c :: cs, (s, out, early) =>
    if c = .assignId then (assignId s).bind fun r => track S cs (r.2, r.1 :: out, early)
    else (c.run S s).bind fun r =>
      let new := r.2.log.drop s.log.length
      track S cs (r.2, out.filter fun id => id ∉ departures new,
        early ++ (arrivals new).filter fun id => s.awaits id)

/-- A run that was followed call by call is such a run. -/
theorem Assigned.track {cs : List Call} {out' early' : List UInt64}
    (hs : Assigned S pop tickSz s out early)
    (h : Cpp.track S cs (s, out, early) = some (s', out', early')) :
    Assigned S pop tickSz s' out' early' := by
  induction cs generalizing s out early with
  | nil =>
    cases h
    exact hs
  | cons c cs ih =>
    unfold Cpp.track at h
    split at h
    · obtain ⟨⟨id, t⟩, ht, h⟩ := Option.bind_eq_some_iff.mp h
      exact ih (hs.assign ht) h
    · rename_i hc
      obtain ⟨⟨_, t⟩, ht, h⟩ := Option.bind_eq_some_iff.mp h
      obtain ⟨new, hf, -⟩ := frees_run hc ht
      have hnew : t.log.drop s.log.length = new := by rw [hf.log, List.drop_left]
      dsimp only at h
      rw [hnew] at h
      exact ih (hs.call c hc ht hf.log) h

end Ids

end MatchingEngine.Cpp
