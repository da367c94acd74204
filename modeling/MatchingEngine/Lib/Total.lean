import Mathlib.Logic.Basic
import Mathlib.Order.Basic

/-!
# Programs that return

A program with a state that may fail to return, by a trap or by a loop that does not end, is a
`StateT σ Option`. `Returns m s Q` is total correctness: from `s` the program returns, and its
result and last state satisfy `Q`. `Follows` relates two programs: whenever the first one returns,
so does the second, with related results. `Moves` is the weakest of these: a relation between the
states before and after.

A loop takes a guard, a body that may break, and a bound on its turns, past which it does not
return. Its rules ask for an invariant and a measure, or for a relation that the bodies keep.
-/

namespace MatchingEngine.Lib

/-- A program with states in `σ` that returns an `α` or does not return. -/
abbrev Prog (σ α : Type) := StateT σ Option α

variable {σ τ α β γ δ : Type}

/-- Total correctness: `m` returns from `s` with a result and a state that satisfy `Q`. -/
def Returns (m : Prog σ α) (s : σ) (Q : α → σ → Prop) : Prop :=
  ∃ a s', m s = some (a, s') ∧ Q a s'

/-- Whenever `m` returns from `s`, then `m'` returns from `t` with results and states related by
`R`. -/
def Follows (m : Prog σ α) (s : σ) (m' : Prog τ γ) (t : τ) (R : α → σ → γ → τ → Prop) : Prop :=
  ∀ a s', m s = some (a, s') → ∃ c t', m' t = some (c, t') ∧ R a s' c t'

/-- From the states in `G`, what `m` returns `m'` returns as well, in a state in `G`, with a result
in `Q`. -/
def Tracks (G : σ → Prop) (m m' : Prog σ α) (Q : α → Prop) : Prop :=
  ∀ s a s', G s → m s = some (a, s') → m' s = some (a, s') ∧ G s' ∧ Q a

/-- Whenever `m` returns, `R` relates the state it started from to the state it returns in. -/
def Moves (R : σ → σ → Prop) (m : Prog σ α) : Prop := ∀ s a s', m s = some (a, s') → R s s'

/-- `while (guard) body` with at most `n` turns. The body says whether it breaks. -/
def loop (guard : β → Bool) (body : β → Prog σ (ForInStep β)) : ℕ → β → Prog σ β
  | 0, b => if guard b then fun _ => none else pure b
  | n + 1, b =>
    if guard b then do
      match ← body b with
      | .done b => pure b
      | .yield b => loop guard body n b
    else pure b

/-- The program `m` where its result satisfies `p`; else it does not return. -/
def only (p : α → Bool) (m : Prog σ α) : Prog σ α := do
  let a ← m
  if p a then pure a else fun _ => none

/-- A loop whose guard fails returns at once. -/
theorem loop_exit {guard : β → Bool} {body : β → Prog σ (ForInStep β)} {b : β}
    (h : guard b = false) (n : ℕ) : loop guard body n b = pure b := by
  cases n <;> (unfold loop; rw [h]; rfl)

/-- A program that starts with one whose result is known. -/
theorem run_bind {m : Prog σ α} {s s' : σ} {a : α} (h : m s = some (a, s')) (f : α → Prog σ β) :
    (m >>= f) s = f a s' := by
  change (m s).bind (fun x => f x.1 x.2) = _
  rw [h]
  rfl

/-- What a program returns that runs after another. -/
theorem run_bind_iff {m : Prog σ α} {f : α → Prog σ β} {s u : σ} {b : β} :
    (m >>= f) s = some (b, u) ↔ ∃ a t, m s = some (a, t) ∧ f a t = some (b, u) := by
  constructor
  · intro h
    change (m s).bind _ = _ at h
    obtain ⟨⟨a, t⟩, ha, hb⟩ := Option.bind_eq_some_iff.mp h
    exact ⟨a, t, ha, hb⟩
  · rintro ⟨a, t, ha, hb⟩
    rw [run_bind ha, hb]

namespace Returns

variable {m : Prog σ α} {f : α → Prog σ β} {s : σ} {Q Q' : α → σ → Prop} {P : β → σ → Prop}

/-- A result is returned at once. -/
theorem pure {a : α} (h : Q a s) : Returns (pure a : Prog σ α) s Q := ⟨a, s, rfl, h⟩

/-- The rule of consequence. -/
theorem mono (hm : Returns m s Q) (h : ∀ a s', Q a s' → Q' a s') : Returns m s Q' := by
  obtain ⟨a, s', he, hq⟩ := hm
  exact ⟨a, s', he, h a s' hq⟩

/-- A program after another. -/
theorem bind (hm : Returns m s Q) (hf : ∀ a s', Q a s' → Returns (f a) s' P) :
    Returns (m >>= f) s P := by
  obtain ⟨a, s', he, hq⟩ := hm
  obtain ⟨b, s'', hb, hp⟩ := hf a s' hq
  refine ⟨b, s'', ?_, hp⟩
  change (m s).bind _ = _
  rw [he]
  exact hb

/-- A program after one whose result is known. -/
theorem after {a : α} {t : σ} (hm : m s = some (a, t)) (hf : Returns (f a) t P) :
    Returns (m >>= f) s P := by
  obtain ⟨b, u, hb, hp⟩ := hf
  exact ⟨b, u, (run_bind hm f).trans hb, hp⟩

/-- A program after two. -/
theorem bind_two {n : α → Prog σ β} {k : β → Prog σ γ} {R : β → σ → Prop} {T : γ → σ → Prop}
    (hmn : Returns (m >>= n) s R) (hk : ∀ b s', R b s' → Returns (k b) s' T) :
    Returns (m >>= fun a => n a >>= k) s T := by
  have h := hmn.bind hk
  rwa [bind_assoc] at h

/-- Both branches of a test return. -/
theorem ite {m' : Prog σ α} {p : Prop} [Decidable p] (h : p → Returns m s Q)
    (h' : ¬ p → Returns m' s Q) : Returns (if p then m else m') s Q := by
  split
  · exact h ‹_›
  · exact h' ‹_›

/-- A program that is followed by one that returns. -/
theorem follow {m' : Prog τ γ} {t : τ} {R : α → σ → γ → τ → Prop} (hm : Returns m s Q)
    (h : Follows m s m' t R) :
    ∃ a s' c t', m s = some (a, s') ∧ Q a s' ∧ m' t = some (c, t') ∧ R a s' c t' := by
  obtain ⟨a, s', he, hq⟩ := hm
  obtain ⟨c, t', hc, hr⟩ := h a s' he
  exact ⟨a, s', c, t', he, hq, hc, hr⟩

/-- A loop returns within its bound when every turn that does not break keeps the invariant `I` and
lowers the measure `μ`, which is positive where a turn starts. -/
theorem loop {guard : β → Bool} {body : β → Prog σ (ForInStep β)} {I : β → σ → Prop}
    (μ : β → σ → ℕ) (hpos : ∀ b s, I b s → guard b = true → 0 < μ b s)
    (hbody : ∀ b s, I b s → guard b = true → Returns (body b) s fun x s' =>
      match x with
      | .done b' => P b' s'
      | .yield b' => I b' s' ∧ μ b' s' < μ b s)
    (hexit : ∀ b s, I b s → guard b = false → P b s) :
    ∀ {n : ℕ} {b : β} {s : σ}, I b s → μ b s ≤ n → Returns (loop guard body n b) s P := by
  intro n
  induction n with
  | zero =>
    intro b s hi hn
    cases hg : guard b with
    | true =>
      -- No turn is left, but then the measure is zero, and the guard is off.
      have := hpos b s hi hg
      omega
    | false =>
      rw [loop_exit hg]
      exact .pure (hexit b s hi hg)
  | succ n ih =>
    intro b s hi hn
    cases hg : guard b with
    | true =>
      unfold Lib.loop
      rw [hg]
      -- A turn that does not break lowers the measure, and the induction does the rest.
      refine (hbody b s hi hg).bind fun x s' hx => ?_
      cases x with
      | done b' => exact .pure hx
      | yield b' => exact ih hx.1 (by have := hx.2; omega)
    | false =>
      rw [loop_exit hg]
      exact .pure (hexit b s hi hg)

end Returns

namespace Follows

variable {m : Prog σ α} {f : α → Prog σ β} {s : σ} {m' : Prog τ γ} {f' : γ → Prog τ δ} {t : τ}
  {R R' : α → σ → γ → τ → Prop} {P : β → σ → δ → τ → Prop}

/-- Both programs return at once. -/
theorem pure {a : α} {c : γ} (h : R a s c t) :
    Follows (pure a : Prog σ α) s (pure c : Prog τ γ) t R := by
  rintro _ _ ⟨⟩
  exact ⟨c, t, rfl, h⟩

/-- The rule of consequence for two programs. -/
theorem mono (hm : Follows m s m' t R) (h : ∀ a s' c t', R a s' c t' → R' a s' c t') :
    Follows m s m' t R' := by
  intro a s' he
  obtain ⟨c, t', hc, hr⟩ := hm a s' he
  exact ⟨c, t', hc, h a s' c t' hr⟩

/-- What the first program satisfies, added to the relation. -/
theorem and_returns {Q : α → σ → Prop} (hm : Follows m s m' t R) (h : Returns m s Q) :
    Follows m s m' t fun a s' c t' => R a s' c t' ∧ Q a s' := by
  intro a s' he
  obtain ⟨b, s'', hb, hq⟩ := h
  rw [he] at hb
  cases hb
  obtain ⟨c, t', hc, hr⟩ := hm a s' he
  exact ⟨c, t', hc, hr, hq⟩

/-- Two sequences, part by part. -/
theorem bind (hm : Follows m s m' t R)
    (hf : ∀ a s' c t', R a s' c t' → Follows (f a) s' (f' c) t' P) :
    Follows (m >>= f) s (m' >>= f') t P := by
  intro b s'' he
  change (m s).bind _ = _ at he
  obtain ⟨⟨a, s'⟩, ha, hb⟩ := Option.bind_eq_some_iff.mp he
  obtain ⟨c, t', hc, hr⟩ := hm a s' ha
  obtain ⟨d, t'', hd, hp⟩ := hf a s' c t' hr b s'' hb
  refine ⟨d, t'', ?_, hp⟩
  change (m' t).bind _ = _
  rw [hc]
  exact hd

/-- Two branches on equivalent conditions. -/
theorem ite {n : Prog σ α} {n' : Prog τ γ} {p p' : Prop} [Decidable p] [Decidable p']
    (hp : p ↔ p') (h : p → Follows m s m' t R) (h' : ¬ p → Follows n s n' t R) :
    Follows (if p then m else n) s (if p' then m' else n') t R := by
  by_cases hc : p
  · rw [if_pos hc, if_pos (hp.mp hc)]
    exact h hc
  · rw [if_neg hc, if_neg fun hc' => hc (hp.mpr hc')]
    exact h' hc

/-- A step of the first program alone. -/
theorem left {c : Prog τ γ} {R : β → σ → γ → τ → Prop}
    (h : ∀ a s', m s = some (a, s') → Follows (f a) s' c t R) : Follows (m >>= f) s c t R := by
  intro b s'' he
  change (m s).bind _ = _ at he
  obtain ⟨⟨a, s'⟩, ha, hb⟩ := Option.bind_eq_some_iff.mp he
  exact h a s' ha b s'' hb

/-- A step of the first program alone, when it is known. -/
theorem left_eq {a : α} {u : σ} {c : Prog τ γ} {R : β → σ → γ → τ → Prop}
    (ha : m s = some (a, u)) (h : Follows (f a) u c t R) : Follows (m >>= f) s c t R :=
  left fun b s'' hb => by
    rw [ha] at hb
    cases hb
    exact h

/-- A step of the second program alone. -/
theorem right {a : Prog σ β} {c : γ} {t' : τ} (hc : m' t = some (c, t'))
    (h : Follows a s (f' c) t' P) : Follows a s (m' >>= f') t P := by
  intro b s' he
  obtain ⟨d, t'', hd, hp⟩ := h b s' he
  refine ⟨d, t'', ?_, hp⟩
  change (m' t).bind _ = _
  rw [hc]
  exact hd

/-- A program that returns a result that satisfies `p` is followed if it is when it has to. -/
theorem of_only {p : α → Bool} (h : Follows (only p m) s m' t R)
    (hm : Returns m s fun a _ => p a = true) : Follows m s m' t R := by
  intro a s' he
  obtain ⟨b, s'', hb, hp⟩ := hm
  rw [he] at hb
  cases hb
  refine h a s' ?_
  change (m s).bind _ = _
  rw [he]
  change (if p a then _ else _ : Prog σ α) s' = _
  rw [if_pos hp]
  rfl

/-- A loop follows another within a larger bound when their guards agree, their bodies keep `P`, and
`Q` holds when they end, where the second may break as soon as the first one's guard fails. -/
theorem loop {guard : β → Bool} {body : β → Prog σ (ForInStep β)} {guard' : δ → Bool}
    {body' : δ → Prog τ (ForInStep δ)} {Q : β → σ → δ → τ → Prop}
    (hguard : ∀ b s d t, P b s d t → guard b = guard' d)
    (hexit : ∀ b s d t, P b s d t → guard b = false → Q b s d t)
    (hbody : ∀ b s d t, P b s d t → guard b = true →
      Follows (body b) s (body' d) t fun x s' y t' =>
        match x, y with
        | .yield b', .yield d' => P b' s' d' t'
        | .yield b', .done d' => Q b' s' d' t' ∧ guard b' = false
        | .done b', .done d' => Q b' s' d' t'
        | .done _, .yield _ => False) :
    ∀ {n n' : ℕ} {b : β} {s : σ} {d : δ} {t : τ}, n ≤ n' → P b s d t →
      Follows (loop guard body n b) s (loop guard' body' n' d) t Q := by
  intro n
  induction n with
  | zero =>
    intro n' b s d t _ hp
    have hg := hguard b s d t hp
    cases hb : guard b with
    | true =>
      unfold Lib.loop
      rw [hb]
      rintro _ _ ⟨⟩
    | false =>
      rw [loop_exit hb, loop_exit (hg.symm.trans hb)]
      exact .pure (hexit b s d t hp hb)
  | succ n ih =>
    intro n' b s d t hn hp
    have hg := hguard b s d t hp
    obtain ⟨n', rfl⟩ : ∃ k, n' = k + 1 := ⟨n' - 1, by omega⟩
    cases hb : guard b with
    | true =>
      unfold Lib.loop
      rw [hb, ← hg, hb]
      refine (hbody b s d t hp hb).bind fun x s' y t' hx => ?_
      cases x with
      | done b' =>
        cases y with
        | done d' => exact .pure hx
        | yield d' => exact hx.elim
      | yield b' =>
        cases y with
        | done d' =>
          -- The first loop ends at its next test.
          change Follows (Lib.loop guard body n b') s' (Pure.pure d') t' Q
          rw [loop_exit hx.2]
          exact .pure hx.1
        | yield d' => exact ih (by omega) hx
    | false =>
      rw [loop_exit hb, loop_exit (hg.symm.trans hb)]
      exact .pure (hexit b s d t hp hb)

end Follows

namespace Tracks

variable {G : σ → Prop} {m m' n n' : Prog σ α} {f f' : α → Prog σ β} {Q Q' : α → Prop} {P : β → Prop}

/-- A result is returned at once. -/
theorem pure {a : α} (h : Q a) : Tracks G (pure a) (pure a) Q := by
  rintro s _ _ hg ⟨⟩
  exact ⟨rfl, hg, h⟩

/-- A program that does not return may be tracked by any. -/
theorem trap : Tracks G (fun _ => none) m' Q := nofun

/-- A program tracks itself. -/
theorem same : Tracks (fun _ => True) m m fun _ => True :=
  fun _ _ _ _ he => ⟨he, trivial, trivial⟩

/-- The rule of consequence for results. -/
theorem mono (h : Tracks G m m' Q) (hq : ∀ a, Q a → Q' a) : Tracks G m m' Q' := by
  intro s a s' hg he
  obtain ⟨he', hg', ha⟩ := h s a s' hg he
  exact ⟨he', hg', hq a ha⟩

/-- Two sequences, part by part. -/
theorem bind (hm : Tracks G m m' Q) (hf : ∀ a, Q a → Tracks G (f a) (f' a) P) :
    Tracks G (m >>= f) (m' >>= f') P := by
  intro s b s'' hg he
  change (m s).bind _ = _ at he
  obtain ⟨⟨a, s'⟩, ha, hb⟩ := Option.bind_eq_some_iff.mp he
  obtain ⟨ha', hg', hq⟩ := hm s a s' hg ha
  obtain ⟨hb', hg'', hp⟩ := hf a hq s' b s'' hg' hb
  refine ⟨?_, hg'', hp⟩
  rw [run_bind ha']
  exact hb'

/-- Both branches of a test are tracked. -/
theorem ite {p : Prop} [Decidable p] (h : p → Tracks G m m' Q) (h' : ¬ p → Tracks G n n' Q) :
    Tracks G (if p then m else n) (if p then m' else n') Q := by
  split
  · exact h ‹_›
  · exact h' ‹_›

/-- A loop keeps what its body keeps. -/
theorem loop {guard : β → Bool} {body body' : β → Prog σ (ForInStep β)}
    (hbody : ∀ b, P b → Tracks G (body b) (body' b) fun x =>
      P (match x with | .done b | .yield b => b)) :
    ∀ {n : ℕ} {b : β}, P b → Tracks G (loop guard body n b) (loop guard body' n b) P := by
  intro n
  induction n with
  | zero =>
    intro b hb
    exact .ite (fun _ => .trap) fun _ => .pure hb
  | succ n ih =>
    intro b hb
    refine .ite (fun _ => (hbody b hb).bind fun x hx => ?_) fun _ => .pure hb
    cases x with
    | done b' => exact .pure hx
    | yield b' => exact ih hx

end Tracks

namespace Moves

variable {R R' P : σ → σ → Prop} {m n : Prog σ α} {f : α → Prog σ β}

/-- A program that does not return moves along every relation. -/
theorem trap : Moves R (fun _ => none : Prog σ α) := nofun

/-- A program moves along every weaker relation. -/
theorem mono (h : Moves R m) (hr : ∀ s s', R s s' → R' s s') : Moves R' m :=
  fun s a s' he => hr s s' (h s a s' he)

/-- A program after another, where the two relations compose to a third one. -/
theorem comp (hm : Moves R m) (hf : ∀ a, Moves R' (f a))
    (hc : ∀ s t u, R s t → R' t u → P s u) : Moves P (m >>= f) := by
  intro s b u he
  obtain ⟨a, t, ha, hb⟩ := run_bind_iff.mp he
  exact hc s t u (hm s a t ha) (hf a t b u hb)

/-- A program that does nothing moves along a reflexive relation. -/
theorem pure [Std.Refl R] {a : α} : Moves R (pure a : Prog σ α) := by
  rintro s _ _ ⟨⟩
  exact refl_of R s

/-- A sequence moves along a transitive relation. -/
theorem bind [IsTrans σ R] (hm : Moves R m) (hf : ∀ a, Moves R (f a)) : Moves R (m >>= f) :=
  hm.comp hf fun _ _ _ => trans_of R

/-- Both branches of a test move along the relation. -/
theorem ite {p : Prop} [Decidable p] (h : p → Moves R m) (h' : ¬ p → Moves R n) :
    Moves R (if p then m else n) := by
  split
  · exact h ‹_›
  · exact h' ‹_›

end Moves

end MatchingEngine.Lib
