import MatchingEngine.Cpp.Flat

/-!
# What an accepted order satisfies

The checks of `validate`, read as facts about an order that passes them all.

`validate` returns the first check that fails, so an order that it accepts has passed them all
(`valid_of_validate`), and each check becomes a field of `Valid`, in the words of the check: the
price of a limit order is positive, an immediate order is not post-only, a group comes with a
policy, and the other way round. What the pipeline relies on is taken from these fields.
-/

namespace MatchingEngine.Cpp

/-- Whether the type is one of a stop. -/
def OrderType.isStop : OrderType → Bool
  | .STOP_LIMIT | .STOP_MARKET => true
  | _ => false

/-- What the checks ask of an order, at the time `now`. -/
structure Valid (now : ℕ) (o : Order) : Prop where
  quantity : 0 < o.quantity
  limit : o.orderType = .LIMIT → 0 < o.price
  stopLimit : o.orderType = .STOP_LIMIT → 0 < o.price
  marketToLimit : o.orderType = .MARKET_TO_LIMIT → o.price = 0
  market : o.orderType = .MARKET ∨ o.orderType = .STOP_MARKET → o.price = 0
  stopPrice : o.orderType.isStop = true → 0 < o.stopPrice
  noStopPrice : o.orderType.isStop = false → o.stopPrice = 0
  expires : o.timeInForce = .GTD → now < o.expireTime
  noExpiry : o.timeInForce ≠ .GTD → o.expireTime = 0
  marketTif : o.orderType = .MARKET → o.timeInForce = .IOC ∨ o.timeInForce = .FOK
  marketToLimitTif : o.orderType = .MARKET_TO_LIMIT → o.timeInForce ≠ .IOC ∧ o.timeInForce ≠ .FOK
  display : o.displayQty = 0 ∨ 0 < o.displayQty ∧ o.displayQty ≤ o.quantity
  displayType : o.displayQty ≠ 0 → o.orderType = .LIMIT
  postOnly : o.postOnly = true → o.orderType = .LIMIT
  postOnlyTif : o.postOnly = true → o.timeInForce ≠ .IOC ∧ o.timeInForce ≠ .FOK
  group : o.selfTradeGroup = 0 ↔ o.stpPolicy = .NONE
  minQty : o.minQty = 0 ∨ 0 < o.minQty ∧ o.minQty ≤ o.quantity
  minQtyPostOnly : o.minQty ≠ 0 → o.postOnly = false
  minQtyFok : o.timeInForce = .FOK → o.minQty = 0

/-- A check that is passed. -/
theorem check_eq_none {c : Prop} [Decidable c] {err : String} {next : Option String} :
    (if c then some err else next) = none ↔ ¬ c ∧ next = none := by
  split
  · simp [*]
  · simp [*]

/-- What `validate` accepts is valid. -/
theorem valid_of_validate {now : ℕ} {o : Order} (h : validate now o = none) : Valid now o := by
  unfold validate at h
  simp only [check_eq_none] at h
  obtain ⟨h1, h2, h2a, h2b, h3, h4, h5, h6, h7, h8, h8a, h9, h10, h13, h14, -, h16, h18, h19,
    h20, -⟩ := h
  refine ⟨by omega, fun ht => ?_, fun ht => ?_, fun ht => ?_, fun ht => ?_, fun ht => ?_, fun ht => ?_,
    fun ht => ?_, fun ht => ?_, fun ht => ?_, fun ht => ?_, ?_, fun hd => ?_, fun hp => ?_,
    fun hp => ?_, not_not.mp h16, ?_, fun hm => ?_, fun ht => ?_⟩
  · exact Int.not_le.mp fun hx => h2 ⟨ht, hx⟩
  · exact Int.not_le.mp fun hx => h2a ⟨ht, hx⟩
  · exact not_not.mp fun hx => h2b ⟨ht, hx⟩
  · exact not_not.mp fun hx => h3 ⟨ht, hx⟩
  · refine Int.not_le.mp fun hx => h4 ⟨?_, hx⟩
    cases hty : o.orderType <;> rw [hty] at ht <;> first | contradiction | simp
  · refine not_not.mp fun hx => h5 ⟨?_, hx⟩
    cases hty : o.orderType <;> rw [hty] at ht <;> first | contradiction | simp
  · by_contra hx
    exact h6 ⟨ht, .inr (Nat.le_of_not_lt hx)⟩
  · exact not_not.mp fun hx => h7 ⟨ht, hx⟩
  · by_contra hx
    exact h8 ⟨ht, fun h => hx (.inl h), fun h => hx (.inr h)⟩
  · constructor
    · exact fun hx => h8a ⟨ht, by rw [hx]; decide, by rw [hx]; decide, by rw [hx]; decide⟩
    · exact fun hx => h8a ⟨ht, by rw [hx]; decide, by rw [hx]; decide, by rw [hx]; decide⟩
  · by_cases hd : o.displayQty = 0
    · exact .inl hd
    · refine .inr ⟨Int.not_le.mp fun hx => h9 ⟨hd, .inl hx⟩, Int.not_lt.mp fun hx => h9 ⟨hd, .inr hx⟩⟩
  · exact not_not.mp fun hx => h10 ⟨hd, hx⟩
  · exact not_not.mp fun hx => h13 ⟨hp, hx⟩
  · exact ⟨fun hx => h14 ⟨hp, .inl hx⟩, fun hx => h14 ⟨hp, .inr hx⟩⟩
  · by_cases hm : o.minQty = 0
    · exact .inl hm
    · refine .inr ⟨Int.not_le.mp fun hx => h18 ⟨hm, .inl hx⟩, Int.not_lt.mp fun hx => h18 ⟨hm, .inr hx⟩⟩
  · exact Bool.eq_false_iff.mpr fun hx => h19 ⟨hm, hx⟩
  · exact not_not.mp fun hx => h20 ⟨ht, hx⟩

/-- A stop is not post-only, since a post-only order is a limit order. -/
theorem Valid.stop_postOnly {now : ℕ} {o : Order} (h : Valid now o) (hs : o.orderType.isStop = true) :
    o.postOnly = false := by
  refine Bool.eq_false_iff.mpr fun hp => ?_
  rw [h.postOnly hp] at hs
  cases hs

end MatchingEngine.Cpp
