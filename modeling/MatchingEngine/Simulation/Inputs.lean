import MatchingEngine.Cpp.Valid
import MatchingEngine.Simulation.Pipeline

/-!
# The orders that are submitted

The order of the specification for an input of `submitOrder` has the terms of the input, with
nothing for zero.

`specOrder` is that order, under the id and at the time that the book assigns. It stands for the
order that the C++ engine makes of the same input (`stands_specOrder`), and if it is a stop the two
sleep alike (`sleeps_specOrder`). The two sides check an input in different words, one on options
and one on numbers that may be zero: `accepts_wellFormed` compares the two checks on every input.
-/

namespace MatchingEngine.Simulation

open Cpp (OrderInput)

/-- The given number, or none for zero. -/
def given (n : ℤ) : Option ℕ := if n = 0 then none else some n.toNat

/-- The side of the specification. -/
def specSide : Cpp.Side → Spec.Side
  | .BUY => .buy
  | .SELL => .sell

/-- The type of the specification. -/
def specType : Cpp.OrderType → Spec.OrderType
  | .LIMIT => .limit
  | .MARKET => .market
  | .MARKET_TO_LIMIT => .marketToLimit
  | .STOP_LIMIT => .stopLimit
  | .STOP_MARKET => .stopMarket

/-- The time in force of the specification. It has no good-till-date orders. -/
def specTif : Cpp.TimeInForce → Spec.TimeInForce
  | .GTC | .GTD => .gtc
  | .IOC => .ioc
  | .FOK => .fok
  | .DAY => .day

/-- The self-trade policy of the specification. -/
def specPolicy : Cpp.STPPolicy → Option Spec.STPPolicy
  | .NONE => none
  | .CANCEL_NEWEST => some .cancelNewest
  | .CANCEL_OLDEST => some .cancelOldest
  | .CANCEL_BOTH => some .cancelBoth
  | .DECREMENT => some .decrement

/-- The order of an input, with an id and a time. -/
def specOrder (i : OrderInput) (id timestamp : ℕ) : Spec.Order where
  id := id
  side := specSide i.side
  orderType := specType i.orderType
  tif := specTif i.timeInForce
  price := given i.price
  stopPrice := given i.stopPrice
  qty := i.quantity.toNat
  remainingQty := i.quantity.toNat
  minQty := given i.minQty
  displayQty := given i.displayQty
  visibleQty := if 0 < i.displayQty then (min i.displayQty i.quantity).toNat else i.quantity.toNat
  postOnly := i.postOnly
  status := .new_
  timestamp := timestamp
  stpGroup := given i.selfTradeGroup.toNat
  stpPolicy := specPolicy i.stpPolicy

/-- A number that is not negative is given as it is. -/
theorem given_given {n : ℤ} (h : 0 ≤ n) : Given n (given n) := by
  unfold given
  split
  · rename_i h0
    exact ⟨fun hx => (by cases hx), h0⟩
  · refine ⟨fun hx => ?_, (Int.toNat_of_nonneg h).symm⟩
    have hx := Option.some.inj hx
    omega

/-- A number that is not zero is given. -/
theorem given_isSome {n : ℤ} (h : n ≠ 0) : (given n).isSome = true := by
  unfold given
  rw [if_neg h]
  rfl

section Inputs

variable {i : OrderInput} {now id tm : ℕ}

variable (tm) in
/-- The terms of an accepted order. -/
theorem stands_specOrder (hv : Cpp.Valid now (i.order now)) (hid : i.id.toNat = id)
    (htif : i.timeInForce ≠ .GTD) (hqty : i.quantity ≤ most) :
    Stands (specOrder i id tm) (i.order now) := by
  have hpos : 0 < i.quantity := hv.quantity
  have hprice : 0 ≤ i.price := by
    cases ht : i.orderType with
    | LIMIT => exact le_of_lt (hv.limit ht)
    | STOP_LIMIT => exact le_of_lt (hv.stopLimit ht)
    | MARKET => exact ge_of_eq (hv.market (.inl ht))
    | STOP_MARKET => exact ge_of_eq (hv.market (.inr ht))
    | MARKET_TO_LIMIT => exact ge_of_eq (hv.marketToLimit ht)
  have hstop : 0 ≤ i.stopPrice := by
    cases ht : i.orderType.isStop with
    | true => exact le_of_lt (hv.stopPrice ht)
    | false => exact ge_of_eq (hv.noStopPrice ht)
  have hmin : 0 ≤ i.minQty := hv.minQty.elim ge_of_eq fun h => le_of_lt h.1
  have hdisplay : 0 ≤ i.displayQty := hv.display.elim ge_of_eq fun h => le_of_lt h.1
  have hcast : i.quantity = ((i.quantity.toNat : ℕ) : ℤ) :=
    (Int.toNat_of_nonneg (le_of_lt hpos)).symm
  refine ⟨hid, ?_, ?_, ?_, given_given hprice, given_given hstop, hcast, hcast, given_given hmin,
    given_given hdisplay, rfl, given_given (Int.natCast_nonneg _), ?_, ?_, ?_, ?_⟩
  · change i.side = sideOf (specSide i.side)
    cases i.side <;> rfl
  · change i.orderType = typeOf (specType i.orderType)
    cases i.orderType <;> rfl
  · change i.timeInForce = tifOf (specTif i.timeInForce)
    revert htif
    cases i.timeInForce <;> intro htif <;> first | rfl | exact absurd rfl htif
  · change i.stpPolicy = policyOf (specPolicy i.stpPolicy)
    cases i.stpPolicy <;> rfl
  · change (given i.selfTradeGroup.toNat).isSome = (specPolicy i.stpPolicy).isSome
    have hgroup : i.selfTradeGroup = 0 ↔ i.stpPolicy = .NONE := hv.group
    have hzero : ((i.selfTradeGroup.toNat : ℕ) : ℤ) = 0 ↔ i.selfTradeGroup = 0 := by
      rw [← UInt64.toNat_inj]
      exact Int.natCast_eq_zero
    by_cases h0 : i.selfTradeGroup = 0
    · rw [hgroup.mp h0]
      unfold given
      rw [if_pos (hzero.mpr h0)]
      rfl
    · rw [given_isSome (mt hzero.mp h0)]
      have hpolicy := mt hgroup.mpr h0
      revert hpolicy
      cases i.stpPolicy <;> intro hpolicy <;> first | rfl | exact absurd rfl hpolicy
  · exact iff_of_false (fun hx => by cases hx) fun hx => by cases hx
  · change i.quantity.toNat ≤ most
    omega

/-- A valid order of a quantity within bounds fits. -/
theorem fit_specOrder (hv : Cpp.Valid now (i.order now)) (hqty : i.quantity ≤ most) :
    Fit (specOrder i id tm) := by
  have hpos : 0 < i.quantity := hv.quantity
  have htype : ∀ ty, specType i.orderType = ty → i.orderType = typeOf ty := by
    rintro _ rfl
    cases i.orderType <;> rfl
  refine ⟨fun hx => (by cases hx), Int.pos_iff_toNat_pos.mp hpos, Int.pos_iff_toNat_pos.mp hpos, ?_,
    fun k hk => ?_, fun hx => ?_, fun hx => ?_, fun hf => ?_, fun hp => ?_⟩
  · change i.quantity.toNat ≤ most
    omega
  · change k ∈ given i.minQty at hk
    have hle : i.minQty = 0 ∨ 0 < i.minQty ∧ i.minQty ≤ i.quantity := hv.minQty
    unfold given at hk
    split at hk
    · cases hk
    · rw [← Option.some.inj hk]
      omega
  · refine given_isSome (ne_of_gt ?_)
    rcases hx with hx | hx
    · exact hv.limit (htype _ hx)
    · exact hv.stopLimit (htype _ hx)
  · change given i.price = none
    exact if_pos (hv.market (.inr (htype _ hx)))
  · have hfok : i.timeInForce = .FOK := by
      revert hf
      change specTif i.timeInForce = .fok → _
      cases i.timeInForce <;> intro hf <;> first | rfl | cases hf
    constructor
    · change given i.minQty = none
      exact if_pos (hv.minQtyFok hfok)
    · intro hx
      exact (hv.marketToLimitTif (htype _ hx)).2 hfok
  · change specType i.orderType = .limit
    rw [show i.orderType = .LIMIT from hv.postOnly hp]
    rfl

/-- Both see a stop in the same orders. -/
theorem isStop_specOrder : (specOrder i id tm).orderType.isStop = i.orderType.isStop := by
  change (specType i.orderType).isStop = _
  cases i.orderType <;> rfl

/-- A valid stop may fall asleep. -/
theorem sleeps_specOrder (hv : Cpp.Valid now (i.order now)) (hid : i.id.toNat = id)
    (htif : i.timeInForce ≠ .GTD) (hqty : i.quantity ≤ most) (hstop : i.orderType.isStop = true) :
    Sleeps (specOrder i id tm) (i.order now) :=
  ⟨stands_specOrder tm hv hid htif hqty, fit_specOrder hv hqty, isStop_specOrder.trans hstop,
    given_isSome (ne_of_gt (hv.stopPrice hstop))⟩

end Inputs

/-! ## Well-formed orders -/

/-- A number is not given when it is zero. -/
theorem given_isNone (n : ℤ) : (given n).isNone = decide (n = 0) := by
  unfold given
  split <;> simp [*]

/-- A price that has to be there. -/
theorem given_positive (n : ℤ) : ((given n).isSome && (given n).any (0 < ·)) = decide (0 < n) := by
  unfold given
  split <;> simp [*]

/-- A part of the quantity that may be there. -/
theorem given_within (n q : ℤ) :
    ((given n).isNone || (given n).any fun d => 0 < d && d ≤ q.toNat) =
      decide (n = 0 ∨ 0 < n ∧ n ≤ q) := by
  rw [given_isNone]
  unfold given
  by_cases h : n = 0
  · simp [h]
  · rw [if_neg h, Bool.eq_iff_iff]
    simp [h]
    omega

/-- A group for the policy. -/
theorem policy_grouped (p : Cpp.STPPolicy) (g : UInt64) :
    ((specPolicy p).isNone || (given g.toNat).isSome) = decide (p = .NONE ∨ g ≠ 0) := by
  have hgroup : (given g.toNat).isSome = decide (g ≠ 0) := by
    by_cases h : g = 0
    · simp [h, given]
    · have hne : ((g.toNat : ℕ) : ℤ) ≠ 0 := fun h0 =>
        h (UInt64.toNat_inj.mp (Int.natCast_inj.mp h0))
      rw [given_isSome hne]
      simp [h]
  rw [hgroup]
  cases p <;> simp [specPolicy]

/-- `validate` accepts the well-formed orders of the specification, as far as it has them: the rules
for the expiry are those of the engine alone, and the engine also wants a policy for every group. -/
theorem accepts_wellFormed (i : OrderInput) (now id tm : ℕ) :
    Cpp.validate now (i.order now) = none ↔ (specOrder i id tm).wellFormed = true ∧
      (i.timeInForce = .GTD → now < i.expireTime) ∧ (i.timeInForce ≠ .GTD → i.expireTime = 0) ∧
      (i.selfTradeGroup ≠ 0 → i.stpPolicy ≠ .NONE) := by
  unfold Cpp.validate Spec.Order.wellFormed specOrder
  simp only [Cpp.check_eq_none, given_positive, given_within, policy_grouped]
  simp only [given_isNone, Cpp.OrderInput.order]
  -- For one type and one time in force, the same conditions are left on both sides.
  cases i.orderType <;> simp [specType] <;> cases i.timeInForce <;> simp [specTif] <;> grind

end MatchingEngine.Simulation
