import Mathlib.Tactic.Linarith
import Zcrypto.DecimalText
import Zcrypto.Engine.FlattenPlan

/- What a leg that is sent asks for: a whole number of steps of what was reported, at the decimals the step
   itself is written with. -/
namespace Flatten
open Orders Instruments DecimalText

/-- The decimals a step is written with. -/
def stepPrecision : Decimal → Nat
  | .finite _ _ exponent => (-exponent).toNat
  | _ => 0

/-- The amount with no more than so many decimals behind the point. -/
def AtPrecision (precision : Nat) (q : ℚ) : Prop :=
  ∃ n : Nat, (Decimal.finite false n (-precision)).value = some q

section
variable {leg : Leg} {c : PairConstraints} {price : Option ℚ}

theorem tenTo_scaled (e : Int) : ∃ m : Nat, tenTo e * 10 ^ (-e).toNat = m := by
  cases e with
  | ofNat n =>
    refine ⟨10 ^ n, ?_⟩
    have none : (-Int.ofNat n).toNat = 0 := by simp
    rw [none, pow_zero, mul_one, tenTo]
    push_cast
    rfl
  | negSucc n =>
    refine ⟨1, ?_⟩
    have scale : (-Int.negSucc n).toNat = n + 1 := rfl
    rw [scale, tenTo, Nat.cast_one]
    exact one_div_mul_cancel (pow_ne_zero _ (by norm_num))

theorem tenTo_neg (n : Nat) : tenTo (-n) = 1 / 10 ^ n := by
  cases n with
  | zero => simp [tenTo]
  | succ n => rfl

/-- A whole number of steps needs no more decimals than the step. -/
theorem multiple_atPrecision {d : Decimal} {step q : ℚ} {k : Int} (written : d.value = some step)
    (multiple : q = k * step) (nonneg : 0 ≤ q) : AtPrecision (stepPrecision d) q := by
  cases d with
  | infinity negative => cases written
  | nan negative signaling payload => cases written
  | finite negative coefficient e =>
    obtain ⟨m, scaled⟩ := tenTo_scaled e
    have whole : ∃ n : Int, q * 10 ^ (-e).toNat = n := by
      have value : signed negative (coefficient * tenTo e) = step := Option.some.inj written
      cases negative with
      | false =>
        refine ⟨k * coefficient * m, ?_⟩
        rw [multiple, ← value]
        push_cast
        rw [← scaled]
        simp only [signed, Bool.false_eq_true, if_false]
        ring
      | true =>
        refine ⟨-(k * coefficient * m), ?_⟩
        rw [multiple, ← value]
        push_cast
        rw [← scaled]
        simp only [signed, if_true]
        ring
    obtain ⟨n, same⟩ := whole
    have sign : 0 ≤ n := by
      have scaled_nonneg : (0 : ℚ) ≤ n := by
        rw [← same]
        exact mul_nonneg nonneg (pow_nonneg (by norm_num) _)
      exact_mod_cast scaled_nonneg
    refine ⟨n.toNat, ?_⟩
    have cast : ((n.toNat : Nat) : ℚ) = n := by exact_mod_cast Int.toNat_of_nonneg sign
    show some (signed false (n.toNat * tenTo (-((-e).toNat : Int)))) = some q
    rw [tenTo_neg, cast, ← same]
    simp only [signed, Bool.false_eq_true, if_false]
    rw [mul_one_div, mul_div_cancel_right₀ _ (pow_ne_zero _ (by norm_num))]

/- The quantity of a leg that is sent. -/

/-- What was reported, floored to the step. -/
def wholeQty (leg : Leg) (c : PairConstraints) : ℚ := floorToStep leg.quantity c.lotStep

/-- One unit short of it, floored to the step again. -/
def shavedQty (leg : Leg) (c : PairConstraints) : ℚ :=
  floorToStep (wholeQty leg c - balanceUnit) c.lotStep

theorem sizeLeg_margin (margin : leg.kind = .margin) (sent : (sizeLeg leg c price).send = true) :
    (sizeLeg leg c price).qty = wholeQty leg c ∧ 0 < wholeQty leg c := by
  simp only [sizeLeg, if_pos margin] at sent ⊢
  split at sent
  · cases sent
  · rename_i positive
    exact ⟨by rw [if_neg positive]; rfl, not_le.mp positive⟩

theorem sizeLeg_spot (spot : leg.kind = .spot) (sent : (sizeLeg leg c price).send = true) :
    classifyBalance leg.quantity c price = .residual ∧
      ((sizeLeg leg c price).qty = wholeQty leg c ∨
        ((sizeLeg leg c price).qty = shavedQty leg c ∧ 0 < shavedQty leg c)) := by
  have residual := (sizeLeg_send spot c price).mp sent
  refine ⟨residual, ?_⟩
  have not_margin : leg.kind ≠ .margin := by simp [spot]
  have judged : ¬ classifyBalance leg.quantity c (tickFloored price c) ≠ .residual := by
    rw [classifyBalance_floored]
    exact not_not.mpr residual
  simp only [sizeLeg, if_neg not_margin, if_neg judged]
  split
  · rename_i shaves
    exact Or.inr ⟨rfl, shaves.1⟩
  · exact Or.inl rfl

theorem sizeOrder_minima {target reference minimum : ℚ}
    (sized : belowMinimum (sizeOrder target reference minimum c) = false) :
    c.ordermin ≤ floorToStep target c.lotStep ∧
      minimum ≤ floorToStep target c.lotStep * floorToStep reference c.tickSize := by
  unfold sizeOrder at sized
  by_cases small : floorToStep target c.lotStep < c.ordermin
  · rw [if_pos small] at sized
    cases sized
  · rw [if_neg small] at sized
    by_cases cheap : floorToStep target c.lotStep * floorToStep reference c.tickSize < minimum
    · rw [if_pos cheap] at sized
      cases sized
    · exact ⟨not_lt.mp small, not_lt.mp cheap⟩

/-- A balance judged a residual is above nothing, and what it floors to meets the minima. -/
theorem residual_minima (residual : classifyBalance leg.quantity c price = .residual) :
    0 < leg.quantity ∧ c.ordermin ≤ wholeQty leg c ∧
      ((tickFloored price c).isSome → (costminFor c.symbol).getD 0 ≤
        wholeQty leg c * floorToStep ((tickFloored price c).getD 0) c.tickSize) := by
  unfold classifyBalance at residual
  split at residual
  · cases residual
  rename_i something
  split at residual
  · cases residual
  rename_i sized
  obtain ⟨order, notional⟩ := sizeOrder_minima ((Bool.not_eq_true _).mp sized)
  refine ⟨not_le.mp something, order, ?_⟩
  intro priced
  rw [if_pos priced] at notional
  exact notional

/-- A minimum that applies to the leg and is more than nothing: the order's, or the notional's where the
    leg is priced. -/
def Floored (c : PairConstraints) (price : Option ℚ) : Prop :=
  0 < c.ordermin ∨ (tickFloored price c).isSome ∧ ∃ m, costminFor c.symbol = some m ∧ 0 < m

/-- What a leg that is sent asks of the venue. A spot leg goes out a balance unit short, floored again. -/
structure Sendable (leg : Leg) (c : PairConstraints) (price : Option ℚ) (qty : ℚ) : Prop where
  bounded : qty ≤ leg.quantity
  nonneg : 0 ≤ qty
  positive : leg.kind = .margin ∨ Floored c price → 0 < qty
  multiple : ∃ k : Int, qty = k * c.lotStep
  margin : leg.kind = .margin → leg.quantity < qty + c.lotStep
  spot : leg.kind = .spot → leg.quantity < qty + 2 * c.lotStep + balanceUnit
  precise : ∀ d : Decimal, d.value = some c.lotStep → AtPrecision (stepPrecision d) qty

theorem wholeQty_bounds (leg : Leg) (c : PairConstraints) :
    wholeQty leg c ≤ leg.quantity ∧ leg.quantity < wholeQty leg c + c.lotStep :=
  ⟨floorToStep_le c.lot_pos _, lt_floorToStep_add c.lot_pos _⟩

theorem shavedQty_bounds (leg : Leg) (c : PairConstraints) :
    shavedQty leg c ≤ leg.quantity ∧ leg.quantity < shavedQty leg c + 2 * c.lotStep + balanceUnit := by
  obtain ⟨below, above⟩ := wholeQty_bounds leg c
  have low : shavedQty leg c ≤ wholeQty leg c - balanceUnit := floorToStep_le c.lot_pos _
  have high : wholeQty leg c - balanceUnit < shavedQty leg c + c.lotStep :=
    lt_floorToStep_add c.lot_pos _
  have unit : 0 < balanceUnit := by norm_num [balanceUnit]
  constructor
  · linarith
  · linarith

/-- What floors to nothing meets no minimum above nothing. -/
theorem wholeQty_pos (residual : classifyBalance leg.quantity c price = .residual)
    (floored : Floored c price) : 0 < wholeQty leg c := by
  obtain ⟨something, order, notional⟩ := residual_minima residual
  rcases floored with minimum | ⟨priced, m, applies, above⟩
  · exact minimum.trans_le order
  · have worth := notional priced
    rw [applies, Option.getD_some] at worth
    have whole : 0 ≤ wholeQty leg c := floorToStep_nonneg c.lot_pos something.le
    rcases whole.eq_or_lt with nothing | some_
    · rw [← nothing, zero_mul] at worth
      linarith
    · exact some_

/-- A leg that is sent asks for no more than was reported, in whole steps: within one step of it, or, for a
    spot leg, within two and a balance unit. It asks for more than nothing where a minimum applies. -/
theorem sizeLeg_sendable (leg : Leg) (c : PairConstraints) (price : Option ℚ)
    (sent : (sizeLeg leg c price).send = true) : Sendable leg c price (sizeLeg leg c price).qty := by
  have lot := c.lot_pos
  have unit : 0 < balanceUnit := by norm_num [balanceUnit]
  obtain ⟨low, high⟩ := wholeQty_bounds leg c
  have precise : ∀ (qty : ℚ) (k : Int), qty = k * c.lotStep → 0 ≤ qty → ∀ d : Decimal,
      d.value = some c.lotStep → AtPrecision (stepPrecision d) qty :=
    fun qty k multiple nonneg d written => multiple_atPrecision written multiple nonneg
  cases kind : leg.kind with
  | margin =>
    obtain ⟨same, positive⟩ := sizeLeg_margin kind sent
    rw [same]
    refine ⟨low, positive.le, fun _ => positive, ⟨_, rfl⟩, fun _ => high, ?_,
      precise _ _ rfl positive.le⟩
    intro spot
    rw [kind] at spot
    cases spot
  | spot =>
    obtain ⟨residual, shaved | same⟩ := sizeLeg_spot kind sent
    · have nonneg : 0 ≤ wholeQty leg c := floorToStep_nonneg c.lot_pos (residual_minima residual).1.le
      rw [shaved]
      refine ⟨low, nonneg, ?_, ⟨_, rfl⟩, fun _ => high, fun _ => by linarith, precise _ _ rfl nonneg⟩
      rintro (margin | floored)
      · rw [kind] at margin
        cases margin
      · exact wholeQty_pos residual floored
    · obtain ⟨qty, positive⟩ := same
      obtain ⟨below, above⟩ := shavedQty_bounds leg c
      rw [qty]
      refine ⟨below, positive.le, fun _ => positive, ⟨_, rfl⟩, ?_, fun _ => above,
        precise _ _ rfl positive.le⟩
      intro margin
      rw [kind] at margin
      cases margin

end

section

/-- A pair of tenths, and one the venue names no minimum for. -/
def tenths (ordermin : ℚ) : PairConstraints :=
  ⟨⟨"SOL", "BTC"⟩, ordermin, 1 / 10, 1, by norm_num, by norm_num⟩

def solBalance (free : ℚ) : Leg :=
  ⟨.spot, "SOL", ⟨"SOL", "BTC"⟩, .sell, free, .cash, "account_state.free"⟩

theorem solBalance_sendable : Sendable (solBalance (201 / 20)) (tenths 1) none (99 / 10) := by
  have sent : (sizeLeg (solBalance (201 / 20)) (tenths 1) none).send = true := by decide +kernel
  have qty : (sizeLeg (solBalance (201 / 20)) (tenths 1) none).qty = 99 / 10 := by decide +kernel
  rw [← qty]
  exact sizeLeg_sendable (solBalance (201 / 20)) (tenths 1) none sent

/-- A balance of 10.05 at a lot of a tenth goes out as 9.9, and where no minimum applies a balance below one
    lot goes out as nothing. -/
theorem sent_short :
    (sizeLeg (solBalance (201 / 20)) (tenths 1) none).send = true ∧
      (sizeLeg (solBalance (201 / 20)) (tenths 1) none).qty = 99 / 10 ∧
      (99 / 10 : ℚ) + (tenths 1).lotStep < 201 / 20 ∧
      (sizeLeg (solBalance (1 / 20)) (tenths 0) none).send = true ∧
      (sizeLeg (solBalance (1 / 20)) (tenths 0) none).qty = 0 := by
  decide +kernel

end

end Flatten
