import Zcrypto.Engine.DraftTrim

/- The sizes one leg is decided at: what a placed sell leaves behind, what a placed buy spends of the gap,
   and why a leg is not placed. -/
namespace DraftPlans
open ProbePlans Orders Instruments

section
variable {leg d : LegDecision}

theorem roundHalfEven_le_half (x : ℚ) : roundHalfEven x ≤ x + 1 / 2 := by
  have low := Int.floor_le x
  unfold roundHalfEven
  split_ifs <;> push_cast <;> linarith

theorem roundTo_nine_le (x : ℚ) : roundTo 9 x ≤ x + 1 / (2 * 10 ^ 9) := by
  have near := roundHalfEven_le_half (x * 10 ^ 9)
  unfold roundTo
  rw [div_le_iff₀ (by norm_num)]
  linarith

/-- No part of a sell that the venue's balance allows is as much as the venue's minimum. -/
def LegDecision.Unsellable (d : LegDecision) : Prop :=
  0 < d.venueB ∧ d.venueB < d.sellQty ∧ ∀ n : Int, n * d.lotStep ≤ d.venueB → n * d.lotStep < d.ordermin

/-- The law of a leg's size. -/
structure SizeLaw (d : LegDecision) : Prop where
  sell : d.isPlaced .sell → ∃ qty, d.qty = some qty ∧ d.ordermin ≤ qty ∧
    (∃ n : Int, qty = n * d.lotStep) ∧ qty ≤ d.krakenHeld ∧
    ((0 < d.venueB ∧ d.venueB < d.sellQty ∧ qty ≤ d.venueB) ∨ d.krakenHeld - qty < d.lotStep ∨
      d.ordermin ≤ d.krakenHeld - qty)
  buy : d.isPlaced .buy → ∃ eur, d.notionalEur = some eur ∧ (∃ n : Int, eur = n / 100) ∧
    d.buyFloor ≤ d.deltaEur ∧ d.buyFloor - 1 / 100 - 1 / 10 ^ 9 < eur ∧ eur ≤ d.deltaEur + 1 / (2 * 10 ^ 9)
  unplaced : d.outcome ≠ .placed → d.deltaEur = 0 ∨ (0 < d.deltaEur ∧ d.deltaEur < d.buyFloor) ∨
    (d.deltaEur < 0 ∧ (d.overTarget < d.ordermin ∨ d.Unsellable))

theorem decideBuy_sized (fresh : leg.outcome = .carried) (above : 0 < leg.deltaEur) : SizeLaw (decideBuy leg) := by
  unfold decideBuy
  split
  · rename_i under
    refine ⟨?_, ?_, fun _ => .inr (.inl ⟨above, under⟩)⟩
    · intro sell
      cases (isPlaced_iff.mp sell).2
    · intro buy
      have placed := fresh.symm.trans (isPlaced_iff.mp buy).1
      cases placed
  · rename_i enough
    have enough : leg.buyFloor ≤ leg.deltaEur := not_lt.mp enough
    refine ⟨?_, ?_, fun other => absurd rfl other⟩
    · intro sell
      cases (isPlaced_iff.mp sell).2
    · intro _
      have cents : 0 < cent := by norm_num [cent]
      have near := le_roundTo_nine leg.deltaEur
      have rounded := roundTo_nine_le leg.deltaEur
      have floored := floorToStep_le cents (roundTo 9 leg.deltaEur)
      have whole := lt_floorToStep_add cents (roundTo 9 leg.deltaEur)
      refine ⟨_, rfl, ⟨⌊roundTo 9 leg.deltaEur / cent⌋, ?_⟩, enough, ?_, floored.trans rounded⟩
      · rw [floorToStep, cent]
        ring
      · show leg.buyFloor - 1 / 100 - 1 / 10 ^ 9 < floorToStep (roundTo 9 leg.deltaEur) cent
        rw [cent] at whole ⊢
        linarith

/-- A sell that is placed is neither more than is held nor leaves what cannot be sold. -/
theorem placeSell_sized {qty : ℚ} (enough : leg.ordermin ≤ qty) (lots : ∃ n : Int, qty = n * leg.lotStep)
    (le : qty ≤ leg.krakenHeld)
    (left : (0 < leg.venueB ∧ leg.venueB < leg.sellQty ∧ qty ≤ leg.venueB) ∨
      leg.krakenHeld - qty < leg.lotStep ∨ leg.ordermin ≤ leg.krakenHeld - qty) :
    SizeLaw (placeSell leg qty) := by
  refine ⟨fun _ => ⟨qty, rfl, enough, lots, le, left⟩, ?_, fun other => absurd rfl other⟩
  intro buy
  cases (isPlaced_iff.mp buy).2

theorem unplaced_sized (fresh : leg.outcome = .carried) (below : leg.deltaEur < 0)
    (why : leg.overTarget < leg.ordermin ∨ leg.Unsellable) : SizeLaw { leg with side := some .sell } := by
  refine ⟨?_, ?_, fun _ => .inr (.inr ⟨below, why⟩)⟩
  · intro sell
    have placed := fresh.symm.trans (isPlaced_iff.mp sell).1
    cases placed
  · intro buy
    cases (isPlaced_iff.mp buy).2

/-- A whole number of steps is under what it is floored to. -/
theorem le_floorToStep {s v : ℚ} (pos : 0 < s) {n : Int} (le : n * s ≤ v) : n * s ≤ floorToStep v s := by
  have share : (n : ℚ) ≤ v / s := by
    rw [le_div_iff₀ pos]
    exact le
  apply mul_le_mul_of_nonneg_right _ pos.le
  exact_mod_cast Int.le_floor.mpr share

theorem sellQty_sized (lot : 0 < leg.lotStep) (price : 0 < leg.price) (target : 0 ≤ leg.targetEur) :
    (∃ n : Int, leg.sellQty = n * leg.lotStep) ∧ leg.sellQty ≤ leg.krakenHeld ∧
      (leg.krakenHeld - leg.sellQty < leg.lotStep ∨ leg.ordermin ≤ leg.krakenHeld - leg.sellQty) := by
  unfold LegDecision.sellQty
  split
  · have whole := lt_floorToStep_add lot leg.krakenHeld
    exact ⟨⟨_, rfl⟩, floorToStep_le lot _, .inl (by linarith)⟩
  · rename_i rest
    have share : 0 ≤ leg.targetEur / leg.price := div_nonneg target price.le
    have under : leg.overTarget ≤ leg.krakenHeld - leg.targetEur / leg.price := floorToStep_le lot _
    exact ⟨⟨_, rfl⟩, by linarith, .inr (not_lt.mp rest)⟩

theorem decideSell_sized (fresh : leg.outcome = .carried) (lot : 0 < leg.lotStep) (price : 0 < leg.price)
    (target : 0 ≤ leg.targetEur) (below : leg.deltaEur < 0) : SizeLaw (decideSell leg) := by
  obtain ⟨lots, held, left⟩ := sellQty_sized lot price target
  unfold decideSell
  split
  · rename_i under
    exact unplaced_sized fresh below (.inl under)
  · rename_i enough
    unfold sellUpToB
    split
    · rename_i capped
      have under := floorToStep_le lot leg.venueB
      split
      · rename_i short
        apply unplaced_sized fresh below
        refine .inr ⟨capped.1, capped.2, fun n le => ?_⟩
        exact (le_floorToStep lot le).trans_lt short
      · rename_i enough
        apply placeSell_sized (not_lt.mp enough) ⟨_, rfl⟩
        · linarith
        · exact .inl ⟨capped.1, capped.2, under⟩
    · apply placeSell_sized _ lots held (.inr left)
      exact (not_lt.mp enough).trans (over_le_sellQty lot price target)

end

theorem whole_lot : (0 : ℚ) < 1 := by norm_num

/-- A leg at a price of one and nothing held, with the minimum and the gap given. -/
def plainBuy (ordermin gap : ℚ) (nonneg : 0 ≤ ordermin) : LegDecision :=
  decideLeg .btcEur 1 1 ⟨ordermin, 1, whole_lot, nonneg⟩ 0 0 false gap

end DraftPlans
