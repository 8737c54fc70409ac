import Zcrypto.Engine.Orders

/- The sizing terms every order shares: a floor to the venue's step, and the two minima an order
   is held to after it. -/
namespace Instruments
open Orders

def eurCodes : List String := ["EUR", "ZEUR"]

structure Symbol where
  base : String
  quote : String
  deriving DecidableEq, Repr

def Symbol.text (s : Symbol) : String := s.base ++ "/" ++ s.quote

/-- The committed notional floors, each with its own currency. -/
def costmin (s : Symbol) : Option (ℚ × String) :=
  [("ADA/EUR", (9 / 20, "EUR")), ("AVAX/EUR", (9 / 20, "EUR")), ("BTC/EUR", (9 / 20, "EUR")),
    ("DOGE/EUR", (9 / 20, "EUR")), ("DOT/EUR", (9 / 20, "EUR")), ("ETH/BTC", (1 / 50000, "BTC")),
    ("ETH/EUR", (9 / 20, "EUR")), ("LINK/EUR", (9 / 20, "EUR")), ("LTC/EUR", (9 / 20, "EUR")),
    ("SOL/BTC", (1 / 50000, "BTC")), ("SOL/EUR", (9 / 20, "EUR")),
    ("XRP/EUR", (9 / 20, "EUR"))].lookup s.text

structure SizedOrder where
  qty : ℚ
  price : ℚ
  notional : ℚ
  deriving DecidableEq, Repr

inductive BelowMinimum where
  | ordermin (qty ordermin : ℚ)
  | costmin (notional qty price costmin : ℚ)
  deriving DecidableEq, Repr

/-- The constraints of one pair. A step that is not positive is no step. -/
structure PairConstraints where
  symbol : Symbol
  ordermin : ℚ
  lotStep : ℚ
  tickSize : ℚ
  lot_pos : 0 < lotStep
  tick_pos : 0 < tickSize
  deriving DecidableEq, Repr

def sizeOrder (targetQty referencePrice costmin : ℚ) (c : PairConstraints) :
    Except BelowMinimum SizedOrder :=
  let qty := floorToStep targetQty c.lotStep
  let price := floorToStep referencePrice c.tickSize
  if qty < c.ordermin then .error (.ordermin qty c.ordermin)
  else
    let notional := qty * price
    if notional < costmin then .error (.costmin notional qty price costmin)
    else .ok ⟨qty, price, notional⟩

section
variable {v u s : ℚ}

theorem floorToStep_le (pos : 0 < s) (v : ℚ) : floorToStep v s ≤ v := by
  calc floorToStep v s = ⌊v / s⌋ * s := rfl
    _ ≤ v / s * s := mul_le_mul_of_nonneg_right (Int.floor_le _) pos.le
    _ = v := div_mul_cancel₀ v pos.ne'

theorem lt_floorToStep_add (pos : 0 < s) (v : ℚ) : v < floorToStep v s + s := by
  calc v = v / s * s := (div_mul_cancel₀ v pos.ne').symm
    _ < (⌊v / s⌋ + 1) * s := mul_lt_mul_of_pos_right (Int.lt_floor_add_one _) pos
    _ = floorToStep v s + s := by rw [add_mul, one_mul, floorToStep]

theorem floorToStep_nonneg (pos : 0 < s) (nonneg : 0 ≤ v) : 0 ≤ floorToStep v s := by
  apply mul_nonneg _ pos.le
  exact_mod_cast Int.floor_nonneg.mpr (div_nonneg nonneg pos.le)

theorem floorToStep_mono (pos : 0 < s) (le : u ≤ v) : floorToStep u s ≤ floorToStep v s := by
  apply mul_le_mul_of_nonneg_right _ pos.le
  exact_mod_cast Int.floor_le_floor (div_le_div_of_nonneg_right le pos.le)

/-- A floored amount is a whole number of steps, so flooring it again changes nothing. -/
theorem floorToStep_idem (pos : 0 < s) (v : ℚ) :
    floorToStep (floorToStep v s) s = floorToStep v s := by
  unfold floorToStep
  rw [mul_div_cancel_right₀ _ pos.ne', Int.floor_intCast]

end

end Instruments
