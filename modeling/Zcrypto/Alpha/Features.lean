import Zcrypto.Prefixes
import Zcrypto.Fallible
import Mathlib.Algebra.Order.Field.Rat
import Mathlib.Algebra.BigOperators.Group.List.Basic

/- The features and the strategies the books are made of: a value for each move between two closes, of the closes through
   its first alone. Numbers are exact; a square root is whatever `sqrt` makes of its exact argument. -/
namespace Alpha
open Fallible Prefixes

/-- The sum of the terms by their count. -/
def mean (xs : List ℚ) : ℚ := xs.sum / xs.length

def stdev (sqrt : ℚ → ℚ) (xs : List ℚ) : ℚ :=
  sqrt ((xs.map fun x => (x - mean xs) ^ 2).sum / (xs.length - 1))

def validatePrices (prices : List ℚ) : Except String Unit :=
  if prices.length < 2 then .error "prices must be a list of >= 2 values"
  else if prices.any (· ≤ 0) then .error "prices must be finite positive numbers"
  else .ok ()

def validateWindow (name : String) (value : Nat) : Except String Unit :=
  if value < 2 then .error s!"{name} must be an int >= 2" else .ok ()

def highest (xs : List ℚ) : ℚ := xs.max?.getD 0
def lowest (xs : List ℚ) : ℚ := xs.min?.getD 0

def channelAt (prices : List ℚ) (window k : Nat) : ℚ :=
  if k + 1 < window then 0
  else
    let w := slice prices (k + 1 - window) (k + 1)
    if lowest w < highest w then 2 * (prices.getD k 0 - lowest w) / (highest w - lowest w) - 1 else 0

def channelPosition (prices : List ℚ) (window : Nat) : Except String (List ℚ) := do
  validatePrices prices
  validateWindow "window" window
  .ok ((List.range (prices.length - 1)).map (channelAt prices window))

def momentumAt (prices : List ℚ) (lookback k : Nat) : ℚ :=
  if lookback ≤ k then prices.getD k 0 / prices.getD (k - lookback) 0 - 1 else 0

def momentum (prices : List ℚ) (lookback : Nat) : Except String (List ℚ) := do
  validatePrices prices
  validateWindow "lookback" lookback
  .ok ((List.range (prices.length - 1)).map (momentumAt prices lookback))

def sign (x : ℚ) : ℚ := if 0 < x then 1 else if x < 0 then -1 else 0

def trendAgreement (prices : List ℚ) (lookbacks : List Nat) : Except String (List ℚ) := do
  validatePrices prices
  if lookbacks = [] then .error "lookbacks must be a non-empty list of ints >= 2"
  else
    lookbacks.forM (validateWindow "lookback")
    let momenta ← lookbacks.mapM (momentum prices)
    .ok ((List.range (prices.length - 1)).map fun k => mean (momenta.map fun m => sign (m.getD k 0)))

/-- Long where a close is above its average. -/
def smaAt (prices : List ℚ) (window k : Nat) : ℚ :=
  if k + 1 < window then 0
  else if mean (slice prices (k + 1 - window) (k + 1)) < prices.getD k 0 then 1
  else 0

def smaGate (prices : List ℚ) (window : Nat) : Except String (List ℚ) := do
  validatePrices prices
  validateWindow "window" window
  .ok ((List.range (prices.length - 1)).map (smaAt prices window))

def volTargetAt (sqrt : ℚ → ℚ) (returns : List ℚ) (targetVol : ℚ) (lookback : Nat) (maxLeverage : ℚ) (t : Nat) : ℚ :=
  if t < lookback then 0
  else
    let rv := stdev sqrt (slice returns (t - lookback) t)
    if 0 < rv then min (targetVol / rv) maxLeverage else 0

def volTarget (sqrt : ℚ → ℚ) (returns : List ℚ) (targetVol : ℚ) (lookback : Nat) (maxLeverage : ℚ) :
    Except String (List ℚ) :=
  if returns = [] then .error "returns must be non-empty"
  else if targetVol ≤ 0 then .error "target_vol must be a finite number > 0"
  else if lookback < 2 then .error "lookback must be an int >= 2"
  else if maxLeverage ≤ 0 then .error "max_leverage must be a finite number > 0"
  else .ok ((List.range returns.length).map (volTargetAt sqrt returns targetVol lookback maxLeverage))

/- What a place reads. -/

variable {prices prices' : List ℚ} {k : Nat}

theorem channelAt_same (window : Nat) (agree : Agree (k + 1) prices prices') :
    channelAt prices window k = channelAt prices' window k := by
  unfold channelAt
  rw [agree.slice (Nat.le_refl _), agree.getD (Nat.lt_succ_self k)]

theorem momentumAt_same (lookback : Nat) (agree : Agree (k + 1) prices prices') :
    momentumAt prices lookback k = momentumAt prices' lookback k := by
  unfold momentumAt
  rw [agree.getD (Nat.lt_succ_self k), agree.getD (show k - lookback < k + 1 by omega)]

theorem smaAt_same (window : Nat) (agree : Agree (k + 1) prices prices') :
    smaAt prices window k = smaAt prices' window k := by
  unfold smaAt
  rw [agree.slice (Nat.le_refl _), agree.getD (Nat.lt_succ_self k)]

/-- A target reads the returns before it. -/
theorem volTargetAt_same {returns returns' : List ℚ} (sqrt : ℚ → ℚ) (targetVol : ℚ) (lookback : Nat) (maxLeverage : ℚ)
    (agree : Agree k returns returns') :
    volTargetAt sqrt returns targetVol lookback maxLeverage k = volTargetAt sqrt returns' targetVol lookback maxLeverage k := by
  unfold volTargetAt
  rw [agree.slice (Nat.le_refl _)]

theorem channelPosition_run {window : Nat} {cp : List ℚ} (run : channelPosition prices window = .ok cp) :
    2 ≤ prices.length ∧ 2 ≤ window ∧ cp = (List.range (prices.length - 1)).map (channelAt prices window) := by
  obtain ⟨valid, run⟩ := then_ok.mp run
  obtain ⟨windowed, run⟩ := then_ok.mp run
  injection run with same
  refine ⟨?_, ?_, same.symm⟩
  · unfold validatePrices at valid
    split at valid
    · cases valid
    · omega
  · unfold validateWindow at windowed
    split at windowed
    · cases windowed
    · omega

/-- Rows that are made of what a place reads agree as far as the closes do. -/
theorem rows_same {β : Type} {row row' : Nat → β} {n m : Nat} (same : ∀ i ≤ k, row i = row' i) (left : k < n) (right : k < m) :
    ((List.range n).map row)[k]? = ((List.range m).map row')[k]? :=
  (agree_rows (n := k + 1) (fun i before => same i (by omega)) left right).at_ (Nat.lt_succ_self k)

end Alpha
