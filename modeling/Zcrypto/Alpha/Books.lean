import Zcrypto.Alpha.Features
import Zcrypto.Portfolio.CrossfreqSystem
import Mathlib.Data.List.Dedup

/- The two books: directions for each asset on its own closes, weights by inverse volatility, and a volatility target on what
   they come to. Each position is for the move between two closes of the union calendar. -/
namespace Alpha
open Fallible Prefixes
open Portfolio (assetReturns)

abbrev Series := List (Option ℚ)

/-- Closes by asset, one for each bar of the union calendar. -/
abbrev Closes := List (String × Series)

def closesOf (prices : Closes) (asset : String) : Series := (prices.lookup asset).getD []

def ownPrices (prices : Series) : List ℚ := prices.filterMap id

/-- The bars an asset has. -/
def ownTs (prices : Series) : List Nat :=
  (List.range prices.length).filter fun k => (prices.getD k none).isSome

def mapToUnionIndex {β : Type} (ownTs : List Nat) (ownValues : List β) (unionTs : List Nat) : List (Option β) :=
  (List.range (unionTs.length - 1)).map fun k =>
    match ownTs.idxOf? (unionTs.getD k 0), ownTs.idxOf? (unionTs.getD (k + 1) 0) with
    | some j0, some j1 => if j1 = j0 + 1 then ownValues[j0]? else none
    | _, _ => none

def validatePricesByAsset (prices : Closes) : Except String Unit :=
  if prices = [] then .error "prices_by_asset must be a non-empty dict of price series"
  else if "BTC" ∉ prices.map Prod.fst then .error "prices_by_asset must include 'BTC'"
  else if prices.any fun item => item.2.any fun p => p.any (· ≤ 0) then
    .error "prices must be None or finite positive numbers"
  else if ((prices.map fun item => item.2.length).dedup).length ≠ 1 then .error "all price series must have equal length"
  else if (closesOf prices "BTC").any (·.isNone) then
    .error "BTC must have full coverage on the union calendar (no None gaps)"
  else .ok ()

/-- One asset's inverse volatility at a period it earns in, of the periods before it. -/
def inverseVolAt (sqrt : ℚ → ℚ) (lookback t : Nat) (returns : Series) : Option ℚ :=
  let window := slice returns (t - lookback) t
  if t < lookback ∨ (returns.getD t none).isNone ∨ window.any (·.isNone) then none
  else
    let vol := stdev sqrt (window.filterMap id)
    if 0 < vol then some (1 / vol) else none

/-- The weights of a period, brought to one. -/
def weightsAt (sqrt : ℚ → ℚ) (returns : Closes) (lookback t : Nat) : List (String × ℚ) :=
  let inverse := returns.filterMap fun item => (inverseVolAt sqrt lookback t item.2).map fun inv => (item.1, inv)
  let total := (inverse.map Prod.snd).sum
  inverse.map fun item => (item.1, item.2 / total)

def returnsOf (prices : Closes) : Closes := prices.map fun item => (item.1, assetReturns item.2)

def inverseVolWeights (sqrt : ℚ → ℚ) (prices : Closes) (lookback : Nat) : List (List (String × ℚ)) :=
  (List.range ((prices.head?.map fun item => item.2.length).getD 0 - 1)).map (weightsAt sqrt (returnsOf prices) lookback)

def weightOf (weights : List (String × ℚ)) (asset : String) : ℚ := (weights.lookup asset).getD 0

/-- What a book earns in a period before its volatility is targeted. -/
def baseReturnAt (weights : List (List (String × ℚ))) (directions returns : Closes) (k : Nat) : ℚ :=
  (List.zipWith (fun (d r : String × Series) =>
    match r.2.getD k none, d.2.getD k none with
    | some r, some direction => weightOf (weights.getD k []) d.1 * direction * r
    | _, _ => 0) directions returns).sum

/-- The refusals of a backtest without fees: what is short, what does not vary, what is lost whole. -/
def runBacktest (sqrt : ℚ → ℚ) (assetReturns positions : List ℚ) (periodsPerYear : Nat) : Except String (List ℚ) :=
  let net := List.zipWith (· * ·) positions assetReturns
  if assetReturns.length ≠ positions.length then .error "asset_returns and positions must match in length"
  else if assetReturns.length < 2 then .error "need >= 2 periods"
  else if periodsPerYear < 1 then .error "periods_per_year must be a positive int"
  else if stdev sqrt net = 0 then .error "degenerate backtest: returns have zero variance; Sharpe is undefined"
  else if net.any fun r => 1 + r ≤ 0 then .error "degenerate backtest: a period return <= -100% breaks the equity curve"
  else .ok net

structure BookResult where
  bookBaseReturns : List ℚ
  volTargetPositions : List ℚ
  assetPositions : List (String × List ℚ)
  netReturns : List ℚ
  deriving DecidableEq, Repr

/-- The part the two books share: the base returns, the target, the positions and the backtest. -/
def bookOf (sqrt : ℚ → ℚ) (targetVol : ℚ) (volLookback : Nat) (maxLeverage : ℚ) (periodsPerYear : Nat)
    (weights : List (List (String × ℚ))) (directions returns : Closes) (periods : Nat) : Except String BookResult := do
  let base := (List.range periods).map (baseReturnAt weights directions returns)
  let positions ← volTarget sqrt base (targetVol / sqrt periodsPerYear) volLookback maxLeverage
  let net ← runBacktest sqrt base positions periodsPerYear
  .ok ⟨base, positions, directions.map fun item => (item.1, (List.range periods).map fun k =>
    weightOf (weights.getD k []) item.1 * (item.2.getD k none).getD 0 * positions.getD k 0), net⟩

/- The second book: breakouts. -/

inductive Short where
  | off
  | on
  deriving DecidableEq, Repr

structure A2Config where
  lookbacks : List Nat
  short : Short
  targetVol : ℚ
  band : ℚ
  shortExposure : ℚ
  volLookback : Nat
  basketLookback : Nat
  maxLeverage : ℚ
  periodsPerYear : Nat
  deriving DecidableEq, Repr

def A2Config.of (lookbacks : List Nat) (short : Short) (targetVol : ℚ) : A2Config :=
  ⟨lookbacks, short, targetVol, 1, 1 / 2, 30, 30, 1, 365⟩

def A2Config.validate (c : A2Config) : Except String Unit :=
  if c.lookbacks = [] then .error "lookbacks must be a non-empty tuple of ints"
  else if c.lookbacks.any (· < 2) then .error "lookbacks element must be an int >= 2"
  else if c.targetVol ≤ 0 then .error "target_vol must be a finite number > 0"
  else if c.band ≤ 0 ∨ 1 < c.band then .error "band must be a finite number in (0, 1]"
  else if c.shortExposure ≤ 0 ∨ 1 < c.shortExposure then .error "short_exposure must be a finite number in (0, 1]"
  else if c.volLookback < 2 then .error "vol_lookback must be an int >= 2"
  else if c.basketLookback < 2 then .error "basket_lookback must be an int >= 2"
  else if c.maxLeverage ≤ 0 then .error "max_leverage must be a finite number > 0"
  else if c.periodsPerYear < 1 then .error "periods_per_year must be an int > 0"
  else .ok ()

/-- The state a close leaves: long at the channel's high, short at its low, held between. -/
def donchianStep (band held cp : ℚ) : ℚ := if band ≤ cp then 1 else if cp ≤ -band then -1 else held

def donchianSignal (prices : List ℚ) (window : Nat) (band : ℚ) : Except String (List ℚ) := do
  let cp ← channelPosition prices window
  .ok (sweep (fun held cp => (donchianStep band held cp, donchianStep band held cp)) 0 cp)

/-- The mean of what the lookbacks say of a period, clipped or scaled below zero. -/
def ensembleAt (c : A2Config) (mapped : List Series) (k : Nat) : Option ℚ :=
  let values := mapped.map fun m => m.getD k none
  if values.any (·.isNone) then none
  else
    let ensemble := mean (values.filterMap id)
    match c.short with
    | .off => some (max ensemble 0)
    | .on => some (if 0 ≤ ensemble then ensemble else ensemble * c.shortExposure)

def assetDirectionsA2 (c : A2Config) (prices : Closes) (unionTs : List Nat) : Except String Closes :=
  prices.mapM fun item => do
    let signals ← c.lookbacks.mapM fun w => donchianSignal (ownPrices item.2) w c.band
    let mapped := signals.map fun signal => mapToUnionIndex (ownTs item.2) signal unionTs
    .ok (item.1, (List.range (unionTs.length - 1)).map (ensembleAt c mapped))

def a2BookReturns (sqrt : ℚ → ℚ) (c : A2Config) (prices : Closes) : Except String BookResult := do
  c.validate
  validatePricesByAsset prices
  let length := (closesOf prices "BTC").length
  let directions ← assetDirectionsA2 c prices (List.range length)
  bookOf sqrt c.targetVol c.volLookback c.maxLeverage c.periodsPerYear (inverseVolWeights sqrt prices c.basketLookback)
    directions (returnsOf prices) (length - 1)

/- The first book: a gate on the market and agreement of the trends. -/

inductive Base where
  | btcOnly
  | equalRiskBasket
  deriving DecidableEq, Repr

inductive Regime where
  | singleGate
  | ensemble
  deriving DecidableEq, Repr

inductive Shorting where
  | off
  | confirmedBear
  deriving DecidableEq, Repr

structure A1Config where
  base : Base
  regime : Regime
  short : Shorting
  targetVol : ℚ
  gateWindow : Nat
  volLookback : Nat
  basketLookback : Nat
  trendLookbacks : List Nat
  shortExposure : ℚ
  shortBand : ℚ
  maxLeverage : ℚ
  periodsPerYear : Nat
  deriving DecidableEq, Repr

def A1Config.of (base : Base) (regime : Regime) (short : Shorting) (targetVol : ℚ) : A1Config :=
  ⟨base, regime, short, targetVol, 200, 30, 30, [20, 60, 120], 1 / 2, 0, 1, 365⟩

def A1Config.validate (c : A1Config) : Except String Unit :=
  if c.targetVol ≤ 0 then .error "target_vol must be a finite number > 0"
  else if c.gateWindow < 2 then .error "gate_window must be an int >= 2"
  else if c.volLookback < 2 then .error "vol_lookback must be an int >= 2"
  else if c.basketLookback < 2 then .error "basket_lookback must be an int >= 2"
  else if c.trendLookbacks = [] then .error "trend_lookbacks must be a non-empty tuple of ints"
  else if c.trendLookbacks.any (· < 2) then .error "trend_lookbacks element must be an int >= 2"
  else if c.shortExposure ≤ 0 ∨ 1 < c.shortExposure then .error "short_exposure must be a finite number in (0, 1]"
  else if c.shortBand < 0 ∨ 1 ≤ c.shortBand then .error "short_band must be a finite number in [0.0, 1.0)"
  else if c.maxLeverage ≤ 0 then .error "max_leverage must be a finite number > 0"
  else if c.periodsPerYear < 1 then .error "periods_per_year must be an int >= 1"
  else .ok ()

def bearAt (btcPrices : List ℚ) (window : Nat) (band : ℚ) (k : Nat) : ℚ :=
  if k + 1 < window then 0
  else if btcPrices.getD k 0 < mean (slice btcPrices (k + 1 - window) (k + 1)) * (1 - band) then 1
  else 0

def btcMarketBear (btcPrices : List ℚ) (window : Nat) (band : ℚ) : List ℚ :=
  (List.range (btcPrices.length - 1)).map (bearAt btcPrices window band)

/-- An asset's direction over a period, none where either of its closes is missing. -/
def directionAt (c : A1Config) (gate bear agreement : Series) (prices : Series) (k : Nat) : Option ℚ :=
  if (prices.getD k none).isNone ∨ (prices.getD (k + 1) none).isNone then none
  else
    let gated := (gate.getD k none).getD 0
    let down := (bear.getD k none).getD 0
    let trend := (agreement.getD k none).getD 0
    if gated = 1 ∧ (c.regime = .singleGate ∨ 0 < trend) then some 1
    else if c.short = .confirmedBear ∧ down = 1 ∧ trend < 0 then some (-c.shortExposure)
    else some 0

def assetDirections (c : A1Config) (prices : Closes) (btcPrices : List ℚ) (unionTs : List Nat) : Except String Closes := do
  let gateOwn ← smaGate btcPrices c.gateWindow
  let gate := mapToUnionIndex unionTs gateOwn unionTs
  let bear := mapToUnionIndex unionTs (btcMarketBear btcPrices c.gateWindow c.shortBand) unionTs
  prices.mapM fun item => do
    let own ← trendAgreement (ownPrices item.2) c.trendLookbacks
    let agreement := mapToUnionIndex (if item.1 = "BTC" then unionTs else ownTs item.2) own unionTs
    .ok (item.1, (List.range (unionTs.length - 1)).map (directionAt c gate bear agreement item.2))

def validateBtcPrices (btcPrices : Series) (prices : Closes) : Except String Unit :=
  if btcPrices.length ≠ (closesOf prices "BTC").length then .error "btc_prices must be a list of the union length"
  else if btcPrices.any fun p => p.all (· ≤ 0) then .error "btc_prices must be finite positive numbers"
  else if btcPrices ≠ closesOf prices "BTC" then .error "btc_prices must equal prices_by_asset['BTC'] element-for-element"
  else .ok ()

def a1BookReturns (sqrt : ℚ → ℚ) (c : A1Config) (prices : Closes) (btcPrices : Series) : Except String BookResult := do
  c.validate
  validatePricesByAsset prices
  validateBtcPrices btcPrices prices
  let length := (closesOf prices "BTC").length
  let working := match c.base with
    | .btcOnly => [("BTC", closesOf prices "BTC")]
    | .equalRiskBasket => prices
  let directions ← assetDirections c working (ownPrices btcPrices) (List.range length)
  let weights := match c.base with
    | .btcOnly => (assetReturns (closesOf prices "BTC")).map fun r => if r.isSome then [("BTC", 1)] else []
    | .equalRiskBasket => inverseVolWeights sqrt working c.basketLookback
  bookOf sqrt c.targetVol c.volLookback c.maxLeverage c.periodsPerYear weights directions (returnsOf working) (length - 1)

end Alpha
