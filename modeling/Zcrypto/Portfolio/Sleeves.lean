import Zcrypto.Alpha.Books

/- How the verified builder makes its sleeves: the benchmark's construction held against the combined system's, the first book
   at a weekly cadence, the arms of the second, and the daily books laid out on the four-hour calendar. -/
namespace Portfolio
open Alpha Prefixes Risk

/- The benchmark. -/

def basketAt (sqrt : ℚ → ℚ) (returns : Closes) (lookback t : Nat) : ℚ :=
  ((weightsAt sqrt returns lookback t).map fun item => item.2 * ((closesOf returns item.1).getD t none).getD 0).sum

def dynamicInverseVolBasket (sqrt : ℚ → ℚ) (prices : Closes) (lookback : Nat) : Except String (List ℚ) :=
  if lookback < 2 then .error "lookback must be an int >= 2"
  else if prices = [] then .error "prices_by_asset must be a non-empty dict of price series"
  else if prices.any fun item => item.2.any fun p => p.any (· ≤ 0) then
    .error "prices must be None or finite positive numbers"
  else if ((prices.map fun item => item.2.length).dedup).length ≠ 1 then .error "all price series must have equal length"
  else
    .ok ((List.range ((prices.head?.map fun item => item.2.length).getD 0 - 1)).map
      (basketAt sqrt (returnsOf prices) lookback))

def equityOf (basket : List ℚ) : List ℚ := basket.scanl (fun equity r => equity * (1 + r)) 1

structure CombinedSystemConfig where
  basketLookback : Nat
  gateWindow : Nat
  targetVolAnnual : ℚ
  volLookback : Nat
  maxLeverage : ℚ
  periodsPerYear : Nat
  spotFeePerSide : ℚ
  longCap : ℚ
  shortCap : ℚ
  governor : GovernorConfig
  deriving DecidableEq, Repr

def CombinedSystemConfig.costed (cost : ℚ) : CombinedSystemConfig :=
  ⟨30, 200, 1 / 10, 30, 1, 365, cost, 1 / 5, 1 / 10, .defaults⟩

/-- The basket, and the level at which each of its periods is held: gated on its own equity, at a volatility target. -/
def benchmarkLevels (sqrt : ℚ → ℚ) (c : CombinedSystemConfig) (prices : Closes) : Except String (List ℚ × List ℚ) := do
  let basket ← dynamicInverseVolBasket sqrt prices c.basketLookback
  let gate ← smaGate (equityOf basket) c.gateWindow
  let vt ← volTarget sqrt basket (c.targetVolAnnual / sqrt c.periodsPerYear) c.volLookback c.maxLeverage
  .ok (basket, List.zipWith (· * ·) gate vt)

/-- Each asset's share of a level. -/
def sharesOf (weights : List (List (String × ℚ))) (levels : List ℚ) (assets : List String) (rows : Nat) : Positions :=
  assets.map fun a => (a, (List.range rows).map fun k => weightOf (weights.getD k []) a * levels.getD k 0)

/-- A series less what its positions' changes cost, from a flat book on. -/
def netOfCostRows (positions : Positions) (gross : List ℚ) (fee : ℚ) : List ℚ :=
  sweep (fun (prev : List ℚ) (row : List ℚ × ℚ) =>
      (row.1, row.2 - (List.zipWith (fun p q => |p - q|) row.1 prev).sum * fee))
    (positions.map fun _ => 0) (((List.range gross.length).map (barAt positions)).zip gross)

structure CombinedSystemResult where
  netOfCost : List ℚ
  benchmarkNetOfCost : List ℚ
  cappedNetOfCost : List ℚ
  positions : Positions
  multipliers : List ℚ
  governor : GovernorResult
  capBreachBars : Nat
  nPeriods : Nat
  deriving DecidableEq, Repr

def buildCombinedSystem (sqrt : ℚ → ℚ) (c : CombinedSystemConfig) (prices : Closes) :
    Except String CombinedSystemResult :=
  if prices = [] then .error "prices_by_asset must be a non-empty dict"
  else if c.targetVolAnnual ≤ 0 then .error "target_vol_annual must be a finite number > 0"
  else if c.maxLeverage ≤ 0 then .error "max_leverage must be a finite number > 0"
  else if c.spotFeePerSide ≤ 0 then .error "spot_fee_per_side must be a finite number > 0"
  else if c.periodsPerYear < 1 then .error "periods_per_year must be an int >= 1"
  else do
    let (basket, l3) ← benchmarkLevels sqrt c prices
    let weights := inverseVolWeights sqrt prices c.basketLookback
    let n := basket.length
    let bench := sharesOf weights l3 (prices.map Prod.fst) n
    let benchGross := (List.range n).map fun k => l3.getD k 0 * basket.getD k 0
    let capped ← applyPositionCaps bench c.longCap c.shortCap
    let cappedGross := (List.range n).map fun k => (List.zipWith (fun item returns =>
      item.2.getD k 0 * ((returns.2.getD k none).getD 0)) capped (returnsOf prices)).sum
    let cappedNet := netOfCostRows capped cappedGross c.spotFeePerSide
    let gov ← drawdownGovernor c.governor cappedNet
    .ok ⟨gov.governedReturns, netOfCostRows bench benchGross c.spotFeePerSide, cappedNet,
      capped.map fun item => (item.1, (List.range n).map fun k => gov.multipliers.getD k 0 * item.2.getD k 0),
      gov.multipliers, gov,
      (List.range n).countP fun k => bench.any fun item => c.longCap < item.2.getD k 0 ∨ item.2.getD k 0 < -c.shortCap, n⟩

/-- The benchmark's sleeve, refused where its costs drift from the combined system's. -/
def sleeveB (sqrt : ℚ → ℚ) (cost : ℚ) (prices : Closes) (assets : List String) (rows : Nat) : Except String Positions := do
  let (basket, l3) ← benchmarkLevels sqrt (.costed cost) prices
  let daily := sharesOf (inverseVolWeights sqrt prices 30) l3 assets rows
  let noc := netOfCostRows daily ((List.range rows).map fun k => l3.getD k 0 * basket.getD k 0) cost
  let bench ← buildCombinedSystem sqrt (.costed cost) prices
  if (List.range rows).any fun k => 1 / 10 ^ 12 < |noc.getD k 0 - bench.benchmarkNetOfCost.getD k 0| then
    .error "B-sleeve QA failed: daily net-of-cost drifts from record 33's benchmark (> 1e-12)"
  else .ok daily

/- The first book's. -/

def a1Cadence : Nat := 7

/-- The day whose decision a day of a weekly block holds. -/
def blockStart (k offset : Nat) : Nat := if k < offset then 0 else offset + a1Cadence * ((k - offset) / a1Cadence)

def sleeveA1 (sqrt : ℚ → ℚ) (prices : Closes) (assets : List String) (rows : Nat) : Except String Positions := do
  let book ← a1BookReturns sqrt (.of .equalRiskBasket .ensemble .off (12 / 100)) prices (closesOf prices "BTC")
  .ok (assets.map fun a => (a, (List.range rows).map fun k =>
    mean ((List.range a1Cadence).map fun o => held book.assetPositions a (blockStart k o))))

/- The second book's. -/

def armConfig (arm : List Int × ℚ) : A2Config :=
  { A2Config.of (arm.1.map Int.toNat) .off arm.2 with volLookback := 180, basketLookback := 180, periodsPerYear := 2190 }

def sleeveA2 (sqrt : ℚ → ℚ) (arms : List (List Int × ℚ)) (prices : Closes) (assets : List String) (rows : Nat) :
    Except String Positions := do
  let books ← arms.mapM fun arm => a2BookReturns sqrt (armConfig arm) prices
  .ok (assets.map fun a => (a, (List.range rows).map fun k => mean (books.map fun book => held book.assetPositions a k)))

/- Days on the four-hour calendar. -/

/-- The daily row whose interval an end lies in, searched from the one before on. -/
def advance (dailyTs : List Int) (days : Nat) (k : Nat) (end_ : Int) : Nat :=
  k + ((List.range' k (days - k)).takeWhile fun i => dailyTs.getD (i + 1) 0 < end_).length

/-- The daily row of each intraday bar, none outside the daily book's life. -/
def dailyRows (dailyTs intradayTs : List Int) (days : Nat) : List (Option Nat) :=
  sweep (fun k end_ =>
      let row := advance dailyTs days k end_
      (row, if days ≤ row ∨ end_ ≤ dailyTs.getD row 0 then none else some row)) 0 intradayTs.tail

def expandDailyPositions (daily : Positions) (dailyTs intradayTs : List Int) : Except String Positions :=
  let days := (daily.head?.map fun item => item.2.length).getD 0
  if daily = [] then .error "daily_positions must be a non-empty dict"
  else if (daily.map fun item => item.2.length).dedup.length ≠ 1 then
    .error "daily_positions series must all have equal length"
  else if dailyTs.length ≠ days + 1 then .error "daily_ts must have length len(daily_positions) + 1"
  else if ¬ dailyTs.IsChain (· < ·) then .error "daily_ts must be strictly sorted ascending"
  else if ¬ intradayTs.IsChain (· < ·) then .error "intraday_ts must be strictly sorted ascending"
  else .ok (daily.map fun item => (item.1, (dailyRows dailyTs intradayTs days).map fun row =>
    (row.map fun k => item.2.getD k 0).getD 0))

/-- The sleeves of the verified path, on the grids with the bars that are forming. -/
def verifiedSleeves (sqrt : ℚ → ℚ) (c : CrossfreqSystemConfig) (d h : Grid) : Except String Sleeves := do
  let rowsD := d.ts.length - 1
  let rowsH := h.ts.length - 1
  let bDaily ← sleeveB sqrt c.costPerSide d.prices c.assets rowsD
  let a1Daily ← sleeveA1 sqrt (ffillBtc d).prices c.assets rowsD
  let a2 ← sleeveA2 sqrt c.a2Arms (ffillBtc h).prices c.assets rowsH
  let b ← expandDailyPositions bDaily (d.ts.map (· + 86400)) (h.ts.map (· + 14400))
  let a1 ← expandDailyPositions a1Daily (d.ts.map (· + 86400)) (h.ts.map (· + 14400))
  .ok ⟨b, a1, a2⟩

end Portfolio
