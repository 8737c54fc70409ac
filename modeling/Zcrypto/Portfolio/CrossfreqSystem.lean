import Zcrypto.Fallible
import Zcrypto.Risk.Governor

/- The cross-frequency system from its sleeves on: the combination, the caps, the whole-book limits, the costs
   and the governor. How a sleeve makes its positions is a parameter, which the two builders fill each its own
   way; amounts are exact. -/
namespace Portfolio
open Risk

structure CrossfreqSystemConfig where
  assets : List String
  feePerSide : ℚ
  spreadPerSide : ℚ
  longCap : ℚ
  shortCap : ℚ
  a2Arms : List (List Int × ℚ)
  governor : GovernorConfig
  deriving DecidableEq, Repr

def CrossfreqSystemConfig.defaults : CrossfreqSystemConfig :=
  ⟨["ADA", "AVAX", "BTC", "DOGE", "DOT", "ETH", "LINK", "LTC", "SOL", "XRP"], 4 / 1000, 2 / 1000, 1 / 5, 1 / 10,
    [([20, 50, 100], 12 / 100), ([60, 120, 240], 10 / 100), ([60, 120, 240], 12 / 100)], .defaults⟩

def CrossfreqSystemConfig.costPerSide (c : CrossfreqSystemConfig) : ℚ := c.feePerSide + c.spreadPerSide

def validateConfig (c : CrossfreqSystemConfig) : Except String Unit :=
  if c.assets = [] ∨ ¬ c.assets.Nodup then .error "assets must be a non-empty tuple of unique names"
  else if "" ∈ c.assets then .error "assets must be non-empty strings"
  else if "BTC" ∉ c.assets then
    .error "assets must include 'BTC' (the A-sleeve books and the ffill feed require it)"
  else if c.feePerSide ≤ 0 then .error "fee_per_side must be a finite number > 0"
  else if c.longCap ≤ 0 then .error "long_cap must be a finite number > 0"
  else if c.shortCap ≤ 0 then .error "short_cap must be a finite number > 0"
  else if c.spreadPerSide < 0 then .error "spread_per_side must be a finite number >= 0"
  else if c.a2Arms = [] then .error "a2_arms must be a non-empty tuple of (lookbacks, target_vol) pairs"
  else if c.a2Arms.any fun arm => arm.1.isEmpty || arm.1.any (· < 2) then
    .error "a2 arm lookbacks must be a non-empty tuple of ints >= 2"
  else if c.a2Arms.any fun arm => arm.2 ≤ 0 then .error "a2 arm target_vol must be a finite number > 0"
  else .ok ()

/-- Closes by asset on one calendar of bar starts, in seconds. -/
structure Grid where
  prices : List (String × List (Option ℚ))
  ts : List Int
  deriving DecidableEq, Repr

def Grid.closes (g : Grid) (asset : String) : List (Option ℚ) := (g.prices.lookup asset).getD []

def validateGrid (name : String) (g : Grid) (assets : List String) : Except String Unit :=
  if g.prices = [] then .error s!"{name}_prices must be a non-empty dict"
  else if ¬ (g.prices.map Prod.fst).Perm assets then .error s!"{name}_prices keys must equal config.assets"
  else if g.ts.length < 2 then .error s!"{name}_ts must be a list of >= 2 bar-start stamps"
  else if ¬ g.ts.IsChain (· < ·) then .error s!"{name}_ts must be strictly sorted ascending"
  else if assets.any fun a => (g.closes a).length ≠ g.ts.length then
    .error s!"{name}_prices must be lists of one close per stamp"
  else if assets.any fun a => (g.closes a).any fun close => close.any (· ≤ 0) then
    .error s!"{name}_prices must be None or a finite positive number"
  else .ok ()

def dummyClose (series : List (Option ℚ)) : Option ℚ := series.getLast?.join

/-- The grid with the bar that is forming, its close made up. -/
def Grid.extended (g : Grid) (assets : List String) (step : Int) : Grid :=
  ⟨assets.map fun a => (a, g.closes a ++ [dummyClose (g.closes a)]), g.ts ++ [g.ts.getLastD 0 + step]⟩

def ffillFrom (last : Option ℚ) : List (Option ℚ) → List (Option ℚ)
  | [] => []
  | none :: rest => last :: ffillFrom last rest
  | some value :: rest => some value :: ffillFrom (some value) rest

def ffillBtc (g : Grid) : Grid :=
  { g with prices := g.prices.map fun item => if item.1 = "BTC" then (item.1, ffillFrom none item.2) else item }

def assetReturns : List (Option ℚ) → List (Option ℚ)
  | some price :: some next :: rest => some (next / price - 1) :: assetReturns (some next :: rest)
  | _ :: next :: rest => none :: assetReturns (next :: rest)
  | _ => []

/-- The returns the book is costed on, none as nothing. -/
def retH (h : Grid) (assets : List String) : Positions :=
  assets.map fun a => (a, (assetReturns ((ffillBtc h).closes a)).map (·.getD 0))

/-- What a book holds of an asset over a bar. -/
def held (positions : Positions) (asset : String) (k : Nat) : ℚ := ((positions.lookup asset).getD []).getD k 0

structure Sleeves where
  b : Positions
  a1 : Positions
  a2 : Positions
  deriving DecidableEq, Repr

/-- Each sleeve has a value for each asset and row that is read of it. -/
def Sleeves.covers (s : Sleeves) (assets : List String) (rows : Nat) : Bool :=
  [s.b, s.a1, s.a2].all fun sleeve => assets.all fun a => rows ≤ ((sleeve.lookup a).getD []).length

def combine (s : Sleeves) (assets : List String) (rows : Nat) : Except String Positions :=
  if s.covers assets rows then
    .ok <| assets.map fun a => (a, (List.range rows).map fun k =>
      1 / 3 * held s.b a k + 1 / 3 * held s.a1 a k + 1 / 3 * held s.a2 a k)
  else .error "IndexError"

def applyPositionCaps (positions : Positions) (longCap shortCap : ℚ) : Except RiskError Positions :=
  if positions = [] then .error "positions must be a non-empty dict"
  else if longCap ≤ 0 then .error "long_cap must be a finite number > 0"
  else if shortCap ≤ 0 then .error "short_cap must be a finite number > 0"
  else do
    validatePositions positions
    .ok <| positions.map fun item =>
      (item.1, item.2.map fun p => if 0 ≤ p then min p longCap else max p (-shortCap))

/-- A bar whose caps took something off. -/
def breached (assets : List String) (capped combined : Positions) (k : Nat) : Bool :=
  assets.any fun a => 1 / 10 ^ 15 < |held capped a k - held combined a k|

/-- What a bar's loop over the assets keeps: the gross return, the turnover, and each asset's last position. -/
structure Costing where
  gross : ℚ
  turnover : ℚ
  prev : String → ℚ

def Costing.add (limited ret : Positions) (k : Nat) (s : Costing) (a : String) : Costing :=
  let p := held limited a k
  ⟨s.gross + p * held ret a k, s.turnover + |p - s.prev a|, Function.update s.prev a p⟩

def nocFrom (limited ret : Positions) (assets : List String) (cost : ℚ) : List Nat → (String → ℚ) → List ℚ
  | [], _ => []
  | k :: later, prev =>
    let s := assets.foldl (Costing.add limited ret k) ⟨0, 0, prev⟩
    (s.gross - s.turnover * cost) :: nocFrom limited ret assets cost later s.prev

/-- The rank of each day among the days met so far. -/
def dayRanks (seen : List Int) : List Int → List Int
  | [] => []
  | day :: rest =>
    if day ∈ seen then (seen.idxOf day : Int) :: dayRanks seen rest
    else (seen.length : Int) :: dayRanks (seen ++ [day]) rest

structure CrossfreqSystemResult where
  finalTargets : Positions
  governedNet : List ℚ
  ungovernedNet : List ℚ
  multipliers : List ℚ
  sleevePositions : Sleeves
  capBreachBars : Nat
  governorEngagedBars : Nat
  dayIndex : List Int
  nPeriods : Nat
  deriving DecidableEq, Repr

/-- A builder, at what it makes of the extended grids for sleeves. -/
def buildCrossfreqSystem (sleevesOf : CrossfreqSystemConfig → Grid → Grid → Except String Sleeves)
    (daily h4 : Grid) (c : CrossfreqSystemConfig) : Except String CrossfreqSystemResult := do
  validateConfig c
  validateGrid "daily" daily c.assets
  validateGrid "h4" h4 c.assets
  let d := daily.extended c.assets 86400
  let h := h4.extended c.assets 14400
  let nPeriods := h4.ts.length - 1
  let nRows := h.ts.length - 1
  let ret := retH h c.assets
  let sleeves ← sleevesOf c d h
  let combined ← combine sleeves c.assets nRows
  let capped ← applyPositionCaps combined c.longCap c.shortCap
  let limited ← applyWholeBookLimits capped
  let noc := nocFrom limited ret c.assets c.costPerSide (List.range nPeriods) fun _ => 0
  let dayIndex := dayRanks [] (h.ts.tail.map (· / 86400))
  let multipliers ← dailyCadenceGovernor c.governor (noc ++ [0]) dayIndex
  .ok ⟨c.assets.map fun a => (a, (List.range nRows).map fun k => multipliers.getD k 0 * held limited a k),
    (List.range nPeriods).map fun k => multipliers.getD k 0 * noc.getD k 0, noc, multipliers, sleeves,
    (List.range nPeriods).countP (breached c.assets capped combined),
    (multipliers.take nPeriods).countP (· < 1), dayIndex, nPeriods⟩

end Portfolio
