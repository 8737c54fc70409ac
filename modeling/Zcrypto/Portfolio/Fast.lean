import Zcrypto.Trailing
import Zcrypto.Portfolio.Sleeves

/- The fast path's sleeves: the same figures from sums that are kept as windows move on, over whole numbers at a common
   denominator, and from arrays where nothing is known marks a place without a value. -/
namespace Portfolio
open Alpha Prefixes Risk

/- Exact sums. -/

/-- A denominator of each of the numbers; the shift of the largest power of two where they are floats. -/
def commonDen (values : List ℚ) : Nat := values.foldl (fun den v => Nat.lcm den v.den) 1

def scaled (den : Nat) (v : ℚ) : Int := v.num * (den / v.den : Nat)

def exactMean (values : List ℚ) : ℚ :=
  let den := commonDen values
  (values.map (scaled den)).sum / (values.length * den)

/-- What a window's deviation is made of: its sum, its squares' sum, and how many of its places have no value. -/
structure Sums where
  sum : Int
  squares : Int
  nones : Int
  deriving DecidableEq, Repr

def Sums.drop (s : Sums) : Option Int → Sums
  | none => { s with nones := s.nones - 1 }
  | some x => { s with sum := s.sum - x, squares := s.squares - x * x }

def Sums.add (s : Sums) : Option Int → Sums
  | none => { s with nones := s.nones + 1 }
  | some x => { s with sum := s.sum + x, squares := s.squares + x * x }

/-- The deviation of the window before each place, none in the warm-up and where a place of it has no value. -/
def trailingStdevs (sqrt : ℚ → ℚ) (values : Series) (lookback : Nat) : Series :=
  let den := commonDen (values.filterMap id)
  let q := values.map (Option.map (scaled den))
  if values.all (·.isNone) then List.replicate values.length none
  else
    sweep (fun (s : Sums) t =>
        let left := if lookback ≤ t then s.drop (q.getD (t - lookback) none) else s
        (left.add (q.getD t none),
          if lookback ≤ t ∧ s.nones = 0 then
            some (sqrt ((lookback * s.squares - s.sum * s.sum : Int) / (lookback * (lookback - 1) * den * den)))
          else none))
      ⟨0, 0, 0⟩ (List.range values.length)

def rollingSma (prices : List ℚ) (window : Nat) : Series :=
  let den := commonDen prices
  let q := prices.map (scaled den)
  sweep (fun (sum : Int) k =>
      let sum := sum + q.getD k 0
      let sum := if window ≤ k then sum - q.getD (k - window) 0 else sum
      (sum, if window ≤ k + 1 then some (sum / (window * den)) else none))
    0 (List.range (prices.length - 1))

/- Arrays. -/

def channelFast (own : List ℚ) (window k : Nat) : ℚ :=
  if own.length - 1 < window ∨ k < window - 1 then 0
  else
    let w := slice own (k - (window - 1)) (k - (window - 1) + window)
    if lowest w < highest w then 2 * (own.getD k 0 - lowest w) / (highest w - lowest w) - 1 else 0

def trigger (band cp : ℚ) : ℚ := if band ≤ cp then 1 else if cp ≤ -band then -1 else 0

/-- The place of the last breakout through each, below zero before the first. -/
def lastTriggers (triggers : List ℚ) : List Int :=
  sweep (fun (last : Int) k =>
      let now := max last (if triggers.getD k 0 ≠ 0 then (k : Int) else -1)
      (now, now)) (-1) (List.range triggers.length)

def donchianHeld (own : List ℚ) (window : Nat) (band : ℚ) : Except String (List ℚ) :=
  if own = [] then .error "negative dimensions are not allowed"
  else
    let triggers := (List.range (own.length - 1)).map fun k => trigger band (channelFast own window k)
    .ok ((lastTriggers triggers).map fun i => if 0 ≤ i then triggers.getD (max i 0).toNat 0 else 0)

/-- A value of an asset's own for each move both of whose closes are there. -/
def mapOwnToUnion (ownValues : List ℚ) (present : List Bool) : Series :=
  (List.range (present.length - 1)).map fun k =>
    if present.getD k false && present.getD (k + 1) false then ownValues[(present.take (k + 1)).count true - 1]? else none

structure WeightArrays where
  weights : List (String × List ℚ)
  returns : Closes
  deriving DecidableEq, Repr

def WeightArrays.weight (w : WeightArrays) (a : String) (k : Nat) : ℚ := held w.weights a k

def WeightArrays.ret (w : WeightArrays) (a : String) (k : Nat) : Option ℚ := (closesOf w.returns a).getD k none

/-- One over a volatility above zero, of a period that has a return. -/
def inverseOf (ret vol : Option ℚ) : ℚ :=
  match ret, vol with
  | some _, some vol => if 0 < vol then 1 / vol else 0
  | _, _ => 0

def inverseVolWeightArrays (sqrt : ℚ → ℚ) (returns : Closes) (lookback : Nat) : WeightArrays :=
  let n := (returns.head?.map fun item => item.2.length).getD 0
  let inverse := returns.map fun item =>
    let vols := trailingStdevs sqrt item.2 lookback
    (item.1, (List.range n).map fun t => inverseOf (item.2.getD t none) (vols.getD t none))
  let total : List ℚ := (List.range n).map fun t => (inverse.map fun item => item.2.getD t 0).sum
  ⟨inverse.map fun item => (item.1, (List.range n).map fun t =>
    if 0 < item.2.getD t 0 then item.2.getD t 0 / (if 0 < total.getD t 0 then total.getD t 0 else 1) else 0), returns⟩

def volTargetPositions (rv : Series) (targetVol maxLeverage : ℚ) : List ℚ :=
  rv.map fun vol => match vol with
    | none => 0
    | some vol => if 0 < vol then min (targetVol / vol) maxLeverage else 0

/-- One where a close is above its average. -/
def gateFast (prices : List ℚ) (window : Nat) : List ℚ :=
  (List.range (prices.length - 1)).map fun k =>
    match (rollingSma prices window).getD k none with
    | none => 0
    | some average => if average < prices.getD k 0 then 1 else 0

/- The sleeves. -/

/-- The returns of the assets that are traded. -/
def returnsFor (prices : Closes) (assets : List String) : Closes := assets.map fun a => (a, assetReturns (closesOf prices a))

def bDailyFast (sqrt : ℚ → ℚ) (prices : Closes) (assets : List String) : Positions :=
  let w := inverseVolWeightArrays sqrt (returnsFor prices assets) 30
  let n := ((returnsFor prices assets).head?.map fun item => item.2.length).getD 0
  let basket := (List.range n).map fun k =>
    (assets.map fun a => if 0 < w.weight a k then w.weight a k * (w.ret a k).getD 0 else 0).sum
  let gate := gateFast (equityOf basket) 200
  let vt := volTargetPositions (trailingStdevs sqrt (basket.map some) 30) (1 / 10 / sqrt 365) 1
  let l3 := List.zipWith (· * ·) gate vt
  assets.map fun a => (a, (List.range n).map fun k => w.weight a k * l3.getD k 0)

def momentumFast (own : List ℚ) (lookback k : Nat) : ℚ :=
  if lookback < own.length - 1 ∧ lookback ≤ k then own.getD k 0 / own.getD (k - lookback) 0 - 1 else 0

/-- The trends' agreement on the union calendar. -/
def agreementFast (prices : Series) : Except String Series :=
  let own := ownPrices prices
  if own = [] then .error "negative dimensions are not allowed"
  else
    .ok (mapOwnToUnion ((List.range (own.length - 1)).map fun k =>
      ([20, 60, 120].map fun lookback => sign (momentumFast own lookback k)).sum / 3) (prices.map (·.isSome)))

/-- What a book earns before its volatility is targeted, of its weights and directions. -/
def bookFast (w : WeightArrays) (directions : Closes) (assets : List String) (n : Nat) : List ℚ :=
  (List.range n).map fun k => (assets.map fun a =>
    match w.ret a k with
    | none => 0
    | some r => w.weight a k * ((closesOf directions a).getD k none).getD 0 * r).sum

def positionsFast (w : WeightArrays) (directions : Closes) (pos : List ℚ) (assets : List String) (n : Nat) : Positions :=
  assets.map fun a => (a, (List.range n).map fun k =>
    w.weight a k * (match w.ret a k with
      | none => 0
      | some _ => ((closesOf directions a).getD k none).getD 0) * pos.getD k 0)

def a1PositionsFast (sqrt : ℚ → ℚ) (prices : Closes) (assets : List String) : Except String Positions := do
  let btc := closesOf prices "BTC"
  let n := btc.length - 1
  if btc.any (·.isNone) then .error "'NoneType' object has no attribute 'as_integer_ratio'"
  else
    let gate := gateFast (ownPrices btc) 200
    let w := inverseVolWeightArrays sqrt (returnsFor prices assets) 30
    let directions ← assets.mapM fun a => do
      let ta ← agreementFast (closesOf prices a)
      .ok (a, (List.range n).map fun k =>
        (w.ret a k).map fun _ => if gate.getD k 0 = 1 ∧ (ta.getD k none).any (0 < ·) then (1 : ℚ) else 0)
    let rv := trailingStdevs sqrt ((bookFast w directions assets n).map some) 30
    .ok (positionsFast w directions (volTargetPositions rv (12 / 100 / sqrt 365) 1) assets n)

/-- The sum of the signals, none where one is none. -/
def signalSum (signals : List Series) (k : Nat) : Option ℚ :=
  match signals with
  | [] => none
  | first :: rest => rest.foldl (fun ens signal => ens.bind fun e => (signal.getD k none).map fun s => e + s) (first.getD k none)

def a2DirectionsFast (prices : Closes) (assets : List String) (lookbacks : List Nat) (n : Nat) : Except String Closes :=
  assets.mapM fun a => do
    let signals ← lookbacks.mapM fun w => donchianHeld (ownPrices (closesOf prices a)) w 1
    let mapped := signals.map fun signal => mapOwnToUnion signal ((closesOf prices a).map (·.isSome))
    .ok (a, (List.range n).map fun k => (signalSum mapped k).map fun e => max (e / lookbacks.length) 0)

/-- What arms of the same lookbacks share: their directions, and the deviation of what they earn. -/
structure Shared where
  directions : Closes
  rv : Series
  deriving DecidableEq, Repr

def sharedFor (sqrt : ℚ → ℚ) (prices : Closes) (assets : List String) (w : WeightArrays) (n : Nat) (lookbacks : List Nat) :
    Except String Shared := do
  let directions ← a2DirectionsFast prices assets lookbacks n
  .ok ⟨directions, trailingStdevs sqrt ((bookFast w directions assets n).map some) 180⟩

/-- Each lookbacks' share, made at the first arm that has them. -/
def shareByLookbacks (sqrt : ℚ → ℚ) (prices : Closes) (assets : List String) (w : WeightArrays) (n : Nat) :
    List (List Nat × Shared) → List (List Nat) → Except String (List (List Nat × Shared))
  | made, [] => .ok made
  | made, lookbacks :: rest =>
    if lookbacks ∈ made.map Prod.fst then shareByLookbacks sqrt prices assets w n made rest
    else do
      let share ← sharedFor sqrt prices assets w n lookbacks
      shareByLookbacks sqrt prices assets w n (made ++ [(lookbacks, share)]) rest

def a2ArmPositionsFast (sqrt : ℚ → ℚ) (prices : Closes) (assets : List String) (arms : List (List Int × ℚ)) :
    Except String (List Positions) := do
  let n := ((returnsFor prices assets).head?.map fun item => item.2.length).getD 0
  let w := inverseVolWeightArrays sqrt (returnsFor prices assets) 180
  let shares ← shareByLookbacks sqrt prices assets w n [] (arms.map fun arm => arm.1.map Int.toNat)
  arms.mapM fun arm =>
    match shares.lookup (arm.1.map Int.toNat) with
    | none => .error "KeyError"
    | some share =>
      .ok (positionsFast w share.directions (volTargetPositions share.rv (arm.2 / sqrt 2190) 1) assets n)

/-- The sleeves of the fast path, on the grids with the bars that are forming. -/
def fastSleeves (sqrt : ℚ → ℚ) (c : CrossfreqSystemConfig) (d h : Grid) : Except String Sleeves := do
  let rowsD := d.ts.length - 1
  let rowsH := h.ts.length - 1
  let bDaily := bDailyFast sqrt d.prices c.assets
  let a1 ← a1PositionsFast sqrt (ffillBtc d).prices c.assets
  let a1Daily := c.assets.map fun a => (a, (List.range rowsD).map fun k =>
    exactMean ((List.range a1Cadence).map fun o => held a1 a (blockStart k o)))
  let arms ← a2ArmPositionsFast sqrt (ffillBtc h).prices c.assets c.a2Arms
  let a2 := c.assets.map fun a => (a, (List.range rowsH).map fun k => exactMean (arms.map fun arm => held arm a k))
  let b ← expandDailyPositions bDaily (d.ts.map (· + 86400)) (h.ts.map (· + 14400))
  let a1 ← expandDailyPositions a1Daily (d.ts.map (· + 86400)) (h.ts.map (· + 14400))
  .ok ⟨b, a1, a2⟩

end Portfolio
