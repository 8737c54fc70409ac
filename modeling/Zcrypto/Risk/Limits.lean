import Mathlib.Algebra.BigOperators.Group.List.Basic
import Mathlib.Algebra.Order.Field.Rat
import Mathlib.Order.WithBot
import Mathlib.Tactic.FieldSimp
import Mathlib.Tactic.Linarith

/- The limits on a whole book, each of which scales a bar that breaches it. Amounts are exact, and a bar is
   what the assets hold at one place of their series. -/
namespace Risk

abbrev RiskError := String

/-- The assets' series, each of one value a bar. -/
abbrev Positions := List (String × List ℚ)

def validatePositions (positions : Positions) : Except RiskError Unit :=
  if positions = [] then .error "positions must be a non-empty dict"
  else if positions.any fun item => item.2.isEmpty then .error "positions must be a non-empty list"
  else if (positions.map fun item => item.2.length).dedup.length ≠ 1 then
    .error "all assets must have equal-length series"
  else .ok ()

def barAt (positions : Positions) (k : Nat) : List ℚ := positions.map fun item => item.2.getD k 0

/-- How many bars the first asset's series has. -/
def barsOf (positions : Positions) : Nat := (positions.head?.map fun item => item.2.length).getD 0

def scaleBar (k : Nat) (factor : ℚ) (positions : Positions) : Positions :=
  positions.map fun item => (item.1, item.2.modify k (· * factor))

/-- One bar after the other, scaled where the limit has a factor for it. -/
def scaleEach (factorOf : List ℚ → Option ℚ) (positions : Positions) : Positions :=
  (List.range (barsOf positions)).foldl (fun out k => match factorOf (barAt out k) with
    | some factor => scaleBar k factor out
    | none => out) positions

/- What one bar comes to. -/

def grossOf (bar : List ℚ) : ℚ := (bar.map fun w => |w|).sum
def netOf (bar : List ℚ) : ℚ := bar.sum
def longGross (bar : List ℚ) : ℚ := (bar.filter fun w => 0 < w).sum
def shortGross (bar : List ℚ) : ℚ := -(bar.filter fun w => w < 0).sum

/-- The margin that one bar uses: shorts in full, and longs beyond the cash the shorts leave. -/
def marginUsed (long short : ℚ) : ℚ := short + max 0 (long - max 0 (1 - short))

def marginLevel (bar : List ℚ) : WithTop ℚ :=
  let used := marginUsed (longGross bar) (shortGross bar)
  if used = 0 then ⊤ else ((1 / used : ℚ) : WithTop ℚ)

def marginFloorScale (long short floor : ℚ) : ℚ :=
  let t := 1 / floor
  if t * (long + short) ≤ short then t / short else (1 + t) / (long + 2 * short)

/- The factor of a bar that breaches a limit. -/

def grossFactor (softCap : ℚ) (bar : List ℚ) : Option ℚ :=
  if grossOf bar > softCap then some (softCap / grossOf bar) else none

def netFactor (shortBound longBound : ℚ) (bar : List ℚ) : Option ℚ :=
  if netOf bar > longBound then some (longBound / netOf bar)
  else if netOf bar < shortBound then some (shortBound / netOf bar)
  else none

def marginFactor (floor : ℚ) (bar : List ℚ) : Option ℚ :=
  let used := marginUsed (longGross bar) (shortGross bar)
  if used = 0 ∨ 1 / used ≥ floor then none
  else some (marginFloorScale (longGross bar) (shortGross bar) floor)

/- The limits. -/

def applyGrossLeverageCap (softCap hardCap : ℚ) (positions : Positions) : Except RiskError Positions := do
  validatePositions positions
  if softCap ≤ 0 then .error "soft_cap must be a finite number > 0"
  else if hardCap ≤ 0 then .error "hard_cap must be a finite number > 0"
  else if softCap > hardCap then .error "soft_cap must be <= hard_cap"
  else .ok (scaleEach (grossFactor softCap) positions)

def applyNetExposureBand (shortBound longBound : ℚ) (positions : Positions) : Except RiskError Positions := do
  validatePositions positions
  if shortBound ≥ 0 then .error "short_bound must be a finite number < 0"
  else if longBound ≤ 0 then .error "long_bound must be a finite number > 0"
  else .ok (scaleEach (netFactor shortBound longBound) positions)

def applyMarginFloor (floor : ℚ) (positions : Positions) : Except RiskError Positions := do
  validatePositions positions
  if floor < 1 then .error "floor must be a finite number >= 1"
  else .ok (scaleEach (marginFactor floor) positions)

def softCap : ℚ := 3 / 2
def hardCap : ℚ := 2
def shortBound : ℚ := -1 / 2
def longBound : ℚ := 1
def marginFloor : ℚ := 5 / 2

def applyWholeBookLimits (capped : Positions) : Except RiskError Positions := do
  let gross ← applyGrossLeverageCap softCap hardCap capped
  let net ← applyNetExposureBand shortBound longBound gross
  applyMarginFloor marginFloor net

/-- A bar that breaches none of the limits. -/
structure Within (bar : List ℚ) : Prop where
  gross : grossOf bar ≤ softCap
  low : shortBound ≤ netOf bar
  high : netOf bar ≤ longBound
  level : (marginFloor : WithTop ℚ) ≤ marginLevel bar

end Risk
