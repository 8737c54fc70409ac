import Mathlib.Algebra.BigOperators.Group.List.Basic
import Mathlib.Algebra.Order.Field.Rat
import Zcrypto.Risk.Limits

/- The drawdown ladder over a book's returns: a multiplier a bar from the equity before it, two timers and
   a high-water mark, and the same at the cadence of days. Numbers are exact. -/
namespace Risk

structure GovernorConfig where
  dailyLossLimit : ℚ
  dailyLossMultiplier : ℚ
  dailyLossCooldown : Nat
  ladder : List (ℚ × ℚ)
  restartAfter : Option Nat
  deriving DecidableEq, Repr

def GovernorConfig.defaults : GovernorConfig :=
  ⟨3 / 100, 1 / 2, 5, [(3 / 40, 1 / 2), (11 / 100, 1 / 4), (3 / 20, 0)], some 30⟩

structure GovernorResult where
  multipliers : List ℚ
  governedReturns : List ℚ
  dailyLossTriggers : Nat
  rungBars : List (ℚ × Nat)
  breaches : Nat
  rungTransitions : Nat
  deriving DecidableEq, Repr

/-- The rungs in order, each with a threshold above the one before. -/
def validateLadder : ℚ → List (ℚ × ℚ) → Except RiskError Unit
  | _, [] => .ok ()
  | previous, (threshold, multiplier) :: rest =>
    if threshold ≤ previous then .error "ladder thresholds must be finite, > 0, and strictly ascending"
    else if multiplier < 0 ∨ 1 < multiplier then .error "ladder multipliers must be finite numbers in [0, 1]"
    else validateLadder threshold rest

def validate (returns : List ℚ) (c : GovernorConfig) : Except RiskError Unit :=
  if returns = [] then .error "returns must be a non-empty list"
  else if returns.any fun r => r ≤ -1 then .error "returns must be finite numbers > -1"
  else if c.dailyLossLimit ≤ 0 then .error "daily_loss_limit must be a finite number > 0"
  else if c.dailyLossMultiplier < 0 ∨ 1 < c.dailyLossMultiplier then
    .error "daily_loss_multiplier must be a finite number in [0, 1]"
  else if c.dailyLossCooldown < 1 then .error "daily_loss_cooldown must be an int >= 1"
  else if c.ladder = [] then .error "ladder must be a non-empty tuple of (threshold, multiplier) pairs"
  else do
    validateLadder 0 c.ladder
    if c.restartAfter = some 0 then .error "restart_after must be None or an int >= 1" else .ok ()

/-- What the loop keeps from bar to bar. -/
structure Governor where
  equity : ℚ
  hwm : ℚ
  dailyLossTriggers : Nat
  breaches : Nat
  cooldownLeft : Nat
  flatLeft : Nat
  flatForever : Bool
  deriving DecidableEq, Repr

def Governor.start : Governor := ⟨1, 1, 0, 0, 0, 0, false⟩

def ladderMult (ladder : List (ℚ × ℚ)) (drawdown : ℚ) : ℚ :=
  ladder.foldl (fun mult rung => if drawdown ≥ rung.1 then rung.2 else mult) 1

section
variable (config : GovernorConfig)

/-- The ladder's multiplier before a bar. -/
def Governor.ladder (s : Governor) : ℚ := ladderMult config.ladder (1 - s.equity / s.hwm)

/-- The multiplier of the next bar, and the stand-down it begins. -/
def Governor.judge (s : Governor) : ℚ × Governor :=
  if s.flatForever ∨ s.flatLeft > 0 then (0, s)
  else if s.ladder config = 0 then
    (0, match config.restartAfter with
      | none => { s with breaches := s.breaches + 1, flatForever := true }
      | some bars => { s with breaches := s.breaches + 1, flatLeft := bars })
  else (min (s.ladder config) (if s.cooldownLeft > 0 then config.dailyLossMultiplier else 1), s)

/-- The bar's governed return booked, and the timers moved on. -/
def Governor.book (s : Governor) (g : ℚ) : Governor :=
  let equity := s.equity * (1 + g)
  if s.flatLeft > 0 then
    if s.flatLeft - 1 = 0 then { s with equity, flatLeft := 0, hwm := equity, cooldownLeft := 0 }
    else { s with equity, flatLeft := s.flatLeft - 1 }
  else if !s.flatForever then
    if g ≤ -config.dailyLossLimit then
      { s with
        equity
        hwm := max s.hwm equity
        dailyLossTriggers := s.dailyLossTriggers + 1
        cooldownLeft := config.dailyLossCooldown }
    else { s with equity, hwm := max s.hwm equity, cooldownLeft := s.cooldownLeft - 1 }
  else { s with equity }

def Governor.step (s : Governor) (r : ℚ) : Governor :=
  (s.judge config).2.book config ((s.judge config).1 * r)

/-- The multipliers of the bars, and what is kept after the last. -/
def Governor.bars : Governor → List ℚ → List ℚ × Governor
  | s, [] => ([], s)
  | s, r :: rest => ((s.judge config).1 :: (Governor.bars (s.step config r) rest).1,
      (Governor.bars (s.step config r) rest).2)

/-- One more bar at a multiplier. -/
def countRung (mult : ℚ) : List (ℚ × Nat) → List (ℚ × Nat)
  | [] => [(mult, 1)]
  | item :: rest => if item.1 = mult then (mult, item.2 + 1) :: rest else item :: countRung mult rest

def transitions (multipliers : List ℚ) : Nat := (multipliers.zip multipliers.tail).countP fun two => two.2 ≠ two.1

def drawdownGovernor (returns : List ℚ) : Except RiskError GovernorResult := do
  validate returns config
  let (multipliers, s) := Governor.bars config .start returns
  .ok ⟨multipliers, (multipliers.zip returns).map fun bar => bar.1 * bar.2, s.dailyLossTriggers,
    multipliers.foldl (fun counts mult => countRung mult counts) [], s.breaches, transitions multipliers⟩

/- Days. -/

/-- Each step of the day index is none or one. -/
def validateDays : List Int → Except RiskError Unit
  | first :: second :: rest =>
    if second < first then .error "day_index must be non-decreasing ints"
    else if second > first + 1 then .error "day_index must be contiguous (steps of 0 or 1)"
    else validateDays (second :: rest)
  | _ => .ok ()

def validateIntraday (intradayReturns : List ℚ) (dayIndex : List Int) : Except RiskError Unit :=
  if intradayReturns = [] then .error "intraday_returns must be a non-empty list"
  else if dayIndex.length ≠ intradayReturns.length then
    .error "day_index must be a list the same length as intraday_returns"
  else if intradayReturns.any fun r => r ≤ -1 then .error "intraday_returns must be finite numbers > -1"
  else if dayIndex.head?.any fun day => day < 0 then .error "day_index must start at an int >= 0"
  else validateDays dayIndex

/-- The days so far with their returns, and the day under way with what its bars compound to. -/
structure DayBook where
  closed : List (Int × ℚ)
  current : Option (Int × ℚ)
  deriving DecidableEq, Repr

def DayBook.add (b : DayBook) (bar : Int × ℚ) : DayBook :=
  match b.current with
  | none => { b with current := some (bar.1, 1 * (1 + bar.2)) }
  | some (day, compound) =>
    if bar.1 ≠ day then ⟨b.closed ++ [(day, compound - 1)], some (bar.1, 1 * (1 + bar.2))⟩
    else { b with current := some (day, compound * (1 + bar.2)) }

def DayBook.days (b : DayBook) : List (Int × ℚ) :=
  b.closed ++ b.current.toList.map fun item => (item.1, item.2 - 1)

/-- The days in order, each with its compounded return. -/
def daysOf (dayIndex : List Int) (intradayReturns : List ℚ) : List (Int × ℚ) :=
  ((dayIndex.zip intradayReturns).foldl DayBook.add ⟨[], none⟩).days

def dailyCadenceGovernor (intradayReturns : List ℚ) (dayIndex : List Int) : Except RiskError (List ℚ) := do
  validateIntraday intradayReturns dayIndex
  let days := daysOf dayIndex intradayReturns
  let gov ← drawdownGovernor config (days.map Prod.snd)
  let multByDay := (days.map Prod.fst).zip gov.multipliers
  dayIndex.mapM fun day => match multByDay.lookup day with
    | some mult => .ok mult
    | none => .error "KeyError"

end

end Risk
