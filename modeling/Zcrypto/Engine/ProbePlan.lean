import Mathlib.Data.Rat.Floor

/- Instants, boundaries and the probe plan: what a plan document asks for and
   why one is refused. An instant counts microseconds and a boundary whole
   hours, both from the epoch in UTC. Amounts are exact rationals. -/
namespace ProbePlans

abbrev PlanId := String
abbrev OrderId := String

def second : Int := 1000000
def minute : Int := 60 * second
def hour : Int := 60 * minute
def hoursPerDay : Int := 24
def boundaryHours : Int := 4

def instantOf (b : Int) : Int := b * hour
def hourOf (now : Int) : Int := now / hour
def dayOf (now : Int) : Int := hourOf now / hoursPerDay
def dayOfBoundary (b : Int) : Int := b / hoursPerDay

/- `_boundary`: the most recent 00/04/08/12/16/20 UTC boundary at or before `now`. -/
def boundaryAt (now : Int) : Int := hourOf now - hourOf now % boundaryHours

inductive Pair where
  | adaEur | avaxEur | btcEur | dogeEur | dotEur | ethBtc
  | ethEur | linkEur | ltcEur | solBtc | solEur | xrpEur
  deriving DecidableEq, Repr

def Pair.name : Pair → String
  | .adaEur => "ADA/EUR" | .avaxEur => "AVAX/EUR" | .btcEur => "BTC/EUR"
  | .dogeEur => "DOGE/EUR" | .dotEur => "DOT/EUR" | .ethBtc => "ETH/BTC"
  | .ethEur => "ETH/EUR" | .linkEur => "LINK/EUR" | .ltcEur => "LTC/EUR"
  | .solBtc => "SOL/BTC" | .solEur => "SOL/EUR" | .xrpEur => "XRP/EUR"

inductive Side where
  | buy | sell
  deriving DecidableEq, Repr

inductive Action where
  | opening | closing
  deriving DecidableEq, Repr

inductive Mode where
  | execute | restCancel | restHold
  deriving DecidableEq, Repr

structure ProbeIntent where
  symbol : Pair
  side : Side
  action : Action
  mode : Mode
  notionalEur : Option ℚ
  qty : Option ℚ
  leverage : Option Nat
  offsetPct : Option ℚ
  holdMinutes : Option Nat
  deriving DecidableEq, Repr

/- The parsed document. Its `raw` form is what is journaled, and it says the same. -/
structure ProbePlan where
  planId : PlanId
  createdAt : Int
  intents : List ProbeIntent
  deriving DecidableEq, Repr

def planTtl : Int := 60 * minute
def marginFloorMultiplier : ℚ := 5 / 2

def ProbePlan.notional (p : ProbePlan) : ℚ := (p.intents.map fun i => i.notionalEur.getD 0).sum

/- `qty` is refused beside a leverage at the parse, so a margin intent declares a notional. -/
def ProbePlan.marginRequired (p : ProbePlan) : ℚ :=
  (p.intents.map fun i => match i.leverage with
    | some n => i.notionalEur.getD 0 / n
    | none => 0).sum * marginFloorMultiplier

/- Every applicable reason, in declaration order. `none` stands for a bound that
   is not finite. -/
def planRefusals (p : ProbePlan) (now : Int) (ledgered : List PlanId)
    (maxPlanNotionalEur freeZeur : Option ℚ) : List String :=
  (if planTtl < now - p.createdAt then ["plan expired: over 60 minutes old"] else []) ++
  (if now < p.createdAt then ["created_at is in the future"] else []) ++
  (if p.planId ∈ ledgered then ["plan_id already ledgered"] else []) ++
  (match maxPlanNotionalEur with
    | none => ["max_plan_notional_eur is not finite"]
    | some cap => if cap < p.notional then ["plan notional exceeds the cap"] else []) ++
  (match freeZeur with
    | none => ["free_zeur is not finite"]
    | some free =>
      if free < p.marginRequired then ["margin floor: required exceeds free_zeur"] else [])

theorem planRefusals_nil_fresh {p : ProbePlan} {now : Int} {ledgered : List PlanId}
    {cap free : Option ℚ} (h : planRefusals p now ledgered cap free = []) :
    now - p.createdAt ≤ planTtl ∧ p.createdAt ≤ now ∧ p.planId ∉ ledgered := by
  simp only [planRefusals, List.append_eq_nil_iff, ite_eq_right_iff, List.cons_ne_nil,
    imp_false, not_lt] at h
  exact ⟨h.1.1.1.1, h.1.1.1.2, h.1.1.2⟩

/- The date a day number names, `%Y`, `%m` and `%d` of it. -/
def civil (d : Int) : Int × Int × Int :=
  let z := d + 719468
  let era := z / 146097
  let doe := z - era * 146097
  let yoe := (doe - doe / 1460 + doe / 36524 - doe / 146096) / 365
  let doy := doe - (365 * yoe + yoe / 4 - yoe / 100)
  let mp := (5 * doy + 2) / 153
  let m := if mp < 10 then mp + 3 else mp - 9
  (yoe + era * 400 + (if m ≤ 2 then 1 else 0), m, doy - (153 * mp + 2) / 5 + 1)

def padded (width : Nat) (n : Int) : String :=
  let digits := toString n
  String.ofList (List.replicate (width - digits.length) '0') ++ digits

/- The self-drafted plan's id, `r3-<YYYYmmdd>-<HH>` of its boundary. -/
def cyclePlanId (b : Int) : PlanId :=
  let (y, m, d) := civil (dayOfBoundary b)
  "r3-" ++ padded 4 y ++ padded 2 m ++ padded 2 d ++ "-" ++ padded 2 (b % hoursPerDay)

example : cyclePlanId 490908 = "r3-20260101-12" := by decide +kernel

end ProbePlans
