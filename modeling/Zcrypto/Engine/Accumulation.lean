import Mathlib.Algebra.Order.Field.Rat
import Mathlib.Algebra.BigOperators.Group.List.Basic
import Mathlib.Data.List.Sort
import Mathlib.Data.Rat.Floor
import Mathlib.Data.Prod.Lex

/- The drift the venue's minimums leave where a delta is let accumulate until it can be placed: each
   cycle's targets are priced at one portfolio size and the held book is carried from cycle to cycle.
   Amounts are exact, and a week is whatever the calendar makes of a stamp. -/
namespace Accumulations

/-- What of a cycle the floor reads: its final book, with one weight an asset, and the closes. -/
structure CycleStages where
  cycleTs : Int
  final : List (String × ℚ)
  closes : String → Option ℚ
  distinct : (final.map Prod.fst).Nodup

/-- The least quantity of an order, and the least euros of one. -/
structure Minimum where
  orderminBase : ℚ
  costmin : ℚ
  deriving DecidableEq, Repr

abbrev Minimums := List (String × Minimum)

def Minimums.of (minimums : Minimums) (asset : String) : Minimum := (minimums.lookup asset).getD ⟨0, 0⟩

inductive AccumulationError where
  | badNavs (navs : List ℚ)
  | noMinimums (missing : List String) (cycleTs : Int)
  | raised
  deriving DecidableEq, Repr

structure Row where
  cycleTs : Int
  placed : Bool
  targetQty : List (String × ℚ)
  driftEur : ℚ
  driftBps : ℚ
  deriving DecidableEq, Repr

structure Week where
  isoYear : Int
  isoWeek : Int
  nCycles : Nat
  meanDriftBps : ℚ
  partialWeek : Bool
  deriving DecidableEq, Repr

structure NavReport where
  nav : ℚ
  cycles : List Row
  nPlaced : Nat
  medianDriftBps : Option ℚ
  p95DriftBps : Option ℚ
  weeks : List Week
  deriving DecidableEq, Repr

/-- A portfolio size that is given twice has its report twice. -/
structure Payload where
  header : String
  nCycles : Nat
  navs : List ℚ
  byNav : List NavReport
  deriving DecidableEq, Repr

def cyclesPerFullWeek : Nat := 6 * 7

def accumulationHeader : String :=
  "Accumulation drift floor: what the venue's order minimums cost at each portfolio size"

def flooredShorts : String := "targets floored at 0 for every shorting leg"

def sorted (values : List ℚ) : List ℚ := values.insertionSort (· ≤ ·)

def median (values : List ℚ) : Option ℚ :=
  let clean := sorted values
  let mid := clean.length / 2
  if clean = [] then none
  else if clean.length % 2 = 1 then clean[mid]?
  else do
    let low ← clean[mid - 1]?
    let high ← clean[mid]?
    pure ((low + high) / 2)

/-- By nearest rank. -/
def p95 (values : List ℚ) : Option ℚ :=
  (sorted values)[⌈(95 / 100 : ℚ) * values.length⌉.toNat - 1]?

section
variable (isoWeek : Int → Int × Int) (minimums : Minimums) (nav : ℚ) (floorShorts : Bool)

/- One cycle. -/

/-- What is carried from asset to asset within a cycle. -/
structure Tally where
  held : String → ℚ
  placed : Bool
  targetQty : List (String × ℚ)
  driftEur : ℚ

def CycleStages.closeOf (s : CycleStages) (asset : String) : ℚ := (s.closes asset).getD 0

def CycleStages.targetOf (s : CycleStages) (entry : String × ℚ) : ℚ :=
  (if floorShorts then max entry.2 0 else entry.2) * nav / s.closeOf entry.1

/-- Both floors, a quantity and euros. -/
def Minimum.met (m : Minimum) (delta close : ℚ) : Prop :=
  m.orderminBase ≤ |delta| ∧ m.costmin ≤ |delta| * close

instance (m : Minimum) (delta close : ℚ) : Decidable (m.met delta close) :=
  inferInstanceAs (Decidable (_ ∧ _))

/-- An asset is held at its target once the delta can be placed, and its drift is measured after that. -/
def takeAsset (s : CycleStages) (t : Tally) (entry : String × ℚ) : Tally :=
  let close := s.closeOf entry.1
  let target := s.targetOf nav floorShorts entry
  let fills : Bool := (minimums.of entry.1).met (target - t.held entry.1) close
  let held := if fills then Function.update t.held entry.1 target else t.held
  { held
    placed := t.placed || fills
    targetQty := t.targetQty ++ [(entry.1, target)]
    driftEur := t.driftEur + |target - held entry.1| * close }

def takeCycle (held : String → ℚ) (s : CycleStages) : Tally :=
  s.final.foldl (takeAsset minimums nav floorShorts s) ⟨held, false, [], 0⟩

def Tally.row (t : Tally) (s : CycleStages) : Row :=
  ⟨s.cycleTs, t.placed, t.targetQty, t.driftEur, 10000 * t.driftEur / nav⟩

/- The window. -/

def replayCycles : (String → ℚ) → List CycleStages → List Row
  | _, [] => []
  | held, s :: rest =>
    let t := takeCycle minimums nav floorShorts held s
    t.row nav s :: replayCycles t.held rest

def weekOf (values : List ((Int × Int) × ℚ)) (week : Int × Int) : Week :=
  let drifts := (values.filter (·.1 = week)).map Prod.snd
  ⟨week.1, week.2, drifts.length, drifts.sum / drifts.length, drifts.length < cyclesPerFullWeek⟩

def weeklyDrift (ordered : List CycleStages) (rows : List Row) : List Week :=
  let values := (ordered.map fun s => isoWeek s.cycleTs).zip (rows.map Row.driftBps)
  let weeks := (values.map Prod.fst).dedup.insertionSort fun a b => toLex a ≤ toLex b
  weeks.map (weekOf values)

/-- Whether every asset of a cycle has a close to divide by. -/
def CycleStages.priced (s : CycleStages) : Bool :=
  s.final.all fun entry => (s.closes entry.1).any (· ≠ 0)

def navReport (ordered : List CycleStages) : Except AccumulationError NavReport :=
  if ordered.all CycleStages.priced then
    let rows := replayCycles minimums nav floorShorts (fun _ => 0) ordered
    let drifts := rows.map Row.driftBps
    .ok ⟨nav, rows, (rows.filter Row.placed).length, median drifts, p95 drifts,
      weeklyDrift isoWeek ordered rows⟩
  else .error .raised

end

def missingFrom (minimums : Minimums) (s : CycleStages) : List String :=
  ((s.final.map Prod.fst).filter fun a => (minimums.lookup a).isNone).insertionSort (· ≤ ·)

def uncovered (minimums : Minimums) (ordered : List CycleStages) : Option AccumulationError :=
  ordered.findSome? fun s =>
    if missingFrom minimums s = [] then none else some (.noMinimums (missingFrom minimums s) s.cycleTs)

def inOrder (stages : List CycleStages) : List CycleStages :=
  stages.insertionSort fun a b => a.cycleTs ≤ b.cycleTs

def accumulationPayload (isoWeek : Int → Int × Int) (stages : List CycleStages) (minimums : Minimums)
    (navs : List ℚ) (floorShorts : Bool) : Except AccumulationError Payload :=
  let badNavs := navs.filter (· ≤ 0)
  let ordered := inOrder stages
  if badNavs ≠ [] then .error (.badNavs badNavs)
  else match uncovered minimums ordered with
    | some e => .error e
    | none => do
        let byNav ← navs.mapM fun nav => navReport isoWeek minimums nav floorShorts ordered
        pure ⟨if floorShorts then accumulationHeader ++ ", " ++ flooredShorts else accumulationHeader,
          ordered.length, navs, byNav⟩

end Accumulations
