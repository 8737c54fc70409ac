import Mathlib.Data.List.Sort
import Mathlib.Data.List.Dedup
import Mathlib.Data.String.Basic
import Mathlib.Data.List.MinMax

/- The sweep that publishes the captured trade tape's days into tape-bars, one candidate after another, and
   the world it runs in: the archive grows, a sweep may be killed between any two candidates, and one
   process sweeps at a time. Hours and days are numbered from the epoch, instants and durations are in
   microseconds. -/
namespace Tick

abbrev Pair := String

def dayMicros : Int := 86400 * 1000000

/-- Twenty-six hours. -/
def tapeSettle : Int := 26 * 3600 * 1000000

def rescanDays : Int := 3

/-- The hours of each pair that the trade archive holds, as one walk finds them. -/
abbrev SegmentIndex := List (Pair × Int)

def dayOf (hour : Int) : Int := hour / 24

def dayEnd (d : Int) : Int := (d + 1) * dayMicros

/-- A pair's archived days, sorted and distinct. -/
def daysOf (index : SegmentIndex) (pair : Pair) : List Int :=
  ((index.filter fun segment => segment.1 = pair).map fun segment => dayOf segment.2).dedup.insertionSort
    (· ≤ ·)

def archiveCalendar (index : SegmentIndex) : List (Pair × List Int) :=
  ((index.map Prod.fst).dedup.insertionSort (· ≤ ·)).map fun pair => (pair, daysOf index pair)

/-- A published day: its bytes, and whether its sidecar names their sha256. -/
structure Final (Bytes : Type) where
  data : Bytes
  vouched : Bool
deriving DecidableEq

/-- The daily finals under the out root. -/
abbrev Tape (Bytes : Type) := List ((Pair × Int) × Final Bytes)

section
variable {Bytes : Type}

def finalOf (tape : Tape Bytes) (pair : Pair) (d : Int) : Option (Final Bytes) :=
  tape.lookup (pair, d)

def finalExists (tape : Tape Bytes) (pair : Pair) (d : Int) : Bool :=
  (finalOf tape pair d).isSome

/-- Each final is renamed into place after its sidecar. -/
def publishDay (tape : Tape Bytes) (pair : Pair) (d : Int) (data : Bytes) : Tape Bytes :=
  tape ++ [((pair, d), ⟨data, true⟩)]

def publishedDays (tape : Tape Bytes) (pair : Pair) : List Int :=
  (tape.filter fun final => final.1.1 = pair).map fun final => final.1.2

/-- The newest published day; paths sort as their days do. -/
def watermark (tape : Tape Bytes) (pair : Pair) : Option Int :=
  (publishedDays tape pair).max?

/-- One run of the command: its clock, and what its options say. -/
structure Start where
  now : Int
  settle : Int := tapeSettle
  rescan : Int := rescanDays
deriving DecidableEq

def Start.settles (s : Start) (d : Int) : Bool := s.settle ≤ s.now - dayEnd d

/-- The candidates of a pair's settled days, and those outside the window that have no final. -/
def candidates (tape : Tape Bytes) (pair : Pair) (rescan : Int) (settled : List Int) :
    List Int × List Int :=
  match settled.getLast?, watermark tape pair with
  | none, _ => ([], [])
  -- a first run takes the whole archive
  | some _, none => (settled, [])
  | some last, some mark =>
      let floor := min (last - rescan) (mark + 1)
      (settled.filter fun d => floor ≤ d,
        (settled.filter fun d => d < floor).filter fun d => !finalExists tape pair d)

structure MaterializeResult where
  daysWritten : Nat := 0
  daysSkipped : Nat := 0
  daysUnsettled : Nat := 0
  daysUnhealed : Nat := 0
  daysGap : Nat := 0
  rows : Nat := 0
  errors : List (Pair × Int × String) := []
deriving DecidableEq

/-- A sweep under way: the index it walked once, the pairs it has yet to reach, the pair it is at and that
    pair's candidates still to come. -/
structure Sweep where
  start : Start
  index : SegmentIndex
  left : List (Pair × List Int)
  pair : Pair := ""
  todo : List Int := []
  result : MaterializeResult := {}
deriving DecidableEq

/-- What becomes of a candidate that has no final. -/
inductive Attempt (Bytes : Type) where
  | unhealed
  | raised (text : String)
  /-- The last step failed, after the final's rename. -/
  | raisedLate (data : Bytes) (text : String)
  | written (data : Bytes) (height : Nat)
deriving DecidableEq

structure World (Bytes : Type) where
  index : SegmentIndex := []
  tape : Tape Bytes := []
  sweep : Option Sweep := none
deriving DecidableEq

inductive Event (Bytes : Type) where
  /-- The archive gains an hour of a pair. -/
  | mint (pair : Pair) (hour : Int)
  /-- A sweep begins, the one before it over. -/
  | start (s : Start)
  /-- The sweep comes to its next pair. -/
  | visit
  /-- The sweep comes to its next candidate. -/
  | attempt (a : Attempt Bytes)
  /-- The sweep has ended or is killed. -/
  | stop
deriving DecidableEq

def Sweep.visit (tape : Tape Bytes) (sweep : Sweep) : Sweep :=
  match sweep.left with
  | [] => sweep
  | (pair, days) :: left =>
      let settled := days.filter sweep.start.settles
      let (todo, gaps) := candidates tape pair sweep.start.rescan settled
      { sweep with
        left
        pair
        todo
        result := { sweep.result with
          daysUnsettled := sweep.result.daysUnsettled + (days.length - settled.length)
          daysGap := sweep.result.daysGap + gaps.length } }

/-- The next candidate tried. -/
def Sweep.attempt (tape : Tape Bytes) (sweep : Sweep) (a : Attempt Bytes) : Tape Bytes × Sweep :=
  match sweep.todo with
  | [] => (tape, sweep)
  | d :: todo =>
      let r := sweep.result
      if finalExists tape sweep.pair d then
        (tape, { sweep with todo, result := { r with daysSkipped := r.daysSkipped + 1 } })
      else match a with
        | .unhealed =>
            (tape, { sweep with todo, result := { r with daysUnhealed := r.daysUnhealed + 1 } })
        | .raised text =>
            (tape, { sweep with todo, result := { r with errors := r.errors ++ [(sweep.pair, d, text)] } })
        | .raisedLate data text =>
            (publishDay tape sweep.pair d data,
              { sweep with todo, result := { r with errors := r.errors ++ [(sweep.pair, d, text)] } })
        | .written data height =>
            (publishDay tape sweep.pair d data,
              { sweep with
                todo
                result := { r with daysWritten := r.daysWritten + 1, rows := r.rows + height } })

/-- An event that has no sweep to act on, or comes before the pair's candidates are done, changes nothing. -/
def World.after (w : World Bytes) : Event Bytes → World Bytes
  | .mint pair hour => { w with index := w.index ++ [(pair, hour)] }
  | .start s => { w with sweep := some { start := s, index := w.index, left := archiveCalendar w.index } }
  | .visit =>
      match w.sweep with
      | some sweep => if sweep.todo = [] then { w with sweep := some (sweep.visit w.tape) } else w
      | none => w
  | .attempt a =>
      match w.sweep with
      | some sweep =>
          let (tape, sweep) := sweep.attempt w.tape a
          { w with tape, sweep := some sweep }
      | none => w
  | .stop => { w with sweep := none }

/-- The world after the first `n` events. -/
def worldAt (events : List (Event Bytes)) (n : Nat) : World Bytes :=
  (events.take n).foldl World.after {}

def startOf : Event Bytes → Option Start
  | .start s => some s
  | _ => none

/-- The sweeps' clocks never go back. -/
def Clocked (events : List (Event Bytes)) : Prop :=
  (events.filterMap startOf).Pairwise fun a b => a.now ≤ b.now

instance (events : List (Event Bytes)) : Decidable (Clocked events) :=
  inferInstanceAs (Decidable (List.Pairwise _ _))

/-- No sweep waits longer or looks back further than one before it, or further back than the default. -/
def Unwidened (events : List (Event Bytes)) : Prop :=
  ((events.filterMap startOf).Pairwise fun a b => b.settle ≤ a.settle ∧ b.rescan ≤ a.rescan) ∧
    ∀ s ∈ events.filterMap startOf, s.rescan ≤ rescanDays

instance (events : List (Event Bytes)) : Decidable (Unwidened events) :=
  inferInstanceAs (Decidable (_ ∧ _))

end

end Tick
