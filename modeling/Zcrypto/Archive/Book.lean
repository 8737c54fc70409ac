import Mathlib.Order.Basic
import Mathlib.Data.List.Basic
import Zcrypto.Fallible
import Mathlib.Order.Lattice

/- The book of one hour from two hosts: where the primary was silent, which of its silences the
   secondary witnessed, and the hour spliced from both. Stamps are microseconds since the epoch; how a
   width becomes seconds is a parameter. -/
namespace Archive

/-- One book level of a message; its other columns are never read here. -/
structure Row (κ : Type) where
  ts : Int
  type : String
  cells : κ
  deriving DecidableEq, Repr

structure Gap (τ : Type) where
  start : Int
  stop : Int
  seconds : τ
  startIsPrimaryMessage : Bool
  endIsPrimaryMessage : Bool
  deriving DecidableEq, Repr

inductive Side where
  | primary | secondary
  deriving DecidableEq, Repr

inductive CaptureError where
  | notAligned (hourStart : Int)
  | notOneHour (hourEnd : Int)
  | outsideHour (name : Side) (ts : Int)
  | nonMonotonic (ts next : Int)
  deriving DecidableEq, Repr

structure Block (κ : Type) where
  source : Side
  frame : List (Row κ)
  fromTs : Option Int
  toTs : Option Int
  deriving DecidableEq, Repr

def hourMicros : Int := 3600000000

section
variable {κ τ : Type}

/-- The gap's row filter: strict on a boundary that is a primary message, inclusive on one that is
    nobody's. -/
def inside (gap : Gap τ) (t : Int) : Bool :=
  (if gap.startIsPrimaryMessage then gap.start < t else gap.start ≤ t) &&
    (if gap.endIsPrimaryMessage then t < gap.stop else t ≤ gap.stop)

/-- The first stamp that an earlier one follows, and that one. -/
def firstDrop : List Int → Option (Int × Int)
  | t :: next :: rest => if next < t then some (t, next) else firstDrop (next :: rest)
  | _ => none

/-- One stamp for each run of equal neighbours. -/
def neighbours : List Int → List Int
  | t :: next :: rest => if t = next then neighbours (next :: rest) else t :: neighbours (next :: rest)
  | stamps => stamps

def stamps (rows : List (Row κ)) : List Int := rows.map Row.ts

def messageTs (rows : List (Row κ)) : Except CaptureError (List Int) :=
  match firstDrop (stamps rows) with
  | some (t, next) => .error (.nonMonotonic t next)
  | none => .ok (neighbours (stamps rows))

def secondaryCovers (secondary : List (Row κ)) (gap : Gap τ) : Bool :=
  secondary.any fun r => inside gap r.ts && decide (r.type = "update")

def validateHourBounds (hourStart hourEnd : Int) : Except CaptureError Unit :=
  if hourStart % hourMicros ≠ 0 then .error (.notAligned hourStart)
  else if hourEnd ≠ hourStart + hourMicros then .error (.notOneHour hourEnd)
  else .ok ()

def validateRowsWithinHour (rows : List (Row κ)) (name : Side) (hourStart hourEnd : Int) :
    Except CaptureError Unit :=
  match rows.find? fun r => r.ts < hourStart ∨ hourEnd ≤ r.ts with
  | some r => .error (.outsideHour name r.ts)
  | none => .ok ()

variable [LinearOrder τ] (seconds : Int → τ) (minGapSeconds : τ)

/-- The window between two boundaries, where it is wider than the threshold. -/
def wide (start stop : Int) (startIsPrimary endIsPrimary : Bool) : List (Gap τ) :=
  if minGapSeconds < seconds (stop - start) then
    [⟨start, stop, seconds (stop - start), startIsPrimary, endIsPrimary⟩]
  else []

/-- The wide windows from one boundary on: between messages, and up to the hour's end. -/
def windowsFrom (hourEnd start : Int) (startIsPrimary : Bool) : List Int → List (Gap τ)
  | [] => wide seconds minGapSeconds start hourEnd startIsPrimary false
  | message :: rest =>
    wide seconds minGapSeconds start message startIsPrimary true ++
      windowsFrom hourEnd message true rest

def primarySilence (primary : List (Row κ)) (hourStart hourEnd : Int) :
    Except CaptureError (List (Gap τ)) := do
  validateHourBounds hourStart hourEnd
  validateRowsWithinHour primary .primary hourStart hourEnd
  let messages ← messageTs primary
  -- a primary without a message is total loss, whatever the threshold
  if messages = [] then
    .ok [⟨hourStart, hourEnd, seconds (hourEnd - hourStart), false, false⟩]
  else .ok (windowsFrom seconds minGapSeconds hourEnd hourStart false messages)

/-- The primary's silences that the secondary witnessed, and those it did not. -/
def partitionGaps (primary secondary : List (Row κ)) (hourStart hourEnd : Int) :
    Except CaptureError (List (Gap τ) × List (Gap τ)) := do
  validateHourBounds hourStart hourEnd
  validateRowsWithinHour secondary .secondary hourStart hourEnd
  let _ ← messageTs secondary
  let gaps ← primarySilence seconds minGapSeconds primary hourStart hourEnd
  .ok (gaps.partition (secondaryCovers secondary))

def findBookGaps (primary secondary : List (Row κ)) (hourStart hourEnd : Int) :
    Except CaptureError (List (Gap τ)) :=
  (partitionGaps seconds minGapSeconds primary secondary hourStart hourEnd).map Prod.fst

end

section
variable {κ τ : Type}

def block (source : Side) (frame : List (Row κ)) : Block κ :=
  ⟨source, frame, (stamps frame).min?, (stamps frame).max?⟩

/-- A block of some rows, none where there are no rows. -/
def blocksOf (source : Side) (frame : List (Row κ)) : List (Block κ) :=
  if frame = [] then [] else [block source frame]

/-- Whether a primary row comes before a gap. -/
def headOf (gap : Gap τ) (t : Int) : Bool :=
  if gap.startIsPrimaryMessage then t ≤ gap.start else t < gap.start

def pastCursor (cursor : Option Int) (t : Int) : Bool :=
  match cursor with
  | none => true
  | some c => c ≤ t

/-- Block by block from the end of the gap before: the primary up to each gap, the secondary inside
    it, and the primary after the last. -/
def spliceFrom (primary secondary : List (Row κ)) (cursor : Option Int) :
    List (Gap τ) → List (Block κ)
  | [] => blocksOf .primary (primary.filter fun r => pastCursor cursor r.ts)
  | gap :: rest =>
    blocksOf .primary (primary.filter fun r => headOf gap r.ts && pastCursor cursor r.ts) ++
      blocksOf .secondary (secondary.filter fun r => inside gap r.ts) ++
      spliceFrom primary secondary (some gap.stop) rest

def spliceBook (primary secondary : List (Row κ)) (gaps : List (Gap τ)) : List (Block κ) :=
  if gaps.isEmpty then blocksOf .primary primary
  else spliceFrom primary secondary none gaps

/-- The rows of a minted hour. -/
def rowsOf (blocks : List (Block κ)) : List (Row κ) := blocks.flatMap Block.frame

end

end Archive
