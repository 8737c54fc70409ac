import Zcrypto.Capture.SegmentWriter

/- The oracle that the writers of one process share, and the process: rows reach the writers one at a
   time, and a row that a writer does not refuse is a witness before it may open an hour. -/
namespace Segments
open Effects Effects.Prog

section
variable {S : Type} [DecidableEq S]

/-- The newest stamp of each stream, and the newest hour that was confirmed. -/
structure HourOracle (S : Type) where
  witnessed : List (S × Int)
  confirmed : Option Int
  deriving DecidableEq, Repr

def hourQuorum : Nat := 2
def clockWitnessMargin : Int := maxTsAhead

namespace HourOracle

def fresh : HourOracle S := ⟨[], none⟩

/-- A stream's stamp where it is its first or newer than its last. -/
def newest (stream : S) (ts : Int) : List (S × Int) → List (S × Int)
  | [] => [(stream, ts)]
  | (other, prev) :: rest =>
    if other = stream then (other, if prev < ts then ts else prev) :: rest
    else (other, prev) :: newest stream ts rest

def observe (o : HourOracle S) (stream : S) (ts now : Int) : HourOracle S :=
  { o with witnessed := newest stream (min ts (now + maxTsAhead)) o.witnessed }

/-- What vouches for an hour: the streams, and the clock with its handicap. -/
def witnesses (o : HourOracle S) (now : Int) : List Int :=
  (o.witnessed.map Prod.snd ++ [now - clockWitnessMargin]).insertionSort (· ≥ ·)

def confirm (o : HourOracle S) (now : Int) : HourOracle S :=
  match (o.witnesses now)[hourQuorum - 1]? with
  | some t => if o.confirmed.all (· < hourStart t) then { o with confirmed := some (hourStart t) } else o
  | none => o

end HourOracle

/-- One process: which writers it has constructed, and each writer's tape. The true time of the last
    thing that happened and the clock readings that the oracle took are there to speak about. -/
structure Fleet (S : Type) where
  oracle : HourOracle S
  tapes : S → Tape
  ready : S → Bool
  time : Int
  readings : List Int

/-- What a process does next: it begins, it constructs the writer of a stream, a row of a stream
    arrives, or a writer is closed. The settings, the faults and the clock of a call are its own. -/
inductive Happening (S : Type) where
  | begins
  | construct (stream : S) (w : World)
  | append (stream : S) (w : World) (observedAt confirmedAt : Int) (event : Row)
  | close (stream : S) (w : World)

structure Moment (S : Type) where
  time : Int
  happening : Happening S

/-- Whether a row gets past the plausibility guard and the floor. -/
def accepts (w : World) (t : Tape) (event : Row) : Bool :=
  !t.mem.implausible (w.clock t.asked) event.ts &&
    !(t.mem.currentHour.or t.mem.floor).any (hourStart event.ts < ·)

namespace Fleet

def blank : Fleet S := ⟨HourOracle.fresh, fun _ => System.blank.tape, fun _ => false, 0, []⟩

/-- A writer's call. A process that died has no writers. -/
def call {α : Type} (f : Fleet S) (stream : S) (out : Outcome α × Tape) : Fleet S :=
  match out with
  | (.died, t) => { f with tapes := Function.update f.tapes stream t, ready := fun _ => false }
  | (_, t) => { f with
      tapes := Function.update f.tapes stream t, ready := Function.update f.ready stream true }

def vouch (f : Fleet S) (stream : S) (ts observedAt confirmedAt : Int) : Fleet S :=
  { f with
    oracle := (f.oracle.observe stream ts observedAt).confirm confirmedAt
    readings := confirmedAt :: observedAt :: f.readings }

/-- A writer's world, with the hour that the oracle has confirmed. -/
def sharedWorld (f : Fleet S) (w : World) : World :=
  { w with oracle := true, confirmed := fun _ => f.oracle.confirmed }

def appendTo (f : Fleet S) (stream : S) (w : World) (event : Row) : Fleet S :=
  f.call stream (append event (f.sharedWorld w) (f.tapes stream))

def happen (f : Fleet S) : Happening S → Fleet S
  | .begins => { f with oracle := HourOracle.fresh, ready := fun _ => false, readings := [] }
  | .construct stream w => f.call stream (construct (f.sharedWorld w) (f.tapes stream))
  | .append stream w observedAt confirmedAt event =>
    if f.ready stream then
      if accepts w (f.tapes stream) event then
        (f.vouch stream event.ts observedAt confirmedAt).appendTo stream w event
      else f.appendTo stream w event
    else f
  | .close stream w =>
    if f.ready stream then f.call stream (close (f.sharedWorld w) (f.tapes stream)) else f

def step (f : Fleet S) (m : Moment S) : Fleet S := { f.happen m.happening with time := m.time }

def run (moments : List (Moment S)) : Fleet S := moments.foldl step blank

end Fleet

end

end Segments
