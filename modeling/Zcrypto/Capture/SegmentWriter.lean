import Mathlib.Data.List.Sort
import Mathlib.Data.List.Dedup
import Mathlib.Logic.Function.Basic
import Zcrypto.Effects

/- The writer of hourly segments. A file operation may raise or be the last of its process; the
   lookups raise nothing and read what is on disk. Instants are microseconds and an hour is the
   instant it starts at. Temporary files, the counters read by the metrics and the log lines are
   left out. -/
namespace Segments
open Effects Effects.Prog

structure Row where
  ts : Int
  key : String
  cells : String
  deriving DecidableEq, Repr

/-- A numbered file of an hour. -/
structure File where
  seq : Nat
  rows : List Row
  deriving DecidableEq, Repr

/-- What is on disk for one hour, numbered files in ascending order. -/
structure HourFiles where
  parts : List File
  held : List File
  merging : Option (List Row)
  final : Option (List Row)
  manifest : Option (List Row)
  corrupt : List (List Row)
  deriving DecidableEq, Repr

def HourFiles.blank : HourFiles := ⟨[], [], none, none, none, []⟩

structure Disk where
  hours : List Int
  files : Int → HourFiles

structure Mem where
  held : List (Int × List Row)
  heldSeen : List (Int × List String)
  buffer : List Row
  currentHour : Option Int
  maxTs : Option Int
  maxAt : Int
  seen : List String
  floor : Option Int
  drops : Nat
  lastDropTs : Option Int
  deriving DecidableEq, Repr

/-- A part of an hour reaching the disk, with whether a merging file was there, and a part being
    unlinked, with the merging file it was unlinked for. -/
inductive Event where
  | landed (hour : Int) (rows : List Row) (besideMerging : Bool)
  | unlinked (hour : Int) (rows : List Row) (merging : Option (List Row))
  deriving DecidableEq, Repr

structure Tape where
  disk : Disk
  mem : Mem
  asked : Nat
  trace : List Event

inductive Fault where
  | ok | raises | kills
  deriving DecidableEq, Repr

/-- The writer's settings and the host. What is asked of the host is numbered by what was asked
    before it, and the hour the oracle confirms is any hour. -/
structure World where
  flushRows : Nat
  dedup : Bool
  oracle : Bool
  fault : Nat → Fault
  clock : Nat → Int
  confirmed : Nat → Option Int

abbrev Seg := Prog World Tape

def hourMicros : Int := 3600000000
def maxTsAhead : Int := 300000000
def maxConsecutiveDrops : Nat := 3
def maxTsAbsurd : Int := 86400000000

def hourStart (ts : Int) : Int := ts - ts % hourMicros

/- Files. -/

def fileOp : Seg Unit := fun w t =>
  match w.fault t.asked with
  | .ok => (.ok (), { t with asked := t.asked + 1 })
  | .raises => (.raised, { t with asked := t.asked + 1 })
  | .kills => (.died, { t with asked := t.asked + 1 })

def utcnow : Seg Int := fun w t => (.ok (w.clock t.asked), { t with asked := t.asked + 1 })

def confirmedHour : Seg (Option Int) := fun w t =>
  (.ok (w.confirmed t.asked), { t with asked := t.asked + 1 })

def filesOf (hour : Int) : Seg HourFiles := gets fun t => t.disk.files hour

def Disk.put (d : Disk) (hour : Int) (f : HourFiles) : Disk :=
  { d with files := Function.update d.files hour f }

def Disk.mkdir (d : Disk) (hour : Int) : Disk :=
  if hour ∈ d.hours then d else { d with hours := hour :: d.hours }

/-- The hours that hold such a file, in ascending order. -/
def Disk.hoursWith (d : Disk) (has : HourFiles → Bool) : List Int :=
  (d.hours.filter fun h => has (d.files h)).insertionSort (· ≤ ·)

def nextSeq (files : List File) : Nat :=
  match files.getLast? with
  | some f => f.seq + 1
  | none => 0

def Tape.setFiles (t : Tape) (hour : Int) (f : HourFiles) : Tape :=
  { t with disk := t.disk.put hour f }

def Tape.landPart (t : Tape) (hour : Int) (rows : List Row) (f : HourFiles) : Tape :=
  { t with
    disk := t.disk.put hour { f with parts := f.parts ++ [⟨nextSeq f.parts, rows⟩] }
    trace := .landed hour rows f.merging.isSome :: t.trace }

inductive Marker where
  | part | held
  deriving DecidableEq, Repr

def Tape.land (t : Tape) (hour : Int) (rows : List Row) : Marker → Tape
  | .part => t.landPart hour rows (t.disk.files hour)
  | .held =>
    let f := t.disk.files hour
    t.setFiles hour { f with held := f.held ++ [⟨nextSeq f.held, rows⟩] }

def Tape.redeem (t : Tape) (hour : Int) (file : File) : Tape :=
  let f := t.disk.files hour
  t.landPart hour file.rows { f with held := f.held.filter (· ≠ file) }

def Tape.unlinkPart (t : Tape) (hour : Int) (file : File) : Tape :=
  let f := t.disk.files hour
  { t with
    disk := t.disk.put hour { f with parts := f.parts.filter (· ≠ file) }
    trace := .unlinked hour file.rows f.merging :: t.trace }

def Tape.quarantinePart (t : Tape) (hour : Int) (file : File) : Tape :=
  let f := t.disk.files hour
  t.setFiles hour { f with
    parts := f.parts.filter (· ≠ file), corrupt := file.rows :: f.corrupt }

def Tape.quarantineFinal (t : Tape) (hour : Int) : Tape :=
  let f := t.disk.files hour
  t.setFiles hour { f with final := none, corrupt := f.final.toList ++ f.corrupt }

def Tape.quarantineMerging (t : Tape) (hour : Int) : Tape :=
  let f := t.disk.files hour
  t.setFiles hour { f with merging := none, corrupt := f.merging.toList ++ f.corrupt }

def Tape.sinkMerging (t : Tape) (hour : Int) (rows : List Row) : Tape :=
  t.setFiles hour { t.disk.files hour with merging := some rows }

def Tape.certify (t : Tape) (hour : Int) : Tape :=
  let f := t.disk.files hour
  t.setFiles hour { f with manifest := f.merging }

def Tape.publish (t : Tape) (hour : Int) : Tape :=
  let f := t.disk.files hour
  t.setFiles hour { f with merging := none, final := f.merging.or f.final }

/-- The data's sync, the rename and the directory's sync. -/
def replaceDurably (renamed : Tape → Tape) : Seg Unit := do
  fileOp
  fileOp
  modify renamed
  fileOp

def quarantine (renamed : Tape → Tape) : Seg Unit := do
  fileOp
  modify renamed

/-- Whether the file's rows can be read. -/
def readsBack : Seg Bool := attempt (do fileOp; pure true) (pure false)

def writePart (rows : List Row) (hour : Int) (marker : Marker) : Seg Bool :=
  attempt (do
    fileOp
    modify fun t => { t with disk := t.disk.mkdir hour }
    fileOp
    replaceDurably fun t => t.land hour rows marker
    pure true) (pure false)

def keysOf (files : List File) : List String := files.flatMap fun f => f.rows.map Row.key

/-- The keys of every file that can be read. -/
def diskKeys (files : List File) : Seg (List String) :=
  if files = [] then pure [] else attempt (do fileOp; pure (keysOf files)) (do
    let keys ← collect files fun f => attempt (do fileOp; pure (keysOf [f])) (pure [])
    pure keys.flatten)

/- The merge of an hour. -/

def writeManifest (hour : Int) : Seg Unit := do
  fileOp
  fileOp
  replaceDurably fun t => t.certify hour

def unlinkPart (hour : Int) (file : File) : Seg Unit := do
  fileOp
  modify fun t => t.unlinkPart hour file

def commit (hour : Int) : Seg Unit := do
  writeManifest hour
  let f ← filesOf hour
  forEach f.parts (unlinkPart hour)
  replaceDurably fun t => t.publish hour

def readable (hour : Int) (file : File) : Seg Bool := do
  if ← readsBack then pure true
  else do
    quarantine fun t => t.quarantinePart hour file
    pure false

/-- The inputs that decode one by one, sunk again unless none does. -/
def salvage (hour : Int) : List File → Seg (List File)
  | [] => pure []
  | file :: rest => do
      let kept ← readable hour file
      let more ← salvage hour rest
      pure (if kept then file :: more else more)

def sinkAgain (hour : Int) (inputs : List File) : Seg (List File) := do
  let inputs ← salvage hour inputs
  when (inputs ≠ []) fileOp
  pure inputs

def sink (hour : Int) (inputs : List File) : Seg Bool := do
  let inputs ← attempt (do fileOp; pure inputs) (sinkAgain hour inputs)
  if inputs = [] then pure false
  else do
    replaceDurably fun t => t.sinkMerging hour (inputs.flatMap File.rows)
    pure true

def writeMerging (hour : Int) (inputs : List File) : Seg Bool := do
  let sunk ← attempt (sink hour inputs) (do fileOp; raise)
  fileOp
  pure sunk

def mergeParts (hour : Int) (parts : List File) : Seg Unit := do
  if ← writeMerging hour parts then commit hour else pure ()

/-- A final that cannot be read is set aside and the hour rebuilt. -/
def mergeOverFinal (hour : Int) (parts : List File) : Seg Unit := do
  if ← readsBack then pure ()
  else do
    quarantine fun t => t.quarantineFinal hour
    mergeParts hour parts

/-- Nothing is sunk over a merging file, nor over a final that can be read. -/
def mergeFound (hour : Int) (f : HourFiles) : Seg Unit :=
  if f.merging.isSome then pure ()
  else if f.final.isSome then mergeOverFinal hour f.parts
  else mergeParts hour f.parts

def mergeHour (hour : Int) : Seg Unit := do
  let f ← filesOf hour
  if f.parts = [] then pure () else attempt (mergeFound hour f) (pure ())

def sweep (before : Int) : Seg Unit := do
  let hours ← gets fun t => t.disk.hoursWith fun f => f.parts ≠ []
  forEach (hours.filter (· < before)) mergeHour

/- The open hour. -/

def setMem (f : Mem → Mem) : Seg Unit := modify fun t => { t with mem := f t.mem }

def flushBuffer : Seg Unit := do
  let m ← gets Tape.mem
  if m.buffer = [] then pure ()
  else do
    let hour ← orRaise m.currentHour
    let _ ← writePart m.buffer hour .part
    setMem fun m => { m with buffer := [] }

def finalizeHour (hour : Int) : Seg Unit := do
  flushBuffer
  mergeHour hour

def redeemHeld (hour : Int) : Seg Unit := do
  let f ← filesOf hour
  forEach f.held fun file => attempt (do
    fileOp
    modify fun t => t.redeem hour file) (pure ())

def openHour (hour : Int) : Seg Unit := do
  setMem fun m => { m with currentHour := some hour }
  redeemHeld hour
  setMem fun m => { m with seen := [] }
  if ← env World.dedup then do
    let f ← filesOf hour
    let keys ← diskKeys f.parts
    setMem fun m => { m with seen := keys }
  else pure ()

def enterHour (hour : Int) : Seg Unit := do
  let m ← gets Tape.mem
  match m.currentHour with
  | none => do
      sweep hour
      openHour hour
  | some current =>
      if current < hour then do
        finalizeHour current
        openHour hour
      else pure ()

/- Rows. -/

def Mem.implausible (m : Mem) (now ts : Int) : Bool :=
  if now + maxTsAbsurd < ts then true
  else if maxConsecutiveDrops ≤ m.drops then false
  else match m.maxTs with
    | none => now + maxTsAhead < ts
    | some newest =>
      newest + max (now - m.maxAt) 0 + maxTsAhead < ts && now + maxTsAhead < ts

/-- One more refused timestamp, where it is not the last one again. -/
def Mem.refuse (m : Mem) (ts : Int) : Mem :=
  if m.lastDropTs = some ts then m else { m with lastDropTs := some ts, drops := m.drops + 1 }

def anchor (ts : Int) : Seg Unit := do
  let m ← gets Tape.mem
  if m.maxTs.all (· < ts) then do
    let now ← utcnow
    setMem fun m => { m with maxTs := some ts, maxAt := now }
  else pure ()

def store (event : Row) : Seg Unit := do
  anchor event.ts
  setMem fun m => { m with buffer := m.buffer ++ [event] }
  let m ← gets Tape.mem
  let flushRows ← env World.flushRows
  when (flushRows ≤ m.buffer.length) flushBuffer

def admitRow (event : Row) : Seg Unit := do
  let m ← gets Tape.mem
  if ← env World.dedup then
    if event.key ∈ m.seen then pure ()
    else do
      setMem fun m => { m with seen := event.key :: m.seen }
      store event
  else store event

def assign {α : Type} (xs : List (Int × α)) (hour : Int) (a : α) : List (Int × α) :=
  if xs.any (·.1 = hour) then xs.map fun e => if e.1 = hour then (hour, a) else e
  else xs ++ [(hour, a)]

/-- The keys a held hour has taken, read off its files the first time. -/
def heldKeys (hour : Int) : Seg (List String) := do
  let m ← gets Tape.mem
  match m.heldSeen.lookup hour with
  | some keys => pure keys
  | none => do
      let f ← filesOf hour
      let keys ← diskKeys (f.parts ++ f.held)
      setMem fun m => { m with heldSeen := assign m.heldSeen hour keys }
      pure keys

def park (hour : Int) (event : Row) : Seg Unit := do
  setMem fun m =>
    { m with held := assign m.held hour ((m.held.lookup hour).getD [] ++ [event]) }
  anchor event.ts
  let m ← gets Tape.mem
  let flushRows ← env World.flushRows
  let rows := (m.held.lookup hour).getD []
  when (flushRows ≤ rows.length) do
    let _ ← writePart rows hour .held
    setMem fun m => { m with held := assign m.held hour [] }

def hold (hour : Int) (event : Row) : Seg Unit := do
  if ← env World.dedup then do
    let keys ← heldKeys hour
    if event.key ∈ keys then pure ()
    else do
      setMem fun m => { m with heldSeen := assign m.heldSeen hour (event.key :: keys) }
      park hour event
  else park hour event

def drain (hour : Int) : Seg Unit := do
  let m ← gets Tape.mem
  setMem fun m => { m with
    held := m.held.filter (·.1 ≠ hour), heldSeen := m.heldSeen.filter (·.1 ≠ hour) }
  enterHour hour
  forEach ((m.held.lookup hour).getD []) admitRow

/-- A row of a writer with an oracle: the confirmed held hours up to its own first. -/
def corroborate (hour : Int) (event : Row) : Seg Unit := do
  let confirmed ← confirmedHour
  let m ← gets Tape.mem
  let reached : Int → Bool := fun h => confirmed.any (h ≤ ·)
  let due := (m.held.map Prod.fst).filter fun h => h ≤ hour ∧ reached h
  forEach (due.insertionSort (· ≤ ·)) drain
  if reached hour then do
    enterHour hour
    admitRow event
  else hold hour event

def append (event : Row) : Seg Unit := do
  let now ← utcnow
  let m ← gets Tape.mem
  if m.implausible now event.ts then setMem fun m => m.refuse event.ts
  else do
    setMem fun m => { m with drops := 0, lastDropTs := none }
    let hour := hourStart event.ts
    if (m.currentHour.or m.floor).any (hour < ·) then pure ()
    else if ← env World.oracle then corroborate hour event
    else do
      enterHour hour
      admitRow event

def close : Seg Unit := do
  flushBuffer
  let m ← gets Tape.mem
  forEach m.held fun e => when (e.2 ≠ []) do
    let _ ← writePart e.2 e.1 .held
  setMem fun m => { m with held := [], heldSeen := [] }

/- The wall-clock sweep. -/

structure FinalizeOutcome where
  finalized : Nat
  failed : List Int
  deriving DecidableEq, Repr

/-- An hour's finalization, with whether its final was there before it and is there after it. -/
structure Attempt where
  hour : Int
  alreadyFinal : Bool
  isFinal : Bool
  deriving DecidableEq, Repr

def attemptHour (hour : Int) (finalize : Seg Unit) : Seg Attempt := do
  let before ← filesOf hour
  finalize
  let after ← filesOf hour
  pure ⟨hour, before.final.isSome, after.final.isSome⟩

def finalizeOpen (cutoff : Int) : Seg (List Attempt) := do
  let m ← gets Tape.mem
  match m.currentHour.filter (· < cutoff) with
  | none => pure []
  | some hour => do
      let attempted ← attemptHour hour (finalizeHour hour)
      setMem fun m => { m with currentHour := none }
      pure [attempted]

def finalizeCompletedHours (cutoff : Int) : Seg FinalizeOutcome := do
  if ← env World.oracle then raise
  else do
    let opened ← finalizeOpen cutoff
    let stuck ← gets fun t => t.disk.hoursWith fun f => f.merging.isSome && f.final.isNone
    let left ← gets fun t => t.disk.hoursWith fun f => f.parts ≠ []
    let swept ← collect (left.filter (· < cutoff)) fun hour => attemptHour hour (mergeHour hour)
    let attempts := opened ++ swept
    let finalized := (attempts.filter fun a => a.isFinal && !a.alreadyFinal).map Attempt.hour
    let failed := (attempts.filter fun a => !a.isFinal).map Attempt.hour
    setMem fun m => { m with
      floor := (m.floor.toList ++ finalized.map (· + hourMicros)).max? }
    pure ⟨finalized.length,
      (stuck.filter (· < cutoff) ++ failed).dedup.insertionSort (· ≤ ·)⟩

/- Construction. -/

/-- A merging file that is gone is one that can neither be read nor be set aside. -/
def recoverHour (hour : Int) : Seg Unit := do
  let f ← filesOf hour
  if f.final.isSome then pure ()
  else if f.merging.isNone then raise
  else if ← readsBack then commit hour
  else quarantine fun t => t.quarantineMerging hour

/-- An hour a segment closes, unless it is dated in the future. -/
def closedHour (hour : Int) : Seg (Option Int) := do
  let now ← utcnow
  pure (if now + maxTsAhead < hour then none else some hour)

def recover : Seg Unit := do
  let hours ← gets fun t => t.disk.hoursWith fun f => f.merging.isSome
  forEach hours fun hour => attempt (recoverHour hour) (pure ())
  let segments ← gets fun t =>
    t.disk.hoursWith (fun f => f.final.isSome) ++ t.disk.hoursWith (fun f => f.merging.isSome)
  let closed ← collect segments closedHour
  setMem fun m => { m with floor := closed.reduceOption.max?.map (· + hourMicros) }

def Mem.fresh (now : Int) : Mem := ⟨[], [], [], none, none, now, [], none, 0, none⟩

def construct : Seg Unit := do
  let now ← utcnow
  setMem fun _ => Mem.fresh now
  recover

/- Runs. -/

inductive Input where
  | start
  | append (event : Row)
  | close
  | finalizeCompletedHours (cutoff : Int)
  deriving DecidableEq, Repr

/-- A process that died answers to nothing but a start. -/
structure System where
  tape : Tape
  alive : Bool

def System.blank : System :=
  ⟨⟨⟨[], fun _ => HourFiles.blank⟩, Mem.fresh 0, 0, []⟩, false⟩

def System.after {α : Type} : Outcome α × Tape → System
  | (.died, t) => ⟨t, false⟩
  | (_, t) => ⟨t, true⟩

def System.answer {α : Type} (s : System) (w : World) (m : Seg α) : System :=
  if s.alive then .after (m w s.tape) else s

def step (w : World) (s : System) : Input → System
  | .start => .after (construct w s.tape)
  | .append event => s.answer w (append event)
  | .close => s.answer w close
  | .finalizeCompletedHours cutoff => s.answer w (finalizeCompletedHours cutoff)

def run (w : World) (inputs : List Input) : System := inputs.foldl (step w) System.blank

end Segments
