import Zcrypto.Capture.Calls

/- The poller of closed liquidation buckets: a writer for each coin, and the newest bucket it was
   given. A cycle asks for the whole window again. The request's texts, the log lines, the counters
   and the ping are left out, and a bucket's start is a whole number of seconds. -/
namespace Coinalyze
open Segments Effects Effects.Prog

def coins : List String := ["BTC", "ETH", "SOL", "ADA", "XRP", "LTC", "LINK", "DOT", "AVAX", "DOGE"]

def symbolFor (coin : String) : String := coin ++ "USDT_PERP.A"

def coinOf (symbol : String) : Option String := coins.find? fun coin => symbolFor coin = symbol

def second : Int := 1000000
def bucketSeconds : Int := 60
def closeMarginSeconds : Int := 120
def catchupWindowSeconds : Int := 30 * 3600
def finalizeLagSeconds : Int := 31 * 3600

/-- A bucket of an answer, with its two sides where they are numbers. -/
structure Bucket where
  t : Int
  sides : Option String
  deriving DecidableEq, Repr

/-- What an answer has for a symbol, with its history where it can be put in order. -/
structure Entry where
  symbol : String
  history : Option (List Bucket)
  deriving DecidableEq, Repr

inductive DiskCheck where
  | unmeasurable | breached | healthy
  deriving DecidableEq, Repr

/-- The files and the clock are the writers' own. An answer is none where the request fails, and an
    entry none where it is no object. -/
structure Host where
  world : World
  fetch : Nat → Int → Int → Option (List (Option Entry))
  check : Nat → DiskCheck
  primes : Nat → Bool

/-- The writers' tapes, the marks, and what was asked of the host. The rows that a call took out of a
    buffer and did not write, and those that were received, each with the request, are there to speak
    about. -/
structure Poller where
  tapes : String → Tape
  marks : String → Option Int
  asked : Nat
  dropped : String → List Row
  received : String → List (Nat × Row)

abbrev Poll := Prog Host Poller

/- The writers. -/

/-- They drop repeated keys and have no oracle. -/
def settings (w : World) : World := { w with dedup := true, oracle := false }

def writer {α : Type} (coin : String) (call : Seg α) : Poll α := fun h p =>
  let out := call (settings h.world) { p.tapes coin with asked := p.asked }
  (out.1, { p with tapes := Function.update p.tapes coin out.2, asked := out.2.asked })

/-- The rows in memory before a call that are neither in memory nor on disk after it, where a file
    operation of the call failed. -/
def droppedBy (w : World) (rows : List Row) (asked : Nat) (t : Tape) : List Row :=
  if Failed w asked t.asked then
    rows.filter fun r => r ∉ t.mem.buffer ∧ r ∉ landedRows t.trace
  else []

def writing {α : Type} (coin : String) (offered : List Row) (call : Seg α) : Poll α := fun h p =>
  let out := writer coin call h p
  let gone := droppedBy h.world ((p.tapes coin).mem.buffer ++ offered) p.asked (out.2.tapes coin)
  (out.1, { out.2 with dropped := Function.update p.dropped coin (p.dropped coin ++ gone) })

/- The host. -/

def utcnow : Poll Int := fun h p => (.ok (h.world.clock p.asked), { p with asked := p.asked + 1 })

def fetchLiquidationHistory (frm upto : Int) : Poll (List (Option Entry)) := fun h p =>
  match h.fetch p.asked frm upto with
  | some payload => (.ok payload, { p with asked := p.asked + 1 })
  | none => (.raised, { p with asked := p.asked + 1 })

def checkDisk : Poll DiskCheck := fun h p => (.ok (h.check p.asked), { p with asked := p.asked + 1 })

def readsNewest : Poll Bool := fun h p => (.ok (h.primes p.asked), { p with asked := p.asked + 1 })

/- Priming. -/

/-- The rows of an hour that a reader of its final and its parts sees. -/
def visible (f : HourFiles) : List Row := f.final.getD [] ++ f.parts.flatMap File.rows

def newestHour (d : Disk) : Option Int :=
  (d.hoursWith fun f => f.final.isSome || f.parts ≠ []).getLast?

def newestMark (d : Disk) : Option Int := do
  let hour ← newestHour d
  let ts ← ((visible (d.files hour)).map Row.ts).max?
  pure (ts / second)

/-- A coin whose newest hour cannot be read has no mark. -/
def primeCoin (coin : String) : Poll Unit := do
  let readable ← readsNewest
  if readable then modify fun p =>
    { p with marks := Function.update p.marks coin (newestMark (p.tapes coin).disk) }
  else pure ()

def primeBucketWatermarks : Poll Unit := do
  modify fun p => { p with marks := fun _ => none }
  forEach coins primeCoin

/- A cycle. -/

def bucketRow (symbol : String) (t : Int) (sides : String) : Row :=
  ⟨t * second, symbol ++ "-" ++ toString t, sides⟩

def Poller.mark (p : Poller) (coin : String) : Int := (p.marks coin).getD (-1)

/-- A bucket that is not proven closed, or not past the mark, never reaches the writer. -/
def offer (coin symbol : String) (cutoff : Int) (b : Bucket) : Poll Unit := do
  let p ← get
  if cutoff < b.t + bucketSeconds then pure ()
  else if b.t ≤ p.mark coin then pure ()
  else do
    let sides ← orRaise b.sides
    writing coin [bucketRow symbol b.t sides] (append (bucketRow symbol b.t sides))
    modify fun p =>
      { p with marks := Function.update p.marks coin (some (max b.t (p.mark coin))) }

/-- The rows of the closed buckets of a history. -/
def closedRows (symbol : String) (cutoff : Int) (history : List Bucket) : List Row :=
  history.filterMap fun b =>
    if cutoff < b.t + bucketSeconds then none else b.sides.map (bucketRow symbol b.t)

def Poller.receive (p : Poller) (coin : String) (asked : Nat) (rows : List Row) : Poller :=
  { p with
    received := Function.update p.received coin (p.received coin ++ rows.map fun r => (asked, r)) }

def takeEntry (asked : Nat) (cutoff : Int) (entry : Option Entry) : Poll Unit := do
  let entry ← orRaise entry
  match coinOf entry.symbol with
  | none => pure ()
  | some coin => do
      let history ← orRaise entry.history
      forEach (history.insertionSort (·.t ≤ ·.t)) (offer coin entry.symbol cutoff)
      modify fun p => p.receive coin asked (closedRows entry.symbol cutoff history)

def pollCycle : Poll Unit := do
  let now ← utcnow
  let asked ← gets Poller.asked
  let payload ← fetchLiquidationHistory (now / second - catchupWindowSeconds) (now / second)
  forEach payload (takeEntry asked (now / second - closeMarginSeconds))

/-- A sweep that raises ends the cycle; one that leaves an hour unwritten does not. -/
def sweepWriters (cutoff : Int) : List String → Poll Bool
  | [] => pure true
  | coin :: rest => do
      let outcome ← attempt (do
        let outcome ← writing coin [] (finalizeCompletedHours cutoff)
        pure (some outcome)) (pure none)
      match outcome with
      | none => pure false
      | some outcome => do
          let swept ← sweepWriters cutoff rest
          pure (decide (outcome.failed = []) && swept)

/-- Whether a cycle fully succeeded. -/
def pollOnce : Poll Bool := do
  let check ← checkDisk
  if check = .healthy then do
    let polled ← attempt (do pollCycle; pure true) (pure false)
    if polled then do
      let now ← utcnow
      sweepWriters (now - finalizeLagSeconds * second) coins
    else pure false
  else pure false

/- Runs. -/

def start : Poll Unit := do
  modify fun p => { p with received := fun _ => [] }
  forEach coins fun coin => writer coin construct
  primeBucketWatermarks

def stop : Poll Unit := forEach coins fun coin => writing coin [] close

inductive Input where
  | start | poll | stop
  deriving DecidableEq, Repr

/-- A process that stopped has closed every writer; one that ended has not. -/
inductive Stage where
  | ended | running | stopped
  deriving DecidableEq, Repr

structure System where
  poller : Poller
  stage : Stage

def System.blank : System :=
  ⟨⟨fun _ => Segments.System.blank.tape, fun _ => none, 0, fun _ => [], fun _ => []⟩, .ended⟩

/-- A process that was killed leaves its files, and answers to nothing but a start. -/
def step (h : Host) (s : System) : Input → System
  | .start => match start h s.poller with
    | (.ok _, p) => ⟨p, .running⟩
    | (_, p) => ⟨p, .ended⟩
  | .poll => if s.stage = .running then match pollOnce h s.poller with
      | (.ok _, p) => ⟨p, .running⟩
      | (.raised, p) => ⟨(stop h p).2, .ended⟩
      | (.died, p) => ⟨p, .ended⟩
    else s
  | .stop => if s.stage = .running then match stop h s.poller with
      | (.ok _, p) => ⟨p, .stopped⟩
      | (_, p) => ⟨p, .ended⟩
    else s

def run (h : Host) (inputs : List Input) : System := inputs.foldl (step h) System.blank

end Coinalyze
