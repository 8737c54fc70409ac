import Zcrypto.Capture.OrderBook

/- The continuity replay of the canonical book archive, from every hour and from a checkpoint. An
   hour is its number from the epoch. What reads a segment and what digests it are parameters, a run
   finds one archive all the way through, and what a checkpoint row records for nobody to read is
   left out with the log lines. -/
namespace Continuity
open OrderBook

/-- A level of one message, as a segment holds it. -/
structure Row where
  ts : Int
  symbol : String
  type : String
  checksum : Option Int
  side : String
  price : Option Decimal
  qty : Option Decimal
  deriving DecidableEq, Repr

structure Message where
  ts : Int
  symbol : String
  type : String
  checksum : Option Int
  bids : List RawLevel
  asks : List RawLevel
  deriving DecidableEq, Repr

structure Verifier (Bytes : Type) where
  decode : Bytes → Except String (List Row)
  sha256 : Bytes → String
  depth : Int

structure ReplayResult where
  pair : String
  hour : Option Int
  rows : Nat
  messages : Nat
  anchored : Bool
  tsOrdered : Bool
  checksumPresent : Bool
  replayOk : Bool
  error : Option String
  deriving DecidableEq, Repr

def ReplayResult.passed (r : ReplayResult) : Bool :=
  r.error = none && r.anchored && r.tsOrdered && r.checksumPresent && r.replayOk

/-- The verdict on what could not be read. -/
def ReplayResult.failed (pair : String) (hour : Option Int) (error : String) : ReplayResult :=
  ⟨pair, hour, 0, 0, false, false, false, false, some error⟩

/-- A row put before the messages of the rows after it. -/
def regroupRow (row : Row) (later : List Message) : List Message :=
  let level := (row.price, row.qty)
  let bids := if row.side = "bid" then [level] else []
  let asks := if row.side = "bid" then [] else [level]
  match later with
  | m :: more =>
    if m.ts = row.ts ∧ m.symbol = row.symbol ∧ m.type = row.type ∧ m.checksum = row.checksum then
      { m with bids := bids ++ m.bids, asks := asks ++ m.asks } :: more
    else ⟨row.ts, row.symbol, row.type, row.checksum, bids, asks⟩ :: m :: more
  | [] => [⟨row.ts, row.symbol, row.type, row.checksum, bids, asks⟩]

/-- The messages that consecutive rows came in. -/
def regroupMessages (frame : List Row) : List Message := frame.foldr regroupRow []

def ingest (b : Book) (m : Message) : Except String Book :=
  if m.type = "snapshot" then b.ingestSnapshot m.bids m.asks else b.ingestUpdate m.bids m.asks

def ingestAll (b : Book) (messages : List Message) : Except String Book := messages.foldlM ingest b

section
variable {Bytes : Type}

/-- One hour through a book of its own. A read that failed says why. -/
def replaySegment (v : Verifier Bytes) (pair : String) (hour : Int) (content : Except String Bytes) :
    ReplayResult :=
  match content >>= v.decode with
  | .error error => .failed pair hour error
  | .ok frame =>
    let messages := regroupMessages frame
    let ran := ingestAll ⟨v.depth, [], []⟩ messages
    { pair
      hour := hour
      rows := frame.length
      messages := messages.length
      anchored := messages.head?.any fun m => m.type = "snapshot"
      tsOrdered := decide ((frame.map Row.ts).Pairwise (· ≤ ·))
      checksumPresent := frame.all fun row => row.checksum.isSome
      replayOk := ran.toOption.isSome
      error := match ran with
        | .ok _ => none
        | .error error => some error }

/-- An hour is anchored where it opens with a snapshot, or where the hour just before it was
    anchored and without an error. What is known before is each pair's last hour, and whether it was. -/
def chainFrom (prev : String → Option Int × Bool) : List ReplayResult → List ReplayResult
  | [] => []
  | r :: rest =>
    let contiguous := match r.hour, (prev r.pair).1 with
      | some hour, some predecessor => hour = predecessor + 1
      | _, _ => false
    let anchored := r.anchored || (contiguous && (prev r.pair).2)
    { r with anchored } ::
      chainFrom (Function.update prev r.pair (r.hour, anchored && r.error = none)) rest

def chainAnchor (results : List ReplayResult) : List ReplayResult :=
  chainFrom (fun _ => (none, false)) results

abbrev Key := String × Int

/-- A canonical hour, with the words of its sidecar where it has one. -/
structure Segment (Bytes : Type) where
  pair : String
  hour : Int
  bytes : Bytes
  sidecar : Option (List String)

def Segment.key (s : Segment Bytes) : Key := (s.pair, s.hour)

/-- The canonical hours in their order, each of them once. -/
structure Archive (Bytes : Type) where
  segments : List (Segment Bytes)
  ordered : segments.Pairwise fun a b => a.pair = b.pair ∧ a.hour < b.hour ∨ a.pair < b.pair

def verifyReplay (v : Verifier Bytes) (pair : Option String) (since : Option Int)
    (archive : Archive Bytes) : List ReplayResult :=
  chainAnchor ((archive.segments.filter fun s => pair.all (s.pair = ·) && since.all (· ≤ s.hour)).map
    fun s => replaySegment v s.pair s.hour (.ok s.bytes))

end

/- The incremental replay. -/

def verifierVersion : Int := 1
def flushEvery : Nat := 250

/-- One hour's raw facts, and the digest of the bytes that they are facts of. -/
structure CheckpointRow where
  pair : String
  hour : Int
  byteHash : String
  verifierVersion : Int
  opensWithSnapshot : Bool
  tsOrdered : Bool
  checksumPresent : Bool
  replayOk : Bool
  error : Option String
  rows : Nat
  messages : Nat
  deriving DecidableEq, Repr

def CheckpointRow.key (row : CheckpointRow) : Key := (row.pair, row.hour)

def CheckpointRow.result (row : CheckpointRow) : ReplayResult :=
  ⟨row.pair, row.hour, row.rows, row.messages, row.opensWithSnapshot, row.tsOrdered,
    row.checksumPresent, row.replayOk, row.error⟩

abbrev Checkpoint := List CheckpointRow

def Checkpoint.get (c : Checkpoint) (k : Key) : Option CheckpointRow := c.find? fun row => row.key = k

def Checkpoint.put (c : Checkpoint) (row : CheckpointRow) : Checkpoint :=
  if c.any fun old => old.key = row.key then c.map fun old => if old.key = row.key then row else old
  else c ++ [row]

/-- No rows are not saved. -/
def saveCheckpoint (rows : Checkpoint) (before : Option Checkpoint) : Option Checkpoint :=
  if rows.isEmpty then before else some rows

structure Census where
  replayed : Nat
  reused : Nat
  audited : Nat
  auditMismatches : List Key
  pending : Nat
  evicted : Nat
  durationS : ℚ
  deriving DecidableEq, Repr

structure Options where
  drainBudgetS : ℚ
  auditK : Int
  reverifyAll : Bool

/-- The clock's readings, the reads that failed, by hour, and the places that a sample of so many
    out of so many takes. -/
structure Night where
  started : ℚ
  drainStarted : ℚ
  checked : Nat → ℚ
  ended : ℚ
  probeFails : Key → Bool
  bytesFail : Key → Option String
  segmentFails : Key → Option String
  manifestFails : Key → Bool
  sample : Nat → Nat → List Nat

section
variable {Bytes : Type}

def sidecarDigest (s : Segment Bytes) (fails : Bool) : Option String :=
  if fails then none else s.sidecar.bind List.head?

def cachedFailure (row : CheckpointRow) : Bool :=
  row.error.isSome || !(row.tsOrdered && row.checksumPresent && row.replayOk)

def isStale (row : CheckpointRow) (s : Segment Bytes) (reverifyAll probeFails : Bool) : Bool :=
  reverifyAll || row.verifierVersion ≠ verifierVersion || cachedFailure row ||
    sidecarDigest s probeFails ≠ some row.byteHash

/-- What the sidecar holds against the bytes that were replayed. -/
def manifestError (recorded : Option String) (byteHash : String) : Option String :=
  match recorded with
  | none => some "no manifest sidecar"
  | some digest =>
    if digest = byteHash then none
    else some ("manifest mismatch: sidecar " ++ digest ++ " != replayed bytes " ++ byteHash)

/-- The verdict on one hour, and the digest of the bytes it is on. -/
def replayHashed (v : Verifier Bytes) (night : Night) (s : Segment Bytes) : ReplayResult × String :=
  match night.bytesFail s.key with
  | some error => (.failed s.pair s.hour error, "")
  | none =>
    let byteHash := v.sha256 s.bytes
    let result := replaySegment v s.pair s.hour
      (match night.segmentFails s.key with
        | some error => .error error
        | none => .ok s.bytes)
    match manifestError (sidecarDigest s (night.manifestFails s.key)) byteHash with
    | none => (result, byteHash)
    | some manifest =>
      ({ result with error := some (match result.error with
          | none => manifest
          | some error => manifest ++ " (" ++ error ++ ")") }, byteHash)

def replayAndCheckpoint (v : Verifier Bytes) (night : Night) (s : Segment Bytes) :
    ReplayResult × CheckpointRow :=
  let (result, byteHash) := replayHashed v night s
  (result, ⟨s.pair, s.hour, byteHash, verifierVersion, result.anchored, result.tsOrdered,
    result.checksumPresent, result.replayOk, result.error, result.rows, result.messages⟩)

/-- The facts that an audit compares. -/
structure Facts where
  byteHash : String
  opensWithSnapshot : Bool
  tsOrdered : Bool
  checksumPresent : Bool
  replayOk : Bool
  error : Option String
  rows : Nat
  messages : Nat
  deriving DecidableEq, Repr

def auditFacts (row : CheckpointRow) : Facts :=
  ⟨row.byteHash, row.opensWithSnapshot, row.tsOrdered, row.checksumPresent, row.replayOk, row.error,
    row.rows, row.messages⟩

/-- The hours replayed so far, the rows so far, and every checkpoint that was saved on the way. -/
structure Work where
  fresh : List (Key × ReplayResult)
  rows : Checkpoint
  saves : List Checkpoint

def Work.replayOne (v : Verifier Bytes) (night : Night) (w : Work) (s : Segment Bytes) : Work :=
  let (result, row) := replayAndCheckpoint v night s
  let fresh := w.fresh ++ [(s.key, result)]
  let rows := w.rows.put row
  { fresh
    rows
    saves := if fresh.length % flushEvery = 0 then w.saves ++ [rows] else w.saves }

/-- The drain until its budget is spent, and what is then pending. -/
def drainFrom (v : Verifier Bytes) (o : Options) (night : Night) :
    Nat → List (Segment Bytes) → Work → Work × List (Segment Bytes)
  | _, [], w => (w, [])
  | i, s :: rest, w =>
    if o.drainBudgetS ≤ night.checked i - night.drainStarted then (w, s :: rest)
    else drainFrom v o night (i + 1) rest (w.replayOne v night s)

/-- The hours that no row covers. -/
def mandatory (checkpoint : Checkpoint) (archive : Archive Bytes) : List (Segment Bytes) :=
  archive.segments.filter fun s => (checkpoint.get s.key).isNone

/-- The hours whose row is stale, oldest first. -/
def drain (o : Options) (night : Night) (checkpoint : Checkpoint) (archive : Archive Bytes) :
    List (Segment Bytes) :=
  (archive.segments.filter fun s => (checkpoint.get s.key).any fun row =>
    isStale row s o.reverifyAll (night.probeFails s.key)).insertionSort
      fun a b => if a.hour = b.hour then a.pair ≤ b.pair else a.hour < b.hour

def present (archive : Archive Bytes) (row : CheckpointRow) : Bool :=
  archive.segments.any fun s => s.key = row.key

/-- What is replayed before the audit, and what is pending after it. -/
def sweep (v : Verifier Bytes) (o : Options) (night : Night) (checkpoint : Checkpoint)
    (archive : Archive Bytes) : Work × List (Segment Bytes) :=
  drainFrom v o night 0 (drain o night checkpoint archive)
    ((mandatory checkpoint archive).foldl (Work.replayOne v night)
      ⟨[], checkpoint.filter (present archive), []⟩)

/-- The verdict on an hour before the audit. -/
def Work.verdict (w : Work) (s : Segment Bytes) : Option ReplayResult :=
  match w.fresh.lookup s.key with
  | some result => some result
  | none => (w.rows.get s.key).map CheckpointRow.result

/-- The hours that are served from the checkpoint as current. -/
def reused (w : Work) (pending : List (Segment Bytes)) (archive : Archive Bytes) :
    List (Segment Bytes) :=
  archive.segments.filter fun s =>
    (w.fresh.lookup s.key).isNone && !pending.any fun p => p.key = s.key

def audited (o : Options) (reused : Nat) : Nat := min o.auditK.toNat reused

def sampled (o : Options) (night : Night) (reused : List (Segment Bytes)) : List (Segment Bytes) :=
  ((night.sample reused.length (audited o reused.length)).take (audited o reused.length)).filterMap
    fun i => reused[i]?

structure Audit where
  rows : Checkpoint
  results : List ReplayResult
  mismatches : List Key

def Audit.one (v : Verifier Bytes) (night : Night) (a : Audit) (s : Segment Bytes) : Audit :=
  let (result, row) := replayAndCheckpoint v night s
  { rows := a.rows.put row
    results := a.results.map fun r => if r.pair = s.pair ∧ r.hour = some s.hour then result else r
    mismatches := if (a.rows.get s.key).map auditFacts = some (auditFacts row) then a.mismatches
      else a.mismatches ++ [s.key] }

/-- The sampled hours among those that the checkpoint serves are replayed, and replace what it served. -/
def audit (v : Verifier Bytes) (o : Options) (night : Night) (w : Work) (kept : List (Segment Bytes))
    (archive : Archive Bytes) : Audit :=
  (sampled o night kept).foldl (Audit.one v night)
    ⟨w.rows, archive.segments.filterMap w.verdict, []⟩

/-- What a run saves, in order, and its answer, which is none where it refused to evict. -/
structure Run where
  saves : List Checkpoint
  answer : Option (List ReplayResult × Census)

def evictedRows (checkpoint : Checkpoint) (archive : Archive Bytes) : Checkpoint :=
  checkpoint.filter fun row => !present archive row

def verifyReplayIncremental (v : Verifier Bytes) (o : Options) (night : Night)
    (before : Option Checkpoint) (archive : Archive Bytes) : Run :=
  let checkpoint := before.getD []
  let evicted := (evictedRows checkpoint archive).length
  if archive.segments.isEmpty then
    ⟨[], some ([], ⟨0, 0, 0, [], 0, 0, night.ended - night.started⟩)⟩
  else if checkpoint.length < 10 * evicted then ⟨[], none⟩
  else
    let (w, pending) := sweep v o night checkpoint archive
    let kept := reused w pending archive
    let a := audit v o night w kept archive
    { saves := w.saves ++ [a.rows]
      answer := some (chainAnchor a.results,
        ⟨w.fresh.length, kept.length, audited o kept.length, a.mismatches, pending.length, evicted,
          night.ended - night.started⟩) }

/-- The archive and the checkpoint file, which is none where it is missing or cannot be read. -/
structure Host (Bytes : Type) where
  archive : Archive Bytes
  checkpoint : Option Checkpoint

/-- The checkpoint after some of a run's saves. -/
def Run.saved (r : Run) (k : Nat) (before : Option Checkpoint) : Option Checkpoint :=
  (r.saves.take k).foldl (fun file rows => saveCheckpoint rows file) before

end

end Continuity
