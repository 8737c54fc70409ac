import Zcrypto.Engine.Replay

/- The gate's scoring cache: what an outcome is remembered by, the slice of the journal each run
   replays whatever is remembered, and the evaluation of a journal with the cache or without it. A
   digest is the payload it is taken of. -/
namespace GateCaches
open Journal Replays

def cacheSchemaVersion : Nat := 2
def rotationSlices : Nat := 24

/- The evidence of a record. -/

def isNumber : Value → Bool
  | .bool _ | .int _ | .num _ | .notFinite _ => true
  | _ => false

def same (a b : Value) : Bool := a = b ∨ (a.number.isSome ∧ a.number = b.number)

/-- Whether two values have an order between them. -/
def orderable : Value → Value → Bool
  | .text _, .text _ => true
  | a, b => isNumber a && isNumber b || a = b

def valueLe : Value → Value → Bool
  | .text a, .text b => a ≤ b
  | a, b => match a.number, b.number with
    | some p, some q => p ≤ q
    | _, _ => true

/-- The pair first, and the grid where it is the same pair. -/
def byKey (order : Value → Value → Bool) (a b : SnapshotEntry) : Bool :=
  if same a.pair b.pair then order a.grid b.grid else order a.pair b.pair

structure Evidence where
  snapshots : List SnapshotEntry
  cycleTs : Stamp
  completedAt : Stamp
  finalTargets : List (String × Value)
  deriving DecidableEq, Repr

/-- What a verdict rests on, none where the snapshots have no order to be put in. -/
def evidenceFingerprint (r : CycleRecord) : Option Evidence :=
  if r.snapshots.Pairwise fun a b => byKey orderable a b then
    some ⟨r.snapshots.insertionSort fun a b => byKey valueLe a b, r.cycleTs, r.completedAt,
      r.finalTargets.items.insertionSort fun a b => a.1 ≤ b.1⟩
  else none

/- The cache. -/

structure CacheEntry where
  evidenceFp : Evidence
  outcome : CycleOutcome
  verifiedAt : Int
  deriving DecidableEq, Repr

def CacheEntry.key (e : CacheEntry) : Moment := e.outcome.cycleTs.moment

structure GateCache where
  replayFp : String
  entries : List CacheEntry
  rejected : Bool
  deriving DecidableEq, Repr

def GateCache.entryAt (cache : GateCache) (cycleTs : Stamp) : Option CacheEntry :=
  cache.entries.find? fun e => e.key = cycleTs.moment

/-- An entry in the place of the one under its key. -/
def put (e : CacheEntry) (entries : List CacheEntry) : List CacheEntry :=
  entries.filter (·.key ≠ e.key) ++ [e]

inductive CacheFile where
  | absent
  | saved (schemaVersion : Nat) (replayFp : String) (entries : List CacheEntry)
  deriving DecidableEq, Repr

/-- An empty cache wherever the file is not one of this code, or does not read. -/
def loadCache (reads : Bool) (file : CacheFile) (replayFp : String) : GateCache :=
  match file with
  | .absent => ⟨replayFp, [], false⟩
  | .saved schemaVersion savedFp entries =>
    if reads ∧ schemaVersion = cacheSchemaVersion ∧ savedFp = replayFp then
      ⟨replayFp, entries.foldl (fun kept e => put e kept) [], false⟩
    else ⟨replayFp, [], true⟩

/-- Entries of mixed awareness have no order to be written in. -/
def sortable (entries : List CacheEntry) : Bool :=
  entries.all (·.key.aware) || entries.all (!·.key.aware)

/-- A failed write leaves the previous file. -/
def saveCache (writes : Bool) (file : CacheFile) (cache : GateCache) : CacheFile :=
  if writes ∧ sortable cache.entries then .saved cacheSchemaVersion cache.replayFp cache.entries
  else file

def oldestVerificationAge (cache : GateCache) (now : Int) : Option Int :=
  (cache.entries.map CacheEntry.verifiedAt).min?.map (now - ·)

/- One run. -/

/-- What a run finds: the journal's artifacts under the boundaries they are named for, the deployed
    code and whether it could be fingerprinted, the slice where a cache is asked for, and whether the
    cache's file reads and writes. -/
structure Visit where
  records : List (Stamp × Option CycleRecord)
  sidecars : List (Stamp × Option (Stamp × Stamp))
  code : String
  fingerprinted : Bool
  slice : Option Nat
  reads : Bool
  writes : Bool
  now : Int

structure JournalCounts where
  replayedOk : Nat
  mismatches : Nat
  validationFailures : Nat
  sidecarCount : Nat
  deriving DecidableEq, Repr

structure CacheStats where
  replayed : Nat
  fromCache : Nat
  invalidated : Bool
  oldestVerificationAge : Option Int
  deriving DecidableEq, Repr

/-- What a run makes of the journal. -/
structure Verdicts where
  entries : List CycleOutcome
  counts : JournalCounts
  newestTs : Option Stamp
  deriving DecidableEq, Repr

structure Tally where
  outcomes : List CycleOutcome
  updated : List CacheEntry
  replayed : Nat
  fromCache : Nat
  deriving DecidableEq, Repr

def unread (boundary : Stamp) : CycleOutcome := ⟨boundary, boundary, true, false, true⟩

def sidecarOutcome (sidecar : Stamp × Option (Stamp × Stamp)) : CycleOutcome :=
  match sidecar.2 with
  | some (cycleTs, completedAt) => ⟨cycleTs, completedAt, true, false, true⟩
  | none => unread sidecar.1

def countOf (outcomes : List CycleOutcome) (sidecars : Nat) : JournalCounts where
  replayedOk := outcomes.countP fun o => !o.validationFailed && !o.mismatch && o.comparePassed
  mismatches := outcomes.countP fun o => !o.validationFailed && (o.mismatch || !o.comparePassed)
  validationFailures := outcomes.countP (·.validationFailed)
  sidecarCount := sidecars

def later (a b : Stamp) : Stamp := if a.moment.instant < b.moment.instant then b else a

/-- The newest of some stamps, none where their awareness is mixed. -/
def newest : List Stamp → Option (Option Stamp)
  | [] => some none
  | first :: rest =>
    if rest.all (·.moment.aware = first.moment.aware) then some (some (rest.foldl later first))
    else none

def verdictsOf (outcomes : List CycleOutcome) (sidecars : List (Stamp × Option (Stamp × Stamp))) :
    Option Verdicts :=
  let entries := outcomes ++ sidecars.map sidecarOutcome
  (newest (entries.map CycleOutcome.cycleTs)).map fun newestTs =>
    ⟨entries, countOf outcomes sidecars.length, newestTs⟩

section
variable (digest : Stamp → Nat) (contentHash : Series → String) (build : String → Builder)
  (files : String → Option Series)

/-- A cycle's slice is its own for all time. -/
def sliceOf (cycleTs : Stamp) : Nat := digest cycleTs % rotationSlices

def dueForReverification (cycleTs : Stamp) (sliceIndex : Nat) : Bool :=
  sliceOf digest cycleTs = sliceIndex % rotationSlices

/-- What a record's outcome is remembered by, where a cache is in use. -/
def fingerprint (cache : Option GateCache) (r : CycleRecord) : Option Evidence :=
  if cache.isSome then evidenceFingerprint r else none

/-- The remembered outcome a record is served. -/
def served (cache : Option GateCache) (slice : Nat) (r : CycleRecord) : Option CacheEntry :=
  match cache.bind (·.entryAt r.cycleTs) with
  | none => none
  | some e =>
    if fingerprint cache r = some e.evidenceFp ∧ !dueForReverification digest r.cycleTs slice then
      some e
    else none

/-- An outcome entered into the tally, and into the cache where it can be remembered. -/
def Tally.add (t : Tally) (fp : Option Evidence) (outcome : CycleOutcome) (verifiedAt : Int)
    (hit : Bool) : Tally where
  outcomes := t.outcomes ++ [outcome]
  updated := match fp with
    | some fp => put ⟨fp, outcome, verifiedAt⟩ t.updated
    | none => t.updated
  replayed := if hit then t.replayed else t.replayed + 1
  fromCache := if hit then t.fromCache + 1 else t.fromCache

def score (v : Visit) (cache : Option GateCache) (r : CycleRecord) (t : Tally) : Option Tally :=
  match served digest cache (v.slice.getD 0) r with
  | some e => some (t.add (fingerprint cache r) e.outcome e.verifiedAt true)
  | none =>
    (replayOne contentHash (build v.code) files r).map fun outcome =>
      t.add (fingerprint cache r) outcome v.now false

def scoreAll (v : Visit) (cache : Option GateCache) :
    List (Stamp × Option CycleRecord) → Tally → Option Tally
  | [], t => some t
  | (boundary, none) :: rest, t =>
    scoreAll v cache rest { t with outcomes := t.outcomes ++ [unread boundary] }
  | (_, some r) :: rest, t => (score digest contentHash build files v cache r t).bind fun t =>
      scoreAll v cache rest t

/-- The cache a run uses. -/
def cacheOf (v : Visit) (file : CacheFile) : Option GateCache :=
  if v.slice.isSome ∧ v.fingerprinted then some (loadCache v.reads file v.code) else none

/-- The evaluation, none where it raises, and the file it leaves. -/
def evaluateJournal (v : Visit) (file : CacheFile) : Option (Verdicts × CacheStats) × CacheFile :=
  let cache := cacheOf v file
  match scoreAll digest contentHash build files v cache v.records ⟨[], [], 0, 0⟩ with
  | none => (none, file)
  | some t => match verdictsOf t.outcomes v.sidecars with
    | none => (none, file)
    | some verdicts =>
      let final : GateCache := ⟨v.code, t.updated, false⟩
      (some (verdicts, ⟨t.replayed, t.fromCache, cache.any GateCache.rejected,
          if cache.isSome then oldestVerificationAge final v.now else none⟩),
        if cache.isSome then saveCache v.writes file final else file)

/-- The file after some runs, one after another. -/
def fileAfter (visits : List Visit) : CacheFile :=
  visits.foldl (fun file v => (evaluateJournal digest contentHash build files v file).2) .absent

end

/-- The same run with no cache asked for. -/
def Visit.uncached (v : Visit) : Visit := { v with slice := none }

end GateCaches
