import Mathlib.Data.List.Dedup
import Mathlib.Data.List.Sort
import Mathlib.Logic.Relation

/- The attempts of a log against the records and readings that landed. The metrics of a run are of any
   type with a digest, and what the liveness test says of a begin is a parameter. Buckets are left out,
   and so is what only an orphan's description reads. -/
namespace Reconcile

/-- The arguments of a run, which its invocation holds beside the commit of the code. -/
structure Arguments where
  subject : String
  dataset : String
  window : Option (String × String)
  asOf : Option String
  acceptHoles : Bool
  comparatorTrial : Option Int
  deriving DecidableEq, Repr

structure Invocation extends Arguments where
  commit : String
  deriving DecidableEq, Repr

def arguments (invocation : Invocation) : Arguments := invocation.toArguments

structure Begin where
  attempt : Nat
  pid : Int
  boot : String
  invocation : Invocation
  specHash : String
  family : String
  lineHash : String
  deriving DecidableEq, Repr

/-- An end as it is written: one outcome, metrics unless it failed, and their digest. -/
structure End {M : Type} (digest : M → String) where
  attempt : Nat
  verdict : Option String
  stop : Option String
  failed : Option String
  metrics : Option M
  metricsHash : Option String
  one : [verdict, stop, failed].countP Option.isNone = 2
  held : metrics.isSome = failed.isNone
  hashed : metricsHash = metrics.map digest

inductive Line {M : Type} (digest : M → String) where
  | genesis
  | begins (b : Begin)
  | ends (e : End digest)

structure Attempt {M : Type} (digest : M → String) where
  id : Nat
  began : Begin
  ended : Option (End digest)

section
variable {M : Type} {digest : M → String}

def beginOf : Line digest → Option Begin
  | .begins b => some b
  | _ => none

def endOf : Line digest → Option (End digest)
  | .ends e => some e
  | _ => none

/-- What the chain of a log is checked for, but for its hashes: the attempts begun, and those open. -/
def verifyLine (state : Nat × List Nat) : Line digest → Option (Nat × List Nat)
  | .genesis => none
  | .begins b =>
    if b.attempt = state.1 + 1 then some (state.1 + 1, state.2 ++ [b.attempt]) else none
  | .ends e => if e.attempt ∈ state.2 then some (state.1, state.2.erase e.attempt) else none

def verifyChain : List (Line digest) → Bool
  | .genesis :: lines => (lines.foldlM verifyLine (0, [])).isSome
  | _ => false

/-- The last line of an attempt stands for it, as in a dict by attempt. -/
def attemptsOf (lines : List (Line digest)) : List (Attempt digest) :=
  let begins := lines.filterMap beginOf
  let ends := lines.filterMap endOf
  ((begins.map Begin.attempt).dedup.insertionSort (· ≤ ·)).filterMap fun id =>
    (begins.reverse.find? fun b => b.attempt = id).map fun b =>
      ⟨id, b, ends.reverse.find? fun e => e.attempt = id⟩

/- What landed. -/

/-- What an attempt is known by. -/
structure Ref where
  log : String
  id : Nat
  began : String
  deriving DecidableEq, Repr

structure Absorbed where
  id : Nat
  began : String
  deriving DecidableEq, Repr

structure Reference where
  log : String
  id : Nat
  began : String
  absorbs : List Absorbed
  deriving DecidableEq, Repr

/-- An attempt that a record lists as counted. -/
structure Entry (M : Type) where
  log : String
  id : Nat
  began : String
  family : String
  subject : String
  specHash : String
  verdict : String
  metrics : M

structure RecordAttempt (M : Type) extends Reference where
  counted : List (Entry M)

def isHex (length : Nat) (text : String) : Bool :=
  text.toList.length = length && text.toList.all fun c => c.isDigit || ('a' ≤ c && c ≤ 'f')

def validReference (attempt : Reference) : Bool :=
  isHex 32 attempt.log && 1 ≤ attempt.id && isHex 64 attempt.began &&
    attempt.absorbs.all (fun absorbed =>
      1 ≤ absorbed.id && absorbed.id < attempt.id && isHex 64 absorbed.began) &&
    (attempt.absorbs.map Absorbed.id).Nodup

def verdicts : List String := ["adopt", "reject", "park"]

def validEntry (entry : Entry M) : Bool :=
  isHex 32 entry.log && 1 ≤ entry.id && isHex 64 entry.began && isHex 64 entry.specHash &&
    entry.family ≠ "" && entry.subject ≠ "" && entry.verdict ∈ verdicts

def validRecordAttempt (attempt : RecordAttempt M) : Bool :=
  validReference attempt.toReference && attempt.counted.all validEntry &&
    (attempt.counted.map fun entry => (entry.log, entry.id)).Nodup &&
    attempt.counted.all fun entry => (entry.log, entry.id) ≠ (attempt.log, attempt.id) &&
      (entry.log ≠ attempt.log || entry.id ∉ attempt.absorbs.map Absorbed.id)

structure LandedRecord (M : Type) where
  trialId : Int
  family : String
  recordHash : String
  attempt : Option { attempt : RecordAttempt M // validRecordAttempt attempt = true }

structure LandedReading where
  recordHash : String
  attempt : Option { attempt : Reference // validReference attempt = true }

structure Landed (M : Type) where
  records : List (LandedRecord M)
  readings : List LandedReading

def Reference.ref (attempt : Reference) : Ref := ⟨attempt.log, attempt.id, attempt.began⟩
def Entry.ref (entry : Entry M) : Ref := ⟨entry.log, entry.id, entry.began⟩

def LandedRecord.reference (record : LandedRecord M) : Option Reference :=
  record.attempt.map fun attempt => attempt.1.toReference

def LandedReading.reference (reading : LandedReading) : Option Reference :=
  reading.attempt.map Subtype.val

def LandedRecord.counted (record : LandedRecord M) : List (Entry M) :=
  record.attempt.elim [] fun attempt => attempt.1.counted

/-- What an entry counts once by: its attempt where it carries one, else its hash. -/
inductive LandingKey where
  | attempt (ref : Ref)
  | hash (recordHash : String)
  deriving DecidableEq, Repr

def landingKey (reference : Option Reference) (recordHash : String) : LandingKey :=
  match reference with
  | some attempt => .attempt attempt.ref
  | none => .hash recordHash

def keepFirst {E : Type} (key : E → LandingKey) (state : List (LandingKey) × List E) (entry : E) :
    List (LandingKey) × List E :=
  if key entry ∈ state.1 then state else (key entry :: state.1, state.2 ++ [entry])

def once {E : Type} (key : E → LandingKey) (entries : List E) : List E :=
  (entries.foldl (keepFirst key) ([], [])).2

def collect (records : List (LandedRecord M)) (readings : List LandedReading) : Landed M where
  records := once (fun record => landingKey record.reference record.recordHash) records
  readings := once (fun reading => landingKey reading.reference reading.recordHash) readings

/-- The attempts that entries landed, and those they absorbed. -/
def Reference.landed (attempt : Reference) : List Ref :=
  attempt.ref :: attempt.absorbs.map fun absorbed => ⟨attempt.log, absorbed.id, absorbed.began⟩

def landedIds (landed : Landed M) : List Ref :=
  (landed.records.filterMap LandedRecord.reference ++
    landed.readings.filterMap LandedReading.reference).flatMap Reference.landed

/- The count. -/

structure Orphan (M : Type) where
  log : String
  id : Nat
  began : String
  family : String
  subject : String
  specHash : String
  verdict : Option String
  metrics : Option M
  listedBy : Option Int

structure Count (M : Type) where
  records : List (LandedRecord M)
  orphans : List (Orphan M)
  absorbs : List Absorbed

def Count.requiredN (count : Count M) (family : String) : Nat :=
  count.records.countP (fun record => record.family = family) +
    count.orphans.countP (fun orphan => orphan.family = family) + 1

/-- The runs that one count is about: the log, the attempt that asks, the arguments it holds out, and
    whether it holds out finished attempts too. -/
structure Asks where
  logId : String
  own : Option Nat
  hold : Option (String × Arguments × String)
  holdFinished : Bool

def Attempt.ref (x : Attempt digest) (logId : String) : Ref := ⟨logId, x.id, x.began.lineHash⟩

def absorbs (x y : Attempt digest) (own : Option Nat) (gone listed : Bool) : Bool :=
  if y.id ≤ x.id ∨ (listed ∧ some y.id ≠ own) then false
  else if arguments y.began.invocation ≠ arguments x.began.invocation ∨
      y.began.specHash ≠ x.began.specHash then false
  else match x.ended, y.ended with
    | some e, some f => e.metricsHash.isSome && f.metricsHash = e.metricsHash && f.verdict = e.verdict &&
        f.stop = e.stop
    | none, some _ => gone
    | _, none => false

def absorber (x : Attempt digest) (attempts : List (Attempt digest)) (own : Option Nat)
    (gone listed : Bool) : Option Nat :=
  (attempts.find? fun y => absorbs x y own gone listed).map Attempt.id

def heldKey (x : Attempt digest) : String × Arguments × String :=
  (x.began.invocation.subject, arguments x.began.invocation, x.began.specHash)

def Attempt.orphan (x : Attempt digest) (logId : String) : Orphan M where
  log := logId
  id := x.id
  began := x.began.lineHash
  family := x.began.family
  subject := x.began.invocation.subject
  specHash := x.began.specHash
  verdict := x.ended.bind End.verdict
  metrics := x.ended.bind End.metrics
  listedBy := none

def Entry.orphan (entry : Entry M) (trialId : Int) : Orphan M where
  log := entry.log
  id := entry.id
  began := entry.began
  family := entry.family
  subject := entry.subject
  specHash := entry.specHash
  verdict := some entry.verdict
  metrics := some entry.metrics
  listedBy := some trialId

def listers (landed : Landed M) : List (LandedRecord M) :=
  landed.records.insertionSort fun a b => a.trialId ≤ b.trialId

/-- What the records list as counted, each entry beside its record's trial. -/
def listings (landed : Landed M) : List (Int × Entry M) :=
  (listers landed).flatMap fun record => record.counted.map fun entry => (record.trialId, entry)

variable (alive : Begin → Bool) (asks : Asks)

/-- What becomes of a local attempt. -/
inductive Class where
  | own
  | landed
  | absorbed (absorber : Nat)
  | idle
  | held
  | orphan
  deriving DecidableEq, Repr

def isListed (landed : Landed M) (x : Attempt digest) : Bool :=
  x.ref asks.logId ∈ (listings landed).map fun (_, entry) => entry.ref

def isGone (x : Attempt digest) : Bool := x.ended.isNone && !alive x.began

def classOf (landed : Landed M) (attempts : List (Attempt digest)) (x : Attempt digest) : Class :=
  if some x.id = asks.own then .own
  else if x.ref asks.logId ∈ landedIds landed then .landed
  else
    let listed := isListed asks landed x
    let gone := isGone alive x
    match absorber x attempts asks.own gone listed with
    | some y => .absorbed y
    | none =>
      if (x.ended.bind End.stop).isSome ∧ listed = false then .idle
      else if (x.ended.bind End.failed).isSome ∧ listed = false then .idle
      else if asks.hold = some (heldKey x) ∧ (gone ∨ (x.ended.isSome ∧ asks.holdFinished)) then .held
      else .orphan

def visit (landed : Landed M) (attempts : List (Attempt digest))
    (found : List (Orphan M) × List Absorbed) (x : Attempt digest) :
    List (Orphan M) × List Absorbed :=
  match classOf alive asks landed attempts x with
  | .absorbed y =>
    if some y = asks.own then (found.1, found.2 ++ [⟨x.id, x.began.lineHash⟩]) else found
  | .orphan => (found.1 ++ [x.orphan asks.logId], found.2)
  | _ => found

/-- A listed attempt is carried once, where nothing has landed it and it is not of this log. -/
def carry (ids mine : List Ref) (state : List Ref × List (Orphan M)) (listing : Int × Entry M) :
    List Ref × List (Orphan M) :=
  let ref := listing.2.ref
  if ref ∈ state.1 then state
  else if ref ∉ ids ∧ ref ∉ mine then (ref :: state.1, state.2 ++ [listing.2.orphan listing.1])
  else (ref :: state.1, state.2)

def reconcile (lines : List (Line digest)) (landed : Landed M) : Count M :=
  let attempts := attemptsOf lines
  let found := attempts.foldl (visit alive asks landed attempts) ([], [])
  let mine := attempts.map fun x => x.ref asks.logId
  let carried := (listings landed).foldl (carry (landedIds landed) mine) ([], found.1)
  ⟨landed.records, carried.2, found.2⟩

end

end Reconcile
