import Zcrypto.JsonText
import Zcrypto.TextFile

/- The trial registry and the reading ledger: files of one record to a line, read whole, healed of a
   torn last line, and appended to under a lock. The validators and the digest are parameters. -/
namespace Registry
open JsonText TextFile

/-- Why a file or an append is refused. -/
inductive Refusal where
  | undecodable
  | malformed (line : Nat)
  | poison
  | unwritable
  | invalid
  | unread (key : String)
  | outOfPlace (key : String)
  | oldSchema (version : Int)
  | brokenLink
  | familyCount
  | caller
  deriving DecidableEq, Repr

section
variable {F : Type}

/- Records. -/

def fieldOf (members : List (String × Value F)) (key : String) : Option (Value F) :=
  (members.find? fun m => m.1 = key).map Prod.snd

def field (record : Value F) (key : String) : Option (Value F) :=
  match record with
  | .obj members => fieldOf members key
  | _ => none

/-- A field that the validators make an int, read as one. -/
def intAt (record : Value F) (key : String) : Except Refusal Int :=
  match field record key with
  | some (.int z) => .ok z
  | _ => .error (.unread key)

def textAt (record : Value F) (key : String) : Except Refusal String :=
  match field record key with
  | some (.str s) => .ok s
  | _ => .error (.unread key)

/-- The members of a dict given field by field. -/
def object (fields : List (String × Value F)) : List (String × Value F) :=
  fields.foldl (fun members f => put f.1 f.2 members) []

/-- A value as the program holds it. -/
abbrev Doc (F : Type) := { v : Value F // v.Canonical }

def genesisHash : String := String.ofList (List.replicate 64 '0')

/- What holds from one record to the next. -/

/-- What the records so far leave to check the next one against. -/
structure Walk where
  idx : Nat
  prev : String
  seen : String → Nat

def Walk.start : Walk := ⟨0, genesisHash, fun _ => 0⟩

def refuseAnIdOutOfPlace (w : Walk) (record : Value F) (idKey : String) : Except Refusal Int := do
  let id ← intAt record idKey
  if id ≠ w.idx + 1 then .error (.outOfPlace idKey) else .ok id

def refuseABrokenLink (w : Walk) (record : Value F) : Except Refusal Unit := do
  let prev ← textAt record "prev_hash"
  if prev ≠ w.prev then .error .brokenLink else .ok ()

def schemaBelow (floats : Floats F) (record : Value F) (version : Int) : Except Refusal Bool :=
  match field record "schema_version" with
  | some (.int z) => .ok (z < version)
  | some (.float x) => .ok (floats.below x version)
  | _ => .error (.unread "schema_version")

/-- Every record past the last one of an older schema has the newer. -/
def refuseAnOldSchema (floats : Floats F) (record : Value F) (id past version : Int) :
    Except Refusal Unit := do
  if id > past then
    let below ← schemaBelow floats record version
    if below then .error (.oldSchema version) else .ok ()
  else .ok ()

def legacyUnprovenancedMaxTrialId : Int := 46
def invocationFloorTrialId : Int := 47
def attemptFloorTrialId : Int := 48
def attemptFloorReadingId : Int := 1

def trialStep (floats : Floats F) (w : Walk) (record : Value F) : Except Refusal Walk := do
  let id ← refuseAnIdOutOfPlace w record "trial_id"
  refuseAnOldSchema floats record id legacyUnprovenancedMaxTrialId 4
  refuseAnOldSchema floats record id invocationFloorTrialId 5
  refuseAnOldSchema floats record id attemptFloorTrialId 6
  refuseABrokenLink w record
  let family ← textAt record "family"
  let nTrials ← intAt record "n_trials_in_family"
  let prior := w.seen family
  if nTrials < prior + 1 then .error .familyCount
  else do
    let hash ← textAt record "record_hash"
    .ok ⟨w.idx + 1, hash, fun f => if f = family then prior + 1 else w.seen f⟩

def readingStep (floats : Floats F) (w : Walk) (record : Value F) : Except Refusal Walk := do
  let id ← refuseAnIdOutOfPlace w record "reading_id"
  refuseABrokenLink w record
  refuseAnOldSchema floats record id attemptFloorReadingId 2
  let hash ← textAt record "record_hash"
  .ok ⟨w.idx + 1, hash, w.seen⟩

/- The two stores. -/

/-- What a trial is appended with, and the instant it is appended at. -/
structure Trial (F : Type) where
  iteration : String
  family : String
  specHash : String
  datasets : Doc F
  invocation : Doc F
  seeds : List Int
  metrics : Doc F
  nTrialsInFamily : Int
  verdict : String
  runRef : String
  attempt : Doc F
  notes : String
  variant : Option String
  timestamp : String

structure Reading (F : Type) where
  iteration : String
  specHash : String
  invocation : Doc F
  datasets : Doc F
  metrics : Doc F
  outcome : Option String
  attempt : Doc F
  notes : String
  timestamp : String

def schemaVersion : Int := 6
def readingSchemaVersion : Int := 2

def Trial.caller (t : Trial F) : List (String × Value F) :=
  [("iteration", .str t.iteration), ("family", .str t.family), ("spec_hash", .str t.specHash),
    ("seeds", .arr (t.seeds.map .int)), ("metrics", t.metrics.1),
    ("n_trials_in_family", .int t.nTrialsInFamily), ("verdict", .str t.verdict),
    ("run_ref", .str t.runRef), ("notes", .str t.notes)] ++
  match t.variant with
  | some variant => [("variant", .str variant)]
  | none => []

def ofFamily (family : String) (record : Value F) : Bool :=
  match textAt record "family" with
  | .ok other => other = family
  | .error _ => false

def Trial.compose (disk : List (Value F)) (t : Trial F) :
    Except Refusal (List (String × Value F)) :=
  let prior := disk.countP (ofFamily t.family)
  if t.nTrialsInFamily < prior + 1 then .error .familyCount
  else .ok (object (t.caller ++
    [("schema_version", .int schemaVersion), ("timestamp", .str t.timestamp),
      ("datasets", t.datasets.1), ("invocation", t.invocation.1), ("attempt", t.attempt.1)]))

def Reading.caller (r : Reading F) : List (String × Value F) :=
  [("iteration", .str r.iteration), ("spec_hash", .str r.specHash),
    ("invocation", r.invocation.1), ("datasets", r.datasets.1), ("metrics", r.metrics.1),
    ("outcome", match r.outcome with | some outcome => .str outcome | none => .null),
    ("notes", .str r.notes), ("attempt", r.attempt.1)]

def Reading.compose (_ : List (Value F)) (r : Reading F) :
    Except Refusal (List (String × Value F)) :=
  .ok (object (r.caller ++
    [("schema_version", .int readingSchemaVersion), ("timestamp", .str r.timestamp)]))

/-- The checks of one record alone: of a stored one, and of what a caller gives before the file is
    opened. -/
structure Validators (F : Type) where
  storedRecord : Value F → Bool
  callerFields : Trial F → Bool
  storedReading : Value F → Bool
  readingFields : Reading F → Bool

/-- What the two stores do differently. -/
structure Ledger (F : Type) where
  Entry : Type
  idKey : String
  validate : Value F → Bool
  takes : Entry → Bool
  compose : List (Value F) → Entry → Except Refusal (List (String × Value F))
  step : Walk → Value F → Except Refusal Walk

def trialRegistry (floats : Floats F) (validators : Validators F) : Ledger F where
  Entry := Trial F
  idKey := "trial_id"
  validate := validators.storedRecord
  takes := validators.callerFields
  compose := Trial.compose
  step := trialStep floats

def readingLedger (floats : Floats F) (validators : Validators F) : Ledger F where
  Entry := Reading F
  idKey := "reading_id"
  validate := validators.storedReading
  takes := validators.readingFields
  compose := Reading.compose
  step := readingStep floats

inductive Book where
  | trials | readings
  deriving DecidableEq, Repr

def Book.store (floats : Floats F) (validators : Validators F) : Book → Ledger F
  | .trials => trialRegistry floats validators
  | .readings => readingLedger floats validators

namespace Ledger
variable (floats : Floats F) (ledger : Ledger F)

def assertCrossRecord (records : List (Value F)) : Except Refusal Walk :=
  records.foldlM ledger.step Walk.start

/-- The records of some lines, and whether the last of them is torn. -/
def readLines (ended : Bool) : Nat → List (List Char) → Except Refusal (List (Value F) × Bool)
  | _, [] => .ok ([], false)
  | i, line :: rest =>
    match loads floats line with
    | .ok record =>
      if ledger.validate record then do
        let (records, torn) ← readLines ended (i + 1) rest
        .ok (record :: records, torn)
      else .error .invalid
    | .error .malformed =>
      if rest.isEmpty ∧ ended = false then .ok ([], true) else .error (.malformed (i + 1))
    | .error .constant => .error .poison
    | .error .unwritable => .error .unwritable

/-- The records of a file, and the file as the read leaves it. -/
def readHealing (file : Option (List UInt8)) :
    Except Refusal (List (Value F)) × Option (List UInt8) :=
  match file with
  | none => (.ok [], none)
  | some raw =>
    if raw = [] then (.ok [], some raw)
    else match decode raw with
      | none => (.error .undecodable, some raw)
      | some text =>
        match ledger.readLines floats (endsNl text) 0 (lines text) with
        | .error refusal => (.error refusal, some raw)
        | .ok (records, torn) =>
          let kept := if torn then truncated raw else raw
          ((ledger.assertCrossRecord records).map fun _ => records, some kept)

/-- The id and the link of the record after those of a file. -/
def nextLink (idKey : String) (disk : List (Value F)) : Except Refusal (Int × String) :=
  match disk.getLast? with
  | some last => do
    let id ← intAt last idKey
    let prev ← textAt last "record_hash"
    .ok (id + 1, prev)
  | none => .ok (1, genesisHash)

def memberAt (members : List (String × Value F)) (key : String) : Except Refusal (Value F) :=
  match fieldOf members key with
  | some v => .ok v
  | none => .error (.unread key)

/-- The record that an entry becomes after those of the file. -/
def complete (hash : List Char → String) (disk : List (Value F)) (e : ledger.Entry) :
    Except Refusal (Value F) := do
  let composed ← ledger.compose disk e
  let (id, prev) ← nextLink ledger.idKey disk
  let linked := put "prev_hash" (.str prev) (put ledger.idKey (.int id) composed)
  let datasets ← memberAt linked "datasets"
  let hashed := put "dataset_hash" (.str (hash (dumps floats datasets))) linked
  .ok (.obj (put "record_hash" (.str (hash (dumps floats (.obj hashed)))) hashed))

def appendLocked (hash : List Char → String) (file : Option (List UInt8)) (e : ledger.Entry) :
    Except Refusal (Value F) × Option (List UInt8) :=
  if ledger.takes e = false then (.error .caller, file)
  else
    let opened := some (file.getD [])
    match ledger.readHealing floats opened with
    | (.error refusal, healed) => (.error refusal, healed)
    | (.ok disk, healed) =>
      match ledger.complete floats hash disk e with
      | .error refusal => (.error refusal, healed)
      | .ok record =>
        if ledger.validate record then
          (.ok record, some (healed.getD [] ++ encode (dumps floats record ++ ['\n'])))
        else (.error .invalid, healed)

end Ledger

end

end Registry
