import Mathlib.Data.List.Sort
import Zcrypto.Checks
import Zcrypto.Engine.Journal
import Zcrypto.JsonText

/- The journal's reader in full: what any document reads as, whatever stands in any of its fields, and the
   checks of a record in their order, each with the error of the host's own it may raise. Floats, the text of
   a value and the text of a stamp are parameters. -/
namespace JournalReader
open Checks Fallible Journal
open ProbePlans (hour hoursPerDay)

abbrev Json (F : Type) := JsonText.Value F

/-- The doubles: the value of a finite one, the one an integer is, none beyond them, and what a value is
    printed as. -/
structure Doubles (F : Type) where
  finite : F → Option ℚ
  ofInt : Int → Option F
  spelled : Json F → String

structure Iso where
  isoformat : Stamp → String
  fromisoformat : String → Option Stamp

/-- A key of a dict. Which of the keys that are no text it is makes no difference. -/
inductive Key where
  | text (s : String)
  | other
  deriving DecidableEq, Repr

abbrev Items (F : Type) := List (Key × Json F)

structure Entry (F : Type) where
  pair : Json F
  grid : Json F
  nBars : Json F
  firstTs : Stamp
  lastTs : Stamp
  contentHash : Json F
  path : Json F

structure Record (F : Type) where
  schemaVersion : Json F
  cycleTs : Stamp
  snapshots : List (Entry F)
  finalTargets : Items F
  startedAt : Stamp
  completedAt : Stamp
  codeVersion : Json F
  builderPath : Json F
  closes : Option (Items F)
  nav : Option F
  held : Option (Items F)

section
variable {F α : Type} (doubles : Doubles F) (iso : Iso)

/- Reading. -/

/-- A key that is missing, or a value of another shape. -/
def misshaped : Except Fault α :=
  .error (.journal "journal JSON is missing or misshapes a required key")

def field (members : List (String × Json F)) (key : String) : Except Fault (Json F) :=
  match members.lookup key with
  | some v => .ok v
  | none => misshaped

def readStamp : Json F → Except Fault Stamp
  | .str s => match iso.fromisoformat s with
    | some t => .ok t
    | none => misshaped
  | _ => misshaped

def fieldAs (members : List (String × Json F)) (key : String) (read : Json F → Except Fault α) :
    Except Fault α := do
  let v ← field members key
  read v

def stampAt (members : List (String × Json F)) (key : String) : Except Fault Stamp :=
  fieldAs members key (readStamp iso)

def readEntry : Json F → Except Fault (Entry F)
  | .obj members => do
    let pair ← field members "pair"
    let grid ← field members "grid"
    let nBars ← field members "n_bars"
    let firstTs ← stampAt iso members "first_ts"
    let lastTs ← stampAt iso members "last_ts"
    let contentHash ← field members "content_hash"
    let path ← field members "path"
    .ok { pair, grid, nBars, firstTs, lastTs, contentHash, path }
  | _ => misshaped

/-- An object and a text are passes over their keys and characters, none of which is an entry. -/
def readSnapshots : Json F → Except Fault (List (Entry F))
  | .arr items => items.mapM (readEntry iso)
  | .obj [] => .ok []
  | .str "" => .ok []
  | _ => misshaped

/-- A list and an object have no hash. -/
def readKey : Json F → Option Key
  | .str s => some (.text s)
  | .arr _ => none
  | .obj _ => none
  | _ => some .other

/-- A pair of a dict made of a list: two items, two keys or two characters. -/
def readPair : Json F → Option (Key × Json F)
  | .arr [key, v] => (readKey key).map (·, v)
  | .obj [(key, _), (v, _)] => some (.text key, .str v)
  | .str s => match s.toList with
    | [key, v] => some (.text (String.ofList [key]), .str (String.ofList [v]))
    | _ => none
  | _ => none

/-- A value put under a key, in the place of the one that is there. -/
def assign (items : Items F) (item : Key × Json F) : Items F :=
  if item.1 ∈ items.map Prod.fst then
    items.map fun old => (old.1, if old.1 = item.1 then item.2 else old.2)
  else items ++ [item]

/-- `dict` of a value. -/
def readDict : Json F → Except Fault (Items F)
  | .obj members => .ok (members.map fun m => (.text m.1, m.2))
  | .arr items => match items.mapM readPair with
    | some pairs => .ok (pairs.foldl assign [])
    | none => misshaped
  | .str "" => .ok []
  | _ => misshaped

/-- A key that may be absent or null. -/
def readOptional (members : List (String × Json F)) (key : String) (read : Json F → Except Fault α) :
    Except Fault (Option α) :=
  match members.lookup key with
  | none => .ok none
  | some .null => .ok none
  | some v => (read v).map some

def positiveFloat (x : F) : Except Fault F :=
  if (doubles.finite x).any (0 < ·) then .ok x
  else .error (.journal "nav must be finite and positive")

def asPositiveFloat : Json F → Except Fault F
  | .int n => match doubles.ofInt n with
    | some x => positiveFloat doubles x
    | none => .error (.raised "OverflowError")
  | .float x => positiveFloat doubles x
  | _ => .error (.journal "nav must be a number")

def fromDocument : Json F → Except Fault (Record F)
  | .obj members => do
    let schemaVersion ← field members "schema_version"
    let cycleTs ← stampAt iso members "cycle_ts"
    let snapshots ← fieldAs members "snapshots" (readSnapshots iso)
    let finalTargets ← fieldAs members "final_targets" readDict
    let startedAt ← stampAt iso members "started_at"
    let completedAt ← stampAt iso members "completed_at"
    let codeVersion ← field members "code_version"
    let builderPath ← field members "builder_path"
    let closes ← readOptional members "closes" readDict
    let nav ← readOptional members "nav" (asPositiveFloat doubles)
    let held ← readOptional members "held" readDict
    .ok { schemaVersion, cycleTs, snapshots, finalTargets, startedAt, completedAt, codeVersion
          builderPath, closes, nav, held }
  | _ => misshaped

/-- What `json.loads` raises instead of a document. -/
inductive LoadFault where
  | notJson
  | tooManyDigits
  | tooDeep
  deriving DecidableEq, Repr

def fromJson (loads : String → Except LoadFault (Json F)) (s : String) : Except Fault (Record F) :=
  match loads s with
  | .error .notJson => .error (.journal "invalid journal JSON")
  | .error .tooManyDigits => .error (.raised "ValueError")
  | .error .tooDeep => .error (.raised "RecursionError")
  | .ok doc => fromDocument doubles iso doc

/- The checks of a record. -/

def isText (p : String → Bool) : Json F → Bool
  | .str s => p s
  | _ => false

def unhashable : Json F → Bool
  | .arr _ => true
  | .obj _ => true
  | _ => false

/-- A look-up in a frozen set. -/
def oneOf (what : String) (v : Json F) (holds : Bool) : Check :=
  ⟨what, if unhashable v then some "TypeError" else none, holds⟩

/-- Two stamps compared, of which both or neither is aware. -/
def ordered (what : String) (a b : Stamp) (holds : Bool) : Check :=
  ⟨what, if a.moment.aware = b.moment.aware then none else some "TypeError", holds⟩

/-- What a value is as a number, truth counting as one. -/
def number : Json F → Option ℚ
  | .bool b => some (if b then 1 else 0)
  | .int n => some n
  | .float x => doubles.finite x
  | _ => none

def isSchema (n : ℚ) (v : Json F) : Bool := number doubles v = some n

/-- A finite number that is no truth value. An integer beyond the doubles is not read as one. -/
def amount (what : String) (v : Json F) (holds : ℚ → Bool) : Check :=
  match v with
  | .int n => match doubles.ofInt n with
    | some x => refuse what ((doubles.finite x).isSome && holds n)
    | none => ⟨what, some "OverflowError", false⟩
  | .float x => refuse what ((doubles.finite x).any holds)
  | _ => refuse what false

def printed : Json F → String
  | .str s => s
  | v => doubles.spelled v

def Record.stamps (r : Record F) : List (String × Stamp) :=
  ("cycle_ts", r.cycleTs) :: ("started_at", r.startedAt) :: ("completed_at", r.completedAt) ::
    r.snapshots.flatMap fun e =>
      [(printed doubles e.pair ++ " " ++ printed doubles e.grid ++ " first_ts", e.firstTs),
        (printed doubles e.pair ++ " " ++ printed doubles e.grid ++ " last_ts", e.lastTs)]

def Record.awareNames (r : Record F) : List String :=
  ((r.stamps doubles).filter fun named => named.2.moment.aware).map Prod.fst

/-- A stamp is told by its name, so a naive one whose name an aware one bears as well is not seen. -/
def refuseMixedAwareness (r : Record F) : Check :=
  refuse "record mixes timezone-aware and naive stamps"
    (r.awareNames doubles = [] || (r.stamps doubles).all fun named => named.1 ∈ r.awareNames doubles)

def keyedAs (schema : Json F) (what : String) (key : String) : List Check :=
  [refuse ("schema_version 1 " ++ what ++ " must be a base key")
      (!(isSchema doubles 1 schema && isSymbolKey key)),
    refuse ("schema_version 2 " ++ what ++ " must be a full symbol key")
      (!(isSchema doubles 2 schema && !isSymbolKey key))]

def textOf : Json F → String
  | .str s => s
  | _ => ""

def keyText : Key → String
  | .text s => s
  | .other => ""

def inGrid (grid : String) (e : Entry F) : Bool := isText (· = grid) e.grid

/-- The same pair and grid as an earlier entry's. -/
def isDuplicate (e : Entry F) (earlier : List (Entry F)) : Bool :=
  earlier.any fun old => isText (· = textOf e.pair) old.pair && isText (· = textOf e.grid) old.grid

def entryChecks (schema : Json F) (e : Entry F) (earlier : List (Entry F)) : List Check :=
  [refuse "snapshot pair must be a non-empty str" (isText (· ≠ "") e.pair)] ++
  keyedAs doubles schema "snapshot pair" (textOf e.pair) ++
  [oneOf "snapshot grid must be one of the grids" e.grid (isText (· ∈ validGrids) e.grid),
    refuse "snapshot n_bars must be an int >= 1" (match e.nBars with | .int n => 1 ≤ n | _ => false),
    ordered "snapshot first_ts must precede last_ts" e.firstTs e.lastTs
      (e.firstTs.moment.instant < e.lastTs.moment.instant),
    refuse "snapshot content_hash must be a 64-char hex str" (isText (·.length = 64) e.contentHash),
    refuse "snapshot path must be a non-empty str" (isText (· ≠ "") e.path),
    refuse "duplicate snapshot" (!isDuplicate e earlier)]

/-- The entries in order, each with those before it. -/
def entriesChecks (schema : Json F) : List (Entry F) → List (Entry F) → List Check
  | _, [] => []
  | earlier, e :: rest =>
    entryChecks doubles schema e earlier ++ entriesChecks schema (earlier ++ [e]) rest

/-- The entry of a pair in a grid. -/
def entryOf (entries : List (Entry F)) (pair grid : String) : Option (Entry F) :=
  entries.reverse.find? fun e => isText (· = pair) e.pair && inGrid grid e

def gridChecks (r : Record F) : List Check :=
  r.snapshots.map fun e => refuse "pair is missing snapshot grid(s)"
    (validGrids.all fun grid => (entryOf r.snapshots (textOf e.pair) grid).isSome)

def namedKey (what : String) (key : Key) : Check :=
  refuse (what ++ " key must be a non-empty str") (keyText key ≠ "")

def targetChecks (r : Record F) : List Check :=
  refuse "final_targets must be a non-empty dict" (!r.finalTargets.isEmpty) ::
  r.finalTargets.flatMap fun (key, v) =>
    namedKey "final_targets" key :: keyedAs doubles r.schemaVersion "final_targets key" (keyText key) ++
      [amount doubles "final_targets must be finite numbers" v fun _ => true]

def navChecks (nav : F) : List Check :=
  [refuse "nav must be finite and positive when present" ((doubles.finite nav).any (0 < ·))]

def heldChecks (held : Items F) : List Check :=
  held.flatMap fun (key, v) =>
    [namedKey "held" key, refuse "held key must be a base key" (!isSymbolKey (keyText key)),
      amount doubles "held must be finite numbers" v fun _ => true]

def closesChecks (closes : Items F) : List Check :=
  refuse "closes must be a non-empty dict when present" (!closes.isEmpty) ::
  closes.flatMap fun (key, v) =>
    [namedKey "closes" key, refuse "closes key must be a base key" (!isSymbolKey (keyText key)),
      amount doubles "closes must be finite positive numbers" v (0 < ·)]

/-- Midnight of the second day there is. A day before one earlier is no date. -/
def secondDay : Int := -719161 * (hoursPerDay * hour)

def Record.expectedLast (r : Record F) (grid : String) : Stamp :=
  if grid = "240" then r.cycleTs.minus (4 * hour)
  else r.cycleTs.midnight.minus (hoursPerDay * hour)

def boundaryChecks (r : Record F) : List Check :=
  ⟨"the boundary", if r.cycleTs.wall < secondDay then some "OverflowError" else none, true⟩ ::
  r.snapshots.flatMap fun e =>
    [refuse "4h snapshot last_ts" ((entryOf r.snapshots (textOf e.pair) "240").all
        fun h4 => h4.lastTs.moment = (r.expectedLast "240").moment),
      refuse "daily snapshot last_ts" ((entryOf r.snapshots (textOf e.pair) "1440").all
        fun daily => daily.lastTs.moment = (r.expectedLast "1440").moment)]

def recordChecks (r : Record F) : List Check :=
  [oneOf "unsupported schema_version" r.schemaVersion
      (isSchema doubles 1 r.schemaVersion || isSchema doubles 2 r.schemaVersion),
    refuseMixedAwareness doubles r,
    refuse "snapshots must be a non-empty tuple of SnapshotEntry" (!r.snapshots.isEmpty)] ++
  entriesChecks doubles r.schemaVersion [] r.snapshots ++ gridChecks r ++ targetChecks doubles r ++
  r.nav.elim [] (navChecks doubles) ++ r.held.elim [] (heldChecks doubles) ++
  r.closes.elim [] (closesChecks doubles) ++
  [ordered "started_at must be <= completed_at" r.startedAt r.completedAt
      (r.startedAt.moment.instant ≤ r.completedAt.moment.instant),
    refuse "code_version must be a non-empty str" (isText (· ≠ "") r.codeVersion),
    oneOf "builder_path must be one of its two" r.builderPath
      (isText (· ∈ ["fast", "verified"]) r.builderPath)] ++
  boundaryChecks r

/-- Every rule of a record holds, and nothing is raised in asking. -/
def Valid (r : Record F) : Prop := ∀ c ∈ recordChecks doubles r, c.Passes

def answer : Outcome → Except Fault Unit
  | .passed => .ok ()
  | .refused what => .error (.journal what)
  | .raised error => .error (.raised error)

def validateRecord (r : Record F) : Except Fault Unit := answer (run (recordChecks doubles r))

/-- `from_json` followed by `validate_record`. -/
def read (loads : String → Except LoadFault (Json F)) (s : String) : Except Fault (Record F) := do
  let r ← fromJson doubles iso loads s
  validateRecord doubles r
  .ok r

/- Writing. -/

def inOrder (items : Items F) : List (String × Json F) :=
  (items.map fun item => (keyText item.1, item.2)).insertionSort fun a b => a.1 ≤ b.1

def entryDocument (e : Entry F) : Json F :=
  .obj [("content_hash", e.contentHash), ("first_ts", .str (iso.isoformat e.firstTs)), ("grid", e.grid),
    ("last_ts", .str (iso.isoformat e.lastTs)), ("n_bars", e.nBars), ("pair", e.pair), ("path", e.path)]

/-- The payload, its keys in order. One that is absent is left out. -/
def payload (r : Record F) : List (String × Json F) :=
  [("builder_path", r.builderPath)] ++
  r.closes.elim [] (fun closes => [("closes", .obj (inOrder closes))]) ++
  [("code_version", r.codeVersion), ("completed_at", .str (iso.isoformat r.completedAt)),
    ("cycle_ts", .str (iso.isoformat r.cycleTs)), ("final_targets", .obj (inOrder r.finalTargets))] ++
  r.held.elim [] (fun held => [("held", .obj (inOrder held))]) ++
  r.nav.elim [] (fun nav => [("nav", .float nav)]) ++
  [("schema_version", r.schemaVersion), ("snapshots", .arr (r.snapshots.map (entryDocument iso))),
    ("started_at", .str (iso.isoformat r.startedAt))]

def toJson (dumps : Json F → String) (r : Record F) : String := dumps (.obj (payload iso r))

end

end JournalReader
