import Mathlib.Data.List.Nodup
import Zcrypto.Engine.ProbePlan
import Zcrypto.Fallible

/- The journal contract: what is recorded of a cycle and the checks a record has to pass, in their
   order. A record is what its file reads as, so a field that is read as it stands can hold any
   value of a document. -/
namespace Journal
open Fallible
open ProbePlans (hour hoursPerDay)

/-- A datetime: its wall clock in microseconds and, where it is aware, its offset from UTC. -/
structure Stamp where
  wall : Int
  offset : Option Int
  deriving DecidableEq, Repr

/-- What datetimes are compared by. One that is aware is equal to none that is naive. -/
structure Moment where
  aware : Bool
  instant : Int
  deriving DecidableEq, Repr

def Stamp.moment (t : Stamp) : Moment := ⟨t.offset.isSome, t.wall - t.offset.getD 0⟩

def Stamp.minus (t : Stamp) (span : Int) : Stamp := { t with wall := t.wall - span }

/-- The last midnight by the stamp's own clock. -/
def Stamp.midnight (t : Stamp) : Stamp := { t with wall := t.wall - t.wall % (hoursPerDay * hour) }

/-- The stamp of a moment in UTC. -/
def Moment.stamp (m : Moment) : Stamp := ⟨m.instant, if m.aware then some 0 else none⟩

@[simp] theorem Moment.moment_stamp (m : Moment) : m.stamp.moment = m := by
  obtain ⟨aware, instant⟩ := m
  cases aware <;> simp [Moment.stamp, Stamp.moment]

/-- A value of a document. What a list or an object holds is read by no check. -/
inductive Value where
  | null
  | bool (b : Bool)
  | int (n : Int)
  | num (q : ℚ)
  | notFinite (text : String)
  | text (s : String)
  | compound (dump : String)
  deriving DecidableEq, Repr

/-- What a value is as a number, truth counting as one. -/
def Value.number : Value → Option ℚ
  | .bool b => some (if b then 1 else 0)
  | .int n => some n
  | .num q => some q
  | _ => none

/-- A finite number that is no truth value. -/
def Value.amount : Value → Option ℚ
  | .int n => some n
  | .num q => some q
  | _ => none

def Value.isText (p : String → Bool) : Value → Bool
  | .text s => p s
  | _ => false

/-- A dict: its items in order, each under a key of its own. -/
structure Dict (α : Type) where
  items : List (String × α)
  distinct : (items.map Prod.fst).Nodup
  deriving DecidableEq, Repr

def Dict.keys {α : Type} (d : Dict α) : List String := d.items.map Prod.fst

def Dict.get? {α : Type} (d : Dict α) (key : String) : Option α := d.items.lookup key

def Dict.map {α β : Type} (f : α → β) (d : Dict α) : Dict β where
  items := d.items.map fun item => (item.1, f item.2)
  distinct := by
    have same : Prod.fst ∘ (fun item : String × α => (item.1, f item.2)) = Prod.fst := rfl
    rw [List.map_map, same]
    exact d.distinct

def Dict.fromKeys {α : Type} (keys : List String) (f : String → α) (distinct : keys.Nodup) :
    Dict α where
  items := keys.map fun key => (key, f key)
  distinct := by
    have same : Prod.fst ∘ (fun key : String => (key, f key)) = id := rfl
    rw [List.map_map, same, List.map_id]
    exact distinct

/-- A value put under a key, in the place of the one that is there. -/
def Dict.set {α : Type} (d : Dict α) (key : String) (value : α) : Dict α :=
  if there : key ∈ d.items.map Prod.fst then
    { items := d.items.map fun item => (item.1, if item.1 = key then value else item.2)
      distinct := by
        have same : Prod.fst ∘ (fun item : String × α =>
            (item.1, if item.1 = key then value else item.2)) = Prod.fst := rfl
        rw [List.map_map, same]
        exact d.distinct }
  else
    { items := d.items ++ [(key, value)]
      distinct := by
        rw [List.map_append, List.nodup_append]
        refine ⟨d.distinct, List.nodup_singleton _, ?_⟩
        intro a old b new same
        rw [same, List.mem_singleton.mp new] at old
        exact there old }

def Dict.ofList {α : Type} (items : List (String × α)) : Dict α :=
  items.foldl (fun d item => d.set item.1 item.2) ⟨[], List.nodup_nil⟩

structure SnapshotEntry where
  pair : Value
  grid : Value
  nBars : Value
  firstTs : Stamp
  lastTs : Stamp
  contentHash : Value
  path : Value
  deriving DecidableEq, Repr

structure CycleRecord where
  schemaVersion : Value
  cycleTs : Stamp
  snapshots : List SnapshotEntry
  finalTargets : Dict Value
  startedAt : Stamp
  completedAt : Stamp
  codeVersion : Value
  builderPath : Value
  closes : Option (Dict Value)
  nav : Option ℚ
  held : Option (Dict Value)
  deriving DecidableEq, Repr

/-- A refusal of the journal, evidence that is not what was journaled, another refusal of the
    engine, or any other exception. -/
inductive Fault where
  | journal (what : String)
  | hashMismatch (pair grid : Value)
  | engine (what : String)
  | raised (what : String)
  deriving DecidableEq, Repr

def need (holds : Bool) (what : String) : Except Fault Unit :=
  if holds then .ok () else .error (.journal what)

@[simp] theorem need_ok {holds : Bool} {what : String} :
    need holds what = .ok () ↔ holds = true := by
  cases holds <;> simp [need]

/-- A look-up in a frozen set: a list and an object have no hash. -/
def oneOf (holds : Value → Bool) (what : String) : Value → Except Fault Unit
  | .compound _ => .error (.raised "TypeError")
  | value => need (holds value) what

theorem oneOf_ok {holds : Value → Bool} {what : String} {value : Value}
    (passed : oneOf holds what value = .ok ()) : holds value = true := by
  cases value
  case compound => cases passed
  all_goals exact need_ok.mp passed

def isSymbolKey (key : String) : Bool := '/' ∈ key.toList

def isSchema (n : ℚ) (value : Value) : Bool := value.number = some n

def validGrids : List String := ["1440", "240"]

def inGrid (grid : String) (e : SnapshotEntry) : Bool := e.grid = .text grid

/-- Keys of the record's own schema: bases in the first, full symbols in the second. -/
def inKeySpace (schema : Value) (key : String) : Bool :=
  !(isSchema 1 schema && isSymbolKey key) && !(isSchema 2 schema && !isSymbolKey key)

def checkEntry (schema : Value) (e : SnapshotEntry) : Except Fault Unit := do
  need (e.pair.isText (· ≠ "")) "snapshot pair must be a non-empty str"
  need (e.pair.isText (inKeySpace schema)) "snapshot pair must be keyed as its schema is"
  oneOf (·.isText (· ∈ validGrids)) "snapshot grid must be one of the grids" e.grid
  need (match e.nBars with | .int n => 1 ≤ n | _ => false) "snapshot n_bars must be an int >= 1"
  need (e.firstTs.moment.instant < e.lastTs.moment.instant) "snapshot first_ts must precede last_ts"
  need (e.contentHash.isText (·.length = 64)) "snapshot content_hash must be a 64-char hex str"
  need (e.path.isText (· ≠ "")) "snapshot path must be a non-empty str"

/-- The entries in order, each of a pair and grid no earlier one has. -/
def checkEntries (schema : Value) :
    List SnapshotEntry → List (Value × Value) → Except Fault Unit
  | [], _ => .ok ()
  | e :: rest, earlier => do
    checkEntry schema e
    need ((e.pair, e.grid) ∉ earlier) "duplicate snapshot"
    checkEntries schema rest ((e.pair, e.grid) :: earlier)

def CycleRecord.stamps (r : CycleRecord) : List Stamp :=
  r.cycleTs :: r.startedAt :: r.completedAt :: r.snapshots.flatMap fun e => [e.firstTs, e.lastTs]

def refuseMixedAwareness (r : CycleRecord) : Except Fault Unit :=
  need (r.stamps.all (·.moment.aware) || r.stamps.all (!·.moment.aware))
    "record mixes timezone-aware and naive stamps"

def checkTargets (r : CycleRecord) : Except Fault Unit := do
  need (r.finalTargets.items ≠ []) "final_targets must be a non-empty dict"
  r.finalTargets.items.forM fun (asset, value) => do
    need (asset ≠ "") "final_targets key must be a non-empty str"
    need (inKeySpace r.schemaVersion asset) "final_targets key must be keyed as its schema is"
    need value.amount.isSome "final_targets must be finite numbers"

def checkHeld (held : Dict Value) : Except Fault Unit :=
  held.items.forM fun (asset, value) => do
    need (asset ≠ "") "held key must be a non-empty str"
    need (!isSymbolKey asset) "held key must be a base key"
    need value.amount.isSome "held must be finite numbers"

def checkCloses (closes : Dict Value) : Except Fault Unit := do
  need (closes.items ≠ []) "closes must be a non-empty dict when present"
  closes.items.forM fun (asset, value) => do
    need (asset ≠ "") "closes key must be a non-empty str"
    need (!isSymbolKey asset) "closes key must be a base key"
    need (value.amount.any (0 < ·)) "closes must be finite positive numbers"

/-- A check of a field that may be absent. -/
def whenPresent {α : Type} (check : α → Except Fault Unit) : Option α → Except Fault Unit
  | none => .ok ()
  | some a => check a

def CycleRecord.expectedLast (r : CycleRecord) (grid : String) : Stamp :=
  if grid = "240" then r.cycleTs.minus (4 * hour)
  else r.cycleTs.midnight.minus (hoursPerDay * hour)

/-- The entry of a pair in a grid, the last of them where there are several. -/
def entryOf (entries : List SnapshotEntry) (pair : Value) (grid : String) : Option SnapshotEntry :=
  entries.reverse.find? fun e => e.pair = pair ∧ inGrid grid e

def checkGrids (r : CycleRecord) : Except Fault Unit :=
  r.snapshots.forM fun e =>
    need (validGrids.all fun grid => (entryOf r.snapshots e.pair grid).isSome)
      "pair is missing snapshot grid(s)"

/-- No snapshot peeks past the boundary. -/
def checkBoundary (r : CycleRecord) : Except Fault Unit :=
  r.snapshots.forM fun e => do
    need ((entryOf r.snapshots e.pair "240").all
      fun h4 => h4.lastTs.moment = (r.expectedLast "240").moment) "4h snapshot last_ts"
    need ((entryOf r.snapshots e.pair "1440").all
      fun daily => daily.lastTs.moment = (r.expectedLast "1440").moment) "daily snapshot last_ts"

def validateRecord (r : CycleRecord) : Except Fault Unit := do
  oneOf (fun v => isSchema 1 v || isSchema 2 v) "unsupported schema_version" r.schemaVersion
  refuseMixedAwareness r
  need (r.snapshots ≠ []) "snapshots must be a non-empty tuple of SnapshotEntry"
  checkEntries r.schemaVersion r.snapshots []
  checkGrids r
  checkTargets r
  whenPresent (fun nav => need (0 < nav) "nav must be finite and positive when present") r.nav
  whenPresent checkHeld r.held
  whenPresent checkCloses r.closes
  need (r.startedAt.moment.instant ≤ r.completedAt.moment.instant)
    "started_at must be <= completed_at"
  need (r.codeVersion.isText (· ≠ "")) "code_version must be a non-empty str"
  oneOf (·.isText (· ∈ ["fast", "verified"])) "builder_path must be one of its two" r.builderPath
  checkBoundary r

/- What an accepted record is. -/

structure Accepted (r : CycleRecord) : Prop where
  schema : (isSchema 1 r.schemaVersion || isSchema 2 r.schemaVersion) = true
  some_snapshots : r.snapshots ≠ []
  entries : checkEntries r.schemaVersion r.snapshots [] = .ok ()
  boundary : checkBoundary r = .ok ()

theorem accepted_of_validated {r : CycleRecord} (passed : validateRecord r = .ok ()) :
    Accepted r := by
  unfold validateRecord at passed
  simp only [then_ok, need_ok, decide_eq_true_eq] at passed
  obtain ⟨schema, _, some_snapshots, entries, _, _, _, _, _, _, _, _, boundary⟩ := passed
  exact ⟨oneOf_ok schema, some_snapshots, entries, boundary⟩

/-- The first snapshot is keyed as the schema says, so the schema can be told by it. -/
theorem Accepted.schema_of_first {r : CycleRecord} (accepted : Accepted r) {e : SnapshotEntry}
    {rest : List SnapshotEntry} (first : r.snapshots = e :: rest) :
    isSchema 1 r.schemaVersion = e.pair.isText fun key => !isSymbolKey key := by
  have entries := accepted.entries
  have schema := accepted.schema
  rw [first] at entries
  unfold checkEntries checkEntry at entries
  simp only [then_ok, need_ok] at entries
  obtain ⟨⟨_, keyed, _⟩, _⟩ := entries
  cases pair : e.pair with
  | text key =>
    rw [pair] at keyed
    simp only [Value.isText, inKeySpace, isSchema, Bool.or_eq_true, decide_eq_true_eq] at *
    rcases schema with one | two
    · simp_all
    · simp_all
  | _ =>
    rw [pair] at keyed
    cases keyed

end Journal
