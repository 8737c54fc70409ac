import Mathlib.Logic.Function.Basic
import Zcrypto.Engine.Replay

/- The shadow cycle: the store refreshed until it has settled, its series aligned on one calendar a
   grid and journaled, the model's inputs selected from what the store holds, the targets built, the
   orders and the record. Metrics, pings, the venue record and an operator's hints are left out. -/
namespace Cycles
open Journal Stores Replays
open ProbePlans (minute hour hoursPerDay civil padded)

def h4 : Int := 4 * hour
def refreshReserve : Int := 25 * minute

/-- A boundary of the four-hour grid, in UTC. -/
def normalizeCycleTs (cycleTs : Stamp) : Except Fault Stamp :=
  if cycleTs.moment.aware = false then .error (.engine "cycle_ts must be an aware datetime")
  else if cycleTs.moment.instant % h4 ≠ 0 then
    .error (.engine "cycle_ts must fall exactly on a 4h UTC boundary")
  else .ok cycleTs.moment.stamp

/- The store, a boundary in UTC given by its instant. -/

def midnightOf (cycleTs : Int) : Int := cycleTs - cycleTs % (hoursPerDay * hour)

/-- The bar a boundary expects a grid to end in. -/
def expectedTail (cycleTs : Int) (interval : Nat) : Int :=
  if interval = 240 then cycleTs - h4 else midnightOf cycleTs - hoursPerDay * hour

/-- A file's stamps and closes. A frame of other columns does not get past a refresh. -/
def readStoreSeries : File → Except Fault Series
  | .frame f =>
    if f.rows.all fun b => b.ts.isSome then .ok ⟨true, f.rows.filterMap Bar.ts, f.rows.map Bar.close⟩
    else .error (.engine "read_store_series: a stamp is not an aware datetime")
  | _ => .error (.engine "read_store_series: cannot read the file")

def endsIn (cycleTs : Int) (interval : Nat) (s : Series) : Bool :=
  s.ts.getLast? = some (expectedTail cycleTs interval)

/-- Whether a pair still lacks a bar, its four-hour grid read first. -/
def unsettled (cycleTs : Int) (store : Store) (symbol : String) : Except Fault Bool := do
  let quarter ← readStoreSeries (store (symbol, 240))
  if !endsIn cycleTs 240 quarter then .ok true
  else do
    let daily ← readStoreSeries (store (symbol, 1440))
    .ok (!endsIn cycleTs 1440 daily)

def pendingOf (cycleTs : Int) (store : Store) : List String → Except Fault (List String)
  | [] => .ok []
  | symbol :: rest => do
    let waits ← unsettled cycleTs store symbol
    let others ← pendingOf cycleTs store rest
    .ok (if waits then symbol :: others else others)

def settlePending (cycleTs : Int) (store : Store) : Except Fault (List String) :=
  pendingOf cycleTs store basket

/-- One turn of the refresh: what is outside the store during it, and the clock after it. -/
structure Attempt where
  world : World
  now : Int
  clock : Int

inductive Refreshed where
  | settled (store : Store)
  | offending (pairs : List String)
  | raised (f : Fault)
  | retrying (store : Store)

def isTransport : Failure → Bool
  | .ohlc _ | .fetch _ => true
  | _ => false

/-- The pairs still pending after one turn. A transport error leaves those that were. -/
def pendingAfter (cycleTs : Int) (pending : List String) (run : Run RefreshEntry) :
    Except Fault (List String) :=
  match run.result with
  | .error e =>
    if isTransport e then .ok pending else .error (.engine "the store could not be refreshed")
  | .ok _ => settlePending cycleTs run.store

def isSettled (pending : List String) (run : Run RefreshEntry) : Bool :=
  run.result.isOk && pending = []

/-- Turn after turn until every pair has settled or the reserve is spent. -/
def refreshWithSettleVerify (cycleTs : Int) : List Attempt → List String → Store → Refreshed
  | [], _, store => .retrying store
  | a :: rest, pending, store =>
    let run := refreshStore a.world a.now pending store
    match pendingAfter cycleTs pending run with
    | .error f => .raised f
    | .ok left =>
      if isSettled left run then .settled run.store
      else if cycleTs + refreshReserve < a.clock then
        .offending (left.insertionSort (· ≤ ·))
      else refreshWithSettleVerify cycleTs rest left run.store

/-- What is read of each leg, once. -/
abbrev RawSeries := Leg → Series

def rawSeries (store : Store) (leg : Leg) : Series :=
  match readStoreSeries (store leg) with
  | .ok s => s
  | .error _ => ⟨true, [], []⟩

/-- The first leg that does not read refuses them all. -/
def readAll (store : Store) : Except Fault RawSeries := do
  (legs basket).forM fun leg => (readStoreSeries (store leg)).map fun _ => ()
  .ok (rawSeries store)

def stalePairs (cycleTs : Int) (raw : RawSeries) : List String :=
  basket.filter fun symbol =>
    gridIntervals.any fun interval => !endsIn cycleTs interval (raw (symbol, interval))

/- The journal. -/

def unionTs (raw : RawSeries) (interval : Nat) : List Int :=
  sortedStamps (basket.flatMap fun symbol => (raw (symbol, interval)).ts)

/-- A symbol's closes on the grid's one calendar, none where it has no bar. -/
def unionAlign (raw : RawSeries) (interval : Nat) (symbol : String) : Series :=
  ⟨true, unionTs raw interval, (unionTs raw interval).map (raw (symbol, interval)).closeAt⟩

def usable : Stores.Num → Bool
  | .finite q => 0 < q
  | _ => false

def dayDir (cycleTs : Int) : String :=
  let (y, m, d) := civil (cycleTs / (hoursPerDay * hour))
  padded 4 y ++ "-" ++ padded 2 m ++ "-" ++ padded 2 d

def snapshotDir (cycleTs : Int) : String :=
  dayDir cycleTs ++ "/snapshots/cycle-" ++ padded 2 (cycleTs / hour % hoursPerDay) ++ "/"

def fileName (symbol : String) (interval : Nat) : String :=
  String.ofList (symbol.toList.map fun c => if c = '/' then '-' else c) ++ "-" ++
    toString interval ++ ".parquet"

def snapshotPath (cycleTs : Int) (symbol : String) (interval : Nat) : String :=
  snapshotDir cycleTs ++ fileName symbol interval

section
variable (contentHash : Series → String)

/-- A series as it is journaled, none where it has no bar. -/
def snapshotEntry (cycleTs : Int) (symbol : String) (interval : Nat) (s : Series) :
    Option SnapshotEntry :=
  match s.stamps.head?, s.stamps.getLast? with
  | some first, some last => some
    { pair := .text symbol, grid := .text (toString interval), nBars := .int s.ts.length
      firstTs := first.stamp, lastTs := last.stamp, contentHash := .text (contentHash s)
      path := .text (snapshotPath cycleTs symbol interval) }
  | _, _ => none

/-- The legs in the order their snapshots are written. -/
def snapshotLegs : List Leg :=
  gridIntervals.flatMap fun interval => basket.map fun symbol => (symbol, interval)

def snapshotOf (raw : RawSeries) (leg : Leg) : Series := unionAlign raw leg.2 leg.1

abbrev Files := String → Option Series

def writeAll (files : Files) (written : List (String × Series)) : Files :=
  written.foldl (fun files file => Function.update files file.1 (some file.2)) files

/-- Every series is held to the refusal before the first file is written. -/
def journalSnapshots (cycleTs : Int) (raw : RawSeries) (files : Files) :
    Except Fault (List SnapshotEntry × Files) :=
  if snapshotLegs.any fun leg => (snapshotOf raw leg).closes.any fun c => c.any fun n => !usable n then
    .error (.engine "the snapshot cannot be journaled: a close is not a finite positive number")
  else
    match snapshotLegs.mapM fun leg =>
      snapshotEntry contentHash cycleTs leg.1 leg.2 (snapshotOf raw leg) with
    | none => .error (.raised "IndexError")
    | some entries => .ok (entries, writeAll files
        (snapshotLegs.map fun leg => (snapshotPath cycleTs leg.1 leg.2, snapshotOf raw leg)))

end

/- The orders. -/

/-- The newest record under a boundary before this one. -/
def newestBefore (cycleTs : Int) (journal : List (Int × Option CycleRecord)) :
    Option (Int × Option CycleRecord) :=
  journal.foldl (fun best item =>
    if item.1 < cycleTs ∧ best.all (fun b => b.1 < item.1) then some item else best) none

def symbolKeyedTargets (r : CycleRecord) : Dict ℚ :=
  if isSchema 1 r.schemaVersion then
    .ofList ((amounts r.finalTargets).items.map fun item => (item.1 ++ "/EUR", item.2))
  else amounts r.finalTargets

/-- A predecessor that does not validate is no flat book. -/
def previousSuccess (cycleTs : Int) (journal : List (Int × Option CycleRecord)) :
    Except Fault (Option (Dict ℚ)) :=
  match newestBefore cycleTs journal with
  | none => .ok none
  | some (_, none) => .error (.journal "journal JSON is missing or misshapes a required key")
  | some (_, some r) => do
    validateRecord r
    .ok (some (symbolKeyedTargets r))

inductive Side where
  | buy | sell
  deriving DecidableEq, Repr

structure Order where
  asset : String
  side : Side
  quantity : ℚ
  notionalEur : ℚ
  price : ℚ
  deriving DecidableEq, Repr

def orderOf (nav : ℚ) (previous : Option (Dict ℚ)) (price : String → Option Stores.Num)
    (item : String × ℚ) : Except Fault (List Order) :=
  let delta := item.2 - ((previous.bind (·.get? item.1)).getD 0)
  if delta = 0 then .ok []
  else match price item.1 with
    | some (.finite p) => .ok
      [⟨item.1, if 0 < delta then .buy else .sell, |delta * nav| / p, |delta * nav|, p⟩]
    | _ => .error (.raised "TypeError")

def appendOrders (cycleTs : Int) (nav : ℚ) (journal : List (Int × Option CycleRecord))
    (targets : Dict ℚ) (price : String → Option Stores.Num) : Except Fault (List Order) := do
  let previous ← previousSuccess cycleTs journal
  let orders ← (targets.items.insertionSort fun a b => a.1 ≤ b.1).mapM (orderOf nav previous price)
  .ok orders.flatten

/- The record. -/

def heldOf (item : String × Stores.Num) : Option (String × Value) :=
  match item.2 with
  | .finite q => some (base item.1, .num q)
  | _ => none

/-- The venue's book in the model's bases, none where a quantity is not finite. -/
def narrowHeld (positions : Option (Dict Stores.Num)) : Option (Dict Value) :=
  positions.bind fun positions =>
    ((positions.items.filter fun item => "/EUR".toList.isSuffixOf item.1.toList).mapM heldOf).map
      Dict.ofList

/-- The forming row's close. -/
def formingClose (leg : String × List (Option Stores.Num)) : Except Fault (String × Value) :=
  match leg.2.getLast? with
  | none => .error (.raised "IndexError")
  | some (some (.finite q)) =>
    if 0 < q then .ok (leg.1, .num q)
    else .error (.engine "the forming row's close is missing or unusable")
  | some _ => .error (.engine "the forming row's close is missing or unusable")

def modelCloses (inputs : Inputs) : Except Fault (Dict Value) :=
  (inputs.prices.mapM formingClose).map Dict.ofList

/-- What a cycle runs with: the refresh's turns, the clock at its start and its end, the venue's
    positions, the journal it finds and its settings. -/
structure Setting where
  attempts : List Attempt
  startedAt : Int
  completedAt : Int
  positions : Option (Dict Stores.Num)
  journal : List (Int × Option CycleRecord)
  files : Files
  codeVersion : String
  nav : ℚ

inductive CycleResult where
  | success (record : CycleRecord) (orders : List Order) (files : Files)
  | failed (reason : String) (offending : List String)
  | retrying

section
variable (contentHash : Series → String) (build : Builder)

def rawOf (raw : RawSeries) (interval : Nat) : List (String × Series) :=
  basket.map fun symbol => (symbol, raw (symbol, interval))

def recordOf (x : Setting) (cycleTs : Stamp) (entries : List SnapshotEntry) (targets : Dict ℚ)
    (closes : Dict Value) : CycleRecord where
  schemaVersion := .int 2
  cycleTs := cycleTs
  snapshots := entries
  finalTargets := targets.map Value.num
  startedAt := ⟨x.startedAt, some 0⟩
  completedAt := ⟨x.completedAt, some 0⟩
  codeVersion := .text x.codeVersion
  builderPath := .text "fast"
  closes := some closes
  nav := some x.nav
  held := narrowHeld x.positions

/-- The cycle over the series it has read. -/
def cycleOver (x : Setting) (cycleTs : Stamp) (raw : RawSeries) : Except Fault CycleResult := do
  let (entries, files) ← journalSnapshots contentHash cycleTs.moment.instant raw x.files
  let modelDaily ← selectModelInputs (rawOf raw 1440)
  let modelH4 ← selectModelInputs (rawOf raw 240)
  let closes ← modelCloses modelH4
  let model ← built build modelDaily modelH4
  let targets ← expandToBasket model
  let orders ← appendOrders cycleTs.moment.instant x.nav x.journal targets fun symbol =>
    (unionAlign raw 240 symbol).closes.getLast?.join
  let record := recordOf x cycleTs entries targets closes
  validateRecord record
  .ok (.success record orders files)

def runCycle (x : Setting) (cycleTs : Stamp) (store : Store) : Except Fault CycleResult := do
  let cycleTs ← normalizeCycleTs cycleTs
  match refreshWithSettleVerify cycleTs.moment.instant x.attempts basket store with
  | .retrying _ => .ok .retrying
  | .raised f => .error f
  | .offending pairs => .ok (.failed "refresh_deadline" pairs)
  | .settled store => do
    let raw ← readAll store
    if stalePairs cycleTs.moment.instant raw ≠ [] then
      .ok (.failed "stale_pair" (stalePairs cycleTs.moment.instant raw))
    else cycleOver contentHash build x cycleTs raw

end

end Cycles
