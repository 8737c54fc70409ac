import Zcrypto.Keyed
import Mathlib.Algebra.Ring.Int.Defs

/- The backfill of one pair's trades at a time: the gaps of its ids, the pages REST serves for them,
   the union with every hour that is touched, and the archive read again. Instants are microseconds
   and an hour is its number from the epoch. A segment that cannot be read has no rows. Provenance,
   sidecars and log lines are left out, and the text of an error is what it is about. -/
namespace Trades
open Keyed

/-- A row, with the columns that nothing here reads as one. -/
structure Trade where
  tradeId : Int
  ts : Int
  cells : String
  deriving DecidableEq, Repr

def hourMicros : Int := 3600000000
def settle : Int := 2 * hourMicros
def bookWitnessSlack : Int := 60000000
def pageRows : Nat := 1000

def startOf (hour : Int) : Int := hour * hourMicros
def floorHour (ts : Int) : Int := ts / hourMicros

def ids (rows : List Trade) : List Int := rows.map Trade.tradeId

/-- The first row of every id. -/
def firsts : List Trade → List Trade
  | [] => []
  | t :: rest => t :: (firsts rest).filter fun other => other.tradeId ≠ t.tradeId

/- Detection. -/

structure IdGap where
  afterId : Int
  beforeId : Int
  tsLo : Int
  tsHi : Int
  deriving DecidableEq, Repr

def IdGap.missing (g : IdGap) : Int := g.beforeId - g.afterId - 1

def IdGap.inside (g : IdGap) (t : Trade) : Bool := g.afterId < t.tradeId && t.tradeId < g.beforeId

structure Detection where
  gaps : List IdGap
  duplicateIds : List Int
  rows : Int
  unique : Int
  span : Int
  missing : Int
  deriving DecidableEq, Repr

/-- The gaps between neighbours, each with the window of its neighbours' stamps in order. -/
def idGaps : List Trade → List IdGap
  | a :: b :: rest =>
    if a.tradeId + 1 < b.tradeId then
      ⟨a.tradeId, b.tradeId, min a.ts b.ts, max a.ts b.ts⟩ :: idGaps (b :: rest)
    else idGaps (b :: rest)
  | _ => []

def detect (frame : List Trade) : Detection :=
  let first := arrange Trade.tradeId (firsts frame)
  match first.head?, first.getLast? with
  | some low, some high =>
    let span := high.tradeId - low.tradeId + 1
    { gaps := idGaps first
      duplicateIds := (ids first).filter fun i => 1 < (ids frame).count i
      rows := frame.length
      unique := first.length
      span := span
      missing := span - first.length }
  | _, _ => ⟨[], [], 0, 0, 0, 0⟩

/- Fetching. -/

/-- What REST answers to one request: a transport error, an error of its own, a row that cannot be
    read or nothing to read rows from are all one. -/
inductive Answer where
  | fails
  | page (rows : List Trade)
  deriving DecidableEq, Repr

def fetched (frames : List Trade) : List Trade := arrange Trade.tradeId (firsts frames)

/-- The answers are those to the requests of one call in order. The one that is not there never came. -/
def fetchTrades (till : Option Int) (seen : Option Int) (frames : List Trade) :
    List Answer → Option (List Trade)
  | [] => none
  | .fails :: _ => none
  | .page rows :: rest =>
    match (ids rows).max?, (rows.map Trade.ts).max? with
    | some pageMax, some newest =>
      if seen.any (pageMax ≤ ·) then some (fetched frames)
      else if till.any (· ≤ newest) then some (fetched (frames ++ rows))
      else if rows.length < pageRows then some (fetched (frames ++ rows))
      else fetchTrades till (some pageMax) (frames ++ rows) rest
    | _, _ => some (fetched frames)

/- The archive. -/

/-- The trade segments of one pair under one root, a file an hour. -/
structure Root where
  segments : List (Int × Option (List Trade))
  distinct : Distinct Prod.fst segments

structure Roots where
  primary : Root
  reconciled : Root

/-- Reconciled first, in the order of the hours. -/
def canonicalSegments (r : Roots) : List (Int × Option (List Trade)) :=
  arrange Prod.fst (r.primary.segments.filter (fun s => !holds Prod.fst r.reconciled.segments s.1) ++
    r.reconciled.segments)

def settled (now hour : Int) : Bool := startOf hour + settle ≤ now

def settledSegments (r : Roots) (now : Int) : List (Int × Option (List Trade)) :=
  (canonicalSegments r).filter fun s => settled now s.1

/-- Every segment's rows, or none where one cannot be read. -/
def readFrames : List (Int × Option (List Trade)) → Option (List (Int × List Trade))
  | [] => some []
  | (hour, rows) :: rest =>
    match rows, readFrames rest with
    | some rows, some frames => some ((hour, rows) :: frames)
    | _, _ => none

def concat (frames : List (Int × List Trade)) : List Trade := frames.flatMap Prod.snd

def Root.put (r : Root) (hour : Int) (rows : List Trade) : Root where
  segments := r.segments.filter (fun s => s.1 ≠ hour) ++ [(hour, some rows)]
  distinct := by
    unfold Distinct
    rw [List.map_append, List.nodup_append]
    refine ⟨r.distinct.filter _, by simp, ?_⟩
    intro h mem h' here same
    obtain ⟨s, kept, rfl⟩ := List.mem_map.mp mem
    obtain rfl : h' = hour := by simpa using here
    simp [same] at kept

def Roots.publish (r : Roots) (hour : Int) (rows : List Trade) : Roots :=
  { r with reconciled := r.reconciled.put hour rows }

/- The union of an hour. -/

structure TradeUnion where
  frame : List Trade
  addedFromSecondary : Int
  dedupedRows : Int
  secondaryDeficit : Int
  deriving DecidableEq, Repr

def unionTrades (primary secondary : List Trade) : TradeUnion :=
  let missing := (ids secondary).dedup.filter (· ∉ ids primary)
  let combined := primary ++ secondary.filter fun t => t.tradeId ∈ missing
  let deduped := arrange Trade.tradeId (firsts combined)
  { frame := deduped
    addedFromSecondary := missing.length
    dedupedRows := combined.length - deduped.length
    secondaryDeficit := ((ids primary).dedup.filter (· ∉ ids secondary)).length }

/- One pair. -/

/-- How a mint ends. One that raises may have published before, as the sync of the directory does. -/
inductive MintEnd where
  | returns
  | raises (published : Bool)
  deriving DecidableEq, Repr

/-- What is outside: the answers of REST to a window, the ends of the mints, and what others do to a
    pair's files before they are read again. -/
structure Outside where
  rest : String → Int → Int → List Answer
  mint : String → Int → MintEnd
  meanwhile : String → Roots → Roots

def Outside.fetch (o : Outside) (pair : String) (g : IdGap) : Option (List Trade) :=
  fetchTrades (some g.tsHi) none [] (o.rest pair g.tsLo g.tsHi)

inductive Finding where
  | unreadable
  | fetch (gap : IdGap)
  | mint (hour : Int)
  | violated (missing unrecoverable deferred fetchErrors duplicateRows crossHour : Int)
  deriving DecidableEq, Repr

structure Fetch where
  got : List Trade
  unrecoverable : Int
  failed : Int
  errors : List Finding
  deriving DecidableEq, Repr

/-- Every gap's page, as far as it is inside the gap. -/
def fetchGaps (fetch : IdGap → Option (List Trade)) : List IdGap → Fetch
  | [] => ⟨[], 0, 0, []⟩
  | g :: rest =>
    let more := fetchGaps fetch rest
    match fetch g with
    | none => { more with failed := g.missing + more.failed, errors := .fetch g :: more.errors }
    | some page =>
      let inside := page.filter g.inside
      { more with
        got := inside ++ more.got
        unrecoverable := g.missing - inside.length + more.unrecoverable }

def gotAt (got : List Trade) (hour : Int) : List Trade :=
  got.filter fun t => startOf hour ≤ t.ts && t.ts < startOf hour + hourMicros

def repeated (rows : List Trade) : Bool := rows.length ≠ (firsts rows).length

/-- The hours with a duplicate of their own, and those that a fetched row falls in. -/
def touched (frames : List (Int × List Trade)) (got : List Trade) : List Int :=
  (((frames.filter fun f => repeated f.2).map Prod.fst ++ got.map fun t => floorHour t.ts).dedup)
    |>.insertionSort (· ≤ ·)

/-- Whether the stamps of a book final span its hour. One that cannot be read has none. -/
def bookWitnessesHour (stamps : Option (List Int)) (hour : Int) : Bool :=
  match stamps.bind List.min?, stamps.bind List.max? with
  | some low, some high =>
    low ≤ startOf hour + bookWitnessSlack && startOf hour + hourMicros - bookWitnessSlack ≤ high
  | _, _ => false

structure Heal where
  roots : Roots
  recovered : Int
  deferred : Int
  dupCollapsed : Int
  minted : Int
  mintFailed : Int
  repairedAfterLoss : Int
  errors : List Finding

/-- What one pair's hours are healed with. -/
structure Sweep where
  pair : String
  now : Int
  books : List (Int × Option (List Int))
  frames : List (Int × List Trade)
  got : List Trade

def Sweep.union (s : Sweep) (hour : Int) : TradeUnion :=
  unionTrades ((s.frames.lookup hour).getD []) (gotAt s.got hour)

/-- Whether a lost segment was repaired: a settled hour with no final of its own, spanned by its book. -/
def Sweep.lost (s : Sweep) (hour : Int) : Bool :=
  !holds Prod.fst s.frames hour && (s.books.lookup hour).any (bookWitnessesHour · hour)

def mintHours (o : Outside) (s : Sweep) : List Int → Roots → Heal
  | [], roots => ⟨roots, 0, 0, 0, 0, 0, 0, []⟩
  | hour :: rest, roots =>
    if settled s.now hour then
      let union := s.union hour
      match o.mint s.pair hour with
      | .returns =>
        let more := mintHours o s rest (roots.publish hour union.frame)
        { more with
          recovered := union.addedFromSecondary + more.recovered
          dupCollapsed := union.dedupedRows + more.dupCollapsed
          minted := 1 + more.minted
          repairedAfterLoss := (if s.lost hour then 1 else 0) + more.repairedAfterLoss }
      | .raises published =>
        let more := mintHours o s rest
          (if published then roots.publish hour union.frame else roots)
        { more with
          mintFailed := union.addedFromSecondary + more.mintFailed
          errors := .mint hour :: more.errors }
    else
      let more := mintHours o s rest roots
      { more with deferred := (gotAt s.got hour).length + more.deferred }

structure Report where
  gapsFound : Int
  tradesMissing : Int
  duplicateRowsFound : Int
  tradesRecovered : Int
  tradesUnrecoverable : Int
  tradesDeferred : Int
  tradesFetchFailed : Int
  tradesMintFailed : Int
  hoursRepairedAfterLoss : Int
  duplicatesCollapsed : Int
  duplicatesCrossHour : Int
  hoursMinted : Int
  errors : List Finding
  deriving DecidableEq, Repr

def Report.blank : Report := ⟨0, 0, 0, 0, 0, 0, 0, 0, 0, 0, 0, 0, []⟩

def crossHour (frames : List (Int × List Trade)) (det : Detection) : Int :=
  det.rows - det.unique - (frames.map fun f => (f.2.length : Int) - (firsts f.2).length).sum

/-- What the detector found, whatever is healed. -/
def found (frames : List (Int × List Trade)) : Report :=
  let det := detect (concat frames)
  { Report.blank with
    gapsFound := det.gaps.length
    tradesMissing := det.missing
    duplicateRowsFound := det.rows - det.unique
    duplicatesCrossHour := crossHour frames det }

/-- The check of the archive that was read again against what was accounted for. -/
def recheck (det : Detection) (unrecoverable deferred fetchErrors crossHour : Int) : List Finding :=
  if det.missing - (unrecoverable + deferred + fetchErrors) ≠ 0 ∨ det.rows - det.unique - crossHour ≠ 0
  then [.violated det.missing unrecoverable deferred fetchErrors (det.rows - det.unique) crossHour]
  else []

/-- A pair's frames, healed. A segment that cannot be read again ends the whole run. -/
def healFrames (o : Outside) (pair : String) (now : Int) (books : List (Int × Option (List Int)))
    (roots : Roots) (frames : List (Int × List Trade)) : Option (Report × Roots) :=
  let det := detect (concat frames)
  let fetch := fetchGaps (o.fetch pair) det.gaps
  let heal := mintHours o ⟨pair, now, books, frames, fetch.got⟩ (touched frames fetch.got) roots
  let after := o.meanwhile pair heal.roots
  match readFrames (settledSegments after now) with
  | none => none
  | some resettled =>
    some ({ found frames with
      tradesRecovered := heal.recovered
      tradesUnrecoverable := fetch.unrecoverable
      tradesDeferred := heal.deferred
      tradesFetchFailed := fetch.failed
      tradesMintFailed := heal.mintFailed
      hoursRepairedAfterLoss := heal.repairedAfterLoss
      duplicatesCollapsed := heal.dupCollapsed
      hoursMinted := heal.minted
      errors := fetch.errors ++ heal.errors ++ recheck (detect (concat resettled))
        fetch.unrecoverable heal.deferred fetch.failed (crossHour frames det) }, after)

def healPair (o : Outside) (detectOnly : Bool) (pair : String) (now : Int)
    (books : List (Int × Option (List Int))) (roots : Roots) : Option (Report × Roots) :=
  match readFrames (settledSegments roots now) with
  | none => some ({ Report.blank with errors := [.unreadable] }, roots)
  | some frames =>
    if detectOnly then some (found frames, roots)
    else healFrames o pair now books roots frames

/- A run. -/

/-- A pair's part of a run. -/
structure Entry where
  pair : String
  before : Roots
  report : Report
  after : Roots

/-- The pairs in order, each with its roots. A pair with no settled hour is passed over. -/
def backfill (o : Outside) (only : Option String) (now : Int) (detectOnly : Bool)
    (books : String → List (Int × Option (List Int))) :
    List (String × Roots) → Option (List Entry)
  | [] => some []
  | (pair, roots) :: rest =>
    if only.any (· ≠ pair) || (settledSegments roots now).isEmpty then
      backfill o only now detectOnly books rest
    else
      match healPair o detectOnly pair now (books pair) roots,
        backfill o only now detectOnly books rest with
      | some (report, after), some more => some (⟨pair, roots, report, after⟩ :: more)
      | _, _ => none

def Report.add (a b : Report) : Report where
  gapsFound := a.gapsFound + b.gapsFound
  tradesMissing := a.tradesMissing + b.tradesMissing
  duplicateRowsFound := a.duplicateRowsFound + b.duplicateRowsFound
  tradesRecovered := a.tradesRecovered + b.tradesRecovered
  tradesUnrecoverable := a.tradesUnrecoverable + b.tradesUnrecoverable
  tradesDeferred := a.tradesDeferred + b.tradesDeferred
  tradesFetchFailed := a.tradesFetchFailed + b.tradesFetchFailed
  tradesMintFailed := a.tradesMintFailed + b.tradesMintFailed
  hoursRepairedAfterLoss := a.hoursRepairedAfterLoss + b.hoursRepairedAfterLoss
  duplicatesCollapsed := a.duplicatesCollapsed + b.duplicatesCollapsed
  duplicatesCrossHour := a.duplicatesCrossHour + b.duplicatesCrossHour
  hoursMinted := a.hoursMinted + b.hoursMinted
  errors := a.errors ++ b.errors

def backfillResult (entries : List Entry) : Report :=
  (entries.map Entry.report).foldr Report.add Report.blank

end Trades
