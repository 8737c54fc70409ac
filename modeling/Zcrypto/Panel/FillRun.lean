import Zcrypto.Panel.Fills
import Mathlib.Data.List.AList
import Mathlib.Algebra.Ring.Nat

/- A run of the fill model over a pair's hours, which writes its rows one day a file, and the checks that
   the manifest makes of what the runs left. Hours and days are counted from the epoch, as the command's
   own check of its bounds leaves them whole. The listing of the archive, the sidecars, the mark of a set
   in production and the manifest's text are left out. -/
namespace Panel
open OrderBook (Decimal)

def midOffsets : List Int := [60, 900, 3600]
def postsPerHour : Nat := secondsPerHour / gridS * ordersPerPost

def dayOf (hour : Int) : Int := hour / 24
def midnight (day : Int) : Int := day * 24

/-- The day of an instant. -/
def dayAt (ts : Int) : Int := ts / 86400000000

/-- So many numbers, one after another. -/
def upFrom (start : Int) : Nat → List Int
  | 0 => []
  | n + 1 => start :: upFrom (start + 1) n

/-- The hours from a start up to an end. -/
def hoursTo (start till : Int) : List Int := upFrom start (till - start).toNat

structure RunParams where
  gridS : Nat
  horizonS : Int
  cancelAfterS : Int
  staleS : Int
  sizeRungs : List Nat
  midOffsetsS : List Int
  depth : Int
  since : Int
  till : Int
  deriving DecidableEq, Repr

def RunParams.of (depth since till : Int) : RunParams :=
  ⟨Panel.gridS, 900, 5, 30, Panel.sizeRungs, midOffsets, depth, since, till⟩

/-- A day's entry in the run record. -/
structure Entry where
  hours : Nat
  counts : Counts
  hoursUnanchored : List Int
  hoursAbsent : List Int
  tradesAbsent : List Int
  bookReconciled : List Int
  tradesReconciled : List Int
  deriving DecidableEq, Repr

def Entry.new : Entry := ⟨0, ⟨0, 0, 0⟩, [], [], [], [], []⟩

structure RunRecord where
  params : RunParams
  codeRef : String
  days : AList fun _ : Int => Entry

/-- A pair's directory in the out root: its run record and its day files. -/
structure DayTree (F : Type) where
  record : Option RunRecord
  files : AList fun _ : Int => List (FillRow F)

def DayTree.empty (F : Type) : DayTree F := ⟨none, ∅⟩

/-- A segment of the archive, and whether the overlay lists it. -/
structure Listed (α : Type) where
  healed : Bool
  content : α

/-- What a run reads of its pair. -/
structure Source (F Bytes : Type) where
  book : Int → Option (Listed (List Row))
  trades : Int → Option (Listed (List (Print F)))
  panel : Tree Bytes

inductive DayWrite (F : Type) where
  | entry (day : Int) (entry : Entry)
  | file (day : Int) (rows : List (FillRow F))

def DayWrite.isEntry {F : Type} : DayWrite F → Bool
  | .entry _ _ => true
  | .file _ _ => false

def DayWrite.day {F : Type} : DayWrite F → Int
  | .entry day _ => day
  | .file day _ => day

section
variable {F : Type}

def RunRecord.checks (held : RunRecord) (params : RunParams) (codeRef : String) : Bool :=
  held.params = params && held.codeRef = codeRef

/-- A resume continues only the run that wrote the record. -/
def checkRunRecord (tree : DayTree F) (params : RunParams) (codeRef : String) : Except String Unit :=
  match tree.record with
  | none =>
    if tree.files.entries.isEmpty then .ok ()
    else .error "PanelError: day files and no fills-run.json: the run that wrote them is unknown"
  | some held =>
    if held.checks params codeRef then .ok ()
    else .error "PanelError: written with other params or at other code -- a change is a new out root"

/-- One write of a day, the entry into the record or the file. -/
def DayTree.write (params : RunParams) (codeRef : String) (tree : DayTree F) : DayWrite F → DayTree F
  | .entry day entry =>
    { tree with record := some ⟨params, codeRef, ((tree.record.map RunRecord.days).getD ∅).insert day entry⟩ }
  | .file day rows => { tree with files := tree.files.insert day rows }

/-- A day's entry, and then its file unless it has no row. -/
def writeDay (day : Int) (rows : List (FillRow F)) (entry : Entry) : List (DayWrite F) :=
  .entry day entry :: if rows.isEmpty then [] else [.file day rows]

def OrderSide.name : OrderSide → String
  | .bid => "bid"
  | .ask => "ask"

/-- By instant, then by side, then by size. -/
def FillRow.notAfter (a b : FillRow F) : Bool :=
  if a.post.ts ≠ b.post.ts then a.post.ts ≤ b.post.ts
  else if a.post.side ≠ b.post.side then a.post.side.name ≤ b.post.side.name
  else a.post.size ≤ b.post.size

def rowsFrame (rows : List (FillRow F)) : List (FillRow F) := rows.insertionSort fun a b => a.notAfter b

def dayOfRow (r : FillRow F) : Int := dayAt r.post.ts

/-- Rows filed under the days they were posted on. -/
def file (rowsByDay : Int → List (FillRow F)) (rows : List (FillRow F)) : Int → List (FillRow F) :=
  rows.foldl (fun held r => Function.update held (dayOfRow r) (held (dayOfRow r) ++ [r])) rowsByDay

/-- What a run carries from hour to hour. -/
structure Progress (F : Type) where
  entries : AList fun _ : Int => Entry
  pending : List Int
  rowsByDay : Int → List (FillRow F)
  carried : List (Order F)
  book : Option Book
  lastMsgTs : Option Int
  threaded : Bool

namespace Progress

def start (F : Type) : Progress F := ⟨∅, [], fun _ => [], [], none, none, false⟩

def entry (p : Progress F) (day : Int) : Entry := (p.entries.lookup day).getD Entry.new

def openDay (p : Progress F) (day : Int) : Progress F :=
  if day ∈ p.entries then p
  else { p with entries := p.entries.insert day Entry.new, pending := p.pending ++ [day] }

/-- A day that is over and of which no order is carried. -/
def ready (p : Progress F) (hour day : Int) : Bool :=
  midnight day + 24 ≤ hour && p.carried.all fun o => dayAt o.ts ≠ day

def land (p : Progress F) (day : Int) : Progress F × List (DayWrite F) :=
  ({ p with rowsByDay := Function.update p.rowsByDay day [] },
    writeDay day (rowsFrame (p.rowsByDay day)) (p.entry day))

/-- The first of the pending days, as far as they are ready. -/
def landReady (hour : Int) : List Int → Progress F → Progress F × List (DayWrite F)
  | [], p => ({ p with pending := [] }, [])
  | day :: rest, p =>
    if p.ready hour day then
      let (p, written) := p.land day
      let (p, more) := landReady hour rest p
      (p, written ++ more)
    else ({ p with pending := day :: rest }, [])

def landAll : List Int → Progress F → List (DayWrite F)
  | [], _ => []
  | day :: rest, p =>
    let (p, written) := p.land day
    written ++ landAll rest p

end Progress

/-- The entry of an hour's day with the listing that each kind of segment had. -/
def Entry.listed {Bytes : Type} (entry : Entry) (source : Source F Bytes) (hour : Int) : Entry :=
  let entry := match source.trades hour with
    | none => { entry with tradesAbsent := entry.tradesAbsent ++ [hour] }
    | some segment =>
      if segment.healed then { entry with tradesReconciled := entry.tradesReconciled ++ [hour] } else entry
  match source.book hour with
  | none => { entry with hoursAbsent := entry.hoursAbsent ++ [hour] }
  | some segment =>
    if segment.healed then { entry with bookReconciled := entry.bookReconciled ++ [hour] } else entry

def Entry.posted (entry : Entry) (counts : Counts) : Entry :=
  { entry with
    hours := entry.hours + 1
    counts := ⟨entry.counts.posts + counts.posts, entry.counts.skippedNoQuote + counts.skippedNoQuote,
      entry.counts.skippedStale + counts.skippedStale⟩ }

/-- What an hour opens with. -/
inductive Opening (F : Type) where
  | absent
  | unanchored
  | anchored (messages : List Message) (trades : List (Print F)) (book : Book) (lastMsgTs : Option Int)

section
variable {Sample Bytes : Type} (sampler : Sampler Sample Bytes)

/-- The panel's book and clock as the hour before left them. -/
def seedBook (panel : Tree Bytes) (hour : Int) : Except String (Option Book × Option Int) :=
  match panel.lookup (.state (hour - 1)) with
  | none => .ok (none, none)
  | some _ =>
    match loadState sampler panel (hour - 1) with
    | (some book, lastMsgTs) => .ok (some book, lastMsgTs)
    | (none, _) => .error "PanelError: the panel state holds no book"

def hourTrades (source : Source F Bytes) (hour : Int) : List (Print F) :=
  match source.trades hour with
  | some segment => segment.content.insertionSort fun a b => a.ts ≤ b.ts
  | none => []

/-- The book and the clock that an hour starts from: those of the hour before it, or the panel's. -/
def bookFor (source : Source F Bytes) (p : Progress F) (hour : Int) : Except String (Option Book × Option Int) :=
  if p.threaded then .ok (p.book, p.lastMsgTs) else seedBook sampler source.panel hour

def opening (source : Source F Bytes) (p : Progress F) (hour : Int) : Except String (Opening F) :=
  match source.book hour with
  | none => .ok .absent
  | some segment => do
    let (book, lastMsgTs) ← bookFor sampler source p hour
    let messages := regroupMessages segment.content
    let book := if opensWithSnapshot messages then some ⟨sampler.depth, [], []⟩ else book
    match book with
    | none => pure .unanchored
    | some book => pure (.anchored messages (hourTrades source hour) book lastMsgTs)

variable [Zero F] [NatCast F] [Add F] [Sub F] [Mul F] [Div F] [Max F] [Min F] [LE F] [DecidableLE F]
  [DecidableEq F] (float : Decimal → F) (source : Source F Bytes) (pair : String)

/-- One hour of the span. -/
def Progress.hour (p : Progress F) (hour : Int) : Except String (Progress F) := do
  let day := dayOf hour
  let p := p.openDay day
  let entry := (p.entry day).listed source hour
  match ← opening sampler source p hour with
  | .absent =>
    pure { p with
      entries := p.entries.insert day entry
      rowsByDay := file p.rowsByDay (flush float p.carried)
      carried := [], book := none, lastMsgTs := none, threaded := false }
  | .unanchored =>
    pure { p with
      entries := p.entries.insert day { entry with hoursUnanchored := entry.hoursUnanchored ++ [hour] }
      book := none, lastMsgTs := none, threaded := true }
  | .anchored messages trades book lastMsgTs =>
    let out ← simulateHour float messages trades book hour pair p.carried lastMsgTs
    pure { p with
      entries := p.entries.insert day (entry.posted out.counts)
      rowsByDay := file p.rowsByDay out.rows
      carried := out.carried, book := some out.book, lastMsgTs := out.lastMsgTs, threaded := true }

/-- The hours in their order: the days that were landed on the way, and what is carried at the end. -/
def Progress.hours : List Int → Progress F → List (DayWrite F) × Except String (Progress F)
  | [], p => ([], .ok p)
  | hour :: later, p =>
    match p.hour sampler float source pair hour with
    | .error e => ([], .error e)
    | .ok p =>
      let (p, written) := p.landReady hour p.pending
      let (more, ended) := hours later p
      (written ++ more, ended)

/-- The days that are left when the data ends. -/
def Progress.finish (p : Progress F) : List (DayWrite F) :=
  let p := { p with rowsByDay := file p.rowsByDay (flush float p.carried), carried := [] }
  p.landAll p.pending

structure Totals where
  hours : Nat
  hoursUnanchored : Nat
  hoursAbsent : Nat
  tradesAbsent : Nat
  counts : Counts
  daysWritten : Nat
  deriving DecidableEq, Repr

def Progress.totals (p : Progress F) (writes : List (DayWrite F)) : Totals :=
  let entries := p.entries.entries.map Sigma.snd
  { hours := (entries.map Entry.hours).sum
    hoursUnanchored := (entries.map fun e => e.hoursUnanchored.length).sum
    hoursAbsent := (entries.map fun e => e.hoursAbsent.length).sum
    tradesAbsent := (entries.map fun e => e.tradesAbsent.length).sum
    counts := ⟨(entries.map fun e => e.counts.posts).sum, (entries.map fun e => e.counts.skippedNoQuote).sum,
      (entries.map fun e => e.counts.skippedStale).sum⟩
    daysWritten := writes.countP fun write => write matches .file _ _ }

/-- Where a run takes a pair up: the midnight after its newest day file. -/
def DayTree.startOf (tree : DayTree F) (since : Int) : Int :=
  match tree.files.keys.max? with
  | some newest => midnight (newest + 1)
  | none => since

/-- The writes of a run in their order, and its answer. -/
def producePair (codeRef : String) (since till : Int) (tree : DayTree F) :
    List (DayWrite F) × Except String Totals :=
  let params := RunParams.of sampler.depth since till
  match checkRunRecord tree params codeRef with
  | .error e => ([], .error e)
  | .ok () =>
    match Progress.hours sampler float source pair (hoursTo (tree.startOf since) till) (Progress.start F) with
    | (written, .error e) => (written, .error e)
    | (written, .ok p) =>
      let writes := written ++ p.finish float
      if (writes.foldl (DayTree.write params codeRef) tree).files.entries.isEmpty then
        (writes, .error "PanelError: the run left no day file")
      else (writes, .ok (p.totals writes))

end

/- The checks of the manifest. -/

/-- The hours of a day within the span of a record. -/
def spanHours (params : RunParams) (day : Int) : Nat :=
  (hoursTo (max params.since (midnight day)) (min params.till (midnight day + 24))).length

def checkFile (record : Option RunRecord) (item : Sigma fun _ : Int => List (FillRow F)) : Except String Unit :=
  match record with
  | none => .error "PanelError: no run record beside it"
  | some record =>
    match record.days.lookup item.1 with
    | none => .error "PanelError: no entry in its pair's run record"
    | some entry =>
      if item.2.length ≠ entry.counts.posts then .error "PanelError: its rows are not its record's entry's posts"
      else .ok ()

def checkEntry (tree : DayTree F) (params : RunParams) (item : Sigma fun _ : Int => Entry) : Except String Unit :=
  let entry := item.2
  if entry.counts.posts ≠ 0 ∧ item.1 ∉ tree.files then .error "PanelError: its record's entry holds posts and no day file"
  else if entry.counts.posts + entry.counts.skippedNoQuote + entry.counts.skippedStale ≠ postsPerHour * entry.hours then
    .error "PanelError: the entry's posts and skips are not 960 for each of its hours"
  else if entry.hours + entry.hoursUnanchored.length + entry.hoursAbsent.length ≠ spanHours params item.1 then
    .error "PanelError: the entry's hours posted, unanchored and absent are not the day's in the span"
  else .ok ()

/-- The rows, the entries and the span, over every pair. -/
def checkFills (trees : List (DayTree F)) : Except String Unit := do
  trees.forM fun tree => tree.files.entries.forM (checkFile tree.record)
  trees.forM fun tree =>
    match tree.record with
    | none => pure ()
    | some record => record.days.entries.forM (checkEntry tree record.params)

end

end Panel
