import Zcrypto.Panel.Book
import Mathlib.Logic.Function.Basic
import Mathlib.Algebra.Ring.Nat

/- The sweep that samples the canonical book archive into the one-second panel. An hour is its number from
   the epoch and an instant counts microseconds. What a second's row is made of, and what a frame's bytes
   and their digest are, are parameters. The manifest of a generation, a process's own temporaries and the
   log lines are left out, as is the option that lets an operator leave hours out for good. -/
namespace Panel
open DecimalText (Decimal)

def secondsPerHour : Nat := 3600

/-- The quotes that have a ladder of notionals. -/
def notionalQuotes : List String := ["EUR", "BTC"]

def quoteOf (pair : String) : String := String.ofList (pair.toList.reverse.takeWhile (· ≠ '/')).reverse

def startOf (hour : Int) : Int := hour * 3600000000

def boundaries (hour : Int) : List Int :=
  (List.range secondsPerHour).map fun second => startOf hour + second * 1000000

abbrev Archive := Continuity.Archive (List Row)
abbrev Segment := Continuity.Segment (List Row)

/-- What a second's row is made of: the two sides, the quote, the messages of the second and how long ago
    the last one came. There is none where a side is empty. -/
structure Sampler (Sample Bytes : Type) where
  sampleRow : Side → Side → String → Nat → Option Int → Except String (Option Sample)
  encode : List (Int × Sample) → Bytes
  sha256 : Bytes → String
  depth : Int

/- One hour. -/

structure Walk where
  book : Book
  lastMsgTs : Option Int
  updates : Nat

def Walk.apply (w : Walk) (m : Message) : Except String Walk := do
  let book ← ingest w.book m
  pure ⟨book, some m.ts, w.updates + 1⟩

/-- The messages up to a boundary, and those that are left. -/
def Walk.upTo (boundary : Int) : List Message → Walk → Except String (Walk × List Message)
  | [], w => .ok (w, [])
  | m :: rest, w =>
    if m.ts ≤ boundary then do
      let next ← w.apply m
      next.upTo boundary rest
    else .ok (w, m :: rest)

inductive Failure where
  | unanchored
  | failed (error : String)
  deriving DecidableEq, Repr

section
variable {Sample Bytes : Type} (sampler : Sampler Sample Bytes)

def sampleSeconds (quote : String) :
    List Int → Walk → List Message → Except String (List (Int × Sample) × Walk × List Message)
  | [], w, messages => .ok ([], w, messages)
  | boundary :: later, w, messages => do
    let (w, messages) ← w.upTo boundary messages
    let row ← sampler.sampleRow w.book.bids w.book.asks quote w.updates (w.lastMsgTs.map (boundary - ·))
    let (rows, w, messages) ← sampleSeconds quote later { w with updates := 0 } messages
    pure ((row.map (boundary, ·)).toList ++ rows, w, messages)

/-- An hour that opens with a snapshot is its own anchor, any other takes the book it is given. -/
def anchor (messages : List Message) (book : Option Book) : Except Failure Book :=
  if messages.head?.any fun m => m.type = "snapshot" then .ok ⟨sampler.depth, [], []⟩
  else match book with
    | none => .error .unanchored
    | some book => .ok book

/-- The hour's rows, the book at its end and the time of the last message applied to it. -/
def materializeHour (pair : String) (hour : Int) (frame : List Row) (book : Option Book)
    (lastMsgTs : Option Int) : Except Failure (List (Int × Sample) × Book × Option Int) := do
  let messages := regroupMessages frame
  let book ← anchor sampler messages book
  let (rows, w, rest) ← (sampleSeconds sampler (quoteOf pair) (boundaries hour) ⟨book, lastMsgTs, 0⟩
    messages).mapError .failed
  let w ← (rest.foldlM Walk.apply w).mapError .failed
  pure (rows, w.book, w.lastMsgTs)

/- The files. -/

/-- The document of a state file: each price and quantity as its text. -/
structure StateDoc where
  bids : List (String × String)
  asks : List (String × String)
  lastMsgTs : Option Int
  deriving DecidableEq, Repr

inductive File where
  | state (hour : Int)
  | sidecar (hour : Int)
  | final (hour : Int)
  deriving DecidableEq, Repr

inductive Content (Bytes : Type) where
  | doc (doc : StateDoc)
  | digest (text : String)
  | frame (bytes : Bytes)
  deriving DecidableEq

/-- The files of one pair. -/
abbrev Tree (Bytes : Type) := List (File × Content Bytes)

/-- The panel, pair by pair. -/
abbrev Root (Bytes : Type) := String → Tree Bytes

abbrev Write (Bytes : Type) := File × Content Bytes

/-- A file renamed into place. -/
def replaceDurably (tree : Tree Bytes) (item : Write Bytes) : Tree Bytes :=
  if tree.any (fun old => old.1 = item.1) then
    tree.map fun old => if old.1 = item.1 then item else old
  else tree ++ [item]

/-- An object of texts, a name that comes again taking the later value. -/
def object (items : List (String × String)) : List (String × String) :=
  items.foldl (fun held item =>
    if held.any (fun old => old.1 = item.1) then held.map fun old => if old.1 = item.1 then item else old
    else held ++ [item]) []

def sideDoc (side : Side) : List (String × String) :=
  object (side.map fun level => (level.1.text, level.2.text))

def writeState (hour : Int) (book : Book) (lastMsgTs : Option Int) : Write Bytes :=
  (.state hour, .doc ⟨sideDoc book.bids, sideDoc book.asks, lastMsgTs⟩)

def writeHour (hour : Int) (frame : List (Int × Sample)) : List (Write Bytes) :=
  let bytes := sampler.encode frame
  [(.sidecar hour, .digest (sampler.sha256 bytes)), (.final hour, .frame bytes)]

def parseLevel (item : String × String) : Option Level := do
  let price ← DecimalText.ofText item.1
  let qty ← DecimalText.ofText item.2
  pure (price, qty)

def parseSide (items : List (String × String)) : Option Side := (items.mapM parseLevel).map putAll

/-- The book and the clock of a state file, nothing where it is missing or cannot be read. -/
def loadState (tree : Tree Bytes) (hour : Int) : Option Book × Option Int :=
  match tree.lookup (.state hour) with
  | some (.doc doc) =>
    match parseSide doc.bids, parseSide doc.asks with
    | some bids, some asks => (some ⟨sampler.depth, bids, asks⟩, doc.lastMsgTs)
    | _, _ => (none, none)
  | _ => (none, none)

def finalHour : File × Content Bytes → Option Int
  | (.final hour, _) => some hour
  | _ => none

def panelWatermark (tree : Tree Bytes) : Option Int := (tree.filterMap finalHour).max?

/- The sweep. -/

/-- A run of the command. -/
structure Run where
  now : Int
  settle : Int
  pair : Option String
  since : Option Int
  deriving DecidableEq, Repr

/-- What a sweep carries of a pair. -/
structure Carry where
  prevHour : Option Int
  book : Option Book
  lastMsgTs : Option Int
  deriving DecidableEq, Repr

structure Memory where
  watermark : Option Int
  carry : Carry
  deriving DecidableEq, Repr

structure Output (Sample : Type) where
  hour : Int
  frame : List (Int × Sample)
  book : Book
  lastMsgTs : Option Int

inductive Verdict (Sample : Type) where
  | passed
  | outOfScope
  | skipped
  | unsettled
  | unanchored
  | failed (error : String)
  | written (output : Output Sample)

/-- A book is trusted no longer than to the next hour. -/
def Carry.upTo (carry : Carry) (hour : Int) : Carry :=
  if carry.prevHour = some (hour - 1) then carry else { carry with book := none, lastMsgTs := none }

def processHour (carry : Carry) (seg : Segment) : Carry × Verdict Sample :=
  let trusted := carry.upTo seg.hour
  match materializeHour sampler seg.pair seg.hour seg.bytes trusted.book trusted.lastMsgTs with
  | .error .unanchored => (⟨some seg.hour, none, none⟩, .unanchored)
  | .error (.failed error) => (⟨some seg.hour, none, none⟩, .failed error)
  | .ok (frame, book, lastMsgTs) =>
    (⟨some seg.hour, some book, lastMsgTs⟩, .written ⟨seg.hour, frame, book, lastMsgTs⟩)

def settled (run : Run) (hour : Int) : Bool := run.settle ≤ run.now - startOf hour

def visitHour (run : Run) (memory : Memory) (seg : Segment) : Memory × Verdict Sample :=
  if memory.watermark.any (seg.hour ≤ ·) then (memory, .skipped)
  else if !settled run seg.hour then (memory, .unsettled)
  else
    match processHour sampler memory.carry seg with
    | (carry, .written output) => (⟨some seg.hour, carry⟩, .written output)
    | (carry, verdict) => ({ memory with carry }, verdict)

/-- Where a sweep takes a pair up. -/
def resume (tree : Tree Bytes) : Memory :=
  match panelWatermark tree with
  | none => ⟨none, none, none, none⟩
  | some watermark =>
    let (book, lastMsgTs) := loadState sampler tree watermark
    ⟨some watermark, some watermark, book, lastMsgTs⟩

def Verdict.writes : Verdict Sample → List (Write Bytes)
  | .written output =>
    writeState output.hour output.book output.lastMsgTs :: writeHour sampler output.hour output.frame
  | _ => []

def inScope (pair : String) : Bool := notionalQuotes.contains (quoteOf pair)

def visit (run : Run) (root : Root Bytes) (memories : String → Option Memory) (seg : Segment) :
    (String → Option Memory) × Verdict Sample :=
  if run.pair.any (· ≠ seg.pair) then (memories, .passed)
  else if !inScope seg.pair then (memories, .outOfScope)
  else if run.since.any (seg.hour < ·) then (memories, .passed)
  else
    let memory := (memories seg.pair).getD (resume sampler (root seg.pair))
    let (memory, verdict) := visitHour sampler run memory seg
    (Function.update memories seg.pair (some memory), verdict)

def Root.replaceAll (root : Root Bytes) (pair : String) (writes : List (Write Bytes)) : Root Bytes :=
  Function.update root pair (writes.foldl replaceDurably (root pair))

/-- What becomes of each hour. -/
def sweep (run : Run) : Root Bytes → (String → Option Memory) → List Segment → List (Segment × Verdict Sample)
  | _, _, [] => []
  | root, memories, seg :: rest =>
    let (memories, verdict) := visit sampler run root memories seg
    (seg, verdict) :: sweep run (root.replaceAll seg.pair (verdict.writes sampler)) memories rest

structure MaterializeResult where
  hoursWritten : Nat
  hoursSkipped : Nat
  hoursUnanchored : Nat
  hoursUnsettled : Nat
  rows : Nat
  errors : List (String × Int × String)
  pairsOutOfScope : Nat
  deriving DecidableEq, Repr

def resultOf (verdicts : List (Segment × Verdict Sample)) : MaterializeResult where
  hoursWritten := verdicts.countP fun item => item.2 matches .written _
  hoursSkipped := verdicts.countP fun item => item.2 matches .skipped
  hoursUnanchored := verdicts.countP fun item => item.2 matches .unanchored
  hoursUnsettled := verdicts.countP fun item => item.2 matches .unsettled
  rows := (verdicts.map fun item => match item.2 with
    | .written output => output.frame.length
    | _ => 0).sum
  errors := verdicts.filterMap fun item => match item.2 with
    | .failed error => some (item.1.pair, item.1.hour, error)
    | _ => none
  pairsOutOfScope := ((verdicts.filter fun item => item.2 matches .outOfScope).map fun item => item.1.pair).dedup.length

def materialize (run : Run) (archive : Archive) (root : Root Bytes) : List (Segment × Verdict Sample) :=
  sweep sampler run root (fun _ => none) archive.segments

/- The command. -/

def affectedPairs (archive : Archive) (pair : Option String) : List String :=
  match pair with
  | some pair => [pair]
  | none => ((archive.segments.map Continuity.Segment.pair).filter inScope).dedup

/-- The hour from which a pair's panel goes on: the one after its newest, or its earliest. -/
def openFrom (archive : Archive) (root : Root Bytes) (pair : String) : Option Int :=
  match panelWatermark (root pair) with
  | some watermark => some (watermark + 1)
  | none => ((archive.segments.filter fun seg => seg.pair = pair).map Continuity.Segment.hour).min?

/-- Hours before `since` that the panel has not reached would be left out for good. -/
def opensHole (archive : Archive) (root : Root Bytes) (run : Run) : Bool :=
  run.since.any fun since =>
    (affectedPairs archive run.pair).any fun pair => (openFrom archive root pair).any (· < since)

def checkPair (pair : String) : Bool := pair.toList.count '/' = 1 && inScope pair

def accepted (archive : Archive) (root : Root Bytes) (run : Run) : Bool :=
  run.pair.all checkPair && !opensHole archive root run

/-- The writes of a run, in their order. -/
def Run.writes (run : Run) (archive : Archive) (root : Root Bytes) : List (String × Write Bytes) :=
  if accepted archive root run then
    (materialize sampler run archive root).flatMap fun item =>
      (item.2.writes sampler).map fun write => (item.1.pair, write)
  else []

def leave (root : Root Bytes) (writes : List (String × Write Bytes)) : Root Bytes :=
  writes.foldl (fun root item => root.replaceAll item.1 [item.2]) root

end

end Panel
