import Zcrypto.WriteOnce
import Zcrypto.Tick.Sweep
import Zcrypto.Engine.ProbePlan

/- The rolling canonical: a base copied once from a frozen quarter and daily files copied from tape-bars,
   each day attested by an index line that holds the sha256 of the line before it. The tree holds files and
   lines by their paths; a line is kept as what its canonical JSON says, sha256 is a function of content. -/
namespace Rolling
open Tick (Pair Tape Final finalOf watermark rescanDays)

/-- A line's notes: the close of a pair, or one of the base's own. -/
inductive Note where
  | closed (pair : Pair)
  | about (name : String)
deriving DecidableEq

inductive Path where
  | base (pair : Pair)
  | day (pair : Pair) (d : Int)
  | line (d : Int)
deriving DecidableEq

/-- What an index line says. -/
structure Entry (Digest : Type) where
  day : Int
  prev : Option Digest
  files : List (Path × Digest)
  holes : List (Pair × String)
  notes : List (Note × String)
deriving DecidableEq

inductive Content (Bytes Digest : Type) where
  | frame (data : Bytes)
  | line (entry : Entry Digest)
deriving DecidableEq

abbrev Tree (Bytes Digest : Type) := List (Path × Content Bytes Digest)

structure Line (Digest : Type) extends Entry Digest where
  sha256 : Digest
deriving DecidableEq

inductive RollingError where
  | absent (d : Int)
  | notALine (d : Int)
  | dayDiffers (d said : Int)
  | baseShape (d : Int)
  | otherDay (d : Int)
  | strayNotes (d : Int)
  | pairsNotOnce (d : Int)
  | noBaseLine
  | oldestNotBase (d : Int)
  | noLineFor (d : Int)
  | dayMissing (d : Int)
  | linkBroken (d : Int)
  | noHead
  | notAPair (pair : Pair)
  | notAGrid (interval : Nat)
  | hole (pair : Pair) (d : Int) (reason : String)
  | listedAbsent (path : Path)
  | hashDiffers (path : Path)
  | unlisted (path : Path)
  | unreadable (path : Path) (text : String)
  | otherPairs
  | manifest (text : String)
  | notTheFrame (pair : Pair)
  | unattested (pair : Pair)
  | otherBytes (path : Path)
  | unvouched (pair : Pair) (d : Int)
  | closeOutside (pair : Pair)
  | closeHasFinal (pair : Pair) (d : Int)
  | closeUnwritten (d : Int)
deriving DecidableEq

/-- 2026-09-30. -/
def baseDay : Int := 20726

def baseGrid : Nat := 15

def grids : List Nat := [baseGrid, 60, 240, 1440]

def pastTheWindow : String := "no tape-bars final past the re-scan window"

def ownersClose : String := "closed on the owner's word"

def seam : String := "2026-10-01T00:00:00+00:00"

def vwap : String :=
  "the dump's close-weighted proxy before the seam, the tape's tick-weighted mean from it"

/-- A day's ISO text. -/
def isoDay (d : Int) : String :=
  let (y, m, d) := ProbePlans.civil d
  ProbePlans.padded 4 y ++ "-" ++ ProbePlans.padded 2 m ++ "-" ++ ProbePlans.padded 2 d

example : isoDay baseDay = "2026-09-30" := by decide +kernel

def pairOf : Path → Option Pair
  | .base pair => some pair
  | .day pair _ => some pair
  | .line _ => none

def isBaseFile : Path → Bool
  | .base _ => true
  | _ => false

def isDayFile (d : Int) : Path → Bool
  | .day _ e => e = d
  | _ => false

/-- A day line's notes are of closed pairs, each under its holes. -/
def isHoleNote (holes : List Pair) : Note → Bool
  | .closed pair => holes.contains pair
  | .about _ => false

/-- A check, with what it refuses by. -/
def require (holds : Bool) (e : RollingError) : Except RollingError Unit :=
  if holds then .ok () else .error e

section
variable {Bytes Digest : Type} [DecidableEq Digest] (sha256 : Content Bytes Digest → Digest)

def Line.of (entry : Entry Digest) : Line Digest :=
  { entry with sha256 := sha256 (.line entry) }

def linesIn (tree : Tree Bytes Digest) : List Int :=
  tree.filterMap fun item => match item.1 with
    | .line d => some d
    | _ => none

/-- The days of the index lines, sorted. -/
def lineDays (tree : Tree Bytes Digest) : List Int :=
  (linesIn tree).insertionSort (· ≤ ·)

/-- The parts of a line's shape that the set's pairs do not decide. -/
def shape (d : Int) (entry : Entry Digest) : Except RollingError Unit :=
  if entry.day ≠ d then
    .error (.dayDiffers d entry.day)
  else if entry.prev = none then
    if entry.files = [] ∨ entry.holes ≠ [] ∨ !entry.files.all fun file => isBaseFile file.1 then
      .error (.baseShape d)
    else
      .ok ()
  else if !entry.files.all fun file => isDayFile d file.1 then
    .error (.otherDay d)
  else if !entry.notes.all fun note => isHoleNote (entry.holes.map Prod.fst) note.1 then
    .error (.strayNotes d)
  else
    .ok ()

def read (tree : Tree Bytes Digest) (d : Int) : Except RollingError (Line Digest) :=
  match tree.lookup (.line d) with
  | some (.line entry) => do
      shape d entry
      return Line.of sha256 entry
  | some (.frame _) => .error (.notALine d)
  | none => .error (.absent d)

def named (entry : Entry Digest) : List Pair :=
  entry.files.filterMap fun file => pairOf file.1

/-- Each of the set's pairs under the files or the holes, none under both and no other. -/
def checkPairs (line : Line Digest) (setPairs : List Pair) : Except RollingError Unit :=
  let holes := line.holes.map Prod.fst
  if (named line.toEntry).any holes.contains ∨ !(named line.toEntry ++ holes).all setPairs.contains ∨
      !setPairs.all (named line.toEntry ++ holes).contains then
    .error (.pairsNotOnce line.day)
  else
    .ok ()

def pairs (tree : Tree Bytes Digest) : Except RollingError (List Pair) :=
  match lineDays tree with
  | [] => .error .noBaseLine
  | d :: _ => do
      let base ← read sha256 tree d
      require (base.prev = none) (.oldestNotBase d)
      return (named base.toEntry).insertionSort (· ≤ ·)

/-- A base line's pairs are the set's. -/
def checkUnlessBase (line : Line Digest) (setPairs : Except RollingError (List Pair)) :
    Except RollingError Unit :=
  match line.prev with
  | none => .ok ()
  | some _ => do checkPairs line (← setPairs)

/-- One line read, its link to the line before it not walked. -/
def readLine (tree : Tree Bytes Digest) (d : Int) : Except RollingError (Line Digest) := do
  let line ← read sha256 tree d
  checkUnlessBase line (pairs sha256 tree)
  return line

/-- The link of a line to the one below it. -/
def checkLink (above : Option (Line Digest)) (line : Line Digest) : Except RollingError Unit :=
  match above with
  | none => .ok ()
  | some above =>
      if above.day ≠ line.day + 1 then .error (.dayMissing (line.day + 1))
      else if above.prev ≠ some line.sha256 then .error (.linkBroken above.day)
      else .ok ()

/-- The lines of the days given, newest first, each linked to the one read before it. -/
def walkDown (tree : Tree Bytes Digest) (setPairs : List Pair) (above : Option (Line Digest)) :
    List Int → Except RollingError (List (Line Digest))
  | [] => .ok []
  | d :: below => do
      let line ← read sha256 tree d
      checkUnlessBase line (.ok setPairs)
      checkLink above line
      let rest ← walkDown tree setPairs (some line) below
      return rest ++ [line]

/-- Every line from the base up to the day's. -/
def walkChain (tree : Tree Bytes Digest) (asOf : Int) : Except RollingError (List (Line Digest)) :=
  let days := lineDays tree
  do
    require (asOf ∈ days) (.noLineFor asOf)
    let setPairs ← pairs sha256 tree
    walkDown sha256 tree setPairs none (days.filter fun d => d ≤ asOf).reverse

def isFile (tree : Tree Bytes Digest) (path : Path) : Bool :=
  (tree.lookup path).isSome

def headOf (tree : Tree Bytes Digest) : List Int → Except RollingError (Line Digest)
  | [] => .error .noHead
  | d :: below => do
      let line ← readLine sha256 tree d
      if line.files.all fun file => isFile tree file.1 then
        match (← walkChain sha256 tree d).getLast? with
        | some top => .ok top
        | none => .error (.noLineFor d)
      else
        headOf tree below

/-- The newest line whose files are all present, its chain walked. -/
def head (tree : Tree Bytes Digest) : Except RollingError (Line Digest) :=
  headOf sha256 tree (lineDays tree).reverse

/- Reading. -/

/-- What reads a file's rows and what is done with them. -/
structure Frames (Bytes Row : Type) where
  readParquet : Bytes → Except String (List Row)
  deriveBars : Nat → List Row → List Row
  ts : Row → Int

structure RollingRead (Row Digest : Type) where
  frame : List Row
  holes : List Int
  line : Line Digest

variable {Row : Type} (frames : Frames Bytes Row)

def meets (d : Int) : Option (Int × Int) → Bool
  | none => true
  | some (first, last) => first < Tick.dayEnd d ∧ Tick.dayEnd (d - 1) ≤ last

/-- The files of a pair that the day lines of a chain list, and the days it is a hole on. -/
def listed (pair : Pair) (window : Option (Int × Int)) (acceptHoles : Bool) :
    List (Line Digest) → Except RollingError (List (Path × Digest) × List Int)
  | [] => .ok ([], [])
  | line :: rest =>
      match line.holes.lookup pair with
      | some reason =>
          if meets line.day window then do
            require acceptHoles (.hole pair line.day reason)
            let (files, holes) ← listed pair window acceptHoles rest
            return (files, line.day :: holes)
          else
            listed pair window acceptHoles rest
      | none =>
          match line.files.lookup (.day pair line.day) with
          | none => .error (.unlisted (.day pair line.day))
          | some digest => do
              let (files, holes) ← listed pair window acceptHoles rest
              return ((.day pair line.day, digest) :: files, holes)

/-- A listed file's rows, its bytes hashed first. -/
def opened (tree : Tree Bytes Digest) (file : Path × Digest) : Except RollingError (List Row) :=
  match tree.lookup file.1 with
  | none => .error (.listedAbsent file.1)
  | some content =>
      if sha256 content ≠ file.2 then .error (.hashDiffers file.1)
      else match content with
        | .line _ => .error (.unreadable file.1 "not a parquet file")
        | .frame data => (frames.readParquet data).mapError fun text => .unreadable file.1 text

def ends (asOf : Int) (chain : List (Line Digest)) : Except RollingError (Line Digest × Line Digest) :=
  match chain with
  | [] => .error (.noLineFor asOf)
  | base :: days => .ok (base, days.getLast?.getD base)

def listedBase (pair : Pair) (base : Line Digest) : Except RollingError (Path × Digest) :=
  match base.files.lookup (.base pair) with
  | none => .error (.unlisted (.base pair))
  | some digest => .ok (.base pair, digest)

def within (window : Option (Int × Int)) (rows : List Row) : List Row :=
  match window with
  | none => rows
  | some (first, last) => rows.filter fun row => first ≤ frames.ts row ∧ frames.ts row ≤ last

def readRolling (tree : Tree Bytes Digest) (pair : Pair) (interval : Nat) (asOf : Int)
    (window : Option (Int × Int)) (acceptHoles : Bool) :
    Except RollingError (RollingRead Row Digest) := do
  let setPairs ← pairs sha256 tree
  require (pair ∈ setPairs) (.notAPair pair)
  require (interval ∈ grids) (.notAGrid interval)
  let chain ← walkChain sha256 tree asOf
  let (base, line) ← ends asOf chain
  let first ← listedBase pair base
  let (files, holes) ← listed pair window acceptHoles chain.tail
  let rows := (← (first :: files).mapM (opened sha256 frames tree)).flatten
  return ⟨within frames window (if interval = baseGrid then rows else frames.deriveBars interval rows),
    holes, line⟩

/- Writing. -/

structure Manifest where
  identityDigest : String
  hashByPath : List (Pair × String)

/-- The directory a base is copied from: its name, its 15-minute files and its manifest. -/
structure Source (Bytes : Type) where
  name : String
  files : List (Pair × Bytes)
  manifest : Except String Manifest

/-- The frame the base is bound to: each pair's sha256, of which there are some, and how a file's frame is
    hashed. -/
structure Q3 (Bytes Digest : Type) where
  sha256 : List (Pair × Digest)
  some : sha256 ≠ []
  datasetHash : Bytes → Except String String

def found (source : Source Bytes) : List Pair :=
  (source.files.map Prod.fst).dedup.insertionSort (· ≤ ·)

/-- One pair's file, staged and checked. -/
def stagedFile (q3 : Q3 Bytes Digest) (source : Source Bytes) (manifest : Manifest) (pair : Pair) :
    Except RollingError (Path × Bytes) :=
  match source.files.lookup pair with
  | none => .error .otherPairs
  | some data =>
      if some (sha256 (.frame data)) ≠ q3.sha256.lookup pair then .error (.notTheFrame pair)
      else match q3.datasetHash data with
        | .error text => .error (.unreadable (.base pair) text)
        | .ok hash =>
            if some hash ≠ manifest.hashByPath.lookup pair then .error (.unattested pair)
            else .ok (.base pair, data)

/-- A staged file whose destination has other bytes. -/
def checkPresent (tree : Tree Bytes Digest) (file : Path × Bytes) : Except RollingError Unit :=
  match tree.lookup file.1 with
  | none => .ok ()
  | some content => if sha256 content ≠ sha256 (.frame file.2) then .error (.otherBytes file.1) else .ok ()

def checkFound (q3 : Q3 Bytes Digest) (source : Source Bytes) : Except RollingError Unit :=
  require ((found source).all (q3.sha256.map Prod.fst).contains ∧
    (q3.sha256.map Prod.fst).all (found source).contains) .otherPairs

def baseEntry (source : Source Bytes) (manifest : Manifest) (staged : List (Path × Bytes)) : Entry Digest :=
  { day := baseDay
    prev := none
    files := staged.map fun file => (file.1, sha256 (.frame file.2))
    holes := []
    notes := [(.about "seam", seam), (.about "base_from", source.name),
      (.about "base_identity_digest", manifest.identityDigest), (.about "vwap", vwap)] }

/-- The staged files that are not there yet, and then the line. -/
def basePlacements (tree : Tree Bytes Digest) (source : Source Bytes) (manifest : Manifest)
    (staged : List (Path × Bytes)) : List (Path × Content Bytes Digest) :=
  (staged.filter fun file => !isFile tree file.1).map (fun file => (file.1, .frame file.2)) ++
    [(.line baseDay, .line (baseEntry sha256 source manifest staged))]

/-- What a base's staging renames into the tree. -/
def stageBase (q3 : Q3 Bytes Digest) (tree : Tree Bytes Digest) (source : Source Bytes) :
    Except RollingError (List (Path × Content Bytes Digest)) := do
  checkFound q3 source
  let manifest ← source.manifest.mapError .manifest
  let staged ← (found source).mapM (stagedFile sha256 q3 source manifest)
  staged.forM (checkPresent sha256 tree)
  return basePlacements sha256 tree source manifest staged

/-- The owner's close of pairs from a day on. -/
structure Close where
  pairs : List Pair
  fromDay : Int
  word : String
  wordDate : Int

def Close.text (close : Close) : String :=
  "from " ++ isoDay close.fromDay ++ ", the owner's word of " ++ isoDay close.wordDate ++ ": " ++ close.word

/-- The tape tree as the reads of one day's planning find it, each read of a pair at its own time. -/
structure View (Bytes : Type) where
  ended : Pair → Tape Bytes
  final : Pair → Tape Bytes
  newest : Pair → Tape Bytes

/-- A tree that stands still. -/
def View.still (tape : Tape Bytes) : View Bytes :=
  ⟨fun _ => tape, fun _ => tape, fun _ => tape⟩

/-- The newest final, or the day itself where there is none. -/
def newestOr (tape : Tape Bytes) (pair : Pair) (d : Int) : Int :=
  (watermark tape pair).getD d

def isEnded (setPairs : List Pair) (line : Line Digest) (tapes : Pair → Tape Bytes) : Bool :=
  setPairs.all (fun pair => (line.notes.lookup (.closed pair)).isSome) &&
    !setPairs.any fun pair => newestOr (tapes pair) pair line.day > line.day

/-- The close a pair is under on the day after a line. -/
def closeOf (line : Line Digest) (close : Option Close) (pair : Pair) : Option String :=
  match close with
  | some close =>
      if line.day + 1 = close.fromDay ∧ pair ∈ close.pairs then some close.text
      else line.notes.lookup (.closed pair)
  | none => line.notes.lookup (.closed pair)

/-- What a day's planning finds of a pair. -/
inductive Finding (Bytes : Type) where
  | file (data : Bytes)
  | closed (text : String)
  | waiting

def finding (view : View Bytes) (line : Line Digest) (close : Option Close) (pair : Pair) :
    Except RollingError (Pair × Finding Bytes) :=
  match finalOf (view.final pair) pair (line.day + 1) with
  | some final => if final.vouched then .ok (pair, .file final.data) else .error (.unvouched pair (line.day + 1))
  | none =>
      match closeOf line close pair with
      | some text => .ok (pair, .closed text)
      | none => .ok (pair, .waiting)

structure Planned (Bytes Digest : Type) where
  line : Line Digest
  files : List (Path × Bytes)

inductive Verdict (Bytes Digest : Type) where
  | waits (pairs : List Pair)
  | writes (planned : Planned Bytes Digest)

def filesOf (d : Int) (findings : List (Pair × Finding Bytes)) : List (Path × Bytes) :=
  findings.filterMap fun f => match f.2 with
    | .file data => some (.day f.1 d, data)
    | _ => none

def closedOf (findings : List (Pair × Finding Bytes)) : List (Pair × String) :=
  findings.filterMap fun f => match f.2 with
    | .closed text => some (f.1, text)
    | _ => none

def waitingOf (findings : List (Pair × Finding Bytes)) : List Pair :=
  findings.filterMap fun f => match f.2 with
    | .waiting => some f.1
    | _ => none

/-- The day after a line, from what was found of each pair. -/
def entryOf (line : Line Digest) (findings : List (Pair × Finding Bytes)) : Entry Digest :=
  let d := line.day + 1
  { day := d
    prev := some line.sha256
    files := (filesOf d findings).map fun file => (file.1, sha256 (.frame file.2))
    holes := (closedOf findings).map (fun c => (c.1, ownersClose)) ++
      (waitingOf findings).map fun pair => (pair, pastTheWindow)
    notes := (closedOf findings).map fun c => (.closed c.1, c.2) }

def planDay (view : View Bytes) (setPairs : List Pair) (close : Option Close) (line : Line Digest) :
    Except RollingError (Verdict Bytes Digest) := do
  let findings ← setPairs.mapM (finding view line close)
  let d := line.day + 1
  if (waitingOf findings).all fun pair => newestOr (view.newest pair) pair d > d + rescanDays then
    return .writes ⟨Line.of sha256 (entryOf sha256 line findings), filesOf d findings⟩
  else
    return .waits (waitingOf findings)

/-- Why a run writes nothing: it was killed while it planned, or it refused. -/
inductive Halt where
  | killed
  | refused (e : RollingError)
deriving DecidableEq

/-- Each day after a line that the run can write, and whether it stops at an ended line. A view a day: a
    run that has no more of them was killed. -/
def plan (setPairs : List Pair) (close : Option Close) :
    List (View Bytes) → Line Digest → Except Halt (List (Planned Bytes Digest) × Bool)
  | [], _ => .error .killed
  | view :: views, line =>
      if isEnded setPairs line view.ended then .ok ([], true)
      else do
        match ← (planDay sha256 view setPairs close line).mapError .refused with
        | .waits _ => return ([], false)
        | .writes planned =>
            let (rest, ended) ← plan setPairs close views planned.line
            return (planned :: rest, ended)

/-- A planned day's renames, its files before its line. -/
def Planned.placements (planned : Planned Bytes Digest) : List (Path × Content Bytes Digest) :=
  planned.files.map (fun file => (file.1, .frame file.2)) ++
    [(.line planned.line.day, .line planned.line.toEntry)]

/-- The close's pairs are of the set, and none has a final for its first day. -/
def checkClose (setPairs : List Pair) (opening : Pair → Tape Bytes) :
    Option Close → Except RollingError Unit
  | none => .ok ()
  | some close => do
      close.pairs.forM fun pair => require (pair ∈ setPairs) (.closeOutside pair)
      close.pairs.forM fun pair =>
        require (!(finalOf (opening pair) pair close.fromDay).isSome) (.closeHasFinal pair close.fromDay)

/-- A close must begin with a line of this run. -/
def checkWritten (planned : List (Planned Bytes Digest)) : Option Close → Except RollingError Unit
  | none => .ok ()
  | some close => require (close.fromDay ∈ planned.map fun day => day.line.day) (.closeUnwritten close.fromDay)

/-- What an extension renames into the tree, and whether the set is ended. -/
def extend (tree : Tree Bytes Digest) (opening : Pair → Tape Bytes) (views : List (View Bytes))
    (close : Option Close) : Except Halt (List (Planned Bytes Digest) × Bool) := do
  (require (isFile tree (.line baseDay)) .noBaseLine).mapError .refused
  let line ← (head sha256 tree).mapError .refused
  let setPairs ← (pairs sha256 tree).mapError .refused
  (checkClose setPairs opening close).mapError .refused
  let (planned, ended) ← plan sha256 setPairs close views line
  (checkWritten planned close).mapError .refused
  return (planned, ended)

/- Runs. -/

inductive Run (Bytes : Type) where
  | stageBase (source : Source Bytes)
  | extend (opening : Pair → Tape Bytes) (views : List (View Bytes)) (close : Option Close)

/-- The renames a run makes when nothing stops it; none where it refuses. -/
def Run.placements (q3 : Q3 Bytes Digest) (tree : Tree Bytes Digest) :
    Run Bytes → List (Path × Content Bytes Digest)
  | .stageBase source => (Rolling.stageBase sha256 q3 tree source).toOption.getD []
  | .extend opening views close =>
      match Rolling.extend sha256 tree opening views close with
      | .ok (planned, _) => planned.flatMap Planned.placements
      | .error _ => []

variable [DecidableEq Bytes]

/-- The tree a run leaves when it is killed after so many renames. -/
def Run.leaves (q3 : Q3 Bytes Digest) (tree : Tree Bytes Digest) (run : Run Bytes) (kill : Nat) :
    Tree Bytes Digest :=
  WriteOnce.fill tree ((run.placements sha256 q3 tree).take kill)

end

end Rolling
