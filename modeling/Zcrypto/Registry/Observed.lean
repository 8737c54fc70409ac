import Mathlib.Data.List.AList
import Zcrypto.Fallible
import Zcrypto.Keyed
import Zcrypto.Rolling.Reads

/- The capturing reader: every read of a dataset goes through it, file by file or through the dataset's index,
   and its block says of each dataset which files were read, how many rows and from when to when. The files
   are those of one run, in which none changes; instants are in microseconds. -/
namespace Observed
open Rolling (Line RollingRead isoDay)
open Tick (Pair)
open ProbePlans (padded)

abbrev Window := Option (String × String)

/-- What the files say, and how a text gives an instant, an offset or not, and a day. -/
structure Root (Bytes Digest Row : Type) where
  readParquet : String → String → Except String (List Row)
  sha256File : String → String → Except String Digest
  datasetHash : List Row → String
  attestations : String → Except String (List String × List (String × String))
  tree : String → Rolling.Tree Bytes Digest
  sha256 : Rolling.Content Bytes Digest → Digest
  frames : Rolling.Frames Bytes Row
  fromisoformat : String → Option (Option Int)
  strptime : String → Option Int

inductive ReadError where
  | unparsedBound (w : String)
  | naiveBound (w : String)
  | otherWay (dataset : String) (chained : Bool)
  | otherWindow (dataset relpath : String) (window : Window)
  | otherRollingWindow (dataset : String) (pair : Pair) (interval : Nat) (window : Window)
  | unreadable (dataset relpath text : String)
  | attestations (dataset text : String)
  | notNamed (dataset relpath : String)
  | notVouched (dataset relpath : String)
  | zeroRows (dataset relpath : String)
  | zeroRollingRows (dataset : String) (pair : Pair) (interval : Nat) (day : Int)
  | notADate (dataset asOf : String)
  | otherAsOf (dataset : String) (day : Int)
  | rolling (dataset : String) (e : Rolling.RollingError)
  | nothing
  deriving DecidableEq

/-- The vouched hashes of a dataset and those bound to a path are kept together. -/
structure Reader (Digest : Type) where
  files : AList fun _ : String => AList fun _ : String => Digest := ∅
  reads : AList fun _ : String × String => Window := ∅
  rollingReads : AList fun _ : String × Pair × Nat => Window := ∅
  lines : AList fun _ : String => Line Digest := ∅
  holes : AList fun _ : String => List String := ∅
  rows : AList fun _ : String => Nat := ∅
  span : AList fun _ : String => Int × Int := ∅
  attested : AList fun _ : String => List String × List (String × String) := ∅

inductive Call where
  | series (dataset relpath : String) (window : Window)
  | rolling (dataset : String) (pair : Pair) (interval : Nat) (asOf : String) (window : Window) (acceptHoles : Bool)
  deriving DecidableEq

/-- `%Y-%m-%d %H:%M:%S` of an instant, and its offset. -/
def stamp (t : Int) : String :=
  let seconds := t / 1000000
  isoDay (seconds / 86400) ++ " " ++ padded 2 (seconds / 3600 % 24) ++ ":" ++ padded 2 (seconds / 60 % 60) ++ ":" ++
    padded 2 (seconds % 60) ++ "+00:00"

def lineRelpath (day : Int) : String :=
  let (y, m, d) := ProbePlans.civil day
  "index/" ++ padded 4 y ++ "/" ++ padded 2 m ++ "/" ++ padded 2 d ++ ".json"

def holeText (pair : Pair) (day : Int) : String := pair ++ " " ++ isoDay day

section
variable {Bytes Digest Row : Type} [DecidableEq Digest] (root : Root Bytes Digest Row)

def boundOf (w : String) : Except ReadError Int :=
  match root.fromisoformat w with
  | none => .error (.unparsedBound w)
  | some none => .error (.naiveBound w)
  | some (some t) => .ok t

def bounds (window : Window) : Except ReadError (Option (Int × Int)) :=
  match window with
  | none => .ok none
  | some (first, last) => do
    let start ← boundOf root first
    let stop ← boundOf root last
    return some (start, stop)

variable (s : Reader Digest)

def oneWay (dataset : String) (chained : Bool) : Except ReadError Unit :=
  if dataset ∈ s.files ∧ decide (dataset ∈ s.lines) ≠ chained then
    .error (.otherWay dataset (decide (dataset ∈ s.lines)))
  else .ok ()

/-- What vouches for a dataset, read once. -/
def attestations (dataset : String) :
    Reader Digest × Except ReadError (List String × List (String × String)) :=
  match s.attested.lookup dataset with
  | some vouched => (s, .ok vouched)
  | none =>
    match root.attestations dataset with
    | .error text => (s, .error (.attestations dataset text))
    | .ok vouched => ({ s with attested := s.attested.insert dataset vouched }, .ok vouched)

/-- The frame's content is what is named for its path, or, where none is, among what is vouched for. -/
def checkContent (dataset relpath : String) (full : List Row) (vouched : List String × List (String × String)) :
    Except ReadError Unit :=
  match vouched.2.lookup relpath with
  | some expected =>
    if root.datasetHash full ≠ expected then .error (.notNamed dataset relpath) else .ok ()
  | none =>
    if vouched.1 ≠ [] ∧ root.datasetHash full ∉ vouched.1 then .error (.notVouched dataset relpath) else .ok ()

def windowed (dataset relpath : String) (window : Window) (full : List Row) : Except ReadError (List Row) := do
  let frame := Rolling.within root.frames (← bounds root window) full
  if frame.isEmpty then .error (.zeroRows dataset relpath) else .ok frame

def accumulate (dataset : String) (frame : List Row) : Reader Digest :=
  match frame with
  | [] => s
  | row :: rest =>
    let first := root.frames.ts row
    let last := root.frames.ts ((row :: rest).getLast (List.cons_ne_nil _ _))
    let (lo, hi) := (s.span.lookup dataset).getD (first, last)
    { s with
      rows := s.rows.insert dataset ((s.rows.lookup dataset).getD 0 + (row :: rest).length)
      span := s.span.insert dataset (min lo first, max hi last) }

/-- What a first read of a series leaves. -/
def recordSeries (dataset relpath : String) (window : Window) (digest : Digest) (frame : List Row) : Reader Digest :=
  accumulate root { s with
    reads := s.reads.insert (dataset, relpath) window
    files := s.files.insert dataset (((s.files.lookup dataset).getD ∅).insert relpath digest) } dataset frame

def readSeries (dataset relpath : String) (window : Window) : Reader Digest × Except ReadError (List Row) :=
  match oneWay s dataset false with
  | .error e => (s, .error e)
  | .ok () =>
    match s.reads.lookup (dataset, relpath) with
    | some before =>
      if before ≠ window then (s, .error (.otherWindow dataset relpath before))
      else (s, (root.readParquet dataset relpath).mapError (.unreadable dataset relpath) >>=
        windowed root dataset relpath window)
    | none =>
      match root.readParquet dataset relpath, root.sha256File dataset relpath with
      | .error text, _ => (s, .error (.unreadable dataset relpath text))
      | _, .error text => (s, .error (.unreadable dataset relpath text))
      | .ok full, .ok digest =>
        match attestations root s dataset with
        | (s, .error e) => (s, .error e)
        | (s, .ok vouched) =>
          match checkContent root dataset relpath full vouched >>= fun _ => windowed root dataset relpath window full with
          | .error e => (s, .error e)
          | .ok frame => (recordSeries root s dataset relpath window digest frame, .ok frame)

def noteHoles (pair : Pair) (days : List Int) (noted : List String) : List String :=
  days.foldl (fun noted day => if holeText pair day ∈ noted then noted else noted ++ [holeText pair day]) noted

/-- What a first read through an index leaves. -/
def recordRolling (dataset : String) (pair : Pair) (interval : Nat) (window : Window)
    (read : RollingRead Row Digest) : Reader Digest :=
  let s := accumulate root { s with
    rollingReads := s.rollingReads.insert (dataset, pair, interval) window
    lines := s.lines.insert dataset read.line
    files := s.files.insert dataset (AList.singleton (lineRelpath read.line.day) read.line.sha256) } dataset read.frame
  if read.holes = [] then s
  else { s with holes := s.holes.insert dataset (noteHoles pair read.holes ((s.holes.lookup dataset).getD [])) }

/-- The read of a set through its index, as the reader asks for it. -/
def rolled (dataset : String) (pair : Pair) (interval : Nat) (day : Int) (window : Option (Int × Int))
    (acceptHoles : Bool) : Except ReadError (RollingRead Row Digest) := do
  let read ← (Rolling.readRolling root.sha256 root.frames (root.tree dataset) pair interval day window
    acceptHoles).mapError (.rolling dataset)
  if read.frame.isEmpty then .error (.zeroRollingRows dataset pair interval day) else .ok read

/-- What is asked of a read through an index before anything is read. -/
def askedRolling (dataset : String) (pair : Pair) (interval : Nat) (asOf : String) (window : Window) :
    Except ReadError (Int × Option (Int × Int)) := do
  match root.strptime asOf with
  | none => .error (.notADate dataset asOf)
  | some day =>
    let within ← bounds root window
    oneWay s dataset true
    if (s.lines.lookup dataset).any fun line => line.day ≠ day then .error (.otherAsOf dataset day)
    else if (s.rollingReads.lookup (dataset, pair, interval)).any fun before => before ≠ window then
      .error (.otherRollingWindow dataset pair interval window)
    else .ok (day, within)

def readRolling (dataset : String) (pair : Pair) (interval : Nat) (asOf : String) (window : Window)
    (acceptHoles : Bool) : Reader Digest × Except ReadError (List Row) :=
  match askedRolling root s dataset pair interval asOf window with
  | .error e => (s, .error e)
  | .ok (day, within) =>
    match rolled root dataset pair interval day within acceptHoles with
    | .error e => (s, .error e)
    | .ok read =>
      if (dataset, pair, interval) ∈ s.rollingReads then (s, .ok read.frame)
      else (recordRolling root s dataset pair interval window read, .ok read.frame)

def step : Call → Reader Digest × Except ReadError (List Row)
  | .series dataset relpath window => readSeries root s dataset relpath window
  | .rolling dataset pair interval asOf window acceptHoles => readRolling root s dataset pair interval asOf window acceptHoles

structure Block (Digest : Type) where
  files : List (String × Digest)
  rows : Nat
  span : String × String
  deriving DecidableEq

def entryOf (dataset : String) : Block Digest where
  files := Keyed.arrange Prod.fst (((s.files.lookup dataset).getD ∅).entries.map fun file => (file.1, file.2))
  rows := (s.rows.lookup dataset).getD 0
  span :=
    let (lo, hi) := (s.span.lookup dataset).getD (0, 0)
    (stamp lo, stamp hi)

def block : Except ReadError (List (String × Block Digest)) :=
  if s.files.keys = [] then .error .nothing
  else .ok ((Keyed.arrange id s.files.keys).map fun dataset => (dataset, entryOf s dataset))

def holesOf (dataset : String) : List String := (s.holes.lookup dataset).getD []

/-- The calls so far, each with what it gave, and one more. -/
def answer (before : Reader Digest × List (Call × Except ReadError (List Row))) (c : Call) :
    Reader Digest × List (Call × Except ReadError (List Row)) :=
  let (s, given) := step root before.1 c
  (s, before.2 ++ [(c, given)])

def run (calls : List Call) : Reader Digest × List (Call × Except ReadError (List Row)) :=
  calls.foldl (answer root) (s, [])

end

/- What is kept of attestations changes no answer. -/

section
variable {Bytes Digest Row : Type}

def withAttested (s : Reader Digest) (a : AList fun _ : String => List String × List (String × String)) :
    Reader Digest := { s with attested := a }

/-- What is kept is what the files say. -/
def Sound (root : Root Bytes Digest Row) (s : Reader Digest) : Prop :=
  ∀ dataset vouched, s.attested.lookup dataset = some vouched → root.attestations dataset = .ok vouched

/-- What a series gives in a window. -/
def seriesFrame (root : Root Bytes Digest Row) (dataset relpath : String) (window : Window) :
    Except ReadError (List Row) :=
  (root.readParquet dataset relpath).mapError (.unreadable dataset relpath) >>= windowed root dataset relpath window

variable [DecidableEq Digest] {root : Root Bytes Digest Row} {s : Reader Digest}
  {a : AList fun _ : String => List String × List (String × String)} {c : Call} {dataset relpath : String}

omit [DecidableEq Digest] in
theorem attestations_sound (sound : Sound root s) (dataset : String) : ∃ a, Sound root (withAttested s a) ∧
    attestations root s dataset =
      (withAttested s a, (root.attestations dataset).mapError (.attestations dataset)) := by
  unfold attestations
  cases kept : s.attested.lookup dataset with
  | some vouched =>
    refine ⟨s.attested, sound, ?_⟩
    rw [sound dataset vouched kept]
    rfl
  | none =>
    cases said : root.attestations dataset with
    | error text => exact ⟨s.attested, sound, rfl⟩
    | ok vouched =>
      refine ⟨s.attested.insert dataset vouched, fun other v found => ?_, rfl⟩
      by_cases same : other = dataset
      · subst same
        rw [show (withAttested s (s.attested.insert other vouched)).attested = s.attested.insert other vouched from rfl,
          AList.lookup_insert] at found
        rw [said, Option.some.inj found]
      · rw [show (withAttested s (s.attested.insert dataset vouched)).attested = s.attested.insert dataset vouched from rfl,
          AList.lookup_insert_ne same] at found
        exact sound other v found

omit [DecidableEq Digest] in
theorem recordSeries_attested (window : Window) (digest : Digest) (frame : List Row) :
    recordSeries root (withAttested s a) dataset relpath window digest frame =
      withAttested (recordSeries root s dataset relpath window digest frame) a := by
  cases frame <;> rfl

omit [DecidableEq Digest] in
theorem recordRolling_attested (pair : Pair) (interval : Nat) (window : Window) (read : RollingRead Row Digest) :
    recordRolling root (withAttested s a) dataset pair interval window read =
      withAttested (recordRolling root s dataset pair interval window read) a := by
  obtain ⟨frame, holes, line⟩ := read
  cases frame <;> cases holes <;> rfl

omit [DecidableEq Digest] in
/-- A read of a series is refused, leaving what it asked of the attestations; or it is one again; or it is the
    first, and is recorded. -/
theorem readSeries_cases (sound : Sound root s) (dataset relpath : String) (window : Window) :
    (∃ e a, Sound root (withAttested s a) ∧ readSeries root s dataset relpath window = (withAttested s a, .error e)) ∨
    (∃ frame, s.reads.lookup (dataset, relpath) = some window ∧ seriesFrame root dataset relpath window = .ok frame ∧
      readSeries root s dataset relpath window = (s, .ok frame)) ∨
    ∃ frame digest a, Sound root (withAttested s a) ∧ s.reads.lookup (dataset, relpath) = none ∧
      oneWay s dataset false = .ok () ∧ root.sha256File dataset relpath = .ok digest ∧
      seriesFrame root dataset relpath window = .ok frame ∧ readSeries root s dataset relpath window =
        (withAttested (recordSeries root s dataset relpath window digest frame) a, .ok frame) := by
  have refused : ∀ e : ReadError, ∃ e' a, Sound root (withAttested s a) ∧
      ((s, .error e) : Reader Digest × Except ReadError (List Row)) = (withAttested s a, .error e') :=
    fun e => ⟨e, s.attested, sound, rfl⟩
  unfold readSeries
  cases way : oneWay s dataset false with
  | error e => exact .inl (refused e)
  | ok _ =>
    cases before : s.reads.lookup (dataset, relpath) with
    | some w =>
      by_cases same : w = window
      · subst same
        simp only [ne_eq, not_true_eq_false, if_false]
        cases frame : seriesFrame root dataset relpath w with
        | error e => exact .inl ⟨e, s.attested, sound, Prod.ext rfl frame⟩
        | ok rows => exact .inr (.inl ⟨rows, trivial, rfl, Prod.ext rfl frame⟩)
      · simp only [ne_eq, same, not_false_eq_true, if_true]
        exact .inl (refused _)
    | none =>
      cases full : root.readParquet dataset relpath with
      | error text => exact .inl (refused _)
      | ok rows =>
        cases digest : root.sha256File dataset relpath with
        | error text => exact .inl (refused _)
        | ok bytes =>
          obtain ⟨a, sound', attested⟩ := attestations_sound sound dataset
          simp only [attested]
          cases said : root.attestations dataset with
          | error text => exact .inl ⟨_, a, sound', rfl⟩
          | ok vouched =>
            simp only [Except.mapError]
            cases checked : checkContent root dataset relpath rows vouched with
            | error e => exact .inl ⟨e, a, sound', rfl⟩
            | ok _ =>
              cases frame : windowed root dataset relpath window rows with
              | error e => exact .inl ⟨e, a, sound', by simp only [bind, Except.bind]⟩
              | ok kept =>
                refine .inr (.inr ⟨kept, bytes, a, sound', trivial, trivial, rfl, ?_, ?_⟩)
                · unfold seriesFrame
                  rw [full]
                  exact frame
                · rw [← recordSeries_attested]
                  rfl

omit [DecidableEq Digest] in
theorem askedRolling_ok {pair : Pair} {interval : Nat} {asOf : String} {window : Window} {day : Int}
    {within : Option (Int × Int)} :
    askedRolling root s dataset pair interval asOf window = .ok (day, within) ↔
      root.strptime asOf = some day ∧ bounds root window = .ok within ∧ oneWay s dataset true = .ok () ∧
      (∀ line, s.lines.lookup dataset = some line → line.day = day) ∧
      ∀ before, s.rollingReads.lookup (dataset, pair, interval) = some before → before = window := by
  have others : ∀ day' within', ((if (s.lines.lookup dataset).any fun line => line.day ≠ day' then
        .error (.otherAsOf dataset day')
      else if (s.rollingReads.lookup (dataset, pair, interval)).any fun before => before ≠ window then
        .error (.otherRollingWindow dataset pair interval window)
      else .ok (day', within') : Except ReadError (Int × Option (Int × Int))) = .ok (day, within)) ↔
      (day' = day ∧ within' = within) ∧ (∀ line, s.lines.lookup dataset = some line → line.day = day') ∧
      ∀ before, s.rollingReads.lookup (dataset, pair, interval) = some before → before = window := by
    intro day' within'
    cases s.lines.lookup dataset with
    | none =>
      cases s.rollingReads.lookup (dataset, pair, interval) with
      | none => simp
      | some before => by_cases same : before = window <;> simp [same]
    | some line =>
      cases s.rollingReads.lookup (dataset, pair, interval) with
      | none => by_cases own : line.day = day' <;> simp [own]
      | some before => by_cases own : line.day = day' <;> by_cases same : before = window <;> simp [own, same]
  unfold askedRolling
  cases asked : root.strptime asOf with
  | none => simp
  | some day' =>
    simp only [Fallible.bind_ok, others, Option.some.injEq]
    constructor
    · rintro ⟨within', said, _, way, ⟨rfl, rfl⟩, same⟩
      exact ⟨rfl, said, way, same⟩
    · rintro ⟨rfl, said, way, same⟩
      exact ⟨within, said, (), way, ⟨rfl, rfl⟩, same⟩

/-- A read through an index is refused, or is one again, or is the first and is recorded. -/
theorem readRolling_cases (root : Root Bytes Digest Row) (s : Reader Digest) (dataset : String) (pair : Pair)
    (interval : Nat) (asOf : String) (window : Window) (acceptHoles : Bool) :
    (∃ e, readRolling root s dataset pair interval asOf window acceptHoles = (s, .error e)) ∨
    ∃ day within read, askedRolling root s dataset pair interval asOf window = .ok (day, within) ∧
      rolled root dataset pair interval day within acceptHoles = .ok read ∧
      (((dataset, pair, interval) ∈ s.rollingReads ∧
          readRolling root s dataset pair interval asOf window acceptHoles = (s, .ok read.frame)) ∨
        ((dataset, pair, interval) ∉ s.rollingReads ∧
          readRolling root s dataset pair interval asOf window acceptHoles =
            (recordRolling root s dataset pair interval window read, .ok read.frame))) := by
  unfold readRolling
  cases asked : askedRolling root s dataset pair interval asOf window with
  | error e => exact .inl ⟨e, rfl⟩
  | ok both =>
    obtain ⟨day, within⟩ := both
    simp only
    cases given : rolled root dataset pair interval day within acceptHoles with
    | error e => exact .inl ⟨e, rfl⟩
    | ok read =>
      refine .inr ⟨day, within, read, rfl, given, ?_⟩
      by_cases before : (dataset, pair, interval) ∈ s.rollingReads
      · exact .inl ⟨before, if_pos before⟩
      · exact .inr ⟨before, if_neg before⟩

/-- A step answers alike whatever is kept of the attestations, and leaves alike what is not. -/
theorem step_attested (sound : Sound root s) (sound' : Sound root (withAttested s a)) (c : Call) :
    ∃ a', step root (withAttested s a) c = (withAttested (step root s c).1 a', (step root s c).2) := by
  cases c with
  | series dataset relpath window =>
    show ∃ a', readSeries root (withAttested s a) dataset relpath window =
      (withAttested (readSeries root s dataset relpath window).1 a', (readSeries root s dataset relpath window).2)
    have kept : ∀ b, (withAttested s b).reads = s.reads := fun b => rfl
    unfold readSeries
    rw [kept]
    have way : oneWay (withAttested s a) dataset false = oneWay s dataset false := rfl
    rw [way]
    cases oneWay s dataset false with
    | error e => exact ⟨a, rfl⟩
    | ok _ =>
      cases s.reads.lookup (dataset, relpath) with
      | some w =>
        by_cases same : w = window
        · simp only [ne_eq, same, not_true_eq_false, if_false]
          exact ⟨a, rfl⟩
        · simp only [ne_eq, same, not_false_eq_true, if_true]
          exact ⟨a, rfl⟩
      | none =>
        cases root.readParquet dataset relpath with
        | error text => exact ⟨a, rfl⟩
        | ok rows =>
          cases root.sha256File dataset relpath with
          | error text => exact ⟨a, rfl⟩
          | ok bytes =>
            obtain ⟨b, -, attested⟩ := attestations_sound sound dataset
            obtain ⟨b', -, attested'⟩ := attestations_sound sound' dataset
            simp only [attested, attested']
            cases root.attestations dataset with
            | error text => exact ⟨b', rfl⟩
            | ok vouched =>
              simp only [Except.mapError]
              cases checkContent root dataset relpath rows vouched >>= fun _ =>
                  windowed root dataset relpath window rows with
              | error e => exact ⟨b', rfl⟩
              | ok frame =>
                refine ⟨b', Prod.ext ?_ rfl⟩
                simp only [recordSeries_attested]
                rfl
  | rolling dataset pair interval asOf window acceptHoles =>
    refine ⟨a, ?_⟩
    show readRolling root (withAttested s a) dataset pair interval asOf window acceptHoles =
      (withAttested (readRolling root s dataset pair interval asOf window acceptHoles).1 a,
        (readRolling root s dataset pair interval asOf window acceptHoles).2)
    unfold readRolling
    have asked : askedRolling root (withAttested s a) dataset pair interval asOf window =
        askedRolling root s dataset pair interval asOf window := rfl
    have kept : (withAttested s a).rollingReads = s.rollingReads := rfl
    rw [asked]
    cases askedRolling root s dataset pair interval asOf window with
    | error e => rfl
    | ok both =>
      simp only [kept, recordRolling_attested]
      cases rolled root dataset pair interval both.1 both.2 acceptHoles with
      | error e => rfl
      | ok read =>
        simp only
        split <;> rfl

end

end Observed
