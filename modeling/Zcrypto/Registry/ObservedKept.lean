import Mathlib.Algebra.BigOperators.Group.Finset.Basic
import Mathlib.Order.Bounds.Basic
import Zcrypto.Registry.Observed

/- What a capturing reader holds of the calls of a run, and that each call keeps it so: refused, answered as its
   key was before, or recorded as the first of its key. -/
namespace Observed
open Rolling (Line RollingRead)
open Tick (Pair)

inductive Key where
  | series (dataset relpath : String)
  | rolling (dataset : String) (pair : Pair) (interval : Nat)
  deriving DecidableEq

def Call.key : Call → Key
  | .series dataset relpath _ => .series dataset relpath
  | .rolling dataset pair interval _ _ _ => .rolling dataset pair interval

def Call.window : Call → Window
  | .series _ _ window => window
  | .rolling _ _ _ _ window _ => window

def Key.dataset : Key → String
  | .series dataset _ => dataset
  | .rolling dataset _ _ => dataset

def Call.dataset (c : Call) : String := c.key.dataset

section
variable {Bytes Digest Row : Type} [DecidableEq Digest]

abbrev Log (Row : Type) := List (Call × Except ReadError (List Row))

/-- What the files give to a call that is not refused. -/
def readOf (root : Root Bytes Digest Row) : Call → Option (RollingRead Row Digest)
  | .series _ _ _ => none
  | .rolling dataset pair interval asOf window acceptHoles => do
    let day ← root.strptime asOf
    let within ← (bounds root window).toOption
    (rolled root dataset pair interval day within acceptHoles).toOption

def frameOf (root : Root Bytes Digest Row) : Call → Option (List Row)
  | .series dataset relpath window => (seriesFrame root dataset relpath window).toOption
  | c => (readOf root c).map RollingRead.frame

/-- The keys of a dataset that were read. -/
def keysIn (log : Log Row) (dataset : String) : Finset Key :=
  ((log.filter fun e => e.2.toBool ∧ e.1.dataset = dataset).map fun e => e.1.key).toFinset

/-- The instants in what was read of a dataset. -/
def instantsIn (root : Root Bytes Digest Row) (log : Log Row) (dataset : String) : Set Int :=
  { t | ∃ c frame, (c, .ok frame) ∈ log ∧ c.dataset = dataset ∧ ∃ row ∈ frame, root.frames.ts row = t }

/-- The holes of a dataset that were read across. -/
def holesIn (root : Root Bytes Digest Row) (log : Log Row) (dataset : String) : Set String :=
  { text | ∃ c frame, (c, .ok frame) ∈ log ∧ c.dataset = dataset ∧ ∃ pair interval asOf window acceptHoles read,
    c = .rolling dataset pair interval asOf window acceptHoles ∧ readOf root c = some read ∧
      ∃ day ∈ read.holes, text = holeText pair day }

/-- Every frame has its rows by their instants. -/
def Ordered (root : Root Bytes Digest Row) : Prop :=
  ∀ c frame, frameOf root c = some frame → frame.Pairwise fun a b => root.frames.ts a ≤ root.frames.ts b

def windowOf (s : Reader Digest) : Key → Option Window
  | .series dataset relpath => s.reads.lookup (dataset, relpath)
  | .rolling dataset pair interval => s.rollingReads.lookup (dataset, pair, interval)

/-- The rows of a dataset are those of its keys, each once, and its span is from the first of them to the last. -/
structure Tallied (root : Root Bytes Digest Row) (log : Log Row) (s : Reader Digest) : Prop where
  rows : ∀ d height, (∀ c frame, (c, .ok frame) ∈ log → height c.key = frame.length) →
    (s.rows.lookup d).getD 0 = (keysIn log d).sum height
  span : ∀ d, (∃ c frame, (c, .ok frame) ∈ log ∧ c.dataset = d) → ∃ lo hi, s.span.lookup d = some (lo, hi) ∧
    IsLeast (instantsIn root log d) lo ∧ IsGreatest (instantsIn root log d) hi
  unspanned : ∀ d, (¬ ∃ c frame, (c, .ok frame) ∈ log ∧ c.dataset = d) → s.span.lookup d = none

/-- The reader holds of a run what the run read. -/
structure Kept (root : Root Bytes Digest Row) (log : Log Row) (s : Reader Digest) : Prop where
  given : ∀ c frame, (c, .ok frame) ∈ log → frameOf root c = some frame
  window : ∀ c frame, (c, .ok frame) ∈ log → windowOf s c.key = some c.window
  known : ∀ k w, windowOf s k = some w → ∃ c frame, (c, .ok frame) ∈ log ∧ c.key = k
  line : ∀ c frame read, (c, .ok frame) ∈ log → readOf root c = some read → s.lines.lookup c.dataset = some read.line
  series : ∀ dataset relpath w frame, (.series dataset relpath w, .ok frame) ∈ log → dataset ∉ s.lines
  datasets : ∀ d, d ∈ s.files ↔ ∃ c frame, (c, .ok frame) ∈ log ∧ c.dataset = d
  chained : ∀ d line, s.lines.lookup d = some line →
    s.files.lookup d = some (AList.singleton (lineRelpath line.day) line.sha256)
  hashed : ∀ d files, d ∉ s.lines → s.files.lookup d = some files → ∀ relpath digest,
    files.lookup relpath = some digest ↔ (d, relpath) ∈ s.reads ∧ root.sha256File d relpath = .ok digest
  unread : ∀ d relpath, d ∉ s.files → (d, relpath) ∉ s.reads
  lined : ∀ d line, s.lines.lookup d = some line → ∃ c frame read, (c, .ok frame) ∈ log ∧ c.dataset = d ∧
    readOf root c = some read ∧ read.line = line
  holes : ∀ d, (holesOf s d).Nodup ∧ ∀ text, text ∈ holesOf s d ↔ text ∈ holesIn root log d
  tallied : Tallied root log s

variable {root : Root Bytes Digest Row} {s : Reader Digest} {log : Log Row} {c c' : Call} {frame frame' : List Row}
  {a : AList fun _ : String => List String × List (String × String)} {d : String} {k : Key}

omit [DecidableEq Digest] in
theorem mem_keysIn : k ∈ keysIn log d ↔ ∃ c frame, (c, .ok frame) ∈ log ∧ c.dataset = d ∧ c.key = k := by
  unfold keysIn
  rw [List.mem_toFinset, List.mem_map]
  constructor
  · rintro ⟨⟨c, given⟩, mem, rfl⟩
    simp only [List.mem_filter, decide_eq_true_eq] at mem
    obtain ⟨there, done, own⟩ := mem
    obtain ⟨frame, same⟩ := Fallible.ok_of_toBool done
    subst same
    exact ⟨c, frame, there, own, rfl⟩
  · rintro ⟨c, frame, there, own, rfl⟩
    refine ⟨(c, .ok frame), ?_, rfl⟩
    simp only [List.mem_filter, decide_eq_true_eq]
    exact ⟨there, rfl, own⟩

theorem readOf_rolling {dataset : String} {pair : Pair} {interval : Nat} {asOf : String} {window : Window}
    {acceptHoles : Bool} {read : RollingRead Row Digest} :
    readOf root (.rolling dataset pair interval asOf window acceptHoles) = some read ↔
      ∃ day within, root.strptime asOf = some day ∧ bounds root window = .ok within ∧
        rolled root dataset pair interval day within acceptHoles = .ok read := by
  have some_ok : ∀ {α : Type} {x : Except ReadError α} {y : α}, x.toOption = some y ↔ x = .ok y := by
    intro α x y
    cases x <;> simp [Except.toOption]
  unfold readOf
  simp only [Option.bind_eq_bind, Option.bind_eq_some_iff, some_ok]
  constructor
  · rintro ⟨day, asked, within, said, given⟩
    exact ⟨day, within, asked, said, given⟩
  · rintro ⟨day, within, asked, said, given⟩
    exact ⟨day, asked, within, said, given⟩

theorem rolled_ok {dataset : String} {pair : Pair} {interval : Nat} {day : Int} {within : Option (Int × Int)}
    {acceptHoles : Bool} {read : RollingRead Row Digest}
    (h : rolled root dataset pair interval day within acceptHoles = .ok read) :
    Rolling.readRolling root.sha256 root.frames (root.tree dataset) pair interval day within acceptHoles = .ok read ∧
      read.frame ≠ [] := by
  obtain ⟨other, given, h⟩ := Fallible.bind_ok.mp h
  split at h
  · cases h
  · rename_i some_
    injection h with h
    subst h
    exact ⟨Fallible.mapError_ok.mp given, fun none => some_ (by rw [none]; rfl)⟩

omit [DecidableEq Digest] in
theorem windowed_some {dataset relpath : String} {window : Window} {full : List Row}
    (h : windowed root dataset relpath window full = .ok frame) : frame ≠ [] := by
  obtain ⟨within, -, h⟩ := Fallible.bind_ok.mp h
  simp only at h
  split at h
  · cases h
  · rename_i some_
    injection h with h
    subst h
    exact fun none => some_ (by rw [none]; rfl)

theorem frameOf_some (given : frameOf root c = some frame) : frame ≠ [] := by
  cases c with
  | series dataset relpath window =>
    cases said : seriesFrame root dataset relpath window with
    | error e =>
      rw [frameOf, said] at given
      cases given
    | ok rows =>
      rw [frameOf, said] at given
      obtain rfl := Option.some.inj given
      obtain ⟨full, -, kept⟩ := Fallible.bind_ok.mp said
      exact windowed_some kept
  | rolling dataset pair interval asOf window acceptHoles =>
    obtain ⟨read, said, rfl⟩ := Option.map_eq_some_iff.mp given
    obtain ⟨day, within, -, -, given⟩ := readOf_rolling.mp said
    exact (rolled_ok given).2

/-- What two calls of one key read is the same, as of one line. -/
theorem read_same {read read' : RollingRead Row Digest} (key : c.key = c'.key) (window : c.window = c'.window) (here : readOf root c = some read)
    (there : readOf root c' = some read') (line_here : s.lines.lookup c.dataset = some read.line)
    (line_there : s.lines.lookup c'.dataset = some read'.line) : read = read' := by
  cases c with
  | series dataset relpath w => cases here
  | rolling dataset pair interval asOf w acceptHoles =>
    cases c' with
    | series dataset relpath w => cases there
    | rolling dataset' pair' interval' asOf' w' acceptHoles' =>
      injection key with same_d same_p same_i
      subst same_d same_p same_i
      have same_w : w = w' := window
      subst same_w
      obtain ⟨day, within, -, said, given⟩ := readOf_rolling.mp here
      obtain ⟨day', within', -, said', given'⟩ := readOf_rolling.mp there
      obtain rfl := Except.ok.inj (said.symm.trans said')
      have lines : read.line = read'.line := Option.some.inj (line_here.symm.trans line_there)
      have days : day = day' := by
        rw [← Rolling.readRolling_day (rolled_ok given).1, ← Rolling.readRolling_day (rolled_ok given').1, lines]
      subst days
      exact Rolling.readRolling_accept (rolled_ok given).1 (rolled_ok given').1

/-- Calls of one key in one window give one frame and read one thing, where both are as of the line that is kept. -/
theorem answers_same (key : c.key = c'.key) (window : c.window = c'.window) (given : frameOf root c = some frame)
    (given' : frameOf root c' = some frame')
    (line : ∀ read, readOf root c = some read → s.lines.lookup c.dataset = some read.line)
    (line' : ∀ read, readOf root c' = some read → s.lines.lookup c'.dataset = some read.line) :
    frame = frame' ∧ readOf root c = readOf root c' := by
  cases c with
  | series dataset relpath w =>
    cases c' with
    | rolling dataset' pair interval asOf w' acceptHoles => cases key
    | series dataset' relpath' w' =>
      injection key with same_d same_r
      have same_w : w = w' := window
      subst same_d same_r same_w
      exact ⟨Option.some.inj (given.symm.trans given'), rfl⟩
  | rolling dataset pair interval asOf w acceptHoles =>
    cases c' with
    | series dataset' relpath' w' => cases key
    | rolling dataset' pair' interval' asOf' w' acceptHoles' =>
      obtain ⟨read, said, rfl⟩ := Option.map_eq_some_iff.mp given
      obtain ⟨read', said', rfl⟩ := Option.map_eq_some_iff.mp given'
      have one := read_same key window said said' (line read said) (line' read' said')
      exact ⟨congrArg RollingRead.frame one, by rw [said, said', one]⟩

theorem Kept.same (kept : Kept root log s) (here : (c, .ok frame) ∈ log) (there : (c', .ok frame') ∈ log)
    (key : c.key = c'.key) : frame = frame' := by
  have window : c.window = c'.window := by
    have both := kept.window c frame here
    rw [key, kept.window c' frame' there] at both
    exact (Option.some.inj both).symm
  exact (answers_same key window (kept.given c frame here) (kept.given c' frame' there)
    (fun read said => kept.line c frame read here said) fun read said => kept.line c' frame' read there said).1

/- A step. -/

section
variable {log' : Log Row} {e : ReadError}

omit [DecidableEq Digest] in
theorem keysIn_congr (same : ∀ c frame, (c, .ok frame) ∈ log ↔ (c, .ok frame) ∈ log') (d : String) :
    keysIn log d = keysIn log' d := by
  ext k
  simp only [mem_keysIn, same]

theorem Kept.congr (kept : Kept root log s) (same : ∀ c frame, (c, .ok frame) ∈ log ↔ (c, .ok frame) ∈ log') :
    Kept root log' s := by
  have instants : ∀ d, instantsIn root log d = instantsIn root log' d := by
    intro d
    unfold instantsIn
    simp only [same]
  have holes : ∀ d, holesIn root log d = holesIn root log' d := by
    intro d
    unfold holesIn
    simp only [same]
  obtain ⟨given, window, known, line, series, datasets, chained, hashed, unread, lined, held, rows, span, unspanned⟩ := kept
  simp only [same, instants, holes, keysIn_congr same] at *
  exact ⟨given, window, known, line, series, datasets, chained, hashed, unread, lined, held, rows, span, unspanned⟩

omit [DecidableEq Digest] in
theorem mem_refused : (c, .ok frame) ∈ log ↔ (c, .ok frame) ∈ log ++ [(c', .error e)] := by
  simp

omit [DecidableEq Digest] in
theorem mem_answered {g : List Row} : (c, .ok g) ∈ log ++ [(c', .ok frame)] ↔ (c, .ok g) ∈ log ∨ c = c' ∧ g = frame := by
  simp

theorem Kept.attested (kept : Kept root log s) : Kept root log (withAttested s a) :=
  ⟨kept.given, kept.window, kept.known, kept.line, kept.series, kept.datasets, kept.chained, kept.hashed, kept.unread,
    kept.lined, kept.holes, kept.tallied.rows, kept.tallied.span, kept.tallied.unspanned⟩

/-- A call whose key was read before gives what it gave, and leaves what was kept. -/
theorem Kept.again (kept : Kept root log s) (given : frameOf root c = some frame)
    (window : windowOf s c.key = some c.window)
    (line : ∀ read, readOf root c = some read → s.lines.lookup c.dataset = some read.line) :
    Kept root (log ++ [(c, .ok frame)]) s := by
  obtain ⟨c₀, frame₀, before, key⟩ := kept.known c.key c.window window
  have window₀ : c.window = c₀.window := by
    have both := kept.window c₀ frame₀ before
    rw [key, window] at both
    exact Option.some.inj both
  have dataset : c₀.dataset = c.dataset := congrArg Key.dataset key
  obtain ⟨same, reads⟩ := answers_same key.symm window₀ given (kept.given c₀ frame₀ before) line
    fun read said => kept.line c₀ frame₀ read before said
  subst same
  have keys : ∀ d, keysIn (log ++ [(c, .ok frame)]) d = keysIn log d := by
    intro d
    ext k
    simp only [mem_keysIn, mem_answered]
    constructor
    · rintro ⟨x, g, mem | ⟨rfl, rfl⟩, own, rfl⟩
      · exact ⟨x, g, mem, own, rfl⟩
      · exact ⟨c₀, g, before, dataset.trans own, key⟩
    · rintro ⟨x, g, mem, own, rfl⟩
      exact ⟨x, g, .inl mem, own, rfl⟩
  have anyOf : ∀ d, (∃ x g, (x, .ok g) ∈ log ++ [(c, .ok frame)] ∧ x.dataset = d) ↔
      ∃ x g, (x, .ok g) ∈ log ∧ x.dataset = d := by
    intro d
    simp only [mem_answered]
    constructor
    · rintro ⟨x, g, mem | ⟨rfl, rfl⟩, own⟩
      · exact ⟨x, g, mem, own⟩
      · exact ⟨c₀, g, before, dataset.trans own⟩
    · rintro ⟨x, g, mem, own⟩
      exact ⟨x, g, .inl mem, own⟩
  have instants : ∀ d, instantsIn root (log ++ [(c, .ok frame)]) d = instantsIn root log d := by
    intro d
    ext t
    simp only [instantsIn, Set.mem_ofPred_eq, mem_answered]
    constructor
    · rintro ⟨x, g, mem | ⟨rfl, rfl⟩, own, row⟩
      · exact ⟨x, g, mem, own, row⟩
      · exact ⟨c₀, g, before, dataset.trans own, row⟩
    · rintro ⟨x, g, mem, own, row⟩
      exact ⟨x, g, .inl mem, own, row⟩
  have holes : ∀ d, holesIn root (log ++ [(c, .ok frame)]) d = holesIn root log d := by
    intro d
    ext text
    simp only [holesIn, Set.mem_ofPred_eq, mem_answered]
    constructor
    · rintro ⟨x, g, mem | ⟨rfl, rfl⟩, own, pair, interval, asOf, w, acceptHoles, read, rfl, said, day⟩
      · exact ⟨_, g, mem, own, pair, interval, asOf, w, acceptHoles, read, rfl, said, day⟩
      · cases c₀ with
        | series _ _ _ => cases key
        | rolling d₀ pair₀ interval₀ asOf₀ w₀ acceptHoles₀ =>
          injection key with same_d same_p same_i
          subst same_d same_p same_i
          exact ⟨_, g, before, own, pair₀, interval₀, asOf₀, w₀, acceptHoles₀, read, by rw [← own], reads ▸ said, day⟩
    · rintro ⟨x, g, mem, own, more⟩
      exact ⟨x, g, .inl mem, own, more⟩
  refine ⟨?_, ?_, ?_, ?_, ?_, ?_, kept.chained, kept.hashed, kept.unread, ?_, ?_, ?_, ?_, ?_⟩
  · intro x g mem
    rcases mem_answered.mp mem with mem | ⟨rfl, rfl⟩
    · exact kept.given x g mem
    · exact given
  · intro x g mem
    rcases mem_answered.mp mem with mem | ⟨rfl, rfl⟩
    · exact kept.window x g mem
    · exact window
  · intro k w found
    obtain ⟨x, g, mem, own⟩ := kept.known k w found
    exact ⟨x, g, mem_answered.mpr (.inl mem), own⟩
  · intro x g read mem said
    rcases mem_answered.mp mem with mem | ⟨rfl, rfl⟩
    · exact kept.line x g read mem said
    · exact line read said
  · intro dataset' relpath w g mem
    rcases mem_answered.mp mem with mem | ⟨rfl, rfl⟩
    · exact kept.series dataset' relpath w g mem
    · cases c₀ with
      | rolling _ _ _ _ _ _ => cases key
      | series d₀ r₀ w₀ =>
        injection key with same_d _
        rw [← same_d]
        exact kept.series d₀ r₀ w₀ g before
  · intro d
    rw [anyOf]
    exact kept.datasets d
  · intro d line found
    obtain ⟨x, g, read, mem, more⟩ := kept.lined d line found
    exact ⟨x, g, read, mem_answered.mpr (.inl mem), more⟩
  · intro d
    rw [holes]
    exact kept.holes d
  · intro d height heights
    rw [keys]
    exact kept.tallied.rows d height fun x g mem => heights x g (mem_answered.mpr (.inl mem))
  · intro d some_
    rw [instants]
    exact kept.tallied.span d ((anyOf d).mp some_)
  · intro d none
    exact kept.tallied.unspanned d fun some_ => none ((anyOf d).mpr some_)

/- First reads. -/

omit [DecidableEq Digest] in
theorem accumulate_keeps (root : Root Bytes Digest Row) (s : Reader Digest) (d : String) (frame : List Row) :
    (accumulate root s d frame).files = s.files ∧ (accumulate root s d frame).reads = s.reads ∧
      (accumulate root s d frame).rollingReads = s.rollingReads ∧ (accumulate root s d frame).lines = s.lines ∧
      (accumulate root s d frame).holes = s.holes := by
  cases frame with
  | nil => exact ⟨rfl, rfl, rfl, rfl, rfl⟩
  | cons row rest => exact ⟨rfl, rfl, rfl, rfl, rfl⟩

omit [DecidableEq Digest] in
theorem keysIn_answered (d : String) : keysIn (log ++ [(c, .ok frame)]) d =
    if c.dataset = d then insert c.key (keysIn log d) else keysIn log d := by
  ext k
  split
  · rename_i own
    rw [Finset.mem_insert, mem_keysIn, mem_keysIn]
    simp only [mem_answered]
    constructor
    · rintro ⟨x, g, mem | ⟨rfl, rfl⟩, there, rfl⟩
      · exact .inr ⟨x, g, mem, there, rfl⟩
      · exact .inl rfl
    · rintro (rfl | ⟨x, g, mem, there, rfl⟩)
      · exact ⟨c, frame, .inr ⟨rfl, rfl⟩, own, rfl⟩
      · exact ⟨x, g, .inl mem, there, rfl⟩
  · rename_i other
    rw [mem_keysIn, mem_keysIn]
    simp only [mem_answered]
    constructor
    · rintro ⟨x, g, mem | ⟨rfl, rfl⟩, there, rfl⟩
      · exact ⟨x, g, mem, there, rfl⟩
      · exact absurd there other
    · rintro ⟨x, g, mem, there, rfl⟩
      exact ⟨x, g, .inl mem, there, rfl⟩

omit [DecidableEq Digest] in
theorem instantsIn_answered (d : String) : instantsIn root (log ++ [(c, .ok frame)]) d =
    instantsIn root log d ∪ { t | c.dataset = d ∧ ∃ row ∈ frame, root.frames.ts row = t } := by
  ext t
  simp only [instantsIn, Set.mem_union, Set.mem_ofPred_eq, mem_answered]
  constructor
  · rintro ⟨x, g, mem | ⟨rfl, rfl⟩, own, row⟩
    · exact .inl ⟨x, g, mem, own, row⟩
    · exact .inr ⟨own, row⟩
  · rintro (⟨x, g, mem, own, row⟩ | ⟨own, row⟩)
    · exact ⟨x, g, .inl mem, own, row⟩
    · exact ⟨c, frame, .inr ⟨rfl, rfl⟩, own, row⟩

/-- The first and the last of rows by their instants. -/
theorem ends_of_ordered {ts : Row → Int} {row : Row} {rest : List Row}
    (ordered : (row :: rest).Pairwise fun a b => ts a ≤ ts b) :
    IsLeast { t | ∃ r ∈ row :: rest, ts r = t } (ts row) ∧
      IsGreatest { t | ∃ r ∈ row :: rest, ts r = t } (ts ((row :: rest).getLast (List.cons_ne_nil _ _))) := by
  refine ⟨⟨⟨row, List.mem_cons_self, rfl⟩, ?_⟩, ⟨⟨_, List.getLast_mem _, rfl⟩, ?_⟩⟩
  · rintro t ⟨r, mem, rfl⟩
    rcases List.mem_cons.mp mem with rfl | later
    · exact le_rfl
    · exact (List.pairwise_cons.mp ordered).1 r later
  · rintro t ⟨r, mem, rfl⟩
    rw [← List.dropLast_append_getLast (List.cons_ne_nil row rest)] at mem ordered
    rcases List.mem_append.mp mem with before | last
    · exact (List.pairwise_append.mp ordered).2.2 r before _ (by simp)
    · rw [List.mem_singleton.mp last]

omit [DecidableEq Digest] in
/-- A key read for the first time adds its rows, and the span grows to hold them. -/
theorem Tallied.first {s' t : Reader Digest} (tallied : Tallied root log s) (new : c.key ∉ keysIn log c.dataset)
    (some_ : frame ≠ []) (ordered : frame.Pairwise fun a b => root.frames.ts a ≤ root.frames.ts b)
    (same_rows : t.rows = s.rows) (same_span : t.span = s.span)
    (rows : s'.rows = (accumulate root t c.dataset frame).rows)
    (span : s'.span = (accumulate root t c.dataset frame).span) :
    Tallied root (log ++ [(c, .ok frame)]) s' := by
  cases frame with
  | nil => exact absurd rfl some_
  | cons row rest =>
    obtain ⟨least, most⟩ := ends_of_ordered ordered
    simp only [accumulate, same_rows, same_span] at rows span
    refine ⟨fun d height heights => ?_, fun d there => ?_, fun d none => ?_⟩
    · have before := tallied.rows d height fun x g mem => heights x g (mem_answered.mpr (.inl mem))
      rw [keysIn_answered, rows]
      by_cases own : c.dataset = d
      · subst own
        have count := heights c (row :: rest) (mem_answered.mpr (.inr ⟨rfl, rfl⟩))
        rw [if_pos rfl, AList.lookup_insert, Finset.sum_insert new, count, ← before, Nat.add_comm]
        rfl
      · rw [if_neg own, AList.lookup_insert_ne (Ne.symm own)]
        exact before
    · rw [instantsIn_answered, span]
      by_cases own : c.dataset = d
      · subst own
        simp only [true_and]
        rw [AList.lookup_insert]
        by_cases before : ∃ x g, (x, .ok g) ∈ log ∧ x.dataset = c.dataset
        · obtain ⟨lo, hi, kept, low, high⟩ := tallied.span c.dataset before
          rw [kept]
          exact ⟨_, _, rfl, low.union least, high.union most⟩
        · have nothing : instantsIn root log c.dataset = ∅ := by
            rw [Set.eq_empty_iff_forall_notMem]
            rintro t ⟨x, g, mem, own, -⟩
            exact before ⟨x, g, mem, own⟩
          rw [tallied.unspanned _ before, nothing, Set.empty_union]
          refine ⟨_, _, rfl, ?_, ?_⟩
          · rw [Option.getD_none, min_self]
            exact least
          · rw [Option.getD_none, max_self]
            exact most
      · have nothing : { t | c.dataset = d ∧ ∃ r ∈ row :: rest, root.frames.ts r = t } = ∅ := by
          rw [Set.eq_empty_iff_forall_notMem]
          exact fun t mem => own mem.1
        rw [AList.lookup_insert_ne (Ne.symm own), nothing, Set.union_empty]
        obtain ⟨x, g, mem, there⟩ := there
        rcases mem_answered.mp mem with mem | ⟨rfl, rfl⟩
        · exact tallied.span d ⟨x, g, mem, there⟩
        · exact absurd there own
    · have other : c.dataset ≠ d := fun own => none ⟨c, _, mem_answered.mpr (.inr ⟨rfl, rfl⟩), own⟩
      rw [span, AList.lookup_insert_ne (Ne.symm other)]
      exact tallied.unspanned d fun ⟨x, g, mem, own⟩ => none ⟨x, g, mem_answered.mpr (.inl mem), own⟩

/-- A key without a window has not been read. -/
theorem Kept.new_key (kept : Kept root log s) (new : windowOf s c.key = none) (d : String) : c.key ∉ keysIn log d := by
  intro mem
  obtain ⟨x, g, there, -, key⟩ := mem_keysIn.mp mem
  have window := kept.window x g there
  rw [key, new] at window
  cases window

theorem Kept.other_key (kept : Kept root log s) (new : windowOf s c.key = none) {x : Call} {g : List Row}
    (mem : (x, .ok g) ∈ log) : x.key ≠ c.key := by
  intro key
  have window := kept.window x g mem
  rw [key, new] at window
  cases window

/-- A dataset read file by file has no line. -/
theorem Kept.unchained (kept : Kept root log s) (way : oneWay s d false = .ok ()) : d ∉ s.lines := by
  intro there
  obtain ⟨line, found⟩ := Option.isSome_iff_exists.mp (AList.lookup_isSome.mpr there)
  have files : d ∈ s.files := AList.lookup_isSome.mp (by rw [kept.chained d line found]; rfl)
  unfold oneWay at way
  rw [if_pos ⟨files, by simp [there]⟩] at way
  cases way

omit [DecidableEq Digest] in
theorem oneWay_chained (way : oneWay s d true = .ok ()) (files : d ∈ s.files) : d ∈ s.lines := by
  unfold oneWay at way
  by_contra none
  rw [if_pos ⟨files, by simp [none]⟩] at way
  cases way

theorem Kept.first_series {relpath : String} {w : Window} {digest : Digest} (ordered : Ordered root)
    (kept : Kept root log s) (new : s.reads.lookup (d, relpath) = none) (way : oneWay s d false = .ok ())
    (hash : root.sha256File d relpath = .ok digest) (said : seriesFrame root d relpath w = .ok frame) :
    Kept root (log ++ [(.series d relpath w, .ok frame)]) (recordSeries root s d relpath w digest frame) := by
  have given : frameOf root (.series d relpath w) = some frame := by
    rw [frameOf, said]
    rfl
  have unchained := kept.unchained way
  have unread : windowOf s (Call.series d relpath w).key = none := new
  obtain ⟨files, reads, rollingReads, lines, holes⟩ := accumulate_keeps root { s with
    reads := s.reads.insert (d, relpath) w
    files := s.files.insert d (((s.files.lookup d).getD ∅).insert relpath digest) } d frame
  have windows : ∀ k, windowOf (recordSeries root s d relpath w digest frame) k =
      if k = .series d relpath then some w else windowOf s k := by
    intro k
    unfold recordSeries
    cases k with
    | series d' relpath' =>
      simp only [windowOf, reads, Key.series.injEq]
      split
      · rename_i same
        rw [same.1, same.2, AList.lookup_insert]
      · rename_i other
        exact AList.lookup_insert_ne fun same => other (Prod.mk.inj same)
    | rolling d' pair interval =>
      simp only [windowOf, rollingReads, reduceCtorEq, if_false]
  refine ⟨?_, ?_, ?_, ?_, ?_, ?_, ?_, ?_, ?_, ?_, ?_, ?_⟩
  · intro x g mem
    rcases mem_answered.mp mem with mem | ⟨rfl, rfl⟩
    · exact kept.given x g mem
    · exact given
  · intro x g mem
    rw [windows]
    rcases mem_answered.mp mem with mem | ⟨rfl, rfl⟩
    · have other : x.key ≠ .series d relpath := kept.other_key unread mem
      rw [if_neg other]
      exact kept.window x g mem
    · exact if_pos rfl
  · intro k w' found
    rw [windows] at found
    split at found
    · rename_i same
      exact ⟨_, frame, mem_answered.mpr (.inr ⟨rfl, rfl⟩), same.symm⟩
    · obtain ⟨x, g, mem, key⟩ := kept.known k w' found
      exact ⟨x, g, mem_answered.mpr (.inl mem), key⟩
  · intro x g read mem reads_
    rcases mem_answered.mp mem with mem | ⟨rfl, rfl⟩
    · exact (congrArg (AList.lookup x.dataset) lines).trans (kept.line x g read mem reads_)
    · cases reads_
  · intro d' relpath' w' g mem
    have others : (recordSeries root s d relpath w digest frame).lines = s.lines := lines
    rw [others]
    rcases mem_answered.mp mem with mem | ⟨same, rfl⟩
    · exact kept.series d' relpath' w' g mem
    · injection same with same_d _ _
      rw [same_d]
      exact unchained
  · intro d'
    have grown : (recordSeries root s d relpath w digest frame).files = _ := files
    rw [grown, AList.mem_insert]
    simp only [mem_answered]
    constructor
    · rintro (rfl | there)
      · exact ⟨.series d' relpath w, frame, .inr ⟨rfl, rfl⟩, rfl⟩
      · obtain ⟨x, g, mem, own⟩ := (kept.datasets d').mp there
        exact ⟨x, g, .inl mem, own⟩
    · rintro ⟨x, g, mem | ⟨rfl, rfl⟩, own⟩
      · exact .inr ((kept.datasets d').mpr ⟨x, g, mem, own⟩)
      · exact .inl own.symm
  · intro d' line found
    have others : (recordSeries root s d relpath w digest frame).lines = s.lines := lines
    have grown : (recordSeries root s d relpath w digest frame).files = _ := files
    rw [others] at found
    have other : d' ≠ d := by
      rintro rfl
      exact unchained (AList.lookup_isSome.mp (by rw [found]; rfl))
    rw [grown, AList.lookup_insert_ne other]
    exact kept.chained d' line found
  · intro d' listed unchained' found relpath' digest'
    have others : (recordSeries root s d relpath w digest frame).lines = s.lines := lines
    have grown : (recordSeries root s d relpath w digest frame).files = _ := files
    have grown_reads : (recordSeries root s d relpath w digest frame).reads = _ := reads
    rw [others] at unchained'
    rw [grown] at found
    rw [grown_reads, AList.mem_insert]
    by_cases own : d' = d
    · subst own
      rw [AList.lookup_insert] at found
      obtain rfl := Option.some.inj found
      by_cases same : relpath' = relpath
      · subst same
        rw [AList.lookup_insert, hash]
        simp
      · have apart : (d', relpath') ≠ (d', relpath) := fun alike => same (Prod.mk.inj alike).2
        rw [AList.lookup_insert_ne same, or_iff_right apart]
        cases before : s.files.lookup d' with
        | none =>
          have hidden := kept.unread d' relpath' (AList.lookup_eq_none.mp before)
          rw [Option.getD_none, AList.lookup_empty]
          exact iff_of_false (Option.some_ne_none _).symm fun both => hidden both.1
        | some listed =>
          rw [Option.getD_some]
          exact kept.hashed d' listed unchained' before relpath' digest'
    · have apart : (d', relpath') ≠ (d, relpath) := fun alike => own (Prod.mk.inj alike).1
      rw [AList.lookup_insert_ne own] at found
      rw [or_iff_right apart]
      exact kept.hashed d' listed unchained' found relpath' digest'
  · intro d' relpath' absent there
    have grown : (recordSeries root s d relpath w digest frame).files = _ := files
    have grown_reads : (recordSeries root s d relpath w digest frame).reads = _ := reads
    rw [grown, AList.mem_insert, not_or] at absent
    rw [grown_reads, AList.mem_insert] at there
    rcases there with same | there
    · exact absent.1 (Prod.mk.inj same).1
    · exact kept.unread d' relpath' absent.2 there
  · intro d' line found
    have others : (recordSeries root s d relpath w digest frame).lines = s.lines := lines
    rw [others] at found
    obtain ⟨x, g, read, mem, more⟩ := kept.lined d' line found
    exact ⟨x, g, read, mem_answered.mpr (.inl mem), more⟩
  · intro d'
    have same_holes : (recordSeries root s d relpath w digest frame).holes = s.holes := holes
    have others : holesOf (recordSeries root s d relpath w digest frame) d' = holesOf s d' := by
      unfold holesOf
      rw [same_holes]
    have unholed : holesIn root (log ++ [(.series d relpath w, .ok frame)]) d' = holesIn root log d' := by
      ext text
      simp only [holesIn, Set.mem_ofPred_eq, mem_answered]
      constructor
      · rintro ⟨x, g, mem | ⟨rfl, rfl⟩, own, pair, interval, asOf, w', acceptHoles, read, is_rolling, more⟩
        · exact ⟨x, g, mem, own, pair, interval, asOf, w', acceptHoles, read, is_rolling, more⟩
        · cases is_rolling
      · rintro ⟨x, g, mem, more⟩
        exact ⟨x, g, .inl mem, more⟩
    rw [others, unholed]
    exact kept.holes d'
  · exact kept.tallied.first (t := { s with
        reads := s.reads.insert (d, relpath) w
        files := s.files.insert d (((s.files.lookup d).getD ∅).insert relpath digest) })
      (kept.new_key unread _) (frameOf_some given) (ordered _ _ given) rfl rfl rfl rfl

theorem noteHoles_notes (pair : Pair) (days : List Int) {noted : List String} (once : noted.Nodup) :
    (noteHoles pair days noted).Nodup ∧
      ∀ text, text ∈ noteHoles pair days noted ↔ text ∈ noted ∨ ∃ day ∈ days, text = holeText pair day := by
  unfold noteHoles
  induction days generalizing noted with
  | nil => simp [once]
  | cons day rest ih =>
    rw [List.foldl_cons]
    split
    · rename_i there
      obtain ⟨nodup, among⟩ := ih once
      refine ⟨nodup, fun text => ?_⟩
      rw [among, List.exists_mem_cons_iff]
      constructor
      · rintro (old | later)
        · exact .inl old
        · exact .inr (.inr later)
      · rintro (old | rfl | later)
        · exact .inl old
        · exact .inl there
        · exact .inr later
    · rename_i new
      have longer : (noted ++ [holeText pair day]).Nodup :=
        List.nodup_append.mpr ⟨once, List.nodup_singleton _, fun x old y last => by
          rw [List.mem_singleton.mp last]
          exact fun same => new (same ▸ old)⟩
      obtain ⟨nodup, among⟩ := ih longer
      refine ⟨nodup, fun text => ?_⟩
      rw [among, List.exists_mem_cons_iff, List.mem_append, List.mem_singleton, or_assoc]

omit [DecidableEq Digest] in
theorem recordRolling_keeps (root : Root Bytes Digest Row) (s : Reader Digest) (d : String) (pair : Pair) (interval : Nat) (w : Window)
    (read : RollingRead Row Digest) :
    (recordRolling root s d pair interval w read).reads = s.reads ∧
      (recordRolling root s d pair interval w read).rollingReads = s.rollingReads.insert (d, pair, interval) w ∧
      (recordRolling root s d pair interval w read).lines = s.lines.insert d read.line ∧
      (recordRolling root s d pair interval w read).files =
        s.files.insert d (AList.singleton (lineRelpath read.line.day) read.line.sha256) ∧
      (recordRolling root s d pair interval w read).rows = (accumulate root s d read.frame).rows ∧
      (recordRolling root s d pair interval w read).span = (accumulate root s d read.frame).span ∧
      ∀ d', holesOf (recordRolling root s d pair interval w read) d' =
        if d' = d then noteHoles pair read.holes (holesOf s d) else holesOf s d' := by
  have noted : ∀ d', holesOf (recordRolling root s d pair interval w read) d' =
      if d' = d then noteHoles pair read.holes (holesOf s d) else holesOf s d' := by
    intro d'
    obtain ⟨frame, holes, line⟩ := read
    cases holes with
    | nil =>
      have same : holesOf (recordRolling root s d pair interval w ⟨frame, [], line⟩) d' = holesOf s d' := by
        cases frame <;> rfl
      rw [same]
      split
      · rename_i own
        rw [own]
        rfl
      · rfl
    | cons day rest =>
      have grown : (recordRolling root s d pair interval w ⟨frame, day :: rest, line⟩).holes =
          s.holes.insert d (noteHoles pair (day :: rest) (holesOf s d)) := by
        cases frame <;> rfl
      unfold holesOf
      rw [grown]
      split
      · rename_i own
        rw [own, AList.lookup_insert]
        rfl
      · rename_i other
        rw [AList.lookup_insert_ne other]
  obtain ⟨frame, holes, line⟩ := read
  cases frame with
  | nil => cases holes with
    | nil => exact ⟨rfl, rfl, rfl, rfl, rfl, rfl, noted⟩
    | cons day rest => exact ⟨rfl, rfl, rfl, rfl, rfl, rfl, noted⟩
  | cons row more => cases holes with
    | nil => exact ⟨rfl, rfl, rfl, rfl, rfl, rfl, noted⟩
    | cons day rest => exact ⟨rfl, rfl, rfl, rfl, rfl, rfl, noted⟩

/-- A line that is kept already is the one that is read. -/
theorem Kept.one_line {pair : Pair} {interval : Nat} {asOf : String} {w : Window} {acceptHoles : Bool} {day : Int}
    {within : Option (Int × Int)} {read : RollingRead Row Digest} {line : Line Digest} (kept : Kept root log s)
    (asked : askedRolling root s d pair interval asOf w = .ok (day, within))
    (got : rolled root d pair interval day within acceptHoles = .ok read) (found : s.lines.lookup d = some line) :
    line = read.line := by
  obtain ⟨-, -, -, one_day, -⟩ := askedRolling_ok.mp asked
  obtain ⟨x, g, before, mem, own, was_read, rfl⟩ := kept.lined d line found
  cases x with
  | series _ _ _ => cases was_read
  | rolling d₀ pair₀ interval₀ asOf₀ w₀ acceptHoles₀ =>
    obtain rfl : d₀ = d := own
    obtain ⟨day₀, within₀, -, -, got₀⟩ := readOf_rolling.mp was_read
    have days : day₀ = day := by
      rw [← Rolling.readRolling_day (rolled_ok got₀).1]
      exact one_day before.line found
    subst days
    exact Rolling.readRolling_line (rolled_ok got₀).1 (rolled_ok got).1

theorem Kept.first_rolling {pair : Pair} {interval : Nat} {asOf : String} {w : Window} {acceptHoles : Bool} {day : Int}
    {within : Option (Int × Int)} {read : RollingRead Row Digest} (ordered : Ordered root) (kept : Kept root log s)
    (asked : askedRolling root s d pair interval asOf w = .ok (day, within)) (new : (d, pair, interval) ∉ s.rollingReads)
    (got : rolled root d pair interval day within acceptHoles = .ok read) :
    Kept root (log ++ [(.rolling d pair interval asOf w acceptHoles, .ok read.frame)])
      (recordRolling root s d pair interval w read) := by
  obtain ⟨date, said, way, -, -⟩ := askedRolling_ok.mp asked
  have reads_ : readOf root (.rolling d pair interval asOf w acceptHoles) = some read :=
    readOf_rolling.mpr ⟨day, within, date, said, got⟩
  have given : frameOf root (.rolling d pair interval asOf w acceptHoles) = some read.frame :=
    congrArg (Option.map RollingRead.frame) reads_
  have unread : windowOf s (Call.rolling d pair interval asOf w acceptHoles).key = none := AList.lookup_eq_none.mpr new
  obtain ⟨reads, rollingReads, lines, files, rows, span, holes⟩ :=
    recordRolling_keeps root s d pair interval w read
  have windows : ∀ k, windowOf (recordRolling root s d pair interval w read) k =
      if k = .rolling d pair interval then some w else windowOf s k := by
    intro k
    cases k with
    | series d' relpath' => simp only [windowOf, reads, reduceCtorEq, if_false]
    | rolling d' pair' interval' =>
      simp only [windowOf, rollingReads, Key.rolling.injEq]
      split
      · rename_i same
        rw [same.1, same.2.1, same.2.2, AList.lookup_insert]
      · rename_i other
        refine AList.lookup_insert_ne fun same => other ?_
        obtain ⟨same_d, rest⟩ := Prod.mk.inj same
        exact ⟨same_d, Prod.mk.inj rest⟩
  refine ⟨?_, ?_, ?_, ?_, ?_, ?_, ?_, ?_, ?_, ?_, ?_, ?_⟩
  · intro x g mem
    rcases mem_answered.mp mem with mem | ⟨rfl, rfl⟩
    · exact kept.given x g mem
    · exact given
  · intro x g mem
    rw [windows]
    rcases mem_answered.mp mem with mem | ⟨rfl, rfl⟩
    · have other : x.key ≠ .rolling d pair interval := kept.other_key unread mem
      rw [if_neg other]
      exact kept.window x g mem
    · exact if_pos rfl
  · intro k w' found
    rw [windows] at found
    split at found
    · rename_i same
      exact ⟨_, read.frame, mem_answered.mpr (.inr ⟨rfl, rfl⟩), same.symm⟩
    · obtain ⟨x, g, mem, key⟩ := kept.known k w' found
      exact ⟨x, g, mem_answered.mpr (.inl mem), key⟩
  · intro x g read' mem was_read
    rw [lines]
    rcases mem_answered.mp mem with mem | ⟨rfl, rfl⟩
    · have line := kept.line x g read' mem was_read
      by_cases own : x.dataset = d
      · rw [own] at line ⊢
        rw [AList.lookup_insert, kept.one_line asked got line]
      · rw [AList.lookup_insert_ne own]
        exact line
    · rw [Option.some.inj (was_read.symm.trans reads_)]
      exact AList.lookup_insert _
  · intro d' relpath' w' g mem
    rw [lines, AList.mem_insert, not_or]
    rcases mem_answered.mp mem with before | ⟨same, rfl⟩
    · have unchained := kept.series d' relpath' w' g before
      refine ⟨fun own => ?_, unchained⟩
      subst own
      exact unchained (oneWay_chained way ((kept.datasets d').mpr ⟨.series d' relpath' w', g, before, rfl⟩))
    · cases same
  · intro d'
    rw [files, AList.mem_insert]
    simp only [mem_answered]
    constructor
    · rintro (rfl | there)
      · exact ⟨.rolling d' pair interval asOf w acceptHoles, read.frame, .inr ⟨rfl, rfl⟩, rfl⟩
      · obtain ⟨x, g, mem, own⟩ := (kept.datasets d').mp there
        exact ⟨x, g, .inl mem, own⟩
    · rintro ⟨x, g, mem | ⟨rfl, rfl⟩, own⟩
      · exact .inr ((kept.datasets d').mpr ⟨x, g, mem, own⟩)
      · exact .inl own.symm
  · intro d' line found
    rw [lines] at found
    rw [files]
    by_cases own : d' = d
    · subst own
      rw [AList.lookup_insert] at found ⊢
      rw [Option.some.inj found]
    · rw [AList.lookup_insert_ne own] at found ⊢
      exact kept.chained d' line found
  · intro d' listed unchained found relpath' digest'
    rw [lines, AList.mem_insert, not_or] at unchained
    rw [files, AList.lookup_insert_ne unchained.1] at found
    rw [reads]
    exact kept.hashed d' listed unchained.2 found relpath' digest'
  · intro d' relpath' absent
    rw [files, AList.mem_insert, not_or] at absent
    rw [reads]
    exact kept.unread d' relpath' absent.2
  · intro d' line found
    rw [lines] at found
    by_cases own : d' = d
    · subst own
      rw [AList.lookup_insert] at found
      exact ⟨.rolling d' pair interval asOf w acceptHoles, read.frame, read, mem_answered.mpr (.inr ⟨rfl, rfl⟩), rfl,
        reads_, Option.some.inj found⟩
    · rw [AList.lookup_insert_ne own] at found
      obtain ⟨x, g, read', mem, more⟩ := kept.lined d' line found
      exact ⟨x, g, read', mem_answered.mpr (.inl mem), more⟩
  · intro d'
    have among : holesIn root (log ++ [(.rolling d pair interval asOf w acceptHoles, .ok read.frame)]) d' =
        holesIn root log d' ∪ { text | d' = d ∧ ∃ day ∈ read.holes, text = holeText pair day } := by
      ext text
      simp only [holesIn, Set.mem_union, Set.mem_ofPred_eq, mem_answered]
      constructor
      · rintro ⟨x, g, mem | ⟨rfl, rfl⟩, own, pair', interval', asOf', w', acceptHoles', read', is_rolling, was_read, hole⟩
        · exact .inl ⟨x, g, mem, own, pair', interval', asOf', w', acceptHoles', read', is_rolling, was_read, hole⟩
        · injection is_rolling with _ same_p _ _ _ _
          rw [Option.some.inj (reads_.symm.trans was_read), same_p]
          exact .inr ⟨own.symm, hole⟩
      · rintro (⟨x, g, mem, more⟩ | ⟨rfl, hole⟩)
        · exact ⟨x, g, .inl mem, more⟩
        · exact ⟨_, read.frame, .inr ⟨rfl, rfl⟩, rfl, pair, interval, asOf, w, acceptHoles, read, rfl, reads_, hole⟩
    rw [holes, among]
    by_cases own : d' = d
    · subst own
      obtain ⟨once, before⟩ := kept.holes d'
      obtain ⟨nodup, noted⟩ := noteHoles_notes pair read.holes once
      rw [if_pos rfl]
      refine ⟨nodup, fun text => ?_⟩
      rw [noted, before, Set.mem_union, Set.mem_ofPred_eq, and_iff_right rfl]
    · rw [if_neg own]
      refine ⟨(kept.holes d').1, fun text => ?_⟩
      rw [(kept.holes d').2, Set.mem_union, Set.mem_ofPred_eq, or_iff_left fun both => own both.1]
  · exact kept.tallied.first (t := s) (kept.new_key unread _) (frameOf_some given) (ordered _ _ given) rfl rfl rows span

end

end

end Observed
