import Zcrypto.Registry.Torn
import Mathlib.Logic.Relation

/- One store's file among the processes that use it: appenders, each holding the lock from its read to
   its return, and constructors, which read the file and heal it without the lock. -/
namespace Registry
open JsonText TextFile

section
variable {F : Type} (floats : Floats F) (ledger : Ledger F) (hash : List Char → String)

/-- A truncation, which fills with zeros a file that is shorter. -/
def truncateTo (n : Nat) (bytes : List UInt8) : List UInt8 :=
  bytes.take n ++ List.replicate (n - bytes.length) 0

/-- What a read makes of a file, and the length it then truncates the file to. -/
def Ledger.scan (file : Option (List UInt8)) : Except Refusal (List (Value F)) × Option Nat :=
  match file with
  | none => (.ok [], none)
  | some raw =>
    if raw = [] then (.ok [], none)
    else match decode raw with
      | none => (.error .undecodable, none)
      | some text =>
        match ledger.readLines floats (endsNl text) 0 (lines text) with
        | .error refusal => (.error refusal, none)
        | .ok (records, torn) => ((ledger.assertCrossRecord records).map fun _ => records,
          if torn then some (truncated raw).length else none)

def lineOf (record : Value F) : List UInt8 := encode (dumps floats record ++ ['\n'])

/-- The process that holds the lock: before its read, before its heal, and before it has written what
    is left of its line. -/
inductive Writer where
  | locked (e : ledger.Entry)
  | torn (length : Nat) (disk : Except Refusal (List (Value F))) (e : ledger.Entry)
  | writing (record : Value F) (rest : List UInt8)

/-- The file, the process that holds its lock, the truncations that constructors have still to make,
    and the records whose append returned. -/
structure World where
  file : Option (List UInt8)
  writer : Option (Writer ledger)
  cuts : List Nat
  returned : List (Value F)

inductive Happening where
  | opens
  | locks (e : ledger.Entry)
  | reads
  | heals
  | writes (count : Nat)
  | returns
  | constructs
  | cuts (reader : Nat)

/-- What an appender does after its read and its heal: it writes its record, or it raises. -/
def Ledger.proceed (disk : Except Refusal (List (Value F))) (e : ledger.Entry) :
    Option (Writer ledger) :=
  match disk with
  | .error _ => none
  | .ok disk =>
    match ledger.complete floats hash disk e with
    | .error _ => none
    | .ok record => if ledger.validate record then some (.writing record (lineOf floats record)) else none

variable {ledger}

/-- The next state, none where nothing of the kind can happen. -/
def World.step (w : World ledger) : Happening ledger → Option (World ledger)
  | .opens => some { w with file := some (w.file.getD []) }
  | .locks e =>
    match w.file, w.writer with
    | some _, none => if ledger.takes e then some { w with writer := some (.locked e) } else none
    | _, _ => none
  | .reads =>
    match w.writer with
    | some (.locked e) =>
      match ledger.scan floats w.file with
      | (disk, some n) => some { w with writer := some (.torn n disk e) }
      | (disk, none) => some { w with writer := ledger.proceed floats hash disk e }
    | _ => none
  | .heals =>
    match w.writer with
    | some (.torn n disk e) => some { w with
        file := w.file.map (truncateTo n), writer := ledger.proceed floats hash disk e }
    | _ => none
  | .writes count =>
    match w.writer with
    | some (.writing record rest) => some { w with
        file := w.file.map (· ++ rest.take count), writer := some (.writing record (rest.drop count)) }
    | _ => none
  | .returns =>
    match w.writer with
    | some (.writing record []) => some { w with writer := none, returned := w.returned ++ [record] }
    | _ => none
  | .constructs => some { w with cuts := w.cuts ++ (ledger.scan floats w.file).2.toList }
  | .cuts reader =>
    match w.cuts[reader]? with
    | some n => some { w with file := w.file.map (truncateTo n), cuts := w.cuts.eraseIdx reader }
    | none => none

def Writer.midLine : Writer ledger → Bool
  | .writing record rest => rest ≠ lineOf floats record
  | _ => false

/-- A truncation that comes while the file's last newline is where the constructor found it, and no
    appender has written a part of its line. -/
def World.harmless (w : World ledger) : Happening ledger → Bool
  | .cuts reader => w.cuts[reader]?.all fun n =>
      (truncated (w.file.getD [])).length = n && w.writer.all fun writer => !writer.midLine floats
  | _ => true

/-- One line of the file, from its beginning or from a newline on. -/
def CompleteLine (line : List UInt8) (file : Option (List UInt8)) : Prop :=
  ∃ before after, file = some (before ++ (line ++ after)) ∧
    (before = [] ∨ before.getLast? = some newline)

/-- Every record whose append returned is on a line of its own, and the file loads, the returned
    records among its records, when no append is under way. -/
structure World.Kept (w : World ledger) : Prop where
  lines : ∀ r ∈ w.returned, CompleteLine (lineOf floats r) w.file
  loads : w.writer = none → ∃ records, (ledger.readHealing floats w.file).1 = .ok records ∧
    ∀ r ∈ w.returned, r ∈ records

variable (ledger)

/-- What may be after a file's last newline: nothing, or a line that was torn before its end. -/
def Torn (tail : List Char) : Prop :=
  '\n' ∉ tail ∧ (tail = [] ∨ loads floats tail = .error .malformed)

/-- A file that loads, which nobody uses. -/
structure World.Start (w : World ledger) : Prop where
  idle : w.writer = none
  fresh : w.cuts = [] ∧ w.returned = []
  loads : w.file = none ∨ ∃ whole tail records, w.file = some (encode (whole ++ tail)) ∧
    Holds floats ledger whole records ∧ Ended whole ∧ Torn floats tail

/-- A step whose truncation, if it is one, is harmless. -/
def World.Quiet (w w' : World ledger) : Prop :=
  ∃ h, w.harmless floats h = true ∧ w.step floats hash h = some w'

end

/- What a run keeps. -/

section
variable {F : Type} {floats : Floats F} {ledger : Ledger F} {hash : List Char → String}
  {w w' : World ledger} {whole tail : List Char} {records : List (Value F)}

theorem truncateTo_length (kept rest : List UInt8) : truncateTo kept.length (kept ++ rest) = kept := by
  simp [truncateTo]

theorem truncated_prefix (raw : List UInt8) : ∃ rest, truncated raw ++ rest = raw := by
  have suffix : raw.reverse.dropWhile (· ≠ newline) <:+ raw.reverse := List.dropWhile_suffix _
  obtain ⟨rest, whole⟩ := suffix
  refine ⟨rest.reverse, ?_⟩
  unfold truncated
  rw [← List.reverse_append, whole, List.reverse_reverse]

/-- A read is a scan and the truncation that it asks for. -/
theorem readHealing_scan (file : Option (List UInt8)) : ledger.readHealing floats file =
    ((ledger.scan floats file).1, match (ledger.scan floats file).2 with
      | some n => file.map (truncateTo n)
      | none => file) := by
  cases file with
  | none => rfl
  | some raw =>
    unfold Ledger.readHealing Ledger.scan
    by_cases empty : raw = []
    · simp [empty]
    · simp only [if_neg empty]
      cases decode raw with
      | none => rfl
      | some text =>
        simp only
        cases ledger.readLines floats (endsNl text) 0 (lines text) with
        | error refusal => rfl
        | ok found =>
          obtain ⟨read, torn⟩ := found
          cases torn with
          | false => rfl
          | true =>
            obtain ⟨rest, whole⟩ := truncated_prefix raw
            have cut : truncateTo (truncated raw).length (truncated raw ++ rest) = truncated raw :=
              truncateTo_length _ _
            rw [whole] at cut
            simp only [if_true, Option.map_some, cut]

theorem scan_whole (holds : Holds floats ledger whole records) :
    ledger.scan floats (some (encode whole)) = (.ok records, none) := by
  obtain ⟨w, walked⟩ := holds.walked
  unfold Ledger.scan
  simp only [decode_encode]
  split
  · rename_i empty
    obtain rfl : whole = [] := encode_injective empty
    cases holds.all
    rfl
  · rw [readLines_records holds.all]
    simp only [walked]
    rfl

theorem scan_torn (holds : Holds floats ledger whole records) (ended : Ended whole)
    (line : '\n' ∉ tail) (filled : tail ≠ []) (torn : loads floats tail = .error .malformed) :
    ledger.scan floats (some (encode (whole ++ tail))) =
      (.ok records, some (encode whole).length) := by
  obtain ⟨w, walked⟩ := holds.walked
  unfold Ledger.scan
  simp only [decode_encode]
  split
  · rename_i empty
    have nothing : whole ++ tail = [] := encode_injective empty
    exact absurd (List.append_eq_nil_iff.mp nothing).2 filled
  · rw [lines_tail line filled ended, endsNl_tail line filled, readLines_torn holds.all torn]
    simp only [walked, if_true, truncated_encode line ended]
    rfl

/-- A record on its own line of a text. -/
def LineIn (floats : Floats F) (whole : List Char) (r : Value F) : Prop :=
  ∃ before after, whole = before ++ ((dumps floats r ++ ['\n']) ++ after) ∧ Ended before

/-- What the lock's holder has done, in terms of the records and of what follows the last newline. -/
def Phase (floats : Floats F) (whole : List Char) (records : List (Value F)) (rest : List UInt8) :
    Option (Writer ledger) → Prop
  | none | some (.locked _) => ∃ tail, rest = encode tail ∧ Torn floats tail
  | some (.torn n disk _) => (∃ tail, rest = encode tail ∧ Torn floats tail) ∧
      n = (encode whole).length ∧ disk = .ok records
  | some (.writing record left) => rest ++ left = lineOf floats record ∧
      Holds floats ledger (whole ++ (dumps floats record ++ ['\n'])) (records ++ [record])

/-- The records, and what follows the last newline. -/
structure World.Shape (floats : Floats F) (w : World ledger) (whole : List Char)
    (records : List (Value F)) (rest : List UInt8) : Prop where
  bytes : w.file.getD [] = encode whole ++ rest
  holds : Holds floats ledger whole records
  ended : Ended whole
  returned : ∀ r ∈ w.returned, r ∈ records ∧ LineIn floats whole r
  phase : Phase floats whole records rest w.writer
  there : w.writer.isSome → w.file.isSome

def World.Sane (floats : Floats F) (w : World ledger) : Prop :=
  ∃ whole records rest, w.Shape floats whole records rest

theorem torn_nil : Torn floats [] := ⟨List.not_mem_nil, .inl rfl⟩

/-- The lock's holder goes on from the records that are there. -/
theorem proceed_phase (lawful : Lawful floats ledger) (holds : Holds floats ledger whole records)
    (ended : Ended whole) (e : ledger.Entry) :
    Phase floats whole records [] (ledger.proceed floats hash (.ok records) e) := by
  have idle : @Phase F ledger floats whole records [] none := ⟨[], rfl, torn_nil⟩
  unfold Ledger.proceed
  simp only
  cases completed : ledger.complete floats hash records e with
  | error refusal => exact idle
  | ok record =>
    simp only
    split
    · rename_i valid
      obtain ⟨-, -, walked, is_record⟩ := completed_holds lawful holds completed valid
      exact ⟨rfl, holds_line holds ended walked is_record⟩
    · exact idle

theorem shape_scan (shape : w.Shape floats whole records (encode tail)) (torn : Torn floats tail)
    (there : w.file.isSome) : ledger.scan floats w.file = (.ok records, none) ∧ tail = [] ∨
      ledger.scan floats w.file = (.ok records, some (encode whole).length) := by
  obtain ⟨bytes, file⟩ := Option.isSome_iff_exists.mp there
  have same := shape.bytes
  rw [file, Option.getD_some, ← encode_append] at same
  obtain ⟨line, empty | broken⟩ := torn
  · subst empty
    left
    rw [file, same, List.append_nil]
    exact ⟨scan_whole shape.holds, rfl⟩
  · by_cases filled : tail = []
    · subst filled
      left
      rw [file, same, List.append_nil]
      exact ⟨scan_whole shape.holds, rfl⟩
    · right
      rw [file, same]
      exact scan_torn shape.holds shape.ended line filled broken

theorem Torn.truncated_rest (ended : Ended whole) (torn : Torn floats tail) :
    truncated (encode whole ++ encode tail) = encode whole := by
  rw [← encode_append]
  exact truncated_encode torn.1 ended

/-- The file cut at the end of its whole lines. -/
theorem Shape.truncate {rest : List UInt8} (shape : w.Shape floats whole records rest)
    (there : w.file.isSome) : w.file.map (truncateTo (encode whole).length) = some (encode whole) := by
  obtain ⟨bytes, file⟩ := Option.isSome_iff_exists.mp there
  have same := shape.bytes
  rw [file, Option.getD_some] at same
  rw [file, Option.map_some, same, truncateTo_length]

/-- No part of a line is after the last newline but a torn one, and it may as well not be. -/
theorem Phase.aside {rest : List UInt8} {writer : Option (Writer ledger)}
    (phase : Phase floats whole records rest writer)
    (apart : writer.all (fun writer => !writer.midLine floats) = true) :
    (∃ tail, rest = encode tail ∧ Torn floats tail) ∧ Phase floats whole records [] writer := by
  match writer with
  | none => exact ⟨phase, [], rfl, torn_nil⟩
  | some (.locked e) => exact ⟨phase, [], rfl, torn_nil⟩
  | some (.torn n disk e) => exact ⟨phase.1, ⟨[], rfl, torn_nil⟩, phase.2⟩
  | some (.writing record left) =>
    obtain ⟨line, holds⟩ := phase
    have same : left = lineOf floats record := by simpa [Writer.midLine] using apart
    obtain rfl : rest = [] := by
      rw [same] at line
      exact List.append_left_eq_self.mp line
    exact ⟨⟨[], rfl, torn_nil⟩, line, holds⟩

/-- What a harmless happening makes of a sane file is sane. -/
theorem World.Sane.step (lawful : Lawful floats ledger) (sane : w.Sane floats)
    (quiet : w.Quiet floats ledger hash w') : w'.Sane floats := by
  obtain ⟨whole, records, rest, shape⟩ := sane
  obtain ⟨happening, harmless, stepped⟩ := quiet
  have bytes := shape.bytes
  have phase := shape.phase
  have there := shape.there
  cases happening with
  | opens =>
    obtain rfl := Option.some.inj stepped
    exact ⟨whole, records, rest, bytes, shape.holds, shape.ended, shape.returned, phase, fun _ => rfl⟩
  | locks e =>
    simp only [World.step] at stepped
    split at stepped
    · rename_i file idle
      split at stepped
      · obtain rfl := Option.some.inj stepped
        rw [idle] at phase
        exact ⟨whole, records, rest, bytes, shape.holds, shape.ended, shape.returned, phase,
          fun _ => by rw [file]; rfl⟩
      · cases stepped
    · cases stepped
  | reads =>
    simp only [World.step] at stepped
    split at stepped
    · rename_i e locked
      rw [locked] at phase there
      obtain ⟨tail, rfl, torn⟩ := phase
      have file := there rfl
      rcases shape_scan shape torn file with ⟨scanned, rfl⟩ | scanned
      · rw [scanned] at stepped
        obtain rfl := Option.some.inj stepped
        exact ⟨whole, records, [], bytes, shape.holds, shape.ended, shape.returned,
          proceed_phase lawful shape.holds shape.ended e, fun _ => file⟩
      · rw [scanned] at stepped
        obtain rfl := Option.some.inj stepped
        exact ⟨whole, records, encode tail, bytes, shape.holds, shape.ended, shape.returned,
          ⟨⟨tail, rfl, torn⟩, rfl, rfl⟩, fun _ => file⟩
    · cases stepped
  | heals =>
    simp only [World.step] at stepped
    split at stepped
    · rename_i n disk e healing
      rw [healing] at phase there
      obtain ⟨-, rfl, rfl⟩ := phase
      obtain rfl := Option.some.inj stepped
      have cut := Shape.truncate shape (there rfl)
      refine ⟨whole, records, [], ?_, shape.holds, shape.ended, shape.returned,
        proceed_phase lawful shape.holds shape.ended e, fun _ => ?_⟩
      · simp only [cut, Option.getD_some, List.append_nil]
      · simp only [cut]
        rfl
    · cases stepped
  | writes count =>
    simp only [World.step] at stepped
    split at stepped
    · rename_i record left writing
      rw [writing] at phase there
      obtain ⟨line, holds⟩ := phase
      obtain rfl := Option.some.inj stepped
      obtain ⟨raw, file⟩ := Option.isSome_iff_exists.mp (there rfl)
      rw [file, Option.getD_some] at bytes
      refine ⟨whole, records, rest ++ left.take count, ?_, shape.holds, shape.ended, shape.returned,
        ⟨?_, holds⟩, fun _ => ?_⟩
      · simp only [file, Option.map_some, Option.getD_some, bytes, List.append_assoc]
      · rw [List.append_assoc, List.take_append_drop]
        exact line
      · simp only [file]
        rfl
    · cases stepped
  | returns =>
    simp only [World.step] at stepped
    split at stepped
    · rename_i record writing
      rw [writing] at phase
      obtain ⟨line, holds⟩ := phase
      rw [List.append_nil] at line
      obtain rfl := Option.some.inj stepped
      refine ⟨whole ++ (dumps floats record ++ ['\n']), records ++ [record], [], ?_, holds,
        ended_line _ _, ?_, ⟨[], rfl, torn_nil⟩, fun busy => nomatch busy⟩
      · rw [List.append_nil, encode_append, bytes, line]
        rfl
      · intro r mem
        rcases List.mem_append.mp mem with old | new
        · obtain ⟨kept, before, after, parted, ended⟩ := shape.returned r old
          refine ⟨List.mem_append_left _ kept, before, after ++ (dumps floats record ++ ['\n']), ?_, ended⟩
          rw [parted]
          simp only [List.append_assoc]
        · obtain rfl := List.mem_singleton.mp new
          refine ⟨List.mem_append_right _ new, whole, [], ?_, shape.ended⟩
          rw [List.append_nil]
    · cases stepped
  | constructs =>
    obtain rfl := Option.some.inj stepped
    exact ⟨whole, records, rest, bytes, shape.holds, shape.ended, shape.returned, phase, there⟩
  | cuts reader =>
    simp only [World.step] at stepped
    split at stepped
    · rename_i n owed
      simp only [World.harmless, owed, Option.all_some, Bool.and_eq_true, decide_eq_true_eq] at harmless
      obtain ⟨place, apart⟩ := harmless
      obtain rfl := Option.some.inj stepped
      obtain ⟨⟨tail, rfl, torn⟩, cut⟩ := Phase.aside phase apart
      rw [bytes, torn.truncated_rest shape.ended] at place
      subst place
      refine ⟨whole, records, [], ?_, shape.holds, shape.ended, shape.returned, cut, fun busy => ?_⟩
      · cases file : w.file with
        | none =>
          rw [file, Option.getD_none] at bytes
          obtain ⟨none_whole, -⟩ := List.append_eq_nil_iff.mp bytes.symm
          rw [none_whole]
          rfl
        | some raw =>
          have kept := Shape.truncate shape (by rw [file]; rfl)
          rw [file] at kept
          simp only [kept, Option.getD_some, List.append_nil]
      · rw [Option.isSome_map]
        exact there busy
    · cases stepped

theorem World.Start.sane (start : w.Start floats ledger) : w.Sane floats := by
  obtain ⟨idle, ⟨-, fresh⟩, loads⟩ := start
  have unreturned (whole : List Char) (records : List (Value F)) :
      ∀ r ∈ w.returned, r ∈ records ∧ LineIn floats whole r := by
    rw [fresh]
    intro r mem
    cases mem
  have unlocked : w.writer.isSome → w.file.isSome := by
    rw [idle]
    exact fun busy => nomatch busy
  rcases loads with missing | ⟨whole, tail, records, file, holds, ended, torn⟩
  · refine ⟨[], [], [], ?_, ⟨.nil, _, rfl⟩, .inl rfl, unreturned _ _, ?_, unlocked⟩
    · rw [missing]
      rfl
    · rw [idle]
      exact ⟨[], rfl, torn_nil⟩
  · refine ⟨whole, records, encode tail, ?_, holds, ended, unreturned _ _, ?_, unlocked⟩
    · rw [file, encode_append]
      rfl
    · rw [idle]
      exact ⟨tail, rfl, torn⟩

theorem ended_byte {before : List Char} (ended : Ended before) :
    encode before = [] ∨ (encode before).getLast? = some newline := by
  rcases ended with rfl | ⟨earlier, rfl⟩
  · exact .inl rfl
  · right
    rw [encode_append]
    exact List.getLast?_concat

theorem LineIn.filled {r : Value F} (line : LineIn floats whole r) : encode whole ≠ [] := by
  obtain ⟨before, after, parted, -⟩ := line
  intro empty
  obtain rfl : whole = [] := encode_injective empty
  simp at parted

theorem World.Sane.kept (sane : w.Sane floats) : w.Kept floats := by
  obtain ⟨whole, records, rest, shape⟩ := sane
  constructor
  · intro r mem
    obtain ⟨-, line⟩ := shape.returned r mem
    have bytes := shape.bytes
    cases file : w.file with
    | none =>
      rw [file, Option.getD_none] at bytes
      exact absurd (List.append_eq_nil_iff.mp bytes.symm).1 line.filled
    | some raw =>
      obtain ⟨before, after, parted, ended⟩ := line
      refine ⟨encode before, encode after ++ rest, ?_, ended_byte ended⟩
      rw [file, Option.getD_some, parted, encode_append, encode_append] at bytes
      rw [bytes]
      simp only [lineOf, List.append_assoc]
  · intro idle
    have phase := shape.phase
    rw [idle] at phase
    obtain ⟨tail, rfl, torn⟩ := phase
    cases file : w.file with
    | none =>
      have bytes := shape.bytes
      rw [file, Option.getD_none] at bytes
      refine ⟨[], rfl, ?_⟩
      intro r mem
      exact absurd (List.append_eq_nil_iff.mp bytes.symm).1 (shape.returned r mem).2.filled
    | some raw =>
      refine ⟨records, ?_, fun r mem => (shape.returned r mem).1⟩
      rw [readHealing_scan, ← file]
      rcases shape_scan shape torn (by rw [file]; rfl) with ⟨scanned, -⟩ | scanned <;> rw [scanned]

end

/- One reading, with a constructor beside it. -/

section
variable {F : Type} {ledger : Ledger F} {floats : Floats F} {hash : List Char → String}

def World.run (floats : Floats F) (hash : List Char → String) (w : World ledger)
    (happenings : List (Happening ledger)) : Option (World ledger) :=
  happenings.foldlM (fun w h => w.step floats hash h) w

/-- A run that goes no further than its truncations are harmless. -/
def World.runQuietly (floats : Floats F) (hash : List Char → String) (w : World ledger)
    (happenings : List (Happening ledger)) : Option (World ledger) :=
  happenings.foldlM (fun w h => if w.harmless floats h then w.step floats hash h else none) w

theorem quiet_of_run {happenings : List (Happening ledger)} {w w' : World ledger}
    (ran : w.runQuietly floats hash happenings = some w') :
    Relation.ReflTransGen (World.Quiet floats ledger hash) w w' := by
  induction happenings generalizing w with
  | nil =>
    obtain rfl : w = w' := Option.some.inj ran
    exact .refl
  | cons h rest ih =>
    obtain ⟨next, stepped, later⟩ := Option.bind_eq_some_iff.mp ran
    simp only at stepped
    split at stepped
    · rename_i harmless
      exact .head ⟨h, harmless, stepped⟩ (ih later)
    · cases stepped

end

def noFile : World carryStore := ⟨none, none, [], []⟩

def half : Nat := 40

/-- A file of one brace. -/
def brace : World carryStore := ⟨some (encode ['{']), none, [], []⟩

theorem brace_start : brace.Start noFloats carryStore :=
  ⟨rfl, ⟨rfl, rfl⟩, .inr ⟨[], ['{'], [], rfl, ⟨.nil, _, rfl⟩, .inl rfl, by decide, .inr rfl⟩⟩

/-- A constructor heals the brace away, and an append follows. -/
def healedFirst : List (Happening carryStore) :=
  [.constructs, .cuts 0, .opens, .locks carryReading, .reads, .writes half, .writes 1000, .returns]

/-- The constructor reads half a line, and truncates it when the whole of it is there. -/
def lateCut : List (Happening carryStore) :=
  [.opens, .locks carryReading, .reads, .writes half, .constructs, .writes 1000, .returns, .cuts 0]

end Registry
