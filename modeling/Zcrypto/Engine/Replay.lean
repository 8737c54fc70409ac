import Mathlib.Data.List.Sort
import Zcrypto.Engine.Journal
import Zcrypto.Engine.Store

/- The replay of a journaled cycle: its snapshots read back and held to what was journaled of them,
   the model's inputs selected, the targets built and compared. The builder is whatever the
   deployed code computes, its newest row read, and so is the hash of a snapshot. -/
namespace Replays
open Journal Stores

/-- The stamps and closes of one file, its stamps all aware or all naive. -/
structure Series where
  aware : Bool
  ts : List Int
  closes : List (Option Stores.Num)
  deriving DecidableEq, Repr

def Series.stamps (s : Series) : List Moment := s.ts.map fun t => ⟨s.aware, t⟩

def Series.bars (s : Series) : List (Int × Option Stores.Num) := s.ts.zip s.closes

/-- The close at a stamp, the last of them where there are several. -/
def Series.closeAt (s : Series) (t : Int) : Option Stores.Num := (s.bars.reverse.lookup t).join

/-- The stamps with a close. -/
def Series.priced (s : Series) : List Int :=
  s.bars.filterMap fun bar => if bar.2.isSome then some bar.1 else none

/-- One grid as the builder takes it. -/
structure Inputs where
  aware : Bool
  ts : List Int
  prices : List (String × List (Option Stores.Num))
  deriving DecidableEq, Repr

def Inputs.stamps (i : Inputs) : List Moment := i.ts.map fun t => ⟨i.aware, t⟩

/-- The newest row built from the daily grid and the four-hour one, none where the build raises. -/
abbrev Builder := Inputs → Inputs → Option (Dict ℚ)

def base (symbol : String) : String := String.ofList (symbol.toList.takeWhile (· ≠ '/'))

def modelSymbols : List String := basket.filter fun symbol => "/EUR".toList.isSuffixOf symbol.toList

def sortedStamps (ts : List Int) : List Int := ts.dedup.insertionSort (· ≤ ·)

/-- The contraction to the ten legs in euros, on a calendar of the stamps at which one of them has
    a close. -/
def selectModelInputs (series : List (String × Series)) : Except Fault Inputs :=
  match modelSymbols.mapM fun symbol => series.lookup symbol with
  | none => .error (.engine "the model's EUR leg(s) are absent from the series map")
  | some present =>
    let ts := sortedStamps (present.flatMap Series.priced)
    .ok ⟨present.any Series.aware, ts,
      (modelSymbols.zip present).map fun leg => (base leg.1, ts.map leg.2.closeAt)⟩

theorem basket_nodup : basket.Nodup := by decide

/-- Twelve symbols out of the model's bases, at nothing where the model has none. -/
def expandToBasket (model : Dict ℚ) : Except Fault (Dict ℚ) :=
  if model.keys.all fun asset => asset ++ "/EUR" ∈ basket then
    .ok (.fromKeys basket
      (fun symbol => ((model.items.find? fun item => item.1 ++ "/EUR" = symbol).map Prod.snd).getD 0)
      basket_nodup)
  else .error (.engine "a model asset has no leg in the ratified basket")

def Value.str : Value → String
  | .text s => s
  | _ => ""

def metadataAgrees (e : SnapshotEntry) (s : Series) : Bool :=
  e.nBars = .int s.ts.length ∧ s.stamps.head? = some e.firstTs.moment ∧
    s.stamps.getLast? = some e.lastTs.moment

section
variable (contentHash : Series → String) (build : Builder) (files : String → Option Series)

def readSnapshot (e : SnapshotEntry) : Except Fault Series :=
  match files (Value.str e.path) with
  | none => .error (.journal "journaled snapshot missing on disk or unreadable")
  | some s =>
    if e.contentHash ≠ .text (contentHash s) then .error (.hashMismatch e.pair e.grid)
    else if metadataAgrees e s then .ok s
    else .error (.journal "read data disagrees with its own journaled metadata")

def gridSeries (grid : String) (read : List (SnapshotEntry × Series)) : List (String × Series) :=
  (read.filter fun item => inGrid grid item.1).map fun item => (Value.str item.1.pair, item.2)

/-- The series of one grid, all on the calendar of the first. -/
def assemble : List (String × Series) → Except Fault Inputs
  | [] => .ok ⟨false, [], []⟩
  | first :: rest =>
    if rest.all fun item => item.2.aware = first.2.aware ∧ item.2.ts = first.2.ts then
      .ok ⟨first.2.aware, first.2.ts, (first :: rest).map fun item => (item.1, item.2.closes)⟩
    else .error (.journal "ts calendar disagrees with the grid's shared calendar")

def built (daily h4 : Inputs) : Except Fault (Dict ℚ) :=
  match build daily h4 with
  | some targets => .ok targets
  | none => .error (.raised "the builder")

/-- What the model computes of the grids, in the record's own key space. -/
def modelTargets (schema : Value) (daily h4 : Inputs) (read : List (SnapshotEntry × Series)) :
    Except Fault (Dict ℚ) :=
  if isSchema 1 schema then built build daily h4
  else do
    let modelDaily ← selectModelInputs (gridSeries "1440" read)
    let modelH4 ← selectModelInputs (gridSeries "240" read)
    let targets ← built build modelDaily modelH4
    expandToBasket targets

def replayCycle (r : CycleRecord) : Except Fault (Dict ℚ) := do
  validateRecord r
  let series ← r.snapshots.mapM (readSnapshot contentHash files)
  let read := r.snapshots.zip series
  let daily ← assemble (gridSeries "1440" read)
  let h4 ← assemble (gridSeries "240" read)
  need (h4.stamps.getLast? = some (r.expectedLast "240").moment)
    "the builder's grid does not contain the cycle_ts interval"
  modelTargets build r.schemaVersion daily h4 read

end

/- The comparison. -/

structure CompareResult where
  passed : Bool
  worstAsset : Option String
  worstAbsDiff : Option ℚ
  structuralMismatch : Bool
  deriving DecidableEq, Repr

def tolerance : ℚ := 1 / 1000000

def absDiff (a b : Dict ℚ) (asset : String) : ℚ :=
  |(a.get? asset).getD 0 - (b.get? asset).getD 0|

/-- The first asset of the largest difference. -/
def worst (diff : String → ℚ) (first : String) (rest : List String) : String :=
  rest.foldl (fun w asset => if diff w < diff asset then asset else w) first

def sameAssets (a b : Dict ℚ) : Bool :=
  a.keys.all (· ∈ b.keys) && b.keys.all (· ∈ a.keys)

def compareTargets (a b : Dict ℚ) : CompareResult :=
  if sameAssets a b then
    match a.keys with
    | [] => ⟨true, none, some 0, false⟩
    | first :: rest =>
      let asset := worst (absDiff a b) first rest
      ⟨absDiff a b asset ≤ tolerance, some asset, some (absDiff a b asset), false⟩
  else ⟨false, none, none, true⟩

structure CycleOutcome where
  cycleTs : Stamp
  completedAt : Stamp
  comparePassed : Bool
  mismatch : Bool
  validationFailed : Bool
  deriving DecidableEq, Repr

/-- The targets of a validated record. -/
def amounts (targets : Dict Value) : Dict ℚ := targets.map fun value => value.amount.getD 0

/-- The outcome of a replay, none where it raises what is not classified. -/
def classified (cycleTs completedAt : Stamp) : Except Fault Bool → Option CycleOutcome
  | .error (.hashMismatch _ _) => some ⟨cycleTs, completedAt, true, true, false⟩
  | .error (.journal _) => some ⟨cycleTs, completedAt, true, false, true⟩
  | .error _ => none
  | .ok passed => some ⟨cycleTs, completedAt, passed, false, false⟩

def replayOne (contentHash : Series → String) (build : Builder) (files : String → Option Series)
    (r : CycleRecord) : Option CycleOutcome :=
  classified r.cycleTs r.completedAt
    ((replayCycle contentHash build files r).map fun replayed =>
      (compareTargets (amounts r.finalTargets) replayed).passed)

end Replays
