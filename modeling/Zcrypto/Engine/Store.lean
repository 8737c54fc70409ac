import Mathlib.Order.WithBot
import Mathlib.Algebra.Order.Ring.Rat
import Zcrypto.Keyed
import Mathlib.Order.ConditionallyCompleteLattice.Basic
import Mathlib.Data.Int.ConditionallyCompleteOrder

/- The live price store: one file for each pair and grid, seeded from the rolling canonical and
   kept warm by REST answers. A stamp counts microseconds from the epoch and a value is exact
   where it is finite. What an operator is told to do about a refusal is left out of it. -/
namespace Stores
open Keyed

inductive Num where
  | nan
  | infinite (negative : Bool)
  | finite (q : ℚ)
  deriving DecidableEq, Repr

/-- One cell of a candle row: a text no number is read from, an absent value, or a value. -/
inductive Cell (α : Type) where
  | unparseable
  | null
  | value (v : α)
  deriving DecidableEq, Repr

def Cell.cast {α : Type} : Cell α → Option (Option α)
  | .unparseable => none
  | .null => some none
  | .value v => some (some v)

/-- A row as the venue answers it, its stamp in whole seconds. -/
structure Candle where
  ts : Cell Int
  open_ : Cell Num
  high : Cell Num
  low : Cell Num
  close : Cell Num
  vwap : Cell Num
  volume : Cell Num
  count : Cell Int
  deriving DecidableEq, Repr

structure Bar where
  ts : Option Int
  open_ : Option Num
  high : Option Num
  low : Option Num
  close : Option Num
  vwap : Option Num
  volume : Option Num
  count : Option Int
  deriving DecidableEq, Repr

/-- A stamp as a sort reads it, an absent one before every other. -/
def Bar.stamp (b : Bar) : WithBot Int :=
  match b.ts with
  | none => ⊥
  | some t => t

def Bar.floats (b : Bar) : List (Option Num) :=
  [b.open_, b.high, b.low, b.close, b.vwap, b.volume]

abbrev Schema := List (String × String)

def frameSchema : Schema :=
  [("ts", "Datetime(time_unit='us', time_zone='UTC')"), ("open", "Float64"), ("high", "Float64"),
    ("low", "Float64"), ("close", "Float64"), ("vwap", "Float64"), ("volume", "Float64"),
    ("count", "Int64")]

/-- A frame; its rows are read only where its schema is the store's. -/
structure Frame where
  schema : Schema
  rows : List Bar
  deriving DecidableEq, Repr

inductive File where
  | absent
  | unreadable
  | frame (f : Frame)
  deriving DecidableEq, Repr

/-- A pair's symbol and a grid's minutes. -/
abbrev Leg := String × Nat

abbrev Store := Leg → File

inductive OHLCError where
  | unparseable
  | nan
  | conflicting
  deriving DecidableEq, Repr

inductive Difference where
  | wrongType (column found expected : String)
  | missing (column : String)
  | extra (column : String)
  | order (columns : List String)
  | noRows
  | nullStamps (rows : Nat)
  | repeatedStamps (rows : Nat)
  | offGrid (rows interval : Nat) (first : Option Int)
  | unusableClose (row : Nat) (stamp : Option Int) (close : Option Num) (rows : Nat)
  deriving DecidableEq, Repr

/-- Why two sides share too few stamps. -/
inductive Shortfall where
  | shortLeg (height : Nat)
  | emptyRest
  | holes
  | disjoint (restHead storeTail : Option Int)
  deriving DecidableEq, Repr

inductive Source where
  | storeFile
  | canonical
  | rest
  deriving DecidableEq, Repr

inductive EngineError where
  | cannotRead (source : Source)
  | notJoinable (source : Source) (differs : List Difference)
  | shortfall (overlap minOverlap : Nat) (why : Shortfall)
  | absentClose (store rest : Option (Option Int))
  | mismatch (stamp : Option Int)
  deriving DecidableEq, Repr

inductive Failure where
  | engine (fnName : String) (leg : Leg) (e : EngineError)
  | ohlc (e : OHLCError)
  | fetch (leg : Leg)
  | write (leg : Leg)
  deriving DecidableEq, Repr

/-- What is outside the store: the venue's answer for a leg, none where the fetch raises or no frame
    is made of it; the canonical's files; and, for a write that raises, the file it leaves. -/
structure World where
  fetch : Leg → Option (List Candle)
  canonical : Leg → File
  write : Leg → Frame → Option File

-- frames

def Candle.cast (c : Candle) : Option Bar := do
  let ts ← c.ts.cast
  let open_ ← c.open_.cast
  let high ← c.high.cast
  let low ← c.low.cast
  let close ← c.close.cast
  let vwap ← c.vwap.cast
  let volume ← c.volume.cast
  let count ← c.count.cast
  return ⟨ts.map (· * 1000000), open_, high, low, close, vwap, volume, count⟩

def nUnique (rows : List Bar) : Nat := (rows.map Bar.ts).dedup.length

def toFrame (candles : List Candle) : Except OHLCError (List Bar) :=
  match candles.mapM Candle.cast with
  | none => .error .unparseable
  | some raw =>
    if raw.any fun b => b.floats.contains (some .nan) then .error .nan
    else
      let frame := (arrange Bar.stamp raw).eraseDups
      if ¬ frame.Pairwise (fun a b => a.stamp ≤ b.stamp) ∨ nUnique frame ≠ frame.length then
        .error .conflicting
      else .ok frame

def completed (interval : Nat) (now : Int) (b : Bar) : Bool :=
  match b.ts with
  | none => false
  | some t => t + interval * 60 * 1000000 ≤ now

def dropInProgress (frame : List Bar) (interval : Nat) (now : Int) : List Bar :=
  frame.filter (completed interval now)

/-- The stamps both sides carry, as the two rows at each. -/
def shared (left right : List Bar) : List (Bar × Bar) :=
  left.flatMap fun l => (right.filter fun r => l.ts.isSome && l.ts = r.ts).map fun r => (l, r)

def disagrees (p : Bar × Bar) : Bool :=
  p.1.close ≠ p.2.close || p.1.close.isNone || p.2.close.isNone

def seamOverlap (left right : List Bar) : Nat × List (Bar × Bar) :=
  let rows := shared left right
  (rows.length, rows.filter disagrees)

def unusable (b : Bar) : Bool :=
  match b.close with
  | none => false
  | some .nan | some (.infinite _) => true
  | some (.finite q) => q ≤ 0

def onGrid (interval : Nat) (b : Bar) : Bool :=
  b.ts.all fun t => t % ((interval : Int) * 60 * 1000000) = 0

def schemaDifferences (schema : Schema) : List Difference :=
  (frameSchema.filterMap fun c => match schema.lookup c.1 with
    | none => some (.missing c.1)
    | some found => if found = c.2 then none else some (.wrongType c.1 found c.2)) ++
  schema.filterMap fun c => if (frameSchema.lookup c.1).isSome then none else some (.extra c.1)

/-- The differences of the first arm that fails. -/
def frameDifferences (frame : Frame) (interval : Nat) : List Difference :=
  let differs := schemaDifferences frame.schema
  if differs ≠ [] then differs
  else if frame.schema.map Prod.fst ≠ frameSchema.map Prod.fst then
    [.order (frame.schema.map Prod.fst)]
  else if frame.rows = [] then [.noRows]
  else
    let nulls := frame.rows.filter fun b => b.ts.isNone
    if nulls ≠ [] then [.nullStamps nulls.length]
    else if nUnique frame.rows ≠ frame.rows.length then
      [.repeatedStamps (frame.rows.length - nUnique frame.rows)]
    else
      let offGridRows := frame.rows.filter fun b => !onGrid interval b
      if offGridRows ≠ [] then
        [.offGrid offGridRows.length interval (offGridRows.head?.bind Bar.ts)]
      else match frame.rows.find? unusable with
        | some b => [.unusableClose (frame.rows.findIdx unusable) b.ts b.close
            (frame.rows.filter unusable).length]
        | none => []

def readFrame (source : Source) : File → Except EngineError Frame
  | .frame f => .ok f
  | _ => .error (.cannotRead source)

def requireStoreFrame (source : Source) (frame : Frame) (interval : Nat) : Except EngineError Unit :=
  let differs := frameDifferences frame interval
  if differs ≠ [] then .error (.notJoinable source differs) else .ok ()

def requireRestFrame (frame : List Bar) (interval : Nat) : Except EngineError Unit :=
  if frame = [] then .ok () else requireStoreFrame .rest ⟨frameSchema, frame⟩ interval

-- the seam

def stampMin (rows : List Bar) : Option Int := (rows.filterMap Bar.ts).min?
def stampMax (rows : List Bar) : Option Int := (rows.filterMap Bar.ts).max?

def reaches (restHead storeTail : Option Int) : Bool :=
  match restHead, storeTail with
  | some h, some t => h ≤ t
  | _, _ => false

def shortfallHint (storeFrame restFrame : List Bar) (minOverlap : Nat) : Shortfall :=
  if storeFrame.length < minOverlap then .shortLeg storeFrame.length
  else if restFrame = [] then .emptyRest
  else if reaches (stampMin restFrame) (stampMax storeFrame) then .holes
  else .disjoint (stampMin restFrame) (stampMax storeFrame)

structure Reconciled where
  overlapBars : Nat
  replacedTailRows : Nat
  merged : List Bar
  deriving DecidableEq, Repr

def isAbsent (p : Bar × Bar) : Bool :=
  p.1.close.isNone || p.2.close.isNone

def reconcile (storeFrame restFrame : List Bar) (minOverlap : Nat) (allowReplace : Bool) :
    Except EngineError Reconciled :=
  let (overlapBars, mismatches) := seamOverlap storeFrame restFrame
  if overlapBars < minOverlap then
    .error (.shortfall overlapBars minOverlap (shortfallHint storeFrame restFrame minOverlap))
  else
    let absent := mismatches.filter isAbsent
    if absent ≠ [] then
      .error (.absentClose ((absent.find? fun p => p.1.close.isNone).map fun p => p.1.ts)
        ((absent.find? fun p => p.2.close.isNone).map fun p => p.1.ts))
    else match mismatches, allowReplace with
      | p :: _, false => .error (.mismatch p.1.ts)
      | _, _ =>
        let replacedTs := (mismatches.map fun p => p.1.stamp).dedup
        .ok ⟨overlapBars, replacedTs.length,
          overlay Bar.stamp (fun k => replacedTs.contains k) storeFrame restFrame⟩

-- runs

structure SeedEntry where
  leg : Leg
  overlapBars : Nat
  appended : Int
  replacedTailRows : Nat
  deriving DecidableEq, Repr

structure RefreshEntry where
  leg : Leg
  appended : Int
  tailFreshThrough : Option Int
  deriving DecidableEq, Repr

def minSeamOverlap : Nat := 6
def refreshMinOverlap : Nat := 1

def refused {α : Type} (fnName : String) (leg : Leg) : Except EngineError α → Except Failure α :=
  Except.mapError (Failure.engine fnName leg)

/-- The finished rows of the venue's answer, once they are rows the store may hold. -/
def finished (w : World) (fnName : String) (now : Int) (leg : Leg) : Except Failure (List Bar) := do
  let candles ← (w.fetch leg).elim (.error (.fetch leg)) .ok
  let restFrame := dropInProgress (← (toFrame candles).mapError .ohlc) leg.2 now
  refused fnName leg (requireRestFrame restFrame leg.2)
  return restFrame

def storeFrame (fnName : String) (leg : Leg) (file : File) : Except Failure Frame := do
  let frame ← refused fnName leg (readFrame .storeFile file)
  refused fnName leg (requireStoreFrame .storeFile frame leg.2)
  return frame

def writeParquet (w : World) (leg : Leg) (frame : Frame) : File × Except Failure Unit :=
  match w.write leg frame with
  | none => (.frame frame, .ok ())
  | some left => (left, .error (.write leg))

def refreshReconciled (w : World) (now : Int) (leg : Leg) (file : File) :
    Except Failure (Frame × Reconciled) := do
  let frame ← storeFrame "refresh_store" leg file
  let restFrame ← finished w "refresh_store" now leg
  let r ← refused "refresh_store" leg (reconcile frame.rows restFrame refreshMinOverlap false)
  return (frame, r)

def refreshLeg (w : World) (now : Int) (leg : Leg) (file : File) : File × Except Failure RefreshEntry :=
  match refreshReconciled w now leg file with
  | .error e => (file, .error e)
  | .ok (frame, r) =>
    let appended : Int := r.merged.length - frame.rows.length
    let entry : RefreshEntry := ⟨leg, appended, stampMax r.merged⟩
    if appended ≠ 0 then
      let (left, written) := writeParquet w leg ⟨frameSchema, r.merged⟩
      (left, written.map fun _ => entry)
    else (file, .ok entry)

/-- The file a seed lays the answer over: the one that is there, or the canonical's copy. -/
def seeded (w : World) (leg : Leg) (file : File) : File × Except Failure Unit :=
  if file = .absent then
    match (do
      let frame ← refused "seed_store" leg (readFrame .canonical (w.canonical leg))
      refused "seed_store" leg (requireStoreFrame .canonical frame leg.2)
      return frame) with
    | .error e => (file, .error e)
    | .ok frame => writeParquet w leg frame
  else (file, .ok ())

def seedReconciled (leg : Leg) (file : File) (restFrame : List Bar) (storeExisted : Bool) :
    Except Failure (Frame × Reconciled) := do
  let frame ← storeFrame "seed_store" leg file
  let r ← refused "seed_store" leg (reconcile frame.rows restFrame minSeamOverlap storeExisted)
  return (frame, r)

/-- The answer laid over the file a seed has in hand. -/
def seedOver (w : World) (leg : Leg) (file : File) (restFrame : List Bar) (storeExisted : Bool) :
    File × Except Failure SeedEntry :=
  match seedReconciled leg file restFrame storeExisted with
  | .error e => (file, .error e)
  | .ok (frame, r) =>
    let appended : Int := r.merged.length - frame.rows.length
    let entry : SeedEntry := ⟨leg, r.overlapBars, appended, r.replacedTailRows⟩
    if r.replacedTailRows ≠ 0 ∨ appended ≠ 0 then
      let (left, written) := writeParquet w leg ⟨frameSchema, r.merged⟩
      (left, written.map fun _ => entry)
    else (file, .ok entry)

def seedLeg (w : World) (now : Int) (leg : Leg) (file : File) : File × Except Failure SeedEntry :=
  match finished w "seed_store" now leg with
  | .error e => (file, .error e)
  | .ok restFrame => match seeded w leg file with
    | (left, .error e) => (left, .error e)
    | (left, .ok ()) => seedOver w leg left restFrame (file ≠ .absent)

structure Run (ε : Type) where
  store : Store
  result : Except Failure (List ε)

/-- One leg after another, until one raises. -/
def overLegs {ε : Type} (step : Leg → File → File × Except Failure ε) : List Leg → Store → Run ε
  | [], store => ⟨store, .ok []⟩
  | leg :: legs, store => match step leg (store leg) with
    | (left, .error e) => ⟨Function.update store leg left, .error e⟩
    | (left, .ok entry) =>
      let run := overLegs step legs (Function.update store leg left)
      ⟨run.store, run.result.map (entry :: ·)⟩

def basket : List String :=
  ["ADA/EUR", "AVAX/EUR", "BTC/EUR", "DOGE/EUR", "DOT/EUR", "ETH/BTC", "ETH/EUR", "LINK/EUR",
    "LTC/EUR", "SOL/BTC", "SOL/EUR", "XRP/EUR"]

def gridIntervals : List Nat := [1440, 240]

def legs (pairs : List String) : List Leg :=
  pairs.flatMap fun pair => gridIntervals.map fun interval => (pair, interval)

def refreshStore (w : World) (now : Int) (pairs : List String) (store : Store) : Run RefreshEntry :=
  overLegs (refreshLeg w now) (legs pairs) store

def seedStore (w : World) (now : Int) (store : Store) : Run SeedEntry :=
  overLegs (seedLeg w now) (legs basket) store

end Stores
