import Mathlib.Data.List.Sort
import Mathlib.Data.Rat.Defs
import Mathlib.Algebra.Order.Ring.Unbundled.Rat

/- A pair's book of price levels, held to a depth. Only the ways in which an ingest fails are kept of
   its checksum: the value is the caller's to act on, and a replay ignores it. -/
namespace OrderBook

/-- A price or a quantity. What is not a number is no key of its own level, nor of another. -/
inductive Decimal where
  | number (value : ℚ)
  | infinity (negative : Bool)
  | nan
  deriving DecidableEq, Repr

namespace Decimal

def isNan : Decimal → Bool
  | nan => true
  | _ => false

def le : Decimal → Decimal → Bool
  | number a, number b => a ≤ b
  | infinity true, _ => true
  | _, infinity false => true
  | _, _ => false

end Decimal

abbrev Level := Decimal × Decimal
abbrev Side := List Level

structure Book where
  depth : Int
  bids : Side
  asks : Side
  deriving DecidableEq, Repr

/-- A level as it is read, where either half may be null. -/
abbrev RawLevel := Option Decimal × Option Decimal

def toDecimal : Option Decimal → Except String Decimal
  | some value => .ok value
  | none => .error "CaptureError: not a valid decimal price/qty: None"

def extractLevel (raw : RawLevel) : Except String Level := do
  let price ← toDecimal raw.1
  let qty ← toDecimal raw.2
  pure (price, qty)

/-- A price that is there keeps its place. -/
def put (level : Level) (side : Side) : Side :=
  if !level.1.isNan && side.any (fun old => old.1 = level.1) then
    side.map fun old => if old.1 = level.1 then level else old
  else side ++ [level]

def drop (price : Decimal) (side : Side) : Side :=
  if price.isNan then side else side.filter fun old => old.1 ≠ price

/-- Prices are compared when there are two, and what is not a number has no order. -/
def sorted (reverse : Bool) (side : Side) : Except String Side :=
  if 2 ≤ side.length && side.any (fun level => level.1.isNan) then
    .error "InvalidOperation: [<class 'decimal.InvalidOperation'>]"
  else
    .ok (side.insertionSort fun a b => if reverse then b.1.le a.1 else a.1.le b.1)

/-- The first levels, or all but the last ones where the depth is negative. -/
def slice (depth : Int) (side : Side) : Side :=
  if 0 ≤ depth then side.take depth.toNat else side.take (side.length - depth.natAbs)

def pruneSide (depth : Int) (reverse : Bool) (side : Side) : Except String Side :=
  if depth < side.length then (sorted reverse side).map (slice depth) else .ok side

namespace Book

def prune (b : Book) : Except String Book := do
  let asks ← pruneSide b.depth false b.asks
  let bids ← pruneSide b.depth true b.bids
  pure { b with asks, bids }

/-- Both sides are sorted for the checksum. -/
def validate (b : Book) : Except String Book := do
  discard (sorted false b.asks)
  discard (sorted true b.bids)
  pure b

def ingestSnapshot (b : Book) (bids asks : List RawLevel) : Except String Book := do
  let bids ← bids.mapM extractLevel
  let asks ← asks.mapM extractLevel
  let b ← prune { b with
    bids := bids.foldl (fun side level => put level side) []
    asks := asks.foldl (fun side level => put level side) [] }
  b.validate

end Book

def applySide : List RawLevel → Side → Except String Side
  | [], side => .ok side
  | raw :: rest, side => do
    let (price, qty) ← extractLevel raw
    applySide rest (if qty = .number 0 then drop price side else put (price, qty) side)

def Book.ingestUpdate (b : Book) (bids asks : List RawLevel) : Except String Book := do
  let bids ← applySide bids b.bids
  let asks ← applySide asks b.asks
  let b ← Book.prune { b with bids, asks }
  b.validate

end OrderBook
