import Mathlib.Algebra.Order.BigOperators.Group.List
import Zcrypto.Engine.ExecLedger

/- The realized half of the weekly comparison: the fills the ledger's events carry. -/
namespace Tracking
open ProbePlans ExecLedger

structure Fill where
  boundary : Int
  recordedAt : Int
  base : Option String
  side : Side
  qty : ℚ
  px : Option ℚ
  fee : Option ℚ
  liquidity : String
  tradeId : String
  credited : ℚ
  deriving DecidableEq, Repr

def priceableLiquidity : List String := ["MAKER", "TAKER"]
def venueLiquidity : List String := priceableLiquidity ++ ["NO_LIQUIDITY_SIDE"]
def eurCodes : List String := ["EUR", "ZEUR"]

/- `_BASE_BY_SYMBOL`: a leg quoted in BTC carries no model target. -/
def baseOf : Pair → Option String
  | .adaEur => some "ADA" | .avaxEur => some "AVAX" | .btcEur => some "BTC"
  | .dogeEur => some "DOGE" | .dotEur => some "DOT" | .ethEur => some "ETH"
  | .linkEur => some "LINK" | .ltcEur => some "LTC" | .solEur => some "SOL"
  | .xrpEur => some "XRP" | .ethBtc | .solBtc => none

/- One event of a row. A `withdrawn` line reverses nothing, and a liquidity the venue's
   enum does not yield refuses the whole report. -/
def fillOf (b : Int) (row : Row) : RowEvent → Option (List Fill)
  | .reconciled recordedAt qty _ => some
      [{ boundary := b, recordedAt, base := baseOf row.intent.symbol, side := row.intent.side
         qty, px := none, fee := none, liquidity := "NO_LIQUIDITY_SIDE"
         tradeId := "reconciled:" ++ row.clientOrderId ++ ":" ++ toString recordedAt
         credited := qty }]
  | .fill line =>
    if line.liquidity ∈ venueLiquidity then
      let euro := line.feeCurrency.any eurCodes.contains
      let fee := if euro ∧ line.liquidity ∈ priceableLiquidity then line.fee else none
      some
        [{ boundary := b, recordedAt := line.recordedAt, base := baseOf row.intent.symbol
           side := row.intent.side, qty := line.qty, px := some line.px, fee
           liquidity := line.liquidity, tradeId := line.tradeId
           credited := ExecLedger.credited (.fill line) }]
    else none
  | _ => some []

def fillsOfRow (b : Int) (row : Row) : Option (List Fill) :=
  (row.events.mapM (fillOf b row)).map List.flatten

/- `extract_fills`: every journaled fill, in ledger order. -/
def extractFills (rows : List (Int × Row)) : Option (List Fill) :=
  (rows.mapM fun e => fillsOfRow e.1 e.2).map List.flatten

def creditedSum (fills : List Fill) : ℚ := (fills.map Fill.credited).sum

theorem credited_fillOf {b : Int} {row : Row} {ev : RowEvent} {fills : List Fill}
    (h : fillOf b row ev = some fills) : creditedSum fills = credited ev := by
  cases ev with
  | fill line =>
    simp only [fillOf] at h
    split at h
    · obtain rfl := Option.some.inj h
      simp [creditedSum]
    · cases h
  | reconciled recordedAt qty venueFilledQty =>
    obtain rfl := Option.some.inj h
    simp [creditedSum, credited]
  | _ =>
    obtain rfl := Option.some.inj h
    simp [creditedSum, credited]

theorem creditedSum_append (xs ys : List Fill) :
    creditedSum (xs ++ ys) = creditedSum xs + creditedSum ys := by
  simp [creditedSum]

/- The report of one row counts what moved the row. -/
theorem credited_fillsOfRow {b : Int} {row : Row} {fills : List Fill}
    (h : fillsOfRow b row = some fills) : creditedSum fills = row.creditedTotal := by
  obtain ⟨parts, read, rfl⟩ := Option.map_eq_some_iff.mp h
  unfold Row.creditedTotal
  clear h
  generalize row.events = events at read ⊢
  induction events generalizing parts with
  | nil =>
    simp only [List.mapM_nil, Option.pure_def, Option.some.injEq] at read
    subst read
    rfl
  | cons ev rest ih =>
    simp only [List.mapM_cons, Option.pure_def, Option.bind_eq_bind, Option.bind_eq_some_iff,
      Option.some.injEq] at read
    obtain ⟨head, first, tail, later, rfl⟩ := read
    rw [List.flatten_cons, creditedSum_append, credited_fillOf first, ih tail later]
    rfl

end Tracking
