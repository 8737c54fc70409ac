import Mathlib.Algebra.BigOperators.Group.List.Basic
import Zcrypto.Engine.ExecGate

/- The execution ledger: one record for each boundary, holding the submitted rows
   and the plan entries filed under it. Every mutator reads, changes and stores
   one whole record, and refuses a record it cannot read. -/
namespace ExecLedger
open ProbePlans ExecGate

inductive RowState where
  | submitting | accepted | rejected | venueCanceled | canceled | filled | ambiguous
  deriving DecidableEq, Repr

/- `_OPEN_ORDER_STATES`: every state a possibly-live order can wear. -/
def RowState.isOpen : RowState → Bool
  | .submitting | .accepted | .ambiguous => true
  | .rejected | .venueCanceled | .canceled | .filled => false

inductive EventName where
  | orderAccepted | orderFilled | orderRejected | orderDenied | orderCanceled | orderExpired
  | orderCancelRejected | orderCancelDenied
  | other (name : String)
  deriving DecidableEq, Repr

/- The forensic shape of one fill. `credited` is written only where it differs from `qty`. -/
structure FillLine where
  recordedAt : Int
  qty : ℚ
  px : ℚ
  fee : Option ℚ
  feeCurrency : Option String
  liquidity : String
  tradeId : String
  venueOrderId : Option OrderId
  credited : Option ℚ
  deriving DecidableEq, Repr

inductive RowEvent where
  | fill (line : FillLine)
  | reconciled (recordedAt : Int) (qty venueFilledQty : ℚ)
  | withdrawn (recordedAt : Int) (qty venueFilledQty : ℚ)
  | recancelled (recordedAt : Int) (venueOrderId : OrderId)
  | ambiguous (recordedAt : Int) (what : String)
  | typed (name : EventName) (recordedAt : Int) (reason : Option String)
      (reconciliation : Bool) (venueOrderId : Option OrderId)
  deriving DecidableEq, Repr

structure OrderPayload where
  symbol : Pair
  side : Side
  qty : Option ℚ
  price : ℚ
  notional : ℚ
  immediateOrCancel : Bool
  postOnly : Bool
  leverage : Option Nat
  reduceOnly : Bool
  bid : Option ℚ
  ask : Option ℚ
  quoteSeq : Nat
  deriving DecidableEq, Repr

structure Row where
  planId : PlanId
  intentIndex : Nat
  clientOrderId : OrderId
  intent : ProbeIntent
  order : OrderPayload
  state : RowState
  filledQty : ℚ
  events : List RowEvent
  deriving DecidableEq, Repr

/- `_ordered_qty`: a row with no readable quantity reads zero. -/
def Row.ordered (r : Row) : ℚ := r.order.qty.getD 0

inductive IntentOutcome where
  | pending | refused | carried | alreadyLedgered | ambiguous | rejected | revoked | filled
  | partially | unfilled | restCancelOk | restHoldExpired | restHoldVenueCanceled
  deriving DecidableEq, Repr

structure IntentEntry where
  index : Nat
  intent : ProbeIntent
  outcome : IntentOutcome
  reasons : List String
  filledQty : ℚ
  deriving DecidableEq, Repr

inductive Disposition where
  | accepted | refused
  deriving DecidableEq, Repr

structure PlanEntry where
  planId : PlanId
  receivedAt : Int
  disposition : Disposition
  reasons : List String
  plan : Option ProbePlan
  intents : List IntentEntry
  deriving DecidableEq, Repr

structure ExecRecord where
  evaluatedAt : Int
  verdict : GateVerdict
  submitted : List Row
  plans : List PlanEntry
  deriving DecidableEq, Repr

inductive Stored where
  | doc (r : ExecRecord)
  | unreadable
  deriving DecidableEq, Repr

abbrev Ledger := Int → Option Stored

def Ledger.rows (l : Ledger) (b : Int) : List Row :=
  match l b with
  | some (.doc r) => r.submitted
  | _ => []

def Ledger.entries (l : Ledger) (b : Int) : List PlanEntry :=
  match l b with
  | some (.doc r) => r.plans
  | _ => []

/- The first element that satisfies `p`, changed in place; none when there is none. -/
def changeFirst {α : Type} (p : α → Bool) (f : α → α) : List α → Option (List α)
  | [] => none
  | a :: rest => if p a then some (f a :: rest) else (changeFirst p f rest).map (a :: ·)

/- `_load_or_new`: the record to merge into, its verdict restamped. -/
def loadOrNew (l : Ledger) (b : Int) (v : GateVerdict) (evaluatedAt : Int) : Option ExecRecord :=
  match l b with
  | none => some ⟨evaluatedAt, v, [], []⟩
  | some (.doc r) => some { r with evaluatedAt, verdict := v }
  | some .unreadable => none

def readExisting (l : Ledger) (b : Int) : Option ExecRecord :=
  match l b with
  | some (.doc r) => some r
  | _ => none

def store (l : Ledger) (b : Int) (r : ExecRecord) : Ledger := Function.update l b (some (.doc r))

def writeExecRecord (b : Int) (v : GateVerdict) (evaluatedAt : Int) (l : Ledger) : Option Ledger :=
  (loadOrNew l b v evaluatedAt).map (store l b)

def appendSubmittedRow (b : Int) (row : Row) (v : GateVerdict) (evaluatedAt : Int) (l : Ledger) :
    Option Ledger :=
  (loadOrNew l b v evaluatedAt).map fun r => store l b { r with submitted := r.submitted ++ [row] }

def appendPlanEntry (b : Int) (entry : PlanEntry) (v : GateVerdict) (evaluatedAt : Int)
    (l : Ledger) : Option Ledger :=
  (loadOrNew l b v evaluatedAt).map fun r => store l b { r with plans := r.plans ++ [entry] }

structure RowUpdate where
  state : Option RowState := none
  event : Option RowEvent := none
  addFilledQty : ℚ := 0

def RowUpdate.apply (u : RowUpdate) (row : Row) : Row :=
  { row with
    events := row.events ++ u.event.toList
    state := u.state.getD row.state
    filledQty := row.filledQty + u.addFilledQty }

def updateSubmittedRow (b : Int) (clientOrderId : OrderId) (u : RowUpdate) (l : Ledger) :
    Option Ledger := do
  let r ← readExisting l b
  let rows ← changeFirst (fun row => row.clientOrderId = clientOrderId) u.apply r.submitted
  pure (store l b { r with submitted := rows })

def updatePlanIntent (b : Int) (planId : PlanId) (index : Nat) (outcome : IntentOutcome)
    (reasons : List String) (filledQty : ℚ) (l : Ledger) : Option Ledger := do
  let r ← readExisting l b
  let plans ← r.plans.find? (fun entry => entry.planId = planId) |>.bind fun entry => do
    let intents ← changeFirst (fun i => i.index = index)
      (fun i => { i with outcome, reasons, filledQty }) entry.intents
    changeFirst (fun entry => entry.planId = planId) (fun entry => { entry with intents }) r.plans
  pure (store l b { r with plans })

/- `FLAT_TOLERANCE` and `_OVERFILL_TOLERANCE` are the one figure. -/
def tolerance : ℚ := 1 / 10 ^ 12

/- `credited_qty`: what a `fill` or `reconciled` line moved its row's figure by.
   No other line moves it. -/
def credited : RowEvent → ℚ
  | .fill line => line.credited.getD line.qty
  | .reconciled _ qty _ => qty
  | _ => 0

def Row.creditedTotal (r : Row) : ℚ := (r.events.map credited).sum

/- `_day_dirs`: today first, back to the day before the earlier of `now` and `since`. -/
def dayDirs (now : Int) (since : Option Int) : List Int :=
  let today := dayOf now
  let first := (match since with | none => today | some t => dayOf (min t now)) - 1
  (List.range (today - first + 1).toNat).map fun k : Nat => today - (k : Int)

def boundariesOf (day : Int) : List Int :=
  (List.range 24).map fun h : Nat => day * hoursPerDay + (h : Int)

def readAll (l : Ledger) : List Int → Option (List (Int × ExecRecord))
  | [] => some []
  | b :: rest =>
    match l b with
    | none => readAll l rest
    | some .unreadable => none
    | some (.doc r) => (readAll l rest).map ((b, r) :: ·)

def recordsInWindow (now : Int) (since : Option Int) (l : Ledger) :
    Option (List (Int × ExecRecord)) :=
  readAll l ((dayDirs now since).flatMap boundariesOf)

def ledgeredPlanIds (now : Int) (l : Ledger) : Option (List PlanId) :=
  (recordsInWindow now none l).map fun docs => docs.flatMap fun (_, r) =>
    r.plans.map (·.planId) ++ r.submitted.map (·.planId)

def ledgeredIntentKeys (now : Int) (l : Ledger) : Option (List (PlanId × Nat)) :=
  (recordsInWindow now none l).map fun docs => docs.flatMap fun (_, r) =>
    r.submitted.map fun row => (row.planId, row.intentIndex)

def pendingPlanIntents (now : Int) (since : Option Int) (l : Ledger) :
    Option (List (Int × PlanId × Nat)) :=
  (recordsInWindow now since l).map fun docs => docs.flatMap fun (b, r) =>
    r.plans.flatMap fun entry =>
      (entry.intents.filter (·.outcome = .pending)).map fun i => (b, entry.planId, i.index)

def submittedRows (keep : Row → Bool) (now : Int) (since : Option Int) (l : Ledger) :
    Option (List (Int × Row)) :=
  (recordsInWindow now since l).map fun docs => docs.flatMap fun (b, r) =>
    (r.submitted.filter keep).map fun row => (b, row)

def openSubmittedRows : Int → Option Int → Ledger → Option (List (Int × Row)) :=
  submittedRows fun row => row.state.isOpen

def closedSubmittedRows : Int → Option Int → Ledger → Option (List (Int × Row)) :=
  submittedRows fun row => !row.state.isOpen

/- `_row_venue_order_ids`: the Kraken ids a row's own events carry. -/
def RowEvent.venueOrderId : RowEvent → Option OrderId
  | .fill line => line.venueOrderId
  | .recancelled _ id => some id
  | .typed _ _ _ _ id => id
  | _ => none

def Row.venueOrderIds (r : Row) : List OrderId :=
  (r.events.filterMap fun e => e.venueOrderId.filter (· ≠ "")).dedup

/- `_row_venue_order_id`: none when no event carries one and when two disagree. -/
def Row.venueOrderId (r : Row) : Option OrderId :=
  match r.venueOrderIds with
  | [id] => some id
  | _ => none

def noVenueOrderId : String :=
  "no Kraken order id is recorded for it, so a restart cannot match it to a venue order"

def unmatchableWhat (r : Row) : String :=
  let found := r.venueOrderIds.mergeSort (fun a b => decide (a ≤ b))
  if found.length < 2 then noVenueOrderId
  else "its events record " ++ toString found.length ++ " different Kraken order ids (" ++
    ", ".intercalate found ++ "), so a restart cannot tell which venue order is its own"

def unreadWhat (venueOrderId : OrderId) : String :=
  "the venue's order read has no order " ++ venueOrderId

def markWhat (r : Row) : Option OrderId → String
  | none => unmatchableWhat r
  | some id => unreadWhat id

/- `_marked_unmatched` -/
def Row.markedUnmatched (r : Row) (what : String) : Bool :=
  r.events.any fun e => match e with
    | .ambiguous _ w => w = what
    | _ => false

end ExecLedger
