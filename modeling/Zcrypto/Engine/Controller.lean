import Zcrypto.Effects
import Zcrypto.Engine.ExecLedger

/- The executor's world. `Env` answers what the process reads: the clock, the
   control files, the Cache, the venue, the disk, and the events the adapter
   delivers from inside a submit or a cancel call. An answer is indexed by how many
   answers were taken before it, so every pattern of readings, failures, crashes and
   interleavings is some `Env`. `St` holds the disk, the process's own attributes
   and the trace of what it did. -/
namespace Controller
open ProbePlans ExecGate ExecLedger Effects Effects.Prog

inductive OrderStatus where
  | filled | canceled | expired | voided | rejected | denied
  | live (name : String)
  deriving DecidableEq, Repr

/- `_ADOPTED_TERMINAL_STATES`: a status outside the closed ones claims nothing. -/
def OrderStatus.terminalState : OrderStatus → Option RowState
  | .filled => some .filled
  | .canceled => some .canceled
  | .expired | .voided => some .venueCanceled
  | .rejected | .denied => some .rejected
  | .live _ => none

/- `_RECONCILED_TERMINALS` -/
def terminalNames : List EventName := [.orderRejected, .orderCanceled, .orderExpired]

structure CacheCopy where
  venueOrderId : Option OrderId
  status : OrderStatus
  filledQty : ℚ
  quantity : ℚ
  ownStrategy : Bool
  isClosed : Bool
  events : List (EventName × Bool)
  deriving DecidableEq, Repr

/- The Cache is keyed by client order id, so an order it answers carries the id asked for. -/
structure CacheOrder where
  clientOrderId : OrderId
  copy : CacheCopy
  deriving DecidableEq, Repr

inductive CacheRead where
  | raised
  | absent
  | held (copy : CacheCopy)
  deriving DecidableEq, Repr

/- `_minted_terminal`: closed, with a terminal in its history that the engine minted. -/
def CacheCopy.mintedTerminal (c : CacheCopy) : Bool :=
  c.isClosed && c.events.any fun (name, minted) => minted && terminalNames.contains name

structure OrderEvent where
  name : EventName
  clientOrderId : OrderId
  venueOrderId : Option OrderId := none
  symbol : Pair
  reason : Option String := none
  reconciliation : Bool := false
  duePostOnly : Bool := false
  lastQty : ℚ := 0
  lastPx : ℚ := 0
  commission : Option (ℚ × String) := none
  liquidity : String := "MAKER"
  tradeId : String := ""
  cached : CacheRead := .absent   -- `cache.order(event.client_order_id)` during the dispatch
  deriving DecidableEq, Repr

/- A terminal the execution engine minted rather than received. -/
def OrderEvent.isMint (ev : OrderEvent) : Bool := terminalNames.contains ev.name && ev.reconciliation

inductive Delivery where
  | own (ev : OrderEvent)
  | external (ev : OrderEvent)
  deriving DecidableEq, Repr

structure VenueReport where
  venueOrderId : OrderId
  filledQty : ℚ
  status : OrderStatus
  deriving DecidableEq, Repr

structure FillReport where
  venueOrderId : OrderId
  lastQty : ℚ
  deriving DecidableEq, Repr

structure InstrumentConstraints where
  ordermin : ℚ
  costmin : ℚ
  costminEur : Bool
  lotStep : ℚ
  tickSize : ℚ
  deriving DecidableEq, Repr

structure VenueState where
  instruments : Pair → Option InstrumentConstraints
  positions : Pair → ℚ
  freeZeur : Option ℚ

/- `balances`, `earn` and a record's closes are keyed by a base's EUR pair. -/
structure VenueBook where
  held : Pair → ℚ
  balances : Pair → ℚ
  earn : List (Pair × ℚ)
  eurTotal : ℚ
  eurFree : ℚ

def Pair.spot : Pair → Pair
  | .ethBtc => .ethEur
  | .solBtc => .solEur
  | p => p

def modelPairs : List Pair :=
  [.adaEur, .avaxEur, .btcEur, .dogeEur, .dotEur, .ethEur, .linkEur, .ltcEur, .solEur, .xrpEur]

structure CycleRecord where
  nav : Option ℚ
  closes : Pair → Option ℚ

structure Figures where
  nav : Option ℚ := none
  eurTotal : Option ℚ := none
  eurFree : Option ℚ := none
  equityEur : Option ℚ := none
  hwmEur : Option ℚ := none
  drawdownBps : Option ℚ := none
  dayLossBps : Option ℚ := none
  dayLossHold : Option Bool := none
  deriving DecidableEq, Repr

inductive DraftStatus where
  | ok | noCycle | bookUnread | windowClosed | refused
  deriving DecidableEq, Repr

structure DraftRecord where
  draftedAt : Int
  status : DraftStatus
  figures : Figures
  dayLossHold : Bool
  planId : Option PlanId
  deriving DecidableEq, Repr

structure PendingDraft where
  boundary : Int
  record : CycleRecord
  tries : Nat
  windowClose : Int
  mintedSeries : Bool := false
  marked : Option Figures := none

inductive Phase where
  | awaitingQuote | awaitingReprice | resting | cancelling | ioc | done
  deriving DecidableEq, Repr

/- `_ActiveIntent`. The order object is read for its client order id alone. -/
structure ActiveIntent where
  index : Nat
  intent : ProbeIntent
  constraints : InstrumentConstraints
  phase : Phase
  startedAt : Int
  quoteDeadline : Int
  timeboxAt : Int
  lastQuoteAt : Option Int := none
  bid : Option ℚ := none
  ask : Option ℚ := none
  reprices : Nat := 0
  iocAttempts : Nat := 0
  filled : ℚ := 0
  targetQty : ℚ := 0
  closeQty : Option ℚ := none
  reduceOnly : Bool := false
  positionBefore : ℚ := 0
  ownPositionBefore : ℚ := 0
  foreignFilled : ℚ := 0
  order : Option OrderId := none
  orderPayload : Option OrderPayload := none
  clientOrderId : Option OrderId := none
  orderQty : ℚ := 0
  orderFilled : ℚ := 0
  cancelRequested : Bool := false
  fallingBack : Bool := false
  revokeReasons : List String := []
  phaseDeadline : Option Int := none
  placedAt : Option Int := none
  holdExpired : Bool := false
  quoteSeq : Nat := 0
  pricedSeq : Nat := 0
  deriving DecidableEq, Repr

inductive PlanFile where
  | plan (p : ProbePlan)
  | unparseable (error : String)
  deriving DecidableEq, Repr

structure Config where
  armedInConfig : Bool
  maxPlanNotionalEur : Option ℚ
  accumulationEnabled : Bool
  trackingBand : Bool
  cacheEnabled : Bool

inductive DraftTable where
  | raised
  | absent
  | legs (intents : List ProbeIntent)

structure Env where
  config : Config
  depth : Nat                          -- how deep the adapter nests its deliveries
  dies : Nat → Bool                    -- the process ends at this answer
  clock : Nat → Int
  gate : Nat → GateReading
  storeFails : Nat → Bool              -- an exec record's write raises
  readFails : Nat → Bool
  fileFails : Nat → Bool               -- any other file operation raises
  during : Nat → List Delivery         -- delivered from inside a submit or cancel call
  submitRaises : Nat → Bool
  cancelRaises : Nat → Bool
  subscribeRaises : Nat → Bool
  mint : Nat → Option OrderId          -- `order_factory.limit`, its quantity and price made
  cacheInstrument : Nat → Option Bool
  ordersOpen : Nat → Option (List CacheOrder)
  ordersHeld : Nat → Option (List CacheOrder)
  inflight : Nat → Option Bool
  cacheOrder : Nat → OrderId → CacheRead
  cacheIndex : Nat → OrderId → Option (Option OrderId)
  ownPosition : Nat → Pair → Option ℚ
  venueState : Nat → Option VenueState
  venueOrders : Nat → Option (List VenueReport)
  venueFills : Nat → Option (List FillReport)
  venueCancelRaises : Nat → Bool
  venueBook : Nat → Option VenueBook
  venuePositions : Nat → Option (Pair → ℚ)
  cycleRecord : Nat → Int → Option (Option CycleRecord)
  draftTable : Nat → DraftTable
  weekBreach : Nat → Option String

/- One submission, with the folded verdict, the holds and the disk it was sent under. -/
structure Submission where
  boundary : Int
  row : Row
  verdict : GateVerdict
  ledger : Ledger
  frozen : Bool
  unread : Bool
  killTripped : Bool
  targetQty : ℚ
  filled : ℚ

structure Sockets where
  socketsDown : List (String × Int) := []
  rereadTries : Nat := 0
  rereadArmedBy : Option String := none
  rereadOwed : Bool := false
  socketsEmptiedAt : Option Int := none
  rereadCompletedAt : Option Int := none
  frozen : Bool := false
  frozenAt : Option Int := none

structure Startup where
  adopted : Bool := false
  restored : List (OrderId × Option OrderId) := []
  restoredUnread : Bool := false
  marked : List (OrderId × String) := []
  answered : List OrderId := []
  restoredFills : List OrderId := []
  rowsThePassRepaired : List OrderId := []
  venueFillsRead : Option (List FillReport) := none
  venueFillsFailed : Bool := false
  venueFillsFloor : Option Int := none

/- One lift of the freeze, with what it was decided on. -/
structure Lift where
  sockets : Sockets
  gateArmed : Bool
  startup : Startup
  ledger : Ledger

inductive Effect where
  | started
  | evaluated (v : GateVerdict)
  | rowWritten (b : Int) (row : Row)
  | sent (x : Submission)
  | cancelSent (c : OrderId)
  | latched (found : Option String)                 -- the kill file it was set over
  | planAccepted (p : ProbePlan) (b : Int) (acceptedAt : Int) (cycle : Option Int)
  | planEnded (planId : PlanId)
  | armed (planId : PlanId) (index : Nat)
  | pulled (planId : Option PlanId) (index : Nat)
  | journaled (planId : PlanId) (index : Nat) (outcome : IntentOutcome)
  | storeFailed
  | dispatched (ev : OrderEvent) (live : Bool) (ctx : ActiveIntent) (diverges : Bool)
  | submitReturned (c : OrderId)
  | froze
  | lifted (x : Lift)
  | emptied (asks : Nat) (at_ : Int)                -- no endpoint is down any more
  | reread (began ended : Nat) (completedAt : Int)  -- a re-read pass settled

structure Disk where
  ledger : Ledger
  killFile : Option String
  planFile : Option PlanFile
  drafts : List (Int × DraftRecord)
  seriesStart : Option Int

structure Holds where
  gateEvaluatedAt : Int
  gateArmed : Bool := false
  reconciliationRefusal : Option String := none
  dayLossHold : Bool := false
  dayLossHoldDerived : Bool := false

/- The plan and the intent in flight. -/
structure Running where
  plan : Option ProbePlan := none
  planCycleTs : Option Int := none
  planWindowClose : Option Int := none
  index : Nat := 0
  live : Bool := false                 -- `_active` is not None
  ctx : ActiveIntent                   -- the object `_active` names or last named
  resolvedNotional : List (Nat × ℚ) := []

/- The rows this process holds, by reference. -/
structure Desk where
  mem : Nat → Row
  memNext : Nat := 0
  attached : OrderId → Option (Int × Nat) := fun _ => none
  attachedByVenue : OrderId → Option (Int × Nat) := fun _ => none

structure Drafting where
  pendingDraft : Option PendingDraft := none
  draftRearmChecked : Bool := false
  venueBook : Option VenueBook := none

structure St where
  disk : Disk
  sockets : Sockets
  holds : Holds
  run : Running
  desk : Desk
  startup : Startup
  drafting : Drafting
  killTripped : Bool
  asks : Nat
  trace : List Effect                  -- newest first

abbrev M (α : Type) := Prog Env St α

/- Every answer is also where the process may end. -/
def ask {α : Type} (f : Env → Nat → α) : M α := fun e s =>
  (if e.dies s.asks then .died else .ok (f e s.asks), { s with asks := s.asks + 1 })

def emit (x : Effect) : M Unit := modify fun s => { s with trace := x :: s.trace }

def now : M Int := ask Env.clock

def setCtx (f : ActiveIntent → ActiveIntent) : M Unit :=
  modify fun s => { s with run.ctx := f s.run.ctx }

def ctx : M ActiveIntent := gets fun s => s.run.ctx

/- A mutator of the exec ledger: it reads, changes and stores, or raises with the
   disk as it was. -/
def commit (change : Ledger → Option Ledger) : M Unit := do
  let fails ← ask Env.storeFails
  if fails then do
    emit .storeFailed
    raise
  else do
    let s ← get
    let l ← orRaise (change s.disk.ledger)
    modify fun s => { s with disk.ledger := l }

/- A scan of the exec ledger. -/
def scan {α : Type} (f : Ledger → Option α) : M α := do
  let fails ← ask Env.readFails
  if fails then raise
  else do
    let s ← get
    orRaise (f s.disk.ledger)

def alloc (row : Row) : M Nat := do
  let s ← get
  modify fun s => { s with
    desk.mem := Function.update s.desk.mem s.desk.memNext row
    desk.memNext := s.desk.memNext + 1 }
  pure s.desk.memNext

def setRow (ref : Nat) (f : Row → Row) : M Unit := modify fun s => { s with
  desk.mem := Function.update s.desk.mem ref (f (s.desk.mem ref)) }

def rowAt (ref : Nat) : M Row := gets fun s => s.desk.mem ref

section
variable {e : Env} {s : St}

@[simp] theorem wp_ask {α : Type} (f : Env → Nat → α) {Q : Post St α} :
    wp e (ask f) Q s ↔
      if e.dies s.asks then Q.died { s with asks := s.asks + 1 }
      else Q.ok (f e s.asks) { s with asks := s.asks + 1 } := by
  unfold wp ask
  cases e.dies s.asks <;> rfl

@[simp] theorem wp_now {Q : Post St Int} :
    wp e now Q s ↔
      if e.dies s.asks then Q.died { s with asks := s.asks + 1 }
      else Q.ok (e.clock s.asks) { s with asks := s.asks + 1 } :=
  wp_ask Env.clock

@[simp] theorem wp_emit (x : Effect) {Q : Post St Unit} :
    wp e (emit x) Q s ↔ Q.ok () { s with trace := x :: s.trace } := Iff.rfl

@[simp] theorem wp_setCtx (f : ActiveIntent → ActiveIntent) {Q : Post St Unit} :
    wp e (setCtx f) Q s ↔ Q.ok () { s with run.ctx := f s.run.ctx } := Iff.rfl

@[simp] theorem wp_ctx {Q : Post St ActiveIntent} : wp e ctx Q s ↔ Q.ok s.run.ctx s := Iff.rfl

@[simp] theorem wp_rowAt (ref : Nat) {Q : Post St Row} :
    wp e (rowAt ref) Q s ↔ Q.ok (s.desk.mem ref) s := Iff.rfl

end

/- The client's submit or cancel call: what the adapter delivers from inside it is
   dispatched before it returns or raises. -/
def callVenue (raises : Env → Nat → Bool) (deliver : Delivery → M Unit) (ds : List Delivery) :
    M Unit := do
  forEach ds deliver
  let r ← ask raises
  if r then raise else pure ()

end Controller
