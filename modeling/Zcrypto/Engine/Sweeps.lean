import Zcrypto.Engine.OrderEvents

/- The passes that compare the ledger with the venue: the startup pass, the re-read
   pass behind a socket's return or a minted terminal, and the socket watchdog whose
   freeze waits on it. -/
namespace Sweeps
open ProbePlans ExecGate ExecLedger Effects Effects.Prog Controller Orders OrderEvents

def socketDownGrace : Int := 30 * second

abbrev VenueOrders := Option (List VenueReport)

/- A report list read as a mapping by txid: a later report takes an earlier one's place. -/
def reportFor (reports : List VenueReport) (id : OrderId) : Option VenueReport :=
  reports.reverse.find? fun r => r.venueOrderId = id

def VenueOrders.reportOf (orders : VenueOrders) (venueOrderId : Option OrderId) :
    Option VenueReport :=
  orders.bind fun reports => venueOrderId.bind (reportFor reports)

def insertKeyed (rows : List (Int × Row)) (e : Int × Row) : List (Int × Row) :=
  if rows.any fun x => x.2.clientOrderId = e.2.clientOrderId then
    rows.map fun x => if x.2.clientOrderId = e.2.clientOrderId then e else x
  else rows ++ [e]

/- A row list read as a mapping by client order id: a repeated key keeps its first
   place and takes its last row. -/
def keyed (rows : List (Int × Row)) : List (Int × Row) := rows.foldl insertKeyed []

/- The rows a pass holds, each an object of this process from here on. -/
def load (rows : List (Int × Row)) : M (List (Int × Nat)) :=
  collect rows fun (b, row) => do
    let ref ← alloc row
    pure (b, ref)

/- A scan of the ledger that answers none where it raises. -/
def tryScan {α : Type} (f : Ledger → Option α) : M (Option α) :=
  attempt (do
    let found ← scan f
    pure (some found)) (pure none)

-- the venue's book and its reads

/- `_settle_positions_from_venue`: the book is kept, and the gauge is telemetry. -/
def settlePositionsFromVenue : M Bool := do
  let read ← ask Env.venueBook
  match read with
  | none => pure false
  | some book => do
    modify fun s => { s with drafting.venueBook := some book }
    pure true

/- `_reset_fills_read` -/
def resetFillsRead (entries : List (Int × Nat)) : M Unit := modify fun s => { s with
  startup.venueFillsRead := none, startup.venueFillsFailed := false
  startup.venueFillsFloor := (entries.map Prod.fst).min? }

/- The pass's one read of the trade history, kept for its rows; a failed one is not repeated. -/
def readFills : M (Option (List FillReport)) := do
  let s ← get
  if s.startup.venueFillsFailed then pure none
  else match s.startup.venueFillsRead with
  | some reports => pure (some reports)
  | none => do
    let read ← ask Env.venueFills
    modify fun s => { s with
      startup.venueFillsRead := read, startup.venueFillsFailed := read.isNone }
    pure read

/- `_trades_cover`: only a read history that covers the ledger answers true. -/
def tradesCover (venueOrderId : Option OrderId) (ledgered : ℚ) : M Bool :=
  match venueOrderId with
  | none => pure false
  | some id => do
    let reports ← readFills
    pure (reports.any fun rs => decide (ledgered - tolerance ≤
      ((rs.filter fun r => r.venueOrderId = id).map FillReport.lastQty).sum))

/- `_venue_answers`: whether the venue is asked over an order the Cache holds. -/
def venueAnswers (row : Row) (finished : Bool) : M Bool := do
  let enabled ← env fun e => e.config.cacheEnabled
  let s ← get
  pure (enabled && (finished || St.restoredRow s row))

def needsVenue (finished : Bool) (ref : Nat) : M Bool := do
  let row ← rowAt ref
  let s ← get
  let venueOrderId := St.readId s row
  if finished ∧ ¬tolerance < row.filledQty ∧ ¬St.restoredRow s row then pure false
  else if venueOrderId = none then pure false
  else do
    let asks ← venueAnswers row finished
    if asks then pure true
    else do
      let order ← cachedOrder row venueOrderId
      pure order.isNone

def anyNeedsVenue (finished : Bool) (rows : List (Int × Nat)) : M Bool := do
  let asks ← collect rows fun (_, ref) => attempt (needsVenue finished ref) (pure false)
  pure (asks.any id)

/- `_read_venue_orders`: no read when no row needs one, and a failed read is a refusal
   of every plan of this process. -/
def readVenueOrders (rows finished : List (Int × Nat)) : M VenueOrders := do
  let openRows ← anyNeedsVenue false rows
  let closedRows ← anyNeedsVenue true finished
  if openRows || closedRows then do
    let read ← ask Env.venueOrders
    match read with
    | some reports => pure (some reports)
    | none => do
      modify fun s => { s with
        holds.reconciliationRefusal := some "the startup could not read the venue's orders" }
      pure none
  else pure (some [])

-- one row against the venue

/- `_attach` -/
def attach (entry : Int × Nat) (ids : List OrderId) (venueOrderId : Option OrderId) : M Unit :=
  modify fun s => { s with
    desk.attached := ids.foldl (fun m c => Function.update m c (some entry)) s.desk.attached
    desk.attachedByVenue := venueOrderId.elim s.desk.attachedByVenue fun v =>
      Function.update s.desk.attachedByVenue v (some entry) }

/- The repair of a row up to the venue's figure: a `reconciled` line, and the mirror whether
   or not the line was stored. -/
def repair (b : Int) (ref : Nat) (delta venueFilled : ℚ) : M Unit := do
  let row ← rowAt ref
  let t ← now
  attempt (commit (updateSubmittedRow b row.clientOrderId
    { event := some (.reconciled t delta venueFilled), addFilledQty := delta })) (pure ())
  creditRow ref delta

/- A row's state as the venue reports it, with the mirror as above. -/
def restate (b : Int) (ref : Nat) (state : RowState) : M Unit := do
  let row ← rowAt ref
  attempt (commit (updateSubmittedRow b row.clientOrderId { state := some state })) (pure ())
  setRow ref fun row => { row with state }

/- `_reconcile_adopted_row`: answers whether the venue vouches for the row's figure now.
   Each write carries its own `try`, so a failed one never stands before a trip. -/
def reconcileAdoptedRow (deliver : Delivery → M Unit) (b : Int) (ref : Nat) (venueFilled : ℚ)
    (status : OrderStatus) (orderId venueOrderId : Option OrderId) : M Bool := do
  let row ← rowAt ref
  let delta := venueFilled - row.filledQty
  let repairs := decide (tolerance < delta)
  when repairs (repair b ref delta venueFilled)
  let overshoots := repairs && decide (row.ordered + tolerance < row.filledQty + delta)
  let completes := repairs && !overshoots && decide (row.state ≠ .filled) &&
    decide (row.ordered - tolerance ≤ row.filledQty + delta)
  forSome (status.terminalState.or (if completes then some .filled else none)) (restate b ref)
  attach (b, ref) (row.clientOrderId :: orderId.toList) venueOrderId
  if delta < -tolerance then do
    let covered ← tradesCover venueOrderId row.filledQty
    if covered then do
      modify fun s => { s with
        startup.rowsThePassRepaired := row.clientOrderId :: s.startup.rowsThePassRepaired }
      pure true
    else do
      tripKill deliver ("adopted order " ++ row.clientOrderId ++
        " shows less filled at the venue than this engine has already recorded")
      pure false
  else do
    when overshoots (tripKill deliver ("adopted order " ++ row.clientOrderId ++
      " shows more filled at the venue than the ledger says it was submitted for"))
    pure true

/- `_reconcile_finished_row`: one direction, a figure the venue reports under the row's. -/
def reconcileFinishedRow (deliver : Delivery → M Unit) (b : Int) (ref : Nat) (venueFilled : ℚ)
    (venueOrderId : Option OrderId) : M Bool := do
  let row ← rowAt ref
  if row.filledQty - tolerance ≤ venueFilled then pure true
  else do
    let covered ← tradesCover venueOrderId row.filledQty
    if covered then pure true
    else do
      let t ← now
      attempt (commit (updateSubmittedRow b row.clientOrderId
        { event := some (.withdrawn t (venueFilled - row.filledQty) venueFilled) })) (pure ())
      tripKill deliver ("order " ++ row.clientOrderId ++
        " shows less filled at the venue than this engine recorded and closed it on")
      pure false

/- `_mark_unmatched`: the event once for its text, and the state on an open row alone. -/
def markUnmatched (b : Int) (ref : Nat) (venueOrderId : Option OrderId) : M Unit := do
  let row ← rowAt ref
  let what := markWhat row venueOrderId
  modify fun s => { s with startup.marked := (row.clientOrderId, what) :: s.startup.marked }
  when (row.markedUnmatched what = false) (do
    let t ← now
    commit (updateSubmittedRow b row.clientOrderId
      { state := if row.state.isOpen then some .ambiguous else none
        event := some (.ambiguous t what) })
    when row.state.isOpen (setRow ref fun row => { row with state := .ambiguous }))

/- `_recancel`: the report's repair first, then the cancel by txid on the bare client. -/
def recancel (deliver : Delivery → M Unit) (b : Int) (ref : Nat) (venueOrderId : OrderId)
    (report : VenueReport) (orderId : Option OrderId) : M Bool := do
  let answered ← reconcileAdoptedRow deliver b ref report.filledQty report.status orderId
    (some venueOrderId)
  let refused ← ask Env.venueCancelRaises
  when (refused = false) (attempt (do
    let t ← now
    let row ← rowAt ref
    commit (updateSubmittedRow b row.clientOrderId
      { state := some .canceled, event := some (.recancelled t venueOrderId) })
    setRow ref fun row => { row with state := .canceled }) (pure ()))
  pure answered

-- the sweeps

def discardRestoredFill (c : OrderId) : M Unit := modify fun s => { s with
  startup.restoredFills := s.startup.restoredFills.filter (· ≠ c) }

/- A restored row the venue's report answered for. -/
def answerRestored (b : Int) (ref : Nat) (c : OrderId) (answered settles : Bool) : M Unit := do
  answer c answered
  when settles (do
    discardRestoredFill c
    settleRestoredIntent b ref)

/- An open row no report answered for, or one the venue's report alone answers for. -/
def adoptedFromVenue (deliver : Delivery → M Unit) (recancels : Bool) (b : Int) (ref : Nat)
    (venueOrderId : Option OrderId) (report : Option VenueReport) : M Unit := do
  let row ← rowAt ref
  let s ← get
  match report with
  | none => markUnmatched b ref venueOrderId
  | some r => do
    let restored := St.restoredRow s row
    let held ← (if recancels || restored then cacheLookup row venueOrderId else pure none)
    let orderId := held.map CacheOrder.clientOrderId
    when recancels (modify fun s => { s with
      startup.rowsThePassRepaired := row.clientOrderId :: s.startup.rowsThePassRepaired })
    let answered ← (if recancels ∧ r.status.terminalState = none
      then recancel deliver b ref r.venueOrderId r orderId
      else reconcileAdoptedRow deliver b ref r.filledQty r.status orderId venueOrderId)
    when restored (answerRestored b ref row.clientOrderId answered recancels)

/- One row of `_reconcile_adopted_rows`: the venue's report over a restored copy, else
   the Cache's order, else the report, else a mark. -/
def adoptedRow (deliver : Delivery → M Unit) (orders : VenueOrders) (recancels : Bool)
    (b : Int) (ref : Nat) : M Unit := do
  let row ← rowAt ref
  let s ← get
  let venueOrderId := St.readId s row
  let order ← cachedOrder row venueOrderId
  let report := orders.reportOf venueOrderId
  let asks ← venueAnswers row false
  match order, asks, report with
  | some o, true, some r => do
    let answered ← reconcileAdoptedRow deliver b ref r.filledQty r.status
      (some o.clientOrderId) venueOrderId
    answerRestored b ref row.clientOrderId answered recancels
  | some o, false, _ => do
    let _ ← reconcileAdoptedRow deliver b ref o.copy.filledQty o.copy.status
      (some o.clientOrderId) (venueOrderId.or o.copy.venueOrderId)
    pure ()
  | _, _, report =>
    -- the read failed: unread, not unknowable, and every plan is refused
    when (¬(venueOrderId.isSome ∧ orders.isNone))
      (adoptedFromVenue deliver recancels b ref venueOrderId report)

/- A finished row the venue is asked over. -/
def finishedFromVenue (deliver : Delivery → M Unit) (b : Int) (ref : Nat)
    (venueOrderId : Option OrderId) (report : Option VenueReport) : M Unit := do
  let row ← rowAt ref
  let s ← get
  match report with
  | none => markUnmatched b ref venueOrderId
  | some r =>
    if St.restoredRow s row then do
      let answered ← (if row.filledQty + tolerance < r.filledQty then do
          let held ← cacheLookup row venueOrderId
          reconcileAdoptedRow deliver b ref r.filledQty r.status
            (held.map CacheOrder.clientOrderId) venueOrderId
        else reconcileFinishedRow deliver b ref r.filledQty venueOrderId)
      answer row.clientOrderId answered
    else do
      let _ ← reconcileFinishedRow deliver b ref r.filledQty venueOrderId
      pure ()

/- One row of `_reconcile_finished_rows`. -/
def finishedRow (deliver : Delivery → M Unit) (orders : VenueOrders) (b : Int) (ref : Nat) :
    M Unit := do
  let row ← rowAt ref
  let s ← get
  let restored := St.restoredRow s row
  let venueOrderId := St.readId s row
  when (tolerance < row.filledQty ∨ (restored ∧ venueOrderId.isSome)) (do
    let order ← (if restored then pure none else cachedOrder row venueOrderId)
    let asks ← venueAnswers row true
    match order.filter fun _ => venueOrderId.isNone || !asks with
    | some o => do
      let _ ← reconcileFinishedRow deliver b ref o.copy.filledQty venueOrderId
      pure ()
    | none =>
      when (¬(venueOrderId.isSome ∧ orders.isNone))
        (finishedFromVenue deliver b ref venueOrderId (orders.reportOf venueOrderId)))

/- `_reconcile_adopted_rows`: one row's failure costs only that row. -/
def reconcileAdoptedRows (deliver : Delivery → M Unit) (rows : List (Int × Nat))
    (orders : VenueOrders) (recancels : Bool) : M Unit :=
  forEach rows fun (b, ref) => attempt (adoptedRow deliver orders recancels b ref) (pure ())

/- `_reconcile_finished_rows` -/
def reconcileFinishedRows (deliver : Delivery → M Unit) (rows : List (Int × Nat))
    (orders : VenueOrders) : M Unit :=
  forEach rows fun (b, ref) => attempt (finishedRow deliver orders b ref) (pure ())

-- the pending intents

/- What the window's rows of one intent say of it. -/
structure Evidence where
  ran : Bool
  filled : ℚ
  ordered : ℚ
  left : Bool

def evidence (s : St) (rows : List Row) (cancelled : List OrderId) (planId : PlanId) (index : Nat) :
    Evidence :=
  let own := rows.filter fun row => row.planId = planId ∧ row.intentIndex = index
  { ran := !own.isEmpty
    filled := (own.map Row.filledQty).sum
    ordered := (own.map Row.ordered).foldl max 0
    left := own.any fun row =>
      (row.state.isOpen && !cancelled.contains row.clientOrderId) ||
        (St.restoredRow s row && !s.startup.answered.contains row.clientOrderId) }

def Evidence.outcome (e : Evidence) : IntentOutcome × List String :=
  if e.ran then
    if 0 < e.ordered ∧ e.ordered - tolerance ≤ e.filled then (.filled, [])
    else (.revoked, ["the engine restarted while the intent was in flight"])
  else (.refused, ["not run -- the engine restarted before it ran"])

/- `_settle_pending_intents` -/
def settlePendingIntents (t : Int) (refs : List Nat) (cancelled : List OrderId)
    (orders : VenueOrders) (ledgerRead : Bool) : M Unit := do
  let s ← get
  when (orders.isSome ∧ ledgerRead ∧ s.killTripped = false) (do
    let read ← tryScan (pendingPlanIntents t none)
    forSome read fun pending => forEach pending fun (b, planId, index) => do
      let s ← get
      let e := evidence s (refs.map s.desk.mem) cancelled planId index
      when (e.left = false) (writeIntent b planId index e.outcome e.filled))

-- the startup pass

/- The row an order of the Cache belongs to: by its own id, then by its txid. -/
def entryOf (s : St) (rows : List (Int × Nat)) (o : CacheOrder) : Option (Int × Nat) :=
  (rows.find? fun e => (s.desk.mem e.2).clientOrderId = o.clientOrderId).orElse fun _ =>
    o.copy.venueOrderId.bind fun v =>
      rows.reverse.find? fun e => (s.desk.mem e.2).venueOrderId = some v

/- One resting order: its row attached, then the order kept as a ledgered reducer,
   left to the venue's closed report, or cancelled. Answers the row a sent cancel names. -/
def classify (deliver : Delivery → M Unit) (rows : List (Int × Nat)) (orders : VenueOrders)
    (cancelAll : Bool) (o : CacheOrder) : M (Option OrderId) := do
  let s ← get
  let entry := entryOf s rows o
  forSome entry fun entry => attach entry [o.clientOrderId] o.copy.venueOrderId
  let row := entry.map fun e => s.desk.mem e.2
  let ended := (orders.reportOf o.copy.venueOrderId).any fun r => r.status.terminalState.isSome
  if s.startup.restored.any (fun e => e.1 = o.clientOrderId) ∧ ended then pure none
  else if row.any (fun row => row.order.reduceOnly) ∧ cancelAll = false then pure none
  else
    attempt (do
      requestCancel deliver o.clientOrderId
      pure (row.map Row.clientOrderId)) (pure none)

/- The keep-or-cancel of the orders resting at the start. Cancelling everything is the
   gate's own level's call, never the folded one's. -/
def classifyAll (deliver : Delivery → M Unit) (t : Int) (rows : List (Int × Nat))
    (orders : VenueOrders) (resting : List CacheOrder) : M (List OrderId) := do
  let _ ← evaluate t
  let r ← ask Env.gate
  let armed ← env fun e => e.config.armedInConfig
  let s ← get
  let own := ExecGate.evaluate armed s.disk.killFile.isSome r
  let sent ← collect resting (classify deliver rows orders (decide (own.level = .none)))
  pure (sent.filterMap id)

/- `_adopt_resting_orders` -/
def adoptRestingOrders (deliver : Delivery → M Unit) (t : Int) : M Unit := do
  let read ← ask Env.ordersOpen
  forSome read fun resting => do
    modify fun s => { s with startup.adopted := true }
    let windows ← tryScan fun l => do
      let openRows ← openSubmittedRows t none l
      let closedRows ← closedSubmittedRows t none l
      pure (openRows, closedRows)
    let rows ← load (keyed ((windows.map Prod.fst).getD []))
    let finished ← load (keyed ((windows.map Prod.snd).getD []))
    resetFillsRead (rows ++ finished)
    let orders ← readVenueOrders rows finished
    let _ ← settlePositionsFromVenue
    reconcileAdoptedRows deliver rows orders false
    reconcileFinishedRows deliver finished orders
    let cancelled ← (if resting.isEmpty then pure []
      else classifyAll deliver t rows orders resting)
    settlePendingIntents t ((rows ++ finished).map Prod.snd) cancelled orders windows.isSome

/- `_read_restored`: the orders the Cache held at construction, attached to their rows. -/
def readRestored : M Unit := do
  let held ← ask Env.ordersHeld
  match held with
  | none => modify fun s => { s with
      startup.restoredUnread := true
      holds.reconciliationRefusal := some "the restored orders could not be read at start" }
  | some orders => do
    modify fun s => { s with
      startup.restored := orders.map fun o => (o.clientOrderId, o.copy.venueOrderId) }
    when (orders ≠ []) (do
      let t ← now
      let read ← tryScan (openSubmittedRows t none)
      forSome read fun rows => do
        let entries ← load (keyed rows)
        forEach orders fun o => do
          let s ← get
          forSome (entryOf s entries o) fun entry =>
            attach entry [o.clientOrderId] o.copy.venueOrderId)

-- the re-read pass

/- `_nothing_in_flight` -/
def nothingInFlight : M Bool := do
  let s ← get
  if s.run.live then pure false
  else do
    let read ← ask Env.inflight
    pure (read == some false)

/- `_minted_closed`: a Cache that cannot be read answers no. -/
def mintedClosed (row : Row) : M Bool := do
  let s ← get
  attempt (do
    let order ← cacheLookup row (St.readId s row)
    pure (order.any fun o => o.copy.mintedTerminal)) (pure false)

/- `_marked_here` -/
def St.markedHere (s : St) (row : Row) : Bool :=
  s.startup.marked.contains (row.clientOrderId, markWhat row (St.readId s row))

/- The open rows the pass reads: a minted terminal closed the Cache's order, or a fill reached
   a restored row, and no sweep of this process marked the row. -/
def mintedRows (rows : List (Int × Row)) : M (List (Int × Row)) := do
  let found ← collect rows fun (b, row) => do
    let minted ← mintedClosed row
    let s ← get
    pure (if (minted || s.startup.restoredFills.contains row.clientOrderId) &&
      !St.markedHere s row then some (b, row) else none)
  pure (found.filterMap id)

/- What the pass reads, before it moves anything: its rows, and the venue's orders where it
   has a row to read for. -/
def readForPass (t : Int) : M (List (Int × Nat) × List VenueReport) := do
  let s ← get
  let openRows ← scan (openSubmittedRows t s.sockets.frozenAt)
  let minted ← mintedRows openRows
  let closedRows ← scan (closedSubmittedRows t s.sockets.frozenAt)
  let s ← get
  let closed := closedRows.filter fun e =>
    s.startup.restoredFills.contains e.2.clientOrderId && !St.markedHere s e.2
  let rows ← load (keyed (minted ++ closed))
  resetFillsRead rows
  if rows.isEmpty then pure (rows, [])
  else do
    let answered ← ask Env.venueOrders
    let reports ← orRaise answered
    pure (rows, reports)

/- The pass settled: the completion that the freeze lifts on. -/
def settled (began : Nat) : M Unit := do
  let done ← now
  modify fun s => { s with
    sockets.rereadTries := 0, sockets.rereadCompletedAt := some done
    trace := .reread began s.asks done :: s.trace }

/- `_reread_pass`, from the number of answers it began at. -/
def rereadFrom (deliver : Delivery → M Unit) (t : Int) (began : Nat) : M Unit := do
  modify fun s => { s with sockets.rereadArmedBy := none }
  let read ← attempt (do
    let found ← readForPass t
    pure (some found)) (pure none)
  match read with
  | none => modify fun s => { s with
      sockets.rereadTries := if s.sockets.socketsDown = [] then s.sockets.rereadTries - 1 else 0 }
  | some (rows, reports) => do
    reconcileAdoptedRows deliver rows (some reports) true
    let answered ← settlePositionsFromVenue
    if answered then settled began
    else modify fun s => { s with sockets.rereadTries := s.sockets.rereadTries - 1 }

def rereadPass (deliver : Delivery → M Unit) (t : Int) : M Unit := do
  let began ← gets St.asks
  rereadFrom deliver t began

-- the sockets

/- `_stranded_rows`: whether a disarmed engine's lift waits on a row. -/
def strandedRows : M Bool := do
  let s ← get
  let t ← now
  let read ← tryScan (openSubmittedRows t s.sockets.frozenAt)
  match read with
  | none => pure true
  | some rows => pure (rows.any fun e => !St.markedHere s e.2)

def lift : M Unit := modify fun s => { s with
  sockets.frozen := false, sockets.frozenAt := none
  trace := .lifted
    { sockets := s.sockets, gateArmed := s.holds.gateArmed, startup := s.startup
      ledger := s.disk.ledger } :: s.trace }

/- `_lift_freeze` -/
def liftFreeze : M Unit := do
  let s ← get
  when (s.sockets.frozen ∧ s.sockets.socketsDown = []) (
    forSome s.sockets.socketsEmptiedAt fun emptied =>
      if s.sockets.rereadOwed ∧ s.holds.gateArmed = false then do
        let stranded ← strandedRows
        when (stranded = false) lift
      else forSome s.sockets.rereadCompletedAt fun completed => when (emptied ≤ completed) lift)

def St.isDown (s : St) (endpoint : String) : Bool :=
  s.sockets.socketsDown.any fun e => e.1 = endpoint

/- A `CONNECTED` of an endpoint held down. -/
def socketBack (endpoint : String) : M Unit := do
  modify fun s => { s with
    sockets.socketsDown := s.sockets.socketsDown.filter fun e => e.1 ≠ endpoint }
  let s ← get
  when (s.sockets.socketsDown = []) (do
    let t ← now
    modify fun s => { s with
      sockets.socketsEmptiedAt := some t, trace := .emptied s.asks t :: s.trace })
  modify fun s => { s with
    sockets.rereadArmedBy := some endpoint
    sockets.rereadTries := if s.holds.gateArmed then rereadAttempts else s.sockets.rereadTries
    sockets.rereadOwed := s.sockets.rereadOwed || !s.holds.gateArmed }
  when (s.holds.gateArmed = false) liftFreeze

/- A `DISCONNECTED`: a repeated drop keeps the first one's moment. -/
def socketDown (endpoint : String) : M Unit := do
  let t ← now
  modify fun s => { s with
    sockets.socketsDown := if St.isDown s endpoint then s.sockets.socketsDown
      else s.sockets.socketsDown ++ [(endpoint, t)] }
  let s ← get
  when (s.sockets.rereadArmedBy = none ∨ s.sockets.rereadArmedBy = some endpoint)
    (modify fun s => { s with
      sockets.rereadTries := 0, sockets.rereadOwed := false, sockets.rereadArmedBy := none })

/- `on_socket_state` -/
def onSocketState (endpoint : String) (connected : Bool) : M Unit := do
  let s ← get
  if connected then when (St.isDown s endpoint) (socketBack endpoint)
  else socketDown endpoint

/- The freeze's cancels, and the pull of a resting intent the sweep has just cancelled. -/
def freeze (deliver : Delivery → M Unit) : M Unit := do
  let t ← now
  let s ← get
  modify fun s => { s with
    sockets.frozen := true, sockets.frozenAt := some t, trace := .froze :: s.trace }
  cancelResting deliver s.run.live
  let a ← ctx
  when (s.run.live ∧ a.phase = .resting) (do
    setCtx fun a => { a with revokeReasons := ["socket_down"] }
    enter .cancelling)

/- `_watch_sockets` -/
def watchSockets (deliver : Delivery → M Unit) (t : Int) : M Unit :=
  attempt (do
    liftFreeze
    let s ← get
    when (s.sockets.frozen = false ∧ s.sockets.socketsDown.any fun e => socketDownGrace < t - e.2)
      (freeze deliver)) (pure ())

end Sweeps
