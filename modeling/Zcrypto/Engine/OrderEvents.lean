import Mathlib.Data.List.Infix
import Zcrypto.Engine.Orders

/- The handlers of the order events. A fill first meets the divergence trips. An
   event of the order in flight moves its intent, and any other event finds its row
   through the attachment maps. -/
namespace OrderEvents
open ProbePlans ExecGate ExecLedger Effects Effects.Prog Controller Orders

def postOnlyMarker : String := "POST_ONLY_REJECTED:"
def krakenErrorMarkers : List String := ["EOrder:", "EGeneral:", "EAccount:"]

def mentions (text marker : String) : Bool := decide (marker.toList <:+: text.toList)

-- the restored set and the Cache

def St.restoredRow (s : St) (row : Row) : Bool :=
  s.startup.restoredUnread || s.startup.restored.any (fun e => e.1 = row.clientOrderId) ||
    row.venueOrderId.any fun id => s.startup.restored.any fun e => e.1 = id

/- `_read_id` -/
def St.readId (s : St) (row : Row) : Option OrderId :=
  row.venueOrderId.orElse fun _ => (s.startup.restored.lookup row.clientOrderId).join

/- `_attached_for` -/
def St.attachedFor (s : St) (ev : OrderEvent) : Option (Int × Nat) :=
  (s.desk.attached ev.clientOrderId).orElse fun _ => ev.venueOrderId.bind s.desk.attachedByVenue

def cacheOrder (c : OrderId) : M (Option CacheOrder) := do
  let read ← ask fun e n => e.cacheOrder n c
  match read with
  | .raised => raise
  | .absent => pure none
  | .held copy => pure (some ⟨c, copy⟩)

/- `_cache_lookup`: by the id this engine minted, then by the txid the row recorded. -/
def cacheLookup (row : Row) (venueOrderId : Option OrderId) : M (Option CacheOrder) := do
  let byOwn ← cacheOrder row.clientOrderId
  match byOwn, venueOrderId with
  | none, some v => do
    let found ← ask fun e n => e.cacheIndex n v
    let named ← orRaise found
    match named with
    | none => pure none
    | some c => cacheOrder c
  | found, _ => pure found

/- `_cached_order`: an order a minted terminal closed answers nothing. -/
def cachedOrder (row : Row) (venueOrderId : Option OrderId) : M (Option CacheOrder) := do
  let found ← cacheLookup row venueOrderId
  pure (found.filter fun o => !o.copy.mintedTerminal)

def armRereadAfterMint : M Unit := modify fun s => { s with
  sockets.rereadTries := if s.sockets.socketsDown = [] then rereadAttempts
    else s.sockets.rereadTries }

/- `_answer` -/
def answer (c : OrderId) (answered : Bool) : M Unit := modify fun s => { s with
  startup.answered := if answered then c :: s.startup.answered else s.startup.answered.filter (· ≠ c) }

/- What a restored row's end says of its intent. -/
def restoredOutcome (row : Row) : IntentOutcome × List String :=
  if row.state = .filled then (.filled, [])
  else
    let kind := if row.order.reduceOnly then "kept reducer" else "restored opener"
    let how := if tolerance < row.filledQty then "partly filled" else "without filling"
    (.revoked, ["the " ++ kind ++ " ended " ++ how])

def readPending (since : Option Int) : M (Option (List (Int × PlanId × Nat))) :=
  attempt (do
    let t ← now
    let pending ← scan (pendingPlanIntents t since)
    pure (some pending)) (pure none)

/- A pending intent written outside the running plan, under its row's own boundary. -/
def writeIntent (b : Int) (planId : PlanId) (index : Nat) (o : IntentOutcome × List String)
    (filledQty : ℚ) : M Unit :=
  attempt (do
    commit (updatePlanIntent b planId index o.1 o.2 filledQty)
    emit (.journaled planId index o.1)) (pure ())

/- `_settle_restored_intent` -/
def settleRestoredIntent (b : Int) (ref : Nat) : M Unit := do
  let row ← rowAt ref
  let s ← get
  when (St.restoredRow s row ∧ row.state.isOpen = false ∧ row.clientOrderId ∈ s.startup.answered) (do
    let read ← readPending s.sockets.frozenAt
    forSome read fun pending =>
      when (pending.any fun x => x.2 = (row.planId, row.intentIndex))
        (writeIntent b row.planId row.intentIndex (restoredOutcome row) row.filledQty))

-- fills

/- What a fill adds to its row. A row the re-read pass repaired may hold the fill already. -/
def St.creditOf (s : St) (ev : OrderEvent) (row : Row) : ℚ :=
  if St.restoredRow s row then 0
  else if s.startup.rowsThePassRepaired.contains row.clientOrderId then
    match ev.cached with
    | .raised | .absent => ev.lastQty
    | .held copy =>
      let beyond := copy.filledQty - row.filledQty
      if ev.lastQty - tolerance ≤ beyond then ev.lastQty
      else max 0 (min ev.lastQty beyond)
  else ev.lastQty

/- `_fill_credit`: a restored row's fill is left to a re-read. -/
def fillCredit (ev : OrderEvent) (row : Row) : M ℚ := do
  let s ← get
  when (St.restoredRow s row) (do
    modify fun s => { s with
      startup.restoredFills := row.clientOrderId :: s.startup.restoredFills
      startup.answered := s.startup.answered.filter (· ≠ row.clientOrderId) }
    armRereadAfterMint)
  pure (St.creditOf s ev row)

/- `_fill_payload` -/
def fillPayload (ev : OrderEvent) (recordedAt : Int) (moved : Option ℚ) : RowEvent :=
  .fill
    { recordedAt, qty := ev.lastQty, px := ev.lastPx, fee := ev.commission.map Prod.fst
      feeCurrency := ev.commission.map Prod.snd, liquidity := ev.liquidity
      tradeId := ev.tradeId, venueOrderId := ev.venueOrderId
      credited := moved.filter (· ≠ ev.lastQty) }

/- `_claims`: whether a row's order belongs to the intent running now. -/
def St.claims (s : St) (row : Row) : Bool :=
  s.run.plan.any (fun p => p.planId = row.planId) && row.intentIndex = s.run.ctx.index

/- The two bounds a fill is tried against. -/
def overfillsRow (row : Row) (qty : ℚ) : Prop := row.ordered + tolerance < row.filledQty + qty

def St.overfillsIntent (s : St) (row : Row) (qty : ℚ) : Prop :=
  s.run.live ∧ St.claims s row ∧ s.run.ctx.targetQty + tolerance < s.run.ctx.filled + qty

instance (row : Row) (qty : ℚ) : Decidable (overfillsRow row qty) := inferInstanceAs (Decidable (_ < _))

instance (s : St) (row : Row) (qty : ℚ) : Decidable (St.overfillsIntent s row qty) :=
  inferInstanceAs (Decidable (_ ∧ _))

/- Whether a fill meets a divergence: no row of its order, or one past a bound. -/
def St.diverges (s : St) (ev : OrderEvent) : Bool :=
  match St.attachedFor s ev with
  | none => true
  | some (_, ref) =>
    let row := s.desk.mem ref
    let qty := St.creditOf s ev row
    overfillsRow row qty || St.overfillsIntent s row qty

theorem St.diverges_of_attached {s : St} {ev : OrderEvent} {b : Int} {ref : Nat}
    (attached : St.attachedFor s ev = some (b, ref)) :
    St.diverges s ev = false ↔ ¬overfillsRow (s.desk.mem ref) (St.creditOf s ev (s.desk.mem ref)) ∧
      ¬St.overfillsIntent s (s.desk.mem ref) (St.creditOf s ev (s.desk.mem ref)) := by
  simp [St.diverges, attached]

/- `_net_foreign_fill` -/
def netForeignFill (row : Row) (ev : OrderEvent) (qty : ℚ) : M Unit := do
  let s ← get
  when (ev.symbol = s.run.ctx.intent.symbol) (do
    let order ← attempt (cacheLookup row (St.readId s row)) (pure none)
    when (order.any fun o => o.copy.ownStrategy) (setCtx fun a => { a with
      foreignFilled := a.foreignFilled + if row.intent.side = .buy then qty else -qty }))

def creditRow (ref : Nat) (qty : ℚ) : M Unit :=
  setRow ref fun row => { row with filledQty := row.filledQty + qty }

def creditIntent (qty : ℚ) : M Unit := setCtx fun a => { a with filled := a.filled + qty }

/- `_record_trip_fill`: the quantities are credited whether or not the line was stored. -/
def recordTripFill (b : Int) (ref : Nat) (ev : OrderEvent) (qty : ℚ) : M Unit := do
  let row ← rowAt ref
  attempt (do
    let t ← now
    commit (updateSubmittedRow b row.clientOrderId
      { event := some (fillPayload ev t (some qty)), addFilledQty := qty })) (pure ())
  creditRow ref qty
  let s ← get
  when (s.run.live ∧ St.claims s row) (creditIntent qty)

/- `_mirror_row_fill` -/
def mirrorRowFill (c : OrderId) (qty : ℚ) : M Unit := do
  let s ← get
  forSome (s.desk.attached c) fun entry => creditRow entry.2 qty

/- `_trip_on_fill`: answers true when a divergence fired, and the event is then dropped. -/
def tripOnFill (deliver : Delivery → M Unit) (ev : OrderEvent) : M Bool := do
  let s ← get
  match St.attachedFor s ev with
  | none => do
    tripKill deliver ("a fill arrived for order " ++ ev.clientOrderId ++
      ", for which this engine holds no open order record")
    pure true
  | some (b, ref) => do
    let row ← rowAt ref
    let qty ← fillCredit ev row
    let s ← get
    if overfillsRow row qty then do
      recordTripFill b ref ev qty
      tripKill deliver ("order " ++ row.clientOrderId ++ " has now filled past its quantity")
      pure true
    else if St.overfillsIntent s row qty then do
      recordTripFill b ref ev qty
      tripKill deliver ("intent " ++ toString s.run.ctx.index ++ " has now filled more than it asked for")
      pure true
    else pure false

/- `_venue_terminal_state`: what a non-fill event writes, read off the venue's order. -/
def venueTerminalState (ev : OrderEvent) : M (Option RowState) :=
  if ev.isMint then do
    armRereadAfterMint
    pure (some .ambiguous)
  else if ev.name = .orderCancelRejected ∨ ev.name = .orderCancelDenied then pure none
  else
    match ev.cached with
    | .held copy => pure copy.status.terminalState
    | .raised | .absent => pure none

/- A row's terminal, written, mirrored and its restored intent settled. -/
def closeRow (b : Int) (ref : Nat) (state : RowState) : M Unit := do
  let row ← rowAt ref
  commit (updateSubmittedRow b row.clientOrderId { state := some state })
  setRow ref fun row => { row with state }
  settleRestoredIntent b ref

/- The once-only completion of a row its fills have filled. -/
def completeRow (b : Int) (ref : Nat) : M Unit := do
  let row ← rowAt ref
  when (row.state ≠ .filled ∧ row.ordered - tolerance ≤ row.filledQty) (closeRow b ref .filled)

/- A detached fill moves its row, and the running intent when the row is one of its own. -/
def creditDetached (ref : Nat) (row : Row) (ev : OrderEvent) (qty : ℚ) : M Unit := do
  creditRow ref qty
  let s ← get
  when s.run.live (if St.claims s row then creditIntent qty else netForeignFill row ev qty)

def detachedFill (b : Int) (ref : Nat) (ev : OrderEvent) : M Unit := do
  let row ← rowAt ref
  let qty ← fillCredit ev row
  let t ← now
  commit (updateSubmittedRow b row.clientOrderId
    { event := some (fillPayload ev t (some qty)), addFilledQty := qty })
  when (qty ≠ 0) (creditDetached ref row ev qty)
  let s ← get
  when (St.restoredRow s row) (completeRow b ref)

def detachedOther (b : Int) (ref : Nat) (ev : OrderEvent) : M Unit := do
  let row ← rowAt ref
  let t ← now
  when ev.isMint (do
    armRereadAfterMint
    answer row.clientOrderId false)
  commit (updateSubmittedRow b row.clientOrderId
    { event := some (.typed ev.name t none ev.isMint
        (if ev.name = .orderAccepted then some (ev.venueOrderId.getD "None") else none)) })
  let s ← get
  when (St.restoredRow s row ∧ row.state ≠ .filled) (do
    let terminal ← venueTerminalState ev
    forSome terminal (closeRow b ref))

/- `_on_detached_event`: an event of an order this process ledgered and is not running. -/
def onDetachedEvent (ev : OrderEvent) : M Unit := do
  let s ← get
  forSome (St.attachedFor s ev) fun (b, ref) =>
    if ev.name = .orderFilled then detachedFill b ref ev else detachedOther b ref ev

-- the order in flight

/- `_on_fill` -/
def onFill (deliver : Delivery → M Unit) (ev : OrderEvent) : M Unit := do
  setCtx fun a => { a with filled := a.filled + ev.lastQty, orderFilled := a.orderFilled + ev.lastQty }
  let t ← now
  let a ← ctx
  let orderDone := decide (a.orderQty - a.orderFilled < a.constraints.lotStep)
  updateRow { state := some (if orderDone then .filled else .accepted)
              event := some (fillPayload ev t none), addFilledQty := ev.lastQty }
  forSome a.clientOrderId fun c => mirrorRowFill c ev.lastQty
  when (ActiveIntent.complete a) (finishActive deliver (some .filled) [] a.filled)

/- `_on_rejected`: three verdicts, and only the first two say no order is live. -/
def onRejected (deliver : Delivery → M Unit) (ev : OrderEvent) (payload : RowEvent) : M Unit := do
  let reason := ev.reason.getD "None"
  if ev.duePostOnly || mentions reason postOnlyMarker then do
    updateRow { state := some .rejected, event := some payload }
    resubmitOnEvent deliver (reprice deliver)
  else if krakenErrorMarkers.any (mentions reason) then do
    updateRow { state := some .rejected, event := some payload }
    let a ← ctx
    finishActive deliver (some .rejected) [reason] a.filled
  else do
    updateRow { state := some .ambiguous, event := some payload }
    let a ← ctx
    let _ ← journalIntent a.index .ambiguous [reason] a.filled
    dropRemainderAfterAmbiguity

/- `_on_cancel_ack` -/
def onCancelAck (deliver : Delivery → M Unit) (payload : RowEvent) : M Unit := do
  let a ← ctx
  if a.cancelRequested then do
    updateRow { state := some .canceled, event := some payload }
    if a.fallingBack then resubmitOnEvent deliver (fallback deliver)
    else if a.intent.mode = .restCancel then
      finishActive deliver (some (if a.filled = 0 then .restCancelOk else .partially)) [] a.filled
    else if a.intent.mode = .restHold ∧ a.holdExpired then
      finishActive deliver (some (if a.filled = 0 then .restHoldExpired else .partially)) [] a.filled
    else finishRevoked deliver
  else do
    updateRow { state := some .venueCanceled, event := some payload }
    if a.phase = .ioc then resubmitOnEvent deliver (fallback deliver)
    else if a.intent.mode = .restHold then
      finishActive deliver (some (if a.filled = 0 then .restHoldVenueCanceled else .partially)) [] a.filled
    else resubmitOnEvent deliver (reprice deliver)

/- The rest of `_on_order_event`, for an event of the order in flight. -/
def onActiveEvent (deliver : Delivery → M Unit) (ev : OrderEvent) : M Unit := do
  let t ← now
  let payload : RowEvent := .typed ev.name t ev.reason ev.isMint
    (if ev.name = .orderAccepted then some (ev.venueOrderId.getD "None") else none)
  if ev.isMint then do
    updateRow { state := some .ambiguous, event := some payload }
    armRereadAfterMint
    strandAmbiguous "a terminal was reconciled, not received -- the venue never answered"
  else match ev.name with
  | .orderAccepted => do
    updateRow { state := some .accepted, event := some payload }
    let a ← ctx
    when (a.intent.mode = .restCancel) (do
      setCtx fun a => { a with cancelRequested := true }
      enter .cancelling
      cancel deliver)
  | .orderFilled => onFill deliver ev
  | .orderRejected => onRejected deliver ev payload
  | .orderDenied => do
    updateRow { state := some .rejected, event := some payload }
    let a ← ctx
    finishActive deliver (some .rejected) ev.reason.toList a.filled
  | .orderCanceled | .orderExpired => onCancelAck deliver payload
  | .orderCancelRejected | .orderCancelDenied => do
    updateRow { event := some payload }
    let refusal := if ev.name = .orderCancelDenied then "cancel denied before it was sent"
      else "cancel rejected"
    let a ← ctx
    let _ ← journalIntent a.index .ambiguous [refusal ++ ": " ++ ev.reason.getD "None"] a.filled
    dropRemainderAfterAmbiguity
  | .other _ => updateRow { event := some payload }

/- `_on_order_event`: the fill-time trips first, then the in-flight or the detached path. -/
def dispatch (deliver : Delivery → M Unit) (ev : OrderEvent) : M Unit := do
  let tripped ← (if ev.name = .orderFilled then tripOnFill deliver ev else pure false)
  when (tripped = false) (do
    let s ← get
    if s.run.live ∧ s.run.ctx.clientOrderId = some ev.clientOrderId then onActiveEvent deliver ev
    else onDetachedEvent ev)

/- The trace keeps each dispatch with the intent and the divergence it met. -/
def orderEvent (deliver : Delivery → M Unit) (ev : OrderEvent) : M Unit := do
  let s ← get
  emit (.dispatched ev s.run.live s.run.ctx (ev.name = .orderFilled && St.diverges s ev))
  dispatch deliver ev

def onOrderEvent (deliver : Delivery → M Unit) (ev : OrderEvent) : M Unit :=
  attempt (orderEvent deliver ev) (pure ())

def externalFill (deliver : Delivery → M Unit) (b : Int) (ref : Nat) (ev : OrderEvent) :
    M Unit := do
  let tripped ← tripOnFill deliver ev
  when (tripped = false) (do
    onDetachedEvent ev
    completeRow b ref)

def externalOther (b : Int) (ref : Nat) (ev : OrderEvent) : M Unit := do
  let t ← now
  let row ← rowAt ref
  when ev.isMint (answer row.clientOrderId false)
  let read ← venueTerminalState ev
  let terminal := if row.state = .filled then none else read
  commit (updateSubmittedRow b row.clientOrderId
    { state := terminal, event := some (.typed ev.name t ev.reason ev.isMint none) })
  forSome terminal fun state => do
    setRow ref fun row => { row with state }
    settleRestoredIntent b ref

/- `_on_external_event`: the venue's copies of orders this process adopted. -/
def externalEvent (deliver : Delivery → M Unit) (ev : OrderEvent) : M Unit := do
  let s ← get
  match St.attachedFor s ev with
  | none => when (ev.name = .orderFilled ∧ s.holds.gateArmed) armRereadAfterMint
  | some (b, ref) =>
    if ev.name = .orderFilled then externalFill deliver b ref ev else externalOther b ref ev

def onExternalOrderEvent (deliver : Delivery → M Unit) (ev : OrderEvent) : M Unit :=
  attempt (externalEvent deliver ev) (pure ())

def handle (deliver : Delivery → M Unit) : Delivery → M Unit
  | .own ev => onOrderEvent deliver ev
  | .external ev => onExternalOrderEvent deliver ev

/- The handlers with `n` levels of deliveries inside deliveries. -/
def reenter : Nat → Delivery → M Unit
  | 0, _ => pure ()
  | n + 1, d => handle (reenter n) d

end OrderEvents
