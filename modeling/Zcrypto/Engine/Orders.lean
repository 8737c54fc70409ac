import Zcrypto.Engine.Controller

/- The order path: the chokepoint every submission goes through, the ladder of
   resubmissions above it, and the kill switch. The adapter may deliver events from
   inside a submit or a cancel call, so every function that makes one takes the
   dispatcher `deliver` of those events. -/
namespace Orders
open ProbePlans ExecGate ExecLedger Effects Effects.Prog Controller

def ackWait : Int := 30 * second
def quoteWait : Int := 30 * second
def quoteSilence : Int := 30 * second
def timeBox : Int := 15 * minute
def maxReprices : Nat := 5
def maxIocAttempts : Nat := 3
def restCancelOffset : ℚ := 1 / 20
def rereadAttempts : Nat := 3

def trippedRefusal : String := "the kill switch tripped in this process"

def foldedVerdict (armedInConfig : Bool) (r : GateReading) (s : St) : GateVerdict :=
  foldHolds s.sockets.frozen s.holds.reconciliationRefusal.isSome s.holds.dayLossHold
    (ExecGate.evaluate armedInConfig s.disk.killFile.isSome r)

/- `_evaluate`: the one gate read, folded with the executor's own holds. -/
def evaluate (stamp : Int) : M GateVerdict := do
  let r ← ask Env.gate
  let armed ← env fun e => e.config.armedInConfig
  let s ← get
  let v := foldedVerdict armed r s
  modify fun s => { s with holds.gateEvaluatedAt := stamp, holds.gateArmed := v.armed }
  emit (.evaluated v)
  pure v

-- journaling

/- `_journal_intent`: a failed write answers false. Its log line names the plan, so
   without one the failure raises. -/
def journalIntent (index : Nat) (outcome : IntentOutcome) (reasons : List String)
    (filledQty : ℚ) : M Bool := do
  let s ← get
  let p ← orRaise s.run.plan
  attempt (do
    let b ← orRaise s.run.planCycleTs
    commit (updatePlanIntent b p.planId index outcome reasons filledQty)
    emit (.journaled p.planId index outcome)
    pure true) (pure false)

/- `_update_row`: the row of the intent's current order. -/
def updateRow (u : RowUpdate) : M Unit := do
  let s ← get
  let b ← orRaise s.run.planCycleTs
  let c ← orRaise s.run.ctx.clientOrderId
  commit (updateSubmittedRow b c u)

/- `_mark_ambiguous` -/
def markAmbiguous (what : String) : M Unit :=
  attempt (do
    let t ← now
    updateRow { state := some .ambiguous, event := some (.ambiguous t what) }) (pure ())

/- `_enter`: the two phases that wait on the venue arm a deadline, and the others clear it. -/
def enter (phase : Phase) : M Unit := do
  setCtx fun a => { a with phase, phaseDeadline := none }
  when (phase = .cancelling ∨ phase = .ioc) (do
    let t ← now
    setCtx fun a => { a with phaseDeadline := some (t + ackWait) })
  when (phase = .resting) (do
    let t ← now
    setCtx fun a => { a with placedAt := some t })

/- The intent in flight dropped, the plan pointer cleared and the index reset, and the
   trace told which plan left if one ran. -/
def dropPlan : M Unit := modify fun s => { s with
  run.live := false, run.plan := none, run.index := 0
  trace := (s.run.plan.map fun p => Effect.planEnded p.planId).toList ++ s.trace }

/- `_halt_plan` -/
def haltPlan (fromIndex : Int) (reason : String) : M Unit := do
  let s ← get
  forSome s.run.plan fun p => do
    forEach (List.range p.intents.length) fun i =>
      when (fromIndex < i) (do
        let _ ← journalIntent i .refused [reason] 0
        pure ())
    dropPlan

-- the kill switch

/- The client's `cancel_order`, which the adapter may answer before it returns. -/
def requestCancel (deliver : Delivery → M Unit) (c : OrderId) : M Unit := do
  let ds ← ask Env.during
  emit (.cancelSent c)
  callVenue Env.cancelRaises deliver ds

def cancelOrder (deliver : Delivery → M Unit) (c : OrderId) : M Unit :=
  attempt (requestCancel deliver c) (pure ())

/- `_cancel`: an intent that holds no order raises before anything is sent. -/
def cancel (deliver : Delivery → M Unit) : M Unit :=
  attempt (do
    let a ← ctx
    let c ← orRaise a.order
    requestCancel deliver c) (pure ())

/- `_cancel_resting` -/
def cancelResting (deliver : Delivery → M Unit) (active : Bool) : M Unit := do
  let a ← ctx
  let requested := if active ∧ a.order.isSome then a.clientOrderId else none
  when (active ∧ a.order.isSome) (do
    setCtx fun a => { a with cancelRequested := true, fallingBack := false }
    cancel deliver)
  let resting ← ask Env.ordersOpen
  forSome resting fun orders => forEach orders fun o =>
    when (requested ≠ some o.clientOrderId) (cancelOrder deliver o.clientOrderId)

/- `_write_kill_file`: the instant and the reason, over whatever the file held. -/
def killText (at_ : Int) (reason : String) : String := toString at_ ++ " " ++ reason

def writeKillFile (reason : String) : M Unit := do
  let t ← now
  let fails ← ask Env.fileFails
  when (fails = false) (modify fun s => { s with disk.killFile := some (killText t reason) })

/- `_trip_kill` past its latch: the file, the cancels, the journal, the end of the plan. -/
def trip (deliver : Delivery → M Unit) (reason : String) (active : Bool) : M Unit := do
  writeKillFile reason
  cancelResting deliver active
  when active (do
    let a ← ctx
    let _ ← journalIntent a.index .revoked ["kill switch tripped -- " ++ reason] a.filled
    pure ())
  let u ← get
  haltPlan (if active then u.run.ctx.index else (u.run.index : Int) - 1)
    ("not run -- the kill switch tripped: " ++ reason)
  dropPlan
  let t ← now
  let _ ← evaluate t
  pure ()

/- `_trip_kill`: once in a process, and its latch ahead of everything else. -/
def tripKill (deliver : Delivery → M Unit) (reason : String) : M Unit := do
  let s ← get
  when (s.killTripped = false) (do
    modify fun s => { s with killTripped := true, trace := .latched s.disk.killFile :: s.trace }
    trip deliver reason s.run.live)

-- the ends of an intent

def ActiveIntent.ownDelta (a : ActiveIntent) : ℚ :=
  match a.intent.side with
  | .buy => a.filled
  | .sell => -a.filled

/- `_reconcile_terminal`: this engine's own position against what its fills account for. -/
def reconcileTerminal (deliver : Delivery → M Unit) : M Unit := do
  let a ← ctx
  let expected := a.ownPositionBefore + ActiveIntent.ownDelta a + a.foreignFilled
  let actual ← ask fun e n => e.ownPosition n a.intent.symbol
  match actual with
  | none => tripKill deliver ("the " ++ a.intent.symbol.name ++
      " position could not be read after intent " ++ toString a.index)
  | some q =>
    when (a.constraints.lotStep < |q - expected|) (tripKill deliver (a.intent.symbol.name ++
      " holds another position after intent " ++ toString a.index ++ " than its fills account for"))

/- `_finish_active`: an outcome of none was journaled by `submit` already. -/
def finishActive (deliver : Delivery → M Unit) (outcome : Option IntentOutcome)
    (reasons : List String) (filledQty : ℚ) : M Unit := do
  let s ← get
  if s.run.live then do
    forSome outcome fun o => do
      let _ ← journalIntent s.run.ctx.index o reasons filledQty
      pure ()
    enter .done
    modify fun s => { s with run.live := false, run.index := s.run.index + 1 }
    reconcileTerminal deliver
  else raise

/- `_finish_revoked` -/
def finishRevoked (deliver : Delivery → M Unit) : M Unit := do
  let a ← ctx
  finishActive deliver (some .revoked) a.revokeReasons a.filled
  haltPlan a.index ("not run -- intent " ++ toString a.index ++ " was revoked mid-flight")

/- `_drop_remainder_after_ambiguity`: its log line names the plan. -/
def dropRemainderAfterAmbiguity : M Unit := do
  let s ← get
  let _ ← orRaise s.run.plan
  haltPlan s.run.ctx.index ("not run -- intent " ++ toString s.run.ctx.index ++
    " ended ambiguous, so the venue state this plan was authorized against is unknown")

/- `_strand_ambiguous` -/
def strandAmbiguous (reason : String) : M Unit := do
  let a ← ctx
  let _ ← journalIntent a.index .ambiguous [reason] a.filled
  dropRemainderAfterAmbiguity

/- `_revoke` -/
def revoke (deliver : Delivery → M Unit) (reasons : List String) : M Unit := do
  let s ← get
  emit (.pulled (s.run.plan.map ProbePlan.planId) s.run.ctx.index)
  setCtx fun a => { a with cancelRequested := true, fallingBack := false, revokeReasons := reasons }
  enter .cancelling
  cancel deliver

-- the chokepoint

inductive Submitted where
  | submitted | refused | ambiguous
  deriving DecidableEq, Repr

/- The write-ahead row is on disk: attach it, and make the one venue call. -/
def send (deliver : Delivery → M Unit) (b : Int) (row : Row) (v : GateVerdict) : M Submitted := do
  let ref ← alloc row
  modify fun s => { s with
    run.ctx := { s.run.ctx with clientOrderId := some row.clientOrderId }
    desk.attached := Function.update s.desk.attached row.clientOrderId (some (b, ref)) }
  attempt (do
    let ds ← ask Env.during
    modify fun s => { s with
      trace := .sent
        { boundary := b, row, verdict := v, ledger := s.disk.ledger, frozen := s.sockets.frozen
          unread := s.holds.reconciliationRefusal.isSome, killTripped := s.killTripped
          targetQty := s.run.ctx.targetQty, filled := s.run.ctx.filled } :: s.trace }
    callVenue Env.submitRaises deliver ds
    emit (.submitReturned row.clientOrderId)
    pure .submitted) (do
    emit (.submitReturned row.clientOrderId)
    markAmbiguous "submit raised"
    let a ← ctx
    let _ ← journalIntent a.index .ambiguous ["submit raised -- venue outcome unknown"] a.filled
    pure .ambiguous)

def refuseSubmission (reasons : List String) : M Submitted := do
  let a ← ctx
  let _ ← journalIntent a.index .refused reasons a.filled
  pure .refused

/- The write-ahead row of an order, filed under the plan's boundary. -/
def writeAhead (row : Row) (v : GateVerdict) : M (Option Int) :=
  attempt (do
    let s ← get
    let b ← orRaise s.run.planCycleTs
    let t ← now
    commit (appendSubmittedRow b row v t)
    emit (.rowWritten b row)
    pure (some b)) (pure none)

/- `_submit`: the gate first, then the row, then the order, exactly once. -/
def submit (deliver : Delivery → M Unit) (order : OrderId) : M Submitted := do
  let t ← now
  let v ← evaluate t
  let s ← get
  if s.killTripped then refuseSubmission [trippedRefusal]
  else if levelPermits v.level s.run.ctx.intent then do
    let p ← orRaise s.run.plan
    let payload ← orRaise s.run.ctx.orderPayload  -- `place` has just set it
    let row : Row :=
      { planId := p.planId, intentIndex := s.run.ctx.index, clientOrderId := order
        intent := s.run.ctx.intent, order := payload, state := .submitting, filledQty := 0
        events := [] }
    let stored ← writeAhead row v
    match stored with
    | none => refuseSubmission ["exec ledger write failed"]
    | some b => send deliver b row v
  else refuseSubmission v.reasons

-- the ladder

inductive Sized where
  | sized (qty price notional : ℚ)
  | belowMinimum (reason : String)
  | refused (reason : String)
  deriving DecidableEq, Repr

def floorToStep (value step : ℚ) : ℚ := ⌊value / step⌋ * step

/- `size_probe_order` over `size_order`. A step that is not positive raises. -/
def sizeProbeOrder (symbol : Pair) (targetQty touch : ℚ) (c : InstrumentConstraints) :
    Option Sized :=
  if c.costminEur then
    if 0 < c.lotStep ∧ 0 < c.tickSize then
      let qty := floorToStep targetQty c.lotStep
      let price := floorToStep touch c.tickSize
      if qty < c.ordermin then some (.belowMinimum "floored qty is below ordermin")
      else if qty * price < c.costmin then some (.belowMinimum "notional is below costmin")
      else some (.sized qty price (qty * price))
    else none
  else some (.refused (symbol.name ++ ": refusing a cross-denomination comparison"))

inductive Placed where
  | sent (r : Submitted)
  | belowMinimum (detail : String)
  | error (detail : String)
  deriving DecidableEq, Repr

/- The fields a new order sets on its intent: none of the last order's flags survive. -/
def ActiveIntent.holding (a : ActiveIntent) (order : OrderId) (qty price notional : ℚ)
    (immediateOrCancel postOnly : Bool) : ActiveIntent :=
  { a with
    order := some order, orderQty := qty, orderFilled := 0
    cancelRequested := false, fallingBack := false
    orderPayload := some
      { symbol := a.intent.symbol, side := a.intent.side, qty := some qty, price, notional
        immediateOrCancel, postOnly, leverage := a.intent.leverage, reduceOnly := a.reduceOnly
        bid := a.bid, ask := a.ask, quoteSeq := a.quoteSeq }
    pricedSeq := a.quoteSeq }

/- `_place`: size, build and submit one order. -/
def place (deliver : Delivery → M Unit) (targetQty price : ℚ) (immediateOrCancel postOnly : Bool) :
    M Placed := do
  let a ← ctx
  let sized ← orRaise (sizeProbeOrder a.intent.symbol targetQty price a.constraints)
  match sized with
  | .refused detail => pure (.error detail)
  | .belowMinimum detail => pure (.belowMinimum detail)
  | .sized qty px notional => do
    let known ← ask Env.cacheInstrument
    let found ← orRaise known
    if found then do
      let minted ← ask Env.mint
      let order ← orRaise minted
      setCtx fun a => ActiveIntent.holding a order qty px notional immediateOrCancel postOnly
      let r ← submit deliver order
      pure (.sent r)
    else pure (.error (a.intent.symbol.name ++ ": instrument not found in Cache"))

/- `_limit_price` -/
def ActiveIntent.limitPrice (a : ActiveIntent) : Option ℚ :=
  let touch := if a.intent.side = .buy then a.bid else a.ask
  touch.map fun t =>
    let away (offset : ℚ) := if a.intent.side = .buy then t * (1 - offset) else t * (1 + offset)
    match a.intent.mode with
    | .execute => t
    | .restCancel => away restCancelOffset
    | .restHold => away (a.intent.offsetPct.getD 0 / 100)

/- `_opposite_touch` -/
def ActiveIntent.oppositeTouch (a : ActiveIntent) : Option ℚ :=
  if a.intent.side = .buy then a.ask else a.bid

def noTouch (a : ActiveIntent) : String := "no usable touch price for " ++ a.intent.symbol.name

/- What the intent still owes is below a lot step: the completion test. -/
def ActiveIntent.complete (a : ActiveIntent) : Prop := a.targetQty - a.filled < a.constraints.lotStep

instance (a : ActiveIntent) : Decidable (ActiveIntent.complete a) := inferInstanceAs (Decidable (_ < _))

/- `_over_cap_reason`: the sizing-time half of the cap, which a `qty` intent meets here. -/
def overCapReason (targetQty price : ℚ) : M (Option String) := do
  let s ← get
  match s.run.ctx.intent.qty with
  | none => pure none
  | some _ => do
    let cap ← env fun e => e.config.maxPlanNotionalEur
    let p ← orRaise s.run.plan
    let notional := targetQty * price
    let others := s.run.resolvedNotional.filter fun (i, _) => i ≠ s.run.ctx.index
    let total := p.notional + (others.map Prod.snd).sum + notional
    if cap.any (· < total) then pure (some "plan notional exceeds the cap")
    else do
      modify fun s => { s with run.resolvedNotional := others ++ [(s.run.ctx.index, notional)] }
      pure none

/- `_resubmit`: every order after the first, sized to what is still owed. -/
def resubmit (deliver : Delivery → M Unit) (price : ℚ) (immediateOrCancel postOnly : Bool)
    (next : Phase) : M Unit := do
  let a ← ctx
  if ActiveIntent.complete a then finishActive deliver (some .filled) [] a.filled
  else do
    let placed ← place deliver (a.targetQty - a.filled) price immediateOrCancel postOnly
    let a ← ctx
    match placed with
    | .belowMinimum detail => finishActive deliver (some .partially) [detail] a.filled
    | .error detail => finishActive deliver (some .refused) [detail] a.filled
    | .sent .ambiguous => dropRemainderAfterAmbiguity
    | .sent .refused => finishActive deliver none [] a.filled
    | .sent .submitted => enter next

/- `_fallback` -/
def fallback (deliver : Delivery → M Unit) : M Unit := do
  let a ← ctx
  if maxIocAttempts ≤ a.iocAttempts then
    finishActive deliver (some .unfilled) ["the bounded fallback did not fill"] a.filled
  else do
    setCtx fun a => { a with iocAttempts := a.iocAttempts + 1 }
    match ActiveIntent.oppositeTouch a with
    | none => finishActive deliver (some .refused) [noTouch a] a.filled
    | some price => resubmit deliver price true false .ioc

/- `_reprice_at_touch` -/
def repriceAtTouch (deliver : Delivery → M Unit) : M Unit := do
  let a ← ctx
  match ActiveIntent.limitPrice a with
  | none => finishActive deliver (some .refused) [noTouch a] a.filled
  | some price => resubmit deliver price false true .resting

/- `_reprice` -/
def reprice (deliver : Delivery → M Unit) : M Unit := do
  let a ← ctx
  if a.cancelRequested then
    if a.fallingBack then fallback deliver else finishRevoked deliver
  else do
    setCtx fun a => { a with reprices := a.reprices + 1 }
    if maxReprices < a.reprices + 1 then
      if a.intent.mode = .execute then fallback deliver
      else finishActive deliver (some .unfilled) ["reprice budget exhausted"] a.filled
    else if a.pricedSeq < a.quoteSeq then repriceAtTouch deliver
    else do
      setCtx fun a => { a with clientOrderId := none, order := none }
      enter .awaitingReprice

/- `_first_submission` -/
def firstSubmission (deliver : Delivery → M Unit) : M Unit := do
  let a ← ctx
  match ActiveIntent.limitPrice a with
  | none => finishActive deliver (some .refused) [noTouch a] 0
  | some price => do
    let targetQty := a.closeQty.getD (a.intent.qty.getD (a.intent.notionalEur.getD 0 / price))
    let overCap ← overCapReason targetQty price
    match overCap with
    | some reason => finishActive deliver (some .refused) [reason] 0
    | none => do
      let placed ← place deliver targetQty price false true
      match placed with
      | .belowMinimum detail => finishActive deliver (some .refused) [detail] 0
      | .error detail => finishActive deliver (some .refused) [detail] 0
      | .sent .ambiguous => dropRemainderAfterAmbiguity
      | .sent .refused => finishActive deliver none [] 0
      | .sent .submitted => do
        setCtx fun a => { a with targetQty := a.orderQty }
        enter .resting

/- A raise inside a resubmission refuses the intent, its fills kept in the summary. -/
def refuseOnRaise (deliver : Delivery → M Unit) (reason : String) (resubmission : M Unit) : M Unit :=
  attempt resubmission (do
    let s ← get
    when s.run.live (finishActive deliver (some .refused) [reason] s.run.ctx.filled))

/- `_resubmit_on_event` -/
def resubmitOnEvent (deliver : Delivery → M Unit) (resubmission : M Unit) : M Unit :=
  refuseOnRaise deliver "order-event handling failed" resubmission

end Orders
