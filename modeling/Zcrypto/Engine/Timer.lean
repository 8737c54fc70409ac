import Zcrypto.Engine.CyclePlan

/- The timer: the start of an intent, the poll of the one in flight, the quote
   handler, and the tick that runs them all. A run is a list of inputs taken one
   after another, with the process dead between a crash and its next start. -/
namespace Timer
open ProbePlans ExecGate ExecLedger Effects Effects.Prog Controller Orders OrderEvents Sweeps
  Pickup CyclePlan

def gateRefresh : Int := 60 * second

-- the start of an intent

/- `_refuse_intent`: an intent that never became active. -/
def refuseIntent (index : Nat) (outcome : IntentOutcome) (reasons : List String) : M Unit := do
  let _ ← journalIntent index outcome reasons 0
  modify fun s => { s with run.index := s.run.index + 1 }

/- `_CloseDecision` -/
structure CloseDecision where
  qty : ℚ := 0
  reduceOnly : Bool := false
  refusal : Option String := none

/- `_classify_margin_close` -/
def classifyMarginClose (i : ProbeIntent) (held : ℚ) : CloseDecision :=
  if held = 0 then { refusal := some "no position to close" }
  else if (0 < held) = (i.side = .sell) then { qty := |held|, reduceOnly := true }
  else { refusal := some "side does not reduce the position" }

/- `_classify_spot_close` -/
def classifySpotClose (i : ProbeIntent) (book : VenueBook) (level : GateLevel) (ordermin : ℚ) :
    CloseDecision :=
  match i.qty with
  | none => { refusal := some "a spot close needs an explicit qty" }
  | some qty =>
    if i.side ≠ .sell then { refusal := some "a spot close must be a sell" }
    else
      let raw := book.balances (Pair.spot i.symbol)
      let balance := if raw < ordermin then 0 else raw
      if level = .reduceOnly then
        if balance < qty then { refusal := some "the venue's balance does not cover the signed qty" }
        else { qty }
      else if 0 < balance ∧ balance < qty then
        { refusal := some "the venue's balance refutes the signed qty" }
      else { qty }

/- `_classify_close` -/
def classifyClose (i : ProbeIntent) (state : VenueState) (c : InstrumentConstraints)
    (book : Option VenueBook) (level : GateLevel) : CloseDecision :=
  match i.leverage, book with
  | some _, _ => classifyMarginClose i (state.positions i.symbol)
  | none, none => { refusal := some balancesUnread }
  | none, some book => classifySpotClose i book level c.ordermin

def newIntent (index : Nat) (intent : ProbeIntent) (c : InstrumentConstraints) (t : Int)
    (decision : CloseDecision) (state : VenueState) (own : ℚ) : ActiveIntent :=
  { index, intent, constraints := c, phase := .awaitingQuote, startedAt := t
    quoteDeadline := t + quoteWait
    timeboxAt := t + (if intent.mode = .restHold then (intent.holdMinutes.getD 0 : Int) * minute
      else timeBox)
    closeQty := if intent.action = .closing then some decision.qty else none
    reduceOnly := decision.reduceOnly
    positionBefore := state.positions intent.symbol
    ownPositionBefore := own }

/- The intent armed, its quotes subscribed first. -/
def arm (index : Nat) (intent : ProbeIntent) (c : InstrumentConstraints) (t : Int)
    (decision : CloseDecision) (state : VenueState) : M Unit := do
  let own ← ask fun e n => e.ownPosition n intent.symbol
  match own with
  | none => refuseIntent index .refused ["no venue truth"]
  | some own => do
    let fails ← ask Env.subscribeRaises
    if fails then raise
    else modify fun s => { s with
      run.live := true
      run.ctx := newIntent index intent c t decision state own
      trace := (s.run.plan.map fun p => Effect.armed p.planId index).toList ++ s.trace }

/- `_start_intent` from the gate on: the verdict, the venue truth, the close's size. -/
def admitIntent (index : Nat) (intent : ProbeIntent) (t : Int) : M Unit := do
  let v ← evaluate t
  if levelPermits v.level intent then do
    let read ← ask Env.venueState
    match read with
    | none => refuseIntent index .refused ["no venue truth"]
    | some state =>
      match state.instruments intent.symbol with
      | none => refuseIntent index .refused [intent.symbol.name ++ " is absent from venue truth"]
      | some c => do
        let s ← get
        let decision := if intent.action = .closing
          then classifyClose intent state c s.drafting.venueBook v.level else {}
        match decision.refusal with
        | some reason => refuseIntent index .refused [reason]
        | none => arm index intent c t decision state
  else refuseIntent index .refused v.reasons

/- `_start_intent`: it arms the intent or advances the index, and raises or dies otherwise. -/
def startIntent (p : ProbePlan) (index : Nat) (intent : ProbeIntent) (t : Int) : M Unit := do
  let s ← get
  if s.run.planWindowClose.any (· < t) then
    refuseIntent index .carried ["the submission window closed"]
  else do
    let keys ← scan (ledgeredIntentKeys t)
    if (p.planId, index) ∈ keys then refuseIntent index .alreadyLedgered []
    else admitIntent index intent t

/- The loop of `_pump`: an intent is started until one arms or none is left. -/
def startNext (t : Int) : Nat → M Unit
  | 0 => pure ()
  | n + 1 => do
    let s ← get
    match s.run.plan with
    | none => pure ()
    | some p =>
      when (s.run.live = false) (
        match p.intents[s.run.index]? with
        | none => modify fun s => { s with
            run.plan := none, trace := .planEnded p.planId :: s.trace }
        | some intent => do
          startIntent p s.run.index intent t
          startNext t n)

-- the intent in flight

/- `_time_box_with_nothing_resting` -/
def timeBoxWithNothingResting (deliver : Delivery → M Unit) : M Unit := do
  let a ← ctx
  match a.intent.mode with
  | .execute => fallback deliver
  | .restCancel =>
    finishActive deliver (some (if a.filled = 0 then .restCancelOk else .partially)) [] a.filled
  | .restHold =>
    finishActive deliver (some (if a.filled = 0 then .restHoldExpired else .partially)) [] a.filled

def ActiveIntent.quoteSilent (a : ActiveIntent) (t : Int) : Bool :=
  a.lastQuoteAt.any fun at_ => quoteSilence < t - at_

/- A reprice waiting for its tick: nothing rests, so a revoke ends the intent at once. -/
def pollWaiting (deliver : Delivery → M Unit) (t : Int) (v : GateVerdict) : M Unit := do
  let a ← ctx
  if ActiveIntent.complete a then finishActive deliver (some .filled) [] a.filled
  else if levelPermits v.level a.intent = false then do
    setCtx fun a => { a with revokeReasons := v.reasons }
    finishRevoked deliver
  else if ActiveIntent.quoteSilent a t then do
    setCtx fun a => { a with revokeReasons := ["quote_silence"] }
    finishRevoked deliver
  else when (a.timeboxAt < t) (refuseOnRaise deliver "time-box handling failed"
    (timeBoxWithNothingResting deliver))

/- An order resting: revocable, and time-boxable. Only `execute` crosses after its box. -/
def pollResting (deliver : Delivery → M Unit) (t : Int) (v : GateVerdict) : M Unit := do
  let a ← ctx
  if levelPermits v.level a.intent = false then revoke deliver v.reasons
  else if ActiveIntent.quoteSilent a t then revoke deliver ["quote_silence"]
  else when (a.timeboxAt < t) (do
    setCtx fun a => { a with
      cancelRequested := true
      fallingBack := decide (a.intent.mode = .execute)
      holdExpired := decide (a.intent.mode = .restHold)
      revokeReasons := ["time box elapsed"] }
    enter .cancelling
    cancel deliver)

/- `_poll` -/
def poll (deliver : Delivery → M Unit) (t : Int) (v : GateVerdict) : M Unit := do
  let a ← ctx
  match a.phase with
  | .awaitingQuote =>
    when (a.quoteDeadline < t) (finishActive deliver (some .refused) ["no quote within 30s"] 0)
  | .awaitingReprice => pollWaiting deliver t v
  | .resting => pollResting deliver t v
  | .cancelling | .ioc | .done =>
    when (a.phaseDeadline.any (· < t)) (strandAmbiguous "no venue answer within 30s")

/- `_pump`: one verdict for the tick. -/
def pump (deliver : Delivery → M Unit) (t : Int) : M Unit := do
  let s ← get
  forSome s.run.plan fun p => do
    let v ← evaluate t
    if s.run.live then poll deliver t v else startNext t (p.intents.length + 1)

/- `_as_price` -/
def asPrice (raw : Option ℚ) : Option ℚ := raw.filter (0 < ·)

/- `on_quote`: both sides are stored or neither is. -/
def quoteArrived (deliver : Delivery → M Unit) (symbol : Pair) (bid ask : Option ℚ) : M Unit := do
  let s ← get
  when (s.run.live ∧ symbol = s.run.ctx.intent.symbol) (do
    let stored := (asPrice bid).isSome && (asPrice ask).isSome
    when stored (do
      let t ← now
      setCtx fun a => { a with
        bid := asPrice bid, ask := asPrice ask, lastQuoteAt := some t, quoteSeq := a.quoteSeq + 1 })
    let a ← ctx
    if a.phase = .awaitingQuote then firstSubmission deliver
    else when (a.phase = .awaitingReprice ∧ stored) (repriceAtTouch deliver))

def onQuote (deliver : Delivery → M Unit) (symbol : Pair) (bid ask : Option ℚ) : M Unit :=
  refuseOnRaise deliver "quote handling failed" (quoteArrived deliver symbol bid ask)

-- the tick

/- `_refresh_gate` -/
def refreshGate (t : Int) : M Unit := do
  let s ← get
  when (gateRefresh ≤ t - s.holds.gateEvaluatedAt) (do
    let _ ← evaluate t
    pure ())

/- The re-read pass's place in the tick: armed, owed and with nothing in flight. -/
def rereadWhenFree (deliver : Delivery → M Unit) (t : Int) : M Unit := do
  modify fun s => { s with
    sockets.rereadOwed := !s.holds.gateArmed && (s.sockets.rereadOwed || decide (0 < s.sockets.rereadTries))
    sockets.rereadTries := if s.holds.gateArmed ∧ s.sockets.rereadOwed ∧ s.sockets.rereadTries = 0
      then rereadAttempts else s.sockets.rereadTries }
  let s ← get
  when (s.holds.gateArmed ∧ 0 < s.sockets.rereadTries) (do
    let free ← nothingInFlight
    when free (do
      rereadPass deliver t
      liftFreeze))

/- The passes ahead of the pickup: no plan before the startup pass has run. -/
def passes (deliver : Delivery → M Unit) (t : Int) : M Unit := do
  let s ← get
  when (s.holds.dayLossHoldDerived = false) (do
    modify fun s => { s with holds.dayLossHoldDerived := true }
    deriveDayLossHold t)
  when (s.startup.adopted = false) (adoptRestingOrders deliver t)
  watchSockets deliver t
  rereadWhenFree deliver t

/- A cycle plan drafted or a file picked up, when no plan runs. -/
def takePlan (deliver : Delivery → M Unit) (t : Int) : M Unit := do
  let s ← get
  when s.startup.adopted (do
    when (s.drafting.draftRearmChecked = false) (rearmCycleDraft t)
    let s ← get
    when (s.run.plan = none) (draftCyclePlan deliver t)
    let s ← get
    when (s.run.plan = none) (pickup t))

def tick (deliver : Delivery → M Unit) (t : Int) : M Unit := do
  passes deliver t
  takePlan deliver t
  pump deliver t
  refreshGate t

/- `on_timer`: whatever broke, stop running this plan. -/
def onTimer (deliver : Delivery → M Unit) : M Unit := do
  let t ← now
  attempt (tick deliver t) dropPlan

-- the process

/- A process starts with its disk and nothing else of its predecessor's. -/
def fresh (s : St) : St := { s with
  sockets := {}
  holds := { gateEvaluatedAt := 0 }
  run := { ctx := s.run.ctx }
  desk := { mem := s.desk.mem, memNext := s.desk.memNext }
  startup := {}
  drafting := {}
  killTripped := false
  trace := .started :: s.trace }

def start : M Unit := do
  modify fresh
  let t ← now
  modify fun s => { s with holds.gateEvaluatedAt := t }
  let enabled ← env fun e => e.config.cacheEnabled
  when enabled readRestored

inductive Input where
  | start
  | timer
  | quote (symbol : Pair) (bid ask : Option ℚ)
  | order (ev : OrderEvent)
  | external (ev : OrderEvent)
  | socket (endpoint : String) (connected : Bool)
  | boundary (b : Int)
  | dropFile (f : PlanFile)
  | setKillFile (text : Option String)
  | clearSeriesStart

/- What the process does of an input. The last three are the operator's, on the disk alone. -/
def react : Input → M Unit
  | .start => start
  | .timer => fun e => onTimer (reenter e.depth) e
  | .quote symbol bid ask => fun e => onQuote (reenter e.depth) symbol bid ask e
  | .order ev => fun e => onOrderEvent (reenter e.depth) ev e
  | .external ev => fun e => onExternalOrderEvent (reenter e.depth) ev e
  | .socket endpoint connected => onSocketState endpoint connected
  | .boundary b => fun e => onBoundary (reenter e.depth) b e
  | .dropFile f => modify fun s => { s with disk.planFile := some f }
  | .setKillFile text => modify fun s => { s with disk.killFile := text }
  | .clearSeriesStart => modify fun s => { s with disk.seriesStart := none }

def Input.needsProcess : Input → Bool
  | .start | .dropFile _ | .setKillFile _ | .clearSeriesStart => false
  | _ => true

structure Node where
  st : St
  alive : Bool

/- A host before its first process: a disk, and nothing any process of it wrote. -/
def idle (disk : Disk) (unset : ActiveIntent) (mem : Nat → Row) : Node where
  st :=
    { disk, sockets := {}, holds := { gateEvaluatedAt := 0 }, run := { ctx := unset }
      desk := { mem }, startup := {}, drafting := {}, killTripped := false, asks := 0, trace := [] }
  alive := false

def Node.survives {α : Type} : Outcome α → Bool
  | .died => false
  | _ => true

/- One input. Only a start reaches a dead process, and only a start revives it. -/
def step (e : Env) (n : Node) (x : Input) : Node :=
  if n.alive = false ∧ x.needsProcess then n
  else
    let out := react x e n.st
    { st := out.2
      alive := match x with
        | .start => Node.survives out.1
        | _ => n.alive && Node.survives out.1 }

def steps (e : Env) (n : Node) (xs : List Input) : Node := xs.foldl (step e) n

-- a host on which nothing fails, and whose Cache and venue hold no order

def lots : InstrumentConstraints :=
  { ordermin := 1, costmin := 1, costminEur := true, lotStep := 1, tickSize := 1 }

def plain : Env where
  config :=
    { armedInConfig := true, maxPlanNotionalEur := some 1000, accumulationEnabled := false
      trackingBand := false, cacheEnabled := false }
  depth := 3
  dies := fun _ => false
  clock := fun n => n * 1000
  gate := fun _ => ⟨true, false, false, true, true⟩
  storeFails := fun _ => false
  readFails := fun _ => false
  fileFails := fun _ => false
  during := fun _ => []
  submitRaises := fun _ => false
  cancelRaises := fun _ => false
  subscribeRaises := fun _ => false
  mint := fun n => some ("o" ++ toString n)
  cacheInstrument := fun _ => some true
  ordersOpen := fun _ => some []
  ordersHeld := fun _ => some []
  inflight := fun _ => some false
  cacheOrder := fun _ _ => .absent
  cacheIndex := fun _ _ => some none
  ownPosition := fun _ _ => some 0
  venueState := fun _ => some ⟨fun _ => some lots, fun _ => 0, some 1000⟩
  venueOrders := fun _ => some []
  venueFills := fun _ => some []
  venueCancelRaises := fun _ => false
  venueBook := fun _ => none
  venuePositions := fun _ => none
  cycleRecord := fun _ _ => none
  draftTable := fun _ => .absent
  weekBreach := fun _ => none

def opening (mode : Mode) (notional : ℚ) : ProbeIntent :=
  { symbol := .btcEur, side := .buy, action := .opening, mode, notionalEur := some notional
    qty := none, leverage := none, offsetPct := some 5, holdMinutes := some 5 }

def twoLegs (mode : Mode) : ProbePlan :=
  { planId := "p1", createdAt := 0, intents := [opening mode 100, opening mode 50] }

def blankIntent : ActiveIntent :=
  { index := 0, intent := opening .execute 0, constraints := lots, phase := .done, startedAt := 0
    quoteDeadline := 0, timeboxAt := 0 }

def blankRow : Row :=
  { planId := "", intentIndex := 0, clientOrderId := "", intent := opening .execute 0
    order :=
      { symbol := .btcEur, side := .buy, qty := none, price := 0, notional := 0
        immediateOrCancel := false, postOnly := false, leverage := none, reduceOnly := false
        bid := none, ask := none, quoteSeq := 0 }
    state := .rejected, filledQty := 0, events := [] }

def plainDisk (l : Ledger) : Disk :=
  { ledger := l, killFile := none, planFile := none, drafts := [], seriesStart := none }

def plainHost (l : Ledger) : Node := idle (plainDisk l) blankIntent fun _ => blankRow

end Timer
