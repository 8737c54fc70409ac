import Zcrypto.Engine.Footprint

/- The footprint of the passes and of the tick's other parts. A pass moves the running plan
   through the kill switch alone, and the freeze also through its pull. -/
namespace Footprint
open ProbePlans ExecGate ExecLedger LedgerLaws Effects Effects.Prog Controller Orders
  OrderEvents Sweeps Pickup CyclePlan Timer

namespace Background
variable {e : Env} {i d : St → Prop} (h : Background i d)
include h

-- the venue's reads

theorem keeps_load (rows : List (Int × Row)) : Leaves e i d (load rows) :=
  keeps_collect fun _ => keeps_bind (h.keeps_alloc _) fun _ => keeps_pure _

theorem keeps_settlePositions : Leaves e i d settlePositionsFromVenue := by
  refine keeps_bind (h.keeps_ask _) fun read => ?_
  cases read with
  | none => exact keeps_pure _
  | some book =>
    exact keeps_bind (h.keeps_aside fun _ => ⟨rfl, rfl⟩) fun _ => keeps_pure _

theorem keeps_resetFillsRead (entries : List (Int × Nat)) : Leaves e i d (resetFillsRead entries) :=
  h.keeps_aside fun _ => ⟨rfl, rfl⟩

theorem keeps_tradesCover (venueOrderId : Option OrderId) (ledgered : ℚ) :
    Leaves e i d (tradesCover venueOrderId ledgered) := by
  cases venueOrderId with
  | none => exact keeps_pure _
  | some id =>
    refine keeps_bind (keeps_bind keeps_get fun s =>
      keeps_ite (fun _ => keeps_pure _) (fun _ => ?_)) fun _ => keeps_pure _
    cases s.startup.venueFillsRead with
    | some reports => exact keeps_pure _
    | none =>
      exact keeps_bind (h.keeps_ask _) fun _ => keeps_bind
        (h.keeps_aside fun _ => ⟨rfl, rfl⟩) fun _ => keeps_pure _

omit h in
theorem keeps_venueAnswers (row : Row) (finished : Bool) : Leaves e i d (venueAnswers row finished) :=
  keeps_bind (keeps_env _) fun _ => keeps_bind keeps_get fun _ => keeps_pure _

theorem keeps_readVenueOrders (rows finished : List (Int × Nat)) :
    Leaves e i d (readVenueOrders rows finished) := by
  have needs (closed : Bool) (ref : Nat) : Leaves e i d (needsVenue closed ref) :=
    keeps_bind (keeps_gets _) fun _ => keeps_bind keeps_get fun _ =>
      keeps_ite (fun _ => keeps_pure _) fun _ => keeps_ite (fun _ => keeps_pure _) fun _ =>
      keeps_bind (keeps_venueAnswers _ _) fun _ => keeps_ite (fun _ => keeps_pure _) fun _ =>
      keeps_bind (h.keeps_cachedOrder _ _) fun _ => keeps_pure _
  have anyNeeds (closed : Bool) (refs : List (Int × Nat)) : Leaves e i d (anyNeedsVenue closed refs) :=
    keeps_bind (keeps_collect fun _ => keeps_attempt (needs _ _) (keeps_pure _)) fun _ =>
      keeps_pure _
  refine keeps_bind (anyNeeds _ _) fun _ => keeps_bind (anyNeeds _ _) fun _ =>
    keeps_ite (fun _ => keeps_bind (h.keeps_ask _) fun read => ?_) (fun _ => keeps_pure _)
  cases read with
  | some reports => exact keeps_pure _
  | none =>
    exact keeps_bind (h.keeps_aside fun _ => ⟨rfl, rfl⟩) fun _ => keeps_pure _

-- one row

theorem keeps_attach (entry : Int × Nat) (ids : List OrderId) (venueOrderId : Option OrderId) :
    Leaves e i d (attach entry ids venueOrderId) :=
  h.keeps_aside fun _ => ⟨rfl, rfl⟩

theorem keeps_repair (b : Int) (ref : Nat) (delta venueFilled : ℚ) :
    Leaves e i d (repair b ref delta venueFilled) :=
  keeps_bind (keeps_gets _) fun _ => keeps_bind h.keeps_now fun _ =>
    keeps_bind (keeps_attempt (h.keeps_update rfl) (keeps_pure ())) fun _ => h.keeps_setRow _ _

theorem keeps_restate (b : Int) (ref : Nat) (state : RowState) : Leaves e i d (restate b ref state) :=
  keeps_bind (keeps_gets _) fun _ =>
    keeps_bind (keeps_attempt (h.keeps_update rfl) (keeps_pure ())) fun _ => h.keeps_setRow _ _

theorem keeps_markUnmatched (b : Int) (ref : Nat) (venueOrderId : Option OrderId) :
    Leaves e i d (markUnmatched b ref venueOrderId) :=
  keeps_bind (keeps_gets _) fun _ => keeps_bind
    (h.keeps_aside fun _ => ⟨rfl, rfl⟩) fun _ => keeps_when
    (keeps_bind h.keeps_now fun _ => keeps_bind (h.keeps_update rfl) fun _ =>
      keeps_when (h.keeps_setRow _ _))

theorem keeps_answerRestored (b : Int) (ref : Nat) (c : OrderId) (answered settles : Bool) :
    Leaves e i d (answerRestored b ref c answered settles) :=
  keeps_bind (h.keeps_answer _ _) fun _ => keeps_when
    (keeps_bind (h.keeps_aside fun _ => ⟨rfl, rfl⟩) fun _ =>
      h.keeps_settleRestoredIntent _ _)

section
variable {deliver : Delivery → M Unit} (kills : Kills e i d deliver)
include kills

theorem keeps_reconcileAdoptedRow (b : Int) (ref : Nat) (venueFilled : ℚ) (status : OrderStatus)
    (orderId venueOrderId : Option OrderId) :
    Leaves e i d (reconcileAdoptedRow deliver b ref venueFilled status orderId venueOrderId) := by
  refine keeps_bind (keeps_gets _) fun row => keeps_bind (keeps_when (h.keeps_repair _ _ _ _))
    fun _ => keeps_bind (keeps_forSome fun _ => h.keeps_restate _ _ _) fun _ =>
    keeps_bind (h.keeps_attach _ _ _) fun _ => keeps_ite (fun _ => ?_) (fun _ => ?_)
  · refine keeps_bind (h.keeps_tradesCover _ _) fun _ => keeps_ite (fun _ => ?_) (fun _ => ?_)
    · exact keeps_bind (h.keeps_aside fun _ => ⟨rfl, rfl⟩) fun _ => keeps_pure _
    · exact keeps_bind (kills _) fun _ => keeps_pure _
  · exact keeps_bind (keeps_when (kills _)) fun _ => keeps_pure _

theorem keeps_reconcileFinishedRow (b : Int) (ref : Nat) (venueFilled : ℚ)
    (venueOrderId : Option OrderId) :
    Leaves e i d (reconcileFinishedRow deliver b ref venueFilled venueOrderId) :=
  keeps_bind (keeps_gets _) fun _ => keeps_ite (fun _ => keeps_pure _) fun _ =>
    keeps_bind (h.keeps_tradesCover _ _) fun _ => keeps_ite (fun _ => keeps_pure _) fun _ =>
    keeps_bind h.keeps_now fun _ =>
    keeps_bind (keeps_attempt (h.keeps_update rfl) (keeps_pure ())) fun _ =>
    keeps_bind (kills _) fun _ => keeps_pure _

theorem keeps_recancel (b : Int) (ref : Nat) (venueOrderId : OrderId) (report : VenueReport)
    (orderId : Option OrderId) : Leaves e i d (recancel deliver b ref venueOrderId report orderId) :=
  keeps_bind (h.keeps_reconcileAdoptedRow kills _ _ _ _ _ _) fun _ => keeps_bind (h.keeps_ask _)
    fun _ => keeps_bind (keeps_when (keeps_attempt (keeps_bind h.keeps_now fun _ =>
      keeps_bind (keeps_gets _) fun _ => keeps_bind (h.keeps_update rfl) fun _ =>
      h.keeps_setRow _ _) (keeps_pure ()))) fun _ => keeps_pure _

theorem keeps_adoptedFromVenue (recancels : Bool) (b : Int) (ref : Nat)
    (venueOrderId : Option OrderId) (report : Option VenueReport) :
    Leaves e i d (adoptedFromVenue deliver recancels b ref venueOrderId report) := by
  refine keeps_bind (keeps_gets _) fun row => keeps_bind keeps_get fun s => ?_
  cases report with
  | none => exact h.keeps_markUnmatched _ _ _
  | some r =>
    exact keeps_bind (keeps_ite (fun _ => h.keeps_cacheLookup _ _) (fun _ => keeps_pure _)) fun _ =>
      keeps_bind (keeps_when (h.keeps_aside fun _ => ⟨rfl, rfl⟩)) fun _ =>
      keeps_bind (keeps_ite (fun _ => h.keeps_recancel kills _ _ _ _ _)
        (fun _ => h.keeps_reconcileAdoptedRow kills _ _ _ _ _ _)) fun _ =>
      keeps_when (h.keeps_answerRestored _ _ _ _ _)

theorem keeps_adoptedRow (orders : VenueOrders) (recancels : Bool) (b : Int) (ref : Nat) :
    Leaves e i d (adoptedRow deliver orders recancels b ref) := by
  refine keeps_bind (keeps_gets _) fun row => keeps_bind keeps_get fun s =>
    keeps_bind (h.keeps_cachedOrder _ _) fun order => keeps_bind (keeps_venueAnswers _ _) fun asks => ?_
  have tail : Leaves e i d (when (¬((St.readId s row).isSome ∧ orders.isNone))
      (adoptedFromVenue deliver recancels b ref (St.readId s row)
        (orders.reportOf (St.readId s row)))) :=
    keeps_when (h.keeps_adoptedFromVenue kills _ _ _ _ _)
  rcases order with _ | o
  · exact tail
  · cases asks with
    | false =>
      exact keeps_bind (h.keeps_reconcileAdoptedRow kills _ _ _ _ _ _) fun _ => keeps_pure _
    | true =>
      revert tail
      rcases orders.reportOf (St.readId s row) with _ | r
      · exact id
      · intro _
        exact keeps_bind (h.keeps_reconcileAdoptedRow kills _ _ _ _ _ _) fun _ =>
          h.keeps_answerRestored _ _ _ _ _

theorem keeps_finishedRow (orders : VenueOrders) (b : Int) (ref : Nat) :
    Leaves e i d (finishedRow deliver orders b ref) := by
  refine keeps_bind (keeps_gets _) fun row => keeps_bind keeps_get fun s => keeps_when
    (keeps_bind (keeps_ite (fun _ => keeps_pure _) (fun _ => h.keeps_cachedOrder _ _)) fun order =>
      keeps_bind (keeps_venueAnswers _ _) fun asks => ?_)
  rcases order.filter fun _ => (St.readId s row).isNone || !asks with _ | o
  · refine keeps_when (keeps_bind (keeps_gets _) fun row => keeps_bind keeps_get fun s => ?_)
    cases orders.reportOf _ with
    | none => exact h.keeps_markUnmatched _ _ _
    | some r =>
      refine keeps_ite (fun _ => keeps_bind (keeps_ite (fun _ => ?_)
        (fun _ => h.keeps_reconcileFinishedRow kills _ _ _ _)) fun _ => h.keeps_answer _ _) (fun _ => ?_)
      · exact keeps_bind (h.keeps_cacheLookup _ _) fun _ =>
          h.keeps_reconcileAdoptedRow kills _ _ _ _ _ _
      · exact keeps_bind (h.keeps_reconcileFinishedRow kills _ _ _ _) fun _ => keeps_pure _
  · exact keeps_bind (h.keeps_reconcileFinishedRow kills _ _ _ _) fun _ => keeps_pure _

theorem keeps_reconcileAdoptedRows (rows : List (Int × Nat)) (orders : VenueOrders)
    (recancels : Bool) : Leaves e i d (reconcileAdoptedRows deliver rows orders recancels) :=
  keeps_forEach fun _ => keeps_attempt (h.keeps_adoptedRow kills _ _ _ _) (keeps_pure ())

theorem keeps_reconcileFinishedRows (rows : List (Int × Nat)) (orders : VenueOrders) :
    Leaves e i d (reconcileFinishedRows deliver rows orders) :=
  keeps_forEach fun _ => keeps_attempt (h.keeps_finishedRow kills _ _ _) (keeps_pure ())

-- the startup pass and the re-read pass

omit kills in
theorem keeps_settlePendingIntents (t : Int) (refs : List Nat) (cancelled : List OrderId)
    (orders : VenueOrders) (ledgerRead : Bool) :
    Leaves e i d (settlePendingIntents t refs cancelled orders ledgerRead) :=
  keeps_bind keeps_get fun _ => keeps_when (keeps_bind (h.keeps_tryScan _) fun _ =>
    keeps_forSome fun _ => keeps_forEach fun _ => keeps_bind keeps_get fun _ =>
    keeps_when (h.keeps_writeIntent _ _ _ _ _))

omit kills in
theorem keeps_classifyAll (hd : ∀ x, Leaves e i d (deliver x)) (t : Int) (rows : List (Int × Nat)) (orders : VenueOrders)
    (resting : List CacheOrder) : Leaves e i d (classifyAll deliver t rows orders resting) := by
  refine keeps_bind (h.keeps_evaluate _) fun _ => keeps_bind (h.keeps_ask _) fun _ =>
    keeps_bind (keeps_env _) fun _ => keeps_bind keeps_get fun _ =>
    keeps_bind (keeps_collect fun o => ?_) fun _ => keeps_pure _
  refine keeps_bind keeps_get fun s => keeps_bind (keeps_forSome fun _ => h.keeps_attach _ _ _)
    fun _ => keeps_ite (fun _ => keeps_pure _) (fun _ => keeps_ite (fun _ => keeps_pure _) (fun _ => ?_))
  exact keeps_attempt (keeps_bind (h.keeps_requestCancel hd _) fun _ => keeps_pure _) (keeps_pure _)

theorem keeps_adoptRestingOrders (hd : ∀ x, Leaves e i d (deliver x)) (t : Int) :
    Leaves e i d (adoptRestingOrders deliver t) :=
  keeps_bind (h.keeps_ask _) fun _ => keeps_forSome fun _ =>
    keeps_bind (h.keeps_aside fun _ => ⟨rfl, rfl⟩) fun _ =>
    keeps_bind (h.keeps_tryScan _) fun _ => keeps_bind (h.keeps_load _) fun _ =>
    keeps_bind (h.keeps_load _) fun _ => keeps_bind (h.keeps_resetFillsRead _) fun _ =>
    keeps_bind (h.keeps_readVenueOrders _ _) fun _ => keeps_bind h.keeps_settlePositions fun _ =>
    keeps_bind (h.keeps_reconcileAdoptedRows kills _ _ _) fun _ =>
    keeps_bind (h.keeps_reconcileFinishedRows kills _ _) fun _ =>
    keeps_bind (keeps_ite (fun _ => keeps_pure _) (fun _ => h.keeps_classifyAll hd _ _ _ _))
    fun _ => h.keeps_settlePendingIntents _ _ _ _ _

omit kills in
theorem keeps_readRestored : Leaves e i d readRestored := by
  refine keeps_bind (h.keeps_ask _) fun held => ?_
  cases held with
  | none => exact h.keeps_aside fun _ => ⟨rfl, rfl⟩
  | some orders =>
    refine keeps_bind (h.keeps_aside fun _ => ⟨rfl, rfl⟩) fun _ => keeps_when
      (keeps_bind h.keeps_now fun _ => keeps_bind (h.keeps_tryScan _) fun _ => keeps_forSome
        fun _ => keeps_bind (h.keeps_load _) fun _ => keeps_forEach fun o => ?_)
    exact keeps_bind keeps_get fun _ => keeps_forSome fun _ => h.keeps_attach _ _ _

omit kills in
theorem keeps_nothingInFlight : Leaves e i d nothingInFlight :=
  keeps_bind keeps_get fun _ => keeps_ite (fun _ => keeps_pure _) fun _ =>
    keeps_bind (h.keeps_ask _) fun _ => keeps_pure _

omit kills in
theorem keeps_readForPass (t : Int) : Leaves e i d (readForPass t) := by
  have minted (row : Row) : Leaves e i d (mintedClosed row) :=
    keeps_bind keeps_get fun _ => keeps_attempt
      (keeps_bind (h.keeps_cacheLookup _ _) fun _ => keeps_pure _) (keeps_pure _)
  refine keeps_bind keeps_get fun s => keeps_bind (h.keeps_scan _) fun openRows =>
    keeps_bind (keeps_bind (keeps_collect fun e => keeps_bind (minted _) fun _ =>
      keeps_bind keeps_get fun _ => keeps_pure _) fun _ => keeps_pure _) fun _ =>
    keeps_bind (h.keeps_scan _) fun closedRows => keeps_bind keeps_get fun _ =>
    keeps_bind (h.keeps_load _) fun rows => keeps_bind (h.keeps_resetFillsRead _) fun _ =>
    keeps_ite (fun _ => keeps_pure _) (fun _ => keeps_bind (h.keeps_ask _) fun _ =>
      keeps_bind (keeps_orRaise _) fun _ => keeps_pure _)

theorem keeps_rereadFrom {began : Nat} (settles : Leaves e i d (settled began)) (t : Int) :
    Leaves e i d (rereadFrom deliver t began) := by
  refine keeps_bind (h.keeps_aside fun _ => ⟨rfl, rfl⟩) fun _ => keeps_bind (keeps_attempt
    (keeps_bind (h.keeps_readForPass t) fun _ => keeps_pure _) (keeps_pure _)) fun read => ?_
  rcases read with _ | ⟨rows, reports⟩
  · exact h.keeps_aside fun _ => ⟨rfl, rfl⟩
  · exact keeps_bind (h.keeps_reconcileAdoptedRows kills _ _ _) fun _ =>
      keeps_bind h.keeps_settlePositions fun _ => keeps_ite (fun _ => settles)
        (fun _ => h.keeps_aside fun _ => ⟨rfl, rfl⟩)

-- the sockets

omit kills in
theorem keeps_strandedRows : Leaves e i d strandedRows := by
  refine keeps_bind keeps_get fun s => keeps_bind h.keeps_now fun t =>
    keeps_bind (h.keeps_tryScan _) fun read => ?_
  cases read with
  | none => exact keeps_pure _
  | some rows => exact keeps_pure _

omit h kills in
theorem keeps_watchSockets (lifts : Leaves e i d liftFreeze) (freezes : Leaves e i d (freeze deliver))
    (t : Int) : Leaves e i d (watchSockets deliver t) :=
  keeps_attempt (keeps_bind lifts fun _ => keeps_bind keeps_get fun _ =>
    keeps_when freezes) (keeps_pure ())

-- the gate and the tick

omit kills in
theorem keeps_fileAct {α : Type} {act : M α} (body : Leaves e i d act) :
    Leaves e i d (CyclePlan.file act) :=
  keeps_bind (h.keeps_ask _) fun _ => keeps_ite (fun _ => keeps_raise) (fun _ => body)

omit kills in
theorem keeps_refreshGate (t : Int) : Leaves e i d (refreshGate t) :=
  keeps_bind keeps_get fun _ => keeps_when
    (keeps_bind (h.keeps_evaluate _) fun _ => keeps_pure ())

theorem keeps_evaluateTracking : Leaves e i d (evaluateTracking deliver) :=
  keeps_bind (keeps_env _) fun _ => keeps_bind keeps_get fun _ => keeps_when
    (keeps_bind (h.keeps_ask _) fun _ => keeps_forSome fun _ => kills _)

/- The passes, over the four of their steps that move a guard. -/
theorem keeps_passes (hd : ∀ x, Leaves e i d (deliver x)) {t : Int}
    (derives : Leaves e i d (do
      modify fun s : St => { s with holds.dayLossHoldDerived := true }
      deriveDayLossHold t))
    (lifts : Leaves e i d liftFreeze) (freezes : Leaves e i d (freeze deliver))
    (rereads : Leaves e i d (rereadPass deliver t)) : Leaves e i d (passes deliver t) := by
  refine keeps_bind keeps_get fun s => keeps_bind (keeps_when derives) fun _ =>
    keeps_bind (keeps_when (h.keeps_adoptRestingOrders kills hd _)) fun _ =>
    keeps_bind (keeps_watchSockets lifts freezes _) fun _ => ?_
  exact keeps_bind (h.keeps_aside fun _ => ⟨rfl, rfl⟩) fun _ =>
    keeps_bind keeps_get fun _ => keeps_when (keeps_bind h.keeps_nothingInFlight fun _ => keeps_when
      (keeps_bind rereads fun _ => lifts))

-- the steps that move the sockets, for an assertion that reads none

section
variable (b : SocketFree i)
include b

omit kills in
theorem keeps_settled (began : Nat) : Leaves e i d (settled began) :=
  keeps_bind h.keeps_now fun done =>
    b.keeps_watched (x := fun s => .reread began s.asks done) (fun _ => rfl) fun _ => rfl

theorem keeps_rereadPass (t : Int) : Leaves e i d (rereadPass deliver t) :=
  keeps_bind (keeps_gets _) fun _ => h.keeps_rereadFrom kills (h.keeps_settled b _) t

omit kills in
theorem keeps_liftFreeze : Leaves e i d liftFreeze := by
  have lifting : Leaves e i d lift :=
    b.keeps_watched (x := fun s => .lifted ⟨s.sockets, s.holds.gateArmed, s.startup, s.disk.ledger⟩)
      (fun _ => rfl) fun _ => rfl
  exact keeps_bind keeps_get fun s => keeps_when (keeps_forSome fun emptied => keeps_ite
    (fun _ => keeps_bind h.keeps_strandedRows fun _ => keeps_when lifting)
    (fun _ => keeps_forSome fun _ => keeps_when lifting))

omit kills in
theorem keeps_onSocketState (endpoint : String) (connected : Bool) :
    Leaves e i d (onSocketState endpoint connected) := by
  refine keeps_bind keeps_get fun s => keeps_ite (fun _ => keeps_when ?_) (fun _ => ?_)
  · exact keeps_bind (b.keeps_sockets fun _ => rfl) fun _ => keeps_bind keeps_get
      fun _ => keeps_bind (keeps_when (keeps_bind h.keeps_now fun t =>
        b.keeps_watched (x := fun s => .emptied s.asks t) (fun _ => rfl) fun _ => rfl)) fun _ =>
      keeps_bind (b.keeps_sockets fun _ => rfl) fun _ => keeps_when (h.keeps_liftFreeze b)
  · exact keeps_bind h.keeps_now fun _ => keeps_bind (b.keeps_sockets fun _ => rfl)
      fun _ => keeps_bind keeps_get fun _ => keeps_when (b.keeps_sockets fun _ => rfl)

end

-- the marks of the equity, for an assertion that reads none

section
variable (b : MarkFree i)
include b

omit kills in
theorem keeps_deriveDayLossHold (t : Int) : Leaves e i d (deriveDayLossHold t) :=
  keeps_attempt (h.keeps_fileAct (keeps_bind keeps_get fun _ => b.keeps_marks fun _ => rfl))
    (b.keeps_marks fun _ => rfl)

omit kills in
theorem keeps_deriveOnce (t : Int) : Leaves e i d (do
    modify fun s : St => { s with holds.dayLossHoldDerived := true }
    deriveDayLossHold t) :=
  keeps_bind (b.keeps_marks fun _ => rfl) fun _ => h.keeps_deriveDayLossHold b _

end
end
end Background

namespace Moving
variable {e : Env} {i d : St → Prop} (h : Moving i d)
include h

theorem keeps_refuseIntent (index : Nat) (outcome : IntentOutcome) (reasons : List String) :
    Leaves e i d (refuseIntent index outcome reasons) :=
  keeps_bind (h.keeps_journalIntent _ _ _ _) fun _ =>
    h.keeps_moved fun _ => ⟨rfl, .inl rfl⟩

theorem keeps_arm (index : Nat) (intent : ProbeIntent) (c : InstrumentConstraints) (t : Int)
    (decision : CloseDecision) (state : VenueState) :
    Leaves e i d (arm index intent c t decision state) := by
  refine keeps_bind (h.keeps_ask _) fun own => ?_
  cases own with
  | none => exact h.keeps_refuseIntent _ _ _
  | some own =>
    refine keeps_bind (h.keeps_ask _) fun _ => keeps_ite (fun _ => keeps_raise)
      (fun _ => keeps_modify fun s start => ?_)
    let armed : Running := { s.run with
      live := true, ctx := newIntent index intent c t decision state own }
    cases running : s.run.plan with
    | none => exact h.run s armed (.inl rfl) start
    | some p =>
      exact h.run { s with trace := .armed p.planId index :: s.trace } armed (.inl rfl)
        (h.note s _ rfl start)

theorem keeps_admitIntent (index : Nat) (intent : ProbeIntent) (t : Int) :
    Leaves e i d (admitIntent index intent t) := by
  refine keeps_bind (h.keeps_evaluate _) fun v => keeps_ite
    (fun _ => keeps_bind (h.keeps_ask _) fun read => ?_) (fun _ => h.keeps_refuseIntent _ _ _)
  rcases read with _ | state
  · exact h.keeps_refuseIntent _ _ _
  · rcases known : state.instruments intent.symbol with _ | c <;> simp only [known]
    · exact h.keeps_refuseIntent _ _ _
    · refine keeps_bind keeps_get fun s => ?_
      split
      · exact h.keeps_refuseIntent _ _ _
      · exact h.keeps_arm _ _ _ _ _ _

theorem keeps_startIntent (p : ProbePlan) (index : Nat) (intent : ProbeIntent) (t : Int) :
    Leaves e i d (startIntent p index intent t) :=
  keeps_bind keeps_get fun _ => keeps_ite (fun _ => h.keeps_refuseIntent _ _ _) fun _ =>
    keeps_bind (h.keeps_scan _) fun _ => keeps_ite (fun _ => h.keeps_refuseIntent _ _ _)
    (fun _ => h.keeps_admitIntent _ _ _)

theorem keeps_startNext (t : Int) (n : Nat) : Leaves e i d (startNext t n) := by
  induction n with
  | zero => exact keeps_pure ()
  | succ n ih =>
    refine keeps_bind keeps_get fun s => ?_
    rcases s.run.plan with _ | p
    · exact keeps_pure ()
    · refine keeps_when ?_
      rcases p.intents[s.run.index]? with _ | intent
      · refine keeps_modify fun u start => ?_
        exact h.run { u with trace := .planEnded p.planId :: u.trace }
          { u.run with plan := none } (.inr rfl) (h.note u _ rfl start)
      · exact keeps_bind (h.keeps_startIntent _ _ _ _) fun _ => ih

section
variable {deliver : Delivery → M Unit} (hd : ∀ x, Leaves e i d (deliver x))
  (kills : Kills e i d deliver) (hs : Submits e i d)
include hd kills hs

theorem keeps_pollWaiting (t : Int) (v : GateVerdict) : Leaves e i d (pollWaiting deliver t v) := by
  have timeBoxed : Leaves e i d (timeBoxWithNothingResting deliver) := by
    refine keeps_bind (keeps_gets _) fun a => ?_
    cases a.intent.mode with
    | execute => exact h.keeps_fallback hd kills hs
    | restCancel => exact h.keeps_finishActive kills _ _ _
    | restHold => exact h.keeps_finishActive kills _ _ _
  have silenced (reasons : List String) : Leaves e i d (do
      setCtx fun a => { a with revokeReasons := reasons }
      finishRevoked deliver) :=
    keeps_bind (h.keeps_setCtx _) fun _ => h.keeps_finishRevoked kills
  exact keeps_bind (keeps_gets _) fun _ => keeps_ite (fun _ => h.keeps_finishActive kills _ _ _) fun _ =>
    keeps_ite (fun _ => silenced _) fun _ => keeps_ite (fun _ => silenced _) fun _ =>
    keeps_when (h.keeps_refuseOnRaise kills _ timeBoxed)

omit kills hs in
theorem keeps_timeBox : Leaves e i d (do
    setCtx fun a => { a with
      cancelRequested := true
      fallingBack := decide (a.intent.mode = .execute)
      holdExpired := decide (a.intent.mode = .restHold)
      revokeReasons := ["time box elapsed"] }
    enter .cancelling
    cancel deliver) :=
  keeps_bind (h.keeps_setCtx _) fun _ => keeps_bind (h.keeps_enter _) fun _ => h.keeps_cancel hd

theorem keeps_poll (pulls : Pulls i) (t : Int) (v : GateVerdict) :
    Leaves e i d (poll deliver t v) := by
  refine keeps_bind (keeps_gets _) fun a => ?_
  cases a.phase with
  | awaitingQuote => exact keeps_when (h.keeps_finishActive kills _ _ _)
  | awaitingReprice => exact h.keeps_pollWaiting hd kills hs _ _
  | resting =>
    exact keeps_bind (keeps_gets _) fun _ => keeps_ite (fun _ => h.keeps_revoke hd pulls _) fun _ =>
      keeps_ite (fun _ => h.keeps_revoke hd pulls _) fun _ => keeps_when (h.keeps_timeBox hd)
  | cancelling => exact keeps_when (h.keeps_strand h.keeps_dropPlan _)
  | ioc => exact keeps_when (h.keeps_strand h.keeps_dropPlan _)
  | done => exact keeps_when (h.keeps_strand h.keeps_dropPlan _)

theorem keeps_pump (pulls : Pulls i) (t : Int) : Leaves e i d (pump deliver t) :=
  keeps_bind keeps_get fun _ => keeps_forSome fun _ => keeps_bind (h.keeps_evaluate _) fun _ =>
    keeps_ite (fun _ => h.keeps_poll hd kills hs pulls _ _) (fun _ => h.keeps_startNext _ _)

theorem keeps_onQuote (symbol : Pair) (bid ask : Option ℚ) :
    Leaves e i d (onQuote deliver symbol bid ask) := by
  refine h.keeps_refuseOnRaise kills _ (keeps_bind keeps_get fun s => keeps_when (keeps_bind
    (keeps_when (keeps_bind h.keeps_now fun _ => h.keeps_setCtx _)) fun _ =>
    keeps_bind (keeps_gets _) fun _ => ?_))
  exact keeps_ite (fun _ => h.keeps_firstSubmission hd kills hs)
    (fun _ => keeps_when (h.keeps_repriceAtTouch hd kills hs))

end
end Moving

theorem Moving.keeps_freeze {e : Env} {i d : St → Prop} (h : Moving i d) (b : SocketFree i)
    {deliver : Delivery → M Unit} (hd : ∀ x, Leaves e i d (deliver x)) : Leaves e i d (freeze deliver) :=
  keeps_bind h.keeps_now fun _ => keeps_bind keeps_get fun _ =>
    keeps_bind (b.keeps_watched (x := fun _ => .froze) (fun _ => rfl) fun _ => rfl) fun _ =>
    keeps_bind (h.keeps_cancelResting hd (h.keeps_setCtx _) _) fun _ => keeps_bind (keeps_gets _) fun _ =>
    keeps_when (keeps_bind (h.keeps_setCtx _) fun _ => h.keeps_enter _)

theorem Routine.keeps_allPasses {e : Env} {i d : St → Prop} (h : Routine i d) {deliver : Delivery → M Unit}
    (hd : ∀ x, Leaves e i d (deliver x)) (t : Int) : Leaves e i d (passes deliver t) :=
  h.keeps_passes (h.keeps_tripKill hd) hd (h.keeps_deriveOnce h.markFree t)
    (h.keeps_liftFreeze h.socketFree) (h.keeps_freeze h.socketFree hd)
    (h.keeps_rereadPass (h.keeps_tripKill hd) h.socketFree t)

end Footprint
