import Zcrypto.Engine.Runs

/- A pull and what may follow it. While a pull stands no order of its plan may be sent, and
   none is in a run in which no event ends the pulled order as a success. -/
namespace Revocation
open ProbePlans ExecGate ExecLedger LedgerLaws Effects Effects.Prog Controller Orders
  OrderEvents Sweeps Pickup CyclePlan Timer Footprint

/- The trace's last acceptance. -/
def lastAccepted : List Effect → Option PlanId
  | [] => none
  | .planAccepted p .. :: _ => some p.planId
  | _ :: older => lastAccepted older

/- Whether an intent was pulled since the last acceptance. -/
def openPull : List Effect → Bool
  | [] => false
  | .pulled .. :: _ => true
  | .planAccepted .. :: _ => false
  | _ :: older => openPull older

/- Whether an intent of the plan was pulled since the plan was accepted. -/
def pulledSince (planId : PlanId) : List Effect → Bool
  | [] => false
  | .pulled of _ :: older => of = some planId || pulledSince planId older
  | .planAccepted p .. :: older => p.planId ≠ planId && pulledSince planId older
  | _ :: older => pulledSince planId older

/- No order of a plan is sent after a pull of one of the plan's intents. -/
def Final : List Effect → Prop
  | [] => True
  | .sent x :: older => pulledSince x.row.planId older = false ∧ Final older
  | _ :: older => Final older

/- Whether the event, met by its own intent with its order in flight, ends that intent
   with an outcome other than a revocation or an ambiguity. -/
def succeeds (ev : OrderEvent) (a : ActiveIntent) : Bool :=
  a.clientOrderId = some ev.clientOrderId && !ev.isMint &&
    match ev.name with
    | .orderFilled => decide (a.targetQty - (a.filled + ev.lastQty) < a.constraints.lotStep)
    | .orderDenied => true
    | .orderRejected =>
      !(ev.duePostOnly || mentions (ev.reason.getD "None") postOnlyMarker) &&
        krakenErrorMarkers.any (mentions (ev.reason.getD "None"))
    | .orderCanceled | .orderExpired =>
      decide (a.intent.mode = .restCancel) || (decide (a.intent.mode = .restHold) && a.holdExpired)
    | _ => false

/- No event delivered under a standing pull ends the pulled order so, a fill the
   divergence trips drop apart. -/
def Heeded : List Effect → Prop
  | [] => True
  | .dispatched ev live a diverges :: older =>
    (openPull older = true → live = true → diverges = false → succeeds ev a = false) ∧ Heeded older
  | _ :: older => Heeded older

instance decidableFinal : DecidablePred Final
  | [] => isTrue trivial
  | .sent _ :: older =>
    have := decidableFinal older
    inferInstanceAs (Decidable (_ ∧ _))
  | .started :: older | .evaluated _ :: older | .rowWritten .. :: older | .cancelSent _ :: older
  | .latched _ :: older | .planAccepted .. :: older | .planEnded _ :: older | .armed .. :: older
  | .pulled .. :: older | .journaled .. :: older | .storeFailed :: older | .dispatched .. :: older
  | .submitReturned _ :: older | .froze :: older | .lifted _ :: older | .emptied .. :: older
  | .reread .. :: older => decidableFinal older

instance decidableHeeded : DecidablePred Heeded
  | [] => isTrue trivial
  | .dispatched .. :: older =>
    have := decidableHeeded older
    inferInstanceAs (Decidable (_ ∧ _))
  | .started :: older | .evaluated _ :: older | .rowWritten .. :: older | .cancelSent _ :: older
  | .latched _ :: older | .planAccepted .. :: older | .planEnded _ :: older | .armed .. :: older
  | .pulled .. :: older | .journaled .. :: older | .storeFailed :: older | .sent _ :: older
  | .submitReturned _ :: older | .froze :: older | .lifted _ :: older | .emptied .. :: older
  | .reread .. :: older => decidableHeeded older

theorem pulledSince_of_accepted {trace : List Effect} {planId : PlanId}
    (last : lastAccepted trace = some planId) (calm : openPull trace = false) :
    pulledSince planId trace = false := by
  induction trace with
  | nil => rfl
  | cons x older ih =>
    cases x with
    | planAccepted p b t cycle =>
      have same : p.planId = planId := by simpa [lastAccepted] using last
      simp [pulledSince, same]
    | pulled of index => simp [openPull] at calm
    | _ => exact ih last calm

-- the assertions

/- What a run keeps of the trace, with `R` the running plan of a standing pull. -/
structure Held (R : Running → Prop) (s : St) : Prop where
  accepted : ∀ p, s.run.plan = some p → lastAccepted s.trace = some p.planId
  final : Heeded s.trace → Final s.trace
  pull : Heeded s.trace → openPull s.trace = true → s.killTripped = false → s.run.plan ≠ none →
    R s.run

/- No pull stands, or nothing runs under it. -/
abbrev Loose : St → Prop := Held fun _ => False

def Ended (s : St) : Prop := Heeded s.trace → Final s.trace

/- An intent waiting on the cancel that a pull sent. -/
structure Waiting (a : ActiveIntent) : Prop where
  phase : a.phase = .cancelling
  requested : a.cancelRequested = true
  retreating : a.fallingBack = false

def Pulled (r : Running) : Prop := r.live = true ∧ Waiting r.ctx

section
variable {R R' : Running → Prop} {s t : St}

theorem Held.mono (h : Held R s) (weaker : R s.run → R' s.run) : Held R' s :=
  ⟨h.accepted, h.final, fun heeded opened unlatched running => weaker (h.pull heeded opened unlatched running)⟩

theorem Held.loose (h : Held R s) (not : ¬R s.run) : Loose s := h.mono not

theorem Held.of_loose (h : Loose s) : Held R s := h.mono False.elim

theorem Held.idle (h : Held R s) (stopped : s.run.plan = none) : Loose s :=
  ⟨h.accepted, h.final, fun _ _ _ running => absurd stopped running⟩

theorem Held.blind (h : Held R s) (same : trading t = trading s) : Held R t where
  accepted := by
    rw [run_of_trading same, trace_of_trading same]
    exact h.accepted
  final := by
    rw [trace_of_trading same]
    exact h.final
  pull := by
    rw [trace_of_trading same, killTripped_of_trading same, run_of_trading same]
    exact h.pull

/- A note and a watch leave the acceptances, the pulls and the sends alone. -/
theorem noted {x : Effect} (plain : isNote x = true ∨ isWatch x = true) (trace : List Effect) :
    lastAccepted (x :: trace) = lastAccepted trace ∧ openPull (x :: trace) = openPull trace ∧
      (Heeded (x :: trace) → Heeded trace) ∧ (Final (x :: trace) ↔ Final trace) := by
  cases x <;> first
    | exact ⟨rfl, rfl, id, Iff.rfl⟩
    | exact ⟨rfl, rfl, And.right, Iff.rfl⟩
    | simp [isNote, isWatch] at plain

theorem Held.note (h : Held R s) {x : Effect} (plain : isNote x = true ∨ isWatch x = true) :
    Held R { s with trace := x :: s.trace } := by
  obtain ⟨last, opened, heeds, final⟩ := noted plain s.trace
  exact
    { accepted := fun p running => last.trans (h.accepted p running)
      final := fun heeded => final.mpr (h.final (heeds heeded))
      pull := fun heeded standing => h.pull (heeds heeded) (opened ▸ standing) }

end

theorem held_background (R : Running → Prop) : Background (Held R) Ended where
  ask := fun _ h => ⟨h.accepted, h.final, h.pull⟩
  dies := fun _ h => h.final
  aside := fun _ _ same h => h.blind same.trading
  note := fun _ _ plain h => h.note (.inl plain)
  file := fun _ _ _ h => ⟨h.accepted, h.final, h.pull⟩

theorem held_blind (R : Running → Prop) : Blind (Held R) where
  blind := fun _ _ same h => h.blind same
  watched := fun _ _ watch h => h.note (.inr watch)

theorem held_drops (e : Env) (R : Running → Prop) : Leaves e (Held R) Ended dropPlan := by
  refine keeps_modify fun s h => ?_
  cases running : s.run.plan with
  | none => exact ⟨fun p gone => (by cases gone), h.final, fun _ _ _ gone => absurd rfl gone⟩
  | some p =>
    have noted := h.note (x := .planEnded p.planId) (.inl rfl)
    exact ⟨fun p gone => (by cases gone), noted.final, fun _ _ _ gone => absurd rfl gone⟩

theorem Held.moved {R R' : Running → Prop} {s : St} {r : Running} (h : Held R s)
    (plan : r.plan = s.run.plan ∨ r.plan = none) (moves : R s.run → R' r) :
    Held R' { s with run := r } where
  accepted := fun p running => h.accepted p (by
    rcases plan with same | gone
    · rw [← same]
      exact running
    · rw [gone] at running
      cases running)
  final := h.final
  pull := fun heeded standing unset running => moves (h.pull heeded standing unset fun gone =>
    running (plan.elim (fun same => same.trans gone) id))

/- An assertion that every move of the running plan keeps. -/
theorem held_routine {R : Running → Prop} (stable : ∀ r r', R r → R r') :
    Routine (Held R) Ended where
  toBackground := held_background R
  toBlind := held_blind R
  run := fun _ _ plan h => h.moved plan (stable _ _)
  latch := fun s h => ⟨h.accepted, h.final, fun _ _ set => by cases set⟩

theorem loose_routine : Routine Loose Ended := held_routine fun _ _ h => h
theorem free_routine : Routine (Held fun _ => True) Ended := held_routine fun _ _ h => h

theorem loose_submits (e : Env) : Submits e Loose Ended := by
  let ready (p : ProbePlan) (s : St) : Prop :=
    Loose s ∧ lastAccepted s.trace = some p.planId ∧ (Heeded s.trace → openPull s.trace = false)
  have background (p : ProbePlan) : Background (ready p) Ended :=
    { ask := fun s h => ⟨loose_routine.ask s h.1, h.2⟩
      dies := fun s h => loose_routine.dies s h.1
      aside := fun s t same h => ⟨h.1.blind same.trading, by rw [trace_of_trading same.trading]; exact h.2⟩
      note := fun s x plain h => by
        obtain ⟨last, opened, heeds, -⟩ := noted (.inl plain) s.trace
        exact ⟨h.1.note (.inl plain), last.trans h.2.1, fun heeded => opened.trans (h.2.2 (heeds heeded))⟩
      file := fun s l filed h => ⟨loose_routine.file s l filed h.1, h.2⟩ }
  refine loose_routine.submits_from background (fun s p unset _ running h => ?_) (fun _ _ h => h.1)
    (fun _ s _ h => ⟨loose_routine.run s _ (.inl rfl) h.1, h.2⟩) (fun p s x own h => ?_)
    (fun _ _ h => ⟨h.accepted, h.final, h.pull⟩)
  · refine ⟨h, h.accepted p running, fun heeded => Bool.eq_false_iff.mpr fun standing => ?_⟩
    exact h.pull heeded standing unset (by rw [running]; exact Option.some_ne_none p)
  · exact
      { accepted := h.1.accepted
        final := fun heeded =>
          ⟨pulledSince_of_accepted (own ▸ h.2.1) (h.2.2 heeded), h.1.final heeded⟩
        pull := h.1.pull }

theorem loose_accepting : Accepting Loose Ended where
  toMoving := loose_routine.toMoving
  cleared := fun _ h => ⟨h.accepted, h.final, h.pull⟩
  edited := fun _ _ _ h => ⟨h.accepted, h.final, h.pull⟩
  accepted := fun s r p b t cycle running h =>
    { accepted := fun q now => by
        rw [running] at now
        cases now
        rfl
      final := h.final
      pull := fun _ standing => by cases standing }
  armed := fun _ _ h => ⟨h.accepted, h.final, h.pull⟩

theorem loose_delivery (e : Env) (n : Nat) (x : Delivery) : Leaves e Loose Ended (reenter n x) :=
  loose_routine.keeps_reenter (loose_submits e) n x

-- the ends of the pulled intent

section
variable {e : Env} {deliver : Delivery → M Unit} (hl : ∀ x, Leaves e Loose Ended (deliver x))
include hl

theorem held_kill (R : Running → Prop) (reason : String) :
    Leads e (Held R) (Held R) Loose Ended (tripKill deliver reason) :=
  loose_routine.tripKill_leads hl (fun _ h => ⟨h.accepted, h.final, fun _ _ set => by cases set⟩)
    (fun _ h => h.of_loose) reason

theorem held_kills (R : Running → Prop) : Kills e (Held R) Ended deliver :=
  fun reason => (held_kill hl R reason).weaken (fun _ h => h) (fun _ h => h) fun _ h => h.of_loose

theorem finish_leads (outcome : Option IntentOutcome) (reasons : List String) (filledQty : ℚ) :
    Leads e (Held fun r => r.live = true) (Held fun _ => True) Loose Ended
      (finishActive deliver outcome reasons filledQty) := by
  have free (s : St) (h : Held (fun r => r.live = true) s) : Held (fun _ => True) s :=
    h.mono fun _ => trivial
  have journaling (o : IntentOutcome) (index : Nat) : Leads e (Held fun r => r.live = true)
      (Held fun _ => True) Loose Ended (do
        let _ ← journalIntent index o reasons filledQty
        pure ()) :=
    leads_bind (((held_background _).journalIntent_leads index o reasons filledQty).weaken
      (fun _ h => h) free (fun _ h => h.1.idle h.2)) fun _ => fun _ h => h
  have reconciling : Leads e (Held fun _ => True) (Held fun _ => True) Loose Ended
      (reconcileTerminal deliver) := by
    refine leads_gets_bind fun s h => leads_bind (free_routine.ask_leads _) (fun actual => ?_) s h
    cases actual with
    | none => exact held_kill hl _ _
    | some q => exact leads_when (fun _ => held_kill hl _ _) (fun _ _ h => h)
  have entering : Leads e (Held fun _ => True) (Held fun _ => True) Loose Ended (enter .done) :=
    leads_bind (free_routine.moved_leads fun _ => ⟨rfl, .inl rfl⟩) fun _ _ h => h
  refine leads_get_bind fun s h => ?_
  rw [wp_ite]
  split
  · suffices body : Leads e (Held fun r => r.live = true) (Held fun _ => True) Loose Ended _ from body s h
    refine leads_bind ?_ fun _ => leads_bind entering fun _ =>
      leads_bind (free_routine.moved_leads fun _ => ⟨rfl, .inl rfl⟩) fun _ => reconciling
    cases outcome with
    | none => exact fun s h => free s h
    | some o => exact journaling o _
  · exact h.loose fun live => ‹¬_› live

theorem finishRevoked_leads :
    Leads e (Held fun r => r.live = true) Loose Loose Ended (finishRevoked deliver) := by
  refine leads_gets_bind fun s h => leads_bind (finish_leads hl _ _ _) (fun _ => ?_) s h
  exact (free_routine.haltPlan_leads free_routine.keeps_dropPlan _ _).weaken (fun _ h => h)
    (fun _ h => h.1.idle h.2) (fun _ h => h.1.idle h.2)

-- the events of the pulled order

/- The running plan pinned, as it is between a read of it and its next move. -/
def At (r : Running) (s : St) : Prop := Held (fun _ => True) s ∧ s.run = r

omit hl in
theorem at_background (r : Running) : Background (At r) Ended := free_routine.pinned r

omit hl in
theorem At.held {R : Running → Prop} {r : Running} {s : St} (h : At r s) (here : R r) : Held R s :=
  h.1.mono fun _ => h.2 ▸ here

omit hl in
theorem pulled_handling : Handling (Held Pulled) Ended where
  toBackground := held_background Pulled
  credit := fun _ _ _ h => h.moved (.inl rfl) fun pulled =>
    ⟨pulled.1, pulled.2.phase, pulled.2.requested, pulled.2.retreating⟩

omit hl in
theorem keeps_waiting {f : ActiveIntent → ActiveIntent} (keeps : ∀ a, Waiting a → Waiting (f a)) :
    Leaves e (Held Pulled) Ended (setCtx f) :=
  keeps_modify fun _ h => h.moved (.inl rfl) fun pulled => ⟨pulled.1, keeps _ pulled.2⟩

omit hl in
/- An intent asked to cancel, and not to fall back, is pulled once it waits on the cancel. -/
theorem cancelling_leads : Leads e
    (Held fun r => r.live = true ∧ r.ctx.cancelRequested = true ∧ r.ctx.fallingBack = false)
    (Held Pulled) (Held Pulled) Ended (enter .cancelling) :=
  leads_bind (leads_modify fun _ h => h.moved (.inl rfl) fun asked => ⟨asked.1, rfl, asked.2.1, asked.2.2⟩)
    fun _ => keeps_bind (keeps_when (keeps_bind (pulled_handling.keeps_now) fun _ =>
      keeps_waiting fun _ w => ⟨w.phase, w.requested, w.retreating⟩)) fun _ =>
    keeps_when (keeps_bind pulled_handling.keeps_now fun _ =>
      keeps_waiting fun _ w => ⟨w.phase, w.requested, w.retreating⟩)

omit hl in
theorem keeps_cancelling : Leaves e (Held Pulled) Ended (enter .cancelling) :=
  cancelling_leads.weaken (fun _ h => h.mono fun pulled => ⟨pulled.1, pulled.2.requested, pulled.2.retreating⟩)
    (fun _ h => h) fun _ h => h

/- A reprice of a pulled intent revokes it. -/
theorem reprice_leads {r : Running} (pulled : Pulled r) :
    Leads e (At r) Loose Loose Ended (reprice deliver) := by
  refine leads_gets_bind fun s h => ?_
  rw [wp_ite, if_pos (h.2 ▸ pulled.2.requested), wp_ite,
    if_neg (by simp [h.2, pulled.2.retreating])]
  exact finishRevoked_leads hl s (h.held pulled.1)

theorem refusing_leads {i j : St → Prop} (reason : String) {m : M Unit}
    (body : Leads e i j Loose Ended m) (loose : ∀ s, Loose s → j s) :
    Leads e i j Loose Ended (refuseOnRaise deliver reason m) :=
  leads_attempt body ((loose_routine.keeps_refusal (loose_routine.keeps_tripKill hl) reason).leads loose fun _ h => h)

omit hl in
theorem at_credited {r : Running} (f : ActiveIntent → ActiveIntent) {k : St → Prop} :
    Leads e (At r) (At { r with ctx := f r.ctx }) k Ended (setCtx f) :=
  leads_modify fun s h => ⟨h.1.moved (.inl rfl) id, by rw [← h.2]⟩

omit hl in
/- The order's own fill, one that leaves the target short. -/
theorem onFill_leads {r : Running} (pulled : Pulled r) (ev : OrderEvent)
    (short : ¬r.ctx.targetQty - (r.ctx.filled + ev.lastQty) < r.ctx.constraints.lotStep) :
    Leads e (At r) (Held Pulled) (Held Pulled) Ended (onFill deliver ev) := by
  let credited : Running := { r with ctx := { r.ctx with
    filled := r.ctx.filled + ev.lastQty, orderFilled := r.ctx.orderFilled + ev.lastQty } }
  have pinned := at_background credited
  have kept (s : St) (h : At credited s) : Held Pulled s :=
    h.held ⟨pulled.1, pulled.2.phase, pulled.2.requested, pulled.2.retreating⟩
  have recorded (t : Int) (state : RowState) : Leaves e (At credited) Ended
      (updateRow { state := some state, event := some (fillPayload ev t none), addFilledQty := ev.lastQty }) :=
    pinned.keeps_updateRow (lineBalanced_own_fill ev t (some state))
  have mirrored (c : Option OrderId) :
      Leaves e (At credited) Ended (forSome c fun c => mirrorRowFill c ev.lastQty) :=
    keeps_forSome fun _ => keeps_bind keeps_get fun _ => keeps_forSome fun _ => pinned.keeps_setRow _ _
  refine leads_bind (at_credited _) fun _ => leads_bind (pinned.ask_leads _) fun t =>
    leads_gets_bind fun s h => ?_
  suffices body : Leads e (At credited) (Held Pulled) (Held Pulled) Ended _ from body s h
  refine leads_bind ((recorded t _).leads (fun _ h => h) kept) fun _ =>
    leads_bind ((mirrored _).leads (fun _ h => h) kept) fun _ => leads_when (fun done => ?_) fun _ => kept
  rw [h.2] at done
  exact absurd done short

/- The order's own rejection, a verdict of the venue's markers apart. -/
theorem onRejected_leads {r : Running} (pulled : Pulled r) (ev : OrderEvent) (payload : RowEvent)
    (still : credited payload = 0)
    (spared : ¬(ev.duePostOnly || mentions (ev.reason.getD "None") postOnlyMarker) = true →
      ¬krakenErrorMarkers.any (mentions (ev.reason.getD "None")) = true) :
    Leads e (At r) (Held Pulled) (Held Pulled) Ended (onRejected deliver ev payload) := by
  have pinned := at_background r
  have kept (s : St) (h : At r s) : Held Pulled s := h.held pulled
  have recorded (state : RowState) :
      Leaves e (At r) Ended (updateRow { state := some state, event := some payload }) :=
    pinned.keeps_updateRow still.symm
  have repriced : Leads e (At r) (Held Pulled) (Held Pulled) Ended
      (resubmitOnEvent deliver (reprice deliver)) :=
    (refusing_leads hl _ (reprice_leads hl pulled) fun _ h => h).weaken (fun _ h => h)
      (fun _ h => Held.of_loose h) (fun _ h => Held.of_loose h)
  have stranded : Leaves e (Held Pulled) Ended (do
      let a ← ctx
      let _ ← journalIntent a.index .ambiguous [ev.reason.getD "None"] a.filled
      dropRemainderAfterAmbiguity) :=
    keeps_bind (keeps_gets _) fun _ => keeps_bind (pulled_handling.keeps_journalIntent _ _ _ _)
      fun _ => pulled_handling.keeps_dropRemainder (held_drops e Pulled)
  refine leads_ite (fun _ => ?_) (fun notPostOnly => leads_ite (fun marked => ?_) fun _ => ?_)
  · exact leads_bind ((recorded _).leads (fun _ h => h) kept) fun _ => repriced
  · exact absurd marked (spared notPostOnly)
  · exact leads_bind ((recorded _).leads kept kept) fun _ => stranded

/- The acknowledgement of the cancel, in a mode that does not take it for its own end. -/
theorem onCancelAck_leads {r : Running} (pulled : Pulled r) (payload : RowEvent)
    (still : credited payload = 0) (spared : r.ctx.intent.mode ≠ .restCancel)
    (waiting : ¬(r.ctx.intent.mode = .restHold ∧ r.ctx.holdExpired = true)) :
    Leads e (At r) (Held Pulled) (Held Pulled) Ended (onCancelAck deliver payload) := by
  have pinned := at_background r
  have kept (s : St) (h : At r s) : Held Pulled s := h.held pulled
  have recorded : Leaves e (At r) Ended
      (updateRow { state := some .canceled, event := some payload }) :=
    pinned.keeps_updateRow still.symm
  refine leads_gets_bind fun s h => ?_
  rw [h.2, wp_ite, if_pos pulled.2.requested]
  suffices body : Leads e (At r) (Held Pulled) (Held Pulled) Ended _ from body s h
  refine leads_bind (recorded.leads (fun _ h => h) kept) fun _ => ?_
  rw [if_neg (by simp [pulled.2.retreating]), if_neg spared, if_neg waiting]
  exact (finishRevoked_leads hl).weaken (fun _ h => h.held pulled.1)
    (fun _ h => Held.of_loose h) (fun _ h => Held.of_loose h)

/- An event of the pulled order that ends it as no success leaves it pulled or its plan over. -/
theorem onActiveEvent_leads (hd : ∀ x, Leaves e (Held Pulled) Ended (deliver x)) {r : Running}
    (pulled : Pulled r) (ev : OrderEvent) (own : r.ctx.clientOrderId = some ev.clientOrderId)
    (spared : succeeds ev r.ctx = false) :
    Leads e (At r) (Held Pulled) (Held Pulled) Ended (onActiveEvent deliver ev) := by
  have waiting {m : M Unit} (body : Leaves e (Held Pulled) Ended m) :
      Leads e (At r) (Held Pulled) (Held Pulled) Ended m :=
    Leads.weaken body (fun s h => h.held pulled) (fun _ h => h) fun _ h => h
  have stranded (refusal : String) : Leaves e (Held Pulled) Ended (do
      let a ← ctx
      let _ ← journalIntent a.index .ambiguous [refusal] a.filled
      dropRemainderAfterAmbiguity) :=
    keeps_bind (keeps_gets _) fun _ => keeps_bind (pulled_handling.keeps_journalIntent _ _ _ _)
      fun _ => pulled_handling.keeps_dropRemainder (held_drops e Pulled)
  refine leads_bind ((at_background r).ask_leads _) fun t => leads_ite (fun _ => waiting ?_)
    (fun notMint => ?_)
  · exact keeps_bind (pulled_handling.keeps_updateRow rfl) fun _ =>
      keeps_bind pulled_handling.keeps_armReread fun _ =>
      pulled_handling.keeps_strand (held_drops e Pulled) _
  simp only [succeeds, own, notMint, decide_true, Bool.true_and, Bool.not_false] at spared
  cases named : ev.name with
  | orderAccepted =>
    exact waiting (keeps_bind (pulled_handling.keeps_updateRow rfl) fun _ =>
      keeps_bind (keeps_gets _) fun _ => keeps_when (keeps_bind
        (keeps_waiting fun _ w => ⟨w.phase, by rfl, w.retreating⟩) fun _ =>
        keeps_bind keeps_cancelling fun _ => pulled_handling.keeps_cancel hd))
  | orderFilled =>
    exact onFill_leads pulled ev (by simpa only [named, decide_eq_false_iff_not] using spared)
  | orderRejected =>
    refine onRejected_leads hl pulled ev _ rfl fun notPostOnly marked => ?_
    simp only [named, notPostOnly, marked] at spared
    cases spared
  | orderDenied => simp [named] at spared
  | orderCanceled =>
    simp only [named, Bool.or_eq_false_iff, decide_eq_false_iff_not] at spared
    exact onCancelAck_leads hl pulled _ rfl spared.1 (by simpa using spared.2)
  | orderExpired =>
    simp only [named, Bool.or_eq_false_iff, decide_eq_false_iff_not] at spared
    exact onCancelAck_leads hl pulled _ rfl spared.1 (by simpa using spared.2)
  | orderCancelRejected =>
    exact waiting (keeps_bind (pulled_handling.keeps_updateRow rfl) fun _ => stranded _)
  | orderCancelDenied =>
    exact waiting (keeps_bind (pulled_handling.keeps_updateRow rfl) fun _ => stranded _)
  | other name => exact waiting (pulled_handling.keeps_updateRow rfl)

/- A dispatch of an event the pull heeds. -/
theorem dispatch_leads (hd : ∀ x, Leaves e (Held Pulled) Ended (deliver x)) {r : Running}
    (pulled : Pulled r) (ev : OrderEvent) {s : St} (start : At r s)
    (heeded : (ev.name = .orderFilled && St.diverges s ev) = false → succeeds ev r.ctx = false) :
    wp e (dispatch deliver ev) (Post.leaving (Held Pulled) Ended) s := by
  have kept (t : St) (h : At r t) : Held Pulled t := h.held pulled
  have handling (t : St) (h : At r t) (spared : succeeds ev r.ctx = false) :
      wp e (do
        let s ← get
        if s.run.live ∧ s.run.ctx.clientOrderId = some ev.clientOrderId then onActiveEvent deliver ev
        else onDetachedEvent ev) (Post.leaving (Held Pulled) Ended) t := by
    simp only [wp_bind, wp_get, wp_ite]
    split
    · rename_i own
      exact onActiveEvent_leads hl hd pulled ev (h.2 ▸ own.2) spared t h
    · exact pulled_handling.keeps_onDetachedEvent ev t (kept t h)
  rw [dispatch, wp_bind]
  by_cases fill : ev.name = .orderFilled
  · rw [if_pos fill]
    refine wp_mono (pulled_handling.tripOnFill_leads (held_kills hl Pulled) (at_background r) kept ev
      start) (fun tripped t left => ?_) (fun _ h => h) (fun _ h => h)
    cases tripped with
    | true => exact left.1
    | false => exact handling t (left.2 rfl).1 (heeded (by simp [(left.2 rfl).2]))
  · rw [if_neg fill]
    exact handling s start (heeded (by simp [fill]))

theorem keeps_orderEvent (hd : ∀ x, Leaves e (Held Pulled) Ended (deliver x)) (ev : OrderEvent) :
    Leaves e (Held Pulled) Ended (orderEvent deliver ev) := by
  refine keeps_get_bind fun s h => ?_
  simp only [wp_bind, wp_emit]
  have noted := h.note (x := .dispatched ev s.run.live s.run.ctx
    (ev.name = .orderFilled && St.diverges s ev)) (.inl rfl)
  by_cases spared : s.run.live = true → (ev.name = .orderFilled && St.diverges s ev) = false →
      succeeds ev s.run.ctx = false
  · by_cases pulled : Pulled s.run
    · exact dispatch_leads hl hd pulled ev ⟨noted.mono fun _ => trivial, rfl⟩ (spared pulled.1)
    · exact (loose_routine.keeps_dispatch hl (loose_routine.keeps_tripKill hl) (loose_submits e) ev).elim (noted.loose pulled)
        (fun _ _ h => Held.of_loose h) (fun _ h => Held.of_loose h) (fun _ h => h)
  · -- the run is not heeded from here on
    exact (loose_routine.keeps_dispatch hl (loose_routine.keeps_tripKill hl) (loose_submits e) ev).elim
      ⟨noted.accepted, noted.final, fun heeded standing _ _ => spared (heeded.1 standing)⟩
      (fun _ _ h => Held.of_loose h) (fun _ h => Held.of_loose h) (fun _ h => h)

end

/- By induction on how deep the adapter nests its deliveries. -/
theorem pulled_delivery (e : Env) (n : Nat) (x : Delivery) :
    Leaves e (Held Pulled) Ended (reenter n x) := by
  induction n generalizing x with
  | zero => exact keeps_pure ()
  | succ n ih =>
    have hl := loose_delivery e n
    cases x with
    | own ev => exact keeps_attempt (keeps_orderEvent hl ih ev) (keeps_pure ())
    | external ev => exact pulled_handling.keeps_onExternalOrderEvent (held_kills hl Pulled) ev

-- the tick and the quote

theorem pulled_drafts : Drafts (Held Pulled) Ended where
  toBackground := held_background Pulled
  cleared := fun _ h => ⟨h.accepted, h.final, h.pull⟩
  edited := fun _ _ _ h => ⟨h.accepted, h.final, h.pull⟩

theorem pulled_armed (s : St) (w : PendingDraft) (h : Held Pulled s) :
    Held Pulled { s with drafting.pendingDraft := some w } := ⟨h.accepted, h.final, h.pull⟩

section
variable {e : Env} {deliver : Delivery → M Unit} (hl : ∀ x, Leaves e Loose Ended (deliver x))
  (hd : ∀ x, Leaves e (Held Pulled) Ended (deliver x))
include hl hd

omit hl hd in
/- Where the running plan is not a pulled intent's, no pull stands. -/
theorem keeps_loosely {m : M Unit} (body : Leaves e Loose Ended m) {s : St} (h : Held Pulled s)
    (not : ¬Pulled s.run) : wp e m (Post.leaving (Held Pulled) Ended) s :=
  body.elim (h.loose not) (fun _ _ h => Held.of_loose h) (fun _ h => Held.of_loose h) (fun _ h => h)

omit hl in
/- The pull itself, from a state no pull stands in. -/
theorem revoke_leads (reasons : List String) : Leads e (fun s => Loose s ∧ s.run.live = true)
    (Held Pulled) (Held Pulled) Ended (revoke deliver reasons) := by
  refine leads_get_bind fun s h => ?_
  have opening (planId : Option PlanId) (index : Nat) :
      Leads e (fun s => Loose s ∧ s.run.live = true) (Held fun r => r.live = true) (Held Pulled) Ended
        (emit (.pulled planId index)) :=
    leads_modify fun u h => ⟨h.1.accepted, h.1.final, fun _ _ _ _ => h.2⟩
  suffices body : Leads e (fun s => Loose s ∧ s.run.live = true) (Held Pulled) (Held Pulled) Ended _ from
    body s h
  exact leads_bind (opening _ _) fun _ =>
    leads_bind (leads_modify fun _ h => h.moved (.inl rfl) fun live => ⟨live, rfl, rfl⟩) fun _ =>
    leads_bind cancelling_leads fun _ => pulled_handling.keeps_cancel hd

theorem poll_leads (t : Int) (v : GateVerdict) :
    Leads e (fun s => Held Pulled s ∧ s.run.live = true) (Held Pulled) (Held Pulled) Ended
      (poll deliver t v) := by
  have hs := loose_submits e
  refine leads_gets_bind fun s h => ?_
  cases phase : s.run.ctx.phase with
  | awaitingQuote =>
    exact keeps_loosely (keeps_when (loose_routine.keeps_finishActive (loose_routine.keeps_tripKill hl) _ _ _)) h.1 fun pulled => by
      cases phase.symm.trans pulled.2.phase
  | awaitingReprice =>
    exact keeps_loosely (loose_routine.keeps_pollWaiting hl (loose_routine.keeps_tripKill hl) hs _ _) h.1 fun pulled => by
      cases phase.symm.trans pulled.2.phase
  | resting =>
    have loose : Loose s := h.1.loose fun pulled => by cases phase.symm.trans pulled.2.phase
    have boxed : Leads e (fun s => Loose s ∧ s.run.live = true) (Held Pulled) (Held Pulled) Ended _ :=
      Leads.weaken (loose_routine.keeps_timeBox hl) (fun _ h => h.1) (fun _ h => Held.of_loose h)
        (fun _ h => Held.of_loose h)
    exact (leads_gets_bind fun u h => (leads_ite (fun _ => revoke_leads hd _) fun _ =>
      leads_ite (fun _ => revoke_leads hd _) fun _ => leads_when (fun _ => boxed)
        fun _ _ h => Held.of_loose h.1) u h) s ⟨loose, h.2⟩
  | cancelling => exact keeps_when (pulled_handling.keeps_strand (held_drops e Pulled) _) s h.1
  | ioc => exact keeps_when (pulled_handling.keeps_strand (held_drops e Pulled) _) s h.1
  | done => exact keeps_when (pulled_handling.keeps_strand (held_drops e Pulled) _) s h.1

theorem keeps_pump (t : Int) : Leaves e (Held Pulled) Ended (pump deliver t) := by
  refine keeps_get_bind fun s h => ?_
  rw [wp_forSome]
  refine ⟨fun p running => ?_, fun _ => h⟩
  cases live : s.run.live with
  | true =>
    have pinned := (held_background Pulled).pinned s.run
    exact leads_bind ((pinned.keeps_evaluate t).leads (fun _ h => h) fun _ h => h.1)
      (fun v => (poll_leads hl hd t v).weaken (fun u h => ⟨h.1, h.2 ▸ live⟩) (fun _ h => h) fun _ h => h)
      s ⟨h, rfl⟩
  | false =>
    exact keeps_loosely (keeps_bind (loose_routine.keeps_evaluate t) fun _ =>
      loose_routine.keeps_startNext _ _) h fun pulled => by cases live.symm.trans pulled.1

omit hl in
theorem keeps_freeze : Leaves e (Held Pulled) Ended (freeze deliver) := by
  have resting : Leaves e Loose Ended (do
      setCtx fun a => { a with revokeReasons := ["socket_down"] }
      enter .cancelling) :=
    keeps_bind (loose_routine.keeps_setCtx _) fun _ => loose_routine.keeps_enter _
  refine keeps_bind pulled_handling.keeps_now fun t => keeps_bind keeps_get fun s =>
    keeps_bind ((held_blind _).socketFree.keeps_watched (x := fun _ => .froze) (fun _ => rfl) fun _ => rfl)
    fun _ => keeps_bind (pulled_handling.keeps_cancelResting hd
      (keeps_waiting fun _ w => ⟨w.phase, rfl, rfl⟩) _) fun _ => leads_gets_bind fun u h => ?_
  rw [wp_when]
  split
  · rename_i out
    exact keeps_loosely resting h fun pulled => by cases out.2.symm.trans pulled.2.phase
  · exact h

omit hd in
/- A plan is taken up where none runs, and no pull stands there. -/
theorem keeps_takePlan (t : Int) : Leaves e (Held Pulled) Ended (takePlan deliver t) := by
  have idly {m : M Unit} (body : Leaves e Loose Ended m) {s : St} (h : Held Pulled s) :
      wp e (when (s.run.plan = none) m) (Post.leaving (Held Pulled) Ended) s := by
    rw [wp_when]
    split
    · exact body.elim (h.idle ‹_›) (fun _ _ h => Held.of_loose h) (fun _ h => Held.of_loose h) (fun _ h => h)
    · exact h
  have picking : Leaves e (Held Pulled) Ended (do
      let s ← Prog.get
      when (s.run.plan = none) (pickup t)) :=
    keeps_get_bind fun s h => idly (loose_accepting.keeps_pickup fun p => loose_accepting.keeps_accept loose_accepting.accepted p _ _ _) h
  have drafting : Leaves e (Held Pulled) Ended (do
      let s ← Prog.get
      when (s.run.plan = none) (draftCyclePlan deliver t)
      let s ← Prog.get
      when (s.run.plan = none) (pickup t)) :=
    keeps_get_bind fun s h => (wp_bind _ _).mpr (wp_mono
      (idly (loose_accepting.keeps_draftCyclePlan loose_routine.markFree (loose_routine.keeps_tripKill hl) t) h) (fun _ u h => picking u h) (fun _ h => h) fun _ h => h)
  exact keeps_bind keeps_get fun _ => keeps_when (keeps_bind (keeps_when
    (pulled_drafts.keeps_rearmCycleDraft
      (pulled_drafts.keeps_armCycleDraft (held_blind _).markFree pulled_armed _)))
    fun _ => drafting)

theorem keeps_onTimer : Leaves e (Held Pulled) Ended (onTimer deliver) := by
  have kills := held_kills hl Pulled
  have b := held_blind Pulled
  have passing (t : Int) : Leaves e (Held Pulled) Ended (passes deliver t) :=
    pulled_handling.keeps_passes kills hd (pulled_handling.keeps_deriveOnce b.markFree t)
      (pulled_handling.keeps_liftFreeze b.socketFree) (keeps_freeze hd)
      (pulled_handling.keeps_rereadPass kills b.socketFree t)
  exact keeps_bind pulled_handling.keeps_now fun t => keeps_attempt (keeps_bind (passing t) fun _ =>
    keeps_bind (keeps_takePlan hl t) fun _ => keeps_bind (keeps_pump hl hd t) fun _ =>
    pulled_handling.keeps_refreshGate t) (held_drops e Pulled)

omit hd in
/- A quote moves an intent that waits for one, which no pulled intent does. -/
theorem keeps_onQuote (symbol : Pair) (bid ask : Option ℚ) :
    Leaves e (Held Pulled) Ended (onQuote deliver symbol bid ask) := by
  have hs := loose_submits e
  have storing (stored : Bool) : Leads e (Held Pulled) (Held Pulled) Loose Ended (when stored (do
      let t ← now
      setCtx fun a => { a with
        bid := asPrice bid, ask := asPrice ask, lastQuoteAt := some t, quoteSeq := a.quoteSeq + 1 })) :=
    leads_when (fun _ => leads_bind (pulled_handling.ask_leads _) fun _ => leads_modify fun _ h =>
      h.moved (.inl rfl) fun pulled => ⟨pulled.1, pulled.2.phase, pulled.2.requested, pulled.2.retreating⟩)
      fun _ _ h => h
  have arriving (phase : Phase) (other : phase ≠ .cancelling) {m : M Unit}
      (body : Leaves e Loose Ended m) {u : St} (here : u.run.ctx.phase = phase) (h : Held Pulled u) :
      wp e m ⟨fun _ => Held Pulled, Loose, Ended⟩ u :=
    body.elim (h.loose fun pulled => other (here.symm.trans pulled.2.phase))
      (fun _ _ h => Held.of_loose h) (fun _ h => h) (fun _ h => h)
  have arrived : Leads e (Held Pulled) (Held Pulled) Loose Ended (quoteArrived deliver symbol bid ask) := by
    refine leads_get_bind fun s h => ?_
    rw [wp_when]
    split
    · suffices body : Leads e (Held Pulled) (Held Pulled) Loose Ended _ from body s h
      refine leads_bind (storing _) fun _ => leads_gets_bind fun u h => ?_
      rw [wp_ite]
      split
      · exact arriving .awaitingQuote (by decide) (loose_routine.keeps_firstSubmission hl (loose_routine.keeps_tripKill hl) hs) ‹_› h
      · rw [wp_when]
        split
        · rename_i out
          exact arriving .awaitingReprice (by decide) (loose_routine.keeps_repriceAtTouch hl (loose_routine.keeps_tripKill hl) hs) out.1 h
        · exact h
    · exact h
  exact (refusing_leads hl _ arrived fun _ h => Held.of_loose h).weaken (fun _ h => h) (fun _ h => h)
    fun _ h => Held.of_loose h

end

/- A fresh process runs nothing. -/
theorem started {s : St} (ended : Ended s) : Held Pulled (fresh s) :=
  ⟨fun p gone => (by cases gone), ended, fun _ _ _ gone => absurd rfl gone⟩

theorem starts (e : Env) {s : St} (ended : Ended s) :
    wp e Timer.start (Post.leaving (Held Pulled) Ended) s :=
  (held_background Pulled).starts_fresh (started ended)

theorem keeps_react (e : Env) (x : Input) : Leaves e (Held Pulled) Ended (react x) := by
  have hl := loose_delivery e e.depth
  have hd := pulled_delivery e e.depth
  have kills := held_kills hl Pulled
  cases x with
  | start => exact fun s h => starts e h.final
  | timer => exact keeps_reader (fun e => onTimer (reenter e.depth)) (keeps_onTimer hl hd)
  | quote symbol bid ask =>
    exact keeps_reader (fun e => onQuote (reenter e.depth) symbol bid ask)
      (keeps_onQuote hl symbol bid ask)
  | order ev =>
    exact keeps_reader (fun e => onOrderEvent (reenter e.depth) ev)
      (keeps_attempt (keeps_orderEvent hl hd ev) (keeps_pure ()))
  | external ev =>
    exact keeps_reader (fun e => onExternalOrderEvent (reenter e.depth) ev)
      (pulled_handling.keeps_onExternalOrderEvent kills ev)
  | socket endpoint connected =>
    exact pulled_handling.keeps_onSocketState (held_blind _).socketFree endpoint connected
  | boundary b =>
    exact keeps_reader (fun e => onBoundary (reenter e.depth) b)
      (pulled_drafts.keeps_onBoundary (held_blind _).markFree kills
        (pulled_drafts.keeps_armCycleDraft (held_blind _).markFree pulled_armed b))
  | dropFile f => exact keeps_modify fun s h => h.blind rfl
  | setKillFile text => exact keeps_modify fun s h => h.blind rfl
  | clearSeriesStart => exact keeps_modify fun s h => h.blind rfl

theorem taken (e : Env) (x : Input) : Taken e (Held Pulled) Ended x where
  live := keeps_react e x
  starts := fun _ _ h => starts e h
  operated := fun idle other s h => by
    cases x with
    | start => exact absurd rfl other
    | dropFile f => exact h
    | setKillFile text => exact h
    | clearSeriesStart => exact h
    | _ => cases idle

/- A run in which no event ends a pulled order as a success sends no order of a plan after
   a pull of one of its intents. -/
theorem revocation_final (e : Env) (disk : Disk) (unset : ActiveIntent) (mem : Nat → Row)
    (xs : List Input) (heeded : Heeded (steps e (idle disk unset mem) xs).st.trace) :
    Final (steps e (idle disk unset mem) xs).st.trace := by
  have stands := stands_steps (idle disk unset mem) xs (fun x _ => taken e x)
    ⟨fun live => (by cases live), fun _ _ => trivial⟩
  cases alive : (steps e (idle disk unset mem) xs).alive with
  | true => exact (stands.1 alive).final heeded
  | false => exact stands.2 alive heeded

/- The gate withdrawn for the poll after the first order and then given back, with what the
   engine holds from there on. -/
def withdrawn (held : ℚ) : Env := { plain with
  gate := fun n => ⟨true, false, false, decide (n < 33 ∨ 35 < n), true⟩
  ownPosition := fun n _ => some (if n < 36 then 0 else held) }

/- The first leg's order pulled, then ended by the event, and then a tick and a quote. -/
def pulledThen (ev : OrderEvent) : List Input :=
  [.start, .dropFile (.plan (twoLegs .execute)), .timer, .quote .btcEur (some 10) (some 11), .timer,
    .order ev, .timer, .quote .btcEur (some 10) (some 11)]

def cancelAck : OrderEvent := { name := .orderCanceled, clientOrderId := "o24", symbol := .btcEur }

def racingFill : OrderEvent :=
  { name := .orderFilled, clientOrderId := "o24", symbol := .btcEur, lastQty := 10, lastPx := 10 }

section
attribute [local irreducible] Final Heeded

/- A cancel acknowledged is heeded. -/
theorem revocation_final_cancelled :
    Final (steps (withdrawn 0) (idle (plainDisk fun _ => none) blankIntent fun _ => blankRow)
      (pulledThen cancelAck)).st.trace :=
  revocation_final (withdrawn 0) (plainDisk fun _ => none) blankIntent (fun _ => blankRow)
    (pulledThen cancelAck) (by decide +kernel)

/- A fill that raced the cancel is not: the second leg's order is sent after the pull. -/
theorem revocation_not_final_after_fill :
    ¬Final (steps (withdrawn 10) (idle (plainDisk fun _ => none) blankIntent fun _ => blankRow)
      (pulledThen racingFill)).st.trace := by
  decide +kernel

end

end Revocation
