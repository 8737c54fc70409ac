import Zcrypto.Engine.LedgerLaws
import Zcrypto.Engine.Timer

/- The footprint of the executor: the handful of changes every one of its functions is
   built from. An assertion those changes keep is kept by each function, and so by
   every run, whatever the adapter delivers from inside a call. -/
namespace Footprint
open ProbePlans ExecGate ExecLedger LedgerLaws Effects Effects.Prog Controller Orders
  OrderEvents Sweeps Pickup CyclePlan Timer

/- What the order path reads and writes. -/
structure Trading where
  ledger : Ledger
  run : Running
  killTripped : Bool
  trace : List Effect
  asks : Nat
  pendingDraft : Option PendingDraft

def trading (s : St) : Trading :=
  ⟨s.disk.ledger, s.run, s.killTripped, s.trace, s.asks, s.drafting.pendingDraft⟩

/- What guards it from beside: the kill file, the sockets' freeze and the equity's marks. -/
structure Guards where
  killFile : Option String
  socketsDown : List (String × Int)
  socketsEmptiedAt : Option Int
  rereadCompletedAt : Option Int
  frozen : Bool
  dayLossHold : Bool
  dayLossHoldDerived : Bool
  drafts : List (Int × DraftRecord)
  seriesStart : Option Int

def guards (s : St) : Guards :=
  ⟨s.disk.killFile, s.sockets.socketsDown, s.sockets.socketsEmptiedAt, s.sockets.rereadCompletedAt,
    s.sockets.frozen, s.holds.dayLossHold, s.holds.dayLossHoldDerived, s.disk.drafts, s.disk.seriesStart⟩

/- A change outside both. -/
structure Aside (s t : St) : Prop where
  trading : trading t = trading s
  guards : guards t = guards s

section
variable {s t : St} (same : trading t = trading s)
include same

theorem ledger_of_trading : t.disk.ledger = s.disk.ledger := congrArg Trading.ledger same
theorem run_of_trading : t.run = s.run := congrArg Trading.run same
theorem killTripped_of_trading : t.killTripped = s.killTripped := congrArg Trading.killTripped same
theorem trace_of_trading : t.trace = s.trace := congrArg Trading.trace same
theorem asks_of_trading : t.asks = s.asks := congrArg Trading.asks same
theorem pendingDraft_of_trading : t.drafting.pendingDraft = s.drafting.pendingDraft :=
  congrArg Trading.pendingDraft same

end

section
variable {s t : St} (same : guards t = guards s)
include same

theorem killFile_of_guards : t.disk.killFile = s.disk.killFile := congrArg Guards.killFile same
theorem frozen_of_guards : t.sockets.frozen = s.sockets.frozen := congrArg Guards.frozen same
theorem socketsEmptiedAt_of_guards : t.sockets.socketsEmptiedAt = s.sockets.socketsEmptiedAt :=
  congrArg Guards.socketsEmptiedAt same
theorem drafts_of_guards : t.disk.drafts = s.disk.drafts := congrArg Guards.drafts same
theorem seriesStart_of_guards : t.disk.seriesStart = s.disk.seriesStart :=
  congrArg Guards.seriesStart same
theorem dayLossHold_of_guards : t.holds.dayLossHold = s.holds.dayLossHold :=
  congrArg Guards.dayLossHold same
theorem dayLossHoldDerived_of_guards : t.holds.dayLossHoldDerived = s.holds.dayLossHoldDerived :=
  congrArg Guards.dayLossHoldDerived same
theorem rereadCompletedAt_of_guards : t.sockets.rereadCompletedAt = s.sockets.rereadCompletedAt :=
  congrArg Guards.rereadCompletedAt same

end

/- A change of the running plan alone, which keeps the plan or drops it. -/
structure Moved (s t : St) : Prop where
  same : t = { s with run := t.run }
  plan : t.run.plan = s.run.plan ∨ t.run.plan = none

/- The effects of the sockets' watch, each noted where a guard changes. -/
def isWatch : Effect → Bool
  | .froze | .lifted _ | .emptied .. | .reread .. => true
  | _ => false

/- The effects a function notes wherever it stands in the tick. -/
def isNote : Effect → Bool
  | .started | .sent _ | .submitReturned _ | .latched _ | .planAccepted .. | .pulled ..
  | .froze | .lifted _ | .emptied .. | .reread .. => false
  | _ => true

/- What a function does that leaves the running plan alone. -/
structure Background (i d : St → Prop) : Prop where
  ask : ∀ s, i s → i { s with asks := s.asks + 1 }
  dies : ∀ s, i s → d { s with asks := s.asks + 1 }
  aside : ∀ s t, Aside s t → i s → i t
  note : ∀ s x, isNote x = true → i s → i { s with trace := x :: s.trace }
  file : ∀ s l, Filing s.disk.ledger l → i s → i { s with disk.ledger := l }

/- What an event of another order does besides: it credits the running intent. -/
structure Handling (i d : St → Prop) : Prop extends Background i d where
  credit : ∀ s filled foreignFilled, i s →
    i { s with run.ctx := { s.run.ctx with filled, foreignFilled } }

/- What the order path does besides: it moves or drops the running plan. -/
structure Moving (i d : St → Prop) : Prop extends Handling i d where
  run : ∀ s r, r.plan = s.run.plan ∨ r.plan = none → i s → i { s with run := r }
  credit := fun s _ _ held => run s _ (.inl rfl) held

/- The order path with the kill switch in it: an assertion that its latch keeps. -/
structure Latching (i d : St → Prop) : Prop extends Moving i d where
  latch : ∀ s, i s → i { s with killTripped := true, trace := .latched s.disk.killFile :: s.trace }
  killFile : ∀ s text, i s → i { s with disk.killFile := some text }

/- An assertion that reads no socket. -/
structure SocketFree (i : St → Prop) : Prop where
  sockets : ∀ s v, i s → i { s with sockets := v }
  watched : ∀ s x, isWatch x = true → i s → i { s with trace := x :: s.trace }

/- An assertion that reads no mark of the equity. -/
structure MarkFree (i : St → Prop) : Prop where
  marks : ∀ s dayLossHold dayLossHoldDerived drafts seriesStart, i s → i { s with
    holds := { s.holds with dayLossHold, dayLossHoldDerived }
    disk := { s.disk with drafts, seriesStart } }

/- An assertion that reads no guard. -/
structure Blind (i : St → Prop) : Prop where
  blind : ∀ s t, trading t = trading s → i s → i t
  watched : ∀ s x, isWatch x = true → i s → i { s with trace := x :: s.trace }

theorem Blind.socketFree {i : St → Prop} (b : Blind i) : SocketFree i where
  sockets := fun s _ held => b.blind s _ rfl held
  watched := b.watched

theorem Blind.markFree {i : St → Prop} (b : Blind i) : MarkFree i where
  marks := fun s _ _ _ _ held => b.blind s _ rfl held

/- An assertion of the order path that reads no guard, and that the kill latch keeps. -/
structure Routine (i d : St → Prop) : Prop extends Latching i d, Blind i where
  aside := fun s t same held => blind s t same.trading held
  killFile := fun s _ held => blind s _ rfl held

/- A pull, which `revoke` alone makes, keeps the assertion. -/
def Pulls (i : St → Prop) : Prop :=
  ∀ s planId index, i s → i { s with trace := .pulled planId index :: s.trace }

/- The chokepoint keeps the assertion whenever the deliveries inside it do. -/
def Submits (e : Env) (i d : St → Prop) : Prop :=
  ∀ deliver order, (∀ x, Leaves e i d (deliver x)) → Leaves e i d (submit deliver order)

/- The kill switch keeps the assertion. -/
def Kills (e : Env) (i d : St → Prop) (deliver : Delivery → M Unit) : Prop :=
  ∀ reason, Leaves e i d (tripKill deliver reason)

/- The line says what the credit moved: its own quantity, or the `credited` beside it. -/
theorem lineBalanced_fill (ev : OrderEvent) (t : Int) (qty : ℚ) (state : Option RowState) :
    LineBalanced { state, event := some (fillPayload ev t (some qty)), addFilledQty := qty } := by
  by_cases same : qty = ev.lastQty <;> simp [LineBalanced, fillPayload, credited, Option.filter, same]

theorem lineBalanced_own_fill (ev : OrderEvent) (t : Int) (state : Option RowState) :
    LineBalanced { state, event := some (fillPayload ev t none), addFilledQty := ev.lastQty } := by
  simp [LineBalanced, fillPayload, credited]

theorem wp_fillCredit {e : Env} {ev : OrderEvent} {row : Row} {Q : Post St ℚ} {s : St}
    (h : ∀ t, Aside s t → Q.ok (St.creditOf s ev row) t) : wp e (fillCredit ev row) Q s := by
  simp only [fillCredit, armRereadAfterMint, wp_bind, wp_get, wp_when, wp_modify, wp_pure]
  split
  · exact h _ ⟨rfl, rfl⟩
  · exact h s ⟨rfl, rfl⟩

theorem SocketFree.keeps_sockets {e : Env} {i d : St → Prop} (b : SocketFree i) {f : St → St}
    (same : ∀ s, f s = { s with sockets := (f s).sockets }) : Leaves e i d (modify f) :=
  keeps_modify fun s start => by
    rw [same s]
    exact b.sockets s _ start

/- The sockets moved, and the effect of it noted beside. -/
theorem SocketFree.keeps_watched {e : Env} {i d : St → Prop} (b : SocketFree i) {f : St → St}
    {x : St → Effect} (watch : ∀ s, isWatch (x s) = true)
    (same : ∀ s, f s = { s with sockets := (f s).sockets, trace := x s :: s.trace }) :
    Leaves e i d (modify f) :=
  keeps_modify fun s start => by
    rw [same s]
    exact b.sockets { s with trace := x s :: s.trace } _ (b.watched s (x s) (watch s) start)

theorem MarkFree.keeps_marks {e : Env} {i d : St → Prop} (b : MarkFree i) {f : St → St}
    (same : ∀ s, f s = { s with
      holds := { s.holds with
        dayLossHold := (f s).holds.dayLossHold
        dayLossHoldDerived := (f s).holds.dayLossHoldDerived }
      disk := { s.disk with
        drafts := (f s).disk.drafts, seriesStart := (f s).disk.seriesStart } }) :
    Leaves e i d (modify f) :=
  keeps_modify fun s start => by
    rw [same s]
    exact b.marks s _ _ _ _ start

namespace Background
variable {e : Env} {i d : St → Prop} (h : Background i d)
include h

/- Nothing of this kind moves the running plan. -/
theorem pinned (r : Running) : Background (fun s => i s ∧ s.run = r) d where
  ask := fun s held => ⟨h.ask s held.1, held.2⟩
  dies := fun s held => h.dies s held.1
  aside := fun s t same held => ⟨h.aside s t same held.1, (run_of_trading same.trading).trans held.2⟩
  note := fun s x plain held => ⟨h.note s x plain held.1, held.2⟩
  file := fun s l filed held => ⟨h.file s l filed held.1, held.2⟩

-- primitives

theorem ask_leads {r : St → Prop} {α : Type} (f : Env → Nat → α) :
    Leads e i i r d (Controller.ask f) :=
  fun s start => (wp_ask f).mpr (by
    split
    · exact h.dies s start
    · exact h.ask s start)

theorem keeps_ask {α : Type} (f : Env → Nat → α) : Leaves e i d (Controller.ask f) := h.ask_leads f

theorem keeps_now : Leaves e i d now := h.keeps_ask Env.clock

theorem keeps_aside {f : St → St} (same : ∀ s, Aside s (f s)) : Leaves e i d (modify f) :=
  keeps_modify fun s start => h.aside s (f s) (same s) start

theorem keeps_emit {x : Effect} (plain : isNote x = true) : Leaves e i d (emit x) :=
  keeps_modify fun s start => h.note s x plain start

theorem keeps_commit {change : Ledger → Option Ledger}
    (files : ∀ l l', change l = some l' → Filing l l') : Leaves e i d (commit change) := by
  refine keeps_bind (h.keeps_ask _) fun fails => keeps_ite (fun _ => ?_) (fun _ => ?_)
  · exact keeps_bind (h.keeps_emit rfl) fun _ => keeps_raise
  · refine keeps_get_bind fun s start => ?_
    rw [wp_bind, wp_orRaise]
    exact ⟨fun l filed => h.file s l (files _ _ filed) start, fun _ => start⟩

theorem keeps_update {b : Int} {c : OrderId} {u : RowUpdate} (balanced : LineBalanced u) :
    Leaves e i d (commit (updateSubmittedRow b c u)) :=
  h.keeps_commit fun _ _ => .update balanced

theorem keeps_scan {α : Type} (f : Ledger → Option α) : Leaves e i d (scan f) :=
  keeps_bind (h.keeps_ask _) fun _ => keeps_ite (fun _ => keeps_raise) fun _ =>
    keeps_bind keeps_get fun _ => keeps_orRaise _

theorem keeps_tryScan {α : Type} (f : Ledger → Option α) : Leaves e i d (tryScan f) :=
  keeps_attempt (keeps_bind (h.keeps_scan f) fun _ => keeps_pure _) (keeps_pure _)

theorem keeps_setRow (ref : Nat) (f : Row → Row) : Leaves e i d (setRow ref f) :=
  h.keeps_aside fun _ => ⟨rfl, rfl⟩

theorem keeps_alloc (row : Row) : Leaves e i d (alloc row) :=
  keeps_bind keeps_get fun _ => keeps_bind
    (h.keeps_aside fun _ => ⟨rfl, rfl⟩) fun _ => keeps_pure _

theorem keeps_evaluate (stamp : Int) : Leaves e i d (evaluate stamp) :=
  keeps_bind (h.keeps_ask _) fun _ => keeps_bind (keeps_env _) fun _ =>
    keeps_bind keeps_get fun _ => keeps_bind
      (h.keeps_aside fun _ => ⟨rfl, rfl⟩) fun _ =>
      keeps_bind (h.keeps_emit rfl) fun _ => keeps_pure _

omit h in
theorem wp_evaluate (stamp : Int) {Q : Post St GateVerdict} {s : St} :
    wp e (evaluate stamp) Q s ↔
      if e.dies s.asks then Q.died { s with asks := s.asks + 1 }
      else Q.ok (foldedVerdict e.config.armedInConfig (e.gate s.asks) s)
        { s with
          asks := s.asks + 1
          holds := { s.holds with
            gateEvaluatedAt := stamp
            gateArmed := (foldedVerdict e.config.armedInConfig (e.gate s.asks) s).armed }
          trace := .evaluated (foldedVerdict e.config.armedInConfig (e.gate s.asks) s) :: s.trace } := by
  simp [Orders.evaluate, foldedVerdict]

/- The verdict folds the holds that stand as it is read. -/
theorem evaluate_leads (stamp : Int) {s : St} (start : i s) :
    wp e (evaluate stamp) ⟨fun v t => i t ∧ ∃ own, v = foldHolds t.sockets.frozen
      t.holds.reconciliationRefusal.isSome t.holds.dayLossHold own, i, d⟩ s := by
  rw [wp_evaluate]
  split
  · exact h.dies s start
  · let v := foldedVerdict e.config.armedInConfig (e.gate s.asks) s
    refine ⟨?_, _, rfl⟩
    exact h.aside { s with asks := s.asks + 1, trace := .evaluated v :: s.trace } _ ⟨rfl, rfl⟩
      (h.note { s with asks := s.asks + 1 } (.evaluated v) rfl (h.ask s start))

-- the journal and the rows

theorem keeps_journalIntent (index : Nat) (outcome : IntentOutcome) (reasons : List String)
    (filledQty : ℚ) : Leaves e i d (journalIntent index outcome reasons filledQty) := by
  refine keeps_bind keeps_get fun s => keeps_bind (keeps_orRaise _) fun p =>
    keeps_attempt (keeps_bind (keeps_orRaise _) fun b => keeps_bind ?_ fun _ => ?_) (keeps_pure _)
  · exact h.keeps_commit fun _ _ => .intent
  · exact keeps_bind (h.keeps_emit rfl) fun _ => keeps_pure _

/- The journal raises for want of a plan alone. -/
theorem journalIntent_leads (index : Nat) (outcome : IntentOutcome) (reasons : List String)
    (filledQty : ℚ) : Leads e i i (fun s => i s ∧ s.run.plan = none) d
      (journalIntent index outcome reasons filledQty) := by
  refine leads_get_bind fun s start => ?_
  rw [wp_bind, wp_orRaise]
  refine ⟨fun p _ => (wp_attempt _ _).mpr ?_, fun none => ⟨start, none⟩⟩
  exact (keeps_bind (keeps_orRaise _) fun b => keeps_bind (h.keeps_commit fun _ _ => .intent)
    fun _ => keeps_bind (h.keeps_emit rfl) fun _ => keeps_pure true).elim start
    (fun _ _ kept => kept) (fun _ kept => kept) (fun _ dead => dead)

/- A halt ends with no plan, and so does one that raises. -/
theorem haltPlan_leads (drops : Leaves e i d dropPlan) (fromIndex : Int) (reason : String) :
    Leads e i (fun s => i s ∧ s.run.plan = none) (fun s => i s ∧ s.run.plan = none) d
      (haltPlan fromIndex reason) := by
  refine leads_get_bind fun s start => ?_
  rw [wp_forSome]
  refine ⟨fun p _ => ?_, fun none => ⟨start, none⟩⟩
  have journaling : Leads e i i (fun s => i s ∧ s.run.plan = none) d
      (forEach (List.range p.intents.length) fun k => when (fromIndex < k) (do
        let _ ← journalIntent k .refused [reason] 0
        pure ())) :=
    leads_forEach fun k => leads_when
      (fun _ => leads_bind (h.journalIntent_leads _ _ _ _) fun _ _ held => held) fun _ _ held => held
  exact leads_bind journaling (fun _ => leads_modify fun u held => ⟨drops u held, rfl⟩) s start

section
variable (drops : Leaves e i d dropPlan)
include drops

theorem keeps_halt (fromIndex : Int) (reason : String) : Leaves e i d (haltPlan fromIndex reason) :=
  fun _ start => wp_mono (h.haltPlan_leads drops fromIndex reason _ start)
    (fun _ _ left => left.1) (fun _ left => left.1) (fun _ dead => dead)

theorem keeps_dropRemainder : Leaves e i d dropRemainderAfterAmbiguity :=
  keeps_bind keeps_get fun _ => keeps_bind (keeps_orRaise _) fun _ => h.keeps_halt drops _ _

theorem keeps_strand (reason : String) : Leaves e i d (strandAmbiguous reason) :=
  keeps_bind (keeps_gets _) fun _ => keeps_bind (h.keeps_journalIntent _ _ _ _) fun _ =>
    h.keeps_dropRemainder drops

end

theorem keeps_updateRow {u : RowUpdate} (balanced : LineBalanced u) : Leaves e i d (updateRow u) :=
  keeps_bind keeps_get fun _ => keeps_bind (keeps_orRaise _) fun _ =>
    keeps_bind (keeps_orRaise _) fun _ => h.keeps_update balanced

theorem keeps_markAmbiguous (what : String) : Leaves e i d (markAmbiguous what) :=
  keeps_attempt (keeps_bind h.keeps_now fun _ => h.keeps_updateRow rfl) (keeps_pure ())

theorem keeps_refuseSubmission (reasons : List String) :
    Leaves e i d (refuseSubmission reasons) :=
  keeps_bind (keeps_gets _) fun _ => keeps_bind (h.keeps_journalIntent _ _ _ _) fun _ =>
    keeps_pure _

theorem keeps_armReread : Leaves e i d armRereadAfterMint :=
  h.keeps_aside fun _ => ⟨rfl, rfl⟩

theorem keeps_answer (c : OrderId) (answered : Bool) : Leaves e i d (answer c answered) :=
  h.keeps_aside fun _ => ⟨rfl, rfl⟩

theorem keeps_cacheOrder (c : OrderId) : Leaves e i d (OrderEvents.cacheOrder c) := by
  refine keeps_bind (h.keeps_ask _) fun read => ?_
  cases read with
  | raised => exact keeps_raise
  | absent => exact keeps_pure _
  | held copy => exact keeps_pure _

theorem keeps_cacheLookup (row : Row) (venueOrderId : Option OrderId) :
    Leaves e i d (cacheLookup row venueOrderId) := by
  refine keeps_bind (h.keeps_cacheOrder _) fun byOwn => ?_
  rcases byOwn with _ | o <;> rcases venueOrderId with _ | v
  · exact keeps_pure _
  · refine keeps_bind (h.keeps_ask _) fun _ => keeps_bind (keeps_orRaise _) fun named => ?_
    cases named with
    | none => exact keeps_pure _
    | some c => exact h.keeps_cacheOrder c
  · exact keeps_pure _
  · exact keeps_pure _

theorem keeps_cachedOrder (row : Row) (venueOrderId : Option OrderId) :
    Leaves e i d (cachedOrder row venueOrderId) :=
  keeps_bind (h.keeps_cacheLookup _ _) fun _ => keeps_pure _

theorem keeps_writeIntent (b : Int) (planId : PlanId) (index : Nat)
    (o : IntentOutcome × List String) (filledQty : ℚ) :
    Leaves e i d (writeIntent b planId index o filledQty) :=
  keeps_attempt (keeps_bind (h.keeps_commit fun _ _ => .intent) fun _ => h.keeps_emit rfl)
    (keeps_pure ())

theorem keeps_settleRestoredIntent (b : Int) (ref : Nat) :
    Leaves e i d (settleRestoredIntent b ref) := by
  refine keeps_bind (keeps_gets _) fun _ => keeps_bind keeps_get fun _ => keeps_when
    (keeps_bind ?_ fun _ => keeps_forSome fun _ => keeps_when (h.keeps_writeIntent _ _ _ _ _))
  exact keeps_attempt (keeps_bind h.keeps_now fun _ => keeps_bind (h.keeps_scan _) fun _ =>
    keeps_pure _) (keeps_pure _)

theorem keeps_fillCredit (ev : OrderEvent) (row : Row) : Leaves e i d (fillCredit ev row) :=
  keeps_bind keeps_get fun _ => keeps_bind (keeps_when (keeps_bind
    (h.keeps_aside fun _ => ⟨rfl, rfl⟩) fun _ => h.keeps_armReread))
    fun _ => keeps_pure _

theorem keeps_venueTerminalState (ev : OrderEvent) : Leaves e i d (venueTerminalState ev) := by
  refine keeps_ite (fun _ => keeps_bind h.keeps_armReread fun _ => keeps_pure _)
    (fun _ => keeps_ite (fun _ => keeps_pure _) (fun _ => ?_))
  cases ev.cached with
  | raised => exact keeps_pure _
  | absent => exact keeps_pure _
  | held copy => exact keeps_pure _

theorem keeps_closeRow (b : Int) (ref : Nat) (state : RowState) : Leaves e i d (closeRow b ref state) :=
  keeps_bind (keeps_gets _) fun _ => keeps_bind (h.keeps_update rfl) fun _ =>
    keeps_bind (h.keeps_setRow _ _) fun _ => h.keeps_settleRestoredIntent _ _

theorem keeps_completeRow (b : Int) (ref : Nat) : Leaves e i d (completeRow b ref) :=
  keeps_bind (keeps_gets _) fun _ => keeps_when (h.keeps_closeRow _ _ _)

theorem keeps_detachedOther (b : Int) (ref : Nat) (ev : OrderEvent) :
    Leaves e i d (detachedOther b ref ev) := by
  refine keeps_bind (keeps_gets _) fun _ => keeps_bind h.keeps_now fun _ => keeps_bind
    (keeps_when (keeps_bind h.keeps_armReread fun _ => h.keeps_answer _ _)) fun _ =>
    keeps_bind (h.keeps_update rfl) fun _ => keeps_bind keeps_get fun _ => keeps_when ?_
  exact keeps_bind (h.keeps_venueTerminalState ev) fun _ => keeps_forSome fun _ => h.keeps_closeRow _ _ _

theorem keeps_externalOther (b : Int) (ref : Nat) (ev : OrderEvent) :
    Leaves e i d (externalOther b ref ev) :=
  keeps_bind h.keeps_now fun _ => keeps_bind (keeps_gets _) fun _ =>
    keeps_bind (keeps_when (h.keeps_answer _ _)) fun _ =>
    keeps_bind (h.keeps_venueTerminalState ev) fun _ => keeps_bind (h.keeps_update rfl) fun _ =>
    keeps_forSome fun _ => keeps_bind (h.keeps_setRow _ _) fun _ => h.keeps_settleRestoredIntent _ _

-- the cancels

section
variable {deliver : Delivery → M Unit} (hd : ∀ x, Leaves e i d (deliver x))
include hd

theorem keeps_callVenue {raises : Env → Nat → Bool} (ds : List Delivery) :
    Leaves e i d (callVenue raises deliver ds) :=
  keeps_bind (keeps_forEach hd) fun _ => keeps_bind (h.keeps_ask _) fun _ =>
    keeps_ite (fun _ => keeps_raise) (fun _ => keeps_pure ())

theorem keeps_requestCancel (c : OrderId) : Leaves e i d (requestCancel deliver c) :=
  keeps_bind (h.keeps_ask _) fun _ => keeps_bind (h.keeps_emit rfl) fun _ => h.keeps_callVenue hd _

theorem keeps_cancelOrder (c : OrderId) : Leaves e i d (cancelOrder deliver c) :=
  keeps_attempt (h.keeps_requestCancel hd c) (keeps_pure ())

theorem keeps_cancel : Leaves e i d (cancel deliver) :=
  keeps_attempt (keeps_bind (keeps_gets _) fun _ => keeps_bind (keeps_orRaise _) fun _ =>
    h.keeps_requestCancel hd _) (keeps_pure ())

theorem keeps_cancelResting (requests : Leaves e i d (setCtx fun a => { a with
    cancelRequested := true, fallingBack := false })) (active : Bool) :
    Leaves e i d (cancelResting deliver active) :=
  keeps_bind (keeps_gets _) fun _ =>
    keeps_bind (keeps_when (keeps_bind requests fun _ => h.keeps_cancel hd)) fun _ =>
    keeps_bind (h.keeps_ask _) fun _ => keeps_forSome fun _ => keeps_forEach fun _ =>
    keeps_when (h.keeps_cancelOrder hd _)

/- A trip past its latch, for an assertion that the request of a cancel, a dropped plan and
   the kill file keep. -/
theorem trip_keeps (requests : Leaves e i d (setCtx fun a => { a with
    cancelRequested := true, fallingBack := false })) (drops : Leaves e i d dropPlan)
    (killFile : ∀ s text, i s → i { s with disk.killFile := some text }) (reason : String)
    (active : Bool) : Leaves e i d (trip deliver reason active) := by
  refine keeps_bind ?_ fun _ => keeps_bind (h.keeps_cancelResting hd requests _) fun _ =>
    keeps_bind ?_ fun _ => keeps_bind keeps_get fun u => keeps_bind (h.keeps_halt drops _ _) fun _ =>
    keeps_bind drops fun _ => keeps_bind h.keeps_now fun _ =>
    keeps_bind (h.keeps_evaluate _) fun _ => keeps_pure ()
  · exact keeps_bind h.keeps_now fun _ => keeps_bind (h.keeps_ask _) fun _ =>
      keeps_when (keeps_modify fun s start => killFile s _ start)
  · exact keeps_when (keeps_bind (keeps_gets _) fun _ =>
      keeps_bind (h.keeps_journalIntent _ _ _ _) fun _ => keeps_pure ())

/- The chokepoint, from an assertion that a running plan and no latch strengthen to one that
   a send of that plan's row may start from. The verdict that permits it found no freeze. -/
theorem submit_leads {r : St → Prop} (hr : Background r d) (loosely : ∀ s, r s → i s)
    {j : ProbePlan → Nat → St → Prop} (hj : ∀ p index, Background (j p index) d)
    (strict : ∀ s p, s.killTripped = false → s.sockets.frozen = false → s.run.plan = some p → r s →
      j p s.run.ctx.index s)
    (loose : ∀ p index s, j p index s → i s)
    (named : ∀ p index s c, j p index s →
      j p index { s with run := { s.run with ctx := { s.run.ctx with clientOrderId := some c } } })
    (sends : ∀ p index s x, x.row.planId = p.planId → x.row.intentIndex = index → j p index s →
      i { s with trace := .sent x :: s.trace })
    (returns : ∀ s c, i s → i { s with trace := .submitReturned c :: s.trace }) (order : OrderId) :
    Leads e r i i d (submit deliver order) := by
  have filing (p : ProbePlan) (row : Row) (v : GateVerdict) (unfilled : row.filledQty = 0)
      (bare : row.events = []) : Leaves e (j p row.intentIndex) d (writeAhead row v) :=
    keeps_attempt (keeps_bind keeps_get fun _ => keeps_bind (keeps_orRaise _) fun _ =>
      keeps_bind (hj p _).keeps_now fun _ => keeps_bind ((hj p _).keeps_commit fun _ _ => .row unfilled bare)
      fun _ => keeps_bind ((hj p _).keeps_emit rfl) fun _ => keeps_pure _) (keeps_pure _)
  have returned (c : OrderId) : Leaves e i d (emit (.submitReturned c)) :=
    keeps_modify fun s kept => returns s c kept
  have unanswered (c : OrderId) : Leaves e i d (do
      emit (.submitReturned c)
      markAmbiguous "submit raised"
      let a ← ctx
      let _ ← journalIntent a.index .ambiguous ["submit raised -- venue outcome unknown"] a.filled
      pure Submitted.ambiguous) :=
    keeps_bind (returned c) fun _ => keeps_bind (h.keeps_markAmbiguous _) fun _ =>
      keeps_bind (keeps_gets _) fun _ => keeps_bind (h.keeps_journalIntent _ _ _ _) fun _ =>
      keeps_pure _
  have refusing (reasons : List String) : Leads e r i i d (refuseSubmission reasons) :=
    (hr.keeps_refuseSubmission reasons).leads loosely loosely
  have sending (p : ProbePlan) (b : Int) (row : Row) (v : GateVerdict) (s : St)
      (own : row.planId = p.planId) (start : j p row.intentIndex s) :
      wp e (send deliver b row v) (Post.leaving i d) s := by
    have placed : j p row.intentIndex { s with
        run := { s.run with ctx := { s.run.ctx with clientOrderId := some row.clientOrderId } }
        desk := { s.desk with
          mem := Function.update s.desk.mem s.desk.memNext row
          memNext := s.desk.memNext + 1
          attached := Function.update s.desk.attached row.clientOrderId (some (b, s.desk.memNext)) } } :=
      (hj p _).aside { s with
        run := { s.run with ctx := { s.run.ctx with clientOrderId := some row.clientOrderId } } } _
        ⟨rfl, rfl⟩ (named p _ s _ start)
    have calling (ds : List Delivery) : Leaves e i d (do
        callVenue Env.submitRaises deliver ds
        emit (.submitReturned row.clientOrderId)
        pure Submitted.submitted) :=
      keeps_bind (h.keeps_callVenue hd _) fun _ => keeps_bind (returned _) fun _ => keeps_pure _
    simp only [send, alloc, wp_bind, wp_get, wp_modify, wp_pure, wp_attempt, wp_ask]
    split
    · exact (hj p _).dies _ placed
    · have next := (hj p _).ask _ placed
      refine wp_mono ((wp_bind _ _).mp (calling (e.during s.asks) _ (sends p row.intentIndex _ _ own rfl next)))
        (fun _ _ kept => ?_) (fun t kept => ?_) (fun _ kept => kept)
      · exact kept
      · simpa only [wp_bind, wp_pure] using unanswered row.clientOrderId t kept
  refine leads_bind (hr.ask_leads _) fun t => fun s start => ?_
  rw [wp_bind]
  refine wp_mono (hr.evaluate_leads t start) (fun v s left => ?_) loosely (fun _ kept => kept)
  obtain ⟨start, own, folded⟩ := left
  simp only [wp_bind, wp_get, wp_ite, wp_orRaise]
  split
  · exact refusing _ s start
  · split
    · rename_i permitted
      rw [folded] at permitted
      have unfrozen : s.sockets.frozen = false := (permits_unheld permitted).1
      refine ⟨fun p running => ⟨fun payload _ => ?_, fun _ => loosely s start⟩, fun _ => loosely s start⟩
      have calm := strict s p (Bool.eq_false_iff.mpr ‹_›) unfrozen running start
      refine (filing p _ v rfl rfl).elim calm (fun stored t kept => ?_) (fun t kept => loose p _ t kept)
        (fun _ kept => kept)
      cases stored with
      | none => exact h.keeps_refuseSubmission _ t (loose p _ t kept)
      | some b => exact sending p b _ v t rfl kept
    · exact refusing _ s start

end
end Background

namespace Handling
variable {e : Env} {i d : St → Prop} (h : Handling i d)
include h

theorem keeps_credit {f : ActiveIntent → ActiveIntent}
    (credits : ∀ a, ∃ filled foreignFilled, f a = { a with filled, foreignFilled }) :
    Leaves e i d (setCtx f) := by
  refine keeps_modify fun s start => ?_
  obtain ⟨filled, foreignFilled, same⟩ := credits s.run.ctx
  rw [same]
  exact h.credit s filled foreignFilled start

theorem keeps_recordTripFill (b : Int) (ref : Nat) (ev : OrderEvent) (qty : ℚ) :
    Leaves e i d (recordTripFill b ref ev qty) :=
  keeps_bind (keeps_gets _) fun _ => keeps_bind
    (keeps_attempt (keeps_bind h.keeps_now fun _ => h.keeps_update (lineBalanced_fill ..)) (keeps_pure ()))
    fun _ => keeps_bind (h.keeps_setRow _ _) fun _ => keeps_bind keeps_get fun _ =>
    keeps_when (h.keeps_credit fun _ => ⟨_, _, rfl⟩)

theorem keeps_creditDetached (ref : Nat) (row : Row) (ev : OrderEvent) (qty : ℚ) :
    Leaves e i d (creditDetached ref row ev qty) := by
  refine keeps_bind (h.keeps_setRow _ _) fun _ => keeps_bind keeps_get fun s => keeps_when
    (keeps_ite (fun _ => h.keeps_credit fun _ => ⟨_, _, rfl⟩) (fun _ => keeps_bind keeps_get fun _ => keeps_when ?_))
  exact keeps_bind (keeps_attempt (h.keeps_cacheLookup _ _) (keeps_pure _)) fun _ =>
    keeps_when (h.keeps_credit fun _ => ⟨_, _, rfl⟩)

theorem keeps_detachedFill (b : Int) (ref : Nat) (ev : OrderEvent) :
    Leaves e i d (detachedFill b ref ev) :=
  keeps_bind (keeps_gets _) fun _ => keeps_bind (h.keeps_fillCredit _ _) fun _ =>
    keeps_bind h.keeps_now fun _ => keeps_bind (h.keeps_update (lineBalanced_fill ..)) fun _ =>
    keeps_bind (keeps_when (h.keeps_creditDetached _ _ _ _)) fun _ => keeps_bind keeps_get fun _ =>
    keeps_when (h.keeps_completeRow _ _)

theorem keeps_onDetachedEvent (ev : OrderEvent) : Leaves e i d (onDetachedEvent ev) :=
  keeps_bind keeps_get fun _ => keeps_forSome fun _ =>
    keeps_ite (fun _ => h.keeps_detachedFill _ _ _) (fun _ => h.keeps_detachedOther _ _ _)

section
variable {deliver : Delivery → M Unit} (kills : Kills e i d deliver)
include kills

/- A fill that meets no divergence leaves everything but the re-read's own notes alone. -/
theorem tripOnFill_leads {k : St → Prop} (hk : Background k d) (loose : ∀ s, k s → i s)
    (ev : OrderEvent) {s : St} (start : k s) :
    wp e (tripOnFill deliver ev) ⟨fun tripped t => i t ∧
      (tripped = false → k t ∧ St.diverges s ev = false), i, d⟩ s := by
  have tripping (m : M Unit) (body : Leaves e i d m) (t : St) (held : i t) :
      wp e (do m; pure true) ⟨fun tripped t => i t ∧
        (tripped = false → k t ∧ St.diverges s ev = false), i, d⟩ t :=
    (wp_bind _ _).mpr (body.elim held (fun _ u kept => ⟨kept, fun no => by cases no⟩)
      (fun _ kept => kept) (fun _ dead => dead))
  simp only [tripOnFill, wp_bind, wp_get]
  rcases attached : St.attachedFor s ev with _ | ⟨b, ref⟩
  · exact tripping _ (kills _) s (loose s start)
  · simp only [wp_bind, wp_rowAt]
    refine wp_fillCredit fun t aside => ?_
    have kept := hk.aside s t aside start
    have recorded (reason : String) (qty : ℚ) : Leaves e i d (do
        recordTripFill b ref ev qty
        tripKill deliver reason) :=
      keeps_bind (h.keeps_recordTripFill _ _ _ _) fun _ => kills _
    have sameRun : St.overfillsIntent t (s.desk.mem ref) (St.creditOf s ev (s.desk.mem ref)) ↔
        St.overfillsIntent s (s.desk.mem ref) (St.creditOf s ev (s.desk.mem ref)) := by
      unfold St.overfillsIntent St.claims
      rw [run_of_trading aside.trading]
    simp only [wp_get, wp_ite, wp_pure]
    split
    · simpa only [wp_bind] using tripping _ (recorded _ _) t (loose t kept)
    · rename_i fits
      split
      · simpa only [wp_bind] using tripping _ (recorded _ _) t (loose t kept)
      · rename_i asked
        exact ⟨loose t kept, fun _ => ⟨kept,
          (St.diverges_of_attached attached).mpr ⟨fits, fun past => asked (sameRun.mpr past)⟩⟩⟩

theorem keeps_tripOnFill (ev : OrderEvent) : Leaves e i d (tripOnFill deliver ev) :=
  fun _ start => wp_mono (h.tripOnFill_leads kills h.toBackground (fun _ held => held) ev start)
    (fun _ _ left => left.1) (fun _ kept => kept) (fun _ dead => dead)

theorem keeps_externalFill (b : Int) (ref : Nat) (ev : OrderEvent) :
    Leaves e i d (externalFill deliver b ref ev) :=
  keeps_bind (h.keeps_tripOnFill kills ev) fun _ => keeps_when
    (keeps_bind (h.keeps_onDetachedEvent ev) fun _ => h.keeps_completeRow _ _)

theorem keeps_onExternalOrderEvent (ev : OrderEvent) :
    Leaves e i d (onExternalOrderEvent deliver ev) := by
  refine keeps_attempt (keeps_bind keeps_get fun s => ?_) (keeps_pure ())
  rcases St.attachedFor s ev with _ | ⟨b, ref⟩
  · exact keeps_when h.keeps_armReread
  · exact keeps_ite (fun _ => h.keeps_externalFill kills _ _ _) (fun _ => h.keeps_externalOther _ _ _)

end
end Handling

namespace Moving
variable {e : Env} {i d : St → Prop} (h : Moving i d)
include h

-- the running plan

theorem moved_leads {r : St → Prop} {f : St → St} (moved : ∀ s, Moved s (f s)) :
    Leads e i i r d (modify f) :=
  leads_modify fun s start => (moved s).same ▸ h.run s _ (moved s).plan start

theorem keeps_moved {f : St → St} (moved : ∀ s, Moved s (f s)) : Leaves e i d (modify f) :=
  h.moved_leads moved

theorem keeps_setCtx (f : ActiveIntent → ActiveIntent) : Leaves e i d (setCtx f) :=
  h.keeps_moved fun _ => ⟨rfl, .inl rfl⟩

theorem keeps_enter (phase : Phase) : Leaves e i d (enter phase) :=
  keeps_bind (h.keeps_setCtx _) fun _ => keeps_bind
    (keeps_when (keeps_bind h.keeps_now fun _ => h.keeps_setCtx _)) fun _ =>
    keeps_when (keeps_bind h.keeps_now fun _ => h.keeps_setCtx _)

theorem keeps_dropPlan : Leaves e i d dropPlan := by
  refine keeps_modify fun s start => ?_
  cases running : s.run.plan with
  | none => exact h.run s { s.run with live := false, plan := none, index := 0 } (.inr rfl) start
  | some p =>
    exact h.run { s with trace := .planEnded p.planId :: s.trace }
      { s.run with live := false, plan := none, index := 0 } (.inr rfl) (h.note s _ rfl start)

theorem keeps_haltPlan (fromIndex : Int) (reason : String) :
    Leaves e i d (haltPlan fromIndex reason) :=
  h.keeps_halt h.keeps_dropPlan fromIndex reason

/- The chokepoint, for an assertion that a running plan and no latch strengthen to one that
   a send of that plan's row may start from. The verdict that permits it found no freeze. -/
theorem submits_from {j : ProbePlan → St → Prop} (hj : ∀ p, Background (j p) d)
    (strict : ∀ s p, s.killTripped = false → s.sockets.frozen = false → s.run.plan = some p → i s →
      j p s)
    (loose : ∀ p s, j p s → i s)
    (named : ∀ p s a, j p s → j p { s with run := { s.run with ctx := a } })
    (sends : ∀ p s x, x.row.planId = p.planId → j p s → i { s with trace := .sent x :: s.trace })
    (returns : ∀ s c, i s → i { s with trace := .submitReturned c :: s.trace }) :
    Submits e i d :=
  fun _ order hd => h.submit_leads hd h.toBackground (fun _ held => held) (j := fun p _ => j p)
    (fun p _ => hj p) strict (fun p _ => loose p) (fun p _ s _ => named p s _)
    (fun p _ s x own _ => sends p s x own) returns order

theorem submits (sends : ∀ s x, i s → i { s with trace := .sent x :: s.trace })
    (returns : ∀ s c, i s → i { s with trace := .submitReturned c :: s.trace }) :
    Submits e i d :=
  h.submits_from (j := fun _ => i) (fun _ => h.toBackground) (fun _ _ _ _ _ kept => kept) (fun _ _ kept => kept)
    (fun _ s _ kept => h.run s _ (.inl rfl) kept) (fun _ s x _ kept => sends s x kept) returns

-- the ends of an intent, over a kill switch that keeps the assertion

section
variable {deliver : Delivery → M Unit} (kills : Kills e i d deliver)
include kills

theorem keeps_reconcileTerminal : Leaves e i d (reconcileTerminal deliver) := by
  refine keeps_bind (keeps_gets _) fun a => keeps_bind (h.keeps_ask _) fun actual => ?_
  cases actual with
  | none => exact kills _
  | some q => exact keeps_when (kills _)

theorem keeps_finishActive (outcome : Option IntentOutcome) (reasons : List String)
    (filledQty : ℚ) : Leaves e i d (finishActive deliver outcome reasons filledQty) := by
  refine keeps_bind keeps_get fun s => keeps_ite (fun _ => ?_) (fun _ => keeps_raise)
  refine keeps_bind (keeps_forSome fun o => ?_) fun _ => keeps_bind (h.keeps_enter _) fun _ =>
    keeps_bind (h.keeps_moved fun _ => ⟨rfl, .inl rfl⟩) fun _ => h.keeps_reconcileTerminal kills
  exact keeps_bind (h.keeps_journalIntent _ _ _ _) fun _ => keeps_pure ()

theorem keeps_finishRevoked : Leaves e i d (finishRevoked deliver) :=
  keeps_bind (keeps_gets _) fun _ => keeps_bind (h.keeps_finishActive kills _ _ _) fun _ =>
    h.keeps_haltPlan _ _

theorem keeps_refusal (reason : String) : Leaves e i d (do
    let s ← get
    when s.run.live (finishActive deliver (some .refused) [reason] s.run.ctx.filled)) :=
  keeps_bind keeps_get fun _ => keeps_when (h.keeps_finishActive kills _ _ _)

theorem keeps_refuseOnRaise (reason : String) {resubmission : M Unit}
    (body : Leaves e i d resubmission) : Leaves e i d (refuseOnRaise deliver reason resubmission) :=
  keeps_attempt body (h.keeps_refusal kills reason)

end

theorem keeps_revoke {deliver : Delivery → M Unit} (hd : ∀ x, Leaves e i d (deliver x))
    (pulls : Pulls i) (reasons : List String) :
    Leaves e i d (revoke deliver reasons) :=
  keeps_bind keeps_get fun _ => keeps_bind
    (keeps_modify fun u start => pulls u _ _ start) fun _ =>
    keeps_bind (h.keeps_setCtx _) fun _ => keeps_bind (h.keeps_enter _) fun _ => h.keeps_cancel hd

-- the ladder, over a chokepoint that keeps the assertion

section
variable {deliver : Delivery → M Unit} (hd : ∀ x, Leaves e i d (deliver x))
  (kills : Kills e i d deliver) (hs : Submits e i d)
include hd kills hs

omit kills in
theorem keeps_place (targetQty price : ℚ) (immediateOrCancel postOnly : Bool) :
    Leaves e i d (place deliver targetQty price immediateOrCancel postOnly) := by
  refine keeps_bind (keeps_gets _) fun a => keeps_bind (keeps_orRaise _) fun sized => ?_
  cases sized with
  | refused detail => exact keeps_pure _
  | belowMinimum detail => exact keeps_pure _
  | sized qty px notional =>
    refine keeps_bind (h.keeps_ask _) fun _ => keeps_bind (keeps_orRaise _) fun _ =>
      keeps_ite (fun _ => ?_) (fun _ => keeps_pure _)
    exact keeps_bind (h.keeps_ask _) fun _ => keeps_bind (keeps_orRaise _) fun _ =>
      keeps_bind (h.keeps_setCtx _) fun _ => keeps_bind (hs _ _ hd) fun _ => keeps_pure _

theorem keeps_resubmit (price : ℚ) (immediateOrCancel postOnly : Bool) (next : Phase) :
    Leaves e i d (resubmit deliver price immediateOrCancel postOnly next) := by
  refine keeps_bind (keeps_gets _) fun a =>
    keeps_ite (fun _ => h.keeps_finishActive kills _ _ _) (fun _ => ?_)
  refine keeps_bind (h.keeps_place hd hs _ _ _ _) fun placed => keeps_bind (keeps_gets _) fun a => ?_
  rcases placed with (_ | _ | _) | _ | _
  · exact h.keeps_enter _
  · exact h.keeps_finishActive kills _ _ _
  · exact h.keeps_dropRemainder h.keeps_dropPlan
  · exact h.keeps_finishActive kills _ _ _
  · exact h.keeps_finishActive kills _ _ _

theorem keeps_fallback : Leaves e i d (fallback deliver) := by
  refine keeps_bind (keeps_gets _) fun a =>
    keeps_ite (fun _ => h.keeps_finishActive kills _ _ _) (fun _ => keeps_bind (h.keeps_setCtx _) fun _ => ?_)
  cases ActiveIntent.oppositeTouch a with
  | none => exact h.keeps_finishActive kills _ _ _
  | some price => exact h.keeps_resubmit hd kills hs _ _ _ _

theorem keeps_repriceAtTouch : Leaves e i d (repriceAtTouch deliver) := by
  refine keeps_bind (keeps_gets _) fun a => ?_
  cases ActiveIntent.limitPrice a with
  | none => exact h.keeps_finishActive kills _ _ _
  | some price => exact h.keeps_resubmit hd kills hs _ _ _ _

theorem keeps_reprice : Leaves e i d (reprice deliver) := by
  refine keeps_bind (keeps_gets _) fun a => keeps_ite
    (fun _ => keeps_ite (fun _ => h.keeps_fallback hd kills hs) (fun _ => h.keeps_finishRevoked kills))
    (fun _ => keeps_bind (h.keeps_setCtx _) fun _ => keeps_ite (fun _ => ?_) (fun _ => ?_))
  · exact keeps_ite (fun _ => h.keeps_fallback hd kills hs) (fun _ => h.keeps_finishActive kills _ _ _)
  · exact keeps_ite (fun _ => h.keeps_repriceAtTouch hd kills hs)
      (fun _ => keeps_bind (h.keeps_setCtx _) fun _ => h.keeps_enter _)

omit hd kills hs in
theorem keeps_overCapReason (targetQty price : ℚ) : Leaves e i d (overCapReason targetQty price) := by
  refine keeps_bind keeps_get fun s => ?_
  cases s.run.ctx.intent.qty with
  | none => exact keeps_pure _
  | some qty =>
    exact keeps_bind (keeps_env _) fun _ => keeps_bind (keeps_orRaise _) fun _ =>
      keeps_ite (fun _ => keeps_pure _)
        (fun _ => keeps_bind (h.keeps_moved fun _ => ⟨rfl, .inl rfl⟩) fun _ => keeps_pure _)

theorem keeps_firstSubmission : Leaves e i d (firstSubmission deliver) := by
  refine keeps_bind (keeps_gets _) fun a => ?_
  cases ActiveIntent.limitPrice a with
  | none => exact h.keeps_finishActive kills _ _ _
  | some price =>
    refine keeps_bind (h.keeps_overCapReason _ _) fun overCap => ?_
    cases overCap with
    | some reason => exact h.keeps_finishActive kills _ _ _
    | none =>
      refine keeps_bind (h.keeps_place hd hs _ _ _ _) fun placed => ?_
      rcases placed with (_ | _ | _) | _ | _
      · exact keeps_bind (h.keeps_setCtx _) fun _ => h.keeps_enter _
      · exact h.keeps_finishActive kills _ _ _
      · exact h.keeps_dropRemainder h.keeps_dropPlan
      · exact h.keeps_finishActive kills _ _ _
      · exact h.keeps_finishActive kills _ _ _

end

-- the events

section
variable {deliver : Delivery → M Unit} (hd : ∀ x, Leaves e i d (deliver x))
  (kills : Kills e i d deliver) (hs : Submits e i d)
include hd kills hs

omit hd hs in
theorem keeps_onFill (ev : OrderEvent) : Leaves e i d (onFill deliver ev) := by
  refine keeps_bind (h.keeps_setCtx _) fun _ => keeps_bind h.keeps_now fun _ =>
    keeps_bind (keeps_gets _) fun _ => keeps_bind (h.keeps_updateRow (lineBalanced_own_fill ..)) fun _ =>
    keeps_bind (keeps_forSome fun _ => ?_) fun _ => keeps_when (h.keeps_finishActive kills _ _ _)
  exact keeps_bind keeps_get fun _ => keeps_forSome fun _ => h.keeps_setRow _ _

theorem keeps_onRejected (ev : OrderEvent) (payload : RowEvent) (still : credited payload = 0) :
    Leaves e i d (onRejected deliver ev payload) := by
  have recorded (state : RowState) :
      Leaves e i d (updateRow { state := some state, event := some payload }) :=
    h.keeps_updateRow still.symm
  refine keeps_ite (fun _ => ?_) (fun _ => keeps_ite (fun _ => ?_) (fun _ => ?_))
  · exact keeps_bind (recorded _) fun _ => h.keeps_refuseOnRaise kills _ (h.keeps_reprice hd kills hs)
  · exact keeps_bind (recorded _) fun _ => keeps_bind (keeps_gets _) fun _ =>
      h.keeps_finishActive kills _ _ _
  · exact keeps_bind (recorded _) fun _ => keeps_bind (keeps_gets _) fun _ =>
      keeps_bind (h.keeps_journalIntent _ _ _ _) fun _ =>
      h.keeps_dropRemainder h.keeps_dropPlan

theorem keeps_onCancelAck (payload : RowEvent) (still : credited payload = 0) :
    Leaves e i d (onCancelAck deliver payload) := by
  have recorded (state : RowState) :
      Leaves e i d (updateRow { state := some state, event := some payload }) :=
    h.keeps_updateRow still.symm
  have crossing : Leaves e i d (resubmitOnEvent deliver (fallback deliver)) :=
    h.keeps_refuseOnRaise kills _ (h.keeps_fallback hd kills hs)
  refine keeps_bind (keeps_gets _) fun a => keeps_ite (fun _ => keeps_bind (recorded _) fun _ => ?_)
    (fun _ => keeps_bind (recorded _) fun _ => ?_)
  · exact keeps_ite (fun _ => crossing) fun _ =>
      keeps_ite (fun _ => h.keeps_finishActive kills _ _ _) fun _ =>
      keeps_ite (fun _ => h.keeps_finishActive kills _ _ _) fun _ => h.keeps_finishRevoked kills
  · exact keeps_ite (fun _ => crossing) fun _ =>
      keeps_ite (fun _ => h.keeps_finishActive kills _ _ _) fun _ =>
      h.keeps_refuseOnRaise kills _ (h.keeps_reprice hd kills hs)

theorem keeps_onActiveEvent (ev : OrderEvent) : Leaves e i d (onActiveEvent deliver ev) := by
  refine keeps_bind h.keeps_now fun t => keeps_ite (fun _ => ?_) (fun _ => ?_)
  · exact keeps_bind (h.keeps_updateRow rfl) fun _ => keeps_bind h.keeps_armReread fun _ =>
      h.keeps_strand h.keeps_dropPlan _
  have refused (refusal : String) : Leaves e i d (do
      let a ← ctx
      let _ ← journalIntent a.index .ambiguous [refusal] a.filled
      dropRemainderAfterAmbiguity) :=
    keeps_bind (keeps_gets _) fun _ => keeps_bind (h.keeps_journalIntent _ _ _ _) fun _ =>
      h.keeps_dropRemainder h.keeps_dropPlan
  cases ev.name with
  | orderAccepted =>
    exact keeps_bind (h.keeps_updateRow rfl) fun _ => keeps_bind (keeps_gets _) fun _ =>
      keeps_when (keeps_bind (h.keeps_setCtx _) fun _ => keeps_bind (h.keeps_enter _) fun _ =>
        h.keeps_cancel hd)
  | orderFilled => exact h.keeps_onFill kills ev
  | orderRejected => exact h.keeps_onRejected hd kills hs ev _ rfl
  | orderDenied =>
    exact keeps_bind (h.keeps_updateRow rfl) fun _ => keeps_bind (keeps_gets _) fun _ =>
      h.keeps_finishActive kills _ _ _
  | orderCanceled => exact h.keeps_onCancelAck hd kills hs _ rfl
  | orderExpired => exact h.keeps_onCancelAck hd kills hs _ rfl
  | orderCancelRejected => exact keeps_bind (h.keeps_updateRow rfl) fun _ => refused _
  | orderCancelDenied => exact keeps_bind (h.keeps_updateRow rfl) fun _ => refused _
  | other name => exact h.keeps_updateRow rfl

theorem keeps_dispatch (ev : OrderEvent) : Leaves e i d (dispatch deliver ev) := by
  refine keeps_bind (keeps_ite (fun _ => h.keeps_tripOnFill kills ev)
    (fun _ => keeps_pure _)) fun _ => keeps_when (keeps_bind keeps_get fun u => ?_)
  exact keeps_ite (fun _ => h.keeps_onActiveEvent hd kills hs ev) (fun _ => h.keeps_onDetachedEvent ev)

theorem keeps_onOrderEvent (ev : OrderEvent) : Leaves e i d (onOrderEvent deliver ev) :=
  keeps_attempt (keeps_bind keeps_get fun _ => keeps_bind (h.keeps_emit rfl) fun _ =>
    h.keeps_dispatch hd kills hs ev) (keeps_pure ())

end

/- By induction on how deep the adapter nests its deliveries. -/
theorem keeps_nested
    (kills : ∀ n, (∀ x, Leaves e i d (reenter n x)) → Kills e i d (reenter n)) (hs : Submits e i d) (n : Nat) (x : Delivery) : Leaves e i d (reenter n x) := by
  induction n generalizing x with
  | zero => exact keeps_pure ()
  | succ n ih =>
    cases x with
    | own ev => exact h.keeps_onOrderEvent ih (kills n ih) hs ev
    | external ev => exact h.keeps_onExternalOrderEvent (kills n ih) ev

end Moving

namespace Latching
variable {e : Env} {i d : St → Prop} (h : Latching i d)
include h

section
variable {deliver : Delivery → M Unit} (hd : ∀ x, Leaves e i d (deliver x))
include hd

theorem keeps_trip (reason : String) (active : Bool) : Leaves e i d (trip deliver reason active) :=
  h.trip_keeps hd (h.keeps_setCtx _) h.keeps_dropPlan h.killFile reason active

/- A kill lands in whatever a latched state keeps, and raises from nowhere else. -/
theorem tripKill_leads {j : St → Prop}
    (latches : ∀ s, j s → i { s with killTripped := true, trace := .latched s.disk.killFile :: s.trace })
    (loose : ∀ s, i s → j s) (reason : String) : Leads e j j i d (tripKill deliver reason) := by
  refine leads_get_bind fun s start => ?_
  rw [wp_when]
  split
  · rw [wp_bind, wp_modify]
    exact (h.keeps_trip hd reason s.run.live).elim (latches s start) (fun _ => loose)
      (fun _ kept => kept) (fun _ kept => kept)
  · exact start

theorem kills_of_latched {j : St → Prop}
    (latches : ∀ s, j s → i { s with killTripped := true, trace := .latched s.disk.killFile :: s.trace })
    (loose : ∀ s, i s → j s) : Kills e j d deliver :=
  fun reason => (h.tripKill_leads hd latches loose reason).weaken (fun _ held => held)
    (fun _ kept => kept) loose

theorem keeps_tripKill (reason : String) : Leaves e i d (tripKill deliver reason) :=
  h.kills_of_latched hd h.latch (fun _ kept => kept) reason

end

theorem keeps_reenter (hs : Submits e i d) (n : Nat) (x : Delivery) :
    Leaves e i d (reenter n x) :=
  h.keeps_nested (fun _ hd => h.keeps_tripKill hd) hs n x

end Latching
end Footprint
