import Zcrypto.Engine.Passes

/- The footprint of the plan's pickup, of the draft and of the process's own start: with
   these an assertion the executor's changes keep is kept by every run. -/
namespace Footprint
open ProbePlans ExecGate ExecLedger LedgerLaws Effects Effects.Prog Controller Orders
  OrderEvents Sweeps Pickup CyclePlan Timer

/- The draft dropped or edited in place keeps the assertion. An edit moves neither the
   boundary a draft is of nor its window. -/
structure Drafts (i d : St → Prop) : Prop extends Background i d where
  cleared : ∀ s, i s → i { s with drafting.pendingDraft := none }
  edited : ∀ s (f : PendingDraft → PendingDraft),
    (∀ d, (f d).boundary = d.boundary ∧ (f d).windowClose = d.windowClose) → i s →
    i { s with drafting.pendingDraft := s.drafting.pendingDraft.map f }

namespace Drafts
variable {e : Env} {i d : St → Prop} (h : Drafts i d)
include h

theorem keeps_editDraft {f : PendingDraft → PendingDraft}
    (same : ∀ d, (f d).boundary = d.boundary ∧ (f d).windowClose = d.windowClose) :
    Leaves e i d (editDraft f) :=
  keeps_modify fun s start => h.edited s f same start

section
variable (m : MarkFree i)
include m

theorem keeps_writeDraftRecord (b t : Int) (status : DraftStatus) (figures : Figures)
    (planId : Option PlanId) : Leaves e i d (writeDraftRecord b t status figures planId) :=
  keeps_attempt (h.keeps_fileAct (keeps_bind keeps_get fun _ =>
    m.keeps_marks fun _ => rfl)) (keeps_pure ())

theorem keeps_finishDraft (t : Int) (status : DraftStatus) (figures : Option Figures)
    (planId : Option PlanId) : Leaves e i d (finishDraft t status figures planId) :=
  keeps_bind keeps_get fun _ => keeps_forSome fun _ => keeps_bind (keeps_modify h.cleared)
    fun _ => keeps_bind (h.keeps_writeDraftRecord m _ _ _ _ _) fun _ =>
    keeps_attempt (keeps_bind (h.keeps_evaluate _) fun _ => h.keeps_commit fun _ _ => .verdict)
      (keeps_pure ())

theorem keeps_spendDraftTry (t : Int) (status : DraftStatus) (figures : Figures) :
    Leaves e i d (spendDraftTry t status figures) :=
  keeps_bind (h.keeps_editDraft fun _ => ⟨rfl, rfl⟩) fun _ => keeps_bind keeps_get fun _ =>
    keeps_when (h.keeps_finishDraft m _ _ _ _)

theorem keeps_markEquity {deliver : Delivery → M Unit} (kills : Kills e i d deliver)
    (book : VenueBook) (draft : PendingDraft) : Leaves e i d (markEquity deliver book draft) := by
  have priced (equity nav : ℚ) : Leaves e i d (markPriced deliver draft equity nav) :=
    keeps_bind (h.keeps_fileAct (keeps_gets _)) fun _ =>
      keeps_bind (h.keeps_fileAct (keeps_gets _)) fun _ =>
      keeps_bind (keeps_when (keeps_bind (h.keeps_fileAct
        (m.keeps_marks fun _ => rfl)) fun _ =>
          h.keeps_editDraft fun _ => ⟨rfl, rfl⟩)) fun _ =>
      keeps_bind (m.keeps_marks fun _ => rfl) fun _ =>
      keeps_bind keeps_get fun _ => keeps_bind (keeps_when (kills _)) fun _ =>
      keeps_pure _
  refine keeps_bind keeps_get fun s => ?_
  rcases bookCoinEur book draft.record.closes with _ | coin
  · exact keeps_pure _
  · rcases draft.record.nav with _ | nav
    · exact keeps_pure _
    · exact keeps_ite (fun _ => keeps_raise) (fun _ => priced _ _)

/- The reads and the walls of a draft, around an acceptance that keeps the assertion. -/
theorem keeps_draftOnce {deliver : Delivery → M Unit} (kills : Kills e i d deliver)
    (t : Int) (draft : PendingDraft)
    (windowed : Leaves e i d (modify fun s : St => { s with
      run.planWindowClose := some draft.windowClose }))
    (accepting : ∀ legs p, draftedPlan draft.boundary t legs = some p →
      Leaves e i d (acceptPlan p draft.boundary t false)) :
    Leaves e i d (draftOnce deliver t draft) := by
  have aside {f : St → St} (same : ∀ s, Aside s (f s)) : Leaves e i d (modify f) := h.keeps_aside same
  refine keeps_bind (h.keeps_ask _) fun read => ?_
  rcases read with _ | book
  · exact keeps_pure _
  refine keeps_bind (aside fun _ => ⟨rfl, rfl⟩) fun _ => keeps_bind
    (keeps_attempt (keeps_bind (h.keeps_markEquity m kills _ _) fun _ => keeps_pure _) (keeps_pure _))
    fun marked => ?_
  rcases marked with _ | mark
  · exact keeps_pure _
  refine keeps_bind (keeps_when (h.keeps_editDraft fun _ => ⟨rfl, rfl⟩)) fun _ =>
    keeps_ite (fun _ => keeps_pure _) (fun _ => keeps_bind (h.keeps_ask _) fun table => ?_)
  rcases table with _ | _ | legs
  · exact keeps_pure _
  · exact keeps_pure _
  rcases drafted : draftedPlan draft.boundary t legs with _ | p <;> simp only [drafted]
  · exact keeps_pure _
  refine keeps_bind windowed fun _ => keeps_bind
    (keeps_attempt (keeps_bind (accepting legs p drafted) fun _ => keeps_pure _) (keeps_pure _))
    fun outcome => ?_
  rcases outcome with _ | _ | _ | _
  · exact keeps_pure _
  · exact keeps_pure _
  · exact keeps_pure _
  · exact keeps_bind (h.keeps_tryScan _) fun _ => keeps_pure _

theorem keeps_armCycleDraft (armed : ∀ s w, i s → i { s with drafting.pendingDraft := some w })
    (b : Int) : Leaves e i d (armCycleDraft b) := by
  refine keeps_bind (h.keeps_aside fun _ => ⟨rfl, rfl⟩) fun _ =>
    keeps_bind (keeps_env _) fun _ => keeps_when (keeps_bind h.keeps_now fun t =>
      keeps_bind (h.keeps_finishDraft m _ _ _ _) fun _ => keeps_bind (h.keeps_ask _) fun read => ?_)
  rcases read.join with _ | record
  · exact h.keeps_writeDraftRecord m _ _ _ _ _
  · exact keeps_modify fun s start => armed s _ start

omit m in
theorem keeps_rearmCycleDraft {t : Int} (arming : Leaves e i d (armCycleDraft (boundaryAt t))) :
    Leaves e i d (rearmCycleDraft t) :=
  keeps_bind (h.keeps_aside fun _ => ⟨rfl, rfl⟩) fun _ =>
    keeps_bind keeps_get fun _ => keeps_when (keeps_bind (h.keeps_ask _) fun _ =>
      keeps_bind (h.keeps_ask _) fun _ => keeps_when arming)

theorem keeps_onBoundary {deliver : Delivery → M Unit} (kills : Kills e i d deliver) {b : Int}
    (arming : Leaves e i d (armCycleDraft b)) : Leaves e i d (onBoundary deliver b) :=
  keeps_bind (keeps_attempt (keeps_bind h.keeps_now fun _ =>
    keeps_bind (h.keeps_deriveDayLossHold m _) fun _ => keeps_bind (h.keeps_evaluate _) fun _ =>
    keeps_bind (h.keeps_commit fun _ _ => .verdict) fun _ => h.keeps_evaluateTracking kills)
    (keeps_pure ())) fun _ => arming

end
end Drafts

namespace Background
variable {e : Env} {i d : St → Prop} (h : Background i d)
include h

theorem keeps_journalPlan (b : Int) (v : GateVerdict) (t : Int) (entry : PlanEntry) :
    Leaves e i d (journalPlan b v t entry) :=
  keeps_attempt (keeps_bind (h.keeps_commit fun _ _ => .entry) fun _ => keeps_pure _)
    (keeps_pure _)

theorem keeps_deletePlanFile : Leaves e i d deletePlanFile :=
  keeps_bind (h.keeps_ask _) fun _ =>
    keeps_when (h.keeps_aside fun _ => ⟨rfl, rfl⟩)

theorem keeps_refusePlan (p : ProbePlan) (b t : Int) (v : GateVerdict) (fromFile : Bool)
    (reasons : List String) : Leaves e i d (refusePlan p b t v fromFile reasons) :=
  keeps_bind (h.keeps_journalPlan _ _ _ _) fun _ =>
    keeps_bind (keeps_when h.keeps_deletePlanFile) fun _ => keeps_pure _

theorem keeps_mixedInventory (p : ProbePlan) (state : VenueState) :
    Leaves e i d (mixedInventoryRefusals p state) := by
  refine keeps_bind keeps_get fun s => keeps_ite (fun _ => keeps_pure _) (fun _ => ?_)
  rcases s.drafting.venueBook with _ | book
  · exact keeps_pure _
  · refine keeps_bind (h.keeps_ask _) fun read => ?_
    rcases read with _ | margin
    · exact keeps_pure _
    · exact keeps_bind (keeps_collect fun _ => keeps_bind (keeps_orRaise _) fun _ => keeps_pure _)
        fun _ => keeps_pure _

/- The walls of a plan, each of which journals its refusal, before the run of it. -/
theorem keeps_acceptPlan {p : ProbePlan} {b t : Int} {fromFile : Bool}
    (walls : ∀ state v, Leaves e i d (do
      let reasons ← planWalls p t state
      if reasons = [] then journalAndRun p b t v fromFile
      else refusePlan p b t v fromFile reasons)) :
    Leaves e i d (acceptPlan p b t fromFile) := by
  refine keeps_bind (h.keeps_evaluate _) fun v => keeps_bind keeps_get fun s =>
    keeps_ite (fun _ => h.keeps_refusePlan _ _ _ _ _ _) (fun _ => ?_)
  rcases s.holds.reconciliationRefusal with _ | refusal
  · refine keeps_bind (h.keeps_ask _) fun read => ?_
    rcases read with _ | state
    · exact h.keeps_refusePlan _ _ _ _ _ _
    · exact keeps_bind (keeps_env _) fun _ => keeps_bind
        (keeps_ite (fun _ => h.keeps_nothingInFlight) (fun _ => keeps_pure _)) fun _ =>
        keeps_ite (fun _ => walls state v) (fun _ => keeps_pure _)
  · exact h.keeps_refusePlan _ _ _ _ _ _

theorem keeps_pickup {t : Int}
    (accepting : ∀ p, Leaves e i d (acceptPlan p (boundaryAt t) t true)) : Leaves e i d (pickup t) := by
  refine keeps_bind keeps_get fun s => keeps_forSome fun file => keeps_bind (h.keeps_ask _)
    fun statFails => keeps_bind (h.keeps_ask _) fun readFails => keeps_when ?_
  split
  · exact keeps_bind (accepting _) fun _ => keeps_pure _
  · exact keeps_bind (h.keeps_evaluate _) fun _ => keeps_bind (h.keeps_journalPlan _ _ _ _)
      fun _ => keeps_when h.keeps_deletePlanFile

/- A start reads what the Cache restored, from a fresh process. -/
theorem starts_fresh {s : St} (start : i (fresh s)) : wp e Timer.start (Post.leaving i d) s := by
  have body : Leaves e i d (do
      let t ← now
      modify fun s => { s with holds.gateEvaluatedAt := t }
      let enabled ← env fun e => e.config.cacheEnabled
      when enabled readRestored) :=
    keeps_bind h.keeps_now fun _ => keeps_bind (h.keeps_aside fun _ => ⟨rfl, rfl⟩)
      fun _ => keeps_bind (keeps_env _) fun _ => keeps_when h.keeps_readRestored
  exact (wp_bind _ _).mpr (body _ start)

end Background

/- The draft of a boundary's plan, around its window and an acceptance that keep the assertion. -/
theorem Drafts.keeps_drafting {e : Env} {i d : St → Prop} (h : Drafts i d) (m : MarkFree i)
    {deliver : Delivery → M Unit} (kills : Kills e i d deliver) (t : Int)
    (windowed : ∀ close, Leaves e i d (modify fun s : St => { s with run.planWindowClose := some close }))
    (accepting : ∀ p b, Leaves e i d (acceptPlan p b t false)) :
    Leaves e i d (draftCyclePlan deliver t) := by
  refine keeps_bind keeps_get fun s => keeps_forSome fun draft =>
    keeps_ite (fun _ => h.keeps_finishDraft m _ _ _ _) (fun _ => keeps_bind h.keeps_nothingInFlight
      fun _ => keeps_when (keeps_bind (h.keeps_draftOnce m kills t draft (windowed _)
        fun _ p _ => accepting p _) fun drafted => ?_))
  cases drafted with
  | waiting => exact keeps_pure ()
  | retry status figures => exact h.keeps_spendDraftTry m _ _ _
  | finished status figures planId => exact h.keeps_finishDraft m _ _ _ _

/- A plan taken up keeps the assertion. -/
def Accepts (i : St → Prop) : Prop :=
  ∀ s r p b t cycle, r.plan = some p → i s →
    i { s with run := r, trace := .planAccepted p b t cycle :: s.trace }

theorem Background.keeps_accept {e : Env} {i d : St → Prop} (h : Background i d) {p : ProbePlan}
    {b t : Int} {fromFile : Bool} (running : Leaves e i d (startPlan p b t fromFile)) :
    Leaves e i d (acceptPlan p b t fromFile) := by
  refine h.keeps_acceptPlan fun state v => keeps_bind (keeps_bind (h.keeps_scan _) fun _ =>
    keeps_bind (keeps_env _) fun _ => keeps_ite (fun _ => h.keeps_mixedInventory _ _)
      (fun _ => keeps_pure _)) fun reasons => keeps_ite (fun _ => ?_)
    (fun _ => h.keeps_refusePlan _ _ _ _ _ _)
  exact keeps_bind (h.keeps_journalPlan _ _ _ _) fun _ => keeps_ite
    (fun _ => keeps_bind (keeps_when h.keeps_deletePlanFile) fun _ => keeps_bind running fun _ =>
      keeps_pure _) (fun _ => keeps_pure _)

theorem Moving.keeps_accept {e : Env} {i d : St → Prop} (h : Moving i d) (accepted : Accepts i)
    (p : ProbePlan) (b t : Int) (fromFile : Bool) : Leaves e i d (acceptPlan p b t fromFile) :=
  h.toBackground.keeps_accept (keeps_modify fun s start => accepted s _ p b t _ rfl start)

/- The acceptance of a plan and the arming of a draft keep the assertion too. -/
structure Accepting (i d : St → Prop) : Prop extends Moving i d, Drafts i d where
  accepted : Accepts i
  armed : ∀ s w, i s → i { s with drafting.pendingDraft := some w }

namespace Accepting
variable {e : Env} {i d : St → Prop} (h : Accepting i d)
include h

section
variable (m : MarkFree i) {deliver : Delivery → M Unit} (kills : Kills e i d deliver)
include m kills

theorem keeps_draftCyclePlan (t : Int) : Leaves e i d (draftCyclePlan deliver t) :=
  h.toDrafts.keeps_drafting m kills t (fun _ => h.keeps_moved fun _ => ⟨rfl, .inl rfl⟩)
    fun p b => h.keeps_accept h.accepted p b _ _

theorem keeps_takePlan (t : Int) : Leaves e i d (takePlan deliver t) :=
  keeps_bind keeps_get fun _ => keeps_when (keeps_bind
    (keeps_when (h.keeps_rearmCycleDraft (h.keeps_armCycleDraft m h.armed _))) fun _ =>
    keeps_bind keeps_get fun _ => keeps_bind (keeps_when (h.keeps_draftCyclePlan m kills t)) fun _ =>
    keeps_bind keeps_get fun _ => keeps_when (h.keeps_pickup fun p => h.keeps_accept h.accepted p _ _ _))

end
end Accepting

/- The tick, over the passes and the pickup of a plan. -/
theorem Moving.keeps_onTimer {e : Env} {i d : St → Prop} (h : Moving i d) {deliver : Delivery → M Unit}
    (hd : ∀ x, Leaves e i d (deliver x)) (kills : Kills e i d deliver) (hs : Submits e i d)
    (pulls : Pulls i) (passing : ∀ t, Leaves e i d (passes deliver t))
    (taking : ∀ t, Leaves e i d (takePlan deliver t)) : Leaves e i d (onTimer deliver) :=
  keeps_bind h.keeps_now fun t => keeps_attempt (keeps_bind (passing t) fun _ =>
    keeps_bind (taking t) fun _ => keeps_bind (h.keeps_pump hd kills hs pulls t) fun _ =>
    h.keeps_refreshGate t) h.keeps_dropPlan

/- An input the process takes, over the three that move a guard. -/
theorem Moving.keeps_react {e : Env} {i d : St → Prop} (h : Moving i d)
    (hd : ∀ x, Leaves e i d (reenter e.depth x)) (kills : Kills e i d (reenter e.depth))
    (hs : Submits e i d) (timing : Leaves e i d (onTimer (reenter e.depth)))
    (switching : ∀ endpoint connected, Leaves e i d (onSocketState endpoint connected))
    {x : Input} (alerting : ∀ b, x = .boundary b → Leaves e i d (onBoundary (reenter e.depth) b))
    (process : x.needsProcess = true) : Leaves e i d (react x) := by
  cases x with
  | timer => exact keeps_reader (fun e => onTimer (reenter e.depth)) timing
  | quote symbol bid ask =>
    exact keeps_reader (fun e => onQuote (reenter e.depth) symbol bid ask)
      (h.keeps_onQuote hd kills hs symbol bid ask)
  | order ev =>
    exact keeps_reader (fun e => onOrderEvent (reenter e.depth) ev)
      (h.keeps_onOrderEvent hd kills hs ev)
  | external ev =>
    exact keeps_reader (fun e => onExternalOrderEvent (reenter e.depth) ev)
      (h.keeps_onExternalOrderEvent kills ev)
  | socket endpoint connected => exact switching endpoint connected
  | boundary b => exact keeps_reader (fun e => onBoundary (reenter e.depth) b) (alerting b rfl)
  | _ => cases process

/- What stands between two inputs: one assertion of a live process, one of a dead host. -/
def Stands (i d : St → Prop) (n : Node) : Prop :=
  (n.alive = true → i n.st) ∧ (n.alive = false → d n.st)

theorem stands_left {e : Env} {i d : St → Prop} {α : Type} {m : M α} {s : St}
    (left : wp e m (Post.leaving i d) s) : Stands i d ⟨(m e s).2, Node.survives (m e s).1⟩ := by
  unfold wp Post.leaving at left
  generalize m e s = x at *
  rcases x with ⟨a | _ | _, t⟩ <;> simp_all [Stands, Node.survives]

/- What an input leaves: of a live process, of a dead host that starts one, and of a dead
   host whose disk the operator writes. -/
structure Taken (e : Env) (i d : St → Prop) (x : Input) : Prop where
  live : Leaves e i d (react x)
  starts : x = .start → ∀ s, d s → wp e start (Post.leaving i d) s
  operated : x.needsProcess = false → x ≠ .start → ∀ s, d s → d (final (react x) e s)

section
variable {e : Env} {i d : St → Prop}

theorem stands_step {n : Node} {x : Input} (taken : Taken e i d x) (h : Stands i d n) :
    Stands i d (step e n x) := by
  unfold step
  split
  · exact h
  · rename_i reached
    cases alive : n.alive with
    | true =>
      have left := stands_left (taken.live n.st (h.1 alive))
      cases x <;> exact left
    | false =>
      have dead := h.2 alive
      by_cases started : x = .start
      · subst started
        exact stands_left (taken.starts rfl n.st dead)
      · have gone := taken.operated (by simpa [alive] using reached) started n.st dead
        cases x with
        | start => exact absurd rfl started
        | _ => exact ⟨fun live => (by cases live), fun _ => gone⟩

/- What each input leaves standing, every run of them leaves standing. -/
theorem stands_steps (n : Node) (xs : List Input) (taken : ∀ x ∈ xs, Taken e i d x)
    (h : Stands i d n) : Stands i d (steps e n xs) := by
  induction xs generalizing n with
  | nil => exact h
  | cons x rest ih =>
    exact ih _ (fun y later => taken y (List.mem_cons_of_mem x later))
      (stands_step (taken x List.mem_cons_self) h)

/- One assertion of live and dead alike. -/
theorem Stands.always {i : St → Prop} {n : Node} (h : Stands i i n) : i n.st := by
  cases alive : n.alive with
  | true => exact h.1 alive
  | false => exact h.2 alive

end

/- Everything a run does. -/
structure Lasting (e : Env) (i d : St → Prop) : Prop extends Accepting i d, Routine i d where
  submits : Submits e i d
  pulls : Pulls i
  started : ∀ s, i s ∨ d s → i (fresh s)
  operated : ∀ s t, trading t = trading s → d s → d t

namespace Lasting
variable {e : Env} {i d : St → Prop} (h : Lasting e i d)
include h

theorem keeps_delivery (n : Nat) (x : Delivery) :
    Leaves e i d (reenter n x) :=
  h.keeps_reenter h.submits n x

theorem starts {s : St} (begun : i s ∨ d s) : wp e Timer.start (Post.leaving i d) s :=
  h.starts_fresh (h.started s begun)

theorem keeps_react (x : Input) : Leaves e i d (react x) := by
  have hd := h.keeps_delivery e.depth
  have kills := h.keeps_tripKill hd
  have marks := h.markFree
  by_cases process : x.needsProcess = true
  · exact h.toMoving.keeps_react hd kills h.submits (h.keeps_onTimer hd kills h.submits h.pulls
      (h.keeps_allPasses hd) (h.keeps_takePlan marks kills)) (h.keeps_onSocketState h.socketFree)
      (fun b _ => h.keeps_onBoundary marks kills (h.keeps_armCycleDraft marks h.armed b)) process
  · cases x with
    | start => exact fun s held => h.starts (.inl held)
    | dropFile f => exact keeps_modify fun s held => h.blind s _ rfl held
    | setKillFile text => exact keeps_modify fun s held => h.blind s _ rfl held
    | clearSeriesStart => exact keeps_modify fun s held => h.blind s _ rfl held
    | _ => exact absurd rfl process

theorem taken (x : Input) : Taken e i d x where
  live := h.keeps_react x
  starts := fun _ _ dead => h.starts (.inr dead)
  operated := fun idle other s dead => by
    cases x with
    | start => exact absurd rfl other
    | dropFile f => exact h.operated s _ rfl dead
    | setKillFile text => exact h.operated s _ rfl dead
    | clearSeriesStart => exact h.operated s _ rfl dead
    | _ => cases idle

/- What every change keeps, every run keeps. -/
theorem steps_keep (n : Node) (xs : List Input) (start : Stands i d n) :
    Stands i d (steps e n xs) :=
  stands_steps n xs (fun x _ => h.taken x) start

omit h in
theorem keeps_always {i : St → Prop} (h : Lasting e i i) (n : Node) (xs : List Input)
    (start : i n.st) : i (steps e n xs).st :=
  (h.steps_keep n xs ⟨fun _ => start, fun _ => start⟩).always

end Lasting
end Footprint
