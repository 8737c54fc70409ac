import Zcrypto.Engine.Runs

/- A plan is accepted at most once: its entry stays in the ledger, and at every instant
   its document is young enough to be accepted again the entry's record is scanned. -/
namespace Acceptance
open ProbePlans ExecGate ExecLedger LedgerLaws Effects Effects.Prog Controller Orders
  OrderEvents Sweeps Pickup CyclePlan Timer Footprint

-- the scanned window

theorem scanned {t b : Int} {l : Ledger} {docs : List (Int × ExecRecord)} {p : PlanId}
    (read : recordsInWindow t none l = some docs) (held : p ∈ planIdsAt l b)
    (lower : dayOf t - 1 ≤ dayOfBoundary b) (upper : dayOfBoundary b ≤ dayOf t) :
    ∃ r, (b, r) ∈ docs ∧ p ∈ r.plans.map PlanEntry.planId ++ r.submitted.map Row.planId := by
  unfold planIdsAt Ledger.entries Ledger.rows at held
  rcases hb : l b with _ | (r | _) <;> simp only [hb] at held
  · simp at held
  · exact ⟨r, mem_readAll read (mem_window (by simpa using lower) upper) hb, held⟩
  · simp at held

theorem scanned_id {t b : Int} {l : Ledger} {ids : List PlanId} {p : PlanId}
    (read : ledgeredPlanIds t l = some ids) (held : p ∈ planIdsAt l b)
    (lower : dayOf t - 1 ≤ dayOfBoundary b) (upper : dayOfBoundary b ≤ dayOf t) : p ∈ ids := by
  obtain ⟨docs, window, rfl⟩ := Option.map_eq_some_iff.mp read
  obtain ⟨r, mem, named⟩ := scanned window held lower upper
  exact List.mem_flatMap.mpr ⟨(b, r), mem, named⟩

-- what an acceptance leaves

/- An instant inside the four hours a boundary's record is written in. -/
def Within (b t : Int) : Prop := instantOf b ≤ t ∧ t ≤ instantOf b + 4 * hour

theorem within_boundaryAt (t : Int) : Within (boundaryAt t) t := by
  simp only [Within, instantOf, boundaryAt, hourOf, hour, minute, second, boundaryHours]
  omega

/- The scan of a later instant reaches the record, an hour and a day boundary included. -/
theorem within_window {b t now : Int} (near : Within b t) (later : t ≤ now)
    (young : now - t ≤ planTtl ∨ now ≤ instantOf b + submissionWindow) :
    dayOf now - 1 ≤ dayOfBoundary b ∧ dayOfBoundary b ≤ dayOf now := by
  simp only [Within, instantOf, planTtl, submissionWindow, dayOf, hourOf, dayOfBoundary, hour,
    minute, second, hoursPerDay] at *
  omega

/- Neither the same document nor the same boundary's own draft. -/
def Apart : Effect → Effect → Prop
  | .planAccepted p _ _ c, .planAccepted p' _ _ c' =>
    ¬(p.planId = p'.planId ∧ p.createdAt = p'.createdAt) ∧ (c.isSome → c ≠ c')
  | _, _ => True

structure Journaled (l : Ledger) (t : Int) (p : ProbePlan) (b at_ : Int) (cycle : Option Int) :
    Prop where
  filed : p.planId ∈ planIdsAt l b
  near : Within b at_
  past : at_ ≤ t
  created : p.createdAt ≤ at_
  draft : ∀ c, cycle = some c → c = b ∧ p.planId = cyclePlanId b

/- The acceptances so far, as a tick at `t` finds them. -/
structure AcceptedOnce (e : Env) (t : Int) (s : St) : Prop where
  clock : t ≤ e.clock s.asks
  journaled : ∀ p b at_ cycle, .planAccepted p b at_ cycle ∈ s.trace →
    Journaled s.disk.ledger t p b at_ cycle
  apart : s.trace.Pairwise Apart
  draft : ∀ d, s.drafting.pendingDraft = some d →
    instantOf d.boundary ≤ t ∧ d.windowClose = instantOf d.boundary + submissionWindow

theorem apart_note {x : Effect} (plain : ∀ p b t c, x ≠ .planAccepted p b t c) (y : Effect) :
    Apart x y := by
  cases x with
  | planAccepted p b t c => exact absurd rfl (plain p b t c)
  | _ => trivial

theorem AcceptedOnce.note {e : Env} {t : Int} {s : St} (h : AcceptedOnce e t s) {x : Effect}
    (plain : ∀ p b t c, x ≠ .planAccepted p b t c) (killTripped : Bool) :
    AcceptedOnce e t { s with trace := x :: s.trace, killTripped } where
  clock := h.clock
  journaled := fun p b at_ cycle mem => by
    rcases List.mem_cons.mp mem with same | old
    · exact absurd same.symm (plain p b at_ cycle)
    · exact h.journaled p b at_ cycle old
  apart := List.pairwise_cons.mpr ⟨fun y _ => apart_note plain y, h.apart⟩
  draft := h.draft

section
variable {e : Env} (mono : ∀ n, e.clock n ≤ e.clock (n + 1))
include mono

theorem acceptedOnce_routine (t : Int) : Routine (AcceptedOnce e t) (AcceptedOnce e t) where
  ask := fun s h => { h with clock := h.clock.trans (mono s.asks) }
  dies := fun s h => { h with clock := h.clock.trans (mono s.asks) }
  blind := fun s u same h =>
    { clock := asks_of_trading same ▸ h.clock
      journaled := by rw [trace_of_trading same, ledger_of_trading same]; exact h.journaled
      apart := trace_of_trading same ▸ h.apart
      draft := pendingDraft_of_trading same ▸ h.draft }
  watched := fun s x watch h => h.note (fun p b t c same => by subst x; cases watch) s.killTripped
  run := fun _ _ _ h => { h with }
  note := fun s x plain h => h.note (fun p b t c same => by subst x; cases plain) s.killTripped
  latch := fun s h => h.note (fun p b t c same => by cases same) true
  file := fun s l filed h =>
    { h with
      journaled := fun p b at_ cycle mem =>
        { h.journaled p b at_ cycle mem with
          filed := filed.planIds b (h.journaled p b at_ cycle mem).filed } }

theorem acceptedOnce_drafts (t : Int) : Drafts (AcceptedOnce e t) (AcceptedOnce e t) where
  toBackground := (acceptedOnce_routine mono t).toBackground
  cleared := fun s h => { h with draft := fun d none => by cases none }
  edited := fun s f same h =>
    { h with
      draft := fun d edited => by
        obtain ⟨old, held, rfl⟩ := Option.map_eq_some_iff.mp edited
        rw [(same old).1, (same old).2]
        exact h.draft old held }

theorem acceptedOnce_submits (t : Int) : Submits e (AcceptedOnce e t) (AcceptedOnce e t) :=
  (acceptedOnce_routine mono t).submits
    (fun s x h => h.note (fun p b t c same => by cases same) s.killTripped)
    (fun s c h => h.note (fun p b t c same => by cases same) s.killTripped)

-- the acceptance

/- No acceptance so far is of this document, or of this boundary's own draft. -/
def Unseen (p : ProbePlan) (cycle : Option Int) (trace : List Effect) : Prop :=
  ∀ p' b' at_ c', .planAccepted p' b' at_ c' ∈ trace →
    ¬(p.planId = p'.planId ∧ p.createdAt = p'.createdAt) ∧ (cycle.isSome → cycle ≠ c')

omit mono in
theorem unseen_note {p : ProbePlan} {cycle : Option Int} {trace : List Effect} {x : Effect}
    (h : Unseen p cycle trace) (plain : ∀ p b t c, x ≠ .planAccepted p b t c) :
    Unseen p cycle (x :: trace) := by
  intro p' b' at_ c' mem
  rcases List.mem_cons.mp mem with same | old
  · exact absurd same.symm (plain p' b' at_ c')
  · exact h p' b' at_ c' old

/- Between the walls and the start of a plan the ledger keeps what it holds. -/
theorem unseen_routine (t : Int) (p : ProbePlan) (cycle : Option Int) (held : Ledger → Prop)
    (kept : ∀ l l', Filing l l' → held l → held l') :
    Routine (fun s => AcceptedOnce e t s ∧ Unseen p cycle s.trace ∧ held s.disk.ledger)
      (AcceptedOnce e t) where
  ask := fun s h => ⟨(acceptedOnce_routine mono t).ask s h.1, h.2⟩
  dies := fun s h => (acceptedOnce_routine mono t).ask s h.1
  blind := fun s u same h => by
    refine ⟨(acceptedOnce_routine mono t).blind s u same h.1, ?_⟩
    rw [trace_of_trading same, ledger_of_trading same]
    exact h.2
  watched := fun s x watch h => ⟨(acceptedOnce_routine mono t).watched s x watch h.1,
    unseen_note h.2.1 (fun p b t c same => by subst x; cases watch), h.2.2⟩
  run := fun s r kept h => ⟨(acceptedOnce_routine mono t).run s r kept h.1, h.2⟩
  note := fun s x plain h => ⟨(acceptedOnce_routine mono t).note s x plain h.1,
    unseen_note h.2.1 (fun p b t c same => by subst x; cases plain), h.2.2⟩
  latch := fun s h => ⟨(acceptedOnce_routine mono t).latch s h.1,
    unseen_note h.2.1 (fun p b t c same => by cases same), h.2.2⟩
  file := fun s l filed h =>
    ⟨(acceptedOnce_routine mono t).file s l filed h.1, h.2.1, kept _ _ filed h.2.2⟩

omit mono in
/- The id wall: a plan whose id no scanned record names was never accepted. -/
theorem unseen_of_walls {t : Int} {s : St} (h : AcceptedOnce e t s) {p : ProbePlan}
    {cycle : Option Int} {ids : List PlanId} (read : ledgeredPlanIds t s.disk.ledger = some ids)
    (young : t - p.createdAt ≤ planTtl) (unlisted : p.planId ∉ ids)
    (draft : ∀ c, cycle = some c → p.planId = cyclePlanId c ∧ t ≤ instantOf c + submissionWindow) :
    Unseen p cycle s.trace := by
  intro p' b' at_ c' mem
  have old := h.journaled p' b' at_ c' mem
  constructor
  · rintro ⟨sameId, sameStamp⟩
    have aged : t - at_ ≤ planTtl := by
      have := old.created
      rw [sameStamp] at young
      omega
    obtain ⟨lower, upper⟩ := within_window old.near old.past (.inl aged)
    exact unlisted (sameId ▸ scanned_id read old.filed lower upper)
  · intro _ same
    obtain ⟨c, drafted⟩ := Option.isSome_iff_exists.mp ‹cycle.isSome›
    obtain ⟨named, open_⟩ := draft c drafted
    obtain ⟨rfl, oldNamed⟩ := old.draft c (same ▸ drafted)
    obtain ⟨lower, upper⟩ := within_window old.near old.past (.inr open_)
    exact unlisted (named ▸ oldNamed ▸ scanned_id read old.filed lower upper)

omit mono in
theorem planIds_of_entry {l l' : Ledger} {b t : Int} {v : GateVerdict} {entry : PlanEntry}
    (h : appendPlanEntry b entry v t l = some l') : entry.planId ∈ planIdsAt l' b := by
  simp [planIdsAt, (appendPlanEntry_entries h).2 b]

/- The walls answer with no reason only for a plan that was never accepted. -/
theorem planWalls_unseen (t : Int) (p : ProbePlan) (cycle : Option Int) (state : VenueState)
    (draft : ∀ c, cycle = some c → p.planId = cyclePlanId c ∧ t ≤ instantOf c + submissionWindow)
    {s : St} (start : AcceptedOnce e t s) :
    wp e (planWalls p t state)
      ⟨fun reasons u => AcceptedOnce e t u ∧
        (reasons = [] → Unseen p cycle u.trace ∧ p.createdAt ≤ t),
      AcceptedOnce e t, AcceptedOnce e t⟩ s := by
  have routine := acceptedOnce_routine mono t
  simp only [planWalls, scan, wp_bind, wp_ask, wp_ite, wp_raise, wp_get, wp_orRaise, wp_env, wp_pure]
  have next := routine.ask s start
  split
  · exact next
  · split
    · exact next
    · refine ⟨fun ids read => ?_, fun _ => next⟩
      split
      · rename_i clear
        obtain ⟨young, created, unlisted⟩ := planRefusals_nil_fresh clear.2
        have unseen : Unseen p cycle s.trace := unseen_of_walls start read young unlisted draft
        have kept := unseen_routine mono t p cycle (fun _ => True) (fun _ _ _ _ => trivial)
        exact (kept.keeps_mixedInventory p state).elim ⟨next, unseen, trivial⟩
          (fun _ _ h => ⟨h.1, fun _ => ⟨h.2.1, created⟩⟩) (fun _ h => h.1) (fun _ h => h)
      · refine ⟨next, fun none => ?_⟩
        obtain ⟨young, created, unlisted⟩ := planRefusals_nil_fresh none
        exact ⟨unseen_of_walls start read young unlisted draft, created⟩

/- Journal first, start last: whatever ends the journaling, the entry is there before the plan runs. -/
theorem keeps_journalAndRun {t b : Int} {p : ProbePlan} {v : GateVerdict} {fromFile : Bool}
    {cycle : Option Int} (kind : cycle = if fromFile then none else some b) (near : Within b t)
    (created : p.createdAt ≤ t) (draft : ∀ c, cycle = some c → p.planId = cyclePlanId c) {s : St}
    (start : AcceptedOnce e t s) (unseen : Unseen p cycle s.trace) :
    wp e (journalAndRun p b t v fromFile) (Post.always (AcceptedOnce e t)) s := by
  have bare := unseen_routine mono t p cycle (fun _ => True) (fun _ _ _ _ => trivial)
  have filed := unseen_routine mono t p cycle (fun l => p.planId ∈ planIdsAt l b)
    (fun _ _ filing held => filing.planIds b held)
  have running (u : St) (h : AcceptedOnce e t u ∧ Unseen p cycle u.trace ∧
      p.planId ∈ planIdsAt u.disk.ledger b) :
      wp e (startPlan p b t fromFile) (Post.always (AcceptedOnce e t)) u := by
    obtain ⟨once, fresh, held⟩ := h
    refine { once with journaled := ?_, apart := ?_ }
    · intro p' b' at_ c' mem
      rcases List.mem_cons.mp mem with same | old
      · cases same
        refine ⟨held, near, le_rfl, created, fun c drafted => ?_⟩
        rw [← kind] at drafted
        refine ⟨?_, ?_⟩
        · cases fromFile <;> simp_all
        · have := draft c drafted
          cases fromFile <;> simp_all
      · exact once.journaled p' b' at_ c' old
    · refine List.pairwise_cons.mpr ⟨fun y mem => ?_, once.apart⟩
      rw [← kind]
      cases y with
      | planAccepted p' b' at_ c' => exact fresh p' b' at_ c' mem
      | _ => trivial
  simp only [journalAndRun, journalPlan, commit, wp_bind, wp_attempt, wp_ask, wp_ite, wp_emit,
    wp_raise, wp_get, wp_orRaise, wp_modify, wp_pure]
  have next := bare.ask s ⟨start, unseen, trivial⟩
  split
  · exact next.1
  · split
    · exact (bare.note _ .storeFailed rfl next).1
    · refine ⟨fun l appended => ?_, fun _ => next.1⟩
      have once := (acceptedOnce_routine mono t).file { s with asks := s.asks + 1 } l
        (.entry appended) next.1
      refine (keeps_when (filed.keeps_deletePlanFile)).elim
        ⟨once, unseen, planIds_of_entry appended⟩ (fun _ u h => ?_) (fun _ h => h.1) (fun _ h => h)
      exact running u h

theorem keeps_accepting {t b : Int} {p : ProbePlan} {fromFile : Bool} (near : Within b t)
    (draft : fromFile = false → p.planId = cyclePlanId b ∧ t ≤ instantOf b + submissionWindow) :
    Keeps e (AcceptedOnce e t) (acceptPlan p b t fromFile) := by
  have routine := acceptedOnce_routine mono t
  refine routine.keeps_acceptPlan fun state v s start => ?_
  have drafted : ∀ c, (if fromFile then none else some b) = some c →
      p.planId = cyclePlanId c ∧ t ≤ instantOf c + submissionWindow := by
    intro c own
    cases fromFile with
    | true => simp at own
    | false =>
      obtain rfl : b = c := by simpa using own
      exact draft rfl
  rw [wp_bind]
  refine wp_mono (planWalls_unseen mono t p _ state drafted start) (fun reasons u h => ?_)
    (fun _ h => h) (fun _ h => h)
  obtain ⟨once, clear⟩ := h
  simp only [wp_ite]
  split
  · obtain ⟨unseen, created⟩ := clear ‹_›
    exact keeps_journalAndRun mono rfl near created (fun c own => (drafted c own).1) once unseen
  · exact routine.keeps_refusePlan _ _ _ _ _ _ _ once

-- the run

/- A draft that is tried stands inside its boundary's submission window. -/
theorem keeps_draftCyclePlan {deliver : Delivery → M Unit} {t : Int}
    (hd : ∀ d, Keeps e (AcceptedOnce e t) (deliver d)) :
    Keeps e (AcceptedOnce e t) (draftCyclePlan deliver t) := by
  have drafts := acceptedOnce_drafts mono t
  have routine := acceptedOnce_routine mono t
  have marks := routine.markFree
  refine keeps_get_bind fun s start => ?_
  rw [wp_forSome]
  refine ⟨fun draft pending => ?_, fun _ => start⟩
  obtain ⟨opened, closes⟩ := start.draft draft pending
  rw [wp_ite]
  split
  · exact drafts.keeps_finishDraft marks _ _ _ _ s start
  · rename_i still
    have window : t ≤ instantOf draft.boundary + submissionWindow := by omega
    have near : Within draft.boundary t := by
      refine ⟨opened, window.trans ?_⟩
      simp only [submissionWindow, hour, minute, second]
      omega
    have trying : Keeps e (AcceptedOnce e t) (draftOnce deliver t draft) :=
      drafts.keeps_draftOnce marks (routine.keeps_tripKill hd) t draft
        (routine.keeps_moved fun _ => ⟨rfl, .inl rfl⟩) fun legs p drafted => keeps_accepting mono near fun _ => by
        unfold draftedPlan at drafted
        split at drafted
        · cases drafted
        · obtain rfl := Option.some.inj drafted
          exact ⟨rfl, window⟩
    refine keeps_bind drafts.keeps_nothingInFlight (fun _ => keeps_when (keeps_bind trying
      fun outcome => ?_)) s start
    cases outcome with
    | waiting => exact keeps_pure ()
    | retry status figures => exact drafts.keeps_spendDraftTry marks _ _ _
    | finished status figures planId => exact drafts.keeps_finishDraft marks _ _ _ _

theorem keeps_armCycleDraft {t b : Int} (due : instantOf b ≤ t) :
    Keeps e (AcceptedOnce e t) (armCycleDraft b) := by
  have drafts := acceptedOnce_drafts mono t
  have marks := (acceptedOnce_routine mono t).markFree
  refine keeps_bind (drafts.keeps_aside fun _ => ⟨rfl, rfl⟩) fun _ =>
    keeps_bind (keeps_env _) fun _ => keeps_when (keeps_bind drafts.keeps_now fun _ =>
      keeps_bind (drafts.keeps_finishDraft marks _ _ _ _) fun _ => keeps_bind (drafts.keeps_ask _)
        fun read => ?_)
  rcases read.join with _ | record
  · exact drafts.keeps_writeDraftRecord marks _ _ _ _ _
  · refine keeps_modify fun s h => { h with draft := fun d armed => ?_ }
    cases armed
    exact ⟨due, rfl⟩

theorem keeps_tick {deliver : Delivery → M Unit} {t : Int}
    (hd : ∀ d, Keeps e (AcceptedOnce e t) (deliver d)) :
    Keeps e (AcceptedOnce e t) (tick deliver t) := by
  have drafts := acceptedOnce_drafts mono t
  have routine := acceptedOnce_routine mono t
  have submits := acceptedOnce_submits mono t
  have pulls : Pulls (AcceptedOnce e t) := fun s planId index h =>
    h.note (fun p b t c same => by cases same) s.killTripped
  have here := within_boundaryAt t
  have rearming : Keeps e (AcceptedOnce e t) (rearmCycleDraft t) :=
    drafts.keeps_rearmCycleDraft (keeps_armCycleDraft mono here.1)
  have picking : Keeps e (AcceptedOnce e t) (pickup t) :=
    drafts.keeps_pickup fun p => keeps_accepting mono here fun file => by cases file
  have taking : Keeps e (AcceptedOnce e t) (takePlan deliver t) :=
    keeps_bind keeps_get fun _ => keeps_when (keeps_bind (keeps_when rearming) fun _ =>
      keeps_bind keeps_get fun _ => keeps_bind (keeps_when (keeps_draftCyclePlan mono hd)) fun _ =>
      keeps_bind keeps_get fun _ => keeps_when picking)
  exact keeps_bind (routine.keeps_allPasses hd t) fun _ => keeps_bind taking fun _ =>
    keeps_bind (routine.keeps_pump hd (routine.keeps_tripKill hd) submits pulls t) fun _ =>
    drafts.keeps_refreshGate t

theorem keeps_onTimer {deliver : Delivery → M Unit} {s : St}
    (hd : ∀ d, Keeps e (AcceptedOnce e (e.clock s.asks)) (deliver d))
    (start : AcceptedOnce e (e.clock s.asks) s) :
    wp e (onTimer deliver) (Post.always (AcceptedOnce e (e.clock s.asks))) s := by
  have routine := acceptedOnce_routine mono (e.clock s.asks)
  have next := routine.ask s start
  simp only [onTimer, wp_bind, wp_now]
  split
  · exact next
  · exact keeps_attempt (keeps_tick mono hd) routine.keeps_dropPlan _ next

theorem acceptedOnce_react {s : St} (x : Input)
    (due : ∀ b, x = .boundary b → instantOf b ≤ e.clock s.asks)
    (held : AcceptedOnce e (e.clock s.asks) s) :
    wp e (react x) (Post.always (AcceptedOnce e (e.clock s.asks))) s := by
  have routine := acceptedOnce_routine mono (e.clock s.asks)
  have submits := acceptedOnce_submits mono (e.clock s.asks)
  have hd := routine.keeps_reenter submits e.depth
  have kills := routine.keeps_tripKill hd
  have starting : Keeps e (AcceptedOnce e (e.clock s.asks)) start :=
    keeps_bind (keeps_modify fun u h =>
      { h.note (x := .started) (fun p b t c same => by cases same) false with
        draft := fun d none => by cases none }) fun _ => keeps_bind routine.keeps_now fun _ =>
      keeps_bind (routine.keeps_aside fun _ => ⟨rfl, rfl⟩) fun _ =>
      keeps_bind (keeps_env _) fun _ => keeps_when routine.keeps_readRestored
  cases x with
  | start => exact starting s held
  | timer =>
    exact (wp_reader fun e => onTimer (reenter e.depth)).mpr (keeps_onTimer mono hd held)
  | quote symbol bid ask =>
    exact (wp_reader fun e => onQuote (reenter e.depth) symbol bid ask).mpr
      (routine.keeps_onQuote hd kills submits symbol bid ask s held)
  | order ev =>
    exact (wp_reader fun e => onOrderEvent (reenter e.depth) ev).mpr
      (routine.keeps_onOrderEvent hd kills submits ev s held)
  | external ev =>
    exact (wp_reader fun e => onExternalOrderEvent (reenter e.depth) ev).mpr
      (routine.keeps_onExternalOrderEvent kills ev s held)
  | socket endpoint connected =>
    exact routine.keeps_onSocketState routine.socketFree endpoint connected s held
  | boundary b =>
    exact (wp_reader fun e => onBoundary (reenter e.depth) b).mpr
      ((acceptedOnce_drafts mono _).keeps_onBoundary routine.markFree kills
        (keeps_armCycleDraft mono (due b rfl)) s held)
  | dropFile f => exact routine.blind s _ rfl held
  | setKillFile text => exact routine.blind s _ rfl held
  | clearSeriesStart => exact routine.blind s _ rfl held

omit mono in
theorem AcceptedOnce.later {t u : Int} {s : St} (h : AcceptedOnce e t s) (le : t ≤ u)
    (clock : u ≤ e.clock s.asks) : AcceptedOnce e u s where
  clock := clock
  journaled := fun p b at_ cycle mem =>
    { h.journaled p b at_ cycle mem with past := (h.journaled p b at_ cycle mem).past.trans le }
  apart := h.apart
  draft := fun d held => ⟨(h.draft d held).1.trans le, (h.draft d held).2⟩

/- A boundary's alert is taken no earlier than its boundary. -/
def AlertsDue (e : Env) : Node → List Input → Prop
  | _, [] => True
  | n, x :: rest =>
    (∀ b, x = .boundary b → instantOf b ≤ e.clock n.st.asks) ∧ AlertsDue e (step e n x) rest

theorem acceptedOnce_steps (n : Node) (xs : List Input) (due : AlertsDue e n xs)
    (start : AcceptedOnce e (e.clock n.st.asks) n.st) :
    AcceptedOnce e (e.clock (steps e n xs).st.asks) (steps e n xs).st := by
  induction xs generalizing n with
  | nil => exact start
  | cons x rest ih =>
    refine ih _ due.2 ?_
    unfold step
    split
    · exact start
    · have kept := wp_always.mp (acceptedOnce_react mono x due.1 start)
      exact kept.later kept.clock le_rfl

/- Over every run on a host, restarts and crashes included: no document is accepted twice and
   no boundary's own draft is, and the entry of an accepted plan lies in the window every
   scan reads while the document is young enough to be accepted. -/
theorem plan_accepted_once (disk : Disk) (unset : ActiveIntent) (mem : Nat → Row)
    (xs : List Input) (due : AlertsDue e (idle disk unset mem) xs) :
    (steps e (idle disk unset mem) xs).st.trace.Pairwise Apart ∧
    ∀ p b at_ cycle, .planAccepted p b at_ cycle ∈ (steps e (idle disk unset mem) xs).st.trace →
      ∀ now, at_ ≤ now → now - p.createdAt ≤ planTtl → ∀ docs,
      recordsInWindow now none (steps e (idle disk unset mem) xs).st.disk.ledger = some docs →
      ∃ r, (b, r) ∈ docs ∧ p.planId ∈ r.plans.map PlanEntry.planId ++ r.submitted.map Row.planId := by
  have once := acceptedOnce_steps mono _ xs due
    { clock := le_rfl
      journaled := fun p b at_ cycle mem => by cases mem
      apart := List.Pairwise.nil
      draft := fun d held => by cases held }
  refine ⟨once.apart, fun p b at_ cycle mem now later young docs read => ?_⟩
  have held := once.journaled p b at_ cycle mem
  have aged : now - at_ ≤ planTtl := by
    have := held.created
    omega
  obtain ⟨lower, upper⟩ := within_window held.near later (.inl aged)
  exact scanned read held.filed lower upper

end

/- The document dropped again before and after a restart. -/
def redropped : List Input :=
  [.start, .dropFile (.plan (twoLegs .execute)), .timer, .dropFile (.plan (twoLegs .execute)),
    .start, .timer]

theorem plan_accepted_once_redropped :
    (steps plain (idle (plainDisk fun _ => none) blankIntent fun _ => blankRow)
      redropped).st.trace.Pairwise Apart :=
  (plan_accepted_once (fun n => by simp only [plain]; omega) _ _ _ _
    (by simp [AlertsDue, redropped])).1

end Acceptance
