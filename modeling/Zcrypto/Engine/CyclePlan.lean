import Zcrypto.Engine.Pickup

/- The cycle plan: armed at a boundary, drafted on a later tick from the venue's own
   book, and recorded. The equity mark ahead of the draft carries the two drawdown
   trips, and the boundary's alert scores the closed week. -/
namespace CyclePlan
open ProbePlans ExecGate ExecLedger Effects Effects.Prog Controller Orders Sweeps Pickup

def submissionWindow : Int := 210 * minute
def drawdownKillBps : ℚ := 1500
def dayLossHoldBps : ℚ := 300

-- the draft records

/- `accum_records_since`: oldest first, both bounds in. -/
def recordsSince (drafts : List (Int × DraftRecord)) (since until_ : Int) :
    List (Int × DraftRecord) :=
  (drafts.filter fun d => since ≤ instantOf d.1 ∧ instantOf d.1 ≤ until_).mergeSort
    fun a b => decide (a.1 ≤ b.1)

def midnight (t : Int) : Int := dayOf t * hoursPerDay * hour

/- `_day_loss_held` -/
def dayLossHeld (records : List DraftRecord) : Bool := records.any fun r =>
  r.figures.dayLossBps.any (fun bps => decide (dayLossHoldBps ≤ bps)) ||
    (r.figures.equityEur.isSome && r.dayLossHold)

/- `_day_base`: the equity the day's loss is taken from. -/
def dayBase (records : List (Int × DraftRecord)) (b : Int) (equity : ℚ) : ℚ :=
  let day := midnight (instantOf b)
  let marks := (records.filterMap fun (c, r) => r.figures.equityEur.map fun e => (instantOf c, e)) ++
    [(instantOf b, equity)]
  let opening := marks.filter fun m => m.1 = day
  let previous := marks.filter fun m => day - hoursPerDay * hour ≤ m.1 ∧ m.1 < day
  match opening.head?, previous.getLast? with
  | some m, _ => m.2
  | none, some m => m.2
  | none, none => ((marks.find? fun m => day ≤ m.1).map Prod.snd).getD equity

/- A read or a write of a file beside the exec ledger. -/
def file {α : Type} (act : M α) : M α := do
  let fails ← ask Env.fileFails
  if fails then raise else act

/- `_derive_day_loss_hold`: a read that fails holds the date. -/
def deriveDayLossHold (t : Int) : M Unit :=
  attempt (file do
    let s ← get
    let records := match s.disk.seriesStart with
      | none => []
      | some start => recordsSince s.disk.drafts (max start (midnight t)) t
    modify fun s => { s with holds.dayLossHold := dayLossHeld (records.map Prod.snd) })
    (modify fun s => { s with holds.dayLossHold := true })

/- `_book_coin_eur` -/
def bookCoinEur (book : VenueBook) (closes : Pair → Option ℚ) : Option ℚ :=
  (modelPairs.mapM fun p => (closes p).map fun close =>
    (book.held p + ((book.earn.lookup p).getD 0)) * close).map List.sum

/- What one mark reads, once the record prices every base. -/
structure Mark where
  equity : ℚ
  hwm : ℚ
  drawdownBps : ℚ
  dayLossBps : ℚ
  hold : Bool

def markOf (drafts : List (Int × DraftRecord)) (b start : Int) (minted : Bool) (equity nav : ℚ) :
    Mark :=
  let found := recordsSince drafts (if minted then instantOf b else start) (instantOf b)
  let earlier := found.filter fun d => d.1 ≠ b
  let hwm := (earlier.filterMap fun d => d.2.figures.equityEur).foldl max equity
  let dayLossBps := (dayBase earlier b equity - equity) * 10000 / nav
  let held := (if minted then earlier else found).filter fun d =>
    midnight (instantOf b) ≤ instantOf d.1
  { equity, hwm, dayLossBps
    drawdownBps := (hwm - equity) * 10000 / nav
    hold := decide (dayLossHoldBps ≤ dayLossBps) || dayLossHeld (held.map Prod.snd) }

def editDraft (f : PendingDraft → PendingDraft) : M Unit := modify fun s => { s with
  drafting.pendingDraft := s.drafting.pendingDraft.map f }

/- `_mint_series_start` -/
def mintSeriesStart (b : Int) : M Unit := do
  file (modify fun s => { s with disk.seriesStart := some (instantOf b) })
  editDraft fun d => { d with mintedSeries := true }

/- `_mark_equity`, of a record that prices every base: a drawdown past the bound trips. -/
def markPriced (deliver : Delivery → M Unit) (draft : PendingDraft) (equity nav : ℚ) :
    M Figures := do
  let start ← file (gets fun s => s.disk.seriesStart)
  let drafts ← file (gets fun s => s.disk.drafts)
  let mark := markOf drafts draft.boundary (start.getD 0) (start.isNone || draft.mintedSeries)
    equity nav
  when (start = none) (mintSeriesStart draft.boundary)
  modify fun s => { s with holds.dayLossHold := mark.hold }
  let s ← get
  when (drawdownKillBps ≤ mark.drawdownBps ∧ s.disk.killFile = none)
    (tripKill deliver "equity is under the series' high-water mark by the drawdown bound")
  pure { equityEur := some mark.equity, hwmEur := some mark.hwm
         drawdownBps := some mark.drawdownBps, dayLossBps := some mark.dayLossBps
         dayLossHold := some mark.hold }

/- `_mark_equity`: an unpriced base, or no NAV, marks nothing. -/
def markEquity (deliver : Delivery → M Unit) (book : VenueBook) (draft : PendingDraft) :
    M Figures := do
  let s ← get
  match bookCoinEur book draft.record.closes, draft.record.nav with
  | some coin, some nav =>
    if nav = 0 then raise else markPriced deliver draft (book.eurTotal + coin) nav
  | _, _ => pure { dayLossHold := some s.holds.dayLossHold }

/- `_write_draft_record`: a draft that marked nothing keeps the replaced record's mark. -/
def writeDraftRecord (b t : Int) (status : DraftStatus) (figures : Figures)
    (planId : Option PlanId) : M Unit :=
  attempt (file do
    let s ← get
    let kept := match figures.equityEur, s.disk.drafts.lookup b with
      | none, some old =>
        if old.figures.equityEur.isSome then
          { old.figures with
            nav := figures.nav, eurTotal := figures.eurTotal, eurFree := figures.eurFree
            dayLossHold := some old.dayLossHold }
        else figures
      | _, _ => figures
    let record : DraftRecord :=
      { draftedAt := t, status, figures := kept, planId
        dayLossHold := kept.dayLossHold.getD s.holds.dayLossHold }
    modify fun s => { s with
      disk.drafts := (b, record) :: s.disk.drafts.filter fun d => d.1 ≠ b }) (pure ())

-- the draft

/- `_finish_draft` -/
def finishDraft (t : Int) (status : DraftStatus) (figures : Option Figures)
    (planId : Option PlanId) : M Unit := do
  let s ← get
  forSome s.drafting.pendingDraft fun draft => do
    modify fun s => { s with drafting.pendingDraft := none }
    let own := figures.filter fun f => f.equityEur.isSome
    let written := (own.or draft.marked).or figures
    writeDraftRecord draft.boundary t status (written.getD { nav := draft.record.nav }) planId
    attempt (do
      let v ← evaluate t
      commit (writeExecRecord draft.boundary v t)) (pure ())

/- `_spend_draft_try` -/
def spendDraftTry (t : Int) (status : DraftStatus) (figures : Figures) : M Unit := do
  editDraft fun d => { d with tries := d.tries - 1 }
  let s ← get
  when (s.drafting.pendingDraft.any fun d => d.tries = 0) (finishDraft t status (some figures) none)

/- The plan the table's decisions assemble into, none when they place nothing. -/
def draftedPlan (b t : Int) (legs : List ProbeIntent) : Option ProbePlan :=
  if legs = [] then none
  else some { planId := cyclePlanId b, createdAt := t, intents := legs }

inductive Drafted where
  | finished (status : DraftStatus) (figures : Figures) (planId : Option PlanId)
  | retry (status : DraftStatus) (figures : Figures)
  | waiting

/- The reads, the mark, the table and the walls of one draft. -/
def draftOnce (deliver : Delivery → M Unit) (t : Int) (draft : PendingDraft) : M Drafted := do
  let bare : Figures := { nav := draft.record.nav }
  let read ← ask Env.venueBook
  match read with
  | none => pure (.retry .bookUnread bare)
  | some book => do
    modify fun s => { s with drafting.venueBook := some book }
    let marked ← attempt (do
      let f ← markEquity deliver book draft
      pure (some f)) (pure none)
    match marked with
    | none => pure (.retry .refused bare)
    | some mark => do
      let figures : Figures := { mark with
        nav := draft.record.nav, eurTotal := some book.eurTotal, eurFree := some book.eurFree }
      when figures.equityEur.isSome (editDraft fun d => { d with marked := some figures })
      if book.earn ≠ [] then pure (.retry .bookUnread figures)
      else do
        let table ← ask Env.draftTable
        match table with
        | .raised => pure (.retry .refused figures)
        | .absent => pure (.finished .refused figures none)
        | .legs legs =>
          match draftedPlan draft.boundary t legs with
          | none => pure (.finished .ok figures none)
          | some p => do
            modify fun s => { s with run.planWindowClose := some draft.windowClose }
            let outcome ← attempt (do
              let r ← acceptPlan p draft.boundary t false
              pure (some r)) (pure none)
            match outcome with
            | none => pure (.retry .refused figures)
            | some .waiting => pure .waiting
            | some .accepted => pure (.finished .ok figures (some p.planId))
            | some .refused => do
              let read ← tryScan fun l => readExisting l draft.boundary
              let journaled := read.any fun r => r.plans.any fun e =>
                e.planId = p.planId ∧ e.receivedAt = t
              pure (.finished .refused figures (if journaled then some p.planId else none))

/- `_draft_cycle_plan` -/
def draftCyclePlan (deliver : Delivery → M Unit) (t : Int) : M Unit := do
  let s ← get
  forSome s.drafting.pendingDraft fun draft =>
    if draft.windowClose < t then finishDraft t .windowClosed none none
    else do
      let free ← nothingInFlight
      when free (do
        let drafted ← draftOnce deliver t draft
        match drafted with
        | .waiting => pure ()
        | .retry status figures => spendDraftTry t status figures
        | .finished status figures planId => finishDraft t status (some figures) planId)

-- the boundary

/- `_arm_cycle_draft` -/
def armCycleDraft (b : Int) : M Unit := do
  modify fun s => { s with drafting.draftRearmChecked := true }
  let enabled ← env fun e => e.config.accumulationEnabled
  when enabled (do
    let t ← now
    finishDraft t .windowClosed none none
    let read ← ask fun e n => e.cycleRecord n b
    match read.join with
    | none => writeDraftRecord b t .noCycle {} none
    | some record => do
      let draft : PendingDraft :=
        { boundary := b, record, tries := rereadAttempts
          windowClose := instantOf b + submissionWindow }
      modify fun s => { s with drafting.pendingDraft := some draft })

/- `_rearm_cycle_draft`: the boundary a previous process armed and never recorded. -/
def rearmCycleDraft (t : Int) : M Unit := do
  modify fun s => { s with drafting.draftRearmChecked := true }
  let s ← get
  when (s.drafting.pendingDraft.isNone ∧ t ≤ instantOf (boundaryAt t) + submissionWindow) (do
    let read ← ask fun e n => e.cycleRecord n (boundaryAt t)
    let fails ← ask Env.fileFails
    let drafted := (s.disk.drafts.lookup (boundaryAt t)).any fun r => r.planId.isSome
    let absent := match read with | some none => true | _ => false
    when (absent = false ∧ fails = false ∧ drafted = false) (armCycleDraft (boundaryAt t)))

/- `_evaluate_tracking`: the week's breach latches the kill switch, once. -/
def evaluateTracking (deliver : Delivery → M Unit) : M Unit := do
  let config ← env Env.config
  let s ← get
  when (config.trackingBand ∧ config.armedInConfig ∧ s.killTripped = false ∧
      s.disk.killFile = none) (do
    let breach ← ask Env.weekBreach
    forSome breach (tripKill deliver))

/- `on_boundary` -/
def onBoundary (deliver : Delivery → M Unit) (b : Int) : M Unit := do
  attempt (do
    let t ← now
    deriveDayLossHold (instantOf b)
    let v ← evaluate t
    commit (writeExecRecord b v t)
    evaluateTracking deliver) (pure ())
  armCycleDraft b

end CyclePlan
