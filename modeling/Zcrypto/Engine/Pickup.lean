import Zcrypto.Engine.Sweeps

/- The pickup of a plan: its walls, its entry in the exec ledger, and only then its
   start. A plan the cycle drafts in memory meets the same walls as a dropped file. -/
namespace Pickup
open ProbePlans ExecGate ExecLedger Effects Effects.Prog Controller Orders OrderEvents Sweeps

/- `_journal_plan` -/
def journalPlan (b : Int) (v : GateVerdict) (t : Int) (entry : PlanEntry) : M Bool :=
  attempt (do
    commit (appendPlanEntry b entry v t)
    pure true) (pure false)

/- `_delete` -/
def deletePlanFile : M Unit := do
  let fails ← ask Env.fileFails
  when (fails = false) (modify fun s => { s with disk.planFile := none })

def refusedEntry (p : ProbePlan) (t : Int) (reasons : List String) : PlanEntry :=
  { planId := p.planId, receivedAt := t, disposition := .refused, reasons, plan := some p
    intents := [] }

def acceptedEntry (p : ProbePlan) (t : Int) : PlanEntry :=
  { planId := p.planId, receivedAt := t, disposition := .accepted, reasons := [], plan := some p
    intents := p.intents.zipIdx.map fun (intent, index) =>
      { index, intent, outcome := .pending, reasons := [], filledQty := 0 } }

def balancesUnread : String := "the venue's balances have not been read in this process"

/- One opening intent of `_mixed_inventory_refusals`. -/
def mixedRefusal (book : VenueBook) (margin : Pair → ℚ) (ordermin : ℚ) (i : ProbeIntent) :
    Option String :=
  if i.leverage = none then
    if tolerance < |margin i.symbol| then
      some ("a spot open on " ++ i.symbol.name ++ " beside a margin position there")
    else none
  else if max ordermin tolerance ≤ book.balances (Pair.spot i.symbol) then
    some ("a margin open on " ++ i.symbol.name ++ " beside spot inventory")
  else none

/- `_mixed_inventory_refusals` -/
def mixedInventoryRefusals (p : ProbePlan) (state : VenueState) : M (List String) := do
  let s ← get
  let opens := p.intents.filter fun i => i.action = .opening
  if opens = [] then pure []
  else match s.drafting.venueBook with
  | none => pure (opens.map fun _ => balancesUnread)
  | some book => do
    let read ← ask Env.venuePositions
    match read with
    | none => pure (opens.map fun _ => "the venue's margin positions could not be read")
    | some margin => do
      let found ← collect opens fun i => do
        let c ← orRaise (state.instruments i.symbol)
        pure (mixedRefusal book margin c.ordermin i)
      pure (found.filterMap id)

inductive Accepted where
  | accepted | waiting | refused
  deriving DecidableEq, Repr

/- A refusal is journaled and its file deleted, or the next tick re-reads it forever. -/
def refusePlan (p : ProbePlan) (b t : Int) (v : GateVerdict) (fromFile : Bool)
    (reasons : List String) : M Accepted := do
  let stored ← journalPlan b v t (refusedEntry p t reasons)
  when (stored ∧ fromFile) deletePlanFile
  pure .refused

/- The accepted plan set running. A cycle plan's window close stands from its draft. -/
def startPlan (p : ProbePlan) (b t : Int) (fromFile : Bool) : M Unit := modify fun s => { s with
  run.plan := some p
  run.planCycleTs := some b
  run.planWindowClose := if fromFile then none else s.run.planWindowClose
  run.index := 0
  run.resolvedNotional := []
  trace := .planAccepted p b t (if fromFile then none else some b) :: s.trace }

/- Journal first, delete second, run third. -/
def journalAndRun (p : ProbePlan) (b t : Int) (v : GateVerdict) (fromFile : Bool) :
    M Accepted := do
  let stored ← journalPlan b v t (acceptedEntry p t)
  if stored then do
    when fromFile deletePlanFile
    startPlan p b t fromFile
    pure .accepted
  else pure .refused

/- The walls of `_accept_plan` that read the ledger and the venue. -/
def planWalls (p : ProbePlan) (t : Int) (state : VenueState) : M (List String) := do
  let ids ← scan (ledgeredPlanIds t)
  let config ← env Env.config
  let reasons := planRefusals p t ids config.maxPlanNotionalEur state.freeZeur
  if config.cacheEnabled ∧ reasons = [] then mixedInventoryRefusals p state else pure reasons

/- `_accept_plan` -/
def acceptPlan (p : ProbePlan) (b t : Int) (fromFile : Bool) : M Accepted := do
  let v ← evaluate t
  let s ← get
  if s.killTripped then refusePlan p b t v fromFile [trippedRefusal]
  else match s.holds.reconciliationRefusal with
  | some refusal => refusePlan p b t v fromFile [refusal]
  | none => do
    let read ← ask Env.venueState
    match read with
    | none => refusePlan p b t v fromFile ["no venue truth"]
    | some state => do
      let enabled ← env fun e => e.config.cacheEnabled
      let free ← (if enabled ∧ p.intents.any (fun i => i.action = .opening) then nothingInFlight
        else pure true)
      if free then do
        let reasons ← planWalls p t state
        if reasons = [] then journalAndRun p b t v fromFile
        else refusePlan p b t v fromFile reasons
      else pure .waiting

/- `_pickup`: a file that will not parse is journaled as the refusal it is. -/
def pickup (t : Int) : M Unit := do
  let s ← get
  forSome s.disk.planFile fun file => do
    let statFails ← ask Env.fileFails
    let readFails ← ask Env.fileFails
    when (statFails = false) (
      match (if readFails then .unparseable "OSError" else file) with
      | .plan p => do
        let _ ← acceptPlan p (boundaryAt t) t true
        pure ()
      | .unparseable error => do
        let v ← evaluate t
        let stored ← journalPlan (boundaryAt t) v t
          { planId := "unparseable", receivedAt := t, disposition := .refused, reasons := [error]
            plan := none, intents := [] }
        when stored deletePlanFile)

end Pickup
