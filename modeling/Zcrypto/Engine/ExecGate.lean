import Zcrypto.Engine.ProbePlan

/- The execution gate: one predicate over the control files, the config flag, the
   venue's status and the adapter version, read afresh at every evaluation. -/
namespace ExecGate
open ProbePlans

inductive GateLevel where
  | none | reduceOnly | full
  deriving DecidableEq, Repr

/- What one evaluation reads. A file read is its `_present` answer, so a doubt is
   already resolved in the direction that refuses. -/
structure GateReading where
  armFile : Bool
  killDoubt : Bool
  restartHold : Bool
  venueOk : Bool
  nautilusVerified : Bool
  deriving DecidableEq, Repr

structure GateInputs where
  armedInConfig : Bool
  armFile : Bool
  killFile : Bool
  restartHold : Bool
  venueOk : Bool
  nautilusVerified : Bool
  socketDown : Bool
  reconciliationUnread : Bool
  dailyLossHold : Bool
  deriving DecidableEq, Repr

structure GateVerdict where
  level : GateLevel
  reasons : List String
  inputs : GateInputs
  deriving DecidableEq, Repr

def GateVerdict.armed (v : GateVerdict) : Bool := v.inputs.armedInConfig && v.inputs.armFile

/- One condition of the fold: its reason is appended whatever the level already is. -/
def restrict (holds : Bool) (reason : String) (cap : GateLevel) :
    GateLevel × List String → GateLevel × List String
  | (level, reasons) =>
    if holds then
      (if cap = .none ∨ level = .none then .none else cap, reasons ++ [reason])
    else (level, reasons)

def evaluate (armedInConfig killFile : Bool) (r : GateReading) : GateVerdict :=
  let kill := killFile || r.killDoubt
  let folded := (GateLevel.full, [])
    |> restrict kill "kill_switch" .none
    |> restrict (!armedInConfig) "config_not_armed" .none
    |> restrict (!r.armFile) "arm_file_absent" .none
    |> restrict (!r.venueOk) "venue_not_online" .none
    |> restrict (!r.nautilusVerified) "nautilus_unverified" .none
    |> restrict r.restartHold "restart_hold" .reduceOnly
  { level := folded.1
    reasons := folded.2
    inputs :=
      { armedInConfig := armedInConfig, armFile := r.armFile, killFile := kill
        restartHold := r.restartHold, venueOk := r.venueOk
        nautilusVerified := r.nautilusVerified, socketDown := false
        reconciliationUnread := false, dailyLossHold := false } }

/- `_fold_holds`: the executor's own three holds folded into the gate's verdict. -/
def foldHolds (frozen unread dayLoss : Bool) (v : GateVerdict) : GateVerdict :=
  let folded := (v.level, v.reasons)
    |> restrict frozen "socket_down" .none
    |> restrict unread "reconciliation_unread" .none
    |> restrict dayLoss "daily_loss_hold" .reduceOnly
  { level := folded.1
    reasons := folded.2
    inputs := { v.inputs with
      socketDown := frozen, reconciliationUnread := unread, dailyLossHold := dayLoss } }

/- `_level_permits`: an opening intent needs the full level, a closing one runs at
   reduce-only too. -/
def levelPermits (level : GateLevel) (i : ProbeIntent) : Bool :=
  match i.action with
  | .closing => level = .reduceOnly || level = .full
  | .opening => level = .full

theorem restrict_none (holds : Bool) (reason : String) (cap : GateLevel)
    (x : GateLevel × List String) (h : x.1 = .none) : (restrict holds reason cap x).1 = .none := by
  cases holds <;> simp [restrict, h]

theorem restrict_holds (reason : String) (x : GateLevel × List String) :
    (restrict true reason .none x).1 = .none := by
  simp [restrict]

theorem foldHolds_frozen (unread dayLoss : Bool) (v : GateVerdict) :
    (foldHolds true unread dayLoss v).level = .none :=
  restrict_none _ _ _ _ (restrict_none _ _ _ _ (restrict_holds _ _))

theorem foldHolds_unread (frozen dayLoss : Bool) (v : GateVerdict) :
    (foldHolds frozen true dayLoss v).level = .none :=
  restrict_none _ _ _ _ (restrict_holds _ _)

theorem levelPermits_none (i : ProbeIntent) : levelPermits .none i = false := by
  cases h : i.action <;> simp [levelPermits, h]

/- What a permitted verdict says of the holds it was folded with. -/
theorem permits_unheld {frozen unread dayLoss : Bool} {v : GateVerdict} {i : ProbeIntent}
    (h : levelPermits (foldHolds frozen unread dayLoss v).level i = true) :
    frozen = false ∧ unread = false := by
  constructor
  · cases frozen with
    | false => rfl
    | true => simp [foldHolds_frozen, levelPermits_none] at h
  · cases unread with
    | false => rfl
    | true => simp [foldHolds_unread, levelPermits_none] at h

end ExecGate
