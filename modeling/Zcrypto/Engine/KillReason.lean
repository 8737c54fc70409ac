import Zcrypto.Engine.Runs

/- What the operator reads in the kill file. The latch that spares the first reason is the
   process's own, so a later process that trips writes its reason over it. -/
namespace KillReason
open ProbePlans ExecGate ExecLedger LedgerLaws Effects Effects.Prog Controller Orders
  OrderEvents Sweeps Pickup CyclePlan Timer Footprint

/-- No trip so far was over a kill file that stood already. -/
def FirstTrips (trace : List Effect) : Prop := ∀ found, .latched found ∈ trace → found = none

def firstTrip : Effect → Bool
  | .latched found => found.isNone
  | _ => true

theorem firstTrips_iff (trace : List Effect) : trace.all firstTrip = true ↔ FirstTrips trace := by
  rw [List.all_eq_true]
  constructor
  · intro all found mem
    exact Option.isNone_iff_eq_none.mp (all _ mem)
  · intro first x mem
    cases x with
    | latched found => exact Option.isNone_iff_eq_none.mpr (first found mem)
    | _ => rfl

instance : DecidablePred FirstTrips := fun trace => decidable_of_iff _ (firstTrips_iff trace)

/-- The text stands for as long as every trip is a first one. -/
def Stood (text : String) (s : St) : Prop := FirstTrips s.trace → s.disk.killFile = some text

/-- Some trip was over a kill file, whatever else the process does. -/
def Retripped (s : St) : Prop := ¬FirstTrips s.trace

theorem FirstTrips.older {x : Effect} {trace : List Effect} (h : FirstTrips (x :: trace)) :
    FirstTrips trace := by
  intro found mem
  exact h found (List.mem_cons_of_mem x mem)

theorem Stood.of_retripped {text : String} {s : St} (h : Retripped s) : Stood text s := by
  intro first
  exact absurd first h

theorem Stood.noted {text : String} {s t : St} (h : Stood text s) {x : Effect}
    (trace : t.trace = x :: s.trace) (file : t.disk.killFile = s.disk.killFile) : Stood text t := by
  intro first
  rw [trace] at first
  rw [file]
  exact h first.older

theorem Retripped.noted {s t : St} (h : Retripped s) {x : Effect} (trace : t.trace = x :: s.trace) :
    Retripped t := by
  intro first
  rw [trace] at first
  exact h first.older

theorem retripped_routine (text : String) : Routine Retripped (Stood text) where
  ask := fun _ h => h
  dies := fun _ h => Stood.of_retripped h
  blind := by
    intro s t same h
    rwa [Retripped, trace_of_trading same]
  watched := fun _ _ _ h => h.noted rfl
  note := fun _ _ _ h => h.noted rfl
  file := fun _ _ _ h => h
  run := fun _ _ _ h => h
  latch := fun _ h => h.noted rfl

theorem retripped_submits (e : Env) (text : String) : Submits e Retripped (Stood text) :=
  (retripped_routine text).submits (fun _ _ h => h.noted rfl) (fun _ _ h => h.noted rfl)

theorem stood_moving (text : String) : Moving (Stood text) (Stood text) where
  ask := fun _ h => h
  dies := fun _ h => h
  aside := by
    intro s t same h
    rw [Stood, trace_of_trading same.trading, killFile_of_guards same.guards]
    exact h
  note := fun _ _ _ h => h.noted rfl rfl
  file := fun _ _ _ h => h
  run := fun _ _ _ h => h

theorem stood_socketFree (text : String) : SocketFree (Stood text) where
  sockets := fun _ _ h => h
  watched := fun _ _ _ h => h.noted rfl rfl

theorem stood_markFree (text : String) : MarkFree (Stood text) where
  marks := fun _ _ _ _ _ h => h

theorem stood_accepting (text : String) : Accepting (Stood text) (Stood text) where
  toMoving := stood_moving text
  cleared := fun _ h => h
  edited := fun _ _ _ h => h
  accepted := fun _ _ _ _ _ _ _ h => h.noted rfl rfl
  armed := fun _ _ h => h

theorem stood_submits (e : Env) (text : String) : Submits e (Stood text) (Stood text) :=
  (stood_moving text).submits (fun _ _ h => h.noted rfl rfl) (fun _ _ h => h.noted rfl rfl)

/-- A latch over the text that stands is a trip over a kill file. -/
theorem retripped_of_latch {text : String} {s : St} (h : Stood text s) :
    Retripped { s with killTripped := true, trace := .latched s.disk.killFile :: s.trace } := by
  intro first
  have absent : s.disk.killFile = none := first _ List.mem_cons_self
  rw [h first.older] at absent
  cases absent

section
variable {e : Env} (text : String)

/-- A trip leaves the text, or it was over it. -/
theorem stood_kills (n : Nat) : Kills e (Stood text) (Stood text) (reenter n) := by
  have retripped := retripped_routine text
  have hd := retripped.keeps_reenter (e := e) (retripped_submits e text) n
  exact retripped.kills_of_latched hd (fun s h => retripped_of_latch h)
    (fun s h => Stood.of_retripped h)

theorem stood_delivery (n : Nat) (x : Delivery) :
    Leaves e (Stood text) (Stood text) (reenter n x) :=
  (stood_moving text).keeps_nested (fun n _ => stood_kills text n) (stood_submits e text) n x

theorem stood_react {x : Input} (process : x.needsProcess = true) :
    Leaves e (Stood text) (Stood text) (react x) := by
  have moving := stood_moving text
  have sockets := stood_socketFree text
  have marks := stood_markFree text
  have accepting := stood_accepting text
  have hd := stood_delivery (e := e) text e.depth
  have kills := stood_kills (e := e) text e.depth
  have submits := stood_submits e text
  refine moving.keeps_react hd kills submits (moving.keeps_onTimer hd kills submits
    (fun _ _ _ h => h.noted rfl rfl) (fun t => ?_) (accepting.keeps_takePlan marks kills))
    (moving.keeps_onSocketState sockets) (fun b _ => ?_) process
  · exact moving.keeps_passes kills hd (moving.keeps_deriveOnce marks t) (moving.keeps_liftFreeze sockets)
      (moving.keeps_freeze sockets hd) (moving.keeps_rereadPass kills sockets t)
  · exact accepting.keeps_onBoundary marks kills (accepting.keeps_armCycleDraft marks accepting.armed b)

theorem stood_start {s : St} (h : Stood text s) :
    wp e start (Post.leaving (Stood text) (Stood text)) s :=
  (stood_moving text).starts_fresh (h.noted rfl rfl)

/-- Every input but the operator's own hand on the kill file. -/
theorem stood_taken {x : Input} (other : ∀ text, x ≠ .setKillFile text) :
    Taken e (Stood text) (Stood text) x where
  live := by
    by_cases process : x.needsProcess = true
    · exact stood_react text process
    · cases x with
      | start => exact fun s h => stood_start text h
      | dropFile f => exact keeps_modify fun _ h => h
      | setKillFile text => exact absurd rfl (other text)
      | clearSeriesStart => exact keeps_modify fun _ h => h
      | _ => exact absurd rfl process
  starts := fun _ _ h => stood_start text h
  operated := by
    intro idle started s h
    cases x with
    | start => exact absurd rfl started
    | dropFile f => exact h
    | setKillFile text => exact absurd rfl (other text)
    | clearSeriesStart => exact h
    | _ => cases idle

end

/-- The first reason survives every run in which no process trips over a kill file that stands:
    once the file is there, whatever comes after and whichever process takes it, the file
    reads the same. Nothing but the operator's own hand is left out of what comes after. -/
theorem first_reason_survives (e : Env) (disk : Disk) (unset : ActiveIntent) (mem : Nat → Row)
    (before after : List Input) (engine : ∀ text, .setKillFile text ∉ after)
    (first : FirstTrips (steps e (idle disk unset mem) (before ++ after)).st.trace) (text : String)
    (found : (steps e (idle disk unset mem) before).st.disk.killFile = some text) :
    (steps e (idle disk unset mem) (before ++ after)).st.disk.killFile = some text := by
  have split : steps e (idle disk unset mem) (before ++ after) =
      steps e (steps e (idle disk unset mem) before) after := by
    simp [steps]
  have stood : Stood text (steps e (idle disk unset mem) before).st := fun _ => found
  have taken : ∀ x ∈ after, Taken e (Stood text) (Stood text) x := by
    intro x mem
    refine stood_taken text fun text same => ?_
    subst same
    exact engine text mem
  rw [split] at first ⊢
  exact (stands_steps _ after taken ⟨fun _ => stood, fun _ => stood⟩).always first

/- A fill of an order no row of this process is of. -/
def strayFill : OrderEvent :=
  { name := .orderFilled, clientOrderId := "stray", symbol := .btcEur, lastQty := 1, lastPx := 10 }

def tripping : List Input := [.start, .order strayFill]

abbrev host : Node := idle (plainDisk fun _ => none) blankIntent fun _ => blankRow

def recorded (asks : Int) : String :=
  killText asks "a fill arrived for order stray, for which this engine holds no open order record"

section
attribute [local irreducible] steps

/-- A trip, and the next process over the file it left. -/
theorem first_reason_survives_restart :
    (steps plain host (tripping ++ [.start, .timer])).st.disk.killFile = some (recorded 1000) :=
  first_reason_survives plain (plainDisk fun _ => none) blankIntent (fun _ => blankRow) tripping
    [.start, .timer] (by simp) (by decide +kernel) (recorded 1000) (by decide +kernel)

/-- The next process meets a divergence of its own, and its reason takes the first one's place. -/
theorem first_reason_overwritten :
    (steps plain host tripping).st.disk.killFile = some (recorded 1000) ∧
    (steps plain host (tripping ++ tripping)).st.disk.killFile = some (recorded 7000) ∧
    recorded 7000 ≠ recorded 1000 := by
  decide +kernel

end
end KillReason
