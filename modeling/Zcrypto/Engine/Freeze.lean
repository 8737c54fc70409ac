import Zcrypto.Engine.Runs
import Mathlib.Order.ConditionallyCompleteLattice.Basic
import Mathlib.Data.Int.ConditionallyCompleteOrder

/- The socket watchdog's freeze, read off the trace: what is sent under it, and what it is
   lifted on. -/
namespace Freeze
open ProbePlans ExecGate ExecLedger LedgerLaws Effects Effects.Prog Controller Orders
  OrderEvents Sweeps Pickup CyclePlan Timer Footprint

/-- Whether the process the trace ends in is frozen. -/
def frozenIn : List Effect → Bool
  | [] => false
  | .started :: _ | .lifted _ :: _ => false
  | .froze :: _ => true
  | _ :: older => frozenIn older

/-- The last time in this process that no endpoint was down any more: the answers taken by
    then, and the moment noted. -/
def lastEmptied : List Effect → Option (Nat × Int)
  | [] | .started :: _ => none
  | .emptied asks at_ :: _ => some (asks, at_)
  | _ :: older => lastEmptied older

structure Pass where
  began : Nat
  ended : Nat
  completedAt : Int
  deriving DecidableEq, Repr

/-- The last re-read pass of this process that settled. -/
def lastPass : List Effect → Option Pass
  | [] | .started :: _ => none
  | .reread began ended completedAt :: _ => some ⟨began, ended, completedAt⟩
  | _ :: older => lastPass older

/-- Whether a sweep of this process marked the row, its reading at the lift. -/
def marked (x : Lift) (row : Row) : Bool :=
  x.startup.marked.contains (row.clientOrderId, markWhat row
    (row.venueOrderId.orElse fun _ => (x.startup.restored.lookup row.clientOrderId).join))

/-- The disarmed engine's lift: the pass is owed, and every open row of the records from the day
    before the freeze through today is marked. -/
structure Disarmed (e : Env) (x : Lift) : Prop where
  owed : x.sockets.rereadOwed = true
  disarmed : x.gateArmed = false
  accounted : ∃ n, ∀ b, ∀ row ∈ x.ledger.rows b, row.state.isOpen = true →
    dayOf (min (x.sockets.frozenAt.getD (e.clock n)) (e.clock n)) - 1 ≤ dayOfBoundary b →
    dayOfBoundary b ≤ dayOf (e.clock n) → marked x row = true

/-- The lift on a pass: one settled, stamped no earlier than the last time the set emptied; and
    begun no earlier, where no two readings of the clock are one. -/
def Reread (e : Env) (older : List Effect) : Prop :=
  ∃ n at_ pass, lastEmptied older = some (n, at_) ∧ lastPass older = some pass ∧
    at_ ≤ pass.completedAt ∧ (StrictMono e.clock → n ≤ pass.began)

structure LiftedSafely (e : Env) (x : Lift) (older : List Effect) : Prop where
  up : x.sockets.socketsDown = []
  account : Disarmed e x ∨ Reread e older

/-- Every order was sent unfrozen, and every lift of the freeze was safe. -/
def FreezeSafe (e : Env) : List Effect → Prop
  | [] => True
  | .sent _ :: older => frozenIn older = false ∧ FreezeSafe e older
  | .lifted x :: older => LiftedSafely e x older ∧ FreezeSafe e older
  | _ :: older => FreezeSafe e older

-- what stands at every moment

/-- The stamps are the clock's own, and no pass straddles the moment the set emptied. -/
structure Ordered (e : Env) (asks : Nat) (emptied : Option (Nat × Int)) (pass : Option Pass) :
    Prop where
  stamped : ∀ n at_, emptied = some (n, at_) → 0 < n ∧ n ≤ asks ∧ at_ = e.clock (n - 1)
  settled : ∀ p, pass = some p → 0 < p.ended ∧ p.ended ≤ asks ∧ p.completedAt = e.clock (p.ended - 1)
  apart : ∀ n at_ p, emptied = some (n, at_) → pass = some p → n ≤ p.began ∨ p.ended < n

/-- The sockets' guards are what the trace says of them. Inside a pass nothing has emptied since
    it began. -/
structure Consistent (e : Env) (began : Option Nat) (trace : List Effect) (asks : Nat)
    (frozen : Bool) (emptiedAt completedAt : Option Int) : Prop where
  safe : FreezeSafe e trace
  isFrozen : frozen = frozenIn trace
  isEmptied : emptiedAt = (lastEmptied trace).map Prod.snd
  isCompleted : completedAt = (lastPass trace).map Pass.completedAt
  ordered : Ordered e asks (lastEmptied trace) (lastPass trace)
  since : ∀ m, began = some m → m ≤ asks ∧ ∀ n at_, lastEmptied trace = some (n, at_) → n ≤ m

def Watched (e : Env) (began : Option Nat) (s : St) : Prop :=
  Consistent e began s.trace s.asks s.sockets.frozen s.sockets.socketsEmptiedAt
    s.sockets.rereadCompletedAt

section
variable {e : Env} {began : Option Nat} {s : St}

theorem Ordered.later {asks later : Nat} {emptied : Option (Nat × Int)} {pass : Option Pass}
    (h : Ordered e asks emptied pass) (le : asks ≤ later) : Ordered e later emptied pass where
  stamped := by
    intro n at_ held
    obtain ⟨pos, below, stamp⟩ := h.stamped n at_ held
    exact ⟨pos, below.trans le, stamp⟩
  settled := by
    intro p held
    obtain ⟨pos, below, stamp⟩ := h.settled p held
    exact ⟨pos, below.trans le, stamp⟩
  apart := h.apart

theorem Watched.asked (h : Watched e began s) : Watched e began { s with asks := s.asks + 1 } :=
  { h with
    ordered := h.ordered.later (Nat.le_succ _)
    since := fun m inside => ⟨(h.since m inside).1.trans (Nat.le_succ _), (h.since m inside).2⟩ }

theorem Watched.outside (h : Watched e began s) : Watched e none s :=
  { h with since := by simp }

/-- An effect that is neither a send nor the watch's own. -/
def isQuiet : Effect → Bool
  | .started | .sent _ | .froze | .lifted _ | .emptied .. | .reread .. => false
  | _ => true

theorem quiet_trace {x : Effect} (quiet : isQuiet x = true) (trace : List Effect) :
    frozenIn (x :: trace) = frozenIn trace ∧ lastEmptied (x :: trace) = lastEmptied trace ∧
      lastPass (x :: trace) = lastPass trace ∧ (FreezeSafe e (x :: trace) ↔ FreezeSafe e trace) := by
  cases x <;> first
    | exact ⟨rfl, rfl, rfl, Iff.rfl⟩
    | cases quiet

theorem Watched.quiet (h : Watched e began s) {x : Effect} (quiet : isQuiet x = true) :
    Watched e began { s with trace := x :: s.trace } := by
  obtain ⟨frozen, emptied, passed, safe⟩ := quiet_trace (e := e) quiet s.trace
  constructor
  · exact safe.mpr h.safe
  · exact h.isFrozen.trans frozen.symm
  · rw [emptied]
    exact h.isEmptied
  · rw [passed]
    exact h.isCompleted
  · rw [emptied, passed]
    exact h.ordered
  · rw [emptied]
    exact h.since

theorem Watched.sends (h : Watched e began s) (unfrozen : s.sockets.frozen = false) (x : Submission) :
    Watched e began { s with trace := .sent x :: s.trace } :=
  { h with safe := ⟨h.isFrozen ▸ unfrozen, h.safe⟩ }

theorem isQuiet_of_note {x : Effect} (plain : isNote x = true) : isQuiet x = true := by
  cases x <;> first | rfl | cases plain

end

theorem watched_latching (e : Env) (began : Option Nat) :
    Latching (Watched e began) (Watched e none) where
  ask := fun _ h => h.asked
  dies := fun _ h => h.asked.outside
  aside := by
    intro s t same h
    unfold Watched
    rw [trace_of_trading same.trading, asks_of_trading same.trading, frozen_of_guards same.guards,
      socketsEmptiedAt_of_guards same.guards, rereadCompletedAt_of_guards same.guards]
    exact h
  note := fun _ _ plain h => h.quiet (isQuiet_of_note plain)
  file := fun _ _ _ h => h
  run := fun _ _ _ h => h
  latch := fun _ h => h.quiet rfl
  killFile := fun _ _ h => h

theorem watched_markFree (e : Env) (began : Option Nat) : MarkFree (Watched e began) where
  marks := fun _ _ _ _ _ h => h

/-- The verdict that permits an order found no freeze. -/
theorem watched_submits (e : Env) (began : Option Nat) :
    Submits e (Watched e began) (Watched e none) := by
  have watched := watched_latching e began
  have calm : Background (fun s => Watched e began s ∧ s.sockets.frozen = false) (Watched e none) :=
    { ask := fun s h => ⟨watched.ask s h.1, h.2⟩
      dies := fun s h => watched.dies s h.1
      aside := fun s t same h =>
        ⟨watched.aside s t same h.1, (frozen_of_guards same.guards).trans h.2⟩
      note := fun s x plain h => ⟨watched.note s x plain h.1, h.2⟩
      file := fun s l filed h => ⟨watched.file s l filed h.1, h.2⟩ }
  refine watched.submits_from (j := fun _ s => Watched e began s ∧ s.sockets.frozen = false)
    (fun _ => calm) ?_ ?_ ?_ ?_ ?_
  · intro s p _ unfrozen _ h
    exact ⟨h, unfrozen⟩
  · intro p s h
    exact h.1
  · intro p s a h
    exact h
  · intro p s x _ h
    exact h.1.sends h.2 x
  · intro s c h
    exact h.quiet rfl

-- the steps that move the sockets

section
variable {e : Env}

theorem keeps_settled (m : Nat) :
    Leaves e (Watched e (some m)) (Watched e none) (settled m) := by
  intro s h
  simp only [settled, wp_bind, wp_now, wp_modify]
  split
  · exact h.asked.outside
  · have next := h.asked
    obtain ⟨-, before⟩ := h.since m rfl
    constructor
    · exact next.safe
    · exact next.isFrozen
    · exact next.isEmptied
    · rfl
    · refine ⟨next.ordered.stamped, ?_, ?_⟩
      · intro p same
        cases same
        exact ⟨Nat.succ_pos _, le_rfl, rfl⟩
      · intro n at_ p emptied same
        cases same
        exact .inl (before n at_ emptied)
    · exact next.since

/-- Nothing empties inside a pass, so a settled one began after the set last emptied. -/
theorem keeps_rereadPass {deliver : Delivery → M Unit}
    (hd : ∀ began x, Leaves e (Watched e began) (Watched e none) (deliver x)) (t : Int) :
    Leaves e (Watched e none) (Watched e none) (rereadPass deliver t) := by
  intro s h
  have watched := watched_latching e (some s.asks)
  have kills := watched.keeps_tripKill (hd (some s.asks))
  have inside : Watched e (some s.asks) s := by
    refine { h with since := ?_ }
    intro m same
    cases same
    exact ⟨le_rfl, fun n at_ emptied => (h.ordered.stamped n at_ emptied).2.1⟩
  simp only [rereadPass, wp_bind, wp_gets]
  exact (watched.keeps_rereadFrom kills (keeps_settled s.asks) t).elim inside
    (fun _ _ left => left.outside) (fun _ left => left.outside) (fun _ left => left)

/-- A lift that waits on no row read a ledger whose open rows of the window are all marked. -/
theorem strandedRows_leads {s : St} (h : Watched e none s) :
    wp e strandedRows ⟨fun stranded t => (∃ asks, t = { s with asks } ∧ Watched e none t) ∧
      (stranded = false → ∃ n rows, openSubmittedRows (e.clock n) s.sockets.frozenAt s.disk.ledger =
        some rows ∧ ∀ r ∈ rows, St.markedHere s r.2 = true),
      Watched e none, Watched e none⟩ s := by
  have first := h.asked
  have second := first.asked
  simp only [strandedRows, tryScan, scan, wp_bind, wp_get, wp_now, wp_attempt, wp_ask, wp_ite, wp_raise,
    wp_orRaise, wp_pure]
  split
  · exact first
  · split
    · exact second
    · split
      · exact ⟨⟨_, rfl, second⟩, fun no => by cases no⟩
      · refine ⟨fun rows read => ⟨⟨_, rfl, second⟩, fun none => ⟨_, rows, read, ?_⟩⟩,
          fun _ => ⟨⟨_, rfl, second⟩, fun no => by cases no⟩⟩
        intro r mem
        simpa using List.any_eq_false.mp none r mem

theorem Watched.lifts {s : St} (h : Watched e none s)
    (safe : LiftedSafely e ⟨s.sockets, s.holds.gateArmed, s.startup, s.disk.ledger⟩ s.trace) :
    wp e lift (Post.leaving (Watched e none) (Watched e none)) s := by
  rw [lift, wp_modify]
  exact
    { safe := ⟨safe, h.safe⟩
      isFrozen := rfl
      isEmptied := h.isEmptied
      isCompleted := h.isCompleted
      ordered := h.ordered
      since := h.since }

theorem keeps_liftFreeze : Leaves e (Watched e none) (Watched e none) liftFreeze := by
  intro s h
  simp only [liftFreeze, wp_bind, wp_get, wp_when, wp_forSome, wp_ite]
  split
  · rename_i frozen
    refine ⟨fun at_ emptied => ?_, fun _ => h⟩
    split
    · rename_i owed
      refine wp_mono (strandedRows_leads h) ?_ (fun _ left => left) (fun _ left => left)
      rintro stranded t ⟨⟨asks, rfl, kept⟩, accounted⟩
      show if stranded = false then _ else _
      split
      · obtain ⟨n, rows, read, marks⟩ := accounted ‹_›
        refine kept.lifts ⟨frozen.2, .inl ⟨owed.1, owed.2, n, ?_⟩⟩
        intro b row held isOpen lower upper
        exact marks _ (mem_openSubmittedRows read held isOpen lower upper)
      · exact kept
    · refine ⟨fun done completed => ?_, fun _ => h⟩
      split
      · rename_i late
        refine h.lifts ⟨frozen.2, .inr ?_⟩
        obtain ⟨⟨n, _⟩, last, rfl⟩ := Option.map_eq_some_iff.mp (h.isEmptied.symm.trans emptied)
        obtain ⟨pass, settled, rfl⟩ := Option.map_eq_some_iff.mp (h.isCompleted.symm.trans completed)
        refine ⟨n, _, pass, last, settled, late, fun strict => ?_⟩
        obtain ⟨pos, -, stamp⟩ := h.ordered.stamped _ _ last
        obtain ⟨pos', -, stamp'⟩ := h.ordered.settled _ settled
        have order : n - 1 ≤ pass.ended - 1 := by
          refine strict.le_iff_le.mp ?_
          rw [← stamp, ← stamp']
          exact late
        rcases h.ordered.apart _ _ _ last settled with began | straddles
        · exact began
        · omega
      · exact h
  · exact h

/-- The set that empties does so after every answer taken so far. -/
theorem keeps_onSocketState (endpoint : String) (connected : Bool) :
    Leaves e (Watched e none) (Watched e none) (onSocketState endpoint connected) := by
  have watched := watched_latching e none
  have moved {f : St → St} (same : ∀ s, Watched e none s → Watched e none (f s)) :
      Leaves e (Watched e none) (Watched e none) (modify f) := keeps_modify same
  have empties : Leaves e (Watched e none) (Watched e none) (do
      let t ← now
      modify fun s => { s with
        sockets.socketsEmptiedAt := some t, trace := .emptied s.asks t :: s.trace }) := by
    intro s h
    simp only [wp_bind, wp_now, wp_modify]
    have next := h.asked
    split
    · exact next
    · constructor
      · exact next.safe
      · exact next.isFrozen
      · rfl
      · exact next.isCompleted
      · refine ⟨?_, next.ordered.settled, ?_⟩
        · intro n at_ same
          cases same
          exact ⟨Nat.succ_pos _, le_rfl, rfl⟩
        · intro n at_ p same passed
          cases same
          exact .inr (Nat.lt_succ_of_le (h.ordered.settled p passed).2.1)
      · simp
  refine keeps_bind keeps_get fun s => keeps_ite (fun _ => keeps_when ?_) (fun _ => ?_)
  · exact keeps_bind (moved fun _ h => h) fun _ => keeps_bind keeps_get fun _ =>
      keeps_bind (keeps_when empties) fun _ => keeps_bind (moved fun _ h => h) fun _ =>
      keeps_when keeps_liftFreeze
  · exact keeps_bind watched.keeps_now fun _ => keeps_bind (moved fun _ h => h) fun _ =>
      keeps_bind keeps_get fun _ => keeps_when (moved fun _ h => h)

theorem keeps_freeze {deliver : Delivery → M Unit}
    (hd : ∀ x, Leaves e (Watched e none) (Watched e none) (deliver x)) :
    Leaves e (Watched e none) (Watched e none) (freeze deliver) := by
  have watched := watched_latching e none
  have freezing (t : Int) : Leaves e (Watched e none) (Watched e none) (modify fun s : St => { s with
      sockets.frozen := true, sockets.frozenAt := some t, trace := .froze :: s.trace }) := by
    refine keeps_modify fun s h => ?_
    exact { h with isFrozen := rfl }
  exact keeps_bind watched.keeps_now fun t => keeps_bind keeps_get fun _ =>
    keeps_bind (freezing t) fun _ => keeps_bind (watched.keeps_cancelResting hd (watched.keeps_setCtx _) _)
    fun _ => keeps_bind (keeps_gets _) fun _ => keeps_when (keeps_bind (watched.keeps_setCtx _)
    fun _ => watched.keeps_enter _)

-- the run

theorem watched_accepting (e : Env) : Accepting (Watched e none) (Watched e none) where
  toMoving := (watched_latching e none).toMoving
  cleared := fun _ h => h
  edited := fun _ _ _ h => h
  accepted := fun _ _ _ _ _ _ _ h => h.quiet rfl
  armed := fun _ _ h => h

theorem watched_delivery (began : Option Nat) (n : Nat) (x : Delivery) :
    Leaves e (Watched e began) (Watched e none) (reenter n x) :=
  (watched_latching e began).keeps_reenter (watched_submits e began) n x

theorem watched_react {x : Input} (process : x.needsProcess = true) :
    Leaves e (Watched e none) (Watched e none) (react x) := by
  have watched := watched_latching e none
  have accepting := watched_accepting e
  have marks := watched_markFree e none
  have hd (began : Option Nat) (x : Delivery) := watched_delivery (e := e) began e.depth x
  have kills := watched.keeps_tripKill (hd none)
  have submits := watched_submits e none
  refine watched.keeps_react (hd none) kills submits (watched.keeps_onTimer (hd none) kills submits
    (fun _ _ _ h => h.quiet rfl) (fun t => ?_) (accepting.keeps_takePlan marks kills))
    keeps_onSocketState (fun b _ => ?_) process
  · exact watched.keeps_passes kills (hd none) (watched.keeps_deriveOnce marks t) keeps_liftFreeze
      (keeps_freeze (hd none)) (keeps_rereadPass hd t)
  · exact accepting.keeps_onBoundary marks kills (accepting.keeps_armCycleDraft marks accepting.armed b)

theorem watched_start {s : St} (h : Watched e none s) :
    wp e start (Post.leaving (Watched e none) (Watched e none)) s := by
  refine (watched_latching e none).starts_fresh ?_
  exact
    { safe := h.safe
      isFrozen := rfl
      isEmptied := rfl
      isCompleted := rfl
      ordered := ⟨by simp [fresh, lastEmptied], by simp [fresh, lastPass], by simp [fresh, lastEmptied]⟩
      since := by simp }

theorem watched_taken (x : Input) : Taken e (Watched e none) (Watched e none) x where
  live := by
    by_cases process : x.needsProcess = true
    · exact watched_react process
    · cases x with
      | start => exact fun s h => watched_start h
      | dropFile f => exact keeps_modify fun _ h => h
      | setKillFile text => exact keeps_modify fun _ h => h
      | clearSeriesStart => exact keeps_modify fun _ h => h
      | _ => exact absurd rfl process
  starts := fun _ _ h => watched_start h
  operated := by
    intro idle started s h
    cases x with
    | start => exact absurd rfl started
    | dropFile f => exact h
    | setKillFile text => exact h
    | clearSeriesStart => exact h
    | _ => cases idle

end

/- A disarmed engine on a slow clock, whose ledger holds an open row three days old. -/
def disarmed : Env := { plain with
  config := { plain.config with armedInConfig := false }
  clock := fun n => n * 40 * second }

def staleRow : Row := { blankRow with clientOrderId := "stale", state := .ambiguous }

def staleLedger : Ledger :=
  store (fun _ => none) (-72)
    { evaluatedAt := 0, verdict := ExecGate.evaluate true false ⟨true, false, false, true, true⟩
      submitted := [staleRow], plans := [] }

/- A cut of one socket, held past the grace, and its return. -/
def cut : List Input :=
  [.start, .timer, .socket "data" false, .timer, .socket "data" true]

def lifts (trace : List Effect) : List Lift :=
  trace.filterMap fun x => match x with | .lifted x => some x | _ => none

end Freeze
