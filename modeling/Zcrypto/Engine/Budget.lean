import Zcrypto.Engine.Runs

/- How many orders one intent may send. The counters of the intent in flight pay for each
   order before it is sent, and a phase that waits for a quote holds one paid and not yet
   sent. What the adapter delivers from inside a submit pays for itself, so only the order
   that was interrupted is owed nothing any more. -/
namespace Budget
open ProbePlans ExecGate ExecLedger LedgerLaws Effects Effects.Prog Controller Orders
  OrderEvents Sweeps Pickup CyclePlan Timer Footprint

/- The orders sent for an intent since its plan was taken up. -/
def spent (index : Nat) : List Effect → Nat
  | [] => 0
  | .planAccepted .. :: _ => 0
  | .sent x :: older => (if x.row.intentIndex = index then 1 else 0) + spent index older
  | _ :: older => spent index older

def limit : Nat := 1 + maxReprices + maxIocAttempts

/- At no moment of the run had an intent sent more than its limit. -/
def Within (trace : List Effect) : Prop :=
  ∀ older, older <:+ trace → ∀ index, spent index older ≤ limit

theorem within_cons {trace : List Effect} {x : Effect} (h : Within trace)
    (newest : ∀ index, spent index (x :: trace) ≤ limit) : Within (x :: trace) := by
  intro older suffix
  rcases List.suffix_cons_iff.mp suffix with whole | earlier
  · rw [whole]
    exact newest
  · exact h older earlier

theorem within_unspent {trace : List Effect} {x : Effect} (h : Within trace)
    (free : ∀ index, spent index (x :: trace) = spent index trace) : Within (x :: trace) :=
  within_cons h fun index => (free index).trans_le (h trace List.suffix_rfl index)

theorem spent_note {x : Effect} (plain : isNote x = true ∨ isWatch x = true) (trace : List Effect)
    (index : Nat) : spent index (x :: trace) = spent index trace := by
  cases x <;> first
    | rfl
    | simp [isNote, isWatch] at plain

-- the counters of the intent in flight

/- What a phase still has to send of what was paid for. -/
def waiting : Phase → Nat
  | .awaitingQuote | .awaitingReprice => 1
  | _ => 0

/- The orders sent, for each intent of the running plan, against the counters. -/
structure Sparing (owed : Phase → Nat) (r : Running) (n : Nat → Nat) : Prop where
  ahead : r.plan ≠ none → ∀ i, r.index < i → n i = 0
  unstarted : r.plan ≠ none → r.live = false → n r.index = 0
  running : r.live = true → r.plan ≠ none ∧ r.ctx.index = r.index
  paid : r.live = true →
    n r.index + owed r.ctx.phase ≤ 1 + min r.ctx.reprices maxReprices + r.ctx.iocAttempts
  crossed : r.live = true → r.ctx.iocAttempts ≤ maxIocAttempts

/- Two intents of one index and phase, with the same counters. -/
structure SameTally (a b : ActiveIntent) : Prop where
  index : a.index = b.index
  phase : a.phase = b.phase
  reprices : a.reprices = b.reprices
  iocAttempts : a.iocAttempts = b.iocAttempts

section
variable {owed owed' : Phase → Nat} {r : Running} {n : Nat → Nat}

theorem Sparing.stopped (h : Sparing owed r n) (still : r.live = false) : Sparing owed' r n where
  ahead := h.ahead
  unstarted := h.unstarted
  running := fun live => by rw [still] at live; cases live
  paid := fun live => by rw [still] at live; cases live
  crossed := fun live => by rw [still] at live; cases live

theorem Sparing.still (h : Sparing owed r n) (stopped : r.plan = none) : r.live = false := by
  cases live : r.live with
  | false => rfl
  | true => exact absurd stopped (h.running live).1

theorem Sparing.owing (h : Sparing owed r n) (less : owed' r.ctx.phase ≤ owed r.ctx.phase) :
    Sparing owed' r n where
  ahead := h.ahead
  unstarted := h.unstarted
  running := h.running
  paid := fun live => (Nat.add_le_add_left less _).trans (h.paid live)
  crossed := h.crossed

theorem sparing_over (none : r.plan = none) (still : r.live = false) : Sparing owed r n where
  ahead := fun running => absurd none running
  unstarted := fun running => absurd none running
  running := fun live => by rw [still] at live; cases live
  paid := fun live => by rw [still] at live; cases live
  crossed := fun live => by rw [still] at live; cases live

theorem Sparing.tallied (h : Sparing owed r n) {a : ActiveIntent} (same : SameTally a r.ctx) :
    Sparing owed { r with ctx := a } n where
  ahead := h.ahead
  unstarted := h.unstarted
  running := fun live => ⟨(h.running live).1, same.index.trans (h.running live).2⟩
  paid := fun live => by
    rw [same.phase, same.reprices, same.iocAttempts]
    exact h.paid live
  crossed := fun live => by
    rw [same.iocAttempts]
    exact h.crossed live

end

-- the assertions

/- What a run keeps: the limit so far, and of the running plan a relation of its counters to
   what was sent. -/
structure Metered (R : Running → (Nat → Nat) → Prop) (s : St) : Prop where
  within : Within s.trace
  run : R s.run fun index => spent index s.trace

def Ended (s : St) : Prop := Within s.trace

/- Nothing is owed, or only what a waiting phase is. -/
abbrev Loose : St → Prop := Metered (Sparing fun _ => 0)
abbrev Spare : St → Prop := Metered (Sparing waiting)

/- An intent in flight, and one that may send. -/
def Active (owed : Phase → Nat) : St → Prop := Metered fun r n => Sparing owed r n ∧ r.live = true
abbrev Ready : St → Prop := Active fun _ => 1

/- A relation that reads no more of the intent in flight than its tally. -/
def Steady (R : Running → (Nat → Nat) → Prop) : Prop :=
  ∀ r n a, SameTally a r.ctx → R r n → R { r with ctx := a } n

theorem steady_sparing (owed : Phase → Nat) : Steady (Sparing owed) :=
  fun _ _ _ same h => h.tallied same

theorem steady_live (owed : Phase → Nat) (live : Bool) :
    Steady fun r n => Sparing owed r n ∧ r.live = live :=
  fun _ _ _ same h => ⟨h.1.tallied same, h.2⟩

section
variable {R R' : Running → (Nat → Nat) → Prop} {s t : St}

theorem Metered.mono (h : Metered R s) (weaker : ∀ n, R s.run n → R' s.run n) : Metered R' s :=
  ⟨h.within, weaker _ h.run⟩

theorem Metered.moved (h : Metered R s) {r : Running} (moves : ∀ n, R s.run n → R' r n) :
    Metered R' { s with run := r } :=
  ⟨h.within, moves _ h.run⟩

theorem Metered.blind (h : Metered R s) (same : trading t = trading s) : Metered R t where
  within := by
    rw [trace_of_trading same]
    exact h.within
  run := by
    rw [trace_of_trading same, run_of_trading same]
    exact h.run

theorem Metered.unspent (h : Metered R s) {x : Effect}
    (free : ∀ index, spent index (x :: s.trace) = spent index s.trace) :
    Metered R { s with trace := x :: s.trace } where
  within := within_unspent h.within free
  run := by
    have same : (fun index => spent index (x :: s.trace)) = fun index => spent index s.trace :=
      funext free
    rw [same]
    exact h.run

end

theorem metered_background (R : Running → (Nat → Nat) → Prop) : Background (Metered R) Ended where
  ask := fun _ h => ⟨h.within, h.run⟩
  dies := fun _ h => h.within
  aside := fun _ _ same h => h.blind same.trading
  note := fun s _ plain h => h.unspent (spent_note (.inl plain) s.trace)
  file := fun _ _ _ h => ⟨h.within, h.run⟩

theorem metered_blind (R : Running → (Nat → Nat) → Prop) : Blind (Metered R) where
  blind := fun _ _ same h => h.blind same
  watched := fun s _ watch h => h.unspent (spent_note (.inr watch) s.trace)

theorem metered_handling {R : Running → (Nat → Nat) → Prop} (steady : Steady R) :
    Handling (Metered R) Ended where
  toBackground := metered_background R
  credit := fun _ _ _ h => h.moved fun _ => steady _ _ _ ⟨rfl, rfl, rfl, rfl⟩

section
variable {e : Env} {R : Running → (Nat → Nat) → Prop}

theorem keeps_tally (steady : Steady R) {f : ActiveIntent → ActiveIntent}
    (same : ∀ a, SameTally (f a) a) : Leaves e (Metered R) Ended (setCtx f) :=
  keeps_modify fun _ h => h.moved fun _ => steady _ _ _ (same _)

/- With no plan and no intent in flight nothing is left to count. -/
theorem drops_leads {R' : Running → (Nat → Nat) → Prop}
    (ended : ∀ r n, r.plan = none → r.live = false → R' r n)
    (r : St → Prop) : Leads e (Metered R) (Metered R') r Ended dropPlan := by
  refine leads_modify fun s h => ?_
  cases running : s.run.plan with
  | none => exact h.moved fun _ _ => ended _ _ rfl rfl
  | some p =>
    have noted := h.unspent (x := .planEnded p.planId) fun _ => rfl
    exact noted.moved fun _ _ => ended _ _ rfl rfl

theorem keeps_drops (owed : Phase → Nat) : Leaves e (Metered (Sparing owed)) Ended dropPlan :=
  drops_leads (fun _ _ => sparing_over) _

/- A phase that owes what its intent has not sent. -/
theorem enter_leads (owed : Phase → Nat) (phase : Phase) (r : St → Prop) :
    Leads e (Metered (Sparing fun _ => owed phase)) (Metered (Sparing owed)) r Ended (enter phase) := by
  have background := metered_background (Sparing owed)
  have stamping (c : Prop) [Decidable c] {f : Int → ActiveIntent → ActiveIntent}
      (same : ∀ t a, SameTally (f t a) a) :
      Leads e (Metered (Sparing owed)) (Metered (Sparing owed)) r Ended (when c (do
        let t ← now
        setCtx (f t))) :=
    leads_when (fun _ => leads_bind (background.ask_leads _) fun t => leads_modify fun _ h =>
      h.moved fun _ spare => spare.tallied (same t _)) fun _ _ h => h
  refine leads_bind (leads_modify fun s h => h.moved fun n spare => ?_) fun _ =>
    leads_bind (stamping _ fun _ _ => ⟨rfl, rfl, rfl, rfl⟩) fun _ =>
      stamping _ fun _ _ => ⟨rfl, rfl, rfl, rfl⟩
  exact ⟨spare.ahead, spare.unstarted, spare.running, spare.paid, spare.crossed⟩

end

section
variable {owed owed' : Phase → Nat} {s : St}

theorem Metered.owing (h : Metered (Sparing owed) s)
    (less : owed' s.run.ctx.phase ≤ owed s.run.ctx.phase) : Metered (Sparing owed') s :=
  h.mono fun _ spare => spare.owing less

theorem Metered.loose (h : Metered (Sparing owed) s) : Loose s := h.owing (Nat.zero_le _)

theorem Metered.stopped (h : Metered (Sparing owed) s) (still : s.run.live = false) :
    Metered (Sparing owed') s :=
  h.mono fun _ spare => spare.stopped still

theorem Metered.unplanned (h : Metered (Sparing owed) s) (none : s.run.plan = none) :
    Metered (Sparing owed') s :=
  h.mono fun _ spare => spare.stopped (spare.still none)

theorem Active.sparing (h : Active owed s) : Metered (Sparing owed) s := h.mono fun _ => And.left

theorem Active.loose (h : Active owed s) : Loose s := h.sparing.loose

theorem Metered.active (h : Metered (Sparing owed) s) (live : s.run.live = true) : Active owed s :=
  h.mono fun _ spare => ⟨spare, live⟩

end

-- the ends of an intent

section
variable {e : Env} {deliver : Delivery → M Unit}

theorem steady_kills {R : Running → (Nat → Nat) → Prop} (steady : Steady R)
    (ended : ∀ r n, r.plan = none → r.live = false → R r n)
    (hd : ∀ x, Leaves e (Metered R) Ended (deliver x)) : Kills e (Metered R) Ended deliver := by
  intro reason
  refine keeps_get_bind fun s h => ?_
  rw [wp_when]
  split
  · rw [wp_bind, wp_modify]
    have noted := h.unspent (x := .latched s.disk.killFile) fun _ => rfl
    exact (metered_background R).trip_keeps hd (keeps_tally steady fun _ => ⟨rfl, rfl, rfl, rfl⟩)
      (drops_leads ended _) (fun _ _ h => ⟨h.within, h.run⟩) reason s.run.live _
      ⟨noted.within, noted.run⟩
  · exact h

theorem metered_kills {owed : Phase → Nat}
    (hd : ∀ x, Leaves e (Metered (Sparing owed)) Ended (deliver x)) :
    Kills e (Metered (Sparing owed)) Ended deliver :=
  steady_kills (steady_sparing owed) (fun _ _ => sparing_over) hd

/- A plan halted with its rest is over, and so it is where the halt raises. -/
theorem remainder_leads : Leads e Loose Spare Spare Ended dropRemainderAfterAmbiguity := by
  have halting := (metered_background (Sparing fun _ => 0)).haltPlan_leads (e := e) (keeps_drops _)
  refine leads_get_bind fun s h => ?_
  rw [wp_bind, wp_orRaise]
  refine ⟨fun p _ => ?_, fun none => h.unplanned none⟩
  exact (halting _ _).weaken (fun _ h => h) (fun _ h => h.1.unplanned h.2)
    (fun _ h => h.1.unplanned h.2) s h

/- The intent journaled first, and its plan halted. -/
theorem stranded_leads (refusal : ActiveIntent → List String) :
    Leads e Loose Spare Spare Ended (do
      let a ← ctx
      let _ ← journalIntent a.index .ambiguous (refusal a) a.filled
      dropRemainderAfterAmbiguity) := by
  have background := metered_background (Sparing fun _ => 0)
  refine leads_gets_bind fun s h => leads_bind ?_ (fun _ => remainder_leads) s h
  exact (background.journalIntent_leads _ _ _ _).weaken (fun _ h => h) (fun _ h => h)
    fun _ h => h.1.unplanned h.2

section
variable (hs : ∀ x, Leaves e Spare Ended (deliver x))
include hs

theorem finish_leads (outcome : Option IntentOutcome) (reasons : List String) (filledQty : ℚ) :
    Leads e Loose Spare Spare Ended (finishActive deliver outcome reasons filledQty) := by
  have background := metered_background (Sparing fun _ => 0)
  have journaling (o : IntentOutcome) (index : Nat) : Leads e Loose Loose Spare Ended (do
      let _ ← journalIntent index o reasons filledQty
      pure ()) :=
    leads_bind ((background.journalIntent_leads index o reasons filledQty).weaken
      (fun _ h => h) (fun _ h => h) fun _ h => h.1.unplanned h.2) fun _ => fun _ h => h
  have advancing : Leads e Loose Spare Spare Ended (modify fun s => { s with
      run.live := false, run.index := s.run.index + 1 }) :=
    leads_modify fun s h => h.moved fun n loose =>
      { ahead := fun running i past => loose.ahead running i (Nat.lt_of_succ_lt past)
        unstarted := fun running _ => loose.ahead running _ (Nat.lt_succ_self _)
        running := fun live => by cases live
        paid := fun live => by cases live
        crossed := fun live => by cases live }
  have reconciling : Leaves e Spare Ended (reconcileTerminal deliver) := by
    refine keeps_bind (keeps_gets _) fun a =>
      keeps_bind ((metered_background _).keeps_ask _) fun actual => ?_
    cases actual with
    | none => exact metered_kills hs _
    | some q => exact keeps_when (metered_kills hs _)
  refine leads_get_bind fun s h => ?_
  rw [wp_ite]
  split
  · suffices body : Leads e Loose Spare Spare Ended _ from body s h
    refine leads_bind ?_ fun _ => leads_bind (enter_leads (fun _ => 0) .done _) fun _ =>
      leads_bind advancing fun _ => reconciling
    cases outcome with
    | none => exact fun _ h => h
    | some o => exact journaling o _
  · exact h.stopped (Bool.eq_false_iff.mpr ‹_›)

theorem finishRevoked_leads : Leads e Loose Spare Spare Ended (finishRevoked deliver) :=
  leads_gets_bind fun s h => leads_bind (finish_leads hs _ _ _) (fun _ =>
    (metered_background _).keeps_halt (keeps_drops _) _ _) s h

/- A resubmission that raises refuses the intent, if it is still in flight. -/
theorem refusing_leads {i : St → Prop} (reason : String) {m : M Unit}
    (body : Leads e i Spare Loose Ended m) :
    Leads e i Spare Spare Ended (refuseOnRaise deliver reason m) := by
  refine leads_attempt body (leads_get_bind fun s h => ?_)
  rw [wp_when]
  split
  · exact finish_leads hs _ _ _ s h
  · exact h.stopped (Bool.eq_false_iff.mpr ‹_›)

end

-- the chokepoint and the ladder

section
variable (hl : ∀ x, Leaves e Loose Ended (deliver x))
include hl

/- An order is sent where it was paid for. -/
theorem submit_leads (order : OrderId) : Leads e Ready Loose Loose Ended (submit deliver order) := by
  refine (metered_background _).submit_leads hl (r := Ready) (metered_background _)
    (fun _ h => Active.loose h) (j := fun _ index => Metered fun r n =>
      (Sparing (fun _ => 1) r n ∧ r.live = true) ∧ r.ctx.index = index)
    (fun _ _ => metered_background _) (fun s p _ _ _ h => h.mono fun _ ready => ⟨ready, rfl⟩)
    (fun _ _ _ h => (h.mono fun _ ready => ready.1.1).loose)
    (fun _ _ _ _ h => h.moved fun _ ready =>
      ⟨⟨ready.1.1.tallied ⟨rfl, rfl, rfl, rfl⟩, ready.1.2⟩, ready.2⟩)
    (fun p index s x _ own h => ?_) (fun _ _ h => h.unspent fun _ => rfl) order
  obtain ⟨⟨sparing, live⟩, here⟩ := h.run
  obtain ⟨planned, running⟩ := sparing.running live
  have paid := sparing.paid live
  have crossed := sparing.crossed live
  have count (i : Nat) : spent i (.sent x :: s.trace) =
      (if s.run.index = i then 1 else 0) + spent i s.trace := by
    simp only [spent, own, ← here, running]
  have other {i : Nat} (apart : s.run.index ≠ i) :
      spent i (.sent x :: s.trace) = spent i s.trace := by
    rw [count, if_neg apart, Nat.zero_add]
  have due : spent s.run.index (.sent x :: s.trace) ≤
      1 + min s.run.ctx.reprices maxReprices + s.run.ctx.iocAttempts := by
    rw [count, if_pos rfl]
    omega
  refine ⟨within_cons h.within fun i => ?_, ?_⟩
  · by_cases same : s.run.index = i
    · subst same
      calc spent s.run.index (.sent x :: s.trace)
          ≤ 1 + min s.run.ctx.reprices maxReprices + s.run.ctx.iocAttempts := due
        _ ≤ 1 + maxReprices + maxIocAttempts :=
          Nat.add_le_add (Nat.add_le_add_left (Nat.min_le_right _ _) 1) crossed
    · rw [other same]
      exact h.within s.trace List.suffix_rfl i
  · exact
      { ahead := fun _ i past => (other (Nat.ne_of_lt past)).trans (sparing.ahead planned i past)
        unstarted := fun _ still => by rw [live] at still; cases still
        running := fun _ => ⟨planned, running⟩
        paid := fun _ => due
        crossed := fun _ => crossed }

theorem place_leads (targetQty price : ℚ) (immediateOrCancel postOnly : Bool) :
    Leads e Ready Loose Loose Ended
      (place deliver targetQty price immediateOrCancel postOnly) := by
  have ready := metered_background fun r n => Sparing (fun _ => 1) r n ∧ r.live = true
  have looser {α : Type} {m : M α} (body : Leaves e Ready Ended m) : Leads e Ready Ready Loose Ended m :=
    body.leads (fun _ h => h) fun _ h => h.loose
  refine leads_gets_bind fun s h => leads_bind (looser (keeps_orRaise _)) (fun sized => ?_) s h
  cases sized with
  | refused detail => exact fun _ h => Active.loose h
  | belowMinimum detail => exact fun _ h => Active.loose h
  | sized qty px notional =>
    refine leads_bind (looser (ready.keeps_ask _)) fun known =>
      leads_bind (looser (keeps_orRaise _)) fun found =>
      leads_ite (fun _ => ?_) fun _ _ h => Active.loose h
    exact leads_bind (looser (ready.keeps_ask _)) fun minted =>
      leads_bind (looser (keeps_orRaise _)) fun order =>
      leads_bind (looser (keeps_tally (steady_live _ _) fun _ => ⟨rfl, rfl, rfl, rfl⟩)) fun _ =>
      leads_bind (submit_leads hl order) fun _ _ h => h

variable (hs : ∀ x, Leaves e Spare Ended (deliver x))
include hs

omit hl in
theorem finish_loosely (outcome : Option IntentOutcome) (reasons : List String) (filledQty : ℚ) :
    Leads e Loose Spare Loose Ended (finishActive deliver outcome reasons filledQty) :=
  (finish_leads hs _ _ _).weaken (fun _ h => h) (fun _ h => h) fun _ h => h.loose

/- Each order after the first was paid for, and its phase owes nothing. -/
theorem resubmit_leads (price : ℚ) (immediateOrCancel postOnly : Bool) {next : Phase}
    (sent : waiting next = 0) :
    Leads e Ready Spare Loose Ended (resubmit deliver price immediateOrCancel postOnly next) := by
  refine leads_gets_bind fun s h => ?_
  rw [wp_ite]
  split
  · exact finish_loosely hs _ _ _ s h.loose
  · refine leads_bind (place_leads hl _ _ _ _) (fun placed => leads_gets_bind fun u h => ?_) s h
    rcases placed with (_ | _ | _) | _ | _
    · exact enter_leads waiting next _ u (by rw [sent]; exact h)
    · exact finish_loosely hs _ _ _ u h
    · exact remainder_leads.weaken (fun _ h => h) (fun _ h => h) (fun _ h => h.loose) u h
    · exact finish_loosely hs _ _ _ u h
    · exact finish_loosely hs _ _ _ u h

theorem repriceAtTouch_leads : Leads e Ready Spare Loose Ended (repriceAtTouch deliver) := by
  refine leads_gets_bind fun s h => ?_
  cases ActiveIntent.limitPrice s.run.ctx with
  | none => exact finish_loosely hs _ _ _ s h.loose
  | some price => exact resubmit_leads hl hs _ _ _ rfl s h

/- An attempt counted pays for its order. -/
theorem fallback_leads : Leads e (Active fun _ => 0) Spare Loose Ended (fallback deliver) := by
  refine leads_gets_bind fun s h => ?_
  rw [wp_ite]
  split
  · exact finish_loosely hs _ _ _ s h.loose
  · rename_i attempts
    rw [wp_bind, wp_setCtx]
    have ready : Ready { s with
        run.ctx := { s.run.ctx with iocAttempts := s.run.ctx.iocAttempts + 1 } } := by
      refine h.moved fun n active => ⟨?_, active.2⟩
      exact
        { ahead := active.1.ahead
          unstarted := active.1.unstarted
          running := active.1.running
          paid := fun live => Nat.succ_le_succ (active.1.paid live)
          crossed := fun _ => Nat.not_le.mp attempts }
    cases ActiveIntent.oppositeTouch s.run.ctx with
    | none => exact finish_loosely hs _ _ _ _ ready.loose
    | some price => exact resubmit_leads hl hs _ _ _ rfl _ ready

/- A reprice counted within the limit pays for its order, sent at once or on the next quote. -/
theorem reprice_leads : Leads e (Active fun _ => 0) Spare Loose Ended (reprice deliver) := by
  refine leads_gets_bind fun s h => ?_
  rw [wp_ite]
  split
  · refine leads_ite (fun _ => fallback_leads hl hs) (fun _ => ?_) s h
    exact (finishRevoked_leads hs).weaken (fun _ h => Active.loose h) (fun _ h => h) fun _ h => h.loose
  · rw [wp_bind, wp_setCtx]
    dsimp only
    rw [wp_ite]
    have counted (owed : Nat) (within : owed + min s.run.ctx.reprices maxReprices ≤
        min (s.run.ctx.reprices + 1) maxReprices) : Active (fun _ => owed) { s with
          run.ctx := { s.run.ctx with reprices := s.run.ctx.reprices + 1 } } := by
      refine h.moved fun n active => ⟨?_, active.2⟩
      exact
        { ahead := active.1.ahead
          unstarted := active.1.unstarted
          running := active.1.running
          paid := fun live => by
            have paid := active.1.paid live
            show n s.run.index + owed ≤
              1 + min (s.run.ctx.reprices + 1) maxReprices + s.run.ctx.iocAttempts
            omega
          crossed := active.1.crossed }
    split
    · have spentAll := counted 0 (by omega)
      refine leads_ite (fun _ => fallback_leads hl hs) (fun _ => ?_) _ spentAll
      exact (finish_loosely hs _ _ _).weaken (fun _ h => Active.loose h) (fun _ h => h) fun _ h => h
    · have ready : Ready _ := counted 1 (by omega)
      refine leads_ite (fun _ => repriceAtTouch_leads hl hs) (fun _ => ?_) _ ready
      exact leads_bind (leads_modify fun _ h => h.moved fun _ ready =>
        ready.1.tallied ⟨rfl, rfl, rfl, rfl⟩) fun _ => enter_leads waiting .awaitingReprice _

/- The first order is what a waiting intent was armed with. -/
theorem firstSubmission_leads : Leads e Ready Spare Loose Ended (firstSubmission deliver) := by
  have capping (targetQty price : ℚ) :
      Leads e Ready Ready Loose Ended (overCapReason targetQty price) := by
    refine leads_get_bind fun s h => ?_
    cases s.run.ctx.intent.qty with
    | none => exact h
    | some qty =>
      suffices body : Leaves e Ready Ended _ from body.leads (fun _ h => h) (fun _ h => h.loose) s h
      refine keeps_bind (keeps_env _) fun _ => keeps_bind (keeps_orRaise _) fun _ =>
        keeps_ite (fun _ => keeps_pure _) fun _ =>
          keeps_bind (keeps_modify fun _ h => ?_) fun _ => keeps_pure _
      exact h.moved fun _ ready => ⟨⟨ready.1.ahead, ready.1.unstarted, ready.1.running, ready.1.paid,
        ready.1.crossed⟩, ready.2⟩
  refine leads_gets_bind fun s h => ?_
  cases ActiveIntent.limitPrice s.run.ctx with
  | none => exact finish_loosely hs _ _ _ s h.loose
  | some price =>
    refine leads_bind (capping _ _) (fun overCap => ?_) s h
    cases overCap with
    | some reason =>
      exact (finish_loosely hs _ _ _).weaken (fun _ h => Active.loose h) (fun _ h => h) fun _ h => h
    | none =>
      refine leads_bind (place_leads hl _ _ _ _) fun placed => ?_
      rcases placed with (_ | _ | _) | _ | _
      · exact leads_bind (leads_modify fun _ h => h.moved fun _ loose =>
          loose.tallied ⟨rfl, rfl, rfl, rfl⟩) fun _ => enter_leads waiting .resting _
      · exact finish_loosely hs _ _ _
      · exact remainder_leads.weaken (fun _ h => h) (fun _ h => h) fun _ h => h.loose
      · exact finish_loosely hs _ _ _
      · exact finish_loosely hs _ _ _

end

-- the events, from inside a call of the client's or between two inputs

/- An event acts on the intent in flight, and is detached from any other. -/
theorem dispatching {R : Running → (Nat → Nat) → Prop} (steady : Steady R)
    (kills : Kills e (Metered R) Ended deliver) {ev : OrderEvent}
    (acting : ∀ s, Metered R s → s.run.live = true →
      wp e (onActiveEvent deliver ev) (Post.leaving (Metered R) Ended) s) :
    Leaves e (Metered R) Ended (onOrderEvent deliver ev) := by
  have handling := metered_handling steady
  refine keeps_attempt (keeps_bind keeps_get fun _ => keeps_bind (handling.keeps_emit rfl) fun _ =>
    keeps_bind (keeps_ite (fun _ => handling.keeps_tripOnFill kills ev) fun _ => keeps_pure _) fun _ =>
    keeps_when (keeps_get_bind fun s h => ?_)) (keeps_pure ())
  rw [wp_ite]
  split
  · rename_i own
    exact acting s h own.1
  · exact handling.keeps_onDetachedEvent ev s h

section
variable (hl : ∀ x, Leaves e Loose Ended (deliver x)) (hs : ∀ x, Leaves e Spare Ended (deliver x))
  {owed : Phase → Nat} (modest : ∀ phase, owed phase ≤ waiting phase)
  (hd : ∀ x, Leaves e (Metered (Sparing owed)) Ended (deliver x))

include modest in
theorem closing {m : M Unit} (body : Leads e Loose Spare Spare Ended m) :
    Leaves e (Metered (Sparing owed)) Ended m :=
  Leads.weaken body (fun _ h => h.loose) (fun _ h => h.owing (modest _)) fun _ h => h.owing (modest _)

include hs modest in
theorem resubmitting (reason : String) {m : M Unit}
    (body : Leads e (Active fun _ => 0) Spare Loose Ended m) :
    Leads e (Active owed) (Metered (Sparing owed)) (Metered (Sparing owed)) Ended
      (refuseOnRaise deliver reason m) :=
  (refusing_leads hs _ body).weaken
    (fun _ h => h.mono fun _ active => ⟨active.1.owing (Nat.zero_le _), active.2⟩)
    (fun _ h => h.owing (modest _)) fun _ h => h.owing (modest _)

theorem recording {u : RowUpdate} (balanced : LineBalanced u) : Leads e (Active owed) (Active owed)
    (Metered (Sparing owed)) Ended (updateRow u) :=
  ((metered_background _).keeps_updateRow balanced).leads (fun _ h => h) fun _ h => Active.sparing h

include hs modest in
theorem keeps_onFill (ev : OrderEvent) : Leaves e (Metered (Sparing owed)) Ended (onFill deliver ev) := by
  have background := metered_background (Sparing owed)
  refine keeps_bind (keeps_tally (steady_sparing owed) fun _ => ⟨rfl, rfl, rfl, rfl⟩) fun _ =>
    keeps_bind background.keeps_now fun _ => keeps_bind (keeps_gets _) fun _ =>
    keeps_bind (background.keeps_updateRow (lineBalanced_own_fill ..)) fun _ =>
    keeps_bind (keeps_forSome fun _ => ?_) fun _ => keeps_when (closing modest (finish_leads hs _ _ _))
  exact keeps_bind keeps_get fun _ => keeps_forSome fun _ => background.keeps_setRow _ _

include hl hs modest in
theorem onRejected_leads (ev : OrderEvent) (payload : RowEvent) (still : credited payload = 0) :
    Leads e (Active owed) (Metered (Sparing owed)) (Metered (Sparing owed)) Ended
      (onRejected deliver ev payload) := by
  refine leads_ite (fun _ => ?_) fun _ => leads_ite (fun _ => ?_) fun _ => ?_
  · exact leads_bind (recording still.symm) fun _ => resubmitting hs modest _ (reprice_leads hl hs)
  · exact leads_bind (recording still.symm) fun _ => leads_gets_bind fun s h =>
      closing modest (finish_leads hs _ _ _) s h.sparing
  · exact leads_bind (recording still.symm) fun _ s h =>
      closing modest (stranded_leads fun _ => _) s h.sparing

include hl hs modest in
theorem onCancelAck_leads (payload : RowEvent) (still : credited payload = 0) :
    Leads e (Active owed) (Metered (Sparing owed)) (Metered (Sparing owed)) Ended
      (onCancelAck deliver payload) := by
  have crossing := resubmitting hs modest "order-event handling failed" (fallback_leads hl hs)
  have ending (outcome : IntentOutcome) (a : ActiveIntent) : Leads e (Active owed)
      (Metered (Sparing owed)) (Metered (Sparing owed)) Ended
      (finishActive deliver (some outcome) [] a.filled) :=
    fun s h => closing modest (finish_leads hs _ _ _) s h.sparing
  have recorded (state : RowState) : Leads e (Active owed) (Active owed) (Metered (Sparing owed)) Ended
      (updateRow { state := some state, event := some payload }) := recording still.symm
  refine leads_gets_bind fun s h => (leads_ite (fun _ => leads_bind (recorded _) fun _ => ?_)
    fun _ => leads_bind (recorded _) fun _ => ?_) s h
  · exact leads_ite (fun _ => crossing) fun _ => leads_ite (fun _ => ending _ _) fun _ =>
      leads_ite (fun _ => ending _ _) fun _ s h => closing modest (finishRevoked_leads hs) s h.sparing
  · exact leads_ite (fun _ => crossing) fun _ => leads_ite (fun _ => ending _ _) fun _ =>
      resubmitting hs modest _ (reprice_leads hl hs)

include hl hs modest hd in
theorem onActiveEvent_leads (ev : OrderEvent) :
    Leads e (Active owed) (Metered (Sparing owed)) (Metered (Sparing owed)) Ended
      (onActiveEvent deliver ev) := by
  have background := metered_background (Sparing owed)
  have settled {m : M Unit} (body : Leaves e (Metered (Sparing owed)) Ended m) : Leads e (Active owed)
      (Metered (Sparing owed)) (Metered (Sparing owed)) Ended m := fun s h => body s h.sparing
  have stranding (refusal : ActiveIntent → List String) := closing modest (stranded_leads (e := e) refusal)
  have active := metered_background fun r n => Sparing owed r n ∧ r.live = true
  refine leads_bind (active.ask_leads _ |>.weaken (fun _ h => h) (fun _ h => h) fun _ h => Active.sparing h)
    fun t => leads_ite (fun _ => ?_) fun _ => ?_
  · exact settled (keeps_bind (background.keeps_updateRow rfl) fun _ =>
      keeps_bind background.keeps_armReread fun _ => stranding fun _ => _)
  cases ev.name with
  | orderAccepted =>
    exact settled (keeps_bind (background.keeps_updateRow rfl) fun _ => keeps_bind (keeps_gets _) fun _ =>
      keeps_when (keeps_bind (keeps_tally (steady_sparing owed) fun _ => ⟨rfl, rfl, rfl, rfl⟩) fun _ =>
        keeps_bind (fun s h =>
          enter_leads owed .cancelling _ s (h.owing ((modest .cancelling).trans (Nat.zero_le _)))) fun _ =>
        background.keeps_cancel hd))
  | orderFilled => exact settled (keeps_onFill hs modest ev)
  | orderRejected => exact onRejected_leads hl hs modest ev _ rfl
  | orderDenied =>
    exact settled (keeps_bind (background.keeps_updateRow rfl) fun _ => keeps_bind (keeps_gets _) fun _ =>
      closing modest (finish_leads hs _ _ _))
  | orderCanceled => exact onCancelAck_leads hl hs modest _ rfl
  | orderExpired => exact onCancelAck_leads hl hs modest _ rfl
  | orderCancelRejected =>
    exact settled (keeps_bind (background.keeps_updateRow rfl) fun _ => stranding fun _ => _)
  | orderCancelDenied =>
    exact settled (keeps_bind (background.keeps_updateRow rfl) fun _ => stranding fun _ => _)
  | other name => exact settled (background.keeps_updateRow rfl)

include hl hs modest hd in
theorem keeps_onOrderEvent (ev : OrderEvent) :
    Leaves e (Metered (Sparing owed)) Ended (onOrderEvent deliver ev) :=
  dispatching (steady_sparing owed) (metered_kills hd) fun s h live =>
    onActiveEvent_leads hl hs modest hd ev s (h.active live)

end
end

/- By induction on how deep the adapter nests its deliveries, for what a delivery keeps from
   inside a submit and for what it keeps elsewhere. -/
theorem deliveries (e : Env) (n : Nat) : (∀ x, Leaves e Loose Ended (reenter n x)) ∧
    ∀ x, Leaves e Spare Ended (reenter n x) := by
  induction n with
  | zero => exact ⟨fun _ => keeps_pure (), fun _ => keeps_pure ()⟩
  | succ n ih =>
    obtain ⟨hl, hs⟩ := ih
    have loose := metered_handling (steady_sparing fun _ => 0)
    have spare := metered_handling (steady_sparing waiting)
    refine ⟨fun x => ?_, fun x => ?_⟩
    · cases x with
      | own ev => exact keeps_onOrderEvent hl hs (fun _ => Nat.zero_le _) hl ev
      | external ev => exact loose.keeps_onExternalOrderEvent (metered_kills hl) ev
    · cases x with
      | own ev => exact keeps_onOrderEvent hl hs (fun _ => le_rfl) hs ev
      | external ev => exact spare.keeps_onExternalOrderEvent (metered_kills hs) ev

/- No intent in flight. -/
def Idling (r : Running) (n : Nat → Nat) : Prop := Sparing waiting r n ∧ r.live = false

abbrev Idle : St → Prop := Metered Idling

theorem idling_over (r : Running) (n : Nat → Nat) (none : r.plan = none) (still : r.live = false) :
    Idling r n := ⟨sparing_over none still, still⟩

theorem steady_idling : Steady Idling := steady_live waiting false

/- What is delivered while no intent is in flight starts none. -/
theorem idle_deliveries (e : Env) (n : Nat) (x : Delivery) : Leaves e Idle Ended (reenter n x) := by
  induction n generalizing x with
  | zero => exact keeps_pure ()
  | succ n ih =>
    have kills := steady_kills steady_idling idling_over ih
    cases x with
    | own ev =>
      refine dispatching steady_idling kills fun s h live => ?_
      rw [h.run.2] at live
      cases live
    | external ev => exact (metered_handling steady_idling).keeps_onExternalOrderEvent kills ev

-- the start of an intent

/- The next intent of a running plan, none of its own in flight. -/
def Due (index : Nat) (r : Running) (n : Nat → Nat) : Prop :=
  Idling r n ∧ r.index = index ∧ r.plan ≠ none

section
variable {e : Env} {index : Nat}

theorem Due.spare {s : St} (h : Metered (Due index) s) : Spare s := h.mono fun _ due => due.1.1

theorem refuseIntent_leads (outcome : IntentOutcome) (reasons : List String) :
    Leads e (Metered (Due index)) Spare Spare Ended (refuseIntent index outcome reasons) := by
  refine leads_bind (((metered_background _).keeps_journalIntent _ _ _ _).leads (fun _ h => h)
    fun _ h => Due.spare h) fun _ => leads_modify fun s h => h.moved fun n due => ?_
  obtain ⟨⟨sparing, still⟩, -, planned⟩ := due
  exact
    { ahead := fun running i past => sparing.ahead running i (Nat.lt_of_succ_lt past)
      unstarted := fun running _ => sparing.ahead running _ (Nat.lt_succ_self _)
      running := fun live => by rw [still] at live; cases live
      paid := fun live => by rw [still] at live; cases live
      crossed := fun live => by rw [still] at live; cases live }

/- An intent armed has sent nothing, and its first order is owed. -/
theorem arm_leads (intent : ProbeIntent) (c : InstrumentConstraints) (t : Int)
    (decision : CloseDecision) (state : VenueState) :
    Leads e (Metered (Due index)) Spare Spare Ended (arm index intent c t decision state) := by
  have due := metered_background (Due index)
  have sparing {α : Type} {m : M α} (body : Leaves e (Metered (Due index)) Ended m) :
      Leads e (Metered (Due index)) (Metered (Due index)) Spare Ended m :=
    body.leads (fun _ h => h) fun _ h => Due.spare h
  refine leads_bind (sparing (due.keeps_ask _)) fun own => ?_
  cases own with
  | none => exact refuseIntent_leads _ _
  | some own =>
    refine leads_bind (sparing (due.keeps_ask _)) fun _ => leads_ite (fun _ _ h => Due.spare h)
      fun _ => leads_modify fun s h => ?_
    have armed (n : Nat → Nat) (due : Due index s.run n) : Sparing waiting { s.run with
        live := true, ctx := newIntent index intent c t decision state own } n := by
      obtain ⟨⟨sparing, still⟩, here, planned⟩ := due
      have unsent : n s.run.index = 0 := sparing.unstarted planned still
      exact
        { ahead := fun running => sparing.ahead running
          unstarted := fun _ still => by cases still
          running := fun _ => ⟨planned, here.symm⟩
          paid := fun _ => by
            show n s.run.index + 1 ≤ 1 + min 0 maxReprices + 0
            rw [unsent]
            exact Nat.le_add_right 1 _
          crossed := fun _ => Nat.zero_le _ }
    cases s.run.plan with
    | none => exact h.moved armed
    | some p => exact (h.unspent (x := .armed p.planId index) fun _ => rfl).moved armed

theorem startIntent_leads (p : ProbePlan) (intent : ProbeIntent) (t : Int) :
    Leads e (Metered (Due index)) Spare Spare Ended (startIntent p index intent t) := by
  have due := metered_background (Due index)
  have sparing {α : Type} {m : M α} (body : Leaves e (Metered (Due index)) Ended m) :
      Leads e (Metered (Due index)) (Metered (Due index)) Spare Ended m :=
    body.leads (fun _ h => h) fun _ h => Due.spare h
  have admitting : Leads e (Metered (Due index)) Spare Spare Ended (admitIntent index intent t) := by
    refine leads_bind (sparing (due.keeps_evaluate _)) fun v => leads_ite
      (fun _ => leads_bind (sparing (due.keeps_ask _)) fun read => ?_) fun _ => refuseIntent_leads _ _
    rcases read with _ | state
    · exact refuseIntent_leads _ _
    · rcases known : state.instruments intent.symbol with _ | c <;> simp only [known]
      · exact refuseIntent_leads _ _
      · refine leads_get_bind fun s h => ?_
        split
        · exact refuseIntent_leads _ _ s h
        · exact arm_leads _ _ _ _ _ s h
  exact leads_get_bind fun s h => leads_ite (fun _ => refuseIntent_leads _ _) (fun _ =>
    leads_bind (sparing (due.keeps_scan _)) fun _ =>
      leads_ite (fun _ => refuseIntent_leads _ _) fun _ => admitting) s h

theorem keeps_startNext (t : Int) (n : Nat) : Leaves e Spare Ended (startNext t n) := by
  induction n with
  | zero => exact keeps_pure ()
  | succ n ih =>
    refine keeps_get_bind fun s h => ?_
    rcases running : s.run.plan with _ | p
    · exact h
    rw [wp_when]
    split
    · rename_i still
      rcases p.intents[s.run.index]? with _ | intent
      · have noted := h.unspent (x := .planEnded p.planId) fun _ => rfl
        exact noted.moved fun _ _ => sparing_over rfl still
      · have due : Metered (Due s.run.index) s :=
          h.mono fun _ sparing =>
            ⟨⟨sparing, still⟩, rfl, by rw [running]; exact Option.some_ne_none p⟩
        exact leads_bind (startIntent_leads _ _ _) (fun _ => ih) s due
    · exact h

end

-- the tick and the quote

theorem spare_drafts : Drafts Spare Ended where
  toBackground := metered_background (Sparing waiting)
  cleared := fun _ h => ⟨h.within, h.run⟩
  edited := fun _ _ _ h => ⟨h.within, h.run⟩

theorem idle_drafts : Drafts Idle Ended where
  toBackground := metered_background Idling
  cleared := fun _ h => ⟨h.within, h.run⟩
  edited := fun _ _ _ h => ⟨h.within, h.run⟩

theorem spare_handling : Handling Spare Ended := metered_handling (steady_sparing waiting)

theorem Metered.idle {s : St} (h : Spare s) (stopped : s.run.plan = none) : Idle s :=
  h.mono fun _ sparing => ⟨sparing, sparing.still stopped⟩

section
variable {e : Env} {deliver : Delivery → M Unit} (hl : ∀ x, Leaves e Loose Ended (deliver x))
  (hs : ∀ x, Leaves e Spare Ended (deliver x))

include hs in
/- A cancel asked for, of an order that rests. -/
theorem keeps_cancelling {f : ActiveIntent → ActiveIntent} (same : ∀ a, SameTally (f a) a) :
    Leaves e Spare Ended (do
      setCtx f
      enter .cancelling
      cancel deliver) :=
  keeps_bind (keeps_tally (steady_sparing waiting) same) fun _ =>
    keeps_bind (fun s h => enter_leads waiting .cancelling _ s h.loose) fun _ =>
    (metered_background _).keeps_cancel hs

include hl hs in
theorem poll_leads (t : Int) (v : GateVerdict) :
    Leads e (Active waiting) Spare Spare Ended (poll deliver t v) := by
  have finished (outcome : IntentOutcome) (reasons : List String) (filledQty : ℚ) :
      Leaves e Spare Ended (finishActive deliver (some outcome) reasons filledQty) :=
    closing (fun _ => le_rfl) (finish_leads hs _ _ _)
  have silenced (reasons : List String) : Leaves e Spare Ended (do
      setCtx fun a => { a with revokeReasons := reasons }
      finishRevoked deliver) :=
    keeps_bind (keeps_tally (steady_sparing waiting) fun _ => ⟨rfl, rfl, rfl, rfl⟩) fun _ =>
      closing (fun _ => le_rfl) (finishRevoked_leads hs)
  have boxed : Leads e (Active fun _ => 0) Spare Loose Ended (timeBoxWithNothingResting deliver) := by
    refine leads_gets_bind fun s h => ?_
    cases s.run.ctx.intent.mode with
    | execute => exact fallback_leads hl hs s h
    | restCancel => exact finish_loosely hs _ _ _ s h.loose
    | restHold => exact finish_loosely hs _ _ _ s h.loose
  have revoked (reasons : List String) : Leaves e Spare Ended (revoke deliver reasons) :=
    keeps_bind keeps_get fun _ => keeps_bind (keeps_modify fun _ h => h.unspent fun _ => rfl) fun _ =>
      keeps_cancelling hs fun _ => ⟨rfl, rfl, rfl, rfl⟩
  have stranded (refusal : String) : Leaves e Spare Ended (strandAmbiguous refusal) :=
    closing (fun _ => le_rfl) (stranded_leads fun _ => _)
  refine leads_gets_bind fun s h => ?_
  cases s.run.ctx.phase with
  | awaitingQuote => exact keeps_when (finished _ _ _) s h.sparing
  | awaitingReprice =>
    refine leads_gets_bind (i := Active waiting) (fun s h => ?_) s h
    rw [wp_ite]
    split
    · exact finished _ _ _ s h.sparing
    refine leads_ite (fun _ s h => silenced _ s (Active.sparing h)) (fun _ => leads_ite
      (fun _ s h => silenced _ s (Active.sparing h)) fun _ => leads_when (fun _ => ?_) fun _ _ h =>
        Active.sparing h) s h
    exact resubmitting hs (fun _ => le_rfl) _ boxed
  | resting =>
    have resting : Leaves e Spare Ended (pollResting deliver t v) :=
      keeps_bind (keeps_gets _) fun _ => keeps_ite (fun _ => revoked _) fun _ =>
        keeps_ite (fun _ => revoked _) fun _ => keeps_when
          (keeps_cancelling hs fun _ => ⟨rfl, rfl, rfl, rfl⟩)
    exact resting s h.sparing
  | cancelling => exact keeps_when (stranded _) s h.sparing
  | ioc => exact keeps_when (stranded _) s h.sparing
  | done => exact keeps_when (stranded _) s h.sparing

include hl hs in
theorem keeps_pump (t : Int) : Leaves e Spare Ended (pump deliver t) := by
  refine keeps_get_bind fun s h => ?_
  rw [wp_forSome]
  refine ⟨fun p running => ?_, fun _ => h⟩
  cases live : s.run.live with
  | true =>
    have pinned := (metered_background (Sparing waiting)).pinned s.run
    exact leads_bind ((pinned.keeps_evaluate t).leads (fun _ h => h) fun _ h => h.1) (fun v u h =>
      poll_leads hl hs t v u (h.1.active (h.2 ▸ live))) s ⟨h, rfl⟩
  | false =>
    exact keeps_bind ((metered_background _).keeps_evaluate t) (fun _ => keeps_startNext _ _) s h

include hl hs in
/- A quote sends what a waiting intent is owed. -/
theorem keeps_onQuote (symbol : Pair) (bid ask : Option ℚ) :
    Leaves e Spare Ended (onQuote deliver symbol bid ask) := by
  have active := metered_background fun r n => Sparing waiting r n ∧ r.live = true
  have storing (stored : Bool) : Leaves e (Active waiting) Ended (when stored (do
      let t ← now
      setCtx fun a => { a with
        bid := asPrice bid, ask := asPrice ask, lastQuoteAt := some t, quoteSeq := a.quoteSeq + 1 })) :=
    keeps_when (keeps_bind active.keeps_now fun _ =>
      keeps_tally (steady_live waiting true) fun _ => ⟨rfl, rfl, rfl, rfl⟩)
  have owed {u : St} (h : Active waiting u) (waits : waiting u.run.ctx.phase = 1) : Ready u :=
    h.mono fun _ active => ⟨active.1.owing (waits ▸ le_rfl), active.2⟩
  have arrived : Leads e Spare Spare Loose Ended (quoteArrived deliver symbol bid ask) := by
    refine leads_get_bind fun s h => ?_
    rw [wp_when]
    split
    · rename_i here
      suffices body : Leads e (Active waiting) Spare Loose Ended _ from body s (h.active here.1)
      refine leads_bind ((storing _).leads (fun _ h => h) fun _ h => Active.loose h) fun _ =>
        leads_gets_bind fun u h => ?_
      rw [wp_ite]
      split
      · exact firstSubmission_leads hl hs u (owed h (by simp [waiting, *]))
      · rw [wp_when]
        split
        · exact repriceAtTouch_leads hl hs u (owed h (by simp [waiting, *]))
        · exact h.sparing
    · exact h
  exact refusing_leads hs _ arrived

include hs in
theorem keeps_freeze : Leaves e Spare Ended (freeze deliver) := by
  have steady := steady_sparing waiting
  refine keeps_bind spare_handling.keeps_now fun t => keeps_bind keeps_get fun s =>
    keeps_bind ((metered_blind _).socketFree.keeps_watched (x := fun _ => .froze) (fun _ => rfl) fun _ => rfl)
    fun _ => keeps_bind (spare_handling.keeps_cancelResting hs
      (keeps_tally steady fun _ => ⟨rfl, rfl, rfl, rfl⟩) _) fun _ => keeps_bind (keeps_gets _) fun _ =>
    keeps_when (keeps_bind (keeps_tally steady fun _ => ⟨rfl, rfl, rfl, rfl⟩) fun _ s h =>
      enter_leads waiting .cancelling _ s h.loose)

/- A plan is taken up where none runs, and nothing of it has been sent. -/
theorem keeps_startPlan (p : ProbePlan) (b t : Int) (fromFile : Bool) :
    Leaves e Idle Ended (startPlan p b t fromFile) := by
  refine keeps_modify fun s h => ⟨within_cons h.within fun index => Nat.zero_le _, ?_⟩
  exact
    { left :=
        { ahead := fun _ _ _ => rfl
          unstarted := fun _ _ => rfl
          running := fun live => by rw [h.run.2] at live; cases live
          paid := fun live => by rw [h.run.2] at live; cases live
          crossed := fun live => by rw [h.run.2] at live; cases live }
      right := h.run.2 }

section
variable (hi : ∀ x, Leaves e Idle Ended (deliver x))
include hi

theorem keeps_takePlan (t : Int) : Leaves e Spare Ended (takePlan deliver t) := by
  have accepting (p : ProbePlan) (b : Int) (fromFile : Bool) :
      Leaves e Idle Ended (acceptPlan p b t fromFile) :=
    (metered_background _).keeps_accept (keeps_startPlan p b t fromFile)
  have windowed (close : Int) : Leaves e Idle Ended
      (modify fun s : St => { s with run.planWindowClose := some close }) :=
    keeps_modify fun _ h => h.moved fun _ idling =>
      ⟨⟨idling.1.ahead, idling.1.unstarted, idling.1.running, idling.1.paid, idling.1.crossed⟩,
        idling.2⟩
  have unplanned {m : M Unit} (body : Leaves e Idle Ended m) {s : St} (h : Spare s) :
      wp e (when (s.run.plan = none) m) (Post.leaving Spare Ended) s := by
    rw [wp_when]
    split
    · exact body.elim (h.idle ‹_›) (fun _ _ h => h.mono fun _ => And.left)
        (fun _ h => h.mono fun _ => And.left) (fun _ h => h)
    · exact h
  have drafting := idle_drafts.keeps_drafting (metered_blind _).markFree
    (steady_kills steady_idling idling_over hi) t windowed fun p b => accepting p b false
  have picking := idle_drafts.keeps_pickup fun p => accepting p (boundaryAt t) true
  have marks := (metered_blind (Sparing waiting)).markFree
  refine keeps_bind keeps_get fun _ => keeps_when (keeps_bind (keeps_when
    (spare_drafts.keeps_rearmCycleDraft (spare_drafts.keeps_armCycleDraft marks
      (fun _ _ h => ⟨h.within, h.run⟩) _))) fun _ => keeps_get_bind fun s h => ?_)
  rw [wp_bind]
  exact wp_mono (unplanned drafting h)
    (fun _ u h => keeps_get_bind (fun _ h => unplanned picking h) u h) (fun _ h => h) fun _ h => h

include hl hs in
theorem keeps_onTimer : Leaves e Spare Ended (onTimer deliver) := by
  have kills := metered_kills hs
  have blind := metered_blind (Sparing waiting)
  have passing (t : Int) : Leaves e Spare Ended (passes deliver t) :=
    spare_handling.keeps_passes kills hs (spare_handling.keeps_deriveOnce blind.markFree t)
      (spare_handling.keeps_liftFreeze blind.socketFree) (keeps_freeze hs)
      (spare_handling.keeps_rereadPass kills blind.socketFree t)
  exact keeps_bind spare_handling.keeps_now fun t => keeps_attempt (keeps_bind (passing t) fun _ =>
    keeps_bind (keeps_takePlan hi t) fun _ => keeps_bind (keeps_pump hl hs t) fun _ =>
    spare_handling.keeps_refreshGate t) (keeps_drops waiting)

end
end

/- A fresh process runs nothing. -/
theorem starts (e : Env) {s : St} (h : Ended s) : wp e Timer.start (Post.leaving Spare Ended) s :=
  (metered_background _).starts_fresh ⟨within_unspent h fun _ => rfl, sparing_over rfl rfl⟩

theorem keeps_react (e : Env) (x : Input) : Leaves e Spare Ended (react x) := by
  obtain ⟨hl, hs⟩ := deliveries e e.depth
  have hi := idle_deliveries e e.depth
  have kills := metered_kills hs
  have blind := metered_blind (Sparing waiting)
  cases x with
  | start => exact fun s h => starts e h.within
  | timer => exact keeps_reader (fun e => onTimer (reenter e.depth)) (keeps_onTimer hl hs hi)
  | quote symbol bid ask =>
    exact keeps_reader (fun e => onQuote (reenter e.depth) symbol bid ask)
      (keeps_onQuote hl hs symbol bid ask)
  | order ev =>
    exact keeps_reader (fun e => onOrderEvent (reenter e.depth) ev)
      (keeps_onOrderEvent hl hs (fun _ => le_rfl) hs ev)
  | external ev =>
    exact keeps_reader (fun e => onExternalOrderEvent (reenter e.depth) ev)
      (spare_handling.keeps_onExternalOrderEvent kills ev)
  | socket endpoint connected =>
    exact spare_handling.keeps_onSocketState blind.socketFree endpoint connected
  | boundary b =>
    exact keeps_reader (fun e => onBoundary (reenter e.depth) b)
      (spare_drafts.keeps_onBoundary blind.markFree kills
        (spare_drafts.keeps_armCycleDraft blind.markFree (fun _ _ h => ⟨h.within, h.run⟩) b))
  | dropFile f => exact keeps_modify fun s h => h.blind rfl
  | setKillFile text => exact keeps_modify fun s h => h.blind rfl
  | clearSeriesStart => exact keeps_modify fun s h => h.blind rfl

theorem taken (e : Env) (x : Input) : Taken e Spare Ended x where
  live := keeps_react e x
  starts := fun _ _ h => starts e h
  operated := fun idle other s h => by
    cases x with
    | start => exact absurd rfl other
    | dropFile f => exact h
    | setKillFile text => exact h
    | clearSeriesStart => exact h
    | _ => cases idle

/- No run of a process or of its successors ever has an intent over its limit. -/
theorem steps_within (e : Env) (disk : Disk) (unset : ActiveIntent) (mem : Nat → Row)
    (xs : List Input) : Within (steps e (idle disk unset mem) xs).st.trace := by
  have stands := stands_steps (idle disk unset mem) xs (fun x _ => taken e x)
    ⟨fun live => (by cases live), fun _ older suffix index => by
      rw [List.suffix_nil.mp suffix]
      exact Nat.zero_le _⟩
  cases alive : (steps e (idle disk unset mem) xs).alive with
  | true => exact (stands.1 alive).within
  | false => exact stands.2 alive

-- the loop that starts intents

/- A turn of `_pump`'s loop that came back to its test. -/
def Turn (e : Env) (t : Int) (s u : St) : Prop :=
  ∃ p intent, s.run.plan = some p ∧ s.run.live = false ∧ p.intents[s.run.index]? = some intent ∧
    startIntent p s.run.index intent t e s = (.ok (), u)

/- One intent fewer to start, or the next one started and waiting for its quote. -/
structure Advanced (r r' : Running) : Prop where
  plan : r'.plan = r.plan
  moved : r'.live = false ∧ r'.index = r.index + 1 ∨
    r'.live = true ∧ r'.index = r.index ∧ r'.ctx.phase = .awaitingQuote

/- The intents left to start, and the turn that ends the plan. -/
def remaining (r : Running) : Nat :=
  if r.live then 0 else (r.plan.map fun p => p.intents.length - r.index + 1).getD 0

def Anywhere (_ : St) : Prop := True

theorem anywhere_background : Background Anywhere Anywhere where
  ask := fun _ _ => trivial
  dies := fun _ _ => trivial
  aside := fun _ _ _ _ => trivial
  note := fun _ _ _ _ => trivial
  file := fun _ _ _ _ => trivial

section
variable {e : Env} {r : Running}

/- From the running plan as it stood to one advanced by a turn. -/
abbrev Advances (e : Env) (r : Running) {α : Type} (m : M α) : Prop :=
  Leads e (fun s => Anywhere s ∧ s.run = r) (fun u => Advanced r u.run) Anywhere Anywhere m

theorem refuseIntent_advances (still : r.live = false) (index : Nat) (outcome : IntentOutcome)
    (reasons : List String) : Advances e r (refuseIntent index outcome reasons) :=
  leads_bind (((anywhere_background.pinned r).keeps_journalIntent _ _ _ _).leads (fun _ h => h)
    fun _ _ => trivial) fun _ => leads_modify fun _ h =>
      { plan := by simp only [h.2], moved := .inl (by simp only [h.2, still, and_self]) }

theorem startIntent_advances (still : r.live = false) (p : ProbePlan) (index : Nat)
    (intent : ProbeIntent) (t : Int) : Advances e r (startIntent p index intent t) := by
  have pinned := anywhere_background.pinned r
  have staying {α : Type} {m : M α} (body : Leaves e (fun s => Anywhere s ∧ s.run = r) Anywhere m) :
      Leads e (fun s => Anywhere s ∧ s.run = r) (fun s => Anywhere s ∧ s.run = r) Anywhere Anywhere m :=
    body.leads (fun _ h => h) fun _ _ => trivial
  have refusing (outcome : IntentOutcome) (reasons : List String) :
      Advances e r (refuseIntent index outcome reasons) := refuseIntent_advances still _ _ _
  have arming (c : InstrumentConstraints) (decision : CloseDecision) (state : VenueState) :
      Advances e r (arm index intent c t decision state) := by
    refine leads_bind (staying (pinned.keeps_ask _)) fun own => ?_
    cases own with
    | none => exact refusing _ _
    | some own =>
      exact leads_bind (staying (pinned.keeps_ask _)) fun _ => leads_ite (fun _ _ _ => trivial)
        fun _ => leads_modify fun _ h =>
          { plan := by simp only [h.2], moved := .inr ⟨rfl, by simp only [h.2], rfl⟩ }
  have admitting : Advances e r (admitIntent index intent t) := by
    refine leads_bind (staying (pinned.keeps_evaluate _)) fun v => leads_ite
      (fun _ => leads_bind (staying (pinned.keeps_ask _)) fun read => ?_) fun _ => refusing _ _
    rcases read with _ | state
    · exact refusing _ _
    · rcases known : state.instruments intent.symbol with _ | c <;> simp only [known]
      · exact refusing _ _
      · refine leads_get_bind fun s h => ?_
        split
        · exact refusing _ _ s h
        · exact arming _ _ _ s h
  exact leads_get_bind fun s h => leads_ite (fun _ => refusing _ _) (fun _ =>
    leads_bind (staying (pinned.keeps_scan _)) fun _ =>
      leads_ite (fun _ => refusing _ _) fun _ => admitting) s h

theorem turn_advances {t : Int} {s u : St} (turn : Turn e t s u) : Advanced s.run u.run := by
  obtain ⟨p, intent, -, still, -, started⟩ := turn
  have advanced := startIntent_advances (e := e) still p s.run.index intent t s ⟨trivial, rfl⟩
  unfold wp at advanced
  rw [started] at advanced
  exact advanced

theorem remaining_advanced {r' : Running} {p : ProbePlan} {intent : ProbeIntent}
    (running : r.plan = some p) (still : r.live = false)
    (next : p.intents[r.index]? = some intent) (h : Advanced r r') : remaining r' < remaining r := by
  have inside : r.index < p.intents.length := (List.getElem?_eq_some_iff.mp next).1
  have before : remaining r = p.intents.length - r.index + 1 := by simp [remaining, still, running]
  rcases h.moved with ⟨ended, index⟩ | ⟨live, -, -⟩
  · have after : remaining r' = p.intents.length - (r.index + 1) + 1 := by
      simp [remaining, ended, h.plan, running, index]
    omega
  · have after : remaining r' = 0 := by simp [remaining, live]
    omega

theorem turns_end (e : Env) (t : Int) : WellFounded fun u s => Turn e t s u := by
  refine Subrelation.wf (fun {u s} turn => ?_) (InvImage.wf (fun s : St => remaining s.run) Nat.lt_wfRel.wf)
  have advanced := turn_advances turn
  obtain ⟨p, intent, running, still, next, -⟩ := turn
  exact remaining_advanced running still next advanced

/- The test of the loop fails. -/
def Exited (s : St) : Prop := s.run.live = true ∨ s.run.plan = none

theorem exited_of_remaining {s : St} (none : remaining s.run = 0) : Exited s := by
  unfold remaining at none
  split at none
  · exact .inl ‹_›
  · rcases running : s.run.plan with _ | p
    · exact .inr running
    · simp [running] at none

/- With a turn for each intent left and one more, the loop ends at its own test. -/
theorem startNext_exits (t : Int) (n : Nat) {s : St} (enough : remaining s.run ≤ n) :
    wp e (startNext t n) ⟨fun _ => Exited, Anywhere, Anywhere⟩ s := by
  induction n generalizing s with
  | zero => exact exited_of_remaining (Nat.le_zero.mp enough)
  | succ n ih =>
    simp only [startNext, wp_bind, wp_get]
    rcases running : s.run.plan with _ | p
    · exact .inr running
    simp only [wp_when]
    split
    · rename_i still
      rcases next : p.intents[s.run.index]? with _ | intent
      · exact .inr rfl
      · refine (wp_bind _ _).mpr (wp_mono (startIntent_advances still p s.run.index intent t s
          ⟨trivial, rfl⟩) (fun _ u advanced => ih ?_) (fun _ h => h) fun _ h => h)
        exact Nat.lt_succ_iff.mp ((remaining_advanced running still next advanced).trans_le enough)
    · exact .inl (Bool.not_eq_false _ ▸ ‹_›)

theorem pump_exits (deliver : Delivery → M Unit) (t : Int) {s : St} (still : s.run.live = false) :
    wp e (pump deliver t) ⟨fun _ => Exited, Anywhere, Anywhere⟩ s := by
  have pinned := anywhere_background.pinned s.run
  simp only [pump, wp_bind, wp_get, wp_forSome]
  refine ⟨fun p running => ?_, fun none => .inr none⟩
  refine (pinned.keeps_evaluate t).elim ⟨trivial, rfl⟩ (fun v u h => ?_) (fun _ _ => trivial)
    fun _ _ => trivial
  dsimp only
  rw [if_neg (by simp [still])]
  apply startNext_exits
  simp [h.2, remaining, still, running]

end

/- What the loop of `_pump` does in each turn, that no run of turns goes on for ever, and that
   the pump returns from it at the loop's own test. -/
structure PumpEnds (e : Env) (t : Int) : Prop where
  turn : ∀ s u, Turn e t s u → Advanced s.run u.run
  ends : WellFounded fun u s => Turn e t s u
  exits : ∀ deliver s, s.run.live = false →
    wp e (pump deliver t) ⟨fun _ => Exited, Anywhere, Anywhere⟩ s

/- In every run, whatever is delivered and wherever the process dies, no intent of an accepted
   plan is sent more orders than its first, its reprices and its crossings, and the pump ends. -/
theorem submissions_bounded (e : Env) (disk : Disk) (unset : ActiveIntent) (mem : Nat → Row)
    (xs : List Input) :
    (∀ older, older <:+ (steps e (idle disk unset mem) xs).st.trace →
      ∀ index, spent index older ≤ 1 + maxReprices + maxIocAttempts) ∧ ∀ t, PumpEnds e t :=
  ⟨steps_within e disk unset mem xs, fun t => ⟨fun _ _ => turn_advances, turns_end e t,
    fun deliver _ still => pump_exits deliver t still⟩⟩

end Budget
