import Zcrypto.Liquidations.CatchUp

/- The sweeps, the starts and the stops of the poller, and with its cycles its runs. -/
namespace Coinalyze
open Segments Effects Effects.Prog

section
variable {h : Host} {s : Service} {lo cutoff : Int} {coin : String} {p p' : Poller}

/- A sweep. -/

/-- While the writers are swept, each row that may still come is past every hour that is swept. -/
structure Sweeping (h : Host) (s : Service) (lo cutoff : Int) (p : Poller) : Prop
    extends Living h s lo p where
  le : cutoff ≤ h.world.clock p.asked
  past : ∀ coin, ∀ q, due s coin lo q → ∀ g, Before cutoff g → g + hourMicros ≤ q.ts

theorem wp_sweepWriter (faithful : s.Faithful h) (clock : Monotone h.world.clock) (mem : coin ∈ coins)
    (start : Where (Sweeping h s lo cutoff) p) :
    wp h (writing coin [] (finalizeCompletedHours cutoff))
      ⟨fun _ => Where (Sweeping h s lo cutoff), Where (Sweeping h s lo cutoff), Where (Resting h s)⟩ p := by
  have spec : Clean p → wp (settings h.world) (finalizeCompletedHours cutoff)
      ⟨fun _ t => Reached (p.entry coin) t ∧ Finalized (settings h.world) (Done (p.entry coin))
          (p.entry coin).mem (p.entry coin).asked (landedRows (p.entry coin).trace) cutoff t,
        fun _ => False,
        fun t => Reached (p.entry coin) t ∧ Stranded (settings h.world)
          (fun g => Done (p.entry coin) g ∨ Before cutoff g) (p.entry coin).asked
          (landedRows (p.entry coin).trace) (p.entry coin).mem.buffer (p.entry coin).mem.buffer t⟩
      (p.entry coin) := by
    intro clean
    have alive := (((start clean).lives coin mem).alive).asked (n := p.asked)
    have sweeps : wp (settings h.world) (finalizeCompletedHours cutoff) _ (p.entry coin) :=
      wp_finalizeCompletedHours rfl alive.writable (fun cur opened => (alive.current cur opened).1)
        alive.calm
    have moves := moves_finalizeCompletedHours cutoff (p.entry coin) (.refl (a := p.entry coin))
      (w := settings h.world)
    apply wp_mono (wp_both sweeps moves)
    · exact fun _ t both => both.symm
    · exact fun _ both => both.1
    · exact fun t both => both.symm
  apply wp_mono (wp_call mem (fun t₀ => moves_finalizeCompletedHours _) spec)
  · rintro _ p' swept clean
    obtain ⟨before, t, ⟨reached, finalized⟩, rfl⟩ := swept clean
    obtain ⟨living, le, past⟩ := start before
    have alive := ((living.lives coin mem).alive).asked (n := p.asked)
    have later := clock finalized.since
    have loses := loses_left (h := h) (p := p) coin [] t
    have own : Lives h s lo (p.left h.world coin [] t) coin := by
      constructor
      · rw [left_tapes]
        exact (alive.sweep le (fun _ d => d) (past coin) reached finalized loses).later (fun _ d => d)
          (fun _ d => d) later
      · rw [left_tapes]
        intro e there
        have carried : Carried (settings h.world)
            (fun g => Done (p.entry coin) g ∨ Before cutoff g) (p.entry coin).asked
            (landedRows (p.entry coin).trace) ((p.entry coin).mem.buffer ++ []) t := by
          rw [List.append_nil]
          exact finalized.toCarried
        exact loses.accounted rfl carried (.inl ((living.lives coin mem).received e there))
    exact ⟨living.change faithful clock (elsewhere_left coin [] finalized.since) own, le.trans later, past⟩
  · exact fun p' raised clean => (raised clean).2.choose_spec.1.elim
  · intro p' died clean
    obtain ⟨before, t, ⟨reached, stranded⟩, rfl⟩ := died clean
    obtain ⟨living, le, past⟩ := start before
    have alive := ((living.lives coin mem).alive).asked (n := p.asked)
    have own : Rests h s lo (p.left h.world coin [] t) coin := by
      unfold Rests
      rw [left_tapes]
      exact (alive.sweep_killed le (fun _ d => d) (past coin) reached stranded (loses_left coin [] t)).later
        (fun _ d => d) (fun _ d => d) (clock stranded.since)
    exact living.killed faithful clock (elsewhere_left coin [] stranded.since) own

theorem sweepWriters_leaves (faithful : s.Faithful h) (clock : Monotone h.world.clock)
    (rest : List String) (sub : ∀ coin ∈ rest, coin ∈ coins) :
    Leaves h (Where (Sweeping h s lo cutoff)) (Where (Resting h s)) (sweepWriters cutoff rest) := by
  induction rest with
  | nil => exact keeps_pure true
  | cons coin rest ih =>
    intro p start
    have inside : coin ∈ coins := sub coin List.mem_cons_self
    unfold sweepWriters
    rw [wp_bind, wp_attempt, wp_bind]
    apply wp_mono (wp_sweepWriter faithful clock inside start)
    · intro outcome p' swept
      dsimp only
      rw [wp_pure]
      dsimp only
      rw [wp_bind]
      apply wp_mono (ih (fun other mem => sub other (List.mem_cons_of_mem coin mem)) p' swept)
      · exact fun _ _ h => h
      · exact fun _ h => h
      · exact fun _ h => h
    · exact fun _ h => h
    · exact fun _ h => h

/-- A sweep is of hours that no cycle may still receive a bucket of. -/
theorem Running.sweeping (r : Running h s p) (faithful : s.Faithful h) (clock : Monotone h.world.clock) :
    ∃ lo, Sweeping h s lo (h.world.clock p.asked - finalizeLagSeconds * second)
      { p with asked := p.asked + 1 } := by
  obtain ⟨lo, living⟩ := r
  let lo' := max lo (h.world.clock p.asked / second - catchupWindowSeconds)
  have now := living.asked faithful clock (show p.asked ≤ p.asked + 1 by omega)
  have later := clock (show p.asked ≤ p.asked + 1 by omega)
  refine ⟨lo', ⟨?_, fun coin mem => (now.lives coin mem).raise (le_max_left _ _)⟩, ?_, ?_⟩
  · have first := now.lo_le
    unfold edge second at *
    dsimp only at *
    unfold lo' second
    omega
  · show h.world.clock p.asked - finalizeLagSeconds * second ≤ h.world.clock (p.asked + 1)
    unfold finalizeLagSeconds second
    omega
  · rintro coin q ⟨t, sides, -, after, rfl⟩ g ⟨aligned, before⟩
    show g + hourMicros ≤ t * second
    unfold lo' at after
    unfold Aligned finalizeLagSeconds catchupWindowSeconds hourMicros second at *
    omega

theorem pollOnce_leaves (faithful : s.Faithful h) (clock : Monotone h.world.clock) :
    Leaves h (Where (Running h s)) (Where (Resting h s)) pollOnce := by
  intro p start
  have asked : Where (Running h s) { p with asked := p.asked + 1 } :=
    fun clean => (start clean).asked faithful clock (Nat.le_succ _)
  unfold pollOnce
  rw [wp_bind, wp_checkDisk]
  dsimp only
  rw [wp_ite]
  split
  · rw [wp_bind, wp_attempt, wp_bind]
    have polls : ∀ polled : Bool, ∀ p', Where (Running h s) p' → wp h (if polled then do
        let now ← utcnow
        sweepWriters (now - finalizeLagSeconds * second) coins
      else pure false) (Post.leaving (Where (Running h s)) (Where (Resting h s))) p' := by
      intro polled p' running
      rw [wp_ite]
      split
      · rw [wp_bind, wp_utcnow]
        dsimp only
        by_cases clean : Clean p'
        · obtain ⟨lo, sweeping⟩ := (running clean).sweeping faithful clock
          apply (sweepWriters_leaves faithful clock coins fun _ mem => mem).elim fun _ => sweeping
          · exact fun _ _ swept clean => ⟨lo, (swept clean).toLiving⟩
          · exact fun _ swept clean => ⟨lo, (swept clean).toLiving⟩
          · exact fun _ h => h
        · have vacuous : Where (Sweeping h s 0 (h.world.clock p'.asked - finalizeLagSeconds * second))
              { p' with asked := p'.asked + 1 } := fun still => absurd still clean
          apply (sweepWriters_leaves faithful clock coins fun _ mem => mem).elim vacuous
          · exact fun _ _ swept clean => ⟨0, (swept clean).toLiving⟩
          · exact fun _ swept clean => ⟨0, (swept clean).toLiving⟩
          · exact fun _ h => h
      · exact running
    apply (pollCycle_leaves faithful clock).elim asked
    · exact fun _ p' h => polls true p' h
    · exact fun p' h => polls false p' h
    · exact fun _ h => h
  · exact asked

/- A start. -/

theorem wp_writer {α : Type} {call : Seg α} {Q : Post Poller α} :
    wp h (writer coin call) Q p ↔
      wp (settings h.world) call
        ⟨fun a t => Q.ok a { p with tapes := Function.update p.tapes coin t, asked := t.asked },
          fun t => Q.raised { p with tapes := Function.update p.tapes coin t, asked := t.asked },
          fun t => Q.died { p with tapes := Function.update p.tapes coin t, asked := t.asked }⟩
        (p.entry coin) := by
  unfold wp writer Poller.entry
  rcases call (settings h.world) { p.tapes coin with asked := p.asked } with ⟨_ | _ | _, t⟩ <;> rfl

/-- Before the writers are constructed, what is kept of every coin. -/
structure Starting (h : Host) (s : Service) (lo : Int) (p : Poller) : Prop where
  lo_le : lo ≤ edge h s p.asked
  rests : ∀ coin ∈ coins, Rests h s lo p coin
  received : p.received = fun _ => []

/-- A coin whose writer was constructed. -/
abbrev Ready (h : Host) (s : Service) (lo : Int) (p : Poller) (coin : String) : Prop :=
  Built (symbolFor coin) (due s coin lo) (· ∈ p.dropped coin) (h.world.clock p.asked) (p.tapes coin)

theorem Starting.change (st : Starting h s lo p) (faithful : s.Faithful h)
    (clock : Monotone h.world.clock) (same : Elsewhere coin p p') (own : Rests h s lo p' coin) :
    Starting h s lo p' := by
  refine ⟨st.lo_le.trans (edge_mono faithful clock same.asked), ?_, same.received.trans st.received⟩
  intro other mem
  by_cases here : other = coin
  · exact here ▸ own
  · exact (st.rests other mem).frame clock same.asked (same.tapes other here) (same.dropped other here)

theorem Ready.frame (r : Ready h s lo p coin) (clock : Monotone h.world.clock) (le : p.asked ≤ p'.asked)
    (tapes : p'.tapes coin = p.tapes coin) (dropped : p'.dropped coin = p.dropped coin) :
    Ready h s lo p' coin := by
  refine ⟨Rests.frame r.toKept clock le tapes dropped, ?_, ?_, ?_⟩
  · rw [tapes]
    exact r.fresh
  · rw [tapes]
    exact r.behind
  · rw [tapes]
    exact r.floor

theorem clean_put {t : Tape} (mem : coin ∈ coins) (reached : Reached (p.tapes coin) t)
    (clean : Clean { p with tapes := Function.update p.tapes coin t, asked := t.asked }) : Clean p := by
  intro other there
  have spotless := clean other there
  by_cases same : other = coin
  · subst same
    simp only [Function.update_self] at spotless
    exact reached.spotless spotless
  · simpa [Function.update_of_ne same] using spotless

theorem elsewhere_put (coin : String) {t : Tape} (le : p.asked ≤ t.asked) :
    Elsewhere coin p { p with tapes := Function.update p.tapes coin t, asked := t.asked } :=
  ⟨le, fun _ apart => Function.update_of_ne apart _ _, fun _ _ => rfl, fun _ _ => rfl, rfl⟩

/-- A writer that is constructed keeps the others as they are. -/
theorem wp_constructs (faithful : s.Faithful h) (clock : Monotone h.world.clock) (mem : coin ∈ coins)
    (start : Where (Starting h s lo) p) :
    wp h (writer coin construct)
      ⟨fun _ p' => Where (Starting h s lo) p' ∧ Where (fun p => Ready h s lo p coin) p' ∧
          ∀ other, Where (fun p => Ready h s lo p other) p → Where (fun p => Ready h s lo p other) p',
        Where (Resting h s), Where (Resting h s)⟩ p := by
  rw [wp_writer]
  have entry : Reached (p.tapes coin) (p.entry coin) := Relation.ReflTransGen.refl.tail (.aside rfl rfl)
  have moves := moves_construct (p.entry coin) entry (w := settings h.world)
  by_cases clean : Clean p
  · have starting := start clean
    have builds := (starting.rests coin mem).asked (n := p.asked) |>.construct (w := settings h.world)
      fun i le => clock le
    apply wp_mono builds
    · rintro _ t ⟨le, built⟩
      have elsewhere := elsewhere_put (p := p) (t := t) coin le
      have own : Ready h s lo { p with tapes := Function.update p.tapes coin t, asked := t.asked } coin := by
        unfold Ready
        simp only [Function.update_self]
        refine ⟨built.toKept.later (fun _ d => d) (fun _ d => d) (clock le), built.fresh, built.behind,
          built.floor⟩
      refine ⟨fun _ => starting.change faithful clock elsewhere own.toKept, fun _ => own, ?_⟩
      intro other ready _
      by_cases here : other = coin
      · exact here ▸ own
      · exact (ready clean).frame clock le (elsewhere.tapes other here) rfl
    · exact fun _ h => h.elim
    · rintro t ⟨le, kept⟩ -
      have elsewhere := elsewhere_put (p := p) (t := t) coin le
      have own : Rests h s lo { p with tapes := Function.update p.tapes coin t, asked := t.asked } coin := by
        unfold Rests
        simp only [Function.update_self]
        exact kept.later (fun _ d => d) (fun _ d => d) (clock le)
      have after := starting.change faithful clock elsewhere own
      exact ⟨lo, after.lo_le, after.rests⟩
  · apply wp_mono moves
    · intro _ t reached
      have unclean := fun still => clean (clean_put mem reached still)
      exact ⟨fun still => absurd still unclean, fun still => absurd still unclean,
        fun _ _ still => absurd still unclean⟩
    · exact fun t reached still => absurd (clean_put mem reached still) clean
    · exact fun t reached still => absurd (clean_put mem reached still) clean

/-- While the marks are read, every writer has been constructed. -/
structure Priming (h : Host) (s : Service) (lo : Int) (p : Poller) : Prop where
  lo_le : lo ≤ edge h s p.asked
  ready : ∀ coin ∈ coins, Ready h s lo p coin
  received : p.received = fun _ => []

theorem wp_primeCoin (faithful : s.Faithful h) (clock : Monotone h.world.clock)
    (primes : ∀ n, h.primes n = true) (start : Where (Priming h s lo) p) :
    wp h (primeCoin coin)
      ⟨fun _ p' => Where (Priming h s lo) p' ∧ p'.marks coin = newestMark (p'.tapes coin).disk ∧
          ∀ other, p.marks other = newestMark (p.tapes other).disk →
            p'.marks other = newestMark (p'.tapes other).disk,
        Where (Resting h s), Where (Resting h s)⟩ p := by
  have le : p.asked ≤ p.asked + 1 := Nat.le_succ _
  unfold primeCoin
  rw [wp_bind, wp_readsNewest]
  dsimp only
  rw [primes, if_pos rfl, wp_modify]
  refine ⟨fun clean => ?_, by simp, ?_⟩
  · have priming := start clean
    refine ⟨priming.lo_le.trans (edge_mono faithful clock le), ?_, priming.received⟩
    exact fun other mem => (priming.ready other mem).frame clock le rfl rfl
  · intro other same
    by_cases here : other = coin
    · subst here
      simp
    · simpa [Function.update_of_ne here] using same

theorem Priming.running (pr : Priming h s lo p) (faithful : s.Faithful h) (clean : Clean p)
    (marks : ∀ coin ∈ coins, p.marks coin = newestMark (p.tapes coin).disk) : Running h s p := by
  refine ⟨lo, pr.lo_le, ?_⟩
  intro coin mem
  constructor
  · have alive := (pr.ready coin mem).alive (clean coin mem) fun q d => due_nonneg faithful d
    rw [← marks coin mem] at alive
    exact alive
  · rw [pr.received]
    simp

theorem start_leads (faithful : s.Faithful h) (clock : Monotone h.world.clock)
    (primes : ∀ n, h.primes n = true) :
    Leads h (Where (Resting h s)) (Where (Running h s)) (Where (Resting h s)) (Where (Resting h s))
      start := by
  intro p rests
  obtain ⟨lo, starting⟩ : ∃ lo, Where (Starting h s lo) { p with received := fun _ => [] } := by
    by_cases clean : Clean p
    · obtain ⟨lo, le, kept⟩ := rests clean
      exact ⟨lo, fun _ => ⟨le, kept, rfl⟩⟩
    · exact ⟨0, fun still => absurd still clean⟩
  unfold start primeBucketWatermarks
  rw [wp_bind, wp_modify]
  dsimp only
  rw [wp_bind]
  have constructs := wp_forEach_each (i := Where (Starting h s lo))
    (P := fun coin p => Where (fun p => Ready h s lo p coin) p) (r := Where (Resting h s))
    (d := Where (Resting h s))
    (fun coin (mem : coin ∈ coins) p start => wp_constructs faithful clock mem start) starting
  apply wp_mono constructs
  · rintro _ p' ⟨kept, ready, -⟩
    dsimp only
    rw [wp_bind, wp_modify]
    dsimp only
    have priming : Where (Priming h s lo) { p' with marks := fun _ => none } :=
      fun clean => ⟨(kept clean).lo_le, fun coin mem => ready coin mem clean, (kept clean).received⟩
    have primed := wp_forEach_each (i := Where (Priming h s lo))
      (P := fun coin p => p.marks coin = newestMark (p.tapes coin).disk) (r := Where (Resting h s))
      (d := Where (Resting h s))
      (fun coin (mem : coin ∈ coins) p start => wp_primeCoin faithful clock primes start) priming
    apply wp_mono primed
    · exact fun _ p' after clean => (after.1 clean).running faithful clean after.2.1
    · exact fun _ h => h
    · exact fun _ h => h
  · exact fun _ h => h
  · exact fun _ h => h

/- A stop. -/

/-- All that was received of a coin has landed or was dropped. -/
def Settled (p : Poller) (coin : String) : Prop :=
  ∀ e ∈ p.received coin, e.2 ∈ landedRows (p.tapes coin).trace ∨ e.2 ∈ p.dropped coin

theorem Settled.frame (settled : Settled p coin) (tapes : p'.tapes coin = p.tapes coin)
    (dropped : p'.dropped coin = p.dropped coin) (received : p'.received coin = p.received coin) :
    Settled p' coin := by
  unfold Settled
  rw [tapes, dropped, received]
  exact settled

/-- Some writers have been closed and the others not yet. -/
structure Closing (h : Host) (s : Service) (lo : Int) (closed rest : List String) (p : Poller) : Prop where
  lo_le : lo ≤ edge h s p.asked
  closed : ∀ coin ∈ closed, Rests h s lo p coin ∧ Settled p coin
  rest : ∀ coin ∈ rest, Lives h s lo p coin

theorem wp_close_next (faithful : s.Faithful h) (clock : Monotone h.world.clock)
    {closed rest : List String} (split : closed ++ coin :: rest = coins)
    (start : Where (Closing h s lo closed (coin :: rest)) p) :
    wp h (writing coin [] close)
      ⟨fun _ => Where (Closing h s lo (closed ++ [coin]) rest), Where (Resting h s), Where (Resting h s)⟩
      p := by
  have nodup : (closed ++ coin :: rest).Nodup := by
    rw [split]
    decide
  have mem : coin ∈ coins := by
    rw [← split]
    simp
  have apart_closed : ∀ other ∈ closed, other ≠ coin := by
    rintro other inside rfl
    exact (List.nodup_append.mp nodup).2.2 other inside other List.mem_cons_self rfl
  have apart_rest : ∀ other ∈ rest, other ≠ coin := by
    rintro other inside rfl
    exact (List.nodup_cons.mp (List.nodup_append.mp nodup).2.1).1 inside
  have moves := moves_close (p.entry coin) (.refl (a := p.entry coin)) (w := settings h.world)
  have spec : Clean p → wp (settings h.world) close
      ⟨fun _ t => Reached (p.entry coin) t ∧ Carried (settings h.world) (Done (p.entry coin))
          (p.entry coin).asked (landedRows (p.entry coin).trace) (p.entry coin).mem.buffer t ∧
          t.mem.buffer = [],
        fun _ => False,
        fun t => Reached (p.entry coin) t ∧ Stranded (settings h.world) (Done (p.entry coin))
          (p.entry coin).asked (landedRows (p.entry coin).trace) (p.entry coin).mem.buffer
          (p.entry coin).mem.buffer t⟩ (p.entry coin) := by
    intro clean
    have alive := (((start clean).rest coin List.mem_cons_self).alive).asked (n := p.asked)
    apply wp_mono (wp_both (wp_close alive.held alive.writable alive.calm) moves)
    · exact fun _ t both => both.symm
    · exact fun _ both => both.1
    · exact fun t both => both.symm
  apply wp_mono (wp_call mem (fun t₀ => moves_close) spec)
  · rintro _ p' after clean
    obtain ⟨before, t, ⟨reached, carried, empty⟩, rfl⟩ := after clean
    obtain ⟨lo_le, done, lives⟩ := start before
    have live := lives coin List.mem_cons_self
    have alive := live.alive.asked (n := p.asked)
    have loses := loses_left (h := h) (p := p) coin [] t
    have elsewhere := elsewhere_left (h := h) (p := p) coin [] carried.since
    have stranded := carried.stranded (by simp [empty])
    refine ⟨lo_le.trans (edge_mono faithful clock elsewhere.asked), ?_, ?_⟩
    · intro other inside
      rcases List.mem_append.mp inside with old | new
      · have apart := apart_closed other old
        obtain ⟨rests, settled⟩ := done other old
        exact ⟨rests.frame clock elsewhere.asked (elsewhere.tapes other apart) (elsewhere.dropped other apart),
          settled.frame (elsewhere.tapes other apart) (elsewhere.dropped other apart) rfl⟩
      · obtain rfl := List.mem_singleton.mp new
        constructor
        · unfold Rests
          rw [left_tapes]
          exact (alive.closes reached stranded loses).later (fun _ d => d) (fun _ d => d)
            (clock carried.since)
        · intro e there
          have all : Carried (settings h.world) (Done (p.entry other)) (p.entry other).asked
              (landedRows (p.entry other).trace) ((p.entry other).mem.buffer ++ []) t := by
            rw [List.append_nil]
            exact carried
          have accounted := loses.accounted rfl all (.inl (live.received e there))
          rw [left_tapes]
          rcases accounted with landed | buffered | gone
          · exact .inl landed
          · rw [empty] at buffered
            cases buffered
          · exact .inr gone
    · intro other inside
      have apart := apart_rest other inside
      exact (lives other (List.mem_cons_of_mem coin inside)).frame clock elsewhere.asked
        (elsewhere.tapes other apart) (elsewhere.dropped other apart) rfl rfl
  · exact fun p' raised clean => (raised clean).2.choose_spec.1.elim
  · intro p' died clean
    obtain ⟨before, t, ⟨reached, stranded⟩, rfl⟩ := died clean
    obtain ⟨lo_le, done, lives⟩ := start before
    have alive := (lives coin List.mem_cons_self).alive.asked (n := p.asked)
    have loses := loses_left (h := h) (p := p) coin [] t
    have elsewhere := elsewhere_left (h := h) (p := p) coin [] stranded.since
    refine ⟨lo, lo_le.trans (edge_mono faithful clock elsewhere.asked), ?_⟩
    intro other inside
    by_cases here : other = coin
    · subst here
      unfold Rests
      rw [left_tapes]
      exact (alive.closes reached stranded loses).later (fun _ d => d) (fun _ d => d)
        (clock stranded.since)
    · rw [← split] at inside
      have rests : Rests h s lo p other := by
        rcases List.mem_append.mp inside with old | new
        · exact (done other old).1
        · exact (lives other new).alive.toKept
      exact rests.frame clock elsewhere.asked (elsewhere.tapes other here) (elsewhere.dropped other here)

theorem wp_closes (faithful : s.Faithful h) (clock : Monotone h.world.clock) (rest closed : List String)
    (split : closed ++ rest = coins) (p : Poller) (start : Where (Closing h s lo closed rest) p) :
    wp h (forEach rest fun coin => writing coin [] close)
      ⟨fun _ => Where (Closing h s lo coins []), Where (Resting h s), Where (Resting h s)⟩ p := by
  induction rest generalizing closed p with
  | nil =>
    obtain rfl : closed = coins := by simpa using split
    exact start
  | cons coin rest ih =>
    unfold forEach
    rw [wp_bind]
    apply wp_mono (wp_close_next faithful clock split start)
    · intro _ p' closing
      exact ih (closed ++ [coin]) (by simpa using split) p' closing
    · exact fun _ h => h
    · exact fun _ h => h

theorem stop_leads (faithful : s.Faithful h) (clock : Monotone h.world.clock) :
    Leads h (Where (Running h s)) (Where fun p => Resting h s p ∧ ∀ coin ∈ coins, Settled p coin)
      (Where (Resting h s)) (Where (Resting h s)) stop := by
  intro p running
  obtain ⟨lo, closing⟩ : ∃ lo, Where (Closing h s lo [] coins) p := by
    by_cases clean : Clean p
    · obtain ⟨lo, living⟩ := running clean
      exact ⟨lo, fun _ => ⟨living.lo_le, by simp, living.lives⟩⟩
    · exact ⟨0, fun still => absurd still clean⟩
  apply wp_mono (wp_closes faithful clock coins [] rfl p closing)
  · intro _ p' after clean
    obtain ⟨lo_le, done, -⟩ := after clean
    exact ⟨⟨lo, lo_le, fun coin mem => (done coin mem).1⟩, fun coin mem => (done coin mem).2⟩
  · exact fun _ h => h
  · exact fun _ h => h

end

end Coinalyze
