import Zcrypto.Capture.LadderBounds

/- A pair that stays out of sync is reconnected, however often that has been done before: each visit past
   the time it waits for leaves less of the ladder. -/
namespace DesyncRecovery
open Function

/-- The desync of a pair was told to the ladder. -/
def Noted (record : Option PairState) : Prop := ∃ state d, record = some state ∧ state.desyncedAt = some d

/-- What is left of the ladder before its reconnect. -/
def rungs (s : Schedule) : Option PairState → Nat
  | none => 0
  | some state => if state.escalatedAt.isSome then s.backoff.length + 1 else s.backoff.length - state.attempts

/-- When a visit has something to do. -/
def ripe (s : Schedule) (state : PairState) (d : Int) : Int :=
  match state.escalatedAt with
  | some e => e + s.cooldown
  | none => state.lastAttemptAt.getD d + wait s state.attempts

section
variable {s : Schedule} {clock now d : Int} {state state' : PairState} {l l' : Lane}

theorem Armed.rungs (armed : Armed s now state state') :
    state' = state ∨ rungs s (some state') < rungs s (some state) := by
  cases armed with
  | kept _ => exact .inl rfl
  | again spent _ =>
    right
    simp only [DesyncRecovery.rungs, spent, rearm, Option.isSome_some, Option.isSome_none, if_true,
      Bool.false_eq_true, if_false]
    omega

theorem rungs_retry (free : state.escalatedAt = none) (act : verdict s now state d = .retry) :
    rungs s (noteAttempt now (some state)) < rungs s (some state) := by
  have few : state.attempts < s.backoff.length := by
    unfold verdict at act
    split at act
    · cases act
    · split at act
      · cases act
      · omega
  simp only [rungs, noteAttempt, Option.map_some, free, Option.isSome_none, Bool.false_eq_true, if_false]
  omega

/-- An attempt leaves less of the ladder, whether or not its cooldown has ended first. -/
theorem Armed.retry (armed : Armed s now state state') (act : verdict s now state' d = .retry) :
    DesyncRecovery.rungs s (noteAttempt now (some state')) < DesyncRecovery.rungs s (some state) := by
  have fewer := rungs_retry armed.free act
  rcases armed.rungs with rfl | less
  · exact fewer
  · exact fewer.trans less

theorem verdict_ripe (free : state.escalatedAt = none) (le : ripe s state d ≤ now) :
    verdict s now state d = .retry ∨ verdict s now state d = .reconnect := by
  have waited : ¬ now - state.lastAttemptAt.getD d < wait s state.attempts := by
    simp only [ripe, free] at le
    omega
  unfold verdict
  rw [if_neg waited]
  split
  · exact .inr rfl
  · exact .inl rfl

theorem noted_due {record : Option PairState} (noted : Noted record) (s : Schedule) (now : Int) :
    Noted (due s now record).2 := by
  obtain ⟨state, d, rfl, since⟩ := noted
  rcases due_cases s now state with ⟨quiet, -⟩ | ⟨d', state', since', armed, judged⟩
  · rw [quiet]
    exact ⟨state, d, rfl, since⟩
  · rw [judged]
    exact ⟨state', d', rfl, armed.since since'⟩

theorem noted_noteDesync (s : Schedule) (t : Int) (record : Option PairState) :
    Noted (some (noteDesync s t record)) := by
  cases record with
  | none => exact ⟨_, t, rfl, rfl⟩
  | some state =>
    cases since : state.desyncedAt with
    | none => exact ⟨_, t, by simp only [noteDesync, since]; rfl, rfl⟩
    | some d => exact ⟨state, d, by simp [noteDesync, since], since⟩

/-- While a pair stays out of sync, its desync stays noted. -/
theorem rise_noted (noted : Noted l.record) (rise : Rise s clock now l l') (stays : l'.desynced = true) :
    Noted l'.record := by
  cases rise with
  | desyncs => exact noted
  | noted =>
    obtain ⟨state, d, rfl, since⟩ := noted
    exact ⟨state, d, by simp [noteDesync, since], since⟩
  | lost => exact noted
  | heals => cases stays
  | cleared => cases stays
  | held => exact noted_due noted s now
  | retries act =>
    obtain ⟨state, d, recorded, since⟩ := noted_due noted s now
    dsimp only at recorded ⊢
    rw [recorded]
    exact ⟨_, d, rfl, since⟩
  | reconnects act =>
    obtain ⟨state, d, recorded, since⟩ := noted_due noted s now
    dsimp only at recorded ⊢
    rw [recorded]
    exact ⟨_, d, rfl, since⟩

/-- While a pair stays out of sync, what is left of its ladder only shrinks. -/
theorem rise_rungs (noted : Noted l.record) (rise : Rise s clock now l l') (stays : l'.desynced = true) :
    (∃ t, l'.log = .reconnected t :: l.log) ∨ l'.record = l.record ∨
      rungs s l'.record < rungs s l.record := by
  obtain ⟨state, d, recorded, since⟩ := noted
  cases rise with
  | desyncs => exact .inr (.inl rfl)
  | noted =>
    obtain rfl := recorded
    exact .inr (.inl (by simp [noteDesync, since]))
  | lost => exact .inr (.inl rfl)
  | heals => cases stays
  | cleared => cases stays
  | held =>
    obtain rfl := recorded
    rcases due_cases s now state with ⟨quiet, -⟩ | ⟨d', state', since', armed, judged⟩
    · rw [quiet]
      exact .inr (.inl rfl)
    · rw [judged]
      rcases armed.rungs with rfl | less
      · exact .inr (.inl rfl)
      · exact .inr (.inr less)
  | retries act =>
    obtain rfl := recorded
    rcases due_cases s now state with ⟨quiet, -⟩ | ⟨d', state', since', armed, judged⟩
    · rw [quiet] at act
      cases act
    · rw [judged] at act ⊢
      exact .inr (.inr (armed.retry act))
  | reconnects act => exact .inl ⟨now, rfl⟩

end

section
variable {s : Schedule} {books : List String} {sys : System} {p : String} {state : PairState} {d : Int}
  {rest : List String}

/-- A visit whose time has come. -/
theorem visit_rungs (s : Schedule) (books : List String) (recorded : sys.records p = some state)
    (since : state.desyncedAt = some d)
    (desynced : sys.desynced p = true) (connected : sys.connected = true) (alive : sys.consumer ≠ .ended)
    (next : sys.pending = p :: rest) (due : ripe s state d ≤ sys.now) :
    (∃ t, (sys.step s books .visit).log p = .reconnected t :: sys.log p) ∨
      (Noted ((sys.step s books .visit).records p) ∧
        rungs s ((sys.step s books .visit).records p) < rungs s (sys.records p)) := by
  have step : sys.step s books .visit = { sys.visitPair s p with pending := rest } := by
    simp only [System.step, next]
    exact if_pos alive
  rw [step]
  rcases due_cases s sys.now state with ⟨-, idle | ⟨e, escalated, early⟩⟩ | ⟨d', state', since', armed, judged⟩
  · cases idle.symm.trans since
  · simp only [ripe, escalated] at due
    omega
  · obtain rfl := Option.some.inj (since.symm.trans since')
    cases act : verdict s sys.now state' d with
    | none =>
      right
      rw [act] at judged
      simp only [System.visitPair, desynced, recorded, judged, Bool.not_true, Bool.false_eq_true, if_false,
        System.recorded, update_self]
      refine ⟨⟨state', d, rfl, armed.since since⟩, ?_⟩
      rcases armed.rungs with rfl | less
      · rcases verdict_ripe armed.free due with retry | reconnect
        · cases act.symm.trans retry
        · cases act.symm.trans reconnect
      · exact less
    | retry =>
      right
      rw [act] at judged
      simp only [System.visitPair, desynced, recorded, judged, connected, Bool.not_true, Bool.false_eq_true,
        if_false, System.recorded, System.marked, update_self]
      exact ⟨⟨_, d, rfl, armed.since since⟩, armed.retry act⟩
    | reconnect =>
      left
      rw [act] at judged
      refine ⟨sys.now, ?_⟩
      simp [System.visitPair, desynced, recorded, judged, connected, System.recorded, System.marked]

end

/-- A pair that is out of sync is one of the host's, and the ladder knows of it once the handler is back. -/
structure Told (books : List String) (sys : System) (p : String) : Prop where
  mem : sys.desynced p = true → p ∈ books
  noted : sys.desynced p = true → sys.consumer = .listening → Noted (sys.records p)
  other : sys.desynced p = true → ∀ q t, sys.consumer = .awaiting q t → q ≠ p → Noted (sys.records p)

section
variable {s : Schedule} {books : List String} {sys : System} {p : String}

theorem noted_step (noted : Noted (sys.records p)) (e : Event)
    (stays : (sys.step s books e).desynced p = true) : Noted ((sys.step s books e).records p) := by
  rcases lane_step s books sys p e with same | rise
  · have record : (sys.step s books e).records p = sys.records p := congrArg Lane.record same
    rw [record]
    exact noted
  · exact rise_noted (l := sys.lane p) noted rise stays

theorem told_handled (h : Told books sys p) (listening : sys.consumer = .listening) (pair : String)
    (mem : pair ∈ books) (inSync : Bool) : Told books (sys.handleBookMessage s pair inSync) p := by
  by_cases same : pair = p
  · subst same
    cases was : sys.desynced pair <;> cases inSync
    · refine ⟨fun _ => mem, ?_, ?_⟩
      · simp [System.handleBookMessage, was]
      · simp only [System.handleBookMessage, was, Bool.not_false, if_true]
        rintro - q t ⟨⟩ apart
        exact absurd rfl apart
    · exact ⟨fun _ => mem, by simp [System.handleBookMessage, was], by simp [System.handleBookMessage, was]⟩
    · refine ⟨fun _ => mem, fun _ _ => ?_, ?_⟩
      · have noted := h.noted was listening
        simpa [System.handleBookMessage, was] using noted
      · simp [System.handleBookMessage, was, listening]
    · refine ⟨fun _ => mem, ?_, ?_⟩
      · simp [System.handleBookMessage, System.recorded, System.marked, was]
      · simp [System.handleBookMessage, System.recorded, System.marked, was]
  · have other : p ≠ pair := fun eq => same eq.symm
    have kept : (sys.handleBookMessage s pair inSync).desynced p = sys.desynced p ∧
        (sys.handleBookMessage s pair inSync).records p = sys.records p := by
      cases was : sys.desynced pair <;> cases inSync <;>
        simp [System.handleBookMessage, System.recorded, System.marked, was, other]
    refine ⟨?_, ?_, ?_⟩
    · rw [kept.1]
      exact h.mem
    · rw [kept.1, kept.2]
      exact fun desynced _ => h.noted desynced listening
    · rw [kept.1, kept.2]
      exact fun desynced _ _ _ _ => h.noted desynced listening

theorem told_step (h : Told books sys p) (e : Event) : Told books (sys.step s books e) p := by
  cases e with
  | message pair inSync elapsed =>
    simp only [System.step]
    split
    · rename_i possible
      have told : Told books { sys with clock := sys.clock + elapsed } p := ⟨h.mem, h.noted, h.other⟩
      exact told_handled told possible.1 pair possible.2 inSync
    · exact h
  | returns =>
    simp only [System.step]
    split
    · rename_i q t awaiting
      refine ⟨h.mem, fun desynced _ => ?_, by simp⟩
      by_cases same : q = p
      · subst same
        simpa [System.recorded] using noted_noteDesync s t (sys.records q)
      · have other : p ≠ q := fun eq => same eq.symm
        have noted := h.other desynced q t awaiting same
        simpa [System.recorded, other] using noted
    · exact h
  | raises =>
    simp only [System.step]
    split
    · exact h
    · exact ⟨h.mem, by simp, by simp⟩
  | ends => exact ⟨h.mem, by simp [System.step], by simp [System.step]⟩
  | connection up => exact ⟨h.mem, h.noted, h.other⟩
  | sweep elapsed =>
    simp only [System.step]
    split <;> exact ⟨h.mem, h.noted, h.other⟩
  | visit =>
    have kept : (sys.step s books .visit).desynced = sys.desynced ∧
        (sys.step s books .visit).consumer = sys.consumer := by
      simp only [System.step]
      split
      · split
        · exact ⟨(visitPair_frame s sys _).2.2.2.1, (visitPair_frame s sys _).2.2.1⟩
        · exact ⟨rfl, rfl⟩
      · exact ⟨rfl, rfl⟩
    refine ⟨?_, fun desynced listening => ?_, fun desynced q t awaiting other => ?_⟩
    · rw [kept.1]
      exact h.mem
    · have noted := h.noted (kept.1 ▸ desynced) (kept.2 ▸ listening)
      exact noted_step noted .visit desynced
    · have noted := h.other (kept.1 ▸ desynced) q t (kept.2 ▸ awaiting) other
      exact noted_step noted .visit desynced

/-- A pair leaves the rest of a sweep by its own visit. -/
theorem pending_step {e : Event} (mem : p ∈ sys.pending) (gone : p ∉ (sys.step s books e).pending) :
    e = .visit ∧ sys.consumer ≠ .ended ∧ ∃ rest, sys.pending = p :: rest := by
  cases e with
  | message pair inSync elapsed =>
    refine absurd mem ?_
    simp only [System.step] at gone
    split at gone
    · cases was : sys.desynced pair <;> cases inSync <;>
        simpa [System.handleBookMessage, System.marked, System.recorded, was] using gone
    · exact gone
  | returns =>
    simp only [System.step] at gone
    split at gone <;> exact absurd mem gone
  | raises =>
    simp only [System.step] at gone
    split at gone <;> exact absurd mem gone
  | ends => exact absurd mem gone
  | connection up => exact absurd mem gone
  | sweep elapsed =>
    simp only [System.step] at gone
    split at gone
    · rename_i possible
      rw [possible.2] at mem
      cases mem
    · exact absurd mem gone
  | visit =>
    simp only [System.step] at gone
    split at gone
    · rename_i pair rest pending
      rw [pending] at mem
      split at gone
      · rename_i alive
        rcases List.mem_cons.mp mem with rfl | later
        · exact ⟨rfl, alive, rest, pending⟩
        · exact absurd later gone
      · rw [pending] at gone
        exact absurd mem gone
    · exact absurd mem gone

theorem ended_step (ended : sys.consumer = .ended) (e : Event) : (sys.step s books e).consumer = .ended := by
  cases e with
  | message pair inSync elapsed => simp [System.step, ended]
  | returns => simp [System.step, ended]
  | raises => simp [System.step, ended]
  | ends => rfl
  | connection up => exact ended
  | sweep elapsed => simp [System.step, ended]
  | visit =>
    simp only [System.step, ended, ne_eq, not_true, if_false]
    split <;> exact ended

end

/-- What holds at one instant and not at a later one stops holding in between. -/
theorem holds_or_leaves {P : ℕ → Prop} {m k : ℕ} (le : m ≤ k) (start : P m) :
    P k ∨ ∃ i, m ≤ i ∧ P i ∧ ¬ P (i + 1) := by
  induction k, le using Nat.le_induction with
  | base => exact .inl start
  | succ k le ih =>
    rcases ih with holds | leaves
    · by_cases next : P (k + 1)
      · exact .inl next
      · exact .inr ⟨k, le, holds, next⟩
    · exact .inr leaves

/-- A run from a host whose books are all in sync. -/
structure Run where
  books : List String
  connected : Bool
  clock : Int
  events : ℕ → Event

namespace Run
variable (s : Schedule) (run : Run)

def after (n : ℕ) : System := (System.start run.connected run.clock).after s run.books run.events n

/-- Sweeps begin again and again, at instants without bound. -/
def Ticks : Prop := ∀ (t : Int) (m : ℕ), ∃ k ≥ m, ∃ elapsed, run.events k = .sweep elapsed ∧
  (run.after s k).consumer ≠ .ended ∧ (run.after s k).pending = [] ∧ t ≤ (run.after s k).clock + elapsed

/-- A call of the handler comes back, or its raise ends the daemon. -/
def Settles : Prop := ∀ m, ∃ k ≥ m, (run.after s k).consumer = .listening ∨ (run.after s k).consumer = .ended

/-- A pair that is out of sync from an instant on, with its host connected. -/
def Stuck (p : String) (n : ℕ) : Prop :=
  ∀ m ≥ n, (run.after s m).desynced p = true ∧ (run.after s m).connected = true

/-- A reconnect is forced for a pair. -/
def Reconnects (p : String) (m : ℕ) : Prop :=
  ∃ t, (run.after s (m + 1)).log p = .reconnected t :: (run.after s m).log p

variable {s : Schedule} {run : Run} {p : String} {n : ℕ}

theorem sound (s : Schedule) (run : Run) (n : ℕ) : Sound s (run.after s n) := sound_after run.connected run.clock run.events n

theorem told (p : String) (n : ℕ) : Told run.books (run.after s n) p := by
  induction n with
  | zero => exact ⟨by rintro ⟨⟩, by rintro ⟨⟩, by rintro ⟨⟩⟩
  | succ n ih => exact told_step ih (run.events n)

theorem now_mono {m k : ℕ} (le : m ≤ k) : (run.after s m).now ≤ (run.after s k).now := by
  induction k, le using Nat.le_induction with
  | base => exact Int.le_refl _
  | succ k le ih => exact ih.trans (step_times s run.books _ (run.events k) (sound s run k).now).2.1

theorem stays_ended {m k : ℕ} (le : m ≤ k) (ended : (run.after s m).consumer = .ended) :
    (run.after s k).consumer = .ended := by
  induction k, le using Nat.le_induction with
  | base => exact ended
  | succ k le ih => exact ended_step ih (run.events k)

/-- Each pair of a host is visited again and again, by sweeps of instants without bound. -/
theorem visits (ticks : run.Ticks s) (mem : p ∈ run.books) (t : Int) (m : ℕ) :
    ∃ k ≥ m, run.events k = .visit ∧ (run.after s k).consumer ≠ .ended ∧
      (∃ rest, (run.after s k).pending = p :: rest) ∧ t ≤ (run.after s k).now := by
  obtain ⟨k, le, elapsed, sweep, alive, empty, late⟩ := ticks t m
  have swept : run.after s (k + 1) = { run.after s k with
      clock := (run.after s k).clock + elapsed, now := (run.after s k).clock + elapsed,
      pending := run.books } := by
    show System.step s run.books (run.after s k) (run.events k) = _
    rw [sweep]
    exact if_pos ⟨alive, empty⟩
  have there : p ∈ (run.after s (k + 1)).pending := by
    rw [swept]
    exact mem
  have read : t ≤ (run.after s (k + 1)).now := by
    rw [swept]
    exact late
  obtain ⟨k', le', _, _, _, empty', _⟩ := ticks t (k + 1)
  rcases holds_or_leaves (P := fun i => p ∈ (run.after s i).pending) le' there with holds | leaves
  · rw [empty'] at holds
    cases holds
  · obtain ⟨i, from', here, gone⟩ := leaves
    obtain ⟨visit, alive, next⟩ := pending_step here gone
    exact ⟨i, by omega, visit, alive, next, read.trans (now_mono from')⟩

/-- A stuck pair's desync is noted in time, if the host goes on. -/
theorem noted (ticks : run.Ticks s) (settles : run.Settles s) (stuck : run.Stuck s p n) :
    ∃ m ≥ n, Noted ((run.after s m).records p) := by
  obtain ⟨k, le, listening | ended⟩ := settles n
  · exact ⟨k, le, (told p k).noted (stuck k le).1 listening⟩
  · obtain ⟨j, le', _, _, alive, _⟩ := ticks 0 k
    exact absurd (stays_ended le' ended) alive

/-- The less is left of its ladder, the sooner a stuck pair is reconnected. -/
theorem reaches (ticks : run.Ticks s) (stuck : run.Stuck s p n) {left m : ℕ} (le : n ≤ m)
    (noted : Noted ((run.after s m).records p)) (few : rungs s ((run.after s m).records p) ≤ left) :
    ∃ k ≥ n, run.Reconnects s p k := by
  induction left using Nat.strong_induction_on generalizing m with
  | _ left ih =>
    obtain ⟨state, d, recorded, since⟩ := noted
    obtain ⟨j, le', visit, alive, ⟨rest, next⟩, late⟩ :=
      visits ticks ((told p m).mem (stuck m le).1) (ripe s state d) m
    rcases holds_or_leaves (P := fun i => (run.after s i).records p = some state) le' recorded with
      same | ⟨i, from', same, changed⟩
    · -- the visit finds the pair as it was
      obtain ⟨desynced, connected⟩ := stuck j (le.trans le')
      have acts := visit_rungs s run.books same since desynced connected alive next late
      have step : run.after s (j + 1) = (run.after s j).step s run.books .visit := by
        rw [← visit]
        rfl
      rw [← step] at acts
      rcases acts with reconnects | ⟨noted, less⟩
      · exact ⟨j, le.trans le', reconnects⟩
      · rw [same, ← recorded] at less
        exact ih _ (less.trans_le few) (by omega) noted (Nat.le_refl _)
    · -- another visit came before it
      have noted : Noted ((run.after s i).records p) := ⟨state, d, same, since⟩
      have stays := (stuck (i + 1) (by omega)).1
      have later : Noted ((run.after s (i + 1)).records p) := noted_step noted (run.events i) stays
      rcases lane_step s run.books (run.after s i) p (run.events i) with
        still | rise
      · have record : (run.after s (i + 1)).records p = (run.after s i).records p :=
          congrArg Lane.record still
        exact absurd (record.trans same) changed
      · rcases rise_rungs (l := (run.after s i).lane p) noted rise stays with reconnects | record | less
        · exact ⟨i, le.trans from', reconnects⟩
        · exact absurd (record.trans same) changed
        · have less : rungs s ((run.after s (i + 1)).records p) < rungs s ((run.after s i).records p) := less
          rw [same, ← recorded] at less
          exact ih _ (less.trans_le few) (by omega) later (Nat.le_refl _)

/-- What is done for a pair keeps its distances in every run, and a pair that stays stuck is reconnected. -/
theorem ladder_bounded (s : Schedule) (run : Run) (p : String) :
    (∀ n, Apart s ((run.after s n).log p) ∧ Bounded s ((run.after s n).log p) ∧
      Paced s ((run.after s n).log p)) ∧
    (run.Ticks s → run.Settles s → ∀ n, run.Stuck s p n → ∃ m ≥ n, run.Reconnects s p m) := by
  constructor
  · intro n
    have ladder := (sound s run n).ladder p
    exact ⟨ladder.apart, ladder.bounded, ladder.paced⟩
  · intro ticks settles n stuck
    obtain ⟨m, le, noted⟩ := noted ticks settles stuck
    exact reaches ticks stuck le noted (Nat.le_refl _)

/-- A host whose one pair goes out of sync and is swept every five seconds from then on. -/
def stuckRun : Run where
  books := ["BTC/EUR"]
  connected := true
  clock := 0
  events
    | 0 => .message "BTC/EUR" false 0
    | 1 => .returns
    | n + 2 => if n % 2 = 0 then .sweep 5000000 else .visit

theorem stuckRun_after (n : ℕ) : let sys := stuckRun.after .default (n + 2)
    sys.desynced "BTC/EUR" = true ∧ sys.connected = true ∧ sys.consumer = .listening ∧
      5000000 * (n + n % 2 : Int) ≤ 2 * sys.clock ∧ sys.pending = if n % 2 = 0 then [] else ["BTC/EUR"] := by
  induction n with
  | zero => decide +kernel
  | succ n ih =>
    obtain ⟨desynced, connected, listening, late, pending⟩ := ih
    have step : stuckRun.after .default (n + 1 + 2) = (stuckRun.after .default (n + 2)).step .default
        ["BTC/EUR"] (if n % 2 = 0 then .sweep 5000000 else .visit) := rfl
    dsimp only
    rw [step]
    by_cases even : n % 2 = 0
    · have odd : (n + 1) % 2 ≠ 0 := by omega
      rw [if_pos even] at pending
      simp only [even, odd, if_true, if_false, System.step, listening, pending, ne_eq, reduceCtorEq,
        not_false_eq_true, and_self]
      exact ⟨desynced, connected, trivial, by push_cast; omega, trivial⟩
    · have next : (n + 1) % 2 = 0 := by omega
      rw [if_neg even] at pending
      obtain ⟨clock, -, consumer, books, client⟩ := visitPair_frame .default
        (stuckRun.after .default (n + 2)) "BTC/EUR"
      simp only [even, next, if_true, if_false, System.step, listening, pending, ne_eq, reduceCtorEq,
        not_false_eq_true, clock, consumer, books, client]
      exact ⟨desynced, connected, trivial, by push_cast; omega, trivial⟩

theorem ladder_bounded_stuck : ∃ m ≥ 2, stuckRun.Reconnects .default "BTC/EUR" m := by
  have bounded := ladder_bounded .default stuckRun "BTC/EUR"
  apply bounded.2
  · intro t m
    obtain ⟨n, even, far⟩ : ∃ n, n % 2 = 0 ∧ n ≥ 2 * (m + t.toNat) := ⟨2 * (m + t.toNat), by omega, Nat.le_refl _⟩
    obtain ⟨-, -, listening, late, pending⟩ := stuckRun_after n
    refine ⟨n + 2, by omega, 5000000, if_pos even, ?_, ?_, ?_⟩
    · rw [listening]
      simp
    · rw [pending, if_pos even]
    · omega
  · intro m
    exact ⟨m + 2, by omega, .inl (stuckRun_after m).2.2.1⟩
  · intro m le
    obtain ⟨k, rfl⟩ := Nat.exists_eq_add_of_le' le
    exact ⟨(stuckRun_after k).1, (stuckRun_after k).2.1⟩

end Run
end DesyncRecovery
