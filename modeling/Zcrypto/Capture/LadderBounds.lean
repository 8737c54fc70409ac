import Mathlib.Algebra.Order.Ring.Int
import Zcrypto.Capture.DesyncLadder

/- What is done for one pair, seen from its own log: reconnects lie a cooldown apart, retries in a row are
   no more than the schedule has, and each waits for what was done before it. -/
namespace DesyncRecovery
open Function

/-- The retries since anything else. -/
def streak : List Mark → Nat
  | .retried _ :: older => streak older + 1
  | _ => 0

def reconnects (log : List Mark) : List Int :=
  log.filterMap fun
    | .reconnected t => some t
    | _ => none

/-- When something may be done for a pair again, the newest mark first. -/
def earliest (s : Schedule) : List Mark → Option Int
  | .desynced t :: _ => some (t + s.grace)
  | .retried t :: older => some (t + wait s (streak older + 1))
  | .reconnected t :: _ => some (t + s.cooldown)
  | _ => none

def Apart (s : Schedule) (log : List Mark) : Prop :=
  (reconnects log).Pairwise fun later earlier => earlier + s.cooldown ≤ later

/-- Retries with nothing else between them are no more than the backoffs. -/
def Bounded (s : Schedule) (log : List Mark) : Prop :=
  ∀ block, block <:+: log → (∀ m ∈ block, ∃ t, m = .retried t) → block.length ≤ s.backoff.length

/-- A retry and a reconnect wait out what the mark before them asks for. -/
def Paced (s : Schedule) : List Mark → Prop
  | .retried t :: older => (∃ e, earliest s older = some e ∧ e ≤ t) ∧ Paced s older
  | .reconnected t :: older => (∃ e, earliest s older = some e ∧ e ≤ t) ∧ Paced s older
  | _ :: older => Paced s older
  | [] => True

/-- What the system holds of one pair. -/
structure Lane where
  record : Option PairState
  desynced : Bool
  waiting : Option Int
  log : List Mark

def Consumer.waiting (pair : String) : Consumer → Option Int
  | .awaiting q since => if q = pair then some since else none
  | _ => none

def System.lane (sys : System) (pair : String) : Lane :=
  ⟨sys.records pair, sys.desynced pair, sys.consumer.waiting pair, sys.log pair⟩

/-- What a step does to one pair, `clock` being the clock after it and `now` the loop's reading. -/
inductive Rise (s : Schedule) (clock now : Int) : Lane → Lane → Prop where
  | desyncs {r log} : Rise s clock now ⟨r, false, none, log⟩ ⟨r, true, some clock, .desynced clock :: log⟩
  | noted {r d t log} : Rise s clock now ⟨r, d, some t, log⟩ ⟨some (noteDesync s t r), d, none, log⟩
  | lost {r d t log} : Rise s clock now ⟨r, d, some t, log⟩ ⟨r, d, none, log⟩
  | heals {r log} :
      Rise s clock now ⟨r, true, none, log⟩ ⟨noteRecovered s clock r, false, none, .recovered :: log⟩
  | cleared {r w log} : Rise s clock now ⟨r, false, w, log⟩ ⟨noteRecovered s now r, false, w, log⟩
  | held {r w log} : Rise s clock now ⟨r, true, w, log⟩ ⟨(due s now r).2, true, w, log⟩
  | retries {r w log} (act : (due s now r).1 = .retry) :
      Rise s clock now ⟨r, true, w, log⟩ ⟨noteAttempt now (due s now r).2, true, w, .retried now :: log⟩
  | reconnects {r w log} (act : (due s now r).1 = .reconnect) :
      Rise s clock now ⟨r, true, w, log⟩
        ⟨some (noteEscalated now (due s now r).2), true, w, .reconnected now :: log⟩

section
variable (s : Schedule) (books : List String) (sys : System) (p : String)

theorem lane_handleBookMessage (listening : sys.consumer = .listening) (pair : String) (inSync : Bool) :
    (sys.handleBookMessage s pair inSync).lane p = sys.lane p ∨
      Rise s sys.clock sys.now (sys.lane p) ((sys.handleBookMessage s pair inSync).lane p) := by
  by_cases same : pair = p
  · subst same
    cases was : sys.desynced pair <;> cases inSync
    · right
      simpa [System.lane, System.handleBookMessage, System.marked, Consumer.waiting, listening, was]
        using Rise.desyncs
    · left
      simp [System.lane, System.handleBookMessage, was]
    · left
      simp [System.lane, System.handleBookMessage, was]
    · right
      simpa [System.lane, System.handleBookMessage, System.marked, System.recorded, Consumer.waiting,
        listening, was] using Rise.heals
  · left
    have other : p ≠ pair := fun eq => same eq.symm
    cases was : sys.desynced pair <;> cases inSync <;>
      simp [System.lane, System.handleBookMessage, System.marked, System.recorded, Consumer.waiting,
        listening, was, same, other]

theorem lane_visitPair (pair : String) :
    (sys.visitPair s pair).lane p = sys.lane p ∨
      Rise s sys.clock sys.now (sys.lane p) ((sys.visitPair s pair).lane p) := by
  by_cases same : pair = p
  · subst same
    right
    unfold System.visitPair
    cases desynced : sys.desynced pair
    · simpa [System.lane, System.recorded, desynced] using Rise.cleared
    · cases verdict : (due s sys.now (sys.records pair)).1 <;> cases connected : sys.connected
      all_goals simp only [verdict, Bool.not_true, Bool.not_false, if_true, if_false, Bool.false_eq_true,
        System.lane, System.recorded, System.marked, update_self, desynced]
      · exact .held
      · exact .held
      · exact .held
      · exact .retries verdict
      · exact .held
      · exact .reconnects verdict
  · left
    have other : p ≠ pair := fun eq => same eq.symm
    unfold System.visitPair
    cases sys.desynced pair
    · simp [System.lane, System.recorded, other]
    · cases verdict : (due s sys.now (sys.records pair)).1 <;> cases sys.connected <;>
        simp [System.lane, System.recorded, System.marked, other, verdict]

/-- A pair's visit leaves the books, the handler, the client and the times alone. -/
theorem visitPair_frame (pair : String) : (sys.visitPair s pair).clock = sys.clock ∧
    (sys.visitPair s pair).now = sys.now ∧ (sys.visitPair s pair).consumer = sys.consumer ∧
    (sys.visitPair s pair).desynced = sys.desynced ∧
    (sys.visitPair s pair).connected = sys.connected := by
  unfold System.visitPair
  cases sys.desynced pair
  · exact ⟨rfl, rfl, rfl, rfl, rfl⟩
  · cases verdict : (due s sys.now (sys.records pair)).1 <;> cases connected : sys.connected <;>
      simp [verdict, connected, System.recorded, System.marked]

theorem lane_step (e : Event) : (sys.step s books e).lane p = sys.lane p ∨
    Rise s (sys.step s books e).clock sys.now (sys.lane p) ((sys.step s books e).lane p) := by
  have left : ∀ c : Consumer, c.waiting p = none →
      { sys with consumer := c }.lane p = sys.lane p ∨
        Rise s sys.clock sys.now (sys.lane p) ({ sys with consumer := c }.lane p) := by
    intro c quiet
    cases waiting : sys.consumer.waiting p with
    | none => exact .inl (by simp [System.lane, waiting, quiet])
    | some t =>
      right
      simpa [System.lane, waiting, quiet] using Rise.lost
  cases e with
  | message pair inSync elapsed =>
    simp only [System.step]
    split
    · rename_i possible
      have later := lane_handleBookMessage s { sys with clock := sys.clock + elapsed } p possible.1 pair inSync
      have clock : ({ sys with clock := sys.clock + elapsed }.handleBookMessage s pair inSync).clock =
          sys.clock + elapsed := by
        unfold System.handleBookMessage
        cases sys.desynced pair <;> cases inSync <;> rfl
      rw [clock]
      exact later
    · exact .inl rfl
  | returns =>
    simp only [System.step]
    cases consumer : sys.consumer with
    | awaiting pair since =>
      by_cases same : pair = p
      · subst same
        right
        simpa [System.lane, System.recorded, Consumer.waiting, consumer] using Rise.noted
      · left
        have other : p ≠ pair := fun eq => same eq.symm
        simp [System.lane, System.recorded, Consumer.waiting, consumer, same, other]
    | listening => exact .inl rfl
    | raised => exact .inl rfl
    | ended => exact .inl rfl
  | raises =>
    simp only [System.step]
    split
    · exact .inl rfl
    · exact left .raised rfl
  | ends => exact left .ended rfl
  | connection up => exact .inl rfl
  | sweep elapsed =>
    simp only [System.step]
    split <;> exact .inl rfl
  | visit =>
    simp only [System.step]
    split
    · rename_i pair rest _
      split
      · have clock : (sys.visitPair s pair).clock = sys.clock := (visitPair_frame s sys pair).1
        simpa [System.lane, clock] using lane_visitPair s sys p pair
      · exact .inl rfl
    · exact .inl rfl

theorem step_times (e : Event) (h : sys.now ≤ sys.clock) : sys.clock ≤ (sys.step s books e).clock ∧
    sys.now ≤ (sys.step s books e).now ∧ (sys.step s books e).now ≤ (sys.step s books e).clock := by
  have later : ∀ elapsed : ℕ, sys.clock ≤ sys.clock + elapsed := fun elapsed =>
    Int.le_add_of_nonneg_right (Int.natCast_nonneg elapsed)
  cases e with
  | message pair inSync elapsed =>
    simp only [System.step]
    split
    · unfold System.handleBookMessage
      cases sys.desynced pair <;> cases inSync <;>
        exact ⟨later elapsed, Int.le_refl _, Int.le_trans h (later elapsed)⟩
    · exact ⟨Int.le_refl _, Int.le_refl _, h⟩
  | returns =>
    simp only [System.step]
    split <;> exact ⟨Int.le_refl _, Int.le_refl _, h⟩
  | raises =>
    simp only [System.step]
    split <;> exact ⟨Int.le_refl _, Int.le_refl _, h⟩
  | ends => exact ⟨Int.le_refl _, Int.le_refl _, h⟩
  | connection up => exact ⟨Int.le_refl _, Int.le_refl _, h⟩
  | sweep elapsed =>
    simp only [System.step]
    split
    · exact ⟨later elapsed, Int.le_trans h (later elapsed), Int.le_refl _⟩
    · exact ⟨Int.le_refl _, Int.le_refl _, h⟩
  | visit =>
    simp only [System.step]
    split
    · rename_i pair rest _
      split
      · have frame := visitPair_frame s sys pair
        refine ⟨frame.1.ge, frame.2.1.ge, ?_⟩
        show (sys.visitPair s pair).now ≤ (sys.visitPair s pair).clock
        rw [frame.1, frame.2.1]
        exact h
      · exact ⟨Int.le_refl _, Int.le_refl _, h⟩
    · exact ⟨Int.le_refl _, Int.le_refl _, h⟩

end

/-- How a pair's record stands to its log while a desync seen at `d` is under way. -/
inductive Rung (s : Schedule) (now d : Int) : PairState → List Mark → Prop where
  | fresh {e older} : Rung s now d ⟨some d, none, 0, e⟩ (.desynced d :: older)
  | tried {t older} (few : streak older + 1 ≤ s.backoff.length) (since : d ≤ t) (past : t ≤ now) :
      Rung s now d ⟨some d, some t, streak older + 1, none⟩ (.retried t :: older)
  | escalated {l n t older} : Rung s now d ⟨some d, l, n, some t⟩ (.reconnected t :: older)
  | rearmed {t older} (cooled : t + s.cooldown ≤ now) :
      Rung s now d ⟨some d, none, 0, none⟩ (.reconnected t :: older)

/-- The state that a pair without an escalation in force is judged in. -/
inductive Armed (s : Schedule) (now : Int) (state : PairState) : PairState → Prop where
  | kept (free : state.escalatedAt = none) : Armed s now state state
  | again {e} (spent : state.escalatedAt = some e) (cooled : e + s.cooldown ≤ now) :
      Armed s now state (rearm state)

section
variable {s : Schedule} {now now' d : Int} {state state' : PairState} {log : List Mark}

theorem Armed.free (armed : Armed s now state state') : state'.escalatedAt = none := by
  cases armed with
  | kept free => exact free
  | again _ _ => rfl

theorem Armed.since (armed : Armed s now state state') (since : state.desyncedAt = some d) :
    state'.desyncedAt = some d := by
  cases armed with
  | kept _ => exact since
  | again _ _ => exact since

theorem due_cases (s : Schedule) (now : Int) (state : PairState) :
    (due s now (some state) = (.none, some state) ∧
      (state.desyncedAt = none ∨ ∃ e, state.escalatedAt = some e ∧ now < e + s.cooldown)) ∨
    ∃ d state', state.desyncedAt = some d ∧ Armed s now state state' ∧
      due s now (some state) = (verdict s now state' d, some state') := by
  obtain ⟨desyncedAt, last, n, escalatedAt⟩ := state
  cases desyncedAt with
  | none => exact .inl ⟨rfl, .inl rfl⟩
  | some d =>
    cases escalatedAt with
    | none => exact .inr ⟨d, _, rfl, .kept rfl, rfl⟩
    | some e =>
      by_cases cooling : now - e < s.cooldown
      · exact .inl ⟨if_pos cooling, .inr ⟨e, rfl, by omega⟩⟩
      · exact .inr ⟨d, _, rfl, .again rfl (by omega), if_neg cooling⟩

theorem Rung.later (rung : Rung s now d state log) (le : now ≤ now') : Rung s now' d state log := by
  cases rung with
  | fresh => exact .fresh
  | tried few since past => exact .tried few since (past.trans le)
  | escalated => exact .escalated
  | rearmed cooled => exact .rearmed (cooled.trans le)

theorem Rung.armed (rung : Rung s now d state log) (armed : Armed s now state state') :
    Rung s now d state' log := by
  cases armed with
  | kept _ => exact rung
  | again spent cooled =>
    cases rung with
    | fresh => exact .fresh
    | tried few since past => cases spent
    | escalated =>
      obtain rfl := Option.some.inj spent
      exact .rearmed cooled
    | rearmed cooled => exact .rearmed cooled

theorem Rung.attempts (rung : Rung s now d state log) (free : state.escalatedAt = none) :
    state.attempts = streak log := by
  cases rung with
  | fresh => rfl
  | tried _ _ _ => rfl
  | escalated => cases free
  | rearmed _ => rfl

/-- Nothing is done for a pair before its time. -/
theorem Rung.timely (rung : Rung s now d state log) (free : state.escalatedAt = none)
    (acts : verdict s now state d ≠ .none) : d ≤ now ∧ ∃ e, earliest s log = some e ∧ e ≤ now := by
  have waited : wait s state.attempts ≤ now - state.lastAttemptAt.getD d := by
    unfold verdict at acts
    split at acts
    · exact absurd rfl acts
    · exact Int.not_lt.mp ‹_›
  have grace := s.grace_nonneg
  cases rung with
  | fresh =>
    have waited : s.grace ≤ now - d := waited
    exact ⟨by omega, _, rfl, by omega⟩
  | tried few since past =>
    rename_i t older
    have waited : wait s (streak older + 1) ≤ now - t := waited
    exact ⟨since.trans past, _, rfl, by omega⟩
  | escalated => cases free
  | rearmed cooled =>
    have waited : s.grace ≤ now - d := waited
    exact ⟨by omega, _, rfl, cooled⟩

end

section
variable {s : Schedule} {log block older : List Mark} {m : Mark} {t : Int}

theorem streak_start (start : block <+: log) (retries : ∀ m ∈ block, ∃ t, m = .retried t) :
    block.length ≤ streak log := by
  induction block generalizing log with
  | nil => exact Nat.zero_le _
  | cons m rest ih =>
    obtain ⟨older, rfl⟩ := start
    obtain ⟨t, rfl⟩ := retries m List.mem_cons_self
    have rest := ih (List.prefix_append rest older) fun m mem => retries m (List.mem_cons_of_mem _ mem)
    exact Nat.succ_le_succ rest

theorem Bounded.cons (bounded : Bounded s log) (few : streak (m :: log) ≤ s.backoff.length) :
    Bounded s (m :: log) := by
  intro block inside retries
  rcases List.infix_cons_iff.mp inside with start | older
  · exact (streak_start start retries).trans few
  · exact bounded block older retries

theorem Apart.cons_reconnected (apart : Apart s log) (past : ∀ r ∈ reconnects log, r + s.cooldown ≤ t) :
    Apart s (.reconnected t :: log) := List.pairwise_cons.mpr ⟨past, apart⟩

end

/-- The record of a pair has no desync under way. -/
def Idle (record : Option PairState) : Prop := ∀ state, record = some state → state.desyncedAt = none

/-- A reconnect of instant `r` that is in force, or that no later one may come too close to. -/
def Spent (s : Schedule) (clock now : Int) (l : Lane) (r : Int) : Prop :=
  (∃ state, l.record = some state ∧ state.escalatedAt = some r) ∨ r + s.cooldown ≤ now ∨
    (r + s.cooldown ≤ clock ∧ (∀ t, l.waiting = some t → r + s.cooldown ≤ t) ∧
      ∀ state d, l.record = some state → state.desyncedAt = some d → r + s.cooldown ≤ d)

/-- What holds of a pair after every step. -/
structure Ladder (s : Schedule) (clock now : Int) (l : Lane) : Prop where
  synced : l.desynced = false → l.waiting = none ∧ Idle l.record
  waits : ∀ t, l.waiting = some t → Idle l.record ∧ (∃ older, l.log = .desynced t :: older) ∧ t ≤ clock
  rung : ∀ state d, l.record = some state → state.desyncedAt = some d → Rung s now d state l.log
  spent : ∀ r ∈ reconnects l.log, Spent s clock now l r
  apart : Apart s l.log
  bounded : Bounded s l.log
  paced : Paced s l.log

section
variable {s : Schedule} {clock clock' now now' d t : Int} {record : Option PairState} {w : Option Int}
  {state : PairState} {log : List Mark} {l : Lane}

theorem idle_noteRecovered (s : Schedule) (now : Int) (record : Option PairState) :
    Idle (noteRecovered s now record) := by
  intro state recovered
  cases record with
  | none => cases recovered
  | some old =>
    obtain ⟨e, -, rfl⟩ := Option.map_eq_some_iff.mp recovered
    rfl

/-- An escalation is forgotten once its cooldown is over, and not before. -/
theorem noteRecovered_escalated {r : Int} (escalated : state.escalatedAt = some r) :
    r + s.cooldown ≤ now ∨ ∃ state', noteRecovered s now (some state) = some state' ∧
      state'.escalatedAt = some r := by
  by_cases cooling : now - r < s.cooldown
  · exact .inr ⟨{ escalatedAt := some r }, by simp [noteRecovered, escalated, cooling], rfl⟩
  · exact .inl (by omega)

theorem Spent.later (spent : Spent s clock now l t) (clocks : clock ≤ clock') (nows : now ≤ now') :
    Spent s clock' now' l t := by
  rcases spent with force | past | ⟨past, waits, since⟩
  · exact .inl force
  · exact .inr (.inl (past.trans nows))
  · exact .inr (.inr ⟨past.trans clocks, waits, since⟩)

theorem Ladder.later (h : Ladder s clock now l) (clocks : clock ≤ clock') (nows : now ≤ now') :
    Ladder s clock' now' l where
  synced := h.synced
  waits t waiting := by
    obtain ⟨idle, log, past⟩ := h.waits t waiting
    exact ⟨idle, log, past.trans clocks⟩
  rung state d record since := (h.rung state d record since).later nows
  spent r mem := (h.spent r mem).later clocks nows
  apart := h.apart
  bounded := h.bounded
  paced := h.paced

theorem Ladder.desyncs (h : Ladder s clock now ⟨record, false, none, log⟩) :
    Ladder s clock now ⟨record, true, some clock, .desynced clock :: log⟩ := by
  have idle := (h.synced rfl).2
  refine ⟨by simp, ?_, ?_, ?_, h.apart, h.bounded.cons (Nat.zero_le _), h.paced⟩
  · rintro t ⟨⟩
    exact ⟨idle, ⟨log, rfl⟩, Int.le_refl _⟩
  · intro state d recorded since
    cases (idle state recorded).symm.trans since
  · intro r mem
    rcases h.spent r mem with force | past | ⟨past, -, -⟩
    · exact .inl force
    · exact .inr (.inl past)
    · refine .inr (.inr ⟨past, ?_, ?_⟩)
      · rintro t ⟨⟩
        exact past
      · intro state d recorded since
        cases (idle state recorded).symm.trans since

theorem Ladder.noted (h : Ladder s clock now ⟨record, true, some t, log⟩) :
    Ladder s clock now ⟨some (noteDesync s t record), true, none, log⟩ := by
  obtain ⟨idle, ⟨older, here⟩, past⟩ := h.waits t rfl
  have fresh : ∃ e, noteDesync s t record = { desyncedAt := some t, escalatedAt := e } ∧
      ∀ state r, record = some state → state.escalatedAt = some r → r + s.cooldown ≤ t ∨ e = some r := by
    cases record with
    | none => exact ⟨none, rfl, by simp⟩
    | some old =>
      refine ⟨old.escalatedAt.filter fun e => t - e < s.cooldown, by simp [noteDesync, idle old rfl], ?_⟩
      rintro state r ⟨⟩ escalated
      by_cases cooling : t - r < s.cooldown
      · exact .inr (by simp [escalated, cooling])
      · exact .inl (by omega)
  obtain ⟨e, told, keeps⟩ := fresh
  dsimp only at here
  subst here
  refine ⟨by simp, by simp, ?_, ?_, h.apart, h.bounded, h.paced⟩
  · rintro state d ⟨⟩ since
    rw [told] at since ⊢
    cases since
    exact .fresh
  · intro r mem
    have since : ∀ (state : PairState) (d : Int), some (noteDesync s t record) = some state →
        state.desyncedAt = some d → d = t := by
      rintro state d ⟨⟩ since
      rw [told] at since
      exact (Option.some.inj since).symm
    have late (le : r + s.cooldown ≤ t) : Spent s clock now
        ⟨some (noteDesync s t record), true, none, .desynced t :: older⟩ r :=
      .inr (.inr ⟨le.trans past, by simp, fun state d recorded at' => since state d recorded at' ▸ le⟩)
    rcases h.spent r mem with ⟨state, recorded, escalated⟩ | past | ⟨-, waits, -⟩
    · rcases keeps state r recorded escalated with le | kept
      · exact late le
      · exact .inl ⟨_, rfl, by rw [told, kept]⟩
    · exact .inr (.inl past)
    · exact late (waits t rfl)

theorem Ladder.lost (h : Ladder s clock now ⟨record, true, w, log⟩) :
    Ladder s clock now ⟨record, true, none, log⟩ := by
  refine ⟨by simp, by simp, h.rung, ?_, h.apart, h.bounded, h.paced⟩
  intro r mem
  rcases h.spent r mem with force | past | ⟨past, -, since⟩
  · exact .inl force
  · exact .inr (.inl past)
  · exact .inr (.inr ⟨past, by simp, since⟩)

/-- A record that is cleared at an instant that is past, by the clock or the loop's reading. -/
theorem Ladder.clears {marks : List Mark} (h : Ladder s clock now ⟨record, l.desynced, none, log⟩)
    (past : t ≤ now ∨ t ≤ clock) (same : reconnects marks = reconnects log) (bounded : Bounded s marks)
    (paced : Paced s marks) : Ladder s clock now ⟨noteRecovered s t record, false, none, marks⟩ := by
  have idle := idle_noteRecovered s t record
  refine ⟨fun _ => ⟨rfl, idle⟩, by simp, ?_, ?_, ?_, bounded, paced⟩
  · intro state d recorded since
    cases (idle state recorded).symm.trans since
  · intro r mem
    have late (le : r + s.cooldown ≤ t) :
        Spent s clock now ⟨noteRecovered s t record, false, none, marks⟩ r := by
      rcases past with past | past
      · exact .inr (.inl (le.trans past))
      · refine .inr (.inr ⟨le.trans past, by simp, ?_⟩)
        intro state d recorded since
        cases (idle state recorded).symm.trans since
    dsimp only at mem
    rw [same] at mem
    rcases h.spent r mem with ⟨state, recorded, escalated⟩ | past | ⟨past, -, -⟩
    · dsimp only at recorded
      subst recorded
      rcases noteRecovered_escalated escalated with le | ⟨state', kept, force⟩
      · exact late le
      · exact .inl ⟨state', kept, force⟩
    · exact .inr (.inl past)
    · refine .inr (.inr ⟨past, by simp, ?_⟩)
      intro state d recorded since
      cases (idle state recorded).symm.trans since
  · unfold Apart
    rw [same]
    exact h.apart

/-- What `due` records leaves the ladder as it is. -/
theorem Ladder.held (h : Ladder s clock now ⟨record, true, w, log⟩) :
    Ladder s clock now ⟨(due s now record).2, true, w, log⟩ := by
  cases record with
  | none => exact h
  | some state =>
    rcases due_cases s now state with ⟨quiet, -⟩ | ⟨d, state', since, armed, judged⟩
    · rw [quiet]
      exact h
    rw [judged]
    have same := armed.since since
    refine ⟨by simp, ?_, ?_, ?_, h.apart, h.bounded, h.paced⟩
    · intro t waiting
      cases ((h.waits t waiting).1 state rfl).symm.trans since
    · rintro state d' ⟨⟩ since'
      obtain rfl := Option.some.inj (same.symm.trans since')
      exact (h.rung _ _ rfl since).armed armed
    · intro r mem
      rcases h.spent r mem with ⟨_, ⟨⟩, escalated⟩ | past | ⟨past, waits, after⟩
      · cases armed with
        | kept free => cases free.symm.trans escalated
        | again spent cooled =>
          obtain rfl := Option.some.inj (spent.symm.trans escalated)
          exact .inr (.inl cooled)
      · exact .inr (.inl past)
      · refine .inr (.inr ⟨past, waits, ?_⟩)
        rintro _ d' ⟨⟩ since'
        obtain rfl := Option.some.inj (same.symm.trans since')
        exact after _ _ rfl since

/-- Once a pair is to be acted for, the cooldown of each of its reconnects is over. -/
theorem Ladder.past (h : Ladder s clock now ⟨some state, true, w, log⟩) (since : state.desyncedAt = some d)
    (free : state.escalatedAt = none) (le : d ≤ now) : ∀ r ∈ reconnects log, r + s.cooldown ≤ now := by
  intro r mem
  rcases h.spent r mem with ⟨_, ⟨⟩, escalated⟩ | past | ⟨-, -, after⟩
  · cases free.symm.trans escalated
  · exact past
  · exact (after state d rfl since).trans le

theorem Ladder.retries (h : Ladder s clock now ⟨some state, true, w, log⟩) (since : state.desyncedAt = some d)
    (free : state.escalatedAt = none) (act : verdict s now state d = .retry) :
    Ladder s clock now ⟨noteAttempt now (some state), true, w, .retried now :: log⟩ := by
  have rung := h.rung state d rfl since
  obtain ⟨le, e, time, timely⟩ := rung.timely free (act ▸ by simp)
  have few : streak log + 1 ≤ s.backoff.length := by
    rw [← rung.attempts free]
    unfold verdict at act
    split at act
    · cases act
    · split at act
      · cases act
      · omega
  refine ⟨by simp, ?_, ?_, ?_, h.apart, h.bounded.cons few, ⟨e, time, timely⟩, h.paced⟩
  · intro t waiting
    cases ((h.waits t waiting).1 state rfl).symm.trans since
  · rintro _ d' ⟨⟩ since'
    obtain rfl := Option.some.inj (since.symm.trans since')
    obtain ⟨desyncedAt, last, n, escalatedAt⟩ := state
    cases since
    cases free
    obtain rfl : n = streak log := rung.attempts rfl
    exact .tried few le (Int.le_refl _)
  · intro r mem
    exact .inr (.inl (h.past since free le r mem))

theorem Ladder.reconnects (h : Ladder s clock now ⟨some state, true, w, log⟩)
    (since : state.desyncedAt = some d) (free : state.escalatedAt = none)
    (act : verdict s now state d = .reconnect) :
    Ladder s clock now ⟨some (noteEscalated now (some state)), true, w, .reconnected now :: log⟩ := by
  have rung := h.rung state d rfl since
  obtain ⟨le, e, time, timely⟩ := rung.timely free (act ▸ by simp)
  have past := h.past since free le
  refine ⟨by simp, ?_, ?_, ?_, h.apart.cons_reconnected past, h.bounded.cons (Nat.zero_le _),
    ⟨e, time, timely⟩, h.paced⟩
  · intro t waiting
    cases ((h.waits t waiting).1 state rfl).symm.trans since
  · rintro _ d' ⟨⟩ since'
    obtain rfl := Option.some.inj (since.symm.trans since')
    obtain ⟨desyncedAt, last, n, escalatedAt⟩ := state
    cases since
    exact .escalated
  · intro r mem
    rcases List.mem_cons.mp mem with rfl | older
    · exact .inl ⟨_, rfl, rfl⟩
    · exact .inr (.inl (past r older))

/-- Each step of a pair keeps its ladder. -/
theorem Ladder.rise {l' : Lane} (h : Ladder s clock now l) (rise : Rise s clock now l l') :
    Ladder s clock now l' := by
  -- a call that is made is made in the state that `due` leaves
  have acts : ∀ {record w log}, Ladder s clock now ⟨record, true, w, log⟩ → (due s now record).1 ≠ .none →
      ∃ state d, (due s now record).2 = some state ∧ state.desyncedAt = some d ∧
        state.escalatedAt = none ∧ (due s now record).1 = verdict s now state d := by
    intro record w log h act
    cases record with
    | none => exact absurd rfl act
    | some state =>
      rcases due_cases s now state with ⟨quiet, -⟩ | ⟨d, state', since, armed, judged⟩
      · rw [quiet] at act
        exact absurd rfl act
      · rw [judged]
        exact ⟨state', d, rfl, armed.since since, armed.free, rfl⟩
  cases rise with
  | desyncs => exact h.desyncs
  | @noted r desynced t log =>
    cases desynced with
    | false => cases (h.synced rfl).1
    | true => exact h.noted
  | @lost r desynced t log =>
    cases desynced with
    | false => cases (h.synced rfl).1
    | true => exact h.lost
  | @heals r log =>
    exact h.clears (l := ⟨r, true, none, log⟩) (.inr (Int.le_refl _)) rfl (h.bounded.cons (Nat.zero_le _))
      h.paced
  | @cleared r w log =>
    obtain rfl : w = none := (h.synced rfl).1
    exact h.clears (l := ⟨r, false, none, log⟩) (.inl (Int.le_refl _)) rfl h.bounded h.paced
  | held => exact h.held
  | retries act =>
    obtain ⟨state, d, recorded, since, free, judged⟩ := acts h (act ▸ by simp)
    have held := h.held
    rw [recorded] at held ⊢
    exact held.retries since free (judged ▸ act)
  | reconnects act =>
    obtain ⟨state, d, recorded, since, free, judged⟩ := acts h (act ▸ by simp)
    have held := h.held
    rw [recorded] at held ⊢
    exact held.reconnects since free (judged ▸ act)

end

/-- A host whose books are all in sync. -/
def System.start (connected : Bool) (clock : Int) : System := { connected, clock }

section
variable {s : Schedule} {books : List String} {sys : System} {p : String}

/-- What holds between the events of a run. -/
structure Sound (s : Schedule) (sys : System) : Prop where
  now : sys.now ≤ sys.clock
  ladder : ∀ p, Ladder s sys.clock sys.now (sys.lane p)

theorem sound_start (connected : Bool) (clock : Int) : Sound s (System.start connected clock) where
  now := Int.le_refl _
  ladder p := by
    refine ⟨fun _ => ⟨rfl, ?_⟩, ?_, ?_, ?_, List.Pairwise.nil, ?_, trivial⟩
    · rintro state ⟨⟩
    · rintro t ⟨⟩
    · rintro state d ⟨⟩
    · rintro r ⟨⟩
    · intro block inside _
      rw [List.infix_nil.mp inside]
      exact Nat.zero_le _

theorem sound_step (h : Sound s sys) (e : Event) : Sound s (sys.step s books e) := by
  obtain ⟨clock, now, le⟩ := step_times s books sys e h.now
  refine ⟨le, fun p => ?_⟩
  rcases lane_step s books sys p e with same | rise
  · rw [same]
    exact (h.ladder p).later clock now
  · exact (((h.ladder p).later clock (Int.le_refl _)).rise rise).later (Int.le_refl _) now

theorem sound_after (connected : Bool) (clock : Int) (events : ℕ → Event) (n : ℕ) :
    Sound s ((System.start connected clock).after s books events n) := by
  induction n with
  | zero => exact sound_start connected clock
  | succ n ih => exact sound_step ih (events n)

end
end DesyncRecovery
