import Mathlib.Algebra.Order.Ring.Int
import Mathlib.Logic.Function.Basic

/- The seconds that a pair lost, as its counter shows them: its own gaps, the disk watermark's and the
   silences of its stream, the windows still open up to the instant of the scrape. -/
namespace GapMonitor
open Function

/-- A kind of window: since when it is open, if it is, and how long it was before. -/
structure Span where
  since : Option Int := none
  seconds : Int := 0
  deriving DecidableEq, Repr

namespace Span
variable (s : Span) (now : Int)

/-- Idempotent: the earliest start wins. -/
def start : Span := if s.since.isSome then s else { s with since := some now }

/-- A clock that stepped backward is clamped to zero. -/
def finish : Span :=
  match s.since with
  | none => s
  | some since => { since := none, seconds := s.seconds + max (now - since) 0 }

/-- A window still open counts up to the instant that is asked for, if one is. -/
def total (now : Option Int) : Int :=
  match s.since, now with
  | some since, some now => s.seconds + max (now - since) 0
  | _, _ => s.seconds

end Span

structure Monitor where
  gaps : String → Span := fun _ => {}
  watermark : Span := {}
  silences : String → Span := fun _ => {}

namespace Monitor
variable (m : Monitor) (pair : String) (now : Int)

def startGap : Monitor := { m with gaps := update m.gaps pair ((m.gaps pair).start now) }

def endGap : Monitor := { m with gaps := update m.gaps pair ((m.gaps pair).finish now) }

def startWatermarkGap : Monitor := { m with watermark := m.watermark.start now }

def endWatermarkGap : Monitor := { m with watermark := m.watermark.finish now }

def startSilence : Monitor := { m with silences := update m.silences pair ((m.silences pair).start now) }

def endSilence : Monitor := { m with silences := update m.silences pair ((m.silences pair).finish now) }

def isSilent : Bool := (m.silences pair).since.isSome

/-- The three kinds are summed independently. -/
def gapSeconds (now : Option Int) : Int :=
  (m.gaps pair).total now + m.watermark.total now + (m.silences pair).total now

end Monitor

/-- The daemon, with the scrapes of its counter, newest first. -/
structure Capture where
  pairs : List String
  monitor : Monitor := {}
  lastSeen : String → Option Int
  desynced : String → Bool := fun _ => false
  clock : Int
  exports : List (Int × (String → Int)) := []

/-- Every pair's last message is seeded with the start. -/
def Capture.start (pairs : List String) (clock : Int) : Capture :=
  { pairs, clock, lastSeen := fun pair => if pair ∈ pairs then some clock else none }

/-- A message is stamped when it is received and once more when it is in the book. A watermark's check has no
    verdict where it raised. -/
inductive Event where
  | message (pair : String) (inSync : Bool) (received handled : Nat)
  | staleness (elapsed : Nat)
  | watermark (verdict : Option Bool) (elapsed : Nat)
  | scrape (elapsed : Nat)
  deriving DecidableEq, Repr

def bookStaleness : Int := 30000000

/-- A silence opens and closes at the last message, and not at the check that finds it. -/
def checkStaleness (threshold now : Int) (lastSeen : String → Option Int) (m : Monitor) (pair : String) :
    Monitor :=
  match lastSeen pair with
  | none => m
  | some seen =>
    if threshold < now - seen then m.startSilence pair seen
    else if m.isSilent pair then m.endSilence pair seen
    else m

namespace Capture
variable (threshold : Int) (c : Capture)

def handleBookMessage (pair : String) (inSync : Bool) (received now : Int) : Capture :=
  let was := c.desynced pair
  let seen := { c with
    lastSeen := update c.lastSeen pair (some received)
    desynced := update c.desynced pair (!inSync) }
  if !inSync && !was then { seen with monitor := c.monitor.startGap pair now }
  else if inSync && was then { seen with monitor := c.monitor.endGap pair now }
  else seen

def step : Event → Capture
  | .message pair inSync received handled =>
    if pair ∈ c.pairs then
      let now := c.clock + received + handled
      { c.handleBookMessage pair inSync (c.clock + received) now with clock := now }
    else c
  | .staleness elapsed =>
    let now := c.clock + elapsed
    { c with clock := now, monitor := c.pairs.foldl (checkStaleness threshold now c.lastSeen) c.monitor }
  | .watermark verdict elapsed =>
    let now := c.clock + elapsed
    match verdict with
    | none => { c with clock := now }
    | some true => { c with clock := now, monitor := c.monitor.endWatermarkGap now }
    | some false => { c with clock := now, monitor := c.monitor.startWatermarkGap now }
  | .scrape elapsed =>
    let now := c.clock + elapsed
    { c with clock := now, exports := (now, fun pair => c.monitor.gapSeconds pair (some now)) :: c.exports }

def run (events : List Event) : Capture := events.foldl (step threshold) c

/-- A check that ends a silence finds a message that no scrape came after. -/
def Prompt : Event → Prop
  | .staleness elapsed => ∀ pair ∈ c.pairs, c.monitor.isSilent pair = true → ∀ seen ∈ c.lastSeen pair,
      c.clock + elapsed - seen ≤ threshold → ∀ last ∈ c.exports.head?, last.1 ≤ seen
  | _ => True

def Prompts (c : Capture) : List Event → Prop
  | [] => True
  | e :: rest => c.Prompt threshold e ∧ Prompts (c.step threshold e) rest

end Capture

section
variable {s : Span} {x y t : Int}

theorem total_mono (le : x ≤ y) : s.total (some x) ≤ s.total (some y) := by
  unfold Span.total
  cases s.since with
  | none => exact Int.le_refl _
  | some since =>
    dsimp only
    omega

theorem total_start : s.total (some x) ≤ (s.start t).total (some x) := by
  unfold Span.start
  split
  · exact Int.le_refl _
  · rename_i closed
    have none : s.since = none := by simpa using closed
    simp only [Span.total, none]
    omega

/-- A window that closes after an instant lasted at least as long as it had by then. -/
theorem total_finish (le : x ≤ t) : s.total (some x) ≤ (s.finish t).total (some x) := by
  unfold Span.finish
  cases since : s.since with
  | none => exact Int.le_refl _
  | some since =>
    simp only [Span.total, *]
    omega

end

section
variable {m : Monitor} {p q : String} {x y t : Int}

theorem gapSeconds_mono (le : x ≤ y) : m.gapSeconds p (some x) ≤ m.gapSeconds p (some y) := by
  have own := total_mono (s := m.gaps p) le
  have watermark := total_mono (s := m.watermark) le
  have silent := total_mono (s := m.silences p) le
  unfold Monitor.gapSeconds
  omega

/-- One span of a family changes, and its total at an instant does not drop. -/
theorem total_update {f : String → Span} {s : Span} (le : (f q).total (some x) ≤ s.total (some x)) :
    (f p).total (some x) ≤ (update f q s p).total (some x) := by
  by_cases same : p = q
  · subst same
    rw [update_self]
    exact le
  · rw [update_of_ne same]

/-- What each kind showed at an instant it still shows. -/
theorem gapSeconds_le {m' : Monitor} {now : Option Int} (own : (m.gaps p).total now ≤ (m'.gaps p).total now)
    (watermark : m.watermark.total now ≤ m'.watermark.total now)
    (silent : (m.silences p).total now ≤ (m'.silences p).total now) :
    m.gapSeconds p now ≤ m'.gapSeconds p now := by
  unfold Monitor.gapSeconds
  omega

end

section
variable {threshold now x : Int} {lastSeen : String → Option Int} {m : Monitor} {p q : String}

theorem isSilent_checkStaleness {seen : Int} (last : lastSeen q = some seen) (fresh : now - seen ≤ threshold)
    (silent : (checkStaleness threshold now lastSeen m p).isSilent q = true) : m.isSilent q = true := by
  unfold checkStaleness at silent
  split at silent
  · exact silent
  · rename_i stamp here
    split at silent
    · rename_i stale
      have other : q ≠ p := by
        rintro rfl
        obtain rfl := Option.some.inj (last.symm.trans here)
        omega
      simpa [Monitor.isSilent, Monitor.startSilence, other] using silent
    · split at silent
      · by_cases same : q = p
        · subst same
          assumption
        · simpa [Monitor.isSilent, Monitor.endSilence, same] using silent
      · exact silent

theorem checkStaleness_keeps (late : m.isSilent q = true → ∀ seen ∈ lastSeen q, now - seen ≤ threshold →
    x ≤ seen) : m.gapSeconds p (some x) ≤ (checkStaleness threshold now lastSeen m q).gapSeconds p (some x) := by
  unfold checkStaleness
  split
  · exact Int.le_refl _
  · rename_i seen last
    split
    · exact gapSeconds_le (Int.le_refl _) (Int.le_refl _) (total_update total_start)
    · split
      · rename_i fresh silent
        have later := late silent seen last (by omega)
        exact gapSeconds_le (Int.le_refl _) (Int.le_refl _) (total_update (total_finish later))
      · exact Int.le_refl _

theorem sweep_keeps {pairs : List String} (late : ∀ q ∈ pairs, m.isSilent q = true → ∀ seen ∈ lastSeen q,
    now - seen ≤ threshold → x ≤ seen) :
    m.gapSeconds p (some x) ≤ (pairs.foldl (checkStaleness threshold now lastSeen) m).gapSeconds p (some x) := by
  induction pairs generalizing m with
  | nil => exact Int.le_refl _
  | cons q rest ih =>
    refine (checkStaleness_keeps (late q List.mem_cons_self)).trans (ih ?_)
    intro q' mem silent seen last fresh
    have before := isSilent_checkStaleness (p := q) last fresh silent
    exact late q' (List.mem_cons_of_mem _ mem) before seen last fresh

end

/-- What was exported is not above what the monitor would still show of that instant. -/
structure Shown (c : Capture) : Prop where
  last : ∀ e ∈ c.exports.head?, e.1 ≤ c.clock ∧ ∀ p ∈ c.pairs, e.2 p ≤ c.monitor.gapSeconds p (some e.1)
  rising : ∀ p ∈ c.pairs, c.exports.Pairwise fun later earlier => earlier.2 p ≤ later.2 p

section
variable {threshold : Int} {c : Capture}

/-- The monitor changes and the clock goes on. -/
theorem Shown.keeps {c' : Capture} (h : Shown c) (pairs : c'.pairs = c.pairs) (exports : c'.exports = c.exports)
    (clock : c.clock ≤ c'.clock) (keeps : ∀ p ∈ c.pairs, ∀ last ∈ c.exports.head?,
      c.monitor.gapSeconds p (some last.1) ≤ c'.monitor.gapSeconds p (some last.1)) : Shown c' := by
  refine ⟨?_, ?_⟩
  · rw [pairs, exports]
    intro last mem
    obtain ⟨past, shown⟩ := h.last last mem
    exact ⟨past.trans clock, fun p there => (shown p there).trans (keeps p there last mem)⟩
  · rw [pairs, exports]
    exact h.rising

theorem handleBookMessage_cases (c : Capture) (pair : String) (inSync : Bool) (received now : Int) :
    (c.handleBookMessage pair inSync received now).pairs = c.pairs ∧
    (c.handleBookMessage pair inSync received now).exports = c.exports ∧
    ((c.handleBookMessage pair inSync received now).monitor = c.monitor ∨
      (c.handleBookMessage pair inSync received now).monitor = c.monitor.startGap pair now ∨
      (c.handleBookMessage pair inSync received now).monitor = c.monitor.endGap pair now) := by
  cases was : c.desynced pair <;> cases inSync <;> simp [Capture.handleBookMessage, was]

theorem Shown.step (h : Shown c) {e : Event} (prompt : c.Prompt threshold e) : Shown (c.step threshold e) := by
  have later : ∀ elapsed : ℕ, c.clock ≤ c.clock + elapsed := fun elapsed =>
    Int.le_add_of_nonneg_right (Int.natCast_nonneg elapsed)
  have past : ∀ elapsed : ℕ, ∀ last ∈ c.exports.head?, last.1 ≤ c.clock + elapsed := fun elapsed last mem =>
    (h.last last mem).1.trans (later elapsed)
  cases e with
  | message pair inSync received handled =>
    simp only [Capture.step]
    split
    · have clock : c.clock ≤ c.clock + received + handled := by omega
      obtain ⟨pairs, exports, monitor⟩ := handleBookMessage_cases c pair inSync (c.clock + received)
        (c.clock + received + handled)
      refine h.keeps pairs exports clock ?_
      intro p _ last mem
      dsimp only
      rcases monitor with same | starts | ends
      · rw [same]
      · rw [starts]
        exact gapSeconds_le (total_update total_start) (Int.le_refl _) (Int.le_refl _)
      · rw [ends]
        have past := (h.last last mem).1.trans clock
        exact gapSeconds_le (total_update (total_finish past)) (Int.le_refl _) (Int.le_refl _)
    · exact h
  | staleness elapsed =>
    refine h.keeps rfl rfl (later elapsed) ?_
    intro p there last mem
    apply sweep_keeps
    intro q inside silent seen known fresh
    exact prompt q inside silent seen known fresh last mem
  | watermark verdict elapsed =>
    cases verdict with
    | none => exact h.keeps rfl rfl (later elapsed) fun p _ last _ => Int.le_refl _
    | some healthy =>
      cases healthy with
      | false =>
        refine h.keeps rfl rfl (later elapsed) ?_
        intro p _ last _
        exact gapSeconds_le (Int.le_refl _) total_start (Int.le_refl _)
      | true =>
        refine h.keeps rfl rfl (later elapsed) ?_
        intro p _ last mem
        exact gapSeconds_le (Int.le_refl _) (total_finish (past elapsed last mem)) (Int.le_refl _)
  | scrape elapsed =>
    refine ⟨?_, ?_⟩
    · rintro last ⟨⟩
      exact ⟨Int.le_refl _, fun p _ => Int.le_refl _⟩
    · intro p there
      refine List.pairwise_cons.mpr ⟨?_, h.rising p there⟩
      cases exports : c.exports with
      | nil => simp
      | cons newest older =>
        have rising := h.rising p there
        rw [exports, List.pairwise_cons] at rising
        obtain ⟨before, shown⟩ := h.last newest (by rw [exports]; rfl)
        have above : newest.2 p ≤ c.monitor.gapSeconds p (some (c.clock + elapsed)) :=
          (shown p there).trans (gapSeconds_mono (before.trans (later elapsed)))
        intro e mem
        rcases List.mem_cons.mp mem with rfl | old
        · exact above
        · exact (rising.1 e old).trans above

theorem Shown.run (h : Shown c) {events : List Event} (prompts : c.Prompts threshold events) :
    Shown (c.run threshold events) := by
  induction events generalizing c with
  | nil => exact h
  | cons e rest ih => exact ih (h.step prompts.1) prompts.2

theorem run_pairs (c : Capture) (events : List Event) : (c.run threshold events).pairs = c.pairs := by
  induction events generalizing c with
  | nil => rfl
  | cons e rest ih =>
    have same : (c.step threshold e).pairs = c.pairs := by
      cases e with
      | message pair inSync received handled =>
        simp only [Capture.step]
        split
        · exact (handleBookMessage_cases c pair inSync _ _).1
        · rfl
      | staleness elapsed => rfl
      | watermark verdict elapsed => rcases verdict with _ | _ | _ <;> rfl
      | scrape elapsed => rfl
    exact (ih (c.step threshold e)).trans same

end

end GapMonitor
