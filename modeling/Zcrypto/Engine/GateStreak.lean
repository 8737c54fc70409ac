import Mathlib.Data.List.Induction
import Mathlib.Order.Bounds.Basic
import Zcrypto.Keyed
import Zcrypto.Engine.Replay

/- The gate over complete days: a day is clean where each of its boundaries landed in its window with a
   replay that passed, and the streak is of the clean days up to the last one. Of two stamps neither or
   both are aware where their instants are compared. -/
namespace GateStreaks
open Journal Replays ProbePlans

def cycleHours : List Int := [0, 4, 8, 12, 16, 20]
def freshnessWindow : Int := 30 * minute
def gateStreakDays : Nat := 14
def dayMicros : Int := hoursPerDay * hour

/- What `date()` and `hour` are of a stamp. -/
def date (t : Stamp) : Int := t.wall / dayMicros
def hourOfDay (t : Stamp) : Int := t.wall / hour % hoursPerDay

def instant (t : Stamp) : Int := t.moment.instant

structure FailureDetail where
  cycleTs : Stamp
  reason : String
  deriving DecidableEq, Repr

structure GateStatus where
  streak : Nat
  gateMet : Bool
  lastFailure : Option FailureDetail
  deriving DecidableEq, Repr

/-- Two outcomes of one cycle, or stamps that cannot be compared. -/
inductive GateError where
  | duplicate (cycleTs : Stamp)
  | incomparable
  deriving DecidableEq, Repr

def boundaryOf (now : Stamp) (day h : Int) : Stamp := ⟨day * dayMicros + h * hour, now.offset⟩

def dayBoundaries (now : Stamp) (day : Int) : List Stamp := cycleHours.map (boundaryOf now day)

def cutoff (now : Stamp) (day : Int) : Int := instant (boundaryOf now day 20) + freshnessWindow

/-- The first day there may be: one begun in its middle is left out. -/
def startDay (first : CycleOutcome) : Int :=
  if hourOfDay first.cycleTs ≠ 0 then date first.cycleTs + 1 else date first.cycleTs

def outcomeAt (entries : List CycleOutcome) (boundary : Stamp) : Option CycleOutcome :=
  entries.find? fun e => e.cycleTs.moment = boundary.moment

/-- What is wrong with a boundary. -/
def faultOf (entries : List CycleOutcome) (boundary : Stamp) : Option String :=
  match outcomeAt entries boundary with
  | none => some "missing cycle"
  | some e =>
    if e.validationFailed then some "validation failed (schema / boundary invariant)"
    else if e.mismatch then some "hash mismatch (corrupt evidence)"
    else if ¬ (instant boundary ≤ instant e.completedAt ∧
        instant e.completedAt ≤ instant boundary + freshnessWindow) then
      some "late cycle (outside the 30-minute freshness window)"
    else if ¬ e.comparePassed then some "compare mismatch"
    else none

/-- The first boundary of a day with a fault. -/
def dayFailure (entries : List CycleOutcome) (now : Stamp) (day : Int) : Option FailureDetail :=
  (dayBoundaries now day).findSome? fun b => (faultOf entries b).map (FailureDetail.mk b)

def evaluableDays (now : Stamp) (start upper : Int) : List Int :=
  ((List.range (upper + 1 - start).toNat).map fun i : Nat => start + (i : Int)).takeWhile
    (cutoff now · ≤ instant now)

def judgeDay (entries : List CycleOutcome) (now : Stamp) (s : Nat × Option FailureDetail) (day : Int) :
    Nat × Option FailureDetail :=
  match dayFailure entries now day with
  | none => (s.1 + 1, s.2)
  | some failure => (0, some failure)

def earliest (first : CycleOutcome) (rest : List CycleOutcome) : CycleOutcome :=
  rest.foldl (fun m e => if instant e.cycleTs < instant m.cycleTs then e else m) first

def latestDate (first : CycleOutcome) (rest : List CycleOutcome) : Int :=
  rest.foldl (fun m e => max m (date e.cycleTs)) (date first.cycleTs)

/-- The first stamp that an earlier outcome has. -/
def repeated : List CycleOutcome → List Moment → Option Stamp
  | [], _ => none
  | e :: rest, seen =>
    if e.cycleTs.moment ∈ seen then some e.cycleTs else repeated rest (e.cycleTs.moment :: seen)

def comparable (first : CycleOutcome) (rest : List CycleOutcome) : Bool :=
  rest.all fun e => e.cycleTs.moment.aware = first.cycleTs.moment.aware

def evaluateGate (entries : List CycleOutcome) (now : Stamp) : Except GateError GateStatus :=
  match entries with
  | [] => .ok ⟨0, false, none⟩
  | first :: rest =>
    match repeated (first :: rest) [] with
    | some ts => .error (.duplicate ts)
    | none =>
      if comparable first rest then
        let days := evaluableDays now (startDay (earliest first rest))
          (max (latestDate first rest) (date now))
        let judged := days.foldl (judgeDay (first :: rest) now) (0, none)
        .ok ⟨judged.1, gateStreakDays ≤ judged.1, judged.2⟩
      else .error .incomparable

/- The days. -/

/-- A day that counts: complete by now, and begun no earlier than the first outcome. -/
def Evaluable (entries : List CycleOutcome) (now : Stamp) (day : Int) : Prop :=
  (∃ first ∈ entries, (∀ e ∈ entries, instant first.cycleTs ≤ instant e.cycleTs) ∧ startDay first ≤ day) ∧
    cutoff now day ≤ instant now

/-- A day each of whose boundaries has nothing wrong with it. -/
def Clean (entries : List CycleOutcome) (now : Stamp) (day : Int) : Prop :=
  ∀ h ∈ cycleHours, faultOf entries (boundaryOf now day h) = none

/-- The first boundary of a day that something is wrong with. -/
def FirstFault (entries : List CycleOutcome) (now : Stamp) (day : Int) (failure : FailureDetail) : Prop :=
  ∃ before h after, cycleHours = before ++ h :: after ∧ failure.cycleTs = boundaryOf now day h ∧
    faultOf entries failure.cycleTs = some failure.reason ∧
    ∀ earlier ∈ before, faultOf entries (boundaryOf now day earlier) = none

/-- The last day that counts. -/
def Last (entries : List CycleOutcome) (now : Stamp) (day : Int) : Prop :=
  Evaluable entries now day ∧ ∀ other, Evaluable entries now other → other ≤ day

section
variable {entries : List CycleOutcome} {now : Stamp} {day : Int}

theorem cutoff_mono {a b : Int} (le : a ≤ b) : cutoff now a ≤ cutoff now b := by
  unfold cutoff boundaryOf instant Stamp.moment dayMicros hoursPerDay hour minute second
  dsimp only
  omega

theorem dayFailure_none : dayFailure entries now day = none ↔ Clean entries now day := by
  unfold dayFailure dayBoundaries Clean
  simp

theorem dayFailure_some {failure : FailureDetail} :
    dayFailure entries now day = some failure ↔ FirstFault entries now day failure := by
  unfold dayFailure dayBoundaries FirstFault
  rw [List.findSome?_map, List.findSome?_eq_some_iff]
  constructor
  · rintro ⟨before, h, after, split, found, earlier⟩
    obtain ⟨reason, fault, rfl⟩ := Option.map_eq_some_iff.mp found
    exact ⟨before, h, after, split, rfl, fault, fun e mem => Option.map_eq_none_iff.mp (earlier e mem)⟩
  · rintro ⟨before, h, after, split, same, fault, earlier⟩
    refine ⟨before, h, after, split, ?_, fun e mem => Option.map_eq_none_iff.mpr (earlier e mem)⟩
    rw [same] at fault
    rw [Function.comp_apply, fault, ← same]
    rfl

theorem takeWhile_range {f : Nat → Int} {p : Int → Bool} (stops : ∀ i j, i ≤ j → p (f j) → p (f i)) (m : Nat) :
    ∃ k ≤ m, ((List.range m).map f).takeWhile p = (List.range k).map f ∧
      ∀ i, i < m → (p (f i) = true ↔ i < k) := by
  induction m with
  | zero => exact ⟨0, le_refl _, rfl, by simp⟩
  | succ m ih =>
    obtain ⟨k, le, same, inside⟩ := ih
    rw [List.range_succ, List.map_append, List.map_singleton]
    by_cases whole : k = m
    · subst whole
      have all : ∀ x ∈ (List.range k).map f, p x = true := by
        intro x mem
        obtain ⟨i, less, rfl⟩ := List.mem_map.mp mem
        exact (inside i (List.mem_range.mp less)).mpr (List.mem_range.mp less)
      rw [List.takeWhile_append_of_pos all]
      cases last : p (f k) with
      | true =>
        refine ⟨k + 1, le_refl _, by simp [last, List.range_succ], ?_⟩
        intro i less
        rcases Nat.lt_succ_iff_lt_or_eq.mp less with earlier | rfl
        · simp [(inside i earlier).mpr earlier, less]
        · simp [last]
      | false =>
        refine ⟨k, Nat.le_succ k, by simp [last], ?_⟩
        intro i less
        rcases Nat.lt_succ_iff_lt_or_eq.mp less with earlier | rfl
        · exact inside i earlier
        · simp [last]
    · have less : k < m := lt_of_le_of_ne le whole
      have out : p (f k) = false := by
        simpa using (inside k less).not.mpr (lt_irrefl k)
      refine ⟨k, by omega, ?_, ?_⟩
      · have short : ((List.range m).map f).takeWhile p ≠ (List.range m).map f := by
          rw [same]
          intro equal
          have lengths := congrArg List.length equal
          simp only [List.length_map, List.length_range] at lengths
          exact whole lengths
        rw [List.takeWhile_append, if_neg, same]
        intro lengths
        exact short (List.takeWhile_prefix p |>.eq_of_length lengths)
      · intro i within
        rcases Nat.lt_succ_iff_lt_or_eq.mp within with earlier | rfl
        · exact inside i earlier
        · constructor
          · intro holds
            rw [stops k i le holds] at out
            cases out
          · intro absurd_
            omega

/-- The days that count are those of a stretch. -/
theorem evaluableDays_eq (start upper : Int) (below : ∀ d, cutoff now d ≤ instant now → d ≤ upper) :
    ∃ k : Nat, evaluableDays now start upper = (List.range k).map (fun i : Nat => start + (i : Int)) ∧
      ∀ d, (start ≤ d ∧ cutoff now d ≤ instant now) ↔ (start ≤ d ∧ d < start + k) := by
  have stops : ∀ i j : Nat, i ≤ j → decide (cutoff now (start + j) ≤ instant now) = true →
      decide (cutoff now (start + i) ≤ instant now) = true := by
    intro i j le holds
    rw [decide_eq_true_eq] at *
    exact (cutoff_mono (by omega)).trans holds
  obtain ⟨k, le, same, inside⟩ := takeWhile_range (f := fun i : Nat => start + i)
    (p := (cutoff now · ≤ instant now)) stops (upper + 1 - start).toNat
  refine ⟨k, same, ?_⟩
  intro d
  constructor
  · rintro ⟨after, done⟩
    have bound := below d done
    have place := (inside (d - start).toNat (by omega)).mp (by
      rw [decide_eq_true_eq, show start + ((d - start).toNat : Int) = d by omega]
      exact done)
    omega
  · rintro ⟨after, before⟩
    have place := (inside (d - start).toNat (by omega)).mpr (by omega)
    rw [decide_eq_true_eq, show start + ((d - start).toNat : Int) = d by omega] at place
    exact ⟨after, place⟩

/-- What the loop has of the first days of a stretch. -/
structure Judged (entries : List CycleOutcome) (now : Stamp) (start : Int) (k : Nat)
    (s : Nat × Option FailureDetail) : Prop where
  le : s.1 ≤ k
  clean : ∀ i : Nat, i < s.1 → Clean entries now (start + k - 1 - i)
  broken : s.1 < k → ¬ Clean entries now (start + k - 1 - s.1)
  spotless : s.2 = none → ∀ d, start ≤ d → d < start + k → Clean entries now d
  failed : ∀ failure, s.2 = some failure → ∃ d, start ≤ d ∧ d < start + k ∧
    dayFailure entries now d = some failure ∧ ∀ later, d < later → later < start + k → Clean entries now later

theorem judged_range (entries : List CycleOutcome) (now : Stamp) (start : Int) (k : Nat) :
    Judged entries now start k
      (((List.range k).map (fun i : Nat => start + (i : Int))).foldl (judgeDay entries now) (0, none)) := by
  induction k with
  | zero => exact ⟨le_refl _, by simp, by simp, by simp; omega, by simp⟩
  | succ k ih =>
    rw [List.range_succ, List.map_append, List.foldl_append, List.map_singleton, List.foldl_cons,
      List.foldl_nil]
    generalize ((List.range k).map (fun i : Nat => start + (i : Int))).foldl (judgeDay entries now)
      (0, none) = s at ih
    unfold judgeDay
    cases failed : dayFailure entries now (start + k) with
    | none =>
      have today := dayFailure_none.mp failed
      refine ⟨Nat.succ_le_succ ih.le, ?_, ?_, ?_, ?_⟩
      · intro i less
        rcases Nat.eq_zero_or_pos i with rfl | pos
        · have same : start + ((k + 1 : Nat) : Int) - 1 - (0 : Nat) = start + k := by omega
          rw [same]
          exact today
        · have before := ih.clean (i - 1) (by dsimp only at less; omega)
          have same : start + ((k + 1 : Nat) : Int) - 1 - i = start + k - 1 - (i - 1 : Nat) := by omega
          rw [same]
          exact before
      · intro less
        have before := ih.broken (by dsimp only at less; omega)
        have same : start + ((k + 1 : Nat) : Int) - 1 - (s.1 + 1 : Nat) = start + k - 1 - s.1 := by omega
        dsimp only
        rw [same]
        exact before
      · intro nothing d after before
        by_cases last : d = start + k
        · exact last ▸ today
        · exact ih.spotless nothing d after (by omega)
      · intro failure same
        obtain ⟨d, after, before, found, later⟩ := ih.failed failure same
        refine ⟨d, after, by omega, found, ?_⟩
        intro other above under
        by_cases last : other = start + k
        · exact last ▸ today
        · exact later other above (by omega)
    | some failure =>
      have dirty : ¬ Clean entries now (start + k) := by
        rw [← dayFailure_none, failed]
        simp
      refine ⟨Nat.zero_le _, fun i less => absurd less (Nat.not_lt_zero i), ?_,
        by simp, ?_⟩
      · intro _
        have same : start + ((k + 1 : Nat) : Int) - 1 - (0 : Nat) = start + k := by omega
        dsimp only
        rw [same]
        exact dirty
      · intro found same
        obtain rfl := Option.some.inj same
        refine ⟨start + k, by omega, by omega, failed, ?_⟩
        intro later above under
        omega

end

/- The order of the outcomes. -/

section
variable {entries : List CycleOutcome} {first : CycleOutcome} {rest : List CycleOutcome}

theorem earliest_spec (first : CycleOutcome) (rest : List CycleOutcome) :
    earliest first rest ∈ first :: rest ∧
      ∀ e ∈ first :: rest, instant (earliest first rest).cycleTs ≤ instant e.cycleTs := by
  unfold earliest
  induction rest using List.reverseRecOn with
  | nil => simp
  | append_singleton rest last ih =>
    rw [List.foldl_append, List.foldl_cons, List.foldl_nil]
    obtain ⟨inside, least⟩ := ih
    split
    · rename_i less
      constructor
      · simp
      · intro e mem
        rw [← List.cons_append, List.mem_append, List.mem_singleton] at mem
        rcases mem with old | rfl
        · exact (le_of_lt less).trans (least e old)
        · exact le_refl _
    · rename_i more
      constructor
      · rw [← List.cons_append]
        exact List.mem_append_left _ inside
      · intro e mem
        rw [← List.cons_append, List.mem_append, List.mem_singleton] at mem
        rcases mem with old | rfl
        · exact least e old
        · exact not_lt.mp more

theorem repeated_none (seen : List Moment) : repeated entries seen = none ↔
    (entries.map (·.cycleTs.moment)).Nodup ∧ ∀ e ∈ entries, e.cycleTs.moment ∉ seen := by
  induction entries generalizing seen with
  | nil => simp [repeated]
  | cons e rest ih =>
    unfold repeated
    split
    · rename_i inside
      constructor
      · intro nothing
        cases nothing
      · rintro ⟨-, apart⟩
        exact absurd inside (apart e List.mem_cons_self)
    · rename_i outside
      rw [ih, List.map_cons, List.nodup_cons, List.forall_mem_cons]
      simp only [List.mem_cons, List.mem_map, not_or, not_exists, not_and]
      constructor
      · rintro ⟨nodup, apart⟩
        exact ⟨⟨fun other mem => (apart other mem).1, nodup⟩, outside, fun other mem => (apart other mem).2⟩
      · rintro ⟨⟨new, nodup⟩, -, apart⟩
        exact ⟨nodup, fun other mem => ⟨new other mem, apart other mem⟩⟩

/-- Outcomes of cycles of their own, whose stamps can be compared. -/
structure Scorable (entries : List CycleOutcome) : Prop where
  distinct : (entries.map (·.cycleTs.moment)).Nodup
  alike : ∀ a ∈ entries, ∀ b ∈ entries, a.cycleTs.moment.aware = b.cycleTs.moment.aware

theorem comparable_iff : comparable first rest = true ↔
    ∀ a ∈ first :: rest, ∀ b ∈ first :: rest, a.cycleTs.moment.aware = b.cycleTs.moment.aware := by
  unfold comparable
  simp only [List.all_eq_true, decide_eq_true_eq]
  constructor
  · intro all
    have each : ∀ a ∈ first :: rest, a.cycleTs.moment.aware = first.cycleTs.moment.aware :=
      List.forall_mem_cons.mpr ⟨rfl, all⟩
    exact fun a inside b there => (each a inside).trans (each b there).symm
  · exact fun alike e mem => alike e (List.mem_cons_of_mem first mem) first List.mem_cons_self

/-- The one that comes first is one alone. -/
theorem Scorable.first_unique (g : Scorable entries) {a b : CycleOutcome} (inside : a ∈ entries)
    (there : b ∈ entries) (same : instant a.cycleTs = instant b.cycleTs) : a = b := by
  apply List.inj_on_of_nodup_map g.distinct inside there
  have alike := g.alike a inside b there
  cases one : a.cycleTs.moment
  cases other : b.cycleTs.moment
  simp only [instant, one, other] at same alike
  rw [same, alike]

theorem latestDate_le (first : CycleOutcome) (rest : List CycleOutcome) {now : Stamp} {d : Int}
    (done : cutoff now d ≤ instant now) : d ≤ max (latestDate first rest) (date now) := by
  apply le_max_of_le_right
  unfold cutoff boundaryOf instant Stamp.moment dayMicros freshnessWindow at done
  unfold date dayMicros
  unfold hoursPerDay hour minute second at *
  dsimp only at done
  omega

/-- What the gate reports, in terms of the days that count. -/
structure Reports (entries : List CycleOutcome) (now : Stamp) (status : GateStatus) : Prop where
  streak : ∀ last, Last entries now last →
    IsGreatest {n : Nat | ∀ i : Nat, i < n → Evaluable entries now (last - i) ∧ Clean entries now (last - i)}
      status.streak
  nothing : (∀ day, ¬ Evaluable entries now day) → status.streak = 0
  met : status.gateMet = true ↔ gateStreakDays ≤ status.streak
  spotless : status.lastFailure = none ↔ ∀ day, Evaluable entries now day → Clean entries now day
  failed : ∀ failure, status.lastFailure = some failure ↔
    ∃ day, Evaluable entries now day ∧ FirstFault entries now day failure ∧
      ∀ later, day < later → Evaluable entries now later → Clean entries now later

theorem Judged.reports {now : Stamp} {start : Int} {k : Nat} {s : Nat × Option FailureDetail}
    (judged : Judged entries now start k s)
    (days : ∀ d, Evaluable entries now d ↔ (start ≤ d ∧ d < start + k)) :
    Reports entries now ⟨s.1, gateStreakDays ≤ s.1, s.2⟩ := by
  have failing : ∀ failure, s.2 = some failure → ∃ day, Evaluable entries now day ∧
      FirstFault entries now day failure ∧
      ∀ later, day < later → Evaluable entries now later → Clean entries now later := by
    intro failure same
    obtain ⟨d, after, before, found, later⟩ := judged.failed failure same
    exact ⟨d, (days d).mpr ⟨after, before⟩, dayFailure_some.mp found, fun other above counts =>
      later other above ((days other).mp counts).2⟩
  refine ⟨?_, ?_, by simp, ⟨?_, ?_⟩, fun failure => ⟨failing failure, ?_⟩⟩
  · rintro last ⟨counts, latest⟩
    obtain ⟨after, before⟩ := (days last).mp counts
    have end_ : last = start + k - 1 := by
      have top := latest (start + k - 1) ((days _).mpr (by omega))
      omega
    constructor
    · intro i less
      have within := judged.le
      rw [end_]
      exact ⟨(days _).mpr (by dsimp only at less; omega), judged.clean i less⟩
    · intro n all
      by_contra more
      have more : s.1 < n := by simpa using more
      obtain ⟨counts, clean⟩ := all s.1 more
      have place := (days _).mp counts
      rw [end_] at clean place
      exact judged.broken (by omega) clean
  · intro never
    have le := judged.le
    have empty : k = 0 := by
      by_contra some_
      exact never start ((days start).mpr (by omega))
    show s.1 = 0
    omega
  · intro nothing day counts
    obtain ⟨after, before⟩ := (days day).mp counts
    exact judged.spotless nothing day after before
  · intro all
    show s.2 = none
    cases found : s.2 with
    | none => rfl
    | some failure =>
      obtain ⟨day, counts, failed, -⟩ := failing failure found
      rw [← dayFailure_some, dayFailure_none.mpr (all day counts)] at failed
      cases failed
  · rintro ⟨day, counts, failed, later⟩
    show s.2 = some failure
    have dirty : ∀ d f, FirstFault entries now d f → ¬ Clean entries now d := by
      intro d f found clean
      rw [← dayFailure_some, dayFailure_none.mpr clean] at found
      cases found
    cases found : s.2 with
    | none =>
      obtain ⟨after, before⟩ := (days day).mp counts
      exact absurd (judged.spotless found day after before) (dirty day failure failed)
    | some other =>
      obtain ⟨day', counts', failed', later'⟩ := failing other found
      rcases lt_trichotomy day day' with less | rfl | more
      · exact absurd (later day' less counts') (dirty day' other failed')
      · rw [← dayFailure_some] at failed failed'
        rw [← failed, failed']
      · exact absurd (later' day more counts) (dirty day failure failed)

/-- The gate reports on the days that count whenever each outcome is of a cycle of its own. -/
theorem evaluateGate_reports {now : Stamp} (scorable : Scorable entries) :
    ∃ status, evaluateGate entries now = .ok status ∧ Reports entries now status := by
  cases entries with
  | nil =>
    refine ⟨_, rfl, ?_, fun _ => rfl, by simp [gateStreakDays], ?_, ?_⟩
    · rintro last ⟨⟨⟨first, mem, -⟩, -⟩, -⟩
      cases mem
    · simp [Evaluable]
    · simp [Evaluable]
  | cons first rest =>
    have once : repeated (first :: rest) [] = none :=
      (repeated_none []).mpr ⟨scorable.distinct, by simp⟩
    have alike := comparable_iff.mpr scorable.alike
    obtain ⟨inside, least⟩ := earliest_spec first rest
    have days : ∀ d, Evaluable (first :: rest) now d ↔
        (startDay (earliest first rest) ≤ d ∧ cutoff now d ≤ instant now) := by
      intro d
      constructor
      · rintro ⟨⟨e, mem, lowest, after⟩, done⟩
        have same := scorable.first_unique mem inside (le_antisymm (lowest _ inside) (least e mem))
        exact ⟨same ▸ after, done⟩
      · rintro ⟨after, done⟩
        exact ⟨⟨_, inside, least, after⟩, done⟩
    obtain ⟨k, same, stretch⟩ := evaluableDays_eq (startDay (earliest first rest))
      (max (latestDate first rest) (date now)) fun d => latestDate_le first rest
    unfold evaluateGate
    dsimp only
    rw [once]
    dsimp only
    rw [if_pos alike, same]
    refine ⟨_, rfl, (judged_range (first :: rest) now _ k).reports ?_⟩
    intro d
    rw [days, stretch]

theorem evaluateGate_refuses {now : Stamp} (unscorable : ¬ Scorable entries) :
    ∃ e, evaluateGate entries now = .error e := by
  cases entries with
  | nil => exact absurd ⟨by simp, by simp⟩ unscorable
  | cons first rest =>
    unfold evaluateGate
    dsimp only
    cases once : repeated (first :: rest) [] with
    | some ts => exact ⟨_, rfl⟩
    | none =>
      have distinct := ((repeated_none []).mp once).1
      have mixed : ¬ comparable first rest = true :=
        fun alike => unscorable ⟨distinct, comparable_iff.mp alike⟩
      dsimp only
      rw [if_neg mixed]
      exact ⟨_, rfl⟩

theorem outcomeAt_some (distinct : (entries.map (·.cycleTs.moment)).Nodup) {boundary : Stamp}
    {e : CycleOutcome} : outcomeAt entries boundary = some e ↔
      e ∈ entries ∧ e.cycleTs.moment = boundary.moment := by
  constructor
  · intro found
    exact ⟨List.mem_of_find?_eq_some found, by simpa using List.find?_some found⟩
  · rintro ⟨mem, same⟩
    cases found : outcomeAt entries boundary with
    | none =>
      have nowhere := List.find?_eq_none.mp found e mem
      exact absurd (by simpa using same) nowhere
    | some other =>
      have there := List.mem_of_find?_eq_some found
      have equal : other.cycleTs.moment = boundary.moment := by simpa using List.find?_some found
      rw [List.inj_on_of_nodup_map distinct there mem (equal.trans same.symm)]

/-- The order the outcomes come in says nothing. -/
theorem evaluateGate_perm {now : Stamp} {entries' : List CycleOutcome} (perm : entries.Perm entries') :
    (evaluateGate entries now).toOption = (evaluateGate entries' now).toOption := by
  have carry : ∀ {a b : List CycleOutcome}, a.Perm b → Scorable a → Scorable b := by
    intro a b perm scorable
    exact ⟨(perm.map _).nodup_iff.mp scorable.distinct,
      fun x inside y there => scorable.alike x (perm.mem_iff.mpr inside) y (perm.mem_iff.mpr there)⟩
  by_cases scorable : Scorable entries
  · have scorable' := carry perm scorable
    have outcomes : outcomeAt entries = outcomeAt entries' := by
      funext boundary
      apply Option.ext
      intro e
      rw [outcomeAt_some scorable.distinct, outcomeAt_some scorable'.distinct, perm.mem_iff]
    have faults : faultOf entries = faultOf entries' := by
      funext boundary
      unfold faultOf
      rw [outcomes]
    have judges : judgeDay entries now = judgeDay entries' now := by
      funext s day
      unfold judgeDay dayFailure
      rw [faults]
    cases entries with
    | nil =>
      rw [List.nil_perm.mp perm]
    | cons first rest =>
      obtain ⟨first', rest', rfl⟩ := List.exists_cons_of_ne_nil (l := entries') (by
        rintro rfl
        exact absurd perm.eq_nil (List.cons_ne_nil first rest))
      obtain ⟨inside, least⟩ := earliest_spec first rest
      obtain ⟨inside', least'⟩ := earliest_spec first' rest'
      have same : earliest first rest = earliest first' rest' := by
        apply scorable.first_unique inside (perm.mem_iff.mpr inside')
        exact le_antisymm (least _ (perm.mem_iff.mpr inside')) (least' _ (perm.mem_iff.mp inside))
      obtain ⟨k, days, stretch⟩ := evaluableDays_eq (startDay (earliest first rest))
        (max (latestDate first rest) (date now)) fun d => latestDate_le first rest
      obtain ⟨k', days', stretch'⟩ := evaluableDays_eq (startDay (earliest first rest))
        (max (latestDate first' rest') (date now)) fun d => latestDate_le first' rest'
      have length : k = k' := by
        have one := (stretch (startDay (earliest first rest) + k)).symm.trans (stretch' _)
        have other := (stretch (startDay (earliest first rest) + k')).symm.trans (stretch' _)
        omega
      have once := (repeated_none []).mpr ⟨scorable.distinct, by simp⟩
      have once' := (repeated_none []).mpr ⟨scorable'.distinct, by simp⟩
      unfold evaluateGate
      dsimp only
      rw [once, once']
      dsimp only
      rw [if_pos (comparable_iff.mpr scorable.alike), if_pos (comparable_iff.mpr scorable'.alike), ← same,
        days, days', length, judges]
  · have unscorable' : ¬ Scorable entries' := fun other => scorable (carry perm.symm other)
    obtain ⟨e, error⟩ := evaluateGate_refuses scorable
    obtain ⟨e', error'⟩ := evaluateGate_refuses unscorable'
    rw [error, error']
    rfl

/-- Whatever the outcomes and whatever their order: those of cycles of their own are reported on as the
    days that count say, and others are refused. -/
theorem gate_specification (entries : List CycleOutcome) (now : Stamp) :
    (Scorable entries → ∃ status, evaluateGate entries now = .ok status ∧ Reports entries now status) ∧
    (¬ Scorable entries → ∃ e, evaluateGate entries now = .error e) ∧
    ∀ entries', entries.Perm entries' →
      (evaluateGate entries now).toOption = (evaluateGate entries' now).toOption :=
  ⟨evaluateGate_reports, evaluateGate_refuses, fun _ => evaluateGate_perm⟩

end

/-- A first day of which no cycle but the first ran. -/
def lone : CycleOutcome := ⟨⟨0, some 0⟩, ⟨0, some 0⟩, true, false, false⟩

/-- The boundary reported is not the last one of the day that is missing. -/
theorem first_fault_reported :
    evaluateGate [lone] ⟨dayMicros, some 0⟩ =
        .ok ⟨0, false, some ⟨⟨4 * hour, some 0⟩, "missing cycle"⟩⟩ ∧
      Evaluable [lone] ⟨dayMicros, some 0⟩ 0 ∧ boundaryOf ⟨dayMicros, some 0⟩ 0 20 = ⟨20 * hour, some 0⟩ ∧
      faultOf [lone] ⟨20 * hour, some 0⟩ = some "missing cycle" := by
  refine ⟨by decide +kernel, ⟨⟨lone, by simp, by simp, by decide⟩, by decide⟩, by decide, by decide⟩

end GateStreaks
