import Zcrypto.Tick.Floor
import Zcrypto.Rolling.Plan

/- Sweeps and extensions in one history. A line says that a day is a hole once the pair's newest final is
   more than the re-scan window past it, and from then on no sweep comes back to the day. -/
namespace Rolling
open Tick

section
variable {Bytes Digest : Type} {sha256 : Content Bytes Digest → Digest}
  {setPairs : List Pair} {close : Option Close} {view : View Bytes} {views : List (View Bytes)}
  {line : Line Digest} {planned : Planned Bytes Digest} {days : List (Planned Bytes Digest)}
  {ended : Bool} {findings : List (Pair × Finding Bytes)} {p : Pair} {d mark : Int}

/- One day of a plan. -/

theorem newestOr_past {tape : Tape Bytes} (past : d + rescanDays < newestOr tape p d) :
    ∃ mark ∈ publishedDays tape p, d + rescanDays < mark := by
  unfold newestOr at past
  cases newest : watermark tape p with
  | none =>
    rw [newest, Option.getD_none] at past
    have : rescanDays = 3 := rfl
    omega
  | some mark =>
    rw [newest, Option.getD_some] at past
    exact ⟨mark, (watermark_some newest).1, past⟩

/-- A hole past the window is of a pair the day would wait on. -/
theorem hole_waits (hole : (p, pastTheWindow) ∈ (entryOf sha256 line findings).holes) :
    p ∈ waitingOf findings := by
  simp only [entryOf, List.mem_append, List.mem_map, Prod.mk.injEq] at hole
  rcases hole with ⟨c, -, -, other⟩ | ⟨q, mem, same, -⟩
  · exact absurd other (by decide)
  · exact same ▸ mem

theorem plan_hole (h : plan sha256 setPairs close views line = .ok (days, ended))
    (mem : planned ∈ days) (hole : (p, pastTheWindow) ∈ planned.line.holes) :
    ∃ view ∈ views, ∃ mark ∈ publishedDays (view.newest p) p, planned.line.day + rescanDays < mark := by
  induction days generalizing views line with
  | nil => cases mem
  | cons first more ih =>
    obtain ⟨view, rest, same, -, day, later⟩ := plan_cons h
    subst same
    rcases List.mem_cons.mp mem with here | after
    · subst here
      obtain ⟨findings, -, same, past⟩ := planDay_writes day
      rw [same] at hole ⊢
      exact ⟨view, List.mem_cons_self, newestOr_past (past p (hole_waits hole))⟩
    · obtain ⟨view, inside, rest⟩ := ih later after
      exact ⟨view, List.mem_cons_of_mem _ inside, rest⟩

end

/- One history. -/

inductive Act (Bytes : Type) where
  | sweep (event : Event Bytes)
  /-- An extension or a base, all its reads done, killed after so many renames. -/
  | run (run : Run Bytes) (kill : Nat)

def Act.event {Bytes : Type} : Act Bytes → Option (Event Bytes)
  | .sweep event => some event
  | .run _ _ => none

section
variable {Bytes Digest : Type} [DecidableEq Bytes] [DecidableEq Digest]
  (sha256 : Content Bytes Digest → Digest) (q3 : Q3 Bytes Digest)

/-- The sweeps' world before an act. -/
def worldBefore (acts : List (Act Bytes)) (n : Nat) : World Bytes :=
  ((acts.take n).filterMap Act.event).foldl World.after {}

def tapeAt (acts : List (Act Bytes)) (n : Nat) : Tape Bytes :=
  (worldBefore acts n).tape

def treeAfter (tree : Tree Bytes Digest) : Act Bytes → Tree Bytes Digest
  | .sweep _ => tree
  | .run run kill => run.leaves sha256 q3 tree kill

def treeAt (acts : List (Act Bytes)) (n : Nat) : Tree Bytes Digest :=
  (acts.take n).foldl (treeAfter sha256 q3) []

/-- Each read of a tape tree finds it as it was at some time before. -/
structure View.Drawn (acts : List (Act Bytes)) (n : Nat) (view : View Bytes) : Prop where
  ended : ∀ p, ∃ k ≤ n, view.ended p = tapeAt acts k
  final : ∀ p, ∃ k ≤ n, view.final p = tapeAt acts k
  newest : ∀ p, ∃ k ≤ n, view.newest p = tapeAt acts k

def Witnessed (acts : List (Act Bytes)) : Prop :=
  ∀ n opening views close kill, acts[n]? = some (Act.run (Run.extend opening views close) kill) →
    ∀ view ∈ views, view.Drawn acts n

/-- The index at a time says that a day is a hole of the pair past the window. -/
def Recorded (acts : List (Act Bytes)) (n : Nat) (p : Pair) (d : Int) : Prop :=
  ∃ entry, (treeAt sha256 q3 acts n).lookup (.line d) = some (.line entry) ∧
    (p, pastTheWindow) ∈ entry.holes

/-- A sweep comes to a pair and that pair's archived days. -/
structure Visited (acts : List (Act Bytes)) (n : Nat) (sweep : Sweep) (p : Pair) (days : List Int) :
    Prop where
  event : acts[n]? = some (Act.sweep Event.visit)
  under : (worldBefore acts n).sweep = some sweep
  finished : sweep.todo = []
  next : ∃ left, sweep.left = (p, days) :: left

/-- A sweep's candidates of a pair, and the days it counts as gaps. -/
def reached (acts : List (Act Bytes)) (n : Nat) (sweep : Sweep) (p : Pair) (days : List Int) :
    List Int × List Int :=
  candidates (tapeAt acts n) p sweep.start.rescan (days.filter sweep.start.settles)

def ExactlyOne (a b c : Prop) : Prop :=
  (a ∧ ¬ b ∧ ¬ c) ∨ (¬ a ∧ b ∧ ¬ c) ∨ (¬ a ∧ ¬ b ∧ c)

variable {sha256 q3} {acts : List (Act Bytes)} {n m k : Nat} {p : Pair} {d : Int}

/-- How many of the first acts are the sweeps'. -/
def sweepsIn (acts : List (Act Bytes)) (n : Nat) : Nat :=
  ((acts.take n).filterMap Act.event).length

omit [DecidableEq Bytes] in
/-- The sweeps of a history are a history of sweeps. -/
theorem worldBefore_at (acts : List (Act Bytes)) (n : Nat) :
    worldBefore acts n = worldAt (acts.filterMap Act.event) (sweepsIn acts n) := by
  have inside : (acts.take n).filterMap Act.event <+: acts.filterMap Act.event :=
    (List.take_prefix n acts).filterMap Act.event
  rw [worldBefore, worldAt, sweepsIn, ← List.prefix_iff_eq_take.mp inside]

omit [DecidableEq Bytes] in
theorem sweepsIn_mono (later : n ≤ m) : sweepsIn acts n ≤ sweepsIn acts m := by
  have inside : (acts.take n).filterMap Act.event <+: (acts.take m).filterMap Act.event :=
    (List.take_prefix_take_left later).filterMap Act.event
  exact inside.length_le

omit [DecidableEq Bytes] in
theorem sweepsIn_next (next : acts[n]? = some (Act.sweep Event.visit)) :
    sweepsIn acts (n + 1) = sweepsIn acts n + 1 ∧
      (acts.filterMap Act.event)[sweepsIn acts n]? = some Event.visit := by
  have more : acts.take (n + 1) = acts.take n ++ [.sweep .visit] := by
    rw [List.take_add_one, next, Option.toList_some]
  have events : (acts.take (n + 1)).filterMap Act.event =
      (acts.take n).filterMap Act.event ++ [.visit] := by
    rw [more, List.filterMap_append]
    rfl
  have longer : sweepsIn acts (n + 1) = sweepsIn acts n + 1 := by
    rw [sweepsIn, events, List.length_append]
    rfl
  have inside : (acts.take (n + 1)).filterMap Act.event <+: acts.filterMap Act.event :=
    (List.take_prefix (n + 1) acts).filterMap Act.event
  obtain ⟨rest, whole⟩ := inside
  refine ⟨longer, ?_⟩
  rw [← whole, events, List.append_assoc, sweepsIn, List.getElem?_append_right (Nat.le_refl _),
    Nat.sub_self]
  rfl

omit [DecidableEq Bytes] in
/-- A base line has no holes, so a line with one was planned by an extension. -/
theorem placed_hole {tree : Tree Bytes Digest} {run : Run Bytes} {entry : Entry Digest}
    (mem : (Path.line d, Content.line entry) ∈ run.placements sha256 q3 tree)
    (hole : (p, pastTheWindow) ∈ entry.holes) :
    ∃ opening views close line setPairs days ended planned, run = .extend opening views close ∧
      plan sha256 setPairs close views line = .ok (days, ended) ∧ planned ∈ days ∧
      planned.line.toEntry = entry ∧ planned.line.day = d := by
  rcases placements_mem mem with ⟨source, manifest, staged, -, -, mem⟩ |
    ⟨opening, views, close, line, setPairs, days, ended, same, spec, mem⟩
  · rcases List.mem_append.mp mem with file | line
    · obtain ⟨file, -, same⟩ := List.mem_map.mp file
      injection same with path content
      cases content
    · injection List.mem_singleton.mp line with day same
      injection same with same
      rw [same] at hole
      cases hole
  · obtain ⟨planned, inside, mem⟩ := List.mem_flatMap.mp mem
    refine ⟨opening, views, close, line, setPairs, days, ended, planned, same, spec.plan, inside, ?_⟩
    rcases List.mem_append.mp mem with file | here
    · obtain ⟨file, -, same⟩ := List.mem_map.mp file
      injection same with path content
      cases content
    · injection List.mem_singleton.mp here with day same
      injection day with day
      injection same with same
      exact ⟨same.symm, day.symm⟩

/-- A hole of the index was placed by an extension that had read the pair's newest final past the window. -/
theorem recorded_read (witnessed : Witnessed acts) (recorded : Recorded sha256 q3 acts n p d) :
    ∃ k ≤ n, ∃ mark ∈ publishedDays (tapeAt acts k) p, d + rescanDays < mark := by
  obtain ⟨entry, found, hole⟩ := recorded
  induction n with
  | zero => cases found
  | succ n ih =>
    cases next : acts[n]? with
    | none =>
      have short := List.getElem?_eq_none_iff.mp next
      rw [treeAt, List.take_of_length_le (Nat.le_succ_of_le short), ← List.take_of_length_le short] at found
      obtain ⟨k, before, rest⟩ := ih found
      exact ⟨k, Nat.le_succ_of_le before, rest⟩
    | some act =>
      have more : acts.take (n + 1) = acts.take n ++ [act] := by
        rw [List.take_add_one, next, Option.toList_some]
      rw [treeAt, more, List.foldl_concat] at found
      have earlier (found : (treeAt sha256 q3 acts n).lookup (.line d) = some (.line entry)) :
          ∃ k ≤ n + 1, ∃ mark ∈ publishedDays (tapeAt acts k) p, d + rescanDays < mark := by
        obtain ⟨k, before, rest⟩ := ih found
        exact ⟨k, Nat.le_succ_of_le before, rest⟩
      cases act with
      | sweep event => exact earlier found
      | run run kill =>
        rcases WriteOnce.fill_new found with old | new
        · exact earlier old
        · obtain ⟨opening, views, close, line, setPairs, days, ended, planned, same, spec, mem, exactly,
            day⟩ := placed_hole (List.mem_of_mem_take new) hole
          rw [same] at next
          obtain ⟨view, inside, mark, published, past⟩ := plan_hole spec mem (exactly ▸ hole)
          obtain ⟨k, before, drawn⟩ := (witnessed n opening views close kill next view inside).newest p
          rw [drawn] at published
          exact ⟨k, Nat.le_succ_of_le before, mark, published, day ▸ past⟩

theorem recorded_closed (clocked : Clocked (acts.filterMap Act.event))
    (unwidened : Unwidened (acts.filterMap Act.event)) (witnessed : Witnessed acts)
    (recorded : Recorded sha256 q3 acts n p d) : Closed (begunAt (acts.filterMap Act.event)
      (sweepsIn acts n)) (worldAt (acts.filterMap Act.event) (sweepsIn acts n)) p d := by
  obtain ⟨k, before, mark, published, past⟩ := recorded_read witnessed recorded
  have narrow : ∀ s ∈ begunAt (acts.filterMap Act.event) (sweepsIn acts k), s.rescan ≤ rescanDays := by
    intro s mem
    apply unwidened.2
    exact ((List.take_sublist _ _).filterMap startOf).subset mem
  rw [tapeAt, worldBefore_at] at published
  have closed := (steady_at clocked unwidened (sweepsIn acts k)).closed published past narrow
  exact closed_stays clocked unwidened closed (sweepsIn_mono before)

omit [DecidableEq Bytes] in
/-- A settled archived day is published, a candidate, or a gap. -/
theorem visited_partition {sweep : Sweep} {days : List Int} (mem : d ∈ days)
    (settled : sweep.start.settles d = true) : ExactlyOne (finalExists (tapeAt acts n) p d = true)
      (d ∈ (reached acts n sweep p days).1 ∧ finalExists (tapeAt acts n) p d = false)
      (d ∈ (reached acts n sweep p days).2) := by
  have mem : d ∈ days.filter sweep.start.settles := List.mem_filter.mpr ⟨mem, settled⟩
  cases published : finalExists (tapeAt acts n) p d with
  | true =>
    refine .inl ⟨rfl, by simp, ?_⟩
    intro gap
    have open_ := (gap_open gap).2
    rw [published] at open_
    cases open_
  | false =>
    have either : d ∈ (reached acts n sweep p days).2 ↔ d ∉ (reached acts n sweep p days).1 :=
      todo_or_gap mem published
    by_cases todo : d ∈ (reached acts n sweep p days).1
    · exact .inr (.inl ⟨by simp, ⟨todo, rfl⟩, fun gap => either.mp gap todo⟩)
    · exact .inr (.inr ⟨by simp, fun both => todo both.1, either.mpr todo⟩)

omit [DecidableEq Bytes] in
theorem visited_counts {sweep : Sweep} {days : List Int} (visited : Visited acts n sweep p days) :
    ∃ after, (worldBefore acts (n + 1)).sweep = some after ∧ after.pair = p ∧
      after.todo = (reached acts n sweep p days).1 ∧
      after.result.daysGap = sweep.result.daysGap + (reached acts n sweep p days).2.length := by
  obtain ⟨event, under, finished, left, next⟩ := visited
  obtain ⟨count, here⟩ := sweepsIn_next event
  refine ⟨sweep.visit (tapeAt acts n), ?_, ?_, ?_, ?_⟩
  · rw [worldBefore_at, count, (worldAt_next here).1, ← worldBefore_at]
    simp only [World.after, under, if_pos finished, tapeAt]
  all_goals rw [Sweep.visit, next]
  all_goals rfl

/-- The days a line calls holes past the window get no final once the line is there, and a day that a sweep
    counts as a gap is no candidate of any pair's sweep again. -/
theorem holes_final (clocked : Clocked (acts.filterMap Act.event))
    (unwidened : Unwidened (acts.filterMap Act.event)) (witnessed : Witnessed acts) :
    (∀ n p d, Recorded sha256 q3 acts n p d → ∀ m, n ≤ m → finalExists (tapeAt acts m) p d = true →
      finalExists (tapeAt acts n) p d = true) ∧
    ∀ n sweep p days, Visited acts n sweep p days → days = daysOf sweep.index p ∧
      (∃ after, (worldBefore acts (n + 1)).sweep = some after ∧ after.pair = p ∧
        after.todo = (reached acts n sweep p days).1 ∧
        after.result.daysGap = sweep.result.daysGap + (reached acts n sweep p days).2.length) ∧
      (∀ d ∈ days, sweep.start.settles d = true →
        ExactlyOne (finalExists (tapeAt acts n) p d = true)
          (d ∈ (reached acts n sweep p days).1 ∧ finalExists (tapeAt acts n) p d = false)
          (d ∈ (reached acts n sweep p days).2)) ∧
      ∀ d ∈ (reached acts n sweep p days).2, ∀ m, n < m → ∀ later,
        (worldBefore acts m).sweep = some later → later.pair = p → d ∉ later.todo := by
  constructor
  · intro n p d recorded m later published
    have closed := recorded_closed clocked unwidened witnessed recorded
    rw [← mem_publishedDays, tapeAt, worldBefore_at] at published ⊢
    exact closed_never clocked unwidened closed (sweepsIn_mono later) published
  · intro n sweep p days visited
    have counts := visited_counts visited
    obtain ⟨event, sweeping, finished, left, next⟩ := visited
    obtain ⟨count, first⟩ := sweepsIn_next event
    rw [worldBefore_at] at sweeping
    have sound := (steady_at clocked unwidened (sweepsIn acts n)).sweep sweep sweeping
    refine ⟨sound.calendar (p, days) (next ▸ List.mem_cons_self), counts,
      fun d mem settled => visited_partition mem settled, ?_⟩
    intro d gap m past later under here
    rw [reached, tapeAt, worldBefore_at] at gap
    have closed := (steady_at clocked unwidened (sweepsIn acts n)).gap sweeping finished next gap
    have begun : withBegun (begunAt (acts.filterMap Act.event) (sweepsIn acts n)) (Event.visit : Event Bytes) =
        begunAt (acts.filterMap Act.event) (sweepsIn acts n) := by
      rw [withBegun]
      exact List.append_nil _
    have closed : Closed (begunAt (acts.filterMap Act.event) (sweepsIn acts (n + 1)))
        (worldAt (acts.filterMap Act.event) (sweepsIn acts (n + 1))) p d := by
      rw [count, (worldAt_next first).1, (worldAt_next first).2, begun]
      exact closed
    have still := closed_stays clocked unwidened closed (sweepsIn_mono past)
    rw [worldBefore_at] at under
    exact still.passed later under here

end

/- One pair, five days, the first of which fails until every later one has its final. -/

section

def firstSweep : Start := { now := (baseDay + 6) * dayMicros + tapeSettle }

def tried : List (Attempt Nat) :=
  [.raised "EIO", .written 2 1, .written 3 1, .written 4 1, .written 5 1]

def sweptThenStaged : List (Act Nat) :=
  ((List.range 5).map fun i => .sweep (.mint "A/B" ((baseDay + 1 + i) * 24))) ++
    [.sweep (.start firstSweep), .sweep .visit] ++ tried.map (fun a => .sweep (.attempt a)) ++
    [.run (.stageBase ⟨"q", [("A/B", 7)], .ok ⟨"i", [("A/B", "h")]⟩⟩) 2]

def wideSweep : List (Act Nat) :=
  [.sweep (.start { firstSweep with rescan := 9 }), .sweep .visit, .sweep (.attempt (.written 1 1))]

def stillTape : Tape Nat := tapeAt sweptThenStaged 13

theorem onePair_some : ([("A/B", 0)] : List (Pair × Nat)) ≠ [] := by decide

def onePair : Q3 Nat Nat := ⟨[("A/B", 0)], onePair_some, fun _ => .ok "h"⟩

def anExtension : Act Nat :=
  .run (.extend (fun _ => stillTape) (List.replicate 6 (View.still stillTape)) none) 20

def reopening : List (Act Nat) := sweptThenStaged ++ [anExtension] ++ wideSweep

def isExtension : Act Nat → Bool
  | .run (.extend _ _ _) _ => true
  | _ => false

/-- A history of one extension, whose reads find the tree of that time. -/
theorem witnessed_once {acts : List (Act Nat)} (there : acts[13]? = some anExtension)
    (once : ∀ n < acts.length, n ≠ 13 → acts[n]?.map isExtension = some false)
    (still : tapeAt acts 13 = stillTape) : Witnessed acts := by
  intro n opening views close kill next view mem
  by_cases here : n = 13
  · subst here
    rw [there] at next
    injection next with same
    injection same with same
    injection same with _ same
    rw [← same] at mem
    rw [(List.mem_replicate.mp mem).2]
    exact ⟨fun _ => ⟨13, Nat.le_refl _, still.symm⟩, fun _ => ⟨13, Nat.le_refl _, still.symm⟩,
      fun _ => ⟨13, Nat.le_refl _, still.symm⟩⟩
  · have inside := (List.getElem?_eq_some_iff.mp next).1
    have other := once n inside here
    rw [next] at other
    cases other

def noteless : Entry Nat :=
  { day := baseDay + 1
    prev := some 0
    files := []
    holes := [("A/B", pastTheWindow)]
    notes := [] }

theorem holes_final_swept : Recorded (fun _ => 0) onePair (sweptThenStaged ++ [anExtension]) 14 "A/B"
      (baseDay + 1) ∧ ∀ m, 14 ≤ m →
    finalExists (tapeAt (sweptThenStaged ++ [anExtension]) m) "A/B" (baseDay + 1) = true →
      finalExists (tapeAt (sweptThenStaged ++ [anExtension]) 14) "A/B" (baseDay + 1) = true := by
  have recorded : Recorded (fun _ => 0) onePair (sweptThenStaged ++ [anExtension]) 14 "A/B"
      (baseDay + 1) := ⟨noteless, by decide +kernel, List.mem_cons_self⟩
  have once : ∀ n < (sweptThenStaged ++ [anExtension]).length, n ≠ 13 →
      (sweptThenStaged ++ [anExtension])[n]?.map isExtension = some false := by decide +kernel
  have clocked : Clocked ((sweptThenStaged ++ [anExtension]).filterMap Act.event) := by decide +kernel
  have unwidened : Unwidened ((sweptThenStaged ++ [anExtension]).filterMap Act.event) := by
    decide +kernel
  have final := @holes_final Nat Nat _ _ (fun _ => 0) onePair _ clocked unwidened
    (witnessed_once rfl once rfl)
  exact ⟨recorded, final.1 14 "A/B" (baseDay + 1) recorded⟩

/-- A sweep told to look back further publishes the day that a line calls a hole. -/
theorem holes_reopened : ∃ acts : List (Act Nat), Clocked (acts.filterMap Act.event) ∧ Witnessed acts ∧
    Recorded (fun _ => 0) onePair acts 14 "A/B" (baseDay + 1) ∧
    finalExists (tapeAt acts 14) "A/B" (baseDay + 1) = false ∧
    finalExists (tapeAt acts 17) "A/B" (baseDay + 1) = true := by
  have once : ∀ n < reopening.length, n ≠ 13 → reopening[n]?.map isExtension = some false := by
    decide +kernel
  refine ⟨reopening, by decide +kernel, witnessed_once rfl once rfl, ?_, by decide +kernel,
    by decide +kernel⟩
  exact ⟨noteless, by decide +kernel, List.mem_cons_self⟩

end

end Rolling
