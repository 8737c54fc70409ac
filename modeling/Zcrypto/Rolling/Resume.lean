import Zcrypto.Tick.Floor
import Zcrypto.Rolling.Pins

/- An extension over a tape tree that stands still: it comes to an end, and one killed anywhere is completed
   by the next to what it would have placed. -/
namespace Rolling
open Tick (Pair Tape publishedDays watermark watermark_some finalOf finalExists mem_publishedDays rescanDays)

section
variable {Bytes Digest : Type} {sha256 : Content Bytes Digest → Digest} {setPairs : List Pair}
  {line : Line Digest} {days rest : List (Planned Bytes Digest)} {close : Option Close}
  {view : View Bytes} {views more : List (View Bytes)} {ended : Bool} {n : Nat}

/- Plans. -/

/-- The line a plan stands at after some of its days. -/
def lineAfter (line : Line Digest) (done : List (Planned Bytes Digest)) : Line Digest :=
  (done.getLast?.map Planned.line).getD line

theorem plan_more {r : List (Planned Bytes Digest) × Bool}
    (h : plan sha256 setPairs close views line = .ok r) :
    plan sha256 setPairs close (views ++ more) line = .ok r := by
  induction views generalizing line r with
  | nil => cases h
  | cons view views ih =>
    rw [List.cons_append, plan] at *
    by_cases done : isEnded setPairs line view.ended
    · rw [if_pos done] at h ⊢
      exact h
    · rw [if_neg done] at h ⊢
      obtain ⟨verdict, day, h⟩ := Fallible.bind_ok.mp h
      refine Fallible.bind_ok.mpr ⟨verdict, day, ?_⟩
      cases verdict with
      | waits pairs => exact h
      | writes planned =>
        obtain ⟨later, planned_later, same⟩ := Fallible.bind_ok.mp h
        exact Fallible.bind_ok.mpr ⟨later, ih planned_later, same⟩

/-- What is left of a plan is the plan from the line it stands at. -/
theorem plan_rest {done : List (Planned Bytes Digest)}
    (h : plan sha256 setPairs close (List.replicate n view) line = .ok (done ++ rest, ended)) :
    plan sha256 setPairs close (List.replicate n view) (lineAfter line done) = .ok (rest, ended) := by
  have shorter : plan sha256 setPairs close (List.replicate (n - done.length) view) (lineAfter line done) =
      .ok (rest, ended) ∧ done.length ≤ n := by
    induction done generalizing n line with
    | nil => exact ⟨h, Nat.zero_le n⟩
    | cons first done ih =>
      obtain ⟨used, left, same, -, -, later⟩ := plan_cons h
      cases n with
      | zero => cases same
      | succ n =>
        rw [List.replicate_succ] at same
        injection same with _ same
        rw [← same] at later
        obtain ⟨tail, short⟩ := ih later
        have after : lineAfter line (first :: done) = lineAfter first.line done := by
          unfold lineAfter
          cases done with
          | nil => rfl
          | cons second done =>
            rw [List.getLast?_cons_cons, List.getLast?_eq_some_getLast (List.cons_ne_nil second done)]
            rfl
        rw [after, List.length_cons, Nat.add_sub_add_right]
        exact ⟨tail, Nat.succ_le_succ short⟩
  have whole : List.replicate n view = List.replicate (n - done.length) view ++
      List.replicate done.length view := by
    rw [List.replicate_append_replicate, Nat.sub_add_cancel shorter.2]
  rw [whole]
  exact plan_more shorter.1

/-- Past its first day a close says nothing to a plan. -/
theorem plan_past {c : Close} (past : c.fromDay ≤ line.day) :
    plan sha256 setPairs (some c) views line = plan sha256 setPairs none views line := by
  induction views generalizing line with
  | nil => rfl
  | cons view views ih =>
    have carried : ∀ pair, closeOf line (some c) pair = closeOf line none pair := by
      intro pair
      have other : ¬ (line.day + 1 = c.fromDay ∧ pair ∈ c.pairs) := by
        rintro ⟨same, -⟩
        omega
      simp only [closeOf, if_neg other]
    have same : planDay sha256 view setPairs (some c) line = planDay sha256 view setPairs none line := by
      have each : finding view line (some c) = finding view line none := by
        funext pair
        simp only [finding, carried]
      rw [planDay, planDay, each]
    rw [plan, plan, same]
    cases day : planDay sha256 view setPairs none line with
    | error e => rfl
    | ok verdict =>
      cases verdict with
      | waits pairs => rfl
      | writes planned =>
        have next := (planDay_over day).day
        have later : plan sha256 setPairs (some c) views planned.line =
            plan sha256 setPairs none views planned.line := ih (by omega)
        simp only [Except.mapError, bind, Except.bind, later]

theorem continues_days {line : Line Digest} (h : Continues sha256 setPairs line days) :
    ∀ p ∈ days, line.day < p.line.day := by
  induction h with
  | nil => exact fun _ mem => absurd mem List.not_mem_nil
  | cons first _ ih =>
    intro p mem
    have next := first.day
    rcases List.mem_cons.mp mem with same | later
    · rw [same]
      omega
    · have := ih p later
      omega

theorem continues_ascending {line : Line Digest} (h : Continues sha256 setPairs line days) :
    (days.map fun p => p.line.day).Pairwise (· < ·) := by
  induction h with
  | nil => exact .nil
  | cons first rest ih =>
    rw [List.map_cons, List.pairwise_cons]
    refine ⟨?_, ih⟩
    intro d mem
    obtain ⟨p, inside, day⟩ := List.mem_map.mp mem
    have := continues_days rest p inside
    omega

theorem continues_hashed {line : Line Digest} (h : Continues sha256 setPairs line days) :
    ∀ p ∈ days, p.line = Line.of sha256 p.line.toEntry := by
  induction h with
  | nil => exact fun _ mem => absurd mem List.not_mem_nil
  | cons first _ ih =>
    intro p mem
    rcases List.mem_cons.mp mem with same | later
    · rw [same]
      exact first.hashed
    · exact ih p later

theorem continues_upTo {line : Line Digest} {done : List (Planned Bytes Digest)}
    (h : Continues sha256 setPairs line (done ++ rest)) :
    ∀ p ∈ done, p.line.day ≤ (lineAfter line done).day := by
  intro p mem
  have ascending := continues_ascending h
  rw [List.map_append] at ascending
  have ascending := (List.pairwise_append.mp ascending).1
  cases done using List.reverseRecOn with
  | nil => cases mem
  | append_singleton init q =>
    have last : lineAfter line (init ++ [q]) = q.line := by
      rw [lineAfter, List.getLast?_concat, Option.map_some, Option.getD_some]
    rw [last]
    rcases List.mem_append.mp mem with before | here
    · rw [List.map_append, List.map_singleton] at ascending
      have := (List.pairwise_append.mp ascending).2.2 p.line.day
        (List.mem_map.mpr ⟨p, before, rfl⟩) q.line.day (by simp)
      omega
    · rw [List.mem_singleton.mp here]

/- Ends. -/

theorem tape_bounded (tape : Tape Bytes) : ∃ bound, ∀ pair, ∀ d ∈ publishedDays tape pair, d ≤ bound := by
  induction tape with
  | nil => exact ⟨0, fun _ _ mem => absurd mem List.not_mem_nil⟩
  | cons item rest ih =>
    obtain ⟨bound, below⟩ := ih
    refine ⟨max bound item.1.2, ?_⟩
    intro pair d mem
    unfold publishedDays at mem below
    rw [List.filter_cons] at mem
    have older (mem : d ∈ (rest.filter fun final => final.1.1 = pair).map fun final => final.1.2) :
        d ≤ max bound item.1.2 := by
      have := below pair d mem
      omega
    split at mem
    · rw [List.map_cons] at mem
      rcases List.mem_cons.mp mem with same | later
      · omega
      · exact older later
    · exact older mem

/-- Past every final a day is planned only where each pair is closed, and the set is then ended. -/
theorem planDay_closed {tape : Tape Bytes} {planned : Planned Bytes Digest} {bound : Int}
    (below : ∀ pair, ∀ d ∈ publishedDays tape pair, d ≤ bound) (past : bound ≤ line.day)
    (h : planDay sha256 (View.still tape) setPairs close line = .ok (.writes planned)) :
    isEnded setPairs planned.line (View.still tape).ended = true := by
  obtain ⟨findings, found, same, waits⟩ := planDay_writes h
  have day := (planDay_over h).day
  have older : ∀ pair d, bound ≤ d → newestOr tape pair d ≤ d := by
    intro pair d late
    unfold newestOr
    cases newest : watermark tape pair with
    | none => exact Int.le_refl d
    | some mark =>
      have := below pair mark (watermark_some newest).1
      rw [Option.getD_some]
      omega
  have none_waits : waitingOf findings = [] := by
    rw [List.eq_nil_iff_forall_not_mem]
    intro pair mem
    have waited := waits pair mem
    have := older pair (line.day + 1) (by omega)
    have window : rescanDays = 3 := rfl
    have still : (View.still tape).newest pair = tape := rfl
    rw [still] at waited
    omega
  have closed : ∀ pair ∈ setPairs, (planned.line.notes.lookup (.closed pair)).isSome = true := by
    intro pair mem
    rw [← findings_pairs found] at mem
    obtain ⟨f, inside, name⟩ := List.mem_map.mp mem
    obtain ⟨p, -, read⟩ := Fallible.mapM_ok_source found inside
    have notes : planned.line.notes = (closedOf findings).map fun c => (.closed c.1, c.2) := by
      rw [same]
      rfl
    obtain ⟨q, kind⟩ := f
    have name : q = pair := name
    subst name
    cases kind with
    | file data =>
      -- a final of the day would be newer than every final
      unfold finding at read
      split at read
      · rename_i final there
        have exists_ : finalExists tape p (line.day + 1) = true := by
          rw [finalExists]
          have there : finalOf tape p (line.day + 1) = some final := there
          rw [there]
          rfl
        have := below p (line.day + 1) (mem_publishedDays.mpr exists_)
        omega
      · split at read
        · cases read
        · cases read
    | closed text =>
      rw [notes, List.lookup_isSome_iff]
      have listed : (q, text) ∈ closedOf findings := List.mem_filterMap.mpr ⟨_, inside, rfl⟩
      exact ⟨(.closed q, text), List.mem_map.mpr ⟨_, listed, rfl⟩, by simp⟩
    | waiting =>
      have listed : q ∈ waitingOf findings := List.mem_filterMap.mpr ⟨_, inside, rfl⟩
      rw [none_waits] at listed
      cases listed
  unfold isEnded
  rw [Bool.and_eq_true, List.all_eq_true]
  refine ⟨closed, ?_⟩
  rw [Bool.not_eq_true', List.any_eq_false]
  intro pair _
  have := older pair planned.line.day (by omega)
  have still : (View.still tape).ended pair = tape := rfl
  rw [still]
  simpa using this

/-- A plan over a tree that stands still comes to an end. -/
theorem plan_ends {tape : Tape Bytes} {bound : Int}
    (below : ∀ pair, ∀ d ∈ publishedDays tape pair, d ≤ bound)
    (enough : (bound - line.day).toNat + 2 ≤ n) :
    plan sha256 setPairs close (List.replicate n (View.still tape)) line ≠ .error .killed := by
  induction n generalizing line with
  | zero => omega
  | succ n ih =>
    intro killed
    rw [List.replicate_succ, plan] at killed
    by_cases done : isEnded setPairs line (View.still tape).ended
    · rw [if_pos done] at killed
      cases killed
    · rw [if_neg done] at killed
      rcases Fallible.bind_error.mp killed with refused | ⟨verdict, day, killed⟩
      · cases read : planDay sha256 (View.still tape) setPairs close line with
        | ok verdict =>
          rw [read] at refused
          cases refused
        | error e =>
          rw [read] at refused
          injection refused with same
          cases same
      · rw [Fallible.mapError_ok] at day
        cases verdict with
        | waits pairs => cases killed
        | writes planned =>
          have next := (planDay_over day).day
          rcases Fallible.bind_error.mp killed with later | ⟨r, -, done⟩
          · by_cases past : bound ≤ line.day
            · cases n with
              | zero => omega
              | succ n =>
                rw [List.replicate_succ, plan, if_pos (planDay_closed below past day)] at later
                cases later
            · exact ih (by omega) later
          · cases done

end

/- Extensions. -/

section
variable {Bytes Digest : Type} [DecidableEq Bytes] [DecidableEq Digest]
  {sha256 : Content Bytes Digest → Digest} {q3 : Q3 Bytes Digest} {tree : Tree Bytes Digest}
  {tape : Tape Bytes} {close close' : Option Close} {planned : List (Planned Bytes Digest)}
  {ended : Bool} {n kill : Nat}

/-- An extension over a tape tree that stands still, with so many views of it. -/
def Run.over (tape : Tape Bytes) (n : Nat) (close : Option Close) : Run Bytes :=
  .extend (fun _ => tape) (List.replicate n (View.still tape)) close

/-- The tree a run leaves when nothing kills it. -/
def Run.finish (sha256 : Content Bytes Digest → Digest) (q3 : Q3 Bytes Digest) (tree : Tree Bytes Digest)
    (run : Run Bytes) : Tree Bytes Digest :=
  WriteOnce.fill tree (run.placements sha256 q3 tree)

/-- The close the next run is given: the same, or none once the line it begins with is placed. -/
def Again (before after : Tree Bytes Digest) (close close' : Option Close) : Prop :=
  (close' = close ∧ ∀ c, close = some c → isFile after (.line c.fromDay) = false) ∨
    (close' = none ∧ ∃ c, close = some c ∧ isFile before (.line c.fromDay) = false ∧
      isFile after (.line c.fromDay) = true)

omit [DecidableEq Bytes] in
theorem extend_ends (sha256 : Content Bytes Digest → Digest) (tree : Tree Bytes Digest) (tape : Tape Bytes)
    (close : Option Close) : ∃ enough, ∀ n, enough ≤ n → extend sha256 tree (fun _ => tape)
      (List.replicate n (View.still tape)) close ≠ .error .killed := by
  obtain ⟨bound, below⟩ := tape_bounded tape
  cases head : head sha256 tree with
  | error e =>
    refine ⟨0, fun n _ killed => ?_⟩
    rw [extend, head] at killed
    rcases Fallible.bind_error.mp killed with base | ⟨-, -, rest⟩
    · cases base_ok : require (isFile tree (.line baseDay)) .noBaseLine with
      | ok u =>
        rw [base_ok] at base
        cases base
      | error e =>
        rw [base_ok] at base
        injection base with same
        cases same
    · injection rest with same
      cases same
  | ok line =>
    refine ⟨(bound - line.day).toNat + 2, fun n enough killed => ?_⟩
    have refuses {α : Type} (x : Except RollingError α) : x.mapError Halt.refused ≠ .error .killed := by
      cases x with
      | ok a => exact fun h => nomatch h
      | error e => exact fun h => nomatch h
    rw [extend] at killed
    rcases Fallible.bind_error.mp killed with base | ⟨-, -, killed⟩
    · exact refuses _ base
    rcases Fallible.bind_error.mp killed with none | ⟨top, same, killed⟩
    · exact refuses _ none
    rcases Fallible.bind_error.mp killed with none | ⟨setPairs, -, killed⟩
    · exact refuses _ none
    rcases Fallible.bind_error.mp killed with closing | ⟨-, -, killed⟩
    · exact refuses _ closing
    rw [head] at same
    injection same with same
    subst same
    rcases Fallible.bind_error.mp killed with planning | ⟨⟨days, stop⟩, -, killed⟩
    · exact plan_ends below enough planning
    rcases Fallible.bind_error.mp killed with written | ⟨-, -, done⟩
    · exact refuses _ written
    · cases done

omit [DecidableEq Bytes] in
theorem Run.over_placements (h : Rolling.extend sha256 tree (fun _ => tape)
    (List.replicate n (View.still tape)) close = .ok (planned, ended)) :
    (Run.over tape n close).placements sha256 q3 tree = planned.flatMap Planned.placements := by
  simp only [Run.over, Run.placements, h]

omit [DecidableEq Bytes] [DecidableEq Digest] in
theorem Sound.isFile_line (sound : Sound sha256 tree) {d : Int} :
    isFile tree (.line d) = true ↔ d ∈ (entriesIn tree).map Entry.day := by
  constructor
  · intro there
    obtain ⟨content, found⟩ := Option.isSome_iff_exists.mp there
    have fits := sound.fits _ ((Keyed.lookup_iff sound.distinct).mp found)
    cases content with
    | frame data => exact fits.elim
    | line e =>
      obtain ⟨mem, day⟩ := sound.line_found found
      exact List.mem_map.mpr ⟨e, mem, day⟩
  · intro mem
    obtain ⟨e, inside, day⟩ := List.mem_map.mp mem
    rw [isFile, ← day, sound.found inside]
    rfl

/-- The next extension plans what the killed one had left. -/
theorem extend_again (sound : Sound sha256 tree) (h : extend sha256 tree (fun _ => tape)
    (List.replicate n (View.still tape)) close = .ok (planned, ended)) (kill : Nat)
    (again : Again tree ((Run.over tape n close).leaves sha256 q3 tree kill) close close') :
    ∃ done rest, planned = done ++ rest ∧
      WriteOnce.Held ((Run.over tape n close).leaves sha256 q3 tree kill) (done.flatMap Planned.placements) ∧
      extend sha256 ((Run.over tape n close).leaves sha256 q3 tree kill) (fun _ => tape)
        (List.replicate n (View.still tape)) close' = .ok (rest, ended) := by
  obtain ⟨line, setPairs, spec⟩ := extend_ok.mp h
  obtain ⟨base, later, below, e, first, last, same, pairs⟩ := spec.begins sound
  subst same pairs
  have continues := plan_continues spec.plan
  obtain ⟨done, rest, parted, held, kept, entries⟩ := placed_days sound first last continues kill
  have leaves : (Run.over tape n close).leaves sha256 q3 tree kill =
      WriteOnce.fill tree ((planned.flatMap Planned.placements).take kill) := by
    rw [Run.leaves, Run.over_placements h]
  rw [leaves] at again ⊢
  generalize WriteOnce.fill tree ((planned.flatMap Planned.placements).take kill) = t at *
  refine ⟨done, rest, parted, held, extend_ok.mpr ?_⟩
  have opening : entriesIn t = base :: (later ++ done.map fun day => day.line.toEntry) := by
    rw [entries, first, List.cons_append]
  have head : head sha256 t = .ok (lineAfter (Line.of sha256 e) done) := by
    cases done using List.reverseRecOn with
    | nil =>
      rw [List.map_nil, List.append_nil, last] at entries
      exact kept.head entries
    | append_singleton init p =>
      have hashed := continues_hashed continues p (by rw [parted]; simp)
      rw [List.map_append, List.map_singleton, ← List.append_assoc] at entries
      rw [kept.head entries, lineAfter, List.getLast?_concat, Option.map_some, Option.getD_some, ← hashed]
  have planned_rest := plan_rest (parted ▸ spec.plan)
  have days := continues_days continues
  have written := spec.written
  have there : isFile t (.line baseDay) = true := by
    rw [kept.isFile_line, entries, List.map_append]
    exact List.mem_append_left _ (sound.isFile_line.mp spec.base)
  refine ⟨lineAfter (Line.of sha256 e) done, setOf base, there, head, kept.pairs opening, ?_, ?_, ?_⟩
  · rcases again with ⟨same, -⟩ | ⟨none, -⟩
    · rw [same]
      exact spec.closable
    · rw [none]
      rfl
  · rcases again with ⟨same, -⟩ | ⟨none, c, closed, absent, placed⟩
    · rw [same]
      exact planned_rest
    · rw [none, ← plan_past (c := c), ← closed]
      · exact planned_rest
      · -- the close's first line is one of those placed, none of which is past the last
        rw [kept.isFile_line, entries, List.map_append] at placed
        rcases List.mem_append.mp placed with old | new
        · rw [← sound.isFile_line, absent] at old
          cases old
        · rw [List.map_map] at new
          obtain ⟨p, inside, day⟩ := List.mem_map.mp new
          have upTo := continues_upTo (parted ▸ continues) p inside
          have day : p.line.day = c.fromDay := day
          omega
  · rcases again with ⟨same, absent⟩ | ⟨none, -⟩
    · rw [same]
      cases close with
      | none => rfl
      | some c =>
        have listed : c.fromDay ∈ planned.map fun day => day.line.day := by
          simpa using require_ok.mp written
        have absent := absent c rfl
        rw [parted, List.map_append] at listed
        apply require_ok.mpr
        rcases List.mem_append.mp listed with placed | left
        · have there : isFile t (.line c.fromDay) = true := by
            rw [kept.isFile_line, entries, List.map_append, List.map_map]
            exact List.mem_append_right _ placed
          rw [there] at absent
          cases absent
        · simpa using left
    · rw [none]
      rfl

/-- Killed anywhere and run again, an extension leaves the tree it would have left. -/
theorem extend_completes (sound : Sound sha256 tree) (kill : Nat)
    (again : Again tree ((Run.over tape n close).leaves sha256 q3 tree kill) close close') :
    (Run.over tape n close').finish sha256 q3 ((Run.over tape n close).leaves sha256 q3 tree kill) =
      (Run.over tape n close).finish sha256 q3 tree := by
  cases h : extend sha256 tree (fun _ => tape) (List.replicate n (View.still tape)) close with
  | error e =>
    have idle : (Run.over tape n close).placements sha256 q3 tree = [] := by
      simp only [Run.over, Run.placements, h]
    have same : (Run.over tape n close).leaves sha256 q3 tree kill = tree := by
      rw [Run.leaves, idle, List.take_nil]
      rfl
    rw [same] at again ⊢
    rcases again with ⟨same, -⟩ | ⟨-, c, -, absent, placed⟩
    · rw [same]
    · rw [absent] at placed
      cases placed
  | ok result =>
    obtain ⟨planned, ended⟩ := result
    obtain ⟨done, rest, parted, held, next⟩ := extend_again sound h kill again
    have first : (Run.over tape n close).placements sha256 q3 tree =
        planned.flatMap Planned.placements := Run.over_placements h
    rw [Run.finish, Run.finish, first, Run.over_placements next]
    have resumed : WriteOnce.fill ((Run.over tape n close).leaves sha256 q3 tree kill)
        (planned.flatMap Planned.placements) =
          WriteOnce.fill tree (planned.flatMap Planned.placements) := by
      rw [Run.leaves, first]
      have both := WriteOnce.fill_resume tree ((planned.flatMap Planned.placements).take kill)
        ((planned.flatMap Planned.placements).drop kill)
      rw [List.take_append_drop] at both
      exact both
    rw [← resumed, parted, List.flatMap_append, WriteOnce.fill_held held]

/-- Nothing placed changes, each line placed continues the chain of the head, what was read is read again,
    and an extension that was killed is completed by the next. -/
theorem pins_kept (reached : Later sha256 q3 [] tree) :
    (∀ t, Later sha256 q3 tree t → ∀ path content, tree.lookup path = some content →
      t.lookup path = some content) ∧
    (∀ (run : Run Bytes) kill d content, (run.leaves sha256 q3 tree kill).lookup (.line d) = none →
      (run.leaves sha256 q3 tree (kill + 1)).lookup (.line d) = some content →
        ∃ e, content = .line e ∧ e.day = d ∧ Placed sha256 (run.leaves sha256 q3 tree kill) e) ∧
    (∀ t, Later sha256 q3 tree t → ∀ (Row : Type) (frames : Frames Bytes Row) pair interval asOf window
      acceptHoles read, readRolling sha256 frames tree pair interval asOf window acceptHoles = .ok read →
        readRolling sha256 frames t pair interval asOf window acceptHoles = .ok read) ∧
    ∀ (tape : Tape Bytes) close, (∃ enough, ∀ n, enough ≤ n → extend sha256 tree (fun _ => tape)
        (List.replicate n (View.still tape)) close ≠ .error .killed) ∧
      ∀ n kill close', Again tree ((Run.over tape n close).leaves sha256 q3 tree kill) close close' →
        (Run.over tape n close').finish sha256 q3 ((Run.over tape n close).leaves sha256 q3 tree kill) =
          (Run.over tape n close).finish sha256 q3 tree := by
  have sound := (reached.keeps Sound.empty).1
  refine ⟨?_, ?_, ?_, ?_⟩
  · intro t later
    exact (later.keeps sound).2.1
  · intro run kill d content absent found
    exact leaves_next sound run kill absent found
  · intro t later Row frames pair interval asOf window acceptHoles read h
    obtain ⟨kept, grows, gained, appended⟩ := later.keeps sound
    exact readRolling_appends sound kept grows appended h
  · intro tape close
    exact ⟨extend_ends sha256 tree tape close, fun n kill close' again => extend_completes sound kill again⟩

end

section

def aQuarter : Q3 Nat Nat := ⟨[("A/B", 0)], by decide, fun _ => .ok "h"⟩

def aBase : Run Nat := .stageBase ⟨"q", [("A/B", 7)], .ok ⟨"i", [("A/B", "h")]⟩⟩

theorem pins_kept_base : (aBase.leaves (fun _ => 0) aQuarter
    (aBase.leaves (fun _ => 0) aQuarter [] 2) 5).lookup (.base "A/B") = some (.frame 7) := by
  have reached : Later (fun _ => 0) aQuarter [] (aBase.leaves (fun _ => 0) aQuarter [] 2) :=
    .single ⟨aBase, 2, rfl⟩
  have later : Later (fun _ => 0) aQuarter (aBase.leaves (fun _ => 0) aQuarter [] 2)
      (aBase.leaves (fun _ => 0) aQuarter (aBase.leaves (fun _ => 0) aQuarter [] 2) 5) :=
    .single ⟨aBase, 5, rfl⟩
  exact (pins_kept reached).1 _ later _ _ (by decide +kernel)

end

end Rolling
