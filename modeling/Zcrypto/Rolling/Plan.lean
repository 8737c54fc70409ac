import Zcrypto.Fallible
import Zcrypto.Rolling.Index

/- What a plan says of each day it writes, and what is written. -/
namespace Rolling
open Tick (Pair Tape Final finalOf watermark rescanDays)

section
variable {Bytes Digest : Type} {sha256 : Content Bytes Digest → Digest}
  {setPairs : List Pair} {close : Option Close} {view : View Bytes} {views : List (View Bytes)}
  {line : Line Digest} {planned : Planned Bytes Digest} {days : List (Planned Bytes Digest)}
  {ended : Bool} {findings : List (Pair × Finding Bytes)} {p : Pair} {d mark : Int}

/- One day. -/

theorem planDay_writes
    (h : planDay sha256 view setPairs close line = .ok (.writes planned)) :
    ∃ findings, setPairs.mapM (finding view line close) = .ok findings ∧
      planned = ⟨Line.of sha256 (entryOf sha256 line findings), filesOf (line.day + 1) findings⟩ ∧
      ∀ pair ∈ waitingOf findings,
        line.day + 1 + rescanDays < newestOr (view.newest pair) pair (line.day + 1) := by
  unfold planDay at h
  obtain ⟨findings, found, rest⟩ := Fallible.bind_ok.mp h
  by_cases past : (waitingOf findings).all fun pair =>
      newestOr (view.newest pair) pair (line.day + 1) > line.day + 1 + rescanDays
  · rw [if_pos past] at rest
    injection rest with same
    injection same with same
    refine ⟨findings, found, same.symm, ?_⟩
    simpa using past
  · rw [if_neg past] at rest
    injection rest with same
    cases same

/-- A planned day is written from one view, after the line planned before it. -/
theorem plan_cons {more : List (Planned Bytes Digest)}
    (h : plan sha256 setPairs close views line = .ok (planned :: more, ended)) :
    ∃ view rest, views = view :: rest ∧ isEnded setPairs line view.ended = false ∧
      planDay sha256 view setPairs close line = .ok (.writes planned) ∧
      plan sha256 setPairs close rest planned.line = .ok (more, ended) := by
  cases views with
  | nil => cases h
  | cons view rest =>
    rw [plan] at h
    by_cases done : isEnded setPairs line view.ended
    · rw [if_pos done] at h
      cases h
    · rw [if_neg done] at h
      obtain ⟨verdict, day, after⟩ := Fallible.bind_ok.mp h
      rw [Fallible.mapError_ok] at day
      cases verdict with
      | waits pairs => cases after
      | writes first =>
        obtain ⟨⟨later, stop⟩, planned_rest, same⟩ := Fallible.bind_ok.mp after
        injection same with same
        injection same with same stop_same
        injection same with first_same later_same
        subst first_same later_same stop_same
        exact ⟨view, rest, rfl, by simpa using done, day, planned_rest⟩

end

/- The line of a day. -/

section
variable {Bytes Digest : Type} {sha256 : Content Bytes Digest → Digest} {setPairs : List Pair}
  {close : Option Close} {view : View Bytes} {line : Line Digest}
  {findings : List (Pair × Finding Bytes)} {d : Int}

/-- A line after the base's: of its own day, linked, and naming each of the set's pairs once. -/
structure DayLine (setPairs : List Pair) (e : Entry Digest) : Prop where
  linked : e.prev ≠ none
  files : ∀ file ∈ e.files, ∃ pair, file.1 = .day pair e.day
  notes : ∀ note ∈ e.notes, ∃ pair ∈ e.holes.map Prod.fst, note.1 = .closed pair
  once : (named e ++ e.holes.map Prod.fst).Perm setPairs

theorem finding_pair {pair : Pair} {f : Pair × Finding Bytes}
    (h : finding view line close pair = .ok f) : f.1 = pair := by
  unfold finding at h
  split at h
  · split at h
    · injection h with same
      rw [← same]
    · cases h
  · split at h
    · injection h with same
      rw [← same]
    · injection h with same
      rw [← same]

theorem findings_pairs (found : setPairs.mapM (finding view line close) = .ok findings) :
    findings.map Prod.fst = setPairs := by
  have each := Fallible.mapM_ok.mp found
  clear found
  induction each with
  | nil => rfl
  | cons here _ ih => rw [List.map_cons, ih, finding_pair here]

/-- Each finding is of one kind. -/
theorem parts_perm (d : Int) (findings : List (Pair × Finding Bytes)) :
    ((filesOf d findings).filterMap (fun file => pairOf file.1) ++
      ((closedOf findings).map Prod.fst ++ waitingOf findings)).Perm (findings.map Prod.fst) := by
  induction findings with
  | nil => exact .nil
  | cons f rest ih =>
    obtain ⟨pair, kind⟩ := f
    cases kind with
    | file data =>
      simp only [filesOf, closedOf, waitingOf, List.filterMap_cons, pairOf, List.map_cons,
        List.cons_append] at ih ⊢
      exact ih.cons pair
    | closed text =>
      simp only [filesOf, closedOf, waitingOf, List.filterMap_cons, List.map_cons,
        List.cons_append] at ih ⊢
      exact List.perm_middle.trans (ih.cons pair)
    | waiting =>
      simp only [filesOf, closedOf, waitingOf, List.filterMap_cons, List.map_cons] at ih ⊢
      rw [← List.append_assoc] at ih ⊢
      exact List.perm_middle.trans (ih.cons pair)

theorem filesOf_day {file : Path × Bytes} (mem : file ∈ filesOf d findings) :
    ∃ pair, file.1 = .day pair d := by
  obtain ⟨⟨pair, kind⟩, -, same⟩ := List.mem_filterMap.mp mem
  cases kind with
  | file data =>
    injection same with same
    exact ⟨pair, by rw [← same]⟩
  | closed text => cases same
  | waiting => cases same

theorem named_entryOf : named (entryOf sha256 line findings) =
    (filesOf (line.day + 1) findings).filterMap fun file => pairOf file.1 := by
  rw [named, entryOf, List.filterMap_map]
  rfl

theorem entryOf_holes : (entryOf sha256 line findings).holes.map Prod.fst =
    (closedOf findings).map Prod.fst ++ waitingOf findings := by
  simp [entryOf, Function.comp_def]

theorem entryOf_dayLine (found : setPairs.mapM (finding view line close) = .ok findings) :
    DayLine setPairs (entryOf sha256 line findings) := by
  constructor
  · exact Option.some_ne_none _
  · intro file mem
    obtain ⟨source, inside, same⟩ := List.mem_map.mp mem
    obtain ⟨pair, path⟩ := filesOf_day inside
    exact ⟨pair, by rw [← same, path]; rfl⟩
  · intro note mem
    obtain ⟨c, inside, same⟩ := List.mem_map.mp mem
    refine ⟨c.1, ?_, by rw [← same]⟩
    rw [entryOf_holes]
    exact List.mem_append_left _ (List.mem_map_of_mem inside)
  · rw [named_entryOf, entryOf_holes, ← findings_pairs found]
    exact parts_perm _ _

theorem DayLine.shape {e : Entry Digest} (dayLine : DayLine setPairs e) : shape e.day e = .ok () := by
  have files : e.files.all (fun file => isDayFile e.day file.1) = true := by
    rw [List.all_eq_true]
    intro file mem
    obtain ⟨pair, path⟩ := dayLine.files file mem
    rw [path]
    simp [isDayFile]
  have notes : e.notes.all (fun note => isHoleNote (e.holes.map Prod.fst) note.1) = true := by
    rw [List.all_eq_true]
    intro note mem
    obtain ⟨pair, hole, path⟩ := dayLine.notes note mem
    rw [path]
    simpa [isHoleNote] using hole
  simp only [Rolling.shape, ne_eq, not_true, if_false, dayLine.linked, files, notes, Bool.not_true,
    Bool.false_eq_true]

theorem DayLine.checkPairs {line : Line Digest} (dayLine : DayLine setPairs line.toEntry)
    (distinct : setPairs.Nodup) : checkPairs line setPairs = .ok () := by
  have apart := dayLine.once.nodup_iff.mpr distinct
  have disjoint : (named line.toEntry).any (line.holes.map Prod.fst).contains = false := by
    rw [List.any_eq_false]
    intro pair mem hole
    exact (List.nodup_append.mp apart).2.2 pair mem pair (by simpa using hole) rfl
  have inside : (named line.toEntry ++ line.holes.map Prod.fst).all setPairs.contains = true := by
    rw [List.all_eq_true]
    intro pair mem
    simpa using dayLine.once.mem_iff.mp mem
  have every : setPairs.all (named line.toEntry ++ line.holes.map Prod.fst).contains = true := by
    rw [List.all_eq_true]
    intro pair mem
    have := dayLine.once.mem_iff.mpr mem
    simpa using this
  simp only [Rolling.checkPairs, disjoint, inside, every, Bool.not_true, Bool.false_eq_true, or_self,
    if_false]

end

/- One run. -/

section
variable {Bytes Digest : Type} [DecidableEq Digest] {sha256 : Content Bytes Digest → Digest}
  {q3 : Q3 Bytes Digest} {tree : Tree Bytes Digest} {source : Source Bytes}
  {items : List (Path × Content Bytes Digest)} {opening : Pair → Tape Bytes} {views : List (View Bytes)}
  {close : Option Close} {planned : List (Planned Bytes Digest)} {ended : Bool}

/-- A base that may be placed: its files staged, and the line over them. -/
structure Staged (sha256 : Content Bytes Digest → Digest) (q3 : Q3 Bytes Digest)
    (tree : Tree Bytes Digest) (source : Source Bytes) (manifest : Manifest)
    (staged : List (Path × Bytes)) : Prop where
  pairs : checkFound q3 source = .ok ()
  files : (found source).mapM (stagedFile sha256 q3 source manifest) = .ok staged
  present : staged.forM (checkPresent sha256 tree) = .ok ()

theorem stageBase_ok (h : stageBase sha256 q3 tree source = .ok items) :
    ∃ manifest staged, Staged sha256 q3 tree source manifest staged ∧
      items = basePlacements sha256 tree source manifest staged := by
  obtain ⟨found, h⟩ := Fallible.then_ok.mp h
  obtain ⟨manifest, -, h⟩ := Fallible.bind_ok.mp h
  obtain ⟨staged, files, h⟩ := Fallible.bind_ok.mp h
  obtain ⟨present, h⟩ := Fallible.then_ok.mp h
  injection h with same
  exact ⟨manifest, staged, ⟨found, files, present⟩, same.symm⟩

structure Extends (sha256 : Content Bytes Digest → Digest) (tree : Tree Bytes Digest)
    (opening : Pair → Tape Bytes) (views : List (View Bytes)) (close : Option Close) (line : Line Digest)
    (setPairs : List Pair) (planned : List (Planned Bytes Digest)) (ended : Bool) : Prop where
  base : isFile tree (.line baseDay) = true
  head : head sha256 tree = .ok line
  pairs : pairs sha256 tree = .ok setPairs
  closable : checkClose setPairs opening close = .ok ()
  plan : plan sha256 setPairs close views line = .ok (planned, ended)
  written : checkWritten planned close = .ok ()

theorem require_ok {holds : Bool} {e : RollingError} : require holds e = .ok () ↔ holds = true := by
  cases holds <;> simp [require]

theorem extend_ok : extend sha256 tree opening views close = .ok (planned, ended) ↔
    ∃ line setPairs, Extends sha256 tree opening views close line setPairs planned ended := by
  constructor
  · intro h
    obtain ⟨base, h⟩ := Fallible.then_ok.mp h
    obtain ⟨line, head, h⟩ := Fallible.bind_ok.mp h
    obtain ⟨setPairs, pairs, h⟩ := Fallible.bind_ok.mp h
    obtain ⟨closable, h⟩ := Fallible.then_ok.mp h
    obtain ⟨⟨days, stop⟩, plan, h⟩ := Fallible.bind_ok.mp h
    obtain ⟨written, h⟩ := Fallible.then_ok.mp h
    rw [Fallible.mapError_ok] at base head pairs closable written
    injection h with same
    injection same with days_same stop_same
    subst days_same stop_same
    exact ⟨line, setPairs, require_ok.mp base, head, pairs, closable, plan, written⟩
  · rintro ⟨line, setPairs, base, head, pairs, closable, plan, written⟩
    refine Fallible.then_ok.mpr ⟨Fallible.mapError_ok.mpr (require_ok.mpr base), ?_⟩
    refine Fallible.bind_ok.mpr ⟨line, Fallible.mapError_ok.mpr head, ?_⟩
    refine Fallible.bind_ok.mpr ⟨setPairs, Fallible.mapError_ok.mpr pairs, ?_⟩
    refine Fallible.then_ok.mpr ⟨Fallible.mapError_ok.mpr closable, ?_⟩
    refine Fallible.bind_ok.mpr ⟨(planned, ended), plan, ?_⟩
    exact Fallible.then_ok.mpr ⟨Fallible.mapError_ok.mpr written, rfl⟩

/-- What a run places is of a base or of a planned day. -/
theorem placements_mem {run : Run Bytes} {item : Path × Content Bytes Digest}
    (mem : item ∈ run.placements sha256 q3 tree) :
    (∃ source manifest staged, run = .stageBase source ∧ Staged sha256 q3 tree source manifest staged ∧
      item ∈ basePlacements sha256 tree source manifest staged) ∨
    ∃ opening views close line setPairs planned ended, run = .extend opening views close ∧
      Extends sha256 tree opening views close line setPairs planned ended ∧
      item ∈ planned.flatMap Planned.placements := by
  cases run with
  | stageBase source =>
    simp only [Run.placements] at mem
    cases staged : stageBase sha256 q3 tree source with
    | error e =>
      rw [staged] at mem
      cases mem
    | ok items =>
      rw [staged] at mem
      obtain ⟨manifest, files, spec, same⟩ := stageBase_ok staged
      have mem : item ∈ items := mem
      rw [same] at mem
      exact .inl ⟨source, manifest, files, rfl, spec, mem⟩
  | extend opening views close =>
    simp only [Run.placements] at mem
    cases written : extend sha256 tree opening views close with
    | error e =>
      simp only [written] at mem
      cases mem
    | ok result =>
      obtain ⟨planned, ended⟩ := result
      simp only [written] at mem
      obtain ⟨line, setPairs, spec⟩ := extend_ok.mp written
      exact .inr ⟨opening, views, close, line, setPairs, planned, ended, rfl, spec, mem⟩

end

end Rolling
