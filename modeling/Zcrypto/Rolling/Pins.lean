import Mathlib.Logic.Relation
import Zcrypto.Rolling.Chain

/- What a run may do to a tree: it adds files, and lines that open the chain or continue it, and nothing that
   is there changes. -/
namespace Rolling
open Tick (Pair Tape)

section
variable {Bytes Digest : Type} {sha256 : Content Bytes Digest → Digest} {setPairs : List Pair}
  {line : Line Digest} {planned : Planned Bytes Digest} {days : List (Planned Bytes Digest)}
  {close : Option Close} {views : List (View Bytes)} {ended : Bool}

/-- A planned day over a line. -/
structure Planned.Over (sha256 : Content Bytes Digest → Digest) (setPairs : List Pair) (line : Line Digest)
    (planned : Planned Bytes Digest) : Prop where
  day : planned.line.day = line.day + 1
  prev : planned.line.prev = some line.sha256
  hashed : planned.line = Line.of sha256 planned.line.toEntry
  dayLine : DayLine setPairs planned.line.toEntry
  files : planned.line.files = planned.files.map fun file => (file.1, sha256 (.frame file.2))

inductive Continues (sha256 : Content Bytes Digest → Digest) (setPairs : List Pair) :
    Line Digest → List (Planned Bytes Digest) → Prop where
  | nil {line : Line Digest} : Continues sha256 setPairs line []
  | cons {line : Line Digest} {planned : Planned Bytes Digest} {more : List (Planned Bytes Digest)}
      (first : planned.Over sha256 setPairs line) (rest : Continues sha256 setPairs planned.line more) :
      Continues sha256 setPairs line (planned :: more)

theorem planDay_over {view : View Bytes}
    (h : planDay sha256 view setPairs close line = .ok (.writes planned)) :
    planned.Over sha256 setPairs line := by
  obtain ⟨findings, found, same, -⟩ := planDay_writes h
  subst same
  exact ⟨rfl, rfl, rfl, entryOf_dayLine found, rfl⟩

theorem plan_continues (h : plan sha256 setPairs close views line = .ok (days, ended)) :
    Continues sha256 setPairs line days := by
  induction days generalizing views line with
  | nil => exact .nil
  | cons planned more ih =>
    obtain ⟨view, rest, -, -, day, later⟩ := plan_cons h
    exact .cons (planDay_over day) (ih later)

end

section
variable {Bytes Digest : Type} {sha256 : Content Bytes Digest → Digest} {tree t : Tree Bytes Digest}
  {base e : Entry Digest} {below later : List (Entry Digest)} {planned : List (Planned Bytes Digest)}

theorem Chain.extend (chain : Chain sha256 base later) (last : base :: later = below ++ [e])
    {next : Entry Digest} (linked : Linked sha256 e next) (dayLine : DayLine (setOf base) next) :
    Chain sha256 base (later ++ [next]) := by
  constructor
  · exact chain.first
  · intro other mem
    rcases List.mem_append.mp mem with old | new
    · exact chain.later other old
    · rw [List.mem_singleton.mp new]
      exact dayLine
  · have linked_all := chain.linked
    rw [← List.cons_append, last]
    rw [last] at linked_all
    apply linked_all.append (.singleton next)
    intro x top y first
    rw [List.getLast?_concat, Option.mem_some_iff] at top
    rw [List.head?_cons, Option.mem_some_iff] at first
    rw [← top, ← first]
    exact linked

theorem planned_frames (p : Planned Bytes Digest) (place : ∀ file ∈ p.files, ∀ d, file.1 ≠ .line d) :
    ∀ item ∈ p.files.map (fun file => (file.1, (Content.frame file.2 : Content Bytes Digest))),
      ∃ data, item.2 = .frame data ∧ ∀ d, item.1 ≠ .line d := by
  intro item mem
  obtain ⟨file, inside, same⟩ := List.mem_map.mp mem
  exact ⟨file.2, by rw [← same], fun d here => place file inside d (by rw [← here, ← same])⟩

theorem Planned.Over.place {line : Line Digest} {setPairs : List Pair} {p : Planned Bytes Digest}
    (above : p.Over sha256 setPairs line) : ∀ file ∈ p.files, ∀ d, file.1 ≠ .line d := by
  intro file mem d here
  have listed : (file.1, sha256 (.frame file.2)) ∈ p.line.files := by
    rw [above.files]
    exact List.mem_map_of_mem mem
  obtain ⟨pair, path⟩ := above.dayLine.files _ listed
  rw [here] at path
  cases path

/-- One planned day's line, placed after all its files. -/
theorem Sound.day (sound : Sound sha256 tree) (opening : entriesIn tree = base :: later)
    (last : entriesIn tree = below ++ [e]) {p : Planned Bytes Digest}
    (above : p.Over sha256 (setOf base) (Line.of sha256 e))
    (held : WriteOnce.Held tree (p.files.map fun file => (file.1, .frame file.2))) :
    tree.lookup (.line p.line.day) = none ∧
      Sound sha256 (tree ++ [(.line p.line.day, .line p.line.toEntry)]) := by
  have day : p.line.day = e.day + 1 := above.day
  have absent : tree.lookup (.line p.line.day) = none := by
    apply sound.line_absent
    intro other mem same
    have ascending := linked_ascending sound.linked
    rw [last] at mem ascending
    rcases List.mem_append.mp mem with earlier | here
    · rw [List.map_append, List.map_singleton] at ascending
      have := (List.pairwise_append.mp ascending).2.2 other.day (List.mem_map_of_mem earlier) e.day (by simp)
      omega
    · rw [List.mem_singleton.mp here] at same
      omega
  refine ⟨absent, sound.line absent ?_ ?_⟩
  · intro base' days' parted
    rw [opening, List.cons_append] at parted
    injection parted with same rest
    subst same rest
    exact (sound.chain base later opening).extend (opening.symm.trans last) ⟨above.day, above.prev⟩
      above.dayLine
  · intro file listed
    have listed : file ∈ p.line.files := listed
    rw [above.files] at listed
    obtain ⟨source, inside, same⟩ := List.mem_map.mp listed
    have found := held (source.1, .frame source.2) (List.mem_map_of_mem inside)
    rw [← same]
    exact ⟨source.2, found, rfl⟩

variable [DecidableEq Bytes] [DecidableEq Digest]

/-- Files alone leave the lines as they are. -/
theorem Sound.frames (sound : Sound sha256 tree) {items : List (Path × Content Bytes Digest)}
    (frames : ∀ item ∈ items, ∃ data, item.2 = .frame data ∧ ∀ d, item.1 ≠ .line d) :
    Sound sha256 (WriteOnce.fill tree items) ∧ entriesIn (WriteOnce.fill tree items) = entriesIn tree := by
  induction items generalizing tree with
  | nil => exact ⟨sound, rfl⟩
  | cons item rest ih =>
    have others := fun other mem => frames other (List.mem_cons_of_mem item mem)
    obtain ⟨data, content, place⟩ := frames item List.mem_cons_self
    rw [WriteOnce.fill]
    cases taken : WriteOnce.put tree item with
    | error path => exact ⟨sound, rfl⟩
    | ok t =>
      rcases WriteOnce.put_ok taken with ⟨same, -⟩ | ⟨same, absent⟩
      · rw [same]
        exact ih sound others
      · obtain ⟨path, held⟩ := item
        subst content same
        obtain ⟨kept, lines⟩ := ih (sound.frame place absent) others
        refine ⟨kept, lines.trans ?_⟩
        rw [entriesIn_concat]
        exact List.append_nil _

/-- An extension killed anywhere has placed some of its days whole, and of the next one at most files. -/
theorem placed_days (sound : Sound sha256 tree) (opening : entriesIn tree = base :: later)
    (last : entriesIn tree = below ++ [e])
    (continues : Continues sha256 (setOf base) (Line.of sha256 e) planned) (kill : Nat) :
    ∃ done rest, planned = done ++ rest ∧
      WriteOnce.Held (WriteOnce.fill tree ((planned.flatMap Planned.placements).take kill))
        (done.flatMap Planned.placements) ∧
      Sound sha256 (WriteOnce.fill tree ((planned.flatMap Planned.placements).take kill)) ∧
      entriesIn (WriteOnce.fill tree ((planned.flatMap Planned.placements).take kill)) =
        entriesIn tree ++ done.map fun day => day.line.toEntry := by
  induction planned generalizing tree e below later kill with
  | nil =>
    refine ⟨[], [], rfl, fun _ mem => absurd mem List.not_mem_nil, ?_, ?_⟩
    · simpa [WriteOnce.fill] using sound
    · simp [WriteOnce.fill]
  | cons p more ih =>
    obtain ⟨above, rest⟩ : p.Over sha256 (setOf base) (Line.of sha256 e) ∧
        Continues sha256 (setOf base) p.line more := by
      cases continues with
      | cons above rest => exact ⟨above, rest⟩
    have frames := planned_frames p above.place
    -- none of the day's lines is placed where the kill or a refusal comes among its files
    have stop (items : List (Path × Content Bytes Digest))
        (frames : ∀ item ∈ items, ∃ data, item.2 = .frame data ∧ ∀ d, item.1 ≠ .line d)
        (same : WriteOnce.fill tree (((p :: more).flatMap Planned.placements).take kill) =
          WriteOnce.fill tree items) : ∃ done rest, p :: more = done ++ rest ∧
        WriteOnce.Held (WriteOnce.fill tree (((p :: more).flatMap Planned.placements).take kill))
          (done.flatMap Planned.placements) ∧
        Sound sha256 (WriteOnce.fill tree (((p :: more).flatMap Planned.placements).take kill)) ∧
        entriesIn (WriteOnce.fill tree (((p :: more).flatMap Planned.placements).take kill)) =
          entriesIn tree ++ done.map fun day => day.line.toEntry := by
      obtain ⟨kept, lines⟩ := sound.frames frames
      rw [same]
      refine ⟨[], p :: more, rfl, fun _ mem => absurd mem List.not_mem_nil, kept, ?_⟩
      rw [lines]
      exact (List.append_nil _).symm
    by_cases short : kill ≤ p.files.length
    · apply stop ((p.files.map fun file => (file.1, .frame file.2)).take kill)
      · exact fun item mem => frames item (List.mem_of_mem_take mem)
      · rw [List.flatMap_cons, Planned.placements, List.append_assoc, List.take_append_of_le_length]
        rw [List.length_map]
        exact short
    · have parted : ((p :: more).flatMap Planned.placements).take kill =
          p.files.map (fun file => (file.1, .frame file.2)) ++
            ((.line p.line.day, .line p.line.toEntry) ::
              (more.flatMap Planned.placements).take (kill - (p.files.length + 1))) := by
        rw [List.flatMap_cons, Planned.placements, List.append_assoc, List.take_append,
          List.take_of_length_le (by rw [List.length_map]; omega), List.length_map, List.singleton_append]
        congr 1
        rw [← List.take_succ_cons]
        congr 1
        omega
      rcases WriteOnce.fill_append tree (p.files.map fun file => (file.1, .frame file.2))
        ((.line p.line.day, .line p.line.toEntry) ::
          (more.flatMap Planned.placements).take (kill - (p.files.length + 1))) with ⟨held, on⟩ | refused
      · obtain ⟨kept, lines⟩ := sound.frames frames
        rw [← lines] at opening last
        obtain ⟨absent, placed⟩ := kept.day opening last above held
        generalize filled : WriteOnce.fill tree (p.files.map fun file => (file.1, .frame file.2)) = t at *
        have grown : entriesIn (t ++ [(.line p.line.day, .line p.line.toEntry)]) =
            entriesIn t ++ [p.line.toEntry] := entriesIn_concat _
        have whole : WriteOnce.fill tree (((p :: more).flatMap Planned.placements).take kill) =
            WriteOnce.fill (t ++ [(.line p.line.day, .line p.line.toEntry)])
              ((more.flatMap Planned.placements).take (kill - (p.files.length + 1))) := by
          rw [parted, on, WriteOnce.fill, WriteOnce.put_absent absent]
        have next : Continues sha256 (setOf base) (Line.of sha256 p.line.toEntry) more := above.hashed ▸ rest
        obtain ⟨done, left, same, still, result, entries⟩ := ih placed
          (by rw [grown, opening, List.cons_append]) grown next (kill - (p.files.length + 1))
        have grows := WriteOnce.fill_grows (t ++ [(.line p.line.day, .line p.line.toEntry)])
          ((more.flatMap Planned.placements).take (kill - (p.files.length + 1)))
        rw [whole]
        refine ⟨p :: done, left, by rw [same]; rfl, ?_, result, ?_⟩
        · intro item mem
          rw [List.flatMap_cons] at mem
          rcases List.mem_append.mp mem with here | after
          · apply grows
            rw [WriteOnce.lookup_concat absent]
            rcases List.mem_append.mp here with file | line
            · obtain ⟨data, -, place⟩ := frames item file
              rw [if_neg (place _)]
              exact held item file
            · rw [List.mem_singleton.mp line, if_pos rfl]
          · exact still item after
        · rw [entries, grown, lines, List.append_assoc, List.map_cons]
          rfl
      · exact stop _ frames (by rw [parted, refused])

end

/- A base. -/

section
variable {Bytes Digest : Type} [DecidableEq Digest] {sha256 : Content Bytes Digest → Digest}
  {q3 : Q3 Bytes Digest} {tree : Tree Bytes Digest} {source : Source Bytes} {manifest : Manifest}
  {staged : List (Path × Bytes)}

theorem stagedFile_path {pair : Pair} {file : Path × Bytes}
    (h : stagedFile sha256 q3 source manifest pair = .ok file) : file.1 = .base pair := by
  unfold stagedFile at h
  split at h
  · cases h
  · split at h
    · cases h
    · split at h
      · cases h
      · split at h
        · cases h
        · injection h with same
          rw [← same]

theorem Staged.pairs_of (spec : Staged sha256 q3 tree source manifest staged) :
    staged.map Prod.fst = (found source).map Path.base := by
  have each := Fallible.mapM_ok.mp spec.files
  generalize found source = pairs at each
  clear spec
  induction each with
  | nil => rfl
  | cons here _ ih => rw [List.map_cons, List.map_cons, ih, stagedFile_path here]

theorem Staged.path (spec : Staged sha256 q3 tree source manifest staged) {file : Path × Bytes}
    (mem : file ∈ staged) : ∃ pair, file.1 = .base pair := by
  have listed : file.1 ∈ (found source).map Path.base := spec.pairs_of ▸ List.mem_map_of_mem mem
  obtain ⟨pair, -, same⟩ := List.mem_map.mp listed
  exact ⟨pair, same.symm⟩

omit [DecidableEq Digest] in
theorem found_some (ok : checkFound q3 source = .ok ()) : found source ≠ [] := by
  have both := require_ok.mp ok
  simp only [Bool.decide_and, Bool.and_eq_true, decide_eq_true_eq, List.all_eq_true] at both
  obtain ⟨item, mem⟩ := List.exists_mem_of_ne_nil _ q3.some
  have held := both.2 item.1 (List.mem_map_of_mem mem)
  intro none
  rw [none] at held
  simp at held

theorem Staged.baseLine (spec : Staged sha256 q3 tree source manifest staged) :
    BaseLine (baseEntry sha256 source manifest staged) := by
  have names : named (baseEntry sha256 source manifest staged) = found source := by
    have paths := spec.pairs_of
    unfold named baseEntry
    rw [List.filterMap_map]
    calc staged.filterMap ((fun file : Path × Digest => pairOf file.1) ∘
          fun file => (file.1, sha256 (.frame file.2)))
        = (staged.map Prod.fst).filterMap pairOf := by rw [List.filterMap_map]; rfl
      _ = ((found source).map Path.base).filterMap pairOf := by rw [paths]
      _ = (found source).filterMap (pairOf ∘ Path.base) := by rw [List.filterMap_map]
      _ = found source := List.filterMap_some
  constructor
  · rfl
  · rfl
  · intro file mem
    obtain ⟨origin, inside, same⟩ := List.mem_map.mp mem
    obtain ⟨pair, path⟩ := spec.path inside
    exact ⟨pair, by rw [← same]; exact path⟩
  · intro none
    have none : staged = [] := List.map_eq_nil_iff.mp none
    have paths := spec.pairs_of
    rw [none] at paths
    exact found_some spec.pairs (List.map_eq_nil_iff.mp paths.symm)
  · rfl
  · rw [names]
    exact (List.perm_insertionSort _ _).nodup_iff.mpr (List.nodup_dedup _)

/-- A staged file that was there already has the staged hash. -/
theorem Staged.there (spec : Staged sha256 q3 tree source manifest staged) (sound : Sound sha256 tree)
    {file : Path × Bytes} (mem : file ∈ staged) (held : isFile tree file.1 = true) :
    ∃ data, tree.lookup file.1 = some (.frame data) ∧ sha256 (.frame data) = sha256 (.frame file.2) := by
  obtain ⟨content, found⟩ := Option.isSome_iff_exists.mp held
  have ok := Fallible.forM_ok.mp spec.present file mem
  unfold checkPresent at ok
  rw [found] at ok
  have hash : sha256 content = sha256 (.frame file.2) := by
    by_contra differ
    simp only [ne_eq, differ, not_false_iff, if_true] at ok
    cases ok
  obtain ⟨pair, path⟩ := spec.path mem
  have fits := sound.fits _ ((Keyed.lookup_iff sound.distinct).mp found)
  cases content with
  | frame data => exact ⟨data, found, hash⟩
  | line entry =>
    rw [path] at fits
    exact fits.elim

variable [DecidableEq Bytes]

theorem placed_base (sound : Sound sha256 tree) (spec : Staged sha256 q3 tree source manifest staged)
    (kill : Nat) : Sound sha256
      (WriteOnce.fill tree ((basePlacements sha256 tree source manifest staged).take kill)) := by
  unfold basePlacements
  generalize missing : (staged.filter fun file => !isFile tree file.1).map
    (fun file => (file.1, (Content.frame file.2 : Content Bytes Digest))) = files
  have frames : ∀ item ∈ files, ∃ data, item.2 = .frame data ∧ ∀ d, item.1 ≠ .line d := by
    intro item mem
    rw [← missing] at mem
    obtain ⟨file, inside, same⟩ := List.mem_map.mp mem
    obtain ⟨pair, path⟩ := spec.path (List.mem_filter.mp inside).1
    refine ⟨file.2, by rw [← same], ?_⟩
    intro d here
    rw [← same, path] at here
    cases here
  by_cases short : kill ≤ files.length
  · rw [List.take_append_of_le_length short]
    exact (sound.frames fun item mem => frames item (List.mem_of_mem_take mem)).1
  · rw [List.take_of_length_le (by rw [List.length_append, List.length_singleton]; omega)]
    obtain ⟨kept, -⟩ := sound.frames frames
    rcases WriteOnce.fill_append tree files
      [(.line baseDay, .line (baseEntry sha256 source manifest staged))] with ⟨held, on⟩ | refused
    · have grows := WriteOnce.fill_grows tree files
      rw [on]
      generalize WriteOnce.fill tree files = t at *
      have listed : ∀ file ∈ (baseEntry sha256 source manifest staged).files, ∃ data,
          t.lookup file.1 = some (.frame data) ∧ sha256 (.frame data) = file.2 := by
        intro file mem
        obtain ⟨origin, inside, same⟩ := List.mem_map.mp mem
        rw [← same]
        by_cases there : isFile tree origin.1
        · obtain ⟨data, found, hash⟩ := spec.there sound inside there
          exact ⟨data, grows _ _ found, hash⟩
        · refine ⟨origin.2, held (origin.1, .frame origin.2) ?_, rfl⟩
          rw [← missing]
          exact List.mem_map.mpr ⟨origin, List.mem_filter.mpr ⟨inside, by simpa using there⟩, rfl⟩
      rw [WriteOnce.fill]
      cases taken : WriteOnce.put t (.line baseDay, .line (baseEntry sha256 source manifest staged)) with
      | error path => exact kept
      | ok t' =>
        rcases WriteOnce.put_ok taken with ⟨same, -⟩ | ⟨same, absent⟩
        · rw [same]
          exact kept
        · rw [same]
          apply kept.line absent _ listed
          intro base days parted
          cases entries : entriesIn t with
          | nil =>
            rw [entries, List.nil_append] at parted
            injection parted with same rest
            subst same rest
            exact ⟨spec.baseLine, fun _ mem => absurd mem List.not_mem_nil, .singleton _⟩
          | cons first rest =>
            -- the base line there is of the same day
            have opened := (kept.chain first rest entries).first.day
            have found := kept.found (entries ▸ List.mem_cons_self : first ∈ entriesIn t)
            rw [opened] at found
            have absent : t.lookup (.line baseDay) = none := absent
            rw [absent] at found
            cases found
    · rw [refused]
      exact kept

end

/- Runs. -/

section
variable {Bytes Digest Row : Type} [DecidableEq Bytes] [DecidableEq Digest]
  (sha256 : Content Bytes Digest → Digest) (q3 : Q3 Bytes Digest)

/-- A tree and one that later runs leave, each killed anywhere. -/
def Later : Tree Bytes Digest → Tree Bytes Digest → Prop :=
  Relation.ReflTransGen fun tree t => ∃ run kill, t = Run.leaves sha256 q3 tree run kill

variable {sha256 q3} {tree t : Tree Bytes Digest} {run : Run Bytes} {opening : Pair → Tape Bytes}
  {views : List (View Bytes)} {close : Option Close} {line : Line Digest} {setPairs : List Pair}
  {planned : List (Planned Bytes Digest)} {ended : Bool} {d : Int} {e : Entry Digest}
  {content : Content Bytes Digest}

omit [DecidableEq Bytes] in
/-- An extension begins at the line placed last. -/
theorem Extends.begins (sound : Sound sha256 tree)
    (spec : Extends sha256 tree opening views close line setPairs planned ended) :
    ∃ base later below e, entriesIn tree = base :: later ∧ entriesIn tree = below ++ [e] ∧
      line = Line.of sha256 e ∧ setPairs = setOf base := by
  cases entries : entriesIn tree with
  | nil =>
    have none := spec.pairs
    rw [Rolling.pairs, sound.lineDays, entries] at none
    cases none
  | cons base later =>
    obtain ⟨below, e, last⟩ : ∃ below e, base :: later = below ++ [e] :=
      ⟨_, _, (List.dropLast_append_getLast (List.cons_ne_nil base later)).symm⟩
    have head := spec.head
    have pairs := spec.pairs
    rw [sound.head (entries.trans last)] at head
    rw [sound.pairs entries] at pairs
    injection head with head
    injection pairs with pairs
    exact ⟨base, later, below, e, rfl, last, head.symm, pairs.symm⟩

theorem Sound.leaves (sound : Sound sha256 tree) (run : Run Bytes) (kill : Nat) :
    Sound sha256 (run.leaves sha256 q3 tree kill) := by
  have idle : Sound sha256 (WriteOnce.fill tree (([] : List (Path × Content Bytes Digest)).take kill)) := by
    rw [List.take_nil]
    exact sound
  unfold Run.leaves
  cases run with
  | stageBase source =>
    simp only [Run.placements]
    cases staged : stageBase sha256 q3 tree source with
    | error e => exact idle
    | ok items =>
      obtain ⟨manifest, files, spec, same⟩ := stageBase_ok staged
      rw [same]
      exact placed_base sound spec kill
  | extend opening views close =>
    simp only [Run.placements]
    cases written : extend sha256 tree opening views close with
    | error e => exact idle
    | ok result =>
      obtain ⟨planned, ended⟩ := result
      obtain ⟨line, setPairs, spec⟩ := extend_ok.mp written
      obtain ⟨base, later, below, e, first, last, same, pairs⟩ := spec.begins sound
      have continues := plan_continues spec.plan
      rw [same, pairs] at continues
      obtain ⟨-, -, -, -, kept, -⟩ := placed_days sound first last continues kill
      exact kept

theorem Later.keeps (later : Later sha256 q3 tree t) (sound : Sound sha256 tree) :
    Sound sha256 t ∧ WriteOnce.Grows tree t ∧ ∃ gained, t = tree ++ gained := by
  induction later with
  | refl => exact ⟨sound, WriteOnce.Grows.refl tree, [], (List.append_nil tree).symm⟩
  | tail _ step ih =>
    obtain ⟨kept, grows, gained, same⟩ := ih
    obtain ⟨run, kill, next⟩ := step
    rw [next]
    refine ⟨kept.leaves run kill, grows.trans (WriteOnce.fill_grows _ _), ?_⟩
    obtain ⟨more, appended⟩ := WriteOnce.fill_appends _ ((run.placements sha256 q3 _).take kill)
    exact ⟨gained ++ more, by rw [Run.leaves, appended, same, List.append_assoc]⟩

/-- What a rename that places a line finds, and what the line says. -/
structure Placed (sha256 : Content Bytes Digest → Digest) (tree : Tree Bytes Digest) (e : Entry Digest) :
    Prop where
  opens : lineDays tree = [] → e.day = baseDay ∧ e.prev = none ∧ (named e ++ e.holes.map Prod.fst).Nodup
  continues : lineDays tree ≠ [] → ∃ line setPairs, head sha256 tree = .ok line ∧
    pairs sha256 tree = .ok setPairs ∧ setPairs.Nodup ∧ e.day = line.day + 1 ∧
    e.prev = some line.sha256 ∧ (named e ++ e.holes.map Prod.fst).Perm setPairs

omit [DecidableEq Bytes] in
theorem Sound.placed (sound : Sound sha256 tree) (more : Sound sha256 t)
    (entries : entriesIn t = entriesIn tree ++ [e]) : Placed sha256 tree e := by
  constructor
  · intro none
    rw [sound.lineDays, List.map_eq_nil_iff] at none
    rw [none, List.nil_append] at entries
    have first := (more.chain e [] entries).first
    refine ⟨first.day, first.opens, ?_⟩
    rw [first.holes, List.map_nil, List.append_nil]
    exact first.once
  · intro some
    rw [sound.lineDays, Ne, List.map_eq_nil_iff] at some
    obtain ⟨base, later, opening⟩ := List.exists_cons_of_ne_nil some
    obtain ⟨below, top, last⟩ : ∃ below top, entriesIn tree = below ++ [top] :=
      ⟨_, _, (List.dropLast_append_getLast some).symm⟩
    have parted : entriesIn t = base :: (later ++ [e]) := by rw [entries, opening, List.cons_append]
    have chain := more.chain base (later ++ [e]) parted
    have link : Linked sha256 top e := by
      have linked := more.linked
      rw [entries, last, List.append_assoc] at linked
      exact (List.isChain_cons_cons.mp linked.right_of_append).1
    exact ⟨Line.of sha256 top, setOf base, sound.head last, sound.pairs opening, setOf_nodup chain.first,
      link.day, link.prev, (chain.later e (by simp)).once⟩

/-- One more rename of a run places nothing, a file, or a line that opens the chain or continues it. -/
theorem leaves_next (sound : Sound sha256 tree) (run : Run Bytes) (kill : Nat)
    (absent : (run.leaves sha256 q3 tree kill).lookup (.line d) = none)
    (found : (run.leaves sha256 q3 tree (kill + 1)).lookup (.line d) = some content) :
    ∃ e, content = .line e ∧ e.day = d ∧ Placed sha256 (run.leaves sha256 q3 tree kill) e := by
  have before : Sound sha256 (run.leaves sha256 q3 tree kill) := sound.leaves run kill
  have after : Sound sha256 (run.leaves sha256 q3 tree (kill + 1)) := sound.leaves run (kill + 1)
  rcases WriteOnce.fill_next tree (run.placements sha256 q3 tree) kill with same | ⟨item, -, same⟩
  · have same : run.leaves sha256 q3 tree (kill + 1) = run.leaves sha256 q3 tree kill := same
    rw [same, absent] at found
    cases found
  · have same : run.leaves sha256 q3 tree (kill + 1) = run.leaves sha256 q3 tree kill ++ [item] := same
    have mem := (Keyed.lookup_iff after.distinct).mp found
    have fits := after.fits _ mem
    cases content with
    | frame data => exact fits.elim
    | line e =>
      refine ⟨e, rfl, fits, before.placed after ?_⟩
      rw [same] at mem ⊢
      rcases List.mem_append.mp mem with old | new
      · have there := (Keyed.lookup_iff before.distinct).mpr old
        rw [absent] at there
        cases there
      · rw [entriesIn_concat, ← List.mem_singleton.mp new]
        rfl

/- Reading. -/

variable {frames : Frames Bytes Row}

omit [DecidableEq Bytes] in
theorem opened_grows (grows : WriteOnce.Grows tree t) {file : Path × Digest} {rows : List Row}
    (h : opened sha256 frames tree file = .ok rows) : opened sha256 frames t file = .ok rows := by
  unfold opened at h ⊢
  cases found : tree.lookup file.1 with
  | none =>
    rw [found] at h
    cases h
  | some content =>
    rw [found] at h
    rw [grows _ _ found]
    exact h

omit [DecidableEq Bytes] in
theorem walkChain_appends (sound : Sound sha256 tree) (more : Sound sha256 t)
    {gained : Tree Bytes Digest} (appended : t = tree ++ gained) {asOf : Int} {chain : List (Line Digest)}
    (h : walkChain sha256 tree asOf = .ok chain) : walkChain sha256 t asOf = .ok chain := by
  obtain ⟨listed, -⟩ := Fallible.then_ok.mp h
  have listed : asOf ∈ lineDays tree := by simpa using require_ok.mp listed
  rw [sound.lineDays] at listed
  obtain ⟨e, mem, day⟩ := List.mem_map.mp listed
  obtain ⟨below, above, parted⟩ := List.append_of_mem mem
  have longer : entriesIn t = below ++ e :: (above ++ entriesIn gained) := by
    rw [appended, entriesIn, List.filterMap_append, ← entriesIn, ← entriesIn, parted, List.append_assoc]
    rfl
  rw [← day] at h ⊢
  rw [sound.walkChain parted] at h
  rw [more.walkChain longer]
  exact h

omit [DecidableEq Bytes] in
/-- What was read once is read again from any tree that has grown from this one. -/
theorem readRolling_appends (sound : Sound sha256 tree) (more : Sound sha256 t)
    (grows : WriteOnce.Grows tree t) {gained : Tree Bytes Digest} (appended : t = tree ++ gained)
    {pair : Pair} {interval : Nat} {asOf : Int} {window : Option (Int × Int)} {acceptHoles : Bool}
    {read : RollingRead Row Digest}
    (h : readRolling sha256 frames tree pair interval asOf window acceptHoles = .ok read) :
    readRolling sha256 frames t pair interval asOf window acceptHoles = .ok read := by
  obtain ⟨setPairs, pairs, h⟩ := Fallible.bind_ok.mp h
  obtain ⟨inSet, h⟩ := Fallible.then_ok.mp h
  obtain ⟨grid, h⟩ := Fallible.then_ok.mp h
  obtain ⟨chain, walked, h⟩ := Fallible.bind_ok.mp h
  obtain ⟨⟨base, line⟩, ends, h⟩ := Fallible.bind_ok.mp h
  obtain ⟨first, listedBase, h⟩ := Fallible.bind_ok.mp h
  obtain ⟨⟨files, holes⟩, listed, h⟩ := Fallible.bind_ok.mp h
  obtain ⟨rows, opened, h⟩ := Fallible.bind_ok.mp h
  have pairs_again : Rolling.pairs sha256 t = .ok setPairs := by
    cases entries : entriesIn tree with
    | nil =>
      rw [Rolling.pairs, sound.lineDays, entries] at pairs
      cases pairs
    | cons base later =>
      have longer : entriesIn t = base :: (later ++ entriesIn gained) := by
        rw [appended, entriesIn, List.filterMap_append, ← entriesIn, ← entriesIn, entries]
        rfl
      rw [more.pairs longer, ← sound.pairs entries]
      exact pairs
  have opened_again : (first :: files).mapM (Rolling.opened sha256 frames t) = .ok rows :=
    Fallible.mapM_ok.mpr ((Fallible.mapM_ok.mp opened).imp fun _ _ once => opened_grows grows once)
  refine Fallible.bind_ok.mpr ⟨setPairs, pairs_again, Fallible.then_ok.mpr ⟨inSet, ?_⟩⟩
  refine Fallible.then_ok.mpr ⟨grid, Fallible.bind_ok.mpr ⟨chain, ?_, ?_⟩⟩
  · exact walkChain_appends sound more appended walked
  refine Fallible.bind_ok.mpr ⟨(base, line), ends, Fallible.bind_ok.mpr ⟨first, listedBase, ?_⟩⟩
  refine Fallible.bind_ok.mpr ⟨(files, holes), listed, Fallible.bind_ok.mpr ⟨rows, opened_again, h⟩⟩

end

end Rolling
