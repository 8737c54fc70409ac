import Zcrypto.Registry.ObservedKept

/- Runs of a capturing reader: what its block says is what the run read, and a refused call leaves no trace. -/
namespace Observed
open Rolling (Line RollingRead)
open Tick (Pair)

section
variable {Bytes Digest Row : Type} [DecidableEq Digest] {root : Root Bytes Digest Row} {s : Reader Digest} {log : Log Row}
  {a : AList fun _ : String => List String × List (String × String)} {d : String}

theorem Kept.none_yet (root : Root Bytes Digest Row) : Kept root [] ({} : Reader Digest) := by
  have nothing : ∀ (c : Call) (frame : List Row), ¬ (c, .ok frame) ∈ ([] : Log Row) := fun c frame mem => by cases mem
  refine ⟨?_, ?_, ?_, ?_, ?_, ?_, ?_, ?_, ?_, ?_, ?_, ?_, ?_, ?_⟩
  · exact fun c frame mem => absurd mem (nothing c frame)
  · exact fun c frame mem => absurd mem (nothing c frame)
  · intro k w found
    cases k <;> cases found
  · exact fun c frame read mem => absurd mem (nothing c frame)
  · exact fun _ _ _ frame mem => absurd mem (nothing _ frame)
  · exact fun d => iff_of_false (AList.notMem_empty d) fun ⟨c, frame, mem, _⟩ => nothing c frame mem
  · intro d line found
    cases found
  · intro d files _ found
    cases found
  · exact fun d relpath _ => AList.notMem_empty _
  · intro d line found
    cases found
  · refine fun d => ⟨List.nodup_nil, fun text => iff_of_false (List.not_mem_nil) ?_⟩
    rintro ⟨c, frame, mem, -⟩
    exact nothing c frame mem
  · intro d height _
    rfl
  · rintro d ⟨c, frame, mem, -⟩
    exact absurd mem (nothing c frame)
  · exact fun d _ => rfl

omit [DecidableEq Digest] in
theorem recordRolling_sound (sound : Sound root s) (pair : Pair) (interval : Nat) (w : Window)
    (read : RollingRead Row Digest) : Sound root (recordRolling root s d pair interval w read) := by
  have same : recordRolling root s d pair interval w read =
      withAttested (recordRolling root s d pair interval w read) s.attested := recordRolling_attested pair interval w read
  have attested : (recordRolling root s d pair interval w read).attested = s.attested := by
    rw [same]
    rfl
  unfold Sound
  rw [attested]
  exact sound

theorem step_sound (sound : Sound root s) (c : Call) : Sound root (step root s c).1 := by
  cases c with
  | series dataset relpath window =>
    show Sound root (readSeries root s dataset relpath window).1
    rcases readSeries_cases sound dataset relpath window with
      ⟨e, a, sound', same⟩ | ⟨frame, before, said, same⟩ | ⟨frame, digest, a, sound', new, way, hash, said, same⟩
    · rw [same]
      exact sound'
    · rw [same]
      exact sound
    · rw [same]
      exact sound'
  | rolling dataset pair interval asOf window acceptHoles =>
    show Sound root (readRolling root s dataset pair interval asOf window acceptHoles).1
    rcases readRolling_cases root s dataset pair interval asOf window acceptHoles with
      ⟨e, same⟩ | ⟨day, within, read, asked, got, ⟨before, same⟩ | ⟨new, same⟩⟩
    · rw [same]
      exact sound
    · rw [same]
      exact sound
    · rw [same]
      exact recordRolling_sound sound pair interval window read

/-- What a step gives is kept. -/
theorem Kept.step (ordered : Ordered root) (kept : Kept root log s) (sound : Sound root s) (c : Call) :
    Kept root (log ++ [(c, (step root s c).2)]) (step root s c).1 := by
  cases c with
  | series dataset relpath window =>
    show Kept root (log ++ [(_, (readSeries root s dataset relpath window).2)]) (readSeries root s dataset relpath window).1
    rcases readSeries_cases sound dataset relpath window with
      ⟨e, a, -, same⟩ | ⟨frame, before, said, same⟩ | ⟨frame, digest, a, -, new, way, hash, said, same⟩
    · rw [same]
      exact (kept.congr fun _ _ => mem_refused).attested
    · rw [same]
      refine kept.again ?_ before fun read was_read => ?_
      · rw [frameOf, said]
        rfl
      · cases was_read
    · rw [same]
      exact (kept.first_series ordered new way hash said).attested
  | rolling dataset pair interval asOf window acceptHoles =>
    show Kept root (log ++ [(_, (readRolling root s dataset pair interval asOf window acceptHoles).2)])
      (readRolling root s dataset pair interval asOf window acceptHoles).1
    rcases readRolling_cases root s dataset pair interval asOf window acceptHoles with
      ⟨e, same⟩ | ⟨day, within, read, asked, got, ⟨before, same⟩ | ⟨new, same⟩⟩
    · rw [same]
      exact kept.congr fun _ _ => mem_refused
    · rw [same]
      obtain ⟨date, said, -, -, one_window⟩ := askedRolling_ok.mp asked
      have reads_ : readOf root (.rolling dataset pair interval asOf window acceptHoles) = some read :=
        readOf_rolling.mpr ⟨day, within, date, said, got⟩
      obtain ⟨w, found⟩ := Option.isSome_iff_exists.mp (AList.lookup_isSome.mpr before)
      have window_of : windowOf s (Call.rolling dataset pair interval asOf window acceptHoles).key = some window := by
        rw [← one_window w found]
        exact found
      refine kept.again (congrArg (Option.map RollingRead.frame) reads_) window_of fun read' said' => ?_
      obtain rfl := Option.some.inj (reads_.symm.trans said')
      -- the key was read before, so there is a line, and it is this one
      obtain ⟨x, g, mem, key⟩ := kept.known _ _ window_of
      cases x with
      | series _ _ _ => cases key
      | rolling d₀ pair₀ interval₀ asOf₀ w₀ acceptHoles₀ =>
        injection key with same_d _ _
        subst same_d
        obtain ⟨read₀, was_read, -⟩ := Option.map_eq_some_iff.mp (kept.given _ g mem)
        have line := kept.line _ g read₀ mem was_read
        rw [← kept.one_line asked got line]
        exact line
    · rw [same]
      exact kept.first_rolling ordered asked new got

theorem run_kept (ordered : Ordered root) (calls : List Call) (kept : Kept root log s) (sound : Sound root s) :
    Kept root (log ++ (run root s calls).2) (run root s calls).1 ∧ Sound root (run root s calls).1 := by
  have folds : ∀ (calls : List Call) (s : Reader Digest) (given : Log Row), Kept root (log ++ given) s → Sound root s →
      Kept root (log ++ (calls.foldl (answer root) (s, given)).2) (calls.foldl (answer root) (s, given)).1 ∧
      Sound root (calls.foldl (answer root) (s, given)).1 := by
    intro calls
    induction calls with
    | nil => exact fun s given kept sound => ⟨kept, sound⟩
    | cons c later ih =>
      intro s given kept sound
      have kept' := kept.step ordered sound c
      rw [List.append_assoc] at kept'
      exact ih _ _ kept' (step_sound sound c)
  exact folds calls s [] (by rwa [List.append_nil]) sound

/-- A call that is refused leaves all but what it asked of the attestations. -/
theorem refused_attested {e : ReadError} (sound : Sound root s) (refused : (step root s c).2 = .error e) :
    ∃ a, Sound root (withAttested s a) ∧ (step root s c).1 = withAttested s a := by
  cases c with
  | series dataset relpath window =>
    have refused' : (readSeries root s dataset relpath window).2 = .error e := refused
    rcases readSeries_cases sound dataset relpath window with
      ⟨e, a, sound', same⟩ | ⟨frame, before, said, same⟩ | ⟨frame, digest, a, sound', new, way, hash, said, same⟩
    · exact ⟨a, sound', congrArg Prod.fst same⟩
    · rw [same] at refused'
      cases refused'
    · rw [same] at refused'
      cases refused'
  | rolling dataset pair interval asOf window acceptHoles =>
    have refused' : (readRolling root s dataset pair interval asOf window acceptHoles).2 = .error e := refused
    rcases readRolling_cases root s dataset pair interval asOf window acceptHoles with
      ⟨e, same⟩ | ⟨day, within, read, asked, got, ⟨before, same⟩ | ⟨new, same⟩⟩
    · exact ⟨s.attested, sound, congrArg Prod.fst same⟩
    · rw [same] at refused'
      cases refused'
    · rw [same] at refused'
      cases refused'

/-- A run answers alike whatever is kept of the attestations. -/
theorem run_attested (sound : Sound root s) (sound' : Sound root (withAttested s a)) (calls : List Call) :
    (run root (withAttested s a) calls).2 = (run root s calls).2 := by
  have folds : ∀ (calls : List Call) (s : Reader Digest)
      (a : AList fun _ : String => List String × List (String × String)) (given : Log Row), Sound root s →
      Sound root (withAttested s a) → (calls.foldl (answer root) (withAttested s a, given)).2 =
        (calls.foldl (answer root) (s, given)).2 := by
    intro calls
    induction calls with
    | nil => exact fun s a given _ _ => rfl
    | cons c later ih =>
      intro s a given sound sound'
      have left := step_sound sound c
      have left' := step_sound sound' c
      obtain ⟨a', same⟩ := step_attested sound sound' c
      rw [same] at left'
      rw [List.foldl_cons, List.foldl_cons]
      unfold answer
      rw [same]
      exact ih _ a' _ left left'
  exact folds calls s a [] sound sound'

/- The block. -/

/-- What the block says of a dataset is what was read of it. -/
structure Reported (root : Root Bytes Digest Row) (log : Log Row) (d : String) (e : Block Digest) : Prop where
  chained : ∀ c frame read, (c, .ok frame) ∈ log → c.dataset = d → readOf root c = some read →
    e.files = [(lineRelpath read.line.day, read.line.sha256)]
  series : (∃ relpath w frame, (.series d relpath w, .ok frame) ∈ log) →
    (e.files.map Prod.fst).Pairwise (· < ·) ∧ ∀ relpath digest, (relpath, digest) ∈ e.files ↔
      (∃ w frame, (.series d relpath w, .ok frame) ∈ log) ∧ root.sha256File d relpath = .ok digest
  rows : ∀ height, (∀ c frame, (c, .ok frame) ∈ log → height c.key = frame.length) → e.rows = (keysIn log d).sum height
  span : ∃ lo hi, IsLeast (instantsIn root log d) lo ∧ IsGreatest (instantsIn root log d) hi ∧
    e.span = (stamp lo, stamp hi)

theorem Kept.reported (kept : Kept root log s) (there : d ∈ s.files) : Reported root log d (entryOf s d) := by
  obtain ⟨files, found⟩ := Option.isSome_iff_exists.mp (AList.lookup_isSome.mpr there)
  have listed : (entryOf s d).files = Keyed.arrange Prod.fst (files.entries.map fun file => (file.1, file.2)) := by
    unfold entryOf
    rw [found]
    rfl
  refine ⟨?_, ?_, kept.tallied.rows d, ?_⟩
  · rintro c frame read mem rfl was_read
    have one := kept.chained _ _ (kept.line c frame read mem was_read)
    rw [found] at one
    rw [listed, Option.some.inj one]
    rfl
  · rintro ⟨relpath₀, w₀, frame₀, mem₀⟩
    have unchained := kept.series d relpath₀ w₀ frame₀ mem₀
    have names : (files.entries.map fun file => (file.1, file.2)).map Prod.fst = files.keys := by
      rw [List.map_map]
      rfl
    have distinct : Keyed.Distinct Prod.fst (files.entries.map fun file => (file.1, file.2)) := by
      unfold Keyed.Distinct
      rw [names]
      exact files.keys_nodup
    rw [listed]
    refine ⟨List.pairwise_map.mpr distinct.ascending, fun relpath digest => ?_⟩
    rw [Keyed.mem_arrange, List.mem_map]
    have lookup : (∃ file ∈ files.entries, (file.1, file.2) = (relpath, digest)) ↔
        files.lookup relpath = some digest := by
      rw [← Option.mem_def, AList.mem_lookup_iff]
      constructor
      · rintro ⟨⟨r, digest'⟩, mem, same⟩
        obtain ⟨rfl, rfl⟩ := Prod.mk.inj same
        exact mem
      · intro mem
        exact ⟨⟨relpath, digest⟩, mem, rfl⟩
    rw [lookup, kept.hashed d files unchained found]
    refine and_congr_left fun _ => ?_
    constructor
    · intro mem
      obtain ⟨w, window⟩ := Option.isSome_iff_exists.mp (AList.lookup_isSome.mpr mem)
      obtain ⟨c, frame, before, key⟩ := kept.known (.series d relpath) w window
      cases c with
      | rolling _ _ _ _ _ _ => cases key
      | series d' relpath' w' =>
        injection key with same_d same_r
        subst same_d same_r
        exact ⟨w', frame, before⟩
    · rintro ⟨w, frame, before⟩
      have window : s.reads.lookup (d, relpath) = some w := kept.window _ frame before
      exact AList.lookup_isSome.mp (by rw [window]; rfl)
  · obtain ⟨lo, hi, span, least, most⟩ := kept.tallied.span d ((kept.datasets d).mp there)
    refine ⟨lo, hi, least, most, ?_⟩
    unfold entryOf
    rw [span]
    rfl

/-- The block of a run says what the run read, one frame a key, and a call that is refused leaves no trace. -/
theorem observed_exact (ordered : Ordered root) (calls : List Call) :
    (∀ c c' frame frame', (c, .ok frame) ∈ (run root {} calls).2 → (c', .ok frame') ∈ (run root {} calls).2 →
      c.key = c'.key → frame = frame') ∧
    ((∃ b, block (run root {} calls).1 = .ok b) ↔ ∃ c frame, (c, .ok frame) ∈ (run root {} calls).2) ∧
    (∀ b, block (run root {} calls).1 = .ok b → (b.map Prod.fst).Pairwise (· < ·) ∧
      (∀ d, d ∈ b.map Prod.fst ↔ ∃ c frame, (c, .ok frame) ∈ (run root {} calls).2 ∧ c.dataset = d) ∧
      ∀ item ∈ b, Reported root (run root {} calls).2 item.1 item.2) ∧
    (∀ d, (holesOf (run root {} calls).1 d).Nodup ∧
      ∀ text, text ∈ holesOf (run root {} calls).1 d ↔ text ∈ holesIn root (run root {} calls).2 d) ∧
    ∀ c e, (step root (run root {} calls).1 c).2 = .error e →
      block (step root (run root {} calls).1 c).1 = block (run root {} calls).1 ∧
      holesOf (step root (run root {} calls).1 c).1 = holesOf (run root {} calls).1 ∧
      ∀ later, (run root (step root (run root {} calls).1 c).1 later).2 = (run root (run root {} calls).1 later).2 := by
  have sound₀ : Sound root ({} : Reader Digest) := fun d v found => by cases found
  obtain ⟨kept, sound⟩ := run_kept ordered calls (Kept.none_yet root) sound₀
  rw [List.nil_append] at kept
  have names : ∀ b, block (run root {} calls).1 = .ok b →
      b = (Keyed.arrange id (run root {} calls).1.files.keys).map fun d => (d, entryOf (run root {} calls).1 d) := by
    intro b done
    unfold block at done
    split at done
    · cases done
    · injection done with done
      exact done.symm
  refine ⟨fun c c' frame frame' here there key => kept.same here there key, ?_, fun b done => ?_, kept.holes, ?_⟩
  · constructor
    · rintro ⟨b, done⟩
      unfold block at done
      split at done
      · cases done
      · rename_i some_
        obtain ⟨d, mem⟩ := List.exists_mem_of_ne_nil _ some_
        obtain ⟨c, frame, there, -⟩ := (kept.datasets d).mp (AList.mem_keys.mpr mem)
        exact ⟨c, frame, there⟩
    · rintro ⟨c, frame, there⟩
      have mem := AList.mem_keys.mp ((kept.datasets c.dataset).mpr ⟨c, frame, there, rfl⟩)
      exact ⟨_, if_neg (List.ne_nil_of_mem mem)⟩
  · obtain rfl := names b done
    have keys : ((Keyed.arrange id (run root {} calls).1.files.keys).map fun d =>
        (d, entryOf (run root {} calls).1 d)).map Prod.fst = Keyed.arrange id (run root {} calls).1.files.keys := by
      rw [List.map_map]
      exact List.map_id' _
    have distinct : Keyed.Distinct id (run root {} calls).1.files.keys := by
      unfold Keyed.Distinct
      rw [List.map_id]
      exact AList.keys_nodup _
    refine ⟨?_, fun d => ?_, fun item mem => ?_⟩
    · rw [keys]
      exact distinct.ascending
    · rw [keys, Keyed.mem_arrange, ← AList.mem_keys, kept.datasets]
    · obtain ⟨d, there, rfl⟩ := List.mem_map.mp mem
      exact kept.reported (AList.mem_keys.mpr (Keyed.mem_arrange.mp there))
  · intro c e refused
    obtain ⟨a, sound', same⟩ := refused_attested sound refused
    rw [same]
    exact ⟨rfl, rfl, fun later => run_attested sound sound' later⟩

end

/-- A frozen set of one series and a chained one of a base and no day. -/
def twoSets : Root Nat Nat Int where
  readParquet _ _ := .ok [10, 20, 30]
  sha256File _ _ := .ok 7
  datasetHash _ := "h"
  attestations _ := .ok (["h"], [])
  tree _ := [(.base "A/B", .frame 5), (.line Rolling.baseDay, .line ⟨Rolling.baseDay, none, [(.base "A/B", 0)], [], []⟩)]
  sha256 _ := 0
  frames := ⟨fun _ => .ok [40, 40], fun _ rows => rows, id⟩
  fromisoformat w := if w = "late" then some (some 20) else none
  strptime _ := some Rolling.baseDay

theorem twoSets_ordered : Ordered twoSets := by
  intro c frame given
  cases c with
  | series dataset relpath window =>
    cases said : seriesFrame twoSets dataset relpath window with
    | error e =>
      rw [frameOf, said] at given
      cases given
    | ok rows =>
      rw [frameOf, said] at given
      obtain rfl := Option.some.inj given
      obtain ⟨full, read_full, kept⟩ := Fallible.bind_ok.mp said
      obtain ⟨within, -, kept⟩ := Fallible.bind_ok.mp kept
      obtain rfl : [10, 20, 30] = full := Except.ok.inj read_full
      simp only at kept
      split at kept
      · cases kept
      · injection kept with same
        rw [← same]
        have sorted : ([10, 20, 30] : List Int).Pairwise fun a b => twoSets.frames.ts a ≤ twoSets.frames.ts b := by decide
        rcases within with - | ⟨first, last⟩
        · exact sorted
        · exact List.Pairwise.filter (fun row => first ≤ twoSets.frames.ts row ∧ twoSets.frames.ts row ≤ last) sorted
  | rolling dataset pair interval asOf window acceptHoles =>
    obtain ⟨read, said, rfl⟩ := Option.map_eq_some_iff.mp given
    obtain ⟨day, within, -, -, got⟩ := readOf_rolling.mp said
    obtain ⟨chain, base, first, files, rows, parts⟩ := Rolling.readRolling_parts (rolled_ok got).1
    have forty : ∀ part ∈ rows, ∀ row ∈ part, row = 40 := by
      intro part mem
      obtain ⟨file, -, opened⟩ := Fallible.mapM_ok_source parts.opened mem
      unfold Rolling.opened at opened
      split at opened
      · cases opened
      · split at opened
        · cases opened
        · split at opened
          · cases opened
          · injection opened with same
            rw [← same]
            decide
    have all : ∀ row ∈ read.frame, row = 40 := by
      intro row mem
      rw [parts.frame] at mem
      have within_flat : row ∈ rows.flatten := by
        have grid : (if interval = Rolling.baseGrid then rows.flatten else
            twoSets.frames.deriveBars interval rows.flatten) = rows.flatten := by
          split <;> rfl
        rw [grid] at mem
        rcases within with - | ⟨first_, last⟩
        · exact mem
        · exact (List.mem_filter.mp mem).1
      obtain ⟨part, there, row_there⟩ := List.mem_flatten.mp within_flat
      exact forty part there row row_there
    refine List.Pairwise.imp_of_mem ?_ (List.pairwise_of_forall fun _ _ => trivial)
    intro a b memA memB _
    rw [all a memA, all b memB]

def someCalls : List Call :=
  [.series "frozen" "a.parquet" none, .series "frozen" "a.parquet" (some ("late", "late")),
    .series "frozen" "b.parquet" (some ("late", "late")), .rolling "live" "A/B" 15 "2026-09-30" none false,
    .rolling "frozen" "A/B" 15 "2026-09-30" none false, .rolling "live" "A/B" 60 "2026-09-30" none true]

theorem someCalls_reported :
    Reported twoSets (run twoSets {} someCalls).2 "frozen" ⟨[("a.parquet", 7), ("b.parquet", 7)], 4,
      ("1970-01-01 00:00:00+00:00", "1970-01-01 00:00:00+00:00")⟩ ∧
    Reported twoSets (run twoSets {} someCalls).2 "live" ⟨[("index/2026/09/30.json", 0)], 4,
      ("1970-01-01 00:00:00+00:00", "1970-01-01 00:00:00+00:00")⟩ := by
  obtain ⟨-, -, reported, -⟩ := observed_exact twoSets_ordered someCalls
  have each : ∀ item ∈ [("frozen", (⟨[("a.parquet", 7), ("b.parquet", 7)], 4,
        ("1970-01-01 00:00:00+00:00", "1970-01-01 00:00:00+00:00")⟩ : Block Nat)),
      ("live", ⟨[("index/2026/09/30.json", 0)], 4, ("1970-01-01 00:00:00+00:00", "1970-01-01 00:00:00+00:00")⟩)],
      Reported twoSets (run twoSets {} someCalls).2 item.1 item.2 := (reported _ (by decide +kernel)).2.2
  constructor
  · exact each ("frozen", _) List.mem_cons_self
  · exact each ("live", _) (List.mem_cons_of_mem _ List.mem_cons_self)

end Observed
