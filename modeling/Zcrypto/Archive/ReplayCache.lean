import Zcrypto.Archive.Replay
import Zcrypto.Keyed
import Mathlib.Data.Set.Function
import Mathlib.Logic.Relation

/- Over any history of the archive and of the checkpoint file, an incremental run's verdict on an hour
   that it does not leave pending is the full replay's. -/
namespace Continuity
open Keyed

section
variable {Bytes : Type} {a : Archive Bytes} {s t : Segment Bytes} {c : Checkpoint}
  {row old : CheckpointRow} {k : Key}

theorem Archive.distinct (a : Archive Bytes) : Distinct Segment.key a.segments := by
  apply List.pairwise_map.mpr
  apply a.ordered.imp
  intro s t before same
  obtain ⟨pair, hour⟩ : s.pair = t.pair ∧ s.hour = t.hour := Prod.ext_iff.mp same
  rcases before with ⟨-, later⟩ | later
  · exact later.ne hour
  · rw [pair] at later
    exact String.lt_irrefl _ later

theorem mem_get (found : c.get k = some row) : row ∈ c ∧ row.key = k :=
  ⟨List.mem_of_find?_eq_some found, by simpa using List.find?_some found⟩

theorem mem_put (mem : old ∈ c.put row) : old = row ∨ old ∈ c := by
  unfold Checkpoint.put at mem
  split at mem
  · obtain ⟨was, there, rfl⟩ := List.mem_map.mp mem
    split
    · exact .inl rfl
    · exact .inr there
  · rcases List.mem_append.mp mem with there | here
    · exact .inr there
    · exact .inl (List.mem_singleton.mp here)

theorem get_replace : Checkpoint.get (c.map fun old => if old.key = row.key then row else old) k =
    if row.key = k then (c.get k).map fun _ => row else c.get k := by
  induction c with
  | nil => simp [Checkpoint.get]
  | cons first rest ih =>
    unfold Checkpoint.get at *
    rw [List.map_cons, List.find?_cons, List.find?_cons, ih]
    by_cases here : first.key = row.key
    · rw [if_pos here, here]
      by_cases there : row.key = k <;> simp [there]
    · rw [if_neg here]
      by_cases there : row.key = k
      · subst there
        simp [here]
      · simp only [there, if_false]

/-- A put changes what is under its row's key. -/
theorem get_put : (c.put row).get k = if row.key = k then some row else c.get k := by
  unfold Checkpoint.put
  split
  · rename_i found
    rw [get_replace]
    by_cases here : row.key = k
    · subst here
      obtain ⟨old, mem, same⟩ := List.any_eq_true.mp found
      have there : (c.get row.key).isSome := List.find?_isSome.mpr ⟨old, mem, same⟩
      obtain ⟨was, same⟩ := Option.isSome_iff_exists.mp there
      simp [same]
    · simp [here]
  · rename_i absent
    unfold Checkpoint.get
    rw [List.find?_append]
    by_cases here : row.key = k
    · subst here
      have none : c.find? (fun old => old.key = row.key) = none := by
        rw [List.find?_eq_none]
        intro old mem same
        exact absent (List.any_eq_true.mpr ⟨old, mem, same⟩)
      simp [none]
    · simp [here]

end

/- What is replayed, and the row it leaves. -/

section
variable {Bytes : Type} {v : Verifier Bytes} {contents : Set Bytes} {night : Night}
  {s : Segment Bytes} {row : CheckpointRow}

/-- Nothing that a replay of the hour reads failed. -/
structure Night.Reads (night : Night) (k : Key) : Prop where
  bytes : night.bytesFail k = none
  segment : night.segmentFails k = none
  manifest : night.manifestFails k = false

/-- A row of this verifier that is no failure has the facts of the bytes that its digest is of. -/
def Honest (v : Verifier Bytes) (contents : Set Bytes) (row : CheckpointRow) : Prop :=
  row.verifierVersion = verifierVersion → cachedFailure row = false →
    ∃ bytes ∈ contents, row.byteHash = v.sha256 bytes ∧
      row.result = replaySegment v row.pair row.hour (.ok bytes)

theorem replaySegment_names (pair : String) (hour : Int) (content : Except String Bytes) :
    (replaySegment v pair hour content).pair = pair ∧
      (replaySegment v pair hour content).hour = some hour := by
  unfold replaySegment
  split <;> exact ⟨rfl, rfl⟩

theorem replayed_key : (replayAndCheckpoint v night s).2.key = s.key := rfl

theorem replayed_names (v : Verifier Bytes) (night : Night) (s : Segment Bytes) :
    (replayHashed v night s).1.pair = s.pair ∧
      (replayHashed v night s).1.hour = some s.hour := by
  unfold replayHashed
  split
  · exact ⟨rfl, rfl⟩
  · dsimp only
    split <;> exact replaySegment_names _ _ _

theorem replayed_result :
    (replayAndCheckpoint v night s).2.result = (replayAndCheckpoint v night s).1 := by
  obtain ⟨pair, hour⟩ := replayed_names v night s
  show ReplayResult.mk s.pair (some s.hour) _ _ _ _ _ _ _ = (replayHashed v night s).1
  rw [← pair, ← hour]
  rfl

/-- Only the facts of the bytes themselves pass for no failure. -/
theorem replayed_honest (mem : s.bytes ∈ contents) :
    Honest v contents (replayAndCheckpoint v night s).2 := by
  intro _ good
  have error : (replayHashed v night s).1.error = none := by
    unfold cachedFailure at good
    simp only [Bool.or_eq_false_iff, Option.isSome_eq_false_iff, Option.isNone_iff_eq_none] at good
    exact good.1
  rw [replayed_result]
  show ∃ bytes ∈ contents, (replayHashed v night s).2 = v.sha256 bytes ∧
    (replayHashed v night s).1 = replaySegment v s.pair s.hour (.ok bytes)
  unfold replayHashed at error ⊢
  cases unread : night.bytesFail s.key with
  | some text =>
    simp only [unread] at error
    cases error
  | none =>
    simp only [unread] at error ⊢
    cases manifest : manifestError (sidecarDigest s (night.manifestFails s.key)) (v.sha256 s.bytes) with
    | some text => simp [manifest] at error
    | none =>
      simp only [manifest] at error ⊢
      cases undecoded : night.segmentFails s.key with
      | some text =>
        simp only [undecoded] at error
        cases error
      | none => exact ⟨s.bytes, mem, rfl, rfl⟩

/-- Where nothing fails to be read, a replay's verdict is the full one. -/
theorem replayed_sound (reads : night.Reads s.key)
    (manifest : s.sidecar.bind List.head? = some (v.sha256 s.bytes)) :
    (replayAndCheckpoint v night s).1 = replaySegment v s.pair s.hour (.ok s.bytes) := by
  show (replayHashed v night s).1 = _
  unfold replayHashed sidecarDigest
  simp only [reads.bytes, reads.segment, reads.manifest]
  rw [if_neg Bool.false_ne_true, manifest, manifestError, if_pos rfl]

end

/- The sweep. -/

section
variable {Bytes : Type} {v : Verifier Bytes} {contents : Set Bytes} {o : Options} {night : Night}
  {c : Checkpoint} {a : Archive Bytes} {w : Work} {s : Segment Bytes}

/-- What is true of the work at every moment of a sweep. -/
structure Working (v : Verifier Bytes) (contents : Set Bytes) (night : Night) (c : Checkpoint)
    (a : Archive Bytes) (w : Work) : Prop where
  rows : ∀ row ∈ w.rows, Honest v contents row
  saves : ∀ rows ∈ w.saves, ∀ row ∈ rows, Honest v contents row
  fresh : ∀ f ∈ w.fresh, ∃ s ∈ a.segments, f = (s.key, (replayAndCheckpoint v night s).1)
  kept : ∀ s ∈ a.segments, w.fresh.lookup s.key = none → w.rows.get s.key = c.get s.key

theorem Working.replayOne (inside : ∀ s ∈ a.segments, s.bytes ∈ contents)
    (work : Working v contents night c a w) (mem : s ∈ a.segments) :
    Working v contents night c a (w.replayOne v night s) := by
  have rows : ∀ row ∈ (w.replayOne v night s).rows, Honest v contents row := by
    intro row there
    rcases mem_put there with rfl | old
    · exact replayed_honest (inside s mem)
    · exact work.rows row old
  refine ⟨rows, ?_, ?_, ?_⟩
  · intro saved there
    simp only [Work.replayOne] at there
    split at there
    · rcases List.mem_append.mp there with old | new
      · exact work.saves saved old
      · rw [List.mem_singleton.mp new]
        exact rows
    · exact work.saves saved there
  · intro f there
    rcases List.mem_append.mp there with old | new
    · exact work.fresh f old
    · exact ⟨s, mem, List.mem_singleton.mp new⟩
  · intro t there stale
    unfold Work.replayOne at stale ⊢
    simp only [List.lookup_append, Option.or_eq_none_iff] at stale
    have other : s.key ≠ t.key := by
      intro same
      simp [same] at stale
    simp only
    rw [get_put, replayed_key, if_neg other]
    exact work.kept t there stale.1

/-- An hour that was replayed stays so. -/
theorem fresh_replayOne {k : Key} (fresh : (w.fresh.lookup k).isSome) :
    ((w.replayOne v night s).fresh.lookup k).isSome := by
  unfold Work.replayOne
  simp only [List.lookup_append, Option.isSome_or, fresh, Bool.true_or]

theorem replayOne_fresh : ((w.replayOne v night s).fresh.lookup s.key).isSome := by
  unfold Work.replayOne
  simp [List.lookup_append]

theorem Working.replayAll (inside : ∀ s ∈ a.segments, s.bytes ∈ contents) {l : List (Segment Bytes)}
    (work : Working v contents night c a w) (mem : ∀ s ∈ l, s ∈ a.segments) :
    Working v contents night c a (l.foldl (Work.replayOne v night) w) := by
  induction l generalizing w with
  | nil => exact work
  | cons s rest ih =>
    apply ih (work.replayOne inside (mem s List.mem_cons_self))
    intro t later
    exact mem t (List.mem_cons_of_mem s later)

theorem fresh_replayAll {l : List (Segment Bytes)} {k : Key} (fresh : (w.fresh.lookup k).isSome) :
    ((l.foldl (Work.replayOne v night) w).fresh.lookup k).isSome := by
  induction l generalizing w with
  | nil => exact fresh
  | cons s rest ih => exact ih (fresh_replayOne fresh)

theorem replayAll_fresh {l : List (Segment Bytes)} (mem : s ∈ l) :
    ((l.foldl (Work.replayOne v night) w).fresh.lookup s.key).isSome := by
  induction l generalizing w with
  | nil => cases mem
  | cons first rest ih =>
    rw [List.foldl_cons]
    rcases List.mem_cons.mp mem with rfl | later
    · exact fresh_replayAll replayOne_fresh
    · exact ih later

theorem Working.drainFrom (inside : ∀ s ∈ a.segments, s.bytes ∈ contents) {l : List (Segment Bytes)}
    {i : Nat} (work : Working v contents night c a w) (mem : ∀ s ∈ l, s ∈ a.segments) :
    Working v contents night c a (drainFrom v o night i l w).1 := by
  induction l generalizing i w with
  | nil => exact work
  | cons s rest ih =>
    unfold Continuity.drainFrom
    split
    · exact work
    · apply ih (work.replayOne inside (mem s List.mem_cons_self))
      intro t later
      exact mem t (List.mem_cons_of_mem s later)

theorem fresh_drainFrom {l : List (Segment Bytes)} {i : Nat} {k : Key}
    (fresh : (w.fresh.lookup k).isSome) :
    ((drainFrom v o night i l w).1.fresh.lookup k).isSome := by
  induction l generalizing i w with
  | nil => exact fresh
  | cons s rest ih =>
    unfold drainFrom
    split
    · exact fresh
    · exact ih (fresh_replayOne fresh)

/-- What the drain does not leave pending it replays. -/
theorem drainFrom_fresh {l : List (Segment Bytes)} {i : Nat} (mem : s ∈ l) :
    s ∈ (drainFrom v o night i l w).2 ∨
      ((drainFrom v o night i l w).1.fresh.lookup s.key).isSome := by
  induction l generalizing i w with
  | nil => cases mem
  | cons first rest ih =>
    unfold drainFrom
    split
    · exact .inl mem
    · rcases List.mem_cons.mp mem with rfl | later
      · exact .inr (fresh_drainFrom replayOne_fresh)
      · exact ih later

theorem drainFrom_pending {l : List (Segment Bytes)} {i : Nat} :
    ∀ s ∈ (drainFrom v o night i l w).2, s ∈ l := by
  induction l generalizing i w with
  | nil => exact fun s mem => mem
  | cons first rest ih =>
    unfold drainFrom
    split
    · exact fun s mem => mem
    · exact fun s mem => List.mem_cons_of_mem first (ih s mem)

theorem mem_mandatory : s ∈ mandatory c a ↔ s ∈ a.segments ∧ c.get s.key = none := by
  simp [mandatory]

theorem mem_drain : s ∈ drain o night c a ↔ s ∈ a.segments ∧ ∃ row, c.get s.key = some row ∧
    isStale row s o.reverifyAll (night.probeFails s.key) = true := by
  unfold drain
  rw [(List.perm_insertionSort _ _).mem_iff, List.mem_filter]
  cases c.get s.key <;> simp

theorem get_present (mem : s ∈ a.segments) : Checkpoint.get (c.filter (present a)) s.key = c.get s.key := by
  unfold Checkpoint.get
  rw [List.find?_filter]
  congr 1
  funext row
  by_cases same : row.key = s.key
  · have there : present a row = true := by
      rw [present, List.any_eq_true]
      exact ⟨s, mem, by simp [same]⟩
    simp [there]
  · simp [same]

theorem Working.sweep (inside : ∀ s ∈ a.segments, s.bytes ∈ contents)
    (honest : ∀ row ∈ c, Honest v contents row) :
    Working v contents night c a (sweep v o night c a).1 := by
  apply Working.drainFrom inside
  · apply Working.replayAll inside
    · refine ⟨?_, ?_, ?_, ?_⟩
      · intro row mem
        exact honest row (List.mem_filter.mp mem).1
      · intro rows mem
        cases mem
      · intro f mem
        cases mem
      · intro s mem _
        exact get_present mem
    · exact fun s mem => (mem_mandatory.mp mem).1
  · exact fun s mem => (mem_drain.mp mem).1

/-- An hour that is neither replayed nor left pending has a row, and the row is not stale. -/
theorem sweep_reuses (mem : s ∈ a.segments) (current : s ∉ (sweep v o night c a).2)
    (unread : (sweep v o night c a).1.fresh.lookup s.key = none) : ∃ row, c.get s.key = some row ∧
      isStale row s o.reverifyAll (night.probeFails s.key) = false := by
  have stays : ((sweep v o night c a).1.fresh.lookup s.key).isSome = false := by
    rw [unread]
    rfl
  cases found : c.get s.key with
  | none =>
    have fresh : ((sweep v o night c a).1.fresh.lookup s.key).isSome :=
      fresh_drainFrom (replayAll_fresh (mem_mandatory.mpr ⟨mem, found⟩))
    cases stays.symm.trans fresh
  | some row =>
    refine ⟨row, rfl, ?_⟩
    by_contra stale
    rw [Bool.not_eq_false] at stale
    have late : s ∈ drain o night c a := mem_drain.mpr ⟨mem, row, found, stale⟩
    rcases drainFrom_fresh late with pending | fresh
    · exact current pending
    · cases stays.symm.trans fresh

end

/- The verdicts before the chain. -/

section
variable {Bytes : Type} {v : Verifier Bytes} {contents : Set Bytes} {o : Options} {night : Night}
  {c : Checkpoint} {a : Archive Bytes} {w : Work} {s : Segment Bytes}

/-- Every final is one of the contents, under a sidecar of its digest. -/
structure Manifested (v : Verifier Bytes) (contents : Set Bytes) (a : Archive Bytes) : Prop where
  inside : ∀ s ∈ a.segments, s.bytes ∈ contents
  sidecar : ∀ s ∈ a.segments, s.sidecar.bind List.head? = some (v.sha256 s.bytes)

/-- A row that is not stale has the facts of the bytes that are there. -/
theorem reused_sound {row : CheckpointRow} (apart : Set.InjOn v.sha256 contents)
    (manifested : Manifested v contents a) (honest : Honest v contents row) (mem : s ∈ a.segments)
    (same : row.key = s.key)
    (current : isStale row s o.reverifyAll (night.probeFails s.key) = false) :
    row.result = replaySegment v s.pair s.hour (.ok s.bytes) := by
  obtain ⟨pair, hour⟩ : row.pair = s.pair ∧ row.hour = s.hour := Prod.ext_iff.mp same
  unfold isStale at current
  simp only [Bool.or_eq_false_iff, decide_eq_false_iff_not, not_not] at current
  obtain ⟨⟨⟨-, version⟩, good⟩, digest⟩ := current
  obtain ⟨bytes, known, hash, facts⟩ := honest version good
  have recorded : some (v.sha256 s.bytes) = some row.byteHash := by
    unfold sidecarDigest at digest
    split at digest
    · cases digest
    · rw [← digest, manifested.sidecar s mem]
  rw [hash, Option.some.injEq] at recorded
  obtain rfl := apart (manifested.inside s mem) known recorded
  rw [facts, pair, hour]

/-- An hour that was replayed before the audit, or in it. -/
def Replayed (v : Verifier Bytes) (o : Options) (night : Night) (c : Checkpoint) (a : Archive Bytes)
    (s : Segment Bytes) : Prop :=
  ((sweep v o night c a).1.fresh.lookup s.key).isSome ∨
    s ∈ sampled o night (reused (sweep v o night c a).1 (sweep v o night c a).2 a)

/-- An hour that is not pending, and whose reads did not fail if it was replayed. -/
structure Vouched (v : Verifier Bytes) (o : Options) (night : Night) (c : Checkpoint)
    (a : Archive Bytes) (s : Segment Bytes) : Prop where
  current : s ∉ (sweep v o night c a).2
  reads : Replayed v o night c a s → night.Reads s.key

theorem fresh_replayed {r : ReplayResult} (work : Working v contents night c a w) (mem : s ∈ a.segments)
    (found : w.fresh.lookup s.key = some r) : r = (replayAndCheckpoint v night s).1 := by
  obtain ⟨before, after, split, -⟩ := List.lookup_eq_some_iff.mp found
  have listed : (s.key, r) ∈ w.fresh := by
    rw [split]
    exact List.mem_append_right before List.mem_cons_self
  obtain ⟨t, there, same⟩ := work.fresh _ listed
  obtain ⟨key, rfl⟩ := Prod.ext_iff.mp same
  rw [a.distinct.same mem there key]

/-- Every hour has a verdict before the audit, and it is the hour's own. -/
theorem verdict_names (inside : ∀ s ∈ a.segments, s.bytes ∈ contents)
    (honest : ∀ row ∈ c, Honest v contents row) (mem : s ∈ a.segments) :
    ∃ r, (sweep v o night c a).1.verdict s = some r ∧ r.pair = s.pair ∧ r.hour = some s.hour := by
  have work : Working v contents night c a (sweep v o night c a).1 := .sweep inside honest
  unfold Work.verdict
  cases found : (sweep v o night c a).1.fresh.lookup s.key with
  | some r =>
    refine ⟨r, rfl, ?_⟩
    rw [fresh_replayed work mem found]
    exact replayed_names v night s
  | none =>
    obtain ⟨row, there⟩ : ∃ row, c.get s.key = some row := by
      by_cases current : s ∈ (sweep v o night c a).2
      · obtain ⟨-, row, there, -⟩ := mem_drain.mp (drainFrom_pending s current)
        exact ⟨row, there⟩
      · obtain ⟨row, there, -⟩ := sweep_reuses mem current found
        exact ⟨row, there⟩
    rw [work.kept s mem found, there]
    obtain ⟨pair, hour⟩ : row.pair = s.pair ∧ row.hour = s.hour := Prod.ext_iff.mp (mem_get there).2
    exact ⟨row.result, rfl, pair, congrArg some hour⟩

/-- The verdict that a vouched hour has before the audit is the full one. -/
theorem verdict_sound (apart : Set.InjOn v.sha256 contents) (manifested : Manifested v contents a)
    (honest : ∀ row ∈ c, Honest v contents row) (mem : s ∈ a.segments)
    (vouched : Vouched v o night c a s) {r : ReplayResult}
    (verdict : (sweep v o night c a).1.verdict s = some r) :
    r = replaySegment v s.pair s.hour (.ok s.bytes) := by
  have work : Working v contents night c a (sweep v o night c a).1 := .sweep manifested.inside honest
  unfold Work.verdict at verdict
  cases found : (sweep v o night c a).1.fresh.lookup s.key with
  | some fresh =>
    simp only [found, Option.some.injEq] at verdict
    subst verdict
    have reads : night.Reads s.key := vouched.reads (.inl (by rw [found]; rfl))
    rw [fresh_replayed work mem found, replayed_sound reads (manifested.sidecar s mem)]
  | none =>
    obtain ⟨row, there, current⟩ := sweep_reuses mem vouched.current found
    obtain ⟨old, same⟩ := mem_get there
    simp only [found, work.kept s mem found, there, Option.map_some, Option.some.injEq] at verdict
    rw [← verdict, reused_sound apart manifested (honest row old) mem same current]

/-- An audit leaves the verdicts on the hours it does not replay. -/
theorem audit_results {l : List (Segment Bytes)} {f : Segment Bytes → ReplayResult} (rows : Checkpoint)
    (mismatches : List Key) (names : ∀ s ∈ a.segments, (f s).pair = s.pair ∧ (f s).hour = some s.hour)
    (within : ∀ s ∈ l, s ∈ a.segments) : ∃ g,
      (l.foldl (Audit.one v night) ⟨rows, a.segments.map f, mismatches⟩).results = a.segments.map g ∧
        ∀ s ∈ a.segments, (s ∈ l → g s = (replayAndCheckpoint v night s).1) ∧ (s ∉ l → g s = f s) := by
  induction l generalizing f rows mismatches with
  | nil =>
    refine ⟨f, rfl, ?_⟩
    intro s mem
    exact ⟨fun none => absurd none List.not_mem_nil, fun _ => rfl⟩
  | cons t rest ih =>
    have here : t ∈ a.segments := within t List.mem_cons_self
    have inside : ∀ s ∈ rest, s ∈ a.segments := fun s mem => within s (List.mem_cons_of_mem t mem)
    let f' := fun s : Segment Bytes =>
      if (f s).pair = t.pair ∧ (f s).hour = some t.hour then (replayAndCheckpoint v night t).1 else f s
    have itself : ∀ s ∈ a.segments, (f s).pair = t.pair ∧ (f s).hour = some t.hour → s = t := by
      intro s mem same
      rw [(names s mem).1, (names s mem).2, Option.some.injEq] at same
      exact a.distinct.same mem here (Prod.ext same.1 same.2)
    have named : ∀ s ∈ a.segments, (f' s).pair = s.pair ∧ (f' s).hour = some s.hour := by
      intro s mem
      show (ite _ _ _ : ReplayResult).pair = _ ∧ (ite _ _ _ : ReplayResult).hour = _
      split
      · rename_i same
        rw [itself s mem same]
        exact replayed_names v night t
      · exact names s mem
    obtain ⟨g, results, which⟩ := ih (rows.put (replayAndCheckpoint v night t).2) _ named inside
    refine ⟨g, ?_, ?_⟩
    · rw [← results, List.foldl_cons]
      unfold Audit.one
      simp only [List.map_map]
      rfl
    · intro s mem
      obtain ⟨again, untouched⟩ := which s mem
      constructor
      · intro listed
        by_cases later : s ∈ rest
        · exact again later
        · obtain rfl : s = t := (List.mem_cons.mp listed).resolve_right later
          rw [untouched later]
          exact if_pos (names s mem)
      · intro unlisted
        rw [List.mem_cons, not_or] at unlisted
        rw [untouched unlisted.2]
        exact if_neg fun same => unlisted.1 (itself s mem same)

end

/- The chain. -/

section
variable {Bytes : Type} {a : Archive Bytes} {sound : Segment Bytes → Prop}
  {f g : Segment Bytes → ReplayResult} {l : List (Segment Bytes)} {prev prev' : String → Option Int × Bool}

/-- Every hour that an unbroken line of hours leads from to this one is sound. -/
def Sheltered (a : Archive Bytes) (sound : Segment Bytes → Prop) (pair : String) (hour : Int) : Prop :=
  ∀ t ∈ a.segments, t.pair = pair → t.hour ≤ hour →
    (∀ k, t.hour ≤ k → k ≤ hour → ∃ u ∈ a.segments, u.key = (pair, k)) → sound t

theorem Sheltered.here {s : Segment Bytes} (sheltered : Sheltered a sound s.pair s.hour)
    (mem : s ∈ a.segments) : sound s := by
  apply sheltered s mem rfl le_rfl
  intro k low high
  obtain rfl : s.hour = k := le_antisymm low high
  exact ⟨s, mem, rfl⟩

theorem Sheltered.before {s : Segment Bytes} (sheltered : Sheltered a sound s.pair s.hour)
    (mem : s ∈ a.segments) : Sheltered a sound s.pair (s.hour - 1) := by
  intro t there same earlier unbroken
  apply sheltered t there same (by omega)
  intro k low high
  by_cases last : k = s.hour
  · rw [last]
    exact ⟨s, mem, rfl⟩
  · exact unbroken k low (by omega)

/-- Two carries that agree on every pair's last hour, and on the hours the sound ones lead to. -/
def Agree (a : Archive Bytes) (sound : Segment Bytes → Prop) (prev prev' : String → Option Int × Bool) :
    Prop :=
  ∀ pair, (prev pair).1 = (prev' pair).1 ∧
    ∀ hour, (prev pair).1 = some hour → Sheltered a sound pair hour → (prev pair).2 = (prev' pair).2

/-- The chain changes nothing but the flag. -/
theorem chainFrom_get (prev : String → Option Int × Bool) {results : List ReplayResult} {i : Nat}
    {r : ReplayResult} (there : results[i]? = some r) :
    ∃ anchored, (chainFrom prev results)[i]? = some { r with anchored } := by
  induction results generalizing prev i with
  | nil => cases there
  | cons first rest ih =>
    cases i with
    | zero =>
      obtain rfl : first = r := Option.some.inj there
      exact ⟨_, rfl⟩
    | succ i => exact ih _ there

theorem chainFrom_length {results : List ReplayResult} :
    (chainFrom prev results).length = results.length := by
  induction results generalizing prev with
  | nil => rfl
  | cons first rest ih => exact congrArg (· + 1) ih

/-- Where every hour that leads to it has one verdict in both lists, an hour has one in both chains. -/
theorem chain_agree (agree : Agree a sound prev prev') (within : ∀ s ∈ l, s ∈ a.segments)
    (same : ∀ s ∈ l, sound s → f s = g s)
    (names : ∀ s ∈ l, (f s).pair = s.pair ∧ (f s).hour = some s.hour)
    (names' : ∀ s ∈ l, (g s).pair = s.pair ∧ (g s).hour = some s.hour) {i : Nat} {s : Segment Bytes}
    (there : l[i]? = some s) (sheltered : Sheltered a sound s.pair s.hour) :
    (chainFrom prev (l.map f))[i]? = (chainFrom prev' (l.map g))[i]? := by
  induction l generalizing prev prev' i with
  | nil => cases there
  | cons first rest ih =>
    have mem : first ∈ a.segments := within first List.mem_cons_self
    obtain ⟨pair, hour⟩ := names first List.mem_cons_self
    obtain ⟨pair', hour'⟩ := names' first List.mem_cons_self
    -- a sheltered hour is anchored alike: its verdict is one, and so is the hour's it may follow
    have alike (sheltered : Sheltered a sound first.pair first.hour) : f first = g first ∧
        (chainFrom prev ((first :: rest).map f)).head? = (chainFrom prev' ((first :: rest).map g)).head? := by
      have one : f first = g first := same first List.mem_cons_self (sheltered.here mem)
      refine ⟨one, ?_⟩
      simp only [List.map_cons, chainFrom, List.head?_cons, one, pair', hour', Option.some.injEq]
      obtain ⟨last, ok⟩ := agree first.pair
      rw [← last]
      cases before : (prev first.pair).1 with
      | none => rfl
      | some k =>
        by_cases next : first.hour = k + 1
        · have earlier : Sheltered a sound first.pair k := by
            rw [show k = first.hour - 1 by omega]
            exact sheltered.before mem
          rw [ok k before earlier]
        · simp [next]
    cases i with
    | zero =>
      obtain rfl : first = s := Option.some.inj there
      simpa [List.head?_eq_getElem?] using (alike sheltered).2
    | succ i =>
      apply ih _ (fun t later => within t (List.mem_cons_of_mem first later))
        (fun t later => same t (List.mem_cons_of_mem first later))
        (fun t later => names t (List.mem_cons_of_mem first later))
        (fun t later => names' t (List.mem_cons_of_mem first later)) there
      intro p
      rw [pair, pair']
      by_cases here : p = first.pair
      · subst here
        rw [Function.update_self, Function.update_self]
        refine ⟨hour.trans hour'.symm, ?_⟩
        intro k last sheltered
        obtain rfl : first.hour = k := Option.some.inj (hour.symm.trans last)
        obtain ⟨one, both⟩ := alike sheltered
        simp only [List.map_cons, chainFrom, List.head?_cons, Option.some.injEq] at both
        have anchored := congrArg ReplayResult.anchored both
        simp only [pair, pair'] at anchored
        simp only [one] at anchored ⊢
        rw [anchored]
      · rw [Function.update_of_ne here, Function.update_of_ne here]
        exact agree p

end

/- Runs over a history. -/

section
variable {Bytes : Type} {v : Verifier Bytes} {contents : Set Bytes} {o : Options} {night : Night}
  {h h' : Host Bytes} {c : Checkpoint} {a : Archive Bytes}

/-- The archive changes, hours and their sidecars together; the checkpoint is lost or is no longer
    readable; or a run gets as far as some of its saves. -/
inductive Step (v : Verifier Bytes) (contents : Set Bytes) : Host Bytes → Host Bytes → Prop where
  | change (h : Host Bytes) (archive : Archive Bytes) (manifested : Manifested v contents archive) :
      Step v contents h { h with archive }
  | lost (h : Host Bytes) : Step v contents h { h with checkpoint := none }
  | run (h : Host Bytes) (o : Options) (night : Night) (saves : Nat) : Step v contents h { h with
      checkpoint := (verifyReplayIncremental v o night h.checkpoint h.archive).saved saves h.checkpoint }

/-- What a history starts from: no row of the checkpoint is this verifier's. -/
structure Start (v : Verifier Bytes) (contents : Set Bytes) (h : Host Bytes) : Prop where
  manifested : Manifested v contents h.archive
  foreign : ∀ row ∈ h.checkpoint.getD [], row.verifierVersion ≠ verifierVersion

def Reached (v : Verifier Bytes) (contents : Set Bytes) (h : Host Bytes) : Prop :=
  ∃ start, Start v contents start ∧ Relation.ReflTransGen (Step v contents) start h

/-- What every history keeps. -/
structure Trusted (v : Verifier Bytes) (contents : Set Bytes) (h : Host Bytes) : Prop where
  manifested : Manifested v contents h.archive
  rows : ∀ row ∈ h.checkpoint.getD [], Honest v contents row

theorem audit_honest {l : List (Segment Bytes)} {audit : Audit}
    (inside : ∀ s ∈ l, s.bytes ∈ contents) (rows : ∀ row ∈ audit.rows, Honest v contents row) :
    ∀ row ∈ (l.foldl (Audit.one v night) audit).rows, Honest v contents row := by
  induction l generalizing audit with
  | nil => exact rows
  | cons s rest ih =>
    apply ih fun t later => inside t (List.mem_cons_of_mem s later)
    intro row mem
    rcases mem_put mem with rfl | old
    · exact replayed_honest (inside s List.mem_cons_self)
    · exact rows row old

theorem sampled_within {w : Work} {pending : List (Segment Bytes)} :
    ∀ s ∈ sampled o night (reused w pending a), s ∈ a.segments := by
  intro s mem
  obtain ⟨i, -, there⟩ := List.mem_filterMap.mp mem
  exact (List.mem_filter.mp (List.mem_of_getElem? there)).1

/-- What a run saves is honest. -/
theorem saves_honest (inside : ∀ s ∈ a.segments, s.bytes ∈ contents) {before : Option Checkpoint}
    (honest : ∀ row ∈ before.getD [], Honest v contents row) :
    ∀ rows ∈ (verifyReplayIncremental v o night before a).saves, ∀ row ∈ rows, Honest v contents row := by
  intro rows mem
  unfold verifyReplayIncremental at mem
  simp only at mem
  split at mem
  · cases mem
  · split at mem
    · cases mem
    · have work : Working v contents night (before.getD []) a (sweep v o night (before.getD []) a).1 :=
        .sweep inside honest
      rcases List.mem_append.mp mem with flushed | last
      · exact work.saves rows flushed
      · rw [List.mem_singleton.mp last]
        apply audit_honest _ work.rows
        intro s there
        exact inside s (sampled_within s there)

theorem saved_honest {saves : List Checkpoint} {before : Option Checkpoint}
    (rows : ∀ rows ∈ saves, ∀ row ∈ rows, Honest v contents row)
    (honest : ∀ row ∈ before.getD [], Honest v contents row) : ∀ row ∈
      (saves.foldl (fun file rows => saveCheckpoint rows file) before).getD [],
        Honest v contents row := by
  induction saves generalizing before with
  | nil => exact honest
  | cons first rest ih =>
    apply ih fun later mem => rows later (List.mem_cons_of_mem first mem)
    show ∀ row ∈ (saveCheckpoint first before).getD [], Honest v contents row
    unfold saveCheckpoint
    split
    · exact honest
    · exact rows first List.mem_cons_self

theorem Trusted.step (step : Step v contents h h') (trusted : Trusted v contents h) :
    Trusted v contents h' := by
  cases step with
  | change archive manifested => exact ⟨manifested, trusted.rows⟩
  | lost =>
    refine ⟨trusted.manifested, ?_⟩
    intro row mem
    cases mem
  | run o night saves =>
    refine ⟨trusted.manifested, saved_honest ?_ trusted.rows⟩
    intro rows mem
    exact saves_honest trusted.manifested.inside trusted.rows rows (List.mem_of_mem_take mem)

theorem Reached.trusted (reached : Reached v contents h) : Trusted v contents h := by
  obtain ⟨start, begins, steps⟩ := reached
  induction steps with
  | refl =>
    refine ⟨begins.manifested, ?_⟩
    intro row mem version
    exact absurd version (begins.foreign row mem)
  | tail _ step ih => exact ih.step step

/-- The hours' verdicts that a run chains. -/
theorem answer_verdicts (trusted : Trusted v contents h) {results : List ReplayResult} {census : Census}
    (apart : Set.InjOn v.sha256 contents)
    (answered : (verifyReplayIncremental v o night h.checkpoint h.archive).answer =
      some (results, census)) : ∃ verdict : Segment Bytes → ReplayResult,
        results = chainAnchor (h.archive.segments.map verdict) ∧
          (∀ s ∈ h.archive.segments, (verdict s).pair = s.pair ∧ (verdict s).hour = some s.hour) ∧
            ∀ s ∈ h.archive.segments, Vouched v o night (h.checkpoint.getD []) h.archive s →
              verdict s = replaySegment v s.pair s.hour (.ok s.bytes) := by
  have inside := trusted.manifested.inside
  unfold verifyReplayIncremental at answered
  simp only at answered
  split at answered
  · rename_i empty
    obtain ⟨rfl, -⟩ := Prod.ext_iff.mp (Option.some.inj answered)
    refine ⟨fun s => replaySegment v s.pair s.hour (.ok s.bytes), ?_, ?_, fun s _ _ => rfl⟩
    · rw [List.isEmpty_iff.mp empty]
      rfl
    · exact fun s _ => replaySegment_names _ _ _
  · split at answered
    · cases answered
    · obtain ⟨rfl, -⟩ := Prod.ext_iff.mp (Option.some.inj answered)
      let before := fun s : Segment Bytes => ((sweep v o night (h.checkpoint.getD []) h.archive).1.verdict
        s).getD (.failed s.pair s.hour "")
      have known : ∀ s ∈ h.archive.segments, (sweep v o night (h.checkpoint.getD []) h.archive).1.verdict
          s = some (before s) := by
        intro s mem
        obtain ⟨r, there, -⟩ := verdict_names inside trusted.rows mem
        show _ = some (Option.getD _ _)
        rw [there]
        rfl
      have names : ∀ s ∈ h.archive.segments,
          (before s).pair = s.pair ∧ (before s).hour = some s.hour := by
        intro s mem
        obtain ⟨r, there, named⟩ := verdict_names inside trusted.rows mem
        rw [known s mem, Option.some.injEq] at there
        rwa [there]
      have results : h.archive.segments.filterMap
          (sweep v o night (h.checkpoint.getD []) h.archive).1.verdict = h.archive.segments.map before := by
        rw [← List.filterMap_eq_map]
        exact List.filterMap_congr known
      obtain ⟨verdict, chained, which⟩ := audit_results (v := v)
        (sweep v o night (h.checkpoint.getD []) h.archive).1.rows [] names sampled_within
      refine ⟨verdict, ?_, ?_, ?_⟩
      · unfold audit
        rw [results, chained]
      · intro s mem
        obtain ⟨again, untouched⟩ := which s mem
        by_cases listed : s ∈ sampled o night
          (reused (sweep v o night (h.checkpoint.getD []) h.archive).1
            (sweep v o night (h.checkpoint.getD []) h.archive).2 h.archive)
        · rw [again listed]
          exact replayed_names v night s
        · rw [untouched listed]
          exact names s mem
      · intro s mem vouched
        obtain ⟨again, untouched⟩ := which s mem
        by_cases listed : s ∈ sampled o night
          (reused (sweep v o night (h.checkpoint.getD []) h.archive).1
            (sweep v o night (h.checkpoint.getD []) h.archive).2 h.archive)
        · rw [again listed, replayed_sound (vouched.reads (.inr listed))
            (trusted.manifested.sidecar s mem)]
        · rw [untouched listed]
          exact verdict_sound apart trusted.manifested trusted.rows mem vouched (known s mem)

end

/- Runs over two hours, the second of which follows the first's snapshot. -/

def level (type : String) (ts : Int) : Row :=
  ⟨ts, "BTC/EUR", type, some 7, "bid", some (.number 5), some (.number 1)⟩

/-- The finals of a small archive, by number. -/
def finals : Nat → Except String (List Row)
  | 0 => .ok [level "snapshot" 0]
  | 1 => .ok [level "update" 1]
  | 2 => .ok [level "update" 0]
  | _ => .error "ComputeError: not a parquet file"

def digests : Nat → String
  | 0 => "a"
  | 1 => "b"
  | 2 => "c"
  | _ => "d"

def smallVerifier : Verifier Nat := ⟨finals, digests, 100⟩

def smallContents : Set Nat := {n | n ≤ 3}

theorem digests_apart : Set.InjOn smallVerifier.sha256 smallContents := by
  intro m low n low' same
  have low : m ≤ 3 := low
  have low' : n ≤ 3 := low'
  have known : m = 0 ∨ m = 1 ∨ m = 2 ∨ m = 3 := by omega
  have known' : n = 0 ∨ n = 1 ∨ n = 2 ∨ n = 3 := by omega
  rcases known with rfl | rfl | rfl | rfl <;> rcases known' with rfl | rfl | rfl | rfl <;>
    first | rfl | simp [smallVerifier, digests] at same

/-- Two hours, with their sidecars. -/
def twoHours (first second : Nat) : Archive Nat :=
  ⟨[⟨"BTC/EUR", 0, first, some [digests first]⟩, ⟨"BTC/EUR", 1, second, some [digests second]⟩], by
    simp⟩

theorem twoHours_manifested {first second : Nat} (low : first ≤ 3) (low' : second ≤ 3) :
    Manifested smallVerifier smallContents (twoHours first second) := by
  constructor
  · intro s mem
    rcases List.mem_pair.mp mem with rfl | rfl
    · exact low
    · exact low'
  · intro s mem
    rcases List.mem_pair.mp mem with rfl | rfl <;> rfl

def quietNight : Night :=
  ⟨0, 0, fun _ => 0, 0, fun _ => false, fun _ => none, fun _ => none, fun _ => false, fun _ _ => []⟩

/-- A night in which the first hour's final is not read. -/
def unreadNight : Night :=
  { quietNight with bytesFail := fun k => if k.2 = 0 then some "OSError: [Errno 5]" else none }

def budgeted : Options := ⟨7200, 0, false⟩
def unbudgeted : Options := ⟨0, 0, false⟩

/-- A first run over one archive, which another then takes the place of. -/
def rewritten (before after : Archive Nat) : Host Nat :=
  ⟨after, (verifyReplayIncremental smallVerifier budgeted quietNight none before).saved 1 none⟩

theorem rewritten_reached {before after : Archive Nat}
    (first : Manifested smallVerifier smallContents before)
    (second : Manifested smallVerifier smallContents after) :
    Reached smallVerifier smallContents (rewritten before after) := by
  refine ⟨⟨before, none⟩, ⟨first, ?_⟩, ?_⟩
  · intro row mem
    cases mem
  · exact .tail (.single (.run _ budgeted quietNight 1)) (.change _ after second)

end Continuity
