import Mathlib.Data.List.Forall2
import Mathlib.Data.List.Induction
import Zcrypto.Engine.GateCache

/- What a remembered outcome is worth: it is the replay of a record with the same evidence under the
   same code, and the record's own wherever the two records are validated alike. -/
namespace GateCaches
open Journal Replays Fallible Keyed
open ProbePlans (hour)

/- Two records of one evidence. -/

inductive Kind where
  | journal | hashMismatch | other
  deriving DecidableEq, Repr

def kindOf : Fault → Kind
  | .journal _ => .journal
  | .hashMismatch _ _ => .hashMismatch
  | _ => .other

/-- Whether a record is accepted, and how it fails where it is not. -/
def verdict (r : CycleRecord) : Except Kind Unit := (validateRecord r).mapError kindOf

/-- Records validated alike and, where they are accepted, with their snapshots in one order. -/
structure Alike (earlier r : CycleRecord) : Prop where
  validated : verdict earlier = verdict r
  ordered : verdict r = .ok () → earlier.snapshots = r.snapshots

theorem verdict_ok {r : CycleRecord} : verdict r = .ok () ↔ validateRecord r = .ok () := by
  unfold verdict
  exact mapError_ok

theorem verdict_error {r : CycleRecord} {k : Kind} :
    verdict r = .error k ↔ ∃ f, validateRecord r = .error f ∧ kindOf f = k := by
  unfold verdict
  cases validateRecord r <;> simp [Except.mapError]

theorem evidence_some {r : CycleRecord} {fp : Evidence} (known : evidenceFingerprint r = some fp) :
    fp.cycleTs = r.cycleTs ∧ fp.completedAt = r.completedAt ∧
      fp.finalTargets.Perm r.finalTargets.items := by
  unfold evidenceFingerprint at known
  split at known
  · injection known with known
    subst known
    exact ⟨rfl, rfl, List.perm_insertionSort _ _⟩
  · cases known

theorem Dict.get?_perm {α : Type} {a b : Dict α} (perm : a.items.Perm b.items) (key : String) :
    a.get? key = b.get? key := by
  apply Option.ext
  intro value
  unfold Dict.get?
  rw [lookup_iff a.distinct, lookup_iff b.distinct, perm.mem_iff]

theorem worst_le {diff : String → ℚ} (first : String) (rest : List String) {bound : ℚ} :
    diff (worst diff first rest) ≤ bound ↔ ∀ asset ∈ first :: rest, diff asset ≤ bound := by
  unfold worst
  induction rest generalizing first with
  | nil => simp
  | cons next rest ih =>
    rw [List.foldl_cons, ih]
    simp only [List.mem_cons, forall_eq_or_imp]
    split
    · rename_i less
      constructor
      · rintro ⟨top, others⟩
        exact ⟨less.le.trans top, top, others⟩
      · rintro ⟨_, top, others⟩
        exact ⟨top, others⟩
    · rename_i greatest
      constructor
      · rintro ⟨top, others⟩
        exact ⟨top, (not_lt.mp greatest).trans top, others⟩
      · rintro ⟨top, _, others⟩
        exact ⟨top, others⟩

/-- A comparison passes when the assets are the same and no difference is over the tolerance. -/
theorem compareTargets_passed (a b : Dict ℚ) : (compareTargets a b).passed = true ↔
    sameAssets a b = true ∧ ∀ asset ∈ a.keys, absDiff a b asset ≤ tolerance := by
  unfold compareTargets
  split
  · rename_i shared
    rw [shared]
    cases keys : a.keys with
    | nil => simp
    | cons first rest =>
      simp only [decide_eq_true_eq, true_and]
      exact worst_le first rest
  · rename_i apart
    simp [apart]

theorem sameAssets_iff {a b : Dict ℚ} :
    sameAssets a b = true ↔ ∀ asset, asset ∈ a.keys ↔ asset ∈ b.keys := by
  unfold sameAssets
  simp only [Bool.and_eq_true, List.all_eq_true, decide_eq_true_eq]
  constructor
  · intro both asset
    exact ⟨both.1 asset, both.2 asset⟩
  · intro each
    exact ⟨fun asset => (each asset).mp, fun asset => (each asset).mpr⟩

/-- The order of the targets says nothing. -/
theorem compareTargets_perm {a a' b : Dict ℚ} (perm : a.items.Perm a'.items) :
    (compareTargets a b).passed = (compareTargets a' b).passed := by
  have keys : ∀ asset, asset ∈ a.keys ↔ asset ∈ a'.keys :=
    fun asset => (perm.map Prod.fst).mem_iff
  have diffs : ∀ asset, absDiff a b asset = absDiff a' b asset := by
    intro asset
    unfold absDiff
    rw [Dict.get?_perm perm]
  rw [Bool.eq_iff_iff, compareTargets_passed, compareTargets_passed, sameAssets_iff, sameAssets_iff]
  simp only [keys, diffs]

section
variable {contentHash : Series → String} {build : String → Builder}
  {files : String → Option Series} {digest : Stamp → Nat}

/-- Accepted records over the same snapshots at the same boundary replay alike. -/
theorem replayCycle_same {model : Builder} {a b : CycleRecord} (left : validateRecord a = .ok ())
    (right : validateRecord b = .ok ()) (snapshots : a.snapshots = b.snapshots)
    (cycleTs : a.cycleTs = b.cycleTs) :
    replayCycle contentHash model files a = replayCycle contentHash model files b := by
  have one := accepted_of_validated left
  have other := accepted_of_validated right
  have schema : isSchema 1 a.schemaVersion = isSchema 1 b.schemaVersion := by
    cases first : b.snapshots with
    | nil => exact absurd first other.some_snapshots
    | cons e rest =>
      rw [one.schema_of_first (snapshots.trans first), other.schema_of_first first]
  have expected : a.expectedLast "240" = b.expectedLast "240" := by
    unfold CycleRecord.expectedLast
    rw [cycleTs]
  unfold replayCycle modelTargets
  rw [left, right, snapshots, expected, schema]

theorem classified_kind {cycleTs completedAt : Stamp} {f g : Fault} (kind : kindOf f = kindOf g) :
    classified cycleTs completedAt (.error f) = classified cycleTs completedAt (.error g) := by
  cases f <;> cases g <;> first | rfl | cases kind

/-- Records of one evidence, validated alike, have one outcome. -/
theorem replayOne_alike {model : Builder} {a b : CycleRecord} {fp : Evidence}
    (left : evidenceFingerprint a = some fp) (right : evidenceFingerprint b = some fp)
    (alike : Alike a b) :
    replayOne contentHash model files a = replayOne contentHash model files b := by
  obtain ⟨aTs, aDone, aTargets⟩ := evidence_some left
  obtain ⟨bTs, bDone, bTargets⟩ := evidence_some right
  have cycleTs : a.cycleTs = b.cycleTs := aTs.symm.trans bTs
  have completedAt : a.completedAt = b.completedAt := aDone.symm.trans bDone
  cases validated : verdict b with
  | ok _ =>
    have other := verdict_ok.mp validated
    have one := verdict_ok.mp (alike.validated.trans validated)
    have replayed : replayCycle contentHash model files a = replayCycle contentHash model files b :=
      replayCycle_same one other (alike.ordered validated) cycleTs
    have perm : (amounts a.finalTargets).items.Perm (amounts b.finalTargets).items :=
      (aTargets.symm.trans bTargets).map _
    unfold replayOne
    rw [replayed, cycleTs, completedAt]
    congr 2
    funext targets
    exact compareTargets_perm perm
  | error k =>
    obtain ⟨f, failed, kind⟩ := verdict_error.mp validated
    obtain ⟨g, failing, also_kind⟩ := verdict_error.mp (alike.validated.trans validated)
    have one : replayCycle contentHash model files a = .error g := by
      unfold replayCycle
      rw [failing]
      rfl
    have other : replayCycle contentHash model files b = .error f := by
      unfold replayCycle
      rw [failed]
      rfl
    unfold replayOne
    rw [one, other, cycleTs, completedAt]
    exact classified_kind (also_kind.trans kind.symm)

/- What is remembered. -/

def Visit.holds (v : Visit) (r : CycleRecord) : Prop := ∃ boundary, (boundary, some r) ∈ v.records

/-- A remembered outcome: the replay, by the same code, of an earlier run's record with the
    remembered evidence. -/
def Earned (contentHash : Series → String) (build : String → Builder)
    (files : String → Option Series) (past : List Visit) (code : String) (e : CacheEntry) : Prop :=
  ∃ v ∈ past, v.code = code ∧ ∃ r, v.holds r ∧ evidenceFingerprint r = some e.evidenceFp ∧
    replayOne contentHash (build code) files r = some e.outcome

/-- Everything in the file was earned. -/
def EarnedFile (contentHash : Series → String) (build : String → Builder)
    (files : String → Option Series) (past : List Visit) : CacheFile → Prop
  | .absent => True
  | .saved _ code entries => ∀ e ∈ entries, Earned contentHash build files past code e

section
variable {past : List Visit} {v : Visit} {code : String} {e : CacheEntry} {r : CycleRecord}
  {file : CacheFile} {cache : Option GateCache} {t t' : Tally}

theorem Earned.later (earned : Earned contentHash build files past code e) (v : Visit) :
    Earned contentHash build files (past ++ [v]) code e := by
  obtain ⟨u, mem, rest⟩ := earned
  exact ⟨u, List.mem_append_left _ mem, rest⟩

theorem mem_put {entries : List CacheEntry} {new : CacheEntry} (mem : e ∈ put new entries) :
    e = new ∨ e ∈ entries := by
  unfold put at mem
  rcases List.mem_append.mp mem with kept | added
  · exact Or.inr (List.mem_filter.mp kept).1
  · exact Or.inl (List.mem_singleton.mp added)

theorem mem_foldl_put {entries kept : List CacheEntry}
    (mem : e ∈ entries.foldl (fun kept e => put e kept) kept) : e ∈ entries ∨ e ∈ kept := by
  induction entries generalizing kept with
  | nil => exact Or.inr mem
  | cons first rest ih =>
    rcases ih mem with later | earlier
    · exact Or.inl (List.mem_cons_of_mem _ later)
    · rcases mem_put earlier with same | before
      · rw [same]
        exact Or.inl List.mem_cons_self
      · exact Or.inr before

theorem loadCache_earned {reads : Bool} (earned : EarnedFile contentHash build files past file) :
    ∀ e ∈ (loadCache reads file code).entries, Earned contentHash build files past code e := by
  intro e mem
  unfold loadCache at mem
  cases file with
  | absent => cases mem
  | saved schemaVersion savedFp entries =>
    simp only at mem
    split at mem
    · rename_i usable
      rcases mem_foldl_put mem with there | nowhere
      · rw [← usable.2.2]
        exact earned e there
      · cases nowhere
    · cases mem

theorem cacheOf_earned (earned : EarnedFile contentHash build files past file) {c : GateCache}
    (active : cacheOf v file = some c) :
    ∀ e ∈ c.entries, Earned contentHash build files past v.code e := by
  unfold cacheOf at active
  split at active
  · injection active with active
    subst active
    exact loadCache_earned earned
  · cases active

/-- What a record is served was remembered under its own evidence, and it is not due. -/
theorem served_some {slice : Nat} (hit : served digest cache slice r = some e) :
    ∃ c, cache = some c ∧ e ∈ c.entries ∧ evidenceFingerprint r = some e.evidenceFp ∧
      dueForReverification digest r.cycleTs slice = false := by
  unfold served at hit
  split at hit
  · cases hit
  · rename_i found
    obtain ⟨c, active, there⟩ := Option.bind_eq_some_iff.mp found
    split at hit
    · rename_i matched
      injection hit with hit
      subst hit
      refine ⟨c, active, List.mem_of_find?_eq_some there, ?_, by simpa using matched.2⟩
      have known := matched.1
      unfold fingerprint at known
      rw [active] at known
      exact known
    · cases hit

theorem Tally.add_outcomes {fp : Option Evidence} {outcome : CycleOutcome} {verifiedAt : Int}
    {hit : Bool} : (t.add fp outcome verifiedAt hit).outcomes = t.outcomes ++ [outcome] := rfl

theorem Tally.mem_add {fp : Option Evidence} {outcome : CycleOutcome} {verifiedAt : Int}
    {hit : Bool} (mem : e ∈ (t.add fp outcome verifiedAt hit).updated) :
    (fp = some e.evidenceFp ∧ e.outcome = outcome) ∨ e ∈ t.updated := by
  unfold Tally.add at mem
  cases fp with
  | none => exact Or.inr mem
  | some fp =>
    rcases mem_put mem with same | before
    · subst same
      exact Or.inl ⟨rfl, rfl⟩
    · exact Or.inr before

theorem fingerprint_some {fp : Evidence} (known : fingerprint cache r = some fp) :
    evidenceFingerprint r = some fp := by
  unfold fingerprint at known
  split at known
  · exact known
  · cases known

/-- One record's outcome: its own replay, or what an earlier record of its evidence earned, the
    record not being due. -/
def Honest (digest : Stamp → Nat) (contentHash : Series → String) (build : String → Builder)
    (files : String → Option Series) (past : List Visit) (v : Visit) (r : CycleRecord)
    (outcome : CycleOutcome) : Prop :=
  replayOne contentHash (build v.code) files r = some outcome ∨
    (dueForReverification digest r.cycleTs (v.slice.getD 0) = false ∧
      ∃ e, Earned contentHash build files past v.code e ∧
        evidenceFingerprint r = some e.evidenceFp ∧ e.outcome = outcome)

theorem score_some
    (remembered : ∀ c, cache = some c → ∀ e ∈ c.entries, Earned contentHash build files past v.code e)
    (scored : score digest contentHash build files v cache r t = some t') :
    ∃ outcome, t'.outcomes = t.outcomes ++ [outcome] ∧
      Honest digest contentHash build files past v r outcome ∧
      (v.holds r → ∀ e ∈ t'.updated, e ∈ t.updated ∨
        Earned contentHash build files (past ++ [v]) v.code e) := by
  unfold score at scored
  split at scored
  · rename_i e hit
    injection scored with scored
    subst scored
    obtain ⟨c, active, there, known, calm⟩ := served_some hit
    have earned := remembered c active e there
    refine ⟨e.outcome, Tally.add_outcomes, Or.inr ⟨calm, e, earned, known, rfl⟩, ?_⟩
    intro _ other mem
    rcases Tally.mem_add mem with ⟨fp, outcome⟩ | before
    · right
      have same := fingerprint_some fp
      rw [known] at same
      injection same with same
      obtain ⟨u, visited, code, r', held, evidence, replayed⟩ := earned
      exact ⟨u, List.mem_append_left _ visited, code, r', held, same ▸ evidence,
        outcome ▸ replayed⟩
    · exact Or.inl before
  · obtain ⟨outcome, replayed, same⟩ := Option.map_eq_some_iff.mp scored
    subst same
    refine ⟨outcome, Tally.add_outcomes, Or.inl replayed, ?_⟩
    intro held other mem
    rcases Tally.mem_add mem with ⟨fp, came⟩ | before
    · right
      exact ⟨v, List.mem_append_right _ (List.mem_singleton_self v), rfl, r, held,
        fingerprint_some fp, came ▸ replayed⟩
    · exact Or.inl before

/-- An artifact's outcome: a record that does not read has failed, and any other's is honest. -/
def Scored (digest : Stamp → Nat) (contentHash : Series → String) (build : String → Builder)
    (files : String → Option Series) (past : List Visit) (v : Visit)
    (item : Stamp × Option CycleRecord) (outcome : CycleOutcome) : Prop :=
  match item.2 with
  | none => outcome = unread item.1
  | some r => Honest digest contentHash build files past v r outcome

theorem scoreAll_some
    (remembered : ∀ c, cache = some c → ∀ e ∈ c.entries, Earned contentHash build files past v.code e)
    {items : List (Stamp × Option CycleRecord)} (listed : ∀ item ∈ items, item ∈ v.records)
    (scored : scoreAll digest contentHash build files v cache items t = some t')
    (earned : ∀ e ∈ t.updated, Earned contentHash build files (past ++ [v]) v.code e) :
    (∃ outcomes, t'.outcomes = t.outcomes ++ outcomes ∧
      List.Forall₂ (Scored digest contentHash build files past v) items outcomes) ∧
    ∀ e ∈ t'.updated, Earned contentHash build files (past ++ [v]) v.code e := by
  induction items generalizing t with
  | nil =>
    injection scored with scored
    subst scored
    exact ⟨⟨[], by simp, .nil⟩, earned⟩
  | cons item rest ih =>
    obtain ⟨boundary, record⟩ := item
    have others := fun other mem => listed other (List.mem_cons_of_mem _ mem)
    cases record with
    | none =>
      obtain ⟨⟨outcomes, grown, each⟩, later⟩ := ih others scored earned
      refine ⟨⟨unread boundary :: outcomes, ?_, .cons rfl each⟩, later⟩
      rw [grown]
      simp
    | some r =>
      obtain ⟨middle, first, scored⟩ := Option.bind_eq_some_iff.mp scored
      obtain ⟨outcome, grows, honest, updates⟩ := score_some remembered first
      have held : v.holds r := ⟨boundary, listed _ List.mem_cons_self⟩
      have earned : ∀ e ∈ middle.updated,
          Earned contentHash build files (past ++ [v]) v.code e := by
        intro e mem
        rcases updates held e mem with before | now
        · exact earned e before
        · exact now
      obtain ⟨⟨outcomes, grown, each⟩, later⟩ := ih others scored earned
      refine ⟨⟨outcome :: outcomes, ?_, .cons honest each⟩, later⟩
      rw [grown, grows]
      simp

theorem EarnedFile.later (earned : EarnedFile contentHash build files past file) (v : Visit) :
    EarnedFile contentHash build files (past ++ [v]) file := by
  cases file with
  | absent => trivial
  | saved schemaVersion code entries => exact fun e mem => (earned e mem).later v

/-- A run leaves a file of what was earned. -/
theorem evaluateJournal_earned (earned : EarnedFile contentHash build files past file) (v : Visit) :
    EarnedFile contentHash build files (past ++ [v])
      (evaluateJournal digest contentHash build files v file).2 := by
  unfold evaluateJournal
  simp only
  split
  · exact earned.later v
  · rename_i t scored
    split
    · exact earned.later v
    · have all := scoreAll_some (fun c active => cacheOf_earned earned active) (fun _ mem => mem)
        scored (by simp)
      simp only
      split
      · unfold saveCache
        split
        · exact all.2
        · exact earned.later v
      · exact earned.later v

theorem fileAfter_earned (past : List Visit) : EarnedFile contentHash build files past
    (fileAfter digest contentHash build files past) := by
  induction past using List.reverseRecOn with
  | nil => trivial
  | append_singleton past v ih =>
    unfold fileAfter
    rw [List.foldl_append]
    exact evaluateJournal_earned ih v

/- With the cache and without. -/

/-- No record of a run shares its evidence with one of an earlier run of the same code, unless the
    two are validated alike and list their snapshots alike. -/
def Consistent (past : List Visit) (v : Visit) : Prop :=
  ∀ u ∈ past, u.code = v.code → ∀ earlier, u.holds earlier → ∀ r, v.holds r →
    ∀ fp, evidenceFingerprint earlier = some fp → evidenceFingerprint r = some fp → Alike earlier r

theorem served_replays (consistent : Consistent past v)
    (remembered : ∀ c, cache = some c → ∀ e ∈ c.entries, Earned contentHash build files past v.code e)
    (held : v.holds r) {slice : Nat} (hit : served digest cache slice r = some e) :
    replayOne contentHash (build v.code) files r = some e.outcome := by
  obtain ⟨c, active, there, known, _⟩ := served_some hit
  obtain ⟨u, visited, code, earlier, was_held, evidence, replayed⟩ := remembered c active e there
  have alike := consistent u visited code earlier was_held r held _ evidence known
  rw [← replayOne_alike evidence known alike]
  exact replayed

theorem score_replays
    (faithful : ∀ e, served digest cache (v.slice.getD 0) r = some e →
      replayOne contentHash (build v.code) files r = some e.outcome) :
    (score digest contentHash build files v cache r t).map Tally.outcomes =
      (replayOne contentHash (build v.code) files r).map fun outcome => t.outcomes ++ [outcome] := by
  unfold score
  cases hit : served digest cache (v.slice.getD 0) r with
  | none =>
    rw [Option.map_map]
    rfl
  | some e =>
    rw [faithful e hit]
    rfl

/-- The outcomes do not depend on where they came from. -/
theorem scoreAll_replays {other : Option GateCache} {u : Visit} {t' : Tally} (code : u.code = v.code)
    {items : List (Stamp × Option CycleRecord)}
    (faithful : ∀ item ∈ items, ∀ r, item.2 = some r → ∀ e,
      served digest cache (v.slice.getD 0) r = some e →
        replayOne contentHash (build v.code) files r = some e.outcome)
    (uncached : other = none) (same : t.outcomes = t'.outcomes) :
    (scoreAll digest contentHash build files v cache items t).map Tally.outcomes =
      (scoreAll digest contentHash build files u other items t').map Tally.outcomes := by
  induction items generalizing t t' with
  | nil => simpa [scoreAll] using same
  | cons item rest ih =>
    obtain ⟨boundary, record⟩ := item
    have others := fun other mem => faithful other (List.mem_cons_of_mem _ mem)
    cases record with
    | none =>
      apply ih others
      simp only [same]
    | some r =>
      have here := score_replays (t := t) (faithful _ List.mem_cons_self r rfl)
      have there : (score digest contentHash build files u other r t').map Tally.outcomes =
          (replayOne contentHash (build v.code) files r).map fun o => t'.outcomes ++ [o] := by
        rw [← code]
        apply score_replays
        intro e hit
        rw [uncached] at hit
        cases hit
      rw [same, ← there] at here
      unfold scoreAll
      cases left : score digest contentHash build files v cache r t with
      | none =>
        rw [left, Option.map_none, eq_comm, Option.map_eq_none_iff] at here
        rw [here]
        rfl
      | some one =>
        rw [left, Option.map_some, eq_comm, Option.map_eq_some_iff] at here
        obtain ⟨two, right, same⟩ := here
        rw [right]
        exact ih others same.symm

theorem evaluateJournal_verdicts (v : Visit) (file : CacheFile) :
    (evaluateJournal digest contentHash build files v file).1.map Prod.fst =
      ((scoreAll digest contentHash build files v (cacheOf v file) v.records ⟨[], [], 0, 0⟩).map
        Tally.outcomes).bind fun outcomes => verdictsOf outcomes v.sidecars := by
  unfold evaluateJournal
  simp only
  cases scoreAll digest contentHash build files v (cacheOf v file) v.records ⟨[], [], 0, 0⟩ with
  | none => rfl
  | some t =>
    simp only [Option.map_some, Option.bind_some]
    cases verdictsOf t.outcomes v.sidecars <;> rfl

/-- Under consistent rewrites the cache changes no verdict. -/
theorem cached_eq_uncached (consistent : Consistent past v) :
    (evaluateJournal digest contentHash build files v
        (fileAfter digest contentHash build files past)).1.map Prod.fst =
      (evaluateJournal digest contentHash build files v.uncached .absent).1.map Prod.fst := by
  rw [evaluateJournal_verdicts, evaluateJournal_verdicts]
  have earned : EarnedFile contentHash build files past
      (fileAfter digest contentHash build files past) := fileAfter_earned past
  have remembered := fun c (active : cacheOf v _ = some c) => cacheOf_earned earned active
  have code : v.uncached.code = v.code := rfl
  have off : cacheOf v.uncached .absent = none := by simp [cacheOf, Visit.uncached]
  have same : (scoreAll digest contentHash build files v
        (cacheOf v (fileAfter digest contentHash build files past)) v.records ⟨[], [], 0, 0⟩).map
          Tally.outcomes =
      (scoreAll digest contentHash build files v.uncached (cacheOf v.uncached .absent)
        v.uncached.records ⟨[], [], 0, 0⟩).map Tally.outcomes := by
    apply scoreAll_replays code _ off rfl
    intro item mem r read e hit
    exact served_replays consistent remembered ⟨item.1, by rw [← read]; exact mem⟩ hit
  rw [same]
  rfl

end

end

section
variable {contentHash : Series → String} {build : String → Builder}
  {files : String → Option Series} {digest : Stamp → Nat} {past : List Visit} {v : Visit}

/-- A record of the run's slice is not served, nor one whose evidence no earlier run of the code
    had. -/
theorem unserved {r : CycleRecord}
    (fresh : dueForReverification digest r.cycleTs (v.slice.getD 0) = true ∨
      ∀ u ∈ past, u.code = v.code → ∀ earlier, u.holds earlier →
        evidenceFingerprint earlier ≠ evidenceFingerprint r) :
    served digest (cacheOf v (fileAfter digest contentHash build files past)) (v.slice.getD 0) r =
      none := by
  have earned : EarnedFile contentHash build files past
      (fileAfter digest contentHash build files past) := fileAfter_earned past
  by_contra hit
  obtain ⟨e, hit⟩ := Option.ne_none_iff_exists'.mp hit
  obtain ⟨c, active, there, known, calm⟩ := served_some hit
  rcases fresh with due | unseen
  · rw [due] at calm
    cases calm
  · obtain ⟨u, visited, code, earlier, held, evidence, _⟩ := cacheOf_earned earned active e there
    exact unseen u visited code earlier held (evidence.trans known.symm)

end

/-- Every verdict of a run is the replay of its record, or the replay by the same code of a record
    with its evidence; a record that is due or whose evidence is new is replayed; and where rewritten
    records are consistent, every verdict is the full replay's. -/
theorem gate_cache_replays (digest : Stamp → Nat) (contentHash : Series → String)
    (build : String → Builder) (files : String → Option Series) (past : List Visit) (v : Visit) :
    (∀ verdicts stats, (evaluateJournal digest contentHash build files v
        (fileAfter digest contentHash build files past)).1 = some (verdicts, stats) →
      ∃ outcomes, verdicts.entries = outcomes ++ v.sidecars.map sidecarOutcome ∧
        List.Forall₂ (Scored digest contentHash build files past v) v.records outcomes) ∧
    (∀ r, (dueForReverification digest r.cycleTs (v.slice.getD 0) = true ∨
        ∀ u ∈ past, u.code = v.code → ∀ earlier, u.holds earlier →
          evidenceFingerprint earlier ≠ evidenceFingerprint r) →
      served digest (cacheOf v (fileAfter digest contentHash build files past)) (v.slice.getD 0) r =
        none) ∧
    (Consistent past v →
      (evaluateJournal digest contentHash build files v
          (fileAfter digest contentHash build files past)).1.map Prod.fst =
        (evaluateJournal digest contentHash build files v.uncached .absent).1.map Prod.fst) := by
  refine ⟨?_, fun r fresh => unserved fresh, cached_eq_uncached⟩
  intro verdicts stats evaluated
  have mapped : some verdicts = ((scoreAll digest contentHash build files v
      (cacheOf v (fileAfter digest contentHash build files past)) v.records ⟨[], [], 0, 0⟩).map
        Tally.outcomes).bind fun outcomes => verdictsOf outcomes v.sidecars := by
    rw [← evaluateJournal_verdicts, evaluated]
    rfl
  obtain ⟨outcomes, tallied, judged⟩ := Option.bind_eq_some_iff.mp mapped.symm
  obtain ⟨t, scored, same⟩ := Option.map_eq_some_iff.mp tallied
  have earned : EarnedFile contentHash build files past
      (fileAfter digest contentHash build files past) := fileAfter_earned past
  have remembered := fun c (active : cacheOf v _ = some c) => cacheOf_earned earned active
  obtain ⟨⟨found, grown, each⟩, _⟩ := scoreAll_some remembered (fun _ mem => mem) scored (by simp)
  refine ⟨found, ?_, each⟩
  obtain ⟨_, _, built⟩ := Option.map_eq_some_iff.mp judged
  rw [← built, ← same, grown]
  rfl

/- A record rewritten under its own evidence. -/

def noon : Stamp := ⟨490908 * hour, some 0⟩

def zeros : String := String.ofList (List.replicate 64 '0')

def snapshot (grid : String) (last span : Int) : SnapshotEntry where
  pair := .text "BTC"
  grid := .text grid
  nBars := .int 2
  firstTs := ⟨last - span, some 0⟩
  lastTs := ⟨last, some 0⟩
  contentHash := .text zeros
  path := .text grid

def journaled : CycleRecord where
  schemaVersion := .int 1
  cycleTs := noon
  snapshots := [snapshot "1440" (490872 * hour) (24 * hour), snapshot "240" (490904 * hour) (4 * hour)]
  finalTargets := ⟨[("BTC", .num (1 / 2))], by decide⟩
  startedAt := noon
  completedAt := noon
  codeVersion := .text "1"
  builderPath := .text "fast"
  closes := none
  nav := none
  held := none

/-- The same, with a close of nothing. -/
def rewritten : CycleRecord := { journaled with closes := some ⟨[("BTC", .int 0)], by decide⟩ }

def onDisk (path : String) : Option Series :=
  if path = "1440" then some ⟨true, [490848 * hour, 490872 * hour], [none, none]⟩
  else some ⟨true, [490900 * hour, 490904 * hour], [none, none]⟩

theorem half_once : ([("BTC", 1 / 2)] : List (String × ℚ)).map Prod.fst |>.Nodup := by decide

def half : Builder := fun _ _ => some ⟨[("BTC", 1 / 2)], half_once⟩

def visit (r : CycleRecord) : Visit where
  records := [(noon, some r)]
  sidecars := []
  code := "1"
  fingerprinted := true
  slice := some 1
  reads := true
  writes := true
  now := 490909 * hour

/-- A record left as it was is served, and its verdict is the replay's. -/
theorem gate_cache_replays_unchanged :
    (evaluateJournal (fun _ => 0) (fun _ => zeros) (fun _ => half) onDisk (visit journaled)
      (fileAfter (fun _ => 0) (fun _ => zeros) (fun _ => half) onDisk [visit journaled])).1.map
        (·.2.fromCache) = some 1 ∧
    (evaluateJournal (fun _ => 0) (fun _ => zeros) (fun _ => half) onDisk (visit journaled)
      (fileAfter (fun _ => 0) (fun _ => zeros) (fun _ => half) onDisk [visit journaled])).1.map
        Prod.fst =
      (evaluateJournal (fun _ => 0) (fun _ => zeros) (fun _ => half) onDisk
        (visit journaled).uncached .absent).1.map Prod.fst := by
  refine ⟨by decide +kernel, (gate_cache_replays _ _ _ _ _ _).2.2 ?_⟩
  intro u visited _ earlier before r now fp _ _
  rw [List.mem_singleton.mp visited] at before
  obtain ⟨_, there⟩ := before
  obtain ⟨_, here⟩ := now
  simp only [visit, List.mem_singleton, Prod.mk.injEq, Option.some.injEq] at there here
  rw [there.2, here.2]
  exact ⟨rfl, fun _ => rfl⟩

/-- The record whose close became nothing keeps its pass, which a replay refuses. -/
theorem rewritten_keeps_its_pass :
    (evaluateJournal (fun _ => 0) (fun _ => zeros) (fun _ => half) onDisk (visit rewritten)
      (fileAfter (fun _ => 0) (fun _ => zeros) (fun _ => half) onDisk [visit journaled])).1.map
        (·.1.counts) = some ⟨1, 0, 0, 0⟩ ∧
    (evaluateJournal (fun _ => 0) (fun _ => zeros) (fun _ => half) onDisk
      (visit rewritten).uncached .absent).1.map (·.1.counts) = some ⟨0, 0, 1, 0⟩ := by
  decide +kernel

end GateCaches
