import Zcrypto.JsonLaws
import Zcrypto.Registry.Store

/- An append that is cut short: what the next load makes of the beginning of a line, and whether the
   store can be appended to after it. -/
namespace Registry
open JsonText TextFile Fallible

section
variable {F : Type} {floats : Floats F}

/- Fields of a record that fields were put into. -/

theorem fieldOf_put (key other : String) (v : Value F) (members : List (String × Value F)) :
    fieldOf (put key v members) other = if other = key then some v else fieldOf members other := by
  unfold fieldOf
  induction members with
  | nil =>
    by_cases same : other = key
    · simp [put, same]
    · simp [put, same, Ne.symm same]
  | cons m members ih =>
    obtain ⟨k, w⟩ := m
    unfold put
    by_cases same : key = k
    · subst same
      rw [if_pos rfl]
      by_cases here : other = key
      · simp [here]
      · simp [here, Ne.symm here]
    · rw [if_neg same]
      split
      · by_cases here : other = key
        · simp [here]
        · simp [here, Ne.symm here]
      · by_cases there : k = other
        · have differ : other ≠ key := by
            rw [← there]
            exact Ne.symm same
          simp [there, differ]
        · simpa [there] using ih

/-- Members in the order of their keys, each canonical. -/
def Sorted (members : List (String × Value F)) : Prop := (Value.obj members).Canonical

theorem membersCanonical_put {key : String} {v : Value F} {members : List (String × Value F)}
    (value : v.Canonical) (all : MembersCanonical members) : MembersCanonical (put key v members) := by
  induction members with
  | nil => exact ⟨value, trivial⟩
  | cons m members ih =>
    obtain ⟨k, w⟩ := m
    obtain ⟨head, tail⟩ := all
    unfold put
    split
    · exact ⟨value, tail⟩
    · split
      · exact ⟨value, head, tail⟩
      · exact ⟨head, ih tail⟩

theorem mem_put {key : String} {v : Value F} {members : List (String × Value F)}
    {m : String × Value F} (mem : m ∈ put key v members) : m.1 = key ∨ m ∈ members := by
  induction members with
  | nil =>
    rw [put, List.mem_singleton] at mem
    exact Or.inl (by rw [mem])
  | cons head members ih =>
    obtain ⟨k, w⟩ := head
    unfold put at mem
    split at mem
    · rcases List.mem_cons.mp mem with same | mem
      · exact Or.inl (by rw [same])
      · exact Or.inr (List.mem_cons_of_mem _ mem)
    · split at mem
      · rcases List.mem_cons.mp mem with same | mem
        · exact Or.inl (by rw [same])
        · exact Or.inr mem
      · rcases List.mem_cons.mp mem with same | mem
        · exact Or.inr (by rw [same]; exact List.mem_cons_self)
        · rcases ih mem with here | there
          · exact Or.inl here
          · exact Or.inr (List.mem_cons_of_mem _ there)

theorem put_ascending {key : String} {v : Value F} {members : List (String × Value F)}
    (ascending : members.Pairwise fun a b => Precedes a.1 b.1) :
    (put key v members).Pairwise fun a b => Precedes a.1 b.1 := by
  induction members with
  | nil => simp [put]
  | cons m members ih =>
    obtain ⟨k, w⟩ := m
    obtain ⟨head, tail⟩ := List.pairwise_cons.mp ascending
    unfold put
    split
    · rename_i same
      exact List.pairwise_cons.mpr ⟨fun m mem => same ▸ head m mem, tail⟩
    · rename_i differ
      split
      · rename_i less
        refine List.pairwise_cons.mpr ⟨?_, ascending⟩
        intro m mem
        rcases List.mem_cons.mp mem with same | mem
        · rw [same]
          exact less
        · exact precedes_trans less (head m mem)
      · rename_i behind
        refine List.pairwise_cons.mpr ⟨?_, ih tail⟩
        intro m mem
        rcases mem_put mem with same | mem
        · rw [same]
          exact precedes_of_not behind differ
        · exact head m mem

theorem sorted_put {key : String} {v : Value F} {members : List (String × Value F)}
    (value : v.Canonical) (sorted : Sorted members) : Sorted (put key v members) :=
  ⟨put_ascending sorted.1, membersCanonical_put value sorted.2⟩

theorem sorted_object {fields : List (String × Value F)} (all : ∀ f ∈ fields, f.2.Canonical) :
    Sorted (object fields) := by
  have adding : ∀ (fields : List (String × Value F)) (members : List (String × Value F)),
      (∀ f ∈ fields, f.2.Canonical) → Sorted members →
      Sorted (fields.foldl (fun members f => put f.1 f.2 members) members) := by
    intro fields
    induction fields with
    | nil => exact fun members _ sorted => sorted
    | cons f fields ih =>
      intro members all sorted
      exact ih _ (fun g mem => all g (List.mem_cons_of_mem _ mem))
        (sorted_put (all f List.mem_cons_self) sorted)
  exact adding fields [] all ⟨List.Pairwise.nil, trivial⟩

/- Records that follow one another. -/

variable {ledger : Ledger F} {hash : List Char → String}

/-- What a walk holds of the records it has come through. -/
structure Reached (idKey : String) (w : Walk) (records : List (Value F)) : Prop where
  idx : w.idx = records.length
  first : records = [] → w.prev = genesisHash
  last : ∀ r ∈ records.getLast?, intAt r idKey = .ok (w.idx : Int) ∧
    textAt r "record_hash" = .ok w.prev

theorem assertCross_concat (records : List (Value F)) (r : Value F) :
    ledger.assertCrossRecord (records ++ [r]) =
      ledger.assertCrossRecord records >>= fun w => ledger.step w r := by
  unfold Ledger.assertCrossRecord
  rw [List.foldlM_append]
  simp

theorem reached_next {idKey : String} {w : Walk} {records : List (Value F)} {r : Value F}
    {next : Walk} (idx : w.idx = records.length) (moved : next.idx = w.idx + 1)
    (id : intAt r idKey = .ok (w.idx + 1 : Int)) (hash : textAt r "record_hash" = .ok next.prev) :
    Reached idKey next (records ++ [r]) := by
  refine ⟨by rw [moved, idx, List.length_append, List.length_singleton], by simp, ?_⟩
  intro last mem
  rw [List.getLast?_concat, Option.mem_def, Option.some.injEq] at mem
  subst mem
  refine ⟨?_, hash⟩
  rw [id, moved]
  push_cast
  rfl

theorem refuseAnIdOutOfPlace_ok {w : Walk} {r : Value F} {idKey : String} {id : Int} :
    refuseAnIdOutOfPlace w r idKey = .ok id ↔ intAt r idKey = .ok id ∧ id = w.idx + 1 := by
  unfold refuseAnIdOutOfPlace
  rw [bind_ok]
  constructor
  · rintro ⟨z, read, checked⟩
    split at checked
    · cases checked
    · rename_i place
      injection checked with same
      subst same
      exact ⟨read, not_not.mp place⟩
  · rintro ⟨read, place⟩
    exact ⟨id, read, by rw [if_neg (not_not.mpr place)]⟩

theorem refuseABrokenLink_ok {w : Walk} {r : Value F} :
    refuseABrokenLink w r = .ok () ↔ textAt r "prev_hash" = .ok w.prev := by
  unfold refuseABrokenLink
  rw [bind_ok]
  constructor
  · rintro ⟨prev, read, checked⟩
    split at checked
    · cases checked
    · rename_i same
      rw [read, not_not.mp same]
  · intro read
    exact ⟨w.prev, read, by rw [if_neg (not_not.mpr rfl)]⟩

/-- A record of the newest schema is of none of the older ones. -/
theorem refuseAnOldSchema_new {r : Value F} {version : Int}
    (schema : field r "schema_version" = some (.int version)) (id past : Int) {floor : Int}
    (new : floor ≤ version) : refuseAnOldSchema floats r id past floor = .ok () := by
  have below : schemaBelow floats r floor = .ok false := by
    unfold schemaBelow
    rw [schema]
    simp only [Except.ok.injEq, decide_eq_false_iff_not]
    omega
  unfold refuseAnOldSchema
  split
  · rw [below]
    rfl
  · rfl

theorem trialStep_ok {w next : Walk} {r : Value F} (stepped : trialStep floats w r = .ok next) :
    intAt r "trial_id" = .ok (w.idx + 1 : Int) ∧ textAt r "record_hash" = .ok next.prev ∧
      next.idx = w.idx + 1 ∧ ∃ family, textAt r "family" = .ok family ∧
        next.seen = fun f => if f = family then w.seen family + 1 else w.seen f := by
  unfold trialStep at stepped
  obtain ⟨id, placed, stepped⟩ := bind_ok.mp stepped
  obtain ⟨read, same⟩ := refuseAnIdOutOfPlace_ok.mp placed
  obtain ⟨_, stepped⟩ := then_ok.mp stepped
  obtain ⟨_, stepped⟩ := then_ok.mp stepped
  obtain ⟨_, stepped⟩ := then_ok.mp stepped
  obtain ⟨_, stepped⟩ := then_ok.mp stepped
  obtain ⟨family, of_family, stepped⟩ := bind_ok.mp stepped
  obtain ⟨nTrials, _, stepped⟩ := bind_ok.mp stepped
  simp only at stepped
  split at stepped
  · cases stepped
  · obtain ⟨hash, hashed, stepped⟩ := bind_ok.mp stepped
    injection stepped with stepped
    subst stepped
    exact ⟨same ▸ read, hashed, rfl, family, of_family, rfl⟩

theorem readingStep_ok {w next : Walk} {r : Value F} (stepped : readingStep floats w r = .ok next) :
    intAt r "reading_id" = .ok (w.idx + 1 : Int) ∧ textAt r "record_hash" = .ok next.prev ∧
      next.idx = w.idx + 1 := by
  unfold readingStep at stepped
  obtain ⟨id, placed, stepped⟩ := bind_ok.mp stepped
  obtain ⟨read, same⟩ := refuseAnIdOutOfPlace_ok.mp placed
  obtain ⟨_, stepped⟩ := then_ok.mp stepped
  obtain ⟨_, stepped⟩ := then_ok.mp stepped
  obtain ⟨hash, hashed, stepped⟩ := bind_ok.mp stepped
  injection stepped with stepped
  subst stepped
  exact ⟨same ▸ read, hashed, rfl⟩

/-- The trials' walk counts each family. -/
theorem trials_walk {validators : Validators F} {records : List (Value F)} {w : Walk}
    (walked : (trialRegistry floats validators).assertCrossRecord records = .ok w) :
    Reached "trial_id" w records ∧ ∀ family, w.seen family = records.countP (ofFamily family) := by
  induction records using List.reverseRecOn generalizing w with
  | nil =>
    cases walked
    exact ⟨⟨rfl, fun _ => rfl, by simp⟩, fun _ => rfl⟩
  | append_singleton records r ih =>
    rw [assertCross_concat] at walked
    obtain ⟨before, earlier, stepped⟩ := bind_ok.mp walked
    obtain ⟨reached, counted⟩ := ih earlier
    obtain ⟨id, hashed, moved, family, of_family, seen⟩ := trialStep_ok stepped
    refine ⟨reached_next reached.idx moved id hashed, ?_⟩
    intro other
    rw [seen, List.countP_append, List.countP_singleton]
    simp only [ofFamily, of_family, decide_eq_true_eq]
    by_cases same : other = family
    · rw [same, if_pos rfl, if_pos rfl, counted family]
    · rw [if_neg same, if_neg (Ne.symm same), counted other]
      rfl

theorem readings_walk {validators : Validators F} {records : List (Value F)} {w : Walk}
    (walked : (readingLedger floats validators).assertCrossRecord records = .ok w) :
    Reached "reading_id" w records := by
  induction records using List.reverseRecOn generalizing w with
  | nil =>
    cases walked
    exact ⟨rfl, fun _ => rfl, by simp⟩
  | append_singleton records r ih =>
    rw [assertCross_concat] at walked
    obtain ⟨before, earlier, stepped⟩ := bind_ok.mp walked
    obtain ⟨id, hashed, moved⟩ := readingStep_ok stepped
    exact reached_next (ih earlier).idx moved id hashed

/-- The fields that a store writes itself, besides its own id. -/
def storeKeys : List String := ["prev_hash", "dataset_hash", "record_hash"]

/-- What a completed record has. -/
structure Completed (ledger : Ledger F) (w : Walk) (disk : List (Value F)) (e : ledger.Entry)
    (record : Value F) (composed members : List (String × Value F)) : Prop where
  composes : ledger.compose disk e = .ok composed
  is_object : record = .obj members
  id : intAt record ledger.idKey = .ok (w.idx + 1 : Int)
  prev : textAt record "prev_hash" = .ok w.prev
  hashed : ∃ digest, textAt record "record_hash" = .ok digest
  own : ∀ key, key ≠ ledger.idKey → key ∉ storeKeys → field record key = fieldOf composed key
  sorted : Sorted composed → Sorted members

theorem nextLink_ok {idKey : String} {w : Walk} {disk : List (Value F)} {id : Int} {prev : String}
    (reached : Reached idKey w disk) (follows : Ledger.nextLink idKey disk = .ok (id, prev)) :
    id = w.idx + 1 ∧ prev = w.prev := by
  unfold Ledger.nextLink at follows
  cases last : disk.getLast? with
  | none =>
    rw [last] at follows
    cases follows
    have empty := List.getLast?_eq_none_iff.mp last
    refine ⟨?_, (reached.first empty).symm⟩
    rw [reached.idx, empty]
    rfl
  | some r =>
    rw [last] at follows
    obtain ⟨lastId, read_id, follows⟩ := bind_ok.mp follows
    obtain ⟨lastHash, read_hash, follows⟩ := bind_ok.mp follows
    obtain ⟨of_id, of_hash⟩ := reached.last r (by simp [last])
    rw [of_id] at read_id
    rw [of_hash] at read_hash
    injection read_id with same_id
    injection read_hash with same_hash
    injection follows with pair
    injection pair with first second
    rw [← first, ← second, same_id, same_hash]
    exact ⟨rfl, rfl⟩

theorem complete_ok {w : Walk} {disk : List (Value F)} {e : ledger.Entry} {record : Value F}
    (apart : ledger.idKey ∉ storeKeys) (reached : Reached ledger.idKey w disk)
    (completed : ledger.complete floats hash disk e = .ok record) :
    ∃ composed members, Completed ledger w disk e record composed members := by
  unfold Ledger.complete at completed
  obtain ⟨composed, composes, completed⟩ := bind_ok.mp completed
  obtain ⟨⟨id, prev⟩, follows, completed⟩ := bind_ok.mp completed
  obtain ⟨datasets, given, completed⟩ := bind_ok.mp completed
  injection completed with same
  obtain ⟨rfl, rfl⟩ := nextLink_ok reached follows
  have id_prev : ledger.idKey ≠ "prev_hash" := fun same => apart (by simp [storeKeys, same])
  have id_dataset : ledger.idKey ≠ "dataset_hash" := fun same => apart (by simp [storeKeys, same])
  have id_record : ledger.idKey ≠ "record_hash" := fun same => apart (by simp [storeKeys, same])
  subst same
  refine ⟨composed, _, composes, rfl, ?_, ?_, ?_, ?_, ?_⟩
  · simp [intAt, field, fieldOf_put, id_prev, id_dataset, id_record]
  · simp [textAt, field, fieldOf_put]
  · simp [textAt, field, fieldOf_put]
  · intro key other own
    simp only [storeKeys, List.mem_cons, List.not_mem_nil, or_false, not_or] at own
    obtain ⟨not_prev, not_dataset, not_record⟩ := own
    simp [field, fieldOf_put, other, not_prev, not_dataset, not_record]
  · intro sorted
    exact sorted_put trivial (sorted_put trivial (sorted_put trivial (sorted_put trivial sorted)))

/-- A store whose completed record follows those of its file. -/
structure Lawful (floats : Floats F) (ledger : Ledger F) : Prop where
  apart : ledger.idKey ∉ storeKeys
  reached : ∀ {records w}, ledger.assertCrossRecord records = .ok w → Reached ledger.idKey w records
  sorted : ∀ {disk e fields}, ledger.compose disk e = .ok fields → Sorted fields
  continues : ∀ {records w e record composed members},
    ledger.assertCrossRecord records = .ok w →
    Completed ledger w records e record composed members → ∃ next, ledger.step w record = .ok next

theorem object_concat (fields : List (String × Value F)) (f : String × Value F) :
    object (fields ++ [f]) = put f.1 f.2 (object fields) := by
  unfold object
  rw [List.foldl_append]
  rfl

theorem refuseAnIdOutOfPlace_next {w : Walk} {r : Value F} {idKey : String}
    (id : intAt r idKey = .ok (w.idx + 1 : Int)) :
    refuseAnIdOutOfPlace w r idKey = .ok (w.idx + 1 : Int) :=
  refuseAnIdOutOfPlace_ok.mpr ⟨id, rfl⟩

theorem canonical_ints (zs : List Int) : AllCanonical (zs.map Value.int : List (Value F)) := by
  induction zs with
  | nil => trivial
  | cons z zs ih => exact ⟨trivial, ih⟩

theorem trial_caller (t : Trial F) : ∀ f ∈ t.caller, f.2.Canonical := by
  intro f mem
  unfold Trial.caller at mem
  simp only [List.mem_append, List.mem_cons, List.not_mem_nil, or_false] at mem
  rcases mem with (rfl | rfl | rfl | rfl | rfl | rfl | rfl | rfl | rfl) | mem
  case inl.inr.inr.inr.inl => exact canonical_ints t.seeds
  case inl.inr.inr.inr.inr.inl => exact t.metrics.2
  case inr =>
    split at mem
    · rw [List.mem_singleton] at mem
      rw [mem]
      trivial
    · cases mem
  all_goals trivial

theorem trial_fields (t : Trial F) {disk : List (Value F)} {fields : List (String × Value F)}
    (composed : t.compose disk = .ok fields) :
    ¬ t.nTrialsInFamily < disk.countP (ofFamily t.family) + 1 ∧ Sorted fields ∧
      fieldOf fields "schema_version" = some (.int schemaVersion) ∧
      fieldOf fields "family" = some (.str t.family) ∧
      fieldOf fields "n_trials_in_family" = some (.int t.nTrialsInFamily) := by
  unfold Trial.compose at composed
  simp only at composed
  split at composed
  · cases composed
  · rename_i enough
    injection composed with same
    subst same
    refine ⟨enough, ?_, ?_⟩
    · apply sorted_object
      intro f mem
      simp only [List.mem_append, List.mem_cons, List.not_mem_nil, or_false] at mem
      rcases mem with mem | rfl | rfl | rfl | rfl | rfl
      · exact trial_caller t f mem
      · trivial
      · trivial
      · exact t.datasets.2
      · exact t.invocation.2
      · exact t.attempt.2
    · unfold Trial.caller object
      cases t.variant <;> simp [fieldOf_put]

theorem reading_fields (r : Reading F) (disk : List (Value F)) {fields : List (String × Value F)}
    (composed : r.compose disk = .ok fields) :
    Sorted fields ∧ fieldOf fields "schema_version" = some (.int readingSchemaVersion) := by
  unfold Reading.compose at composed
  injection composed with same
  subst same
  constructor
  · apply sorted_object
    intro f mem
    simp only [Reading.caller, List.mem_append, List.mem_cons, List.not_mem_nil, or_false] at mem
    rcases mem with (rfl | rfl | rfl | rfl | rfl | rfl | rfl | rfl) | rfl | rfl
    case inl.inr.inr.inl => exact r.invocation.2
    case inl.inr.inr.inr.inl => exact r.datasets.2
    case inl.inr.inr.inr.inr.inl => exact r.metrics.2
    case inl.inr.inr.inr.inr.inr.inl => cases r.outcome <;> trivial
    case inl.inr.inr.inr.inr.inr.inr.inr => exact r.attempt.2
    all_goals trivial
  · simp [Reading.caller, object, fieldOf_put]

theorem textAt_of {record : Value F} {key s : String} (is : field record key = some (.str s)) :
    textAt record key = .ok s := by
  unfold textAt
  rw [is]

theorem intAt_of {record : Value F} {key : String} {z : Int} (is : field record key = some (.int z)) :
    intAt record key = .ok z := by
  unfold intAt
  rw [is]

theorem lawful_trials (validators : Validators F) :
    Lawful floats (trialRegistry floats validators) := by
  constructor
  case apart => exact (by decide : "trial_id" ∉ storeKeys)
  case reached => exact fun walked => (trials_walk walked).1
  case sorted => exact fun {_ t _} composed => (trial_fields t composed).2.1
  case continues =>
    intro records w t record composed members walked completed
    obtain ⟨enough, _, schema, family, nTrials⟩ := trial_fields t completed.composes
    obtain ⟨_, counted⟩ := trials_walk walked
    obtain ⟨digest, hashed⟩ := completed.hashed
    have own : ∀ key, key ≠ "trial_id" → key ∉ storeKeys →
        field record key = fieldOf composed key := completed.own
    have schema_of := (own "schema_version" (by decide) (by decide)).trans schema
    have family_of := textAt_of ((own "family" (by decide) (by decide)).trans family)
    have nTrials_of := intAt_of ((own "n_trials_in_family" (by decide) (by decide)).trans nTrials)
    have above : ¬ t.nTrialsInFamily < w.seen t.family + 1 := by
      rw [counted]
      exact enough
    refine ⟨⟨w.idx + 1, digest, fun f => if f = t.family then w.seen t.family + 1 else w.seen f⟩, ?_⟩
    refine bind_ok.mpr ⟨_, refuseAnIdOutOfPlace_next completed.id, ?_⟩
    refine then_ok.mpr ⟨refuseAnOldSchema_new schema_of _ _ (by decide), ?_⟩
    refine then_ok.mpr ⟨refuseAnOldSchema_new schema_of _ _ (by decide), ?_⟩
    refine then_ok.mpr ⟨refuseAnOldSchema_new schema_of _ _ (by decide), ?_⟩
    refine then_ok.mpr ⟨refuseABrokenLink_ok.mpr completed.prev, ?_⟩
    refine bind_ok.mpr ⟨_, family_of, bind_ok.mpr ⟨_, nTrials_of, ?_⟩⟩
    simp only
    rw [if_neg above]
    exact bind_ok.mpr ⟨digest, hashed, rfl⟩

theorem lawful_readings (validators : Validators F) :
    Lawful floats (readingLedger floats validators) := by
  constructor
  case apart => exact (by decide : "reading_id" ∉ storeKeys)
  case reached => exact readings_walk
  case sorted => exact fun {disk r _} composed => (reading_fields r disk composed).1
  case continues =>
    intro records w r record composed members walked completed
    obtain ⟨_, schema⟩ := reading_fields r records completed.composes
    obtain ⟨digest, hashed⟩ := completed.hashed
    have own : ∀ key, key ≠ "reading_id" → key ∉ storeKeys →
        field record key = fieldOf composed key := completed.own
    have schema_of := (own "schema_version" (by decide) (by decide)).trans schema
    refine ⟨⟨w.idx + 1, digest, w.seen⟩, ?_⟩
    refine bind_ok.mpr ⟨_, refuseAnIdOutOfPlace_next completed.id, ?_⟩
    refine then_ok.mpr ⟨refuseABrokenLink_ok.mpr completed.prev, ?_⟩
    refine then_ok.mpr ⟨refuseAnOldSchema_new schema_of _ _ (by decide), ?_⟩
    exact bind_ok.mpr ⟨digest, hashed, rfl⟩

/- What a read makes of lines. -/

/-- A line that is a record the store takes. -/
def IsRecord (floats : Floats F) (ledger : Ledger F) (line : List Char) (record : Value F) : Prop :=
  loads floats line = .ok record ∧ ledger.validate record = true

theorem readLines_records {ended : Bool} {texts : List (List Char)} {records : List (Value F)}
    (all : List.Forall₂ (IsRecord floats ledger) texts records) (i : Nat) :
    ledger.readLines floats ended i texts = .ok (records, false) := by
  induction all generalizing i with
  | nil => rfl
  | cons here others ih =>
    obtain ⟨read, valid⟩ := here
    unfold Ledger.readLines
    rw [read]
    simp only [valid, if_true]
    exact bind_ok.mpr ⟨_, ih (i + 1), rfl⟩

theorem readLines_torn {texts : List (List Char)} {records : List (Value F)} {last : List Char}
    (all : List.Forall₂ (IsRecord floats ledger) texts records)
    (torn : loads floats last = .error .malformed) (i : Nat) :
    ledger.readLines floats false i (texts ++ [last]) = .ok (records, true) := by
  induction all generalizing i with
  | nil =>
    unfold Ledger.readLines
    rw [List.nil_append]
    simp [torn]
  | cons here others ih =>
    obtain ⟨read, valid⟩ := here
    unfold Ledger.readLines
    rw [List.cons_append]
    simp only [read, valid, if_true]
    exact bind_ok.mpr ⟨_, ih (i + 1), rfl⟩

/-- A read takes every line for a record, but for a last one that is torn. -/
theorem readLines_ok {ended torn : Bool} {texts : List (List Char)} {records : List (Value F)} {i : Nat}
    (read : ledger.readLines floats ended i texts = .ok (records, torn)) :
    (torn = false ∧ List.Forall₂ (IsRecord floats ledger) texts records) ∨
      (torn = true ∧ ended = false ∧ ∃ before last, texts = before ++ [last] ∧
        List.Forall₂ (IsRecord floats ledger) before records ∧
        loads floats last = .error .malformed) := by
  induction texts generalizing i records with
  | nil =>
    injection read with same
    injection same with no_records not_torn
    subst no_records not_torn
    exact Or.inl ⟨rfl, .nil⟩
  | cons line rest ih =>
    unfold Ledger.readLines at read
    split at read
    · rename_i record is_record
      split at read
      · rename_i valid
        obtain ⟨⟨later, torn_later⟩, rest_read, same⟩ := bind_ok.mp read
        injection same with same
        injection same with records_same torn_same
        subst records_same torn_same
        rcases ih rest_read with ⟨whole, all⟩ | ⟨torn, unended, before, last, parted, all, malformed⟩
        · exact Or.inl ⟨whole, .cons ⟨is_record, valid⟩ all⟩
        · exact Or.inr ⟨torn, unended, line :: before, last, by rw [parted]; rfl,
            .cons ⟨is_record, valid⟩ all, malformed⟩
      · cases read
    · rename_i malformed
      split at read
      · rename_i last
        injection read with same
        injection same with no_records is_torn
        subst no_records is_torn
        have alone : rest = [] := List.isEmpty_iff.mp last.1
        exact Or.inr ⟨rfl, last.2, [], line, by rw [alone]; rfl, .nil, malformed⟩
      · cases read
    · cases read
    · cases read

/- A file that loads. -/

/-- A file of some text, read to its records. -/
theorem readHealing_text (text : List Char) :
    ledger.readHealing floats (some (encode text)) =
      match ledger.readLines floats (endsNl text) 0 (lines text) with
      | .error refusal => (.error refusal, some (encode text))
      | .ok (records, torn) =>
        ((ledger.assertCrossRecord records).map fun _ => records,
          some (if torn then truncated (encode text) else encode text)) := by
  unfold Ledger.readHealing
  simp only [decode_encode]
  split
  · rename_i empty
    have none_read : text = [] := encode_injective empty
    subst none_read
    rfl
  · rfl

/-- The records of a text, each on a line of its own. -/
structure Holds (floats : Floats F) (ledger : Ledger F) (text : List Char)
    (records : List (Value F)) : Prop where
  all : List.Forall₂ (IsRecord floats ledger) (lines text) records
  walked : ∃ w, ledger.assertCrossRecord records = .ok w

theorem holds_reads {text : List Char} {records : List (Value F)}
    (holds : Holds floats ledger text records) :
    ledger.readHealing floats (some (encode text)) = (.ok records, some (encode text)) := by
  obtain ⟨w, walked⟩ := holds.walked
  rw [readHealing_text, readLines_records holds.all]
  simp only [walked]
  rfl

/-- A torn last line is taken off. -/
theorem torn_reads {whole tail : List Char} {records : List (Value F)}
    (holds : Holds floats ledger whole records) (ended : Ended whole) (line : '\n' ∉ tail)
    (filled : tail ≠ []) (torn : loads floats tail = .error .malformed) :
    ledger.readHealing floats (some (encode (whole ++ tail))) =
      (.ok records, some (encode whole)) := by
  obtain ⟨w, walked⟩ := holds.walked
  rw [readHealing_text, lines_tail line filled ended, endsNl_tail line filled,
    readLines_torn holds.all torn]
  simp only [walked, if_true, truncated_encode line ended]
  rfl

theorem healed_text {file : Option (List UInt8)} {records : List (Value F)}
    (read : (ledger.readHealing floats file).1 = .ok records) :
    ∃ text, (ledger.readHealing floats file).2.getD [] = encode text ∧
      Holds floats ledger text records := by
  have empty : Holds floats ledger [] [] := ⟨.nil, _, rfl⟩
  cases file with
  | none =>
    injection read with same
    subst same
    exact ⟨[], rfl, empty⟩
  | some raw =>
    cases decoded : decode raw with
    | none =>
      unfold Ledger.readHealing at read
      simp only [decoded] at read
      split at read
      · rename_i nothing
        rw [nothing] at decoded
        cases (decode_encode []).symm.trans decoded
      · cases read
    | some text =>
      rw [← encode_decode decoded, readHealing_text] at read ⊢
      cases lines_read : ledger.readLines floats (endsNl text) 0 (lines text) with
      | error refusal =>
        rw [lines_read] at read
        cases read
      | ok outcome =>
        obtain ⟨found, torn⟩ := outcome
        rw [lines_read] at read
        simp only at read ⊢
        cases walked : ledger.assertCrossRecord found with
        | error refusal =>
          rw [walked] at read
          cases read
        | ok w =>
        rw [walked] at read
        injection read with same
        subst same
        rcases readLines_ok lines_read with ⟨whole, all⟩ | ⟨is_torn, unended, before, last, parted, all, _⟩
        · rw [whole]
          exact ⟨text, rfl, all, w, walked⟩
        · obtain ⟨kept, tail, text_of, ended, line⟩ := ended_tail text
          have filled : tail ≠ [] := by
            rintro rfl
            rw [List.append_nil] at text_of
            subst text_of
            have some_text : text ≠ [] := by
              rintro rfl
              exact List.cons_ne_nil _ _ (List.append_eq_nil_iff.mp parted.symm).2
            rw [endsNl_ended ended some_text] at unended
            cases unended
          rw [text_of, lines_tail line filled ended] at parted
          have kept_lines : lines kept = before := (List.append_inj_left' parted rfl)
          rw [is_torn, if_pos rfl, text_of, truncated_encode line ended]
          exact ⟨kept, rfl, kept_lines ▸ all, w, walked⟩

theorem ended_line (text line : List Char) : Ended (text ++ (line ++ ['\n'])) := by
  rw [← List.append_assoc]
  exact ended_then_newline _

/-- The record an append makes follows those of its file. -/
theorem completed_holds (lawful : Lawful floats ledger) {text : List Char} {old : List (Value F)}
    {e : ledger.Entry} {record : Value F} (holds : Holds floats ledger text old)
    (completed : ledger.complete floats hash old e = .ok record)
    (valid : ledger.validate record = true) :
    record.Canonical ∧ (∃ members, record = .obj members) ∧
      (∃ w, ledger.assertCrossRecord (old ++ [record]) = .ok w) ∧
      IsRecord floats ledger (dumps floats record) record := by
  obtain ⟨w, walked⟩ := holds.walked
  obtain ⟨composed, members, complete⟩ := complete_ok lawful.apart (lawful.reached walked) completed
  obtain ⟨next, stepped⟩ := lawful.continues walked complete
  have canonical : record.Canonical := by
    rw [complete.is_object]
    exact complete.sorted (lawful.sorted complete.composes)
  refine ⟨canonical, ⟨members, complete.is_object⟩, ⟨next, ?_⟩, loads_dumps canonical, valid⟩
  rw [assertCross_concat]
  exact bind_ok.mpr ⟨w, walked, stepped⟩

theorem holds_line {text : List Char} {old : List (Value F)} {record : Value F}
    (holds : Holds floats ledger text old) (ended : Ended text)
    (walked : ∃ w, ledger.assertCrossRecord (old ++ [record]) = .ok w)
    (is_record : IsRecord floats ledger (dumps floats record) record) :
    Holds floats ledger (text ++ (dumps floats record ++ ['\n'])) (old ++ [record]) := by
  refine ⟨?_, walked⟩
  rw [lines_line (dumps_line record) ended]
  exact List.rel_append holds.all (.cons is_record .nil)

/-- An entry that a store takes after some records. -/
def Takes (floats : Floats F) (ledger : Ledger F) (hash : List Char → String)
    (disk : List (Value F)) (e : ledger.Entry) : Prop :=
  ledger.takes e = true ∧ ∃ record, ledger.complete floats hash disk e = .ok record ∧
    ledger.validate record = true

theorem append_completed {file : Option (List UInt8)} {old : List (Value F)} {healed : List UInt8}
    {e : ledger.Entry} {record : Value F} (taken : ledger.takes e = true)
    (read : ledger.readHealing floats (some (file.getD [])) = (.ok old, some healed))
    (completed : ledger.complete floats hash old e = .ok record)
    (valid : ledger.validate record = true) :
    ledger.appendLocked floats hash file e =
      (.ok record, some (healed ++ encode (dumps floats record ++ ['\n']))) := by
  unfold Ledger.appendLocked
  simp only [taken, read, completed, valid, Option.getD_some]
  rfl

/-- An append to a file that ends in a newline is loaded with what it appended. -/
theorem append_loads (lawful : Lawful floats ledger) {text : List Char} {old : List (Value F)}
    {e : ledger.Entry} (holds : Holds floats ledger text old) (ended : Ended text)
    (takes : Takes floats ledger hash old e) :
    ∃ record after, ledger.appendLocked floats hash (some (encode text)) e = (.ok record, some after) ∧
      (ledger.readHealing floats (some after)).1 = .ok (old ++ [record]) := by
  obtain ⟨taken, record, completed, valid⟩ := takes
  obtain ⟨_, _, walked, is_record⟩ := completed_holds lawful holds completed valid
  refine ⟨record, encode text ++ encode (dumps floats record ++ ['\n']), ?_, ?_⟩
  · exact append_completed taken (holds_reads holds) completed valid
  · rw [← encode_append, holds_reads (holds_line holds ended walked is_record)]

theorem append_ok {file after : Option (List UInt8)} {e : ledger.Entry} {record : Value F}
    (appended : ledger.appendLocked floats hash file e = (.ok record, after)) :
    ∃ old, (ledger.readHealing floats (some (file.getD []))).1 = .ok old ∧
      ledger.complete floats hash old e = .ok record ∧ ledger.validate record = true ∧
      after = some ((ledger.readHealing floats (some (file.getD []))).2.getD [] ++
        encode (dumps floats record ++ ['\n'])) := by
  unfold Ledger.appendLocked at appended
  split at appended
  · cases appended
  · simp only at appended
    split at appended
    · cases appended
    · rename_i disk healed read
      split at appended
      · cases appended
      · rename_i made completed
        split at appended
        · rename_i valid
          injection appended with made_same after_same
          injection made_same with made_same
          subst made_same
          rw [read]
          exact ⟨disk, rfl, completed, valid, after_same.symm⟩
        · cases appended

/- What a line that no newline ends does to the next. -/

theorem tail_record {whole tail : List Char} {old : List (Value F)}
    (holds : Holds floats ledger (whole ++ tail) old) (ended : Ended whole) (line : '\n' ∉ tail)
    (filled : tail ≠ []) :
    ∃ earlier last, old = earlier ++ [last] ∧ Holds floats ledger whole earlier ∧
      IsRecord floats ledger tail last := by
  have all := holds.all
  rw [lines_tail line filled ended] at all
  obtain ⟨earlier, last, parted, before, is_record⟩ := partner_last all
  obtain ⟨w, walked⟩ := holds.walked
  rw [parted, assertCross_concat] at walked
  obtain ⟨mid, walked, _⟩ := bind_ok.mp walked
  exact ⟨earlier, last, parted, ⟨before, mid, walked⟩, is_record⟩

theorem glued_refused {whole tail : List Char} {old : List (Value F)}
    {members : List (String × Value F)}
    (holds : Holds floats ledger (whole ++ tail) old) (ended : Ended whole) (line : '\n' ∉ tail)
    (filled : tail ≠ []) (records : List (Value F)) :
    (ledger.readHealing floats
      (some (encode (whole ++ tail ++ (dumps floats (.obj members) ++ ['\n']))))).1 ≠ .ok records := by
  obtain ⟨earlier, last, _, _, is_record⟩ := tail_record holds ended line filled
  obtain ⟨body, shape⟩ := dumps_object floats members
  have glued : loads floats (tail ++ dumps floats (.obj members)) = .error .malformed := by
    rw [shape]
    exact loads_then_brace is_record.1
  have one_line : '\n' ∉ tail ++ dumps floats (.obj members) := by
    rw [List.mem_append, not_or]
    exact ⟨line, dumps_line _⟩
  have regrouped : whole ++ tail ++ (dumps floats (.obj members) ++ ['\n']) =
      whole ++ ((tail ++ dumps floats (.obj members)) ++ ['\n']) := by simp
  intro read
  rw [regrouped, readHealing_text, lines_line one_line ended] at read
  cases lines_read : ledger.readLines floats
      (endsNl (whole ++ ((tail ++ dumps floats (.obj members)) ++ ['\n']))) 0
      (lines whole ++ [tail ++ dumps floats (.obj members)]) with
  | error refusal =>
    rw [lines_read] at read
    cases read
  | ok outcome =>
    obtain ⟨found, torn⟩ := outcome
    rcases readLines_ok lines_read with ⟨_, all⟩ | ⟨_, unended, _⟩
    · obtain ⟨r, _, is_r⟩ := partner all (List.mem_append_right _ List.mem_cons_self)
      rw [is_r.1] at glued
      cases glued
    · rw [endsNl_ended (ended_line _ _) (by simp)] at unended
      cases unended

/- The beginning of a line. -/

/-- The next load gives the records there were, with or without the new one, and an append that the
    store then takes is loaded with them. -/
def Survives (floats : Floats F) (ledger : Ledger F) (hash : List Char → String)
    (old : List (Value F)) (record : Value F) (torn : List UInt8) (next : ledger.Entry) : Prop :=
  ∃ records, (ledger.readHealing floats (some torn)).1 = .ok records ∧
    (records = old ∨ records = old ++ [record]) ∧
    (Takes floats ledger hash records next →
      ∃ added after, ledger.appendLocked floats hash (ledger.readHealing floats (some torn)).2 next =
          (.ok added, some after) ∧
        (ledger.readHealing floats (some after)).1 = .ok (records ++ [added]))

theorem undecodable_lost {text : List Char} {cut : List UInt8} (undecoded : decode cut = none)
    (records : List (Value F)) :
    (ledger.readHealing floats (some (encode text ++ cut))).1 ≠ .ok records := by
  have whole : decode (encode text ++ cut) = none := by
    cases decoded : decode (encode text ++ cut) with
    | none => rfl
    | some all =>
      obtain ⟨added, _, same⟩ := decode_rest (decode_encode text) decoded
      rw [← same, decode_encode] at undecoded
      cases undecoded
  intro read
  unfold Ledger.readHealing at read
  simp only [whole] at read
  split at read
  · rename_i nothing
    rw [nothing] at whole
    cases (decode_encode []).symm.trans whole
  · cases read

/-- An append cannot be loaded where what it was added to ends without a newline. -/
theorem append_after_tail {whole tail : List Char} {old : List (Value F)}
    (lawful : Lawful floats ledger)
    (holds : Holds floats ledger (whole ++ tail) old) (ended : Ended whole) (line : '\n' ∉ tail)
    (filled : tail ≠ []) {next : ledger.Entry} {added : Value F} {after : List UInt8}
    (appended : ledger.appendLocked floats hash (some (encode (whole ++ tail))) next =
      (.ok added, some after)) (records : List (Value F)) :
    (ledger.readHealing floats (some after)).1 ≠ .ok records := by
  obtain ⟨disk, read, completed, valid, after_same⟩ := append_ok appended
  rw [Option.getD_some, holds_reads holds] at read after_same
  injection read with same
  subst same
  obtain ⟨_, ⟨members, is_object⟩, _⟩ := completed_holds lawful holds completed valid
  injection after_same with after_same
  rw [Option.getD_some, ← encode_append, is_object] at after_same
  rw [after_same]
  exact glued_refused holds ended line filled records

theorem beginning_of {line p : List Char} {k : Nat} (decoded : decode ((encode line).take k) = some p) :
    ∃ added, line = p ++ added ∧ encode added = (encode line).drop k := by
  have all : decode ((encode line).take k ++ (encode line).drop k) = some line := by
    rw [List.take_append_drop, decode_encode]
  exact decode_rest decoded all

/-- A file whose last line ends keeps its records, and takes more, where less than the whole line was
    left and it was cut between characters. -/
theorem ended_survives (lawful : Lawful floats ledger) {text : List Char} {old : List (Value F)}
    {e next : ledger.Entry} {record : Value F} (holds : Holds floats ledger text old)
    (ended : Ended text) (completed : ledger.complete floats hash old e = .ok record)
    (valid : ledger.validate record = true) (takes : Takes floats ledger hash old next) {k : Nat}
    (short : k < (encode (dumps floats record)).length) {p : List Char}
    (decoded : decode ((encode (dumps floats record)).take k) = some p) :
    Survives floats ledger hash old record (encode text ++ (encode (dumps floats record)).take k)
      next := by
  obtain ⟨canonical, ⟨members, is_object⟩, _, _⟩ := completed_holds lawful holds completed valid
  obtain ⟨added, after, appended, loaded⟩ := append_loads lawful holds ended takes
  obtain ⟨rest, parted, rest_bytes⟩ := beginning_of decoded
  have healed : ledger.readHealing floats
      (some (encode text ++ (encode (dumps floats record)).take k)) =
      (.ok old, some (encode text)) := by
    have cut : rest ≠ [] := by
      rintro rfl
      have none_left := congrArg List.length rest_bytes
      rw [encode_nil, List.length_nil, List.length_drop] at none_left
      omega
    rw [← encode_decode decoded]
    by_cases nothing : p = []
    · rw [nothing, encode_nil, List.append_nil, holds_reads holds]
    · have line : '\n' ∉ p := by
        intro mem
        have of_record : '\n' ∉ dumps floats record := dumps_line record
        apply of_record
        rw [parted]
        exact List.mem_append_left _ mem
      have malformed : loads floats p = .error .malformed := by
        rw [is_object] at canonical parted
        exact loads_cut canonical parted cut
      rw [← encode_append, torn_reads holds ended line nothing malformed]
  refine ⟨old, by rw [healed], Or.inl rfl, fun _ => ⟨added, after, ?_, loaded⟩⟩
  rw [healed]
  exact appended

/-- A whole line that no newline ends is loaded, and lost with the next append. -/
theorem whole_line_lost (lawful : Lawful floats ledger) {text : List Char} {old : List (Value F)}
    {e : ledger.Entry} (next : ledger.Entry) {record : Value F} (holds : Holds floats ledger text old)
    (ended : Ended text) (completed : ledger.complete floats hash old e = .ok record)
    (valid : ledger.validate record = true)
    (takes : Takes floats ledger hash (old ++ [record]) next) :
    ¬ Survives floats ledger hash old record (encode text ++ encode (dumps floats record)) next := by
  obtain ⟨_, ⟨members, is_object⟩, walked, is_record⟩ := completed_holds lawful holds completed valid
  have filled : dumps floats record ≠ [] := by
    obtain ⟨body, shape⟩ := dumps_object floats members
    rw [is_object, shape]
    exact List.cons_ne_nil _ _
  have both : Holds floats ledger (text ++ dumps floats record) (old ++ [record]) := by
    refine ⟨?_, walked⟩
    rw [lines_tail (dumps_line record) filled ended]
    exact List.rel_append holds.all (.cons is_record .nil)
  rintro ⟨records, read, _, further⟩
  rw [← encode_append, holds_reads both] at read further
  injection read with same
  subst same
  obtain ⟨added, after, appended, loaded⟩ := further takes
  exact append_after_tail lawful both ended (dumps_line record) filled appended _ loaded

/-- A file whose last line no newline ends loses that record, or the next append. -/
theorem tail_lost (lawful : Lawful floats ledger) {whole tail : List Char} {old : List (Value F)}
    {e next : ledger.Entry} {record : Value F} (holds : Holds floats ledger (whole ++ tail) old)
    (ended : Ended whole) (line : '\n' ∉ tail) (filled : tail ≠ [])
    (completed : ledger.complete floats hash old e = .ok record)
    (valid : ledger.validate record = true) (takes : Takes floats ledger hash old next) {p rest : List Char}
    (parted : dumps floats record = p ++ rest) :
    ¬ Survives floats ledger hash old record (encode (whole ++ tail) ++ encode p) next := by
  obtain ⟨_, ⟨members, is_object⟩, _, _⟩ := completed_holds lawful holds completed valid
  by_cases nothing : p = []
  · rw [nothing, encode_nil, List.append_nil]
    rintro ⟨records, read, _, further⟩
    rw [holds_reads holds] at read further
    injection read with same
    subst same
    obtain ⟨added, after, appended, loaded⟩ := further takes
    exact append_after_tail lawful holds ended line filled appended _ loaded
  · obtain ⟨earlier, last, old_same, before, is_record⟩ := tail_record holds ended line filled
    obtain ⟨body, shape⟩ := dumps_object floats members
    have glued : loads floats (tail ++ p) = .error .malformed := by
      obtain ⟨c, more, same⟩ := List.exists_cons_of_ne_nil nothing
      rw [← is_object, parted, same, List.cons_append] at shape
      injection shape with brace _
      rw [same, brace]
      exact loads_then_brace is_record.1
    have one_line : '\n' ∉ tail ++ p := by
      have of_record : '\n' ∉ dumps floats record := dumps_line record
      rw [parted, List.mem_append, not_or] at of_record
      rw [List.mem_append, not_or]
      exact ⟨line, of_record.1⟩
    have some_tail : tail ++ p ≠ [] := by simp [filled]
    rintro ⟨records, read, unlost, _⟩
    rw [← encode_append, List.append_assoc, torn_reads before ended one_line some_tail glued] at read
    injection read with same
    subst same
    have shorter := congrArg List.length old_same
    rw [List.length_append, List.length_singleton] at shorter
    rcases unlost with same | same
    · rw [← same] at shorter
      omega
    · have longer := congrArg List.length same
      rw [List.length_append, List.length_singleton] at longer
      omega

/-- The file ends where a line does. -/
def Closed (file : Option (List UInt8)) : Prop :=
  file.getD [] = [] ∨ (file.getD []).getLast? = some newline

theorem ended_closed {text : List Char} {file : Option (List UInt8)}
    (is_text : file.getD [] = encode text) : Closed file ↔ Ended text := by
  unfold Closed
  rw [is_text]
  constructor
  · intro closed
    obtain ⟨whole, tail, same, ended, line⟩ := ended_tail text
    by_cases filled : tail = []
    · rw [same, filled, List.append_nil]
      exact ended
    · exfalso
      have bytes : encode tail ≠ [] := fun nothing => filled (encode_injective nothing)
      rw [same, encode_append] at closed
      rcases closed with nothing | last
      · exact bytes (List.append_eq_nil_iff.mp nothing).2
      · rw [List.getLast?_append_of_ne_nil _ bytes] at last
        exact newline_encode line (List.mem_of_getLast? last)
  · rintro (nothing | ⟨before, same⟩)
    · rw [nothing]
      exact Or.inl rfl
    · have last : encode ['\n'] = [newline] := rfl
      rw [same, encode_append, last, List.getLast?_concat]
      exact Or.inr rfl

theorem opened_healed (file : Option (List UInt8)) :
    (ledger.readHealing floats (some (file.getD []))).1 = (ledger.readHealing floats file).1 ∧
      (ledger.readHealing floats (some (file.getD []))).2.getD [] =
        (ledger.readHealing floats file).2.getD [] := by
  cases file <;> exact ⟨rfl, rfl⟩

/-- What a crash leaves of an append: the file as the append's own read left it, and the first bytes
    of the line. -/
def cutAppend (floats : Floats F) (ledger : Ledger F) (file : Option (List UInt8))
    (record : Value F) (k : Nat) : List UInt8 :=
  (ledger.readHealing floats file).2.getD [] ++ (encode (dumps floats record)).take k

/-- When an append that was cut short does no harm. -/
def CutSafe (floats : Floats F) (ledger : Ledger F) (file : Option (List UInt8))
    (record : Value F) (k : Nat) : Prop :=
  Closed (ledger.readHealing floats file).2 ∧ k < (encode (dumps floats record)).length ∧
    (decode ((encode (dumps floats record)).take k)).isSome

theorem survives_iff (lawful : Lawful floats ledger) {file after : Option (List UInt8)}
    {old : List (Value F)} {e next : ledger.Entry} {record : Value F} {k : Nat}
    (loaded : (ledger.readHealing floats file).1 = .ok old)
    (appended : ledger.appendLocked floats hash file e = (.ok record, after))
    (takes : Takes floats ledger hash old next)
    (takes_after : Takes floats ledger hash (old ++ [record]) next) :
    Survives floats ledger hash old record (cutAppend floats ledger file record k) next ↔
      CutSafe floats ledger file record k := by
  obtain ⟨text, is_text, holds⟩ := healed_text loaded
  obtain ⟨disk, read, completed, valid, _⟩ := append_ok appended
  rw [(opened_healed file).1, loaded] at read
  injection read with same
  subst same
  unfold CutSafe cutAppend
  rw [ended_closed is_text, is_text]
  constructor
  · intro survives
    -- each way of failing is a state the store does not survive
    cases decoded : decode ((encode (dumps floats record)).take k) with
    | none =>
      obtain ⟨records, read, _⟩ := survives
      exact absurd read (undecodable_lost decoded records)
    | some p =>
      obtain ⟨rest, parted, _⟩ := beginning_of decoded
      have ended : Ended text := by
        obtain ⟨whole, tail, same, ended, line⟩ := ended_tail text
        by_cases filled : tail = []
        · rw [same, filled, List.append_nil]
          exact ended
        · rw [← encode_decode decoded, same] at survives
          rw [same] at holds
          exact absurd survives (tail_lost lawful holds ended line filled completed valid takes parted)
      refine ⟨ended, ?_, rfl⟩
      by_contra whole_line
      rw [List.take_of_length_le (not_lt.mp whole_line)] at survives
      exact whole_line_lost lawful next holds ended completed valid takes_after survives
  · rintro ⟨ended, shorter, decodes⟩
    obtain ⟨p, decoded⟩ := Option.isSome_iff_exists.mp decodes
    exact ended_survives lawful holds ended completed valid takes shorter decoded

theorem Book.lawful (validators : Validators F) (book : Book) :
    Lawful floats (book.store floats validators) := by
  cases book with
  | trials => exact lawful_trials validators
  | readings => exact lawful_readings validators

/-- An append that a crash cuts short harms neither the records nor the next append exactly where the
    file ended with a newline, the line's last byte was lost, and the cut fell between characters. -/
theorem torn_append_survives_iff (validators : Validators F) (book : Book)
    {file after : Option (List UInt8)} {old : List (Value F)}
    {e next : (book.store floats validators).Entry} {record : Value F} (k : Nat)
    (loaded : ((book.store floats validators).readHealing floats file).1 = .ok old)
    (appended : (book.store floats validators).appendLocked floats hash file e = (.ok record, after))
    (takes : Takes floats (book.store floats validators) hash old next)
    (takes_after : Takes floats (book.store floats validators) hash (old ++ [record]) next) :
    Survives floats (book.store floats validators) hash old record
        (cutAppend floats (book.store floats validators) file record k) next ↔
      CutSafe floats (book.store floats validators) file record k :=
  survives_iff (book.lawful validators) loaded appended takes takes_after

end

/- One reading, appended to a store that has no file yet. -/

def noFloats : Floats Empty where
  repr := fun x => nomatch x
  parse := fun _ => none
  below := fun x => nomatch x
  lexeme := fun x => nomatch x
  back := fun x => nomatch x

def lenient : Validators Empty := ⟨fun _ => true, fun _ => true, fun _ => true, fun _ => true⟩

def zeroDigest (_ : List Char) : String := genesisHash

def carryInvocation : Value Empty :=
  .obj [("accept_holes", .bool false), ("as_of", .null),
    ("commit", .str (String.ofList (List.replicate 40 'a'))), ("comparator_trial", .null),
    ("dataset", .str "carry"), ("subject", .str "carry"), ("window", .null)]

def carryDatasets : Value Empty :=
  .obj [("carry", .obj [("files", .obj [("a.parquet", .str genesisHash)]), ("rows", .int 1),
    ("span", .arr [.str "2026-01-01", .str "2026-07-01"])])]

def carryReading : Reading Empty where
  iteration := "00130"
  specHash := "c0ffee"
  invocation := ⟨carryInvocation, by simp [carryInvocation, Value.Canonical, MembersCanonical]; decide +kernel⟩
  datasets := ⟨carryDatasets,
    by simp [carryDatasets, Value.Canonical, MembersCanonical, AllCanonical]; decide +kernel⟩
  metrics := ⟨.obj [("sharpe", .int 1)], by simp [Value.Canonical, MembersCanonical]⟩
  outcome := none
  attempt := ⟨.null, trivial⟩
  notes := ""
  timestamp := "2026-07-11T12:00:00+00:00"

abbrev carryStore : Ledger Empty := Book.readings.store noFloats lenient

def carryRecord : Value Empty :=
  match carryStore.complete noFloats zeroDigest [] carryReading with
  | .ok record => record
  | .error _ => .null

theorem carry_completed :
    carryStore.complete noFloats zeroDigest [] carryReading = .ok carryRecord := rfl

theorem carry_appended : carryStore.appendLocked noFloats zeroDigest none carryReading =
    (.ok carryRecord, some ([] ++ encode (dumps noFloats carryRecord ++ ['\n']))) := by
  have read : carryStore.readHealing noFloats (some (none.getD [])) = (.ok [], some []) := rfl
  exact append_completed rfl read carry_completed rfl

theorem carry_takes : Takes noFloats carryStore zeroDigest [] carryReading :=
  ⟨rfl, carryRecord, carry_completed, rfl⟩

theorem carry_takes_again : Takes noFloats carryStore zeroDigest [carryRecord] carryReading :=
  ⟨rfl, _, rfl, rfl⟩

theorem carry_append_survives_iff :
    Survives noFloats carryStore zeroDigest [] carryRecord
        (cutAppend noFloats carryStore none carryRecord 40) carryReading ↔
      CutSafe noFloats carryStore none carryRecord 40 :=
  torn_append_survives_iff lenient .readings 40 rfl carry_appended carry_takes carry_takes_again

/-- A line that lost only its newline is loaded as the new record, and the next append, which the store
    takes, leaves a file that is refused. -/
theorem carry_append_lost :
    (carryStore.readHealing noFloats none).1 = .ok [] ∧
      carryStore.appendLocked noFloats zeroDigest none carryReading =
        (.ok carryRecord, some ([] ++ encode (dumps noFloats carryRecord ++ ['\n']))) ∧
      Takes noFloats carryStore zeroDigest [] carryReading ∧
      Takes noFloats carryStore zeroDigest [carryRecord] carryReading ∧
      ¬ Survives noFloats carryStore zeroDigest [] carryRecord
        (cutAppend noFloats carryStore none carryRecord (encode (dumps noFloats carryRecord)).length)
        carryReading := by
  refine ⟨rfl, carry_appended, carry_takes, carry_takes_again, ?_⟩
  have empty : Holds noFloats carryStore [] [] := ⟨.nil, _, rfl⟩
  have lost := whole_line_lost (lawful_readings lenient) carryReading empty (Or.inl rfl)
    carry_completed rfl carry_takes_again
  have whole : cutAppend noFloats carryStore none carryRecord
      (encode (dumps noFloats carryRecord)).length = encode [] ++ encode (dumps noFloats carryRecord) := by
    unfold cutAppend
    rw [List.take_length]
    rfl
  rw [whole]
  exact lost

end Registry
