import Zcrypto.JsonLines
import Zcrypto.Registry.Torn
import Zcrypto.Registry.Validators

/- The registry's lines as the attempt count reads them from git: split where a text's lines end, and
   not at newlines alone as the stores split them. -/
namespace Registry
open JsonText JsonLines TextFile Fallible

section
variable {F : Type}

inductive ShownFault where
  | undecodable
  | line (fault : Fault)
  deriving DecidableEq, Repr

/-- The records of a file as git shows it. -/
def shown (floats : Floats F) (file : List UInt8) : Except ShownFault (List (Value F)) :=
  match decode file with
  | none => .error .undecodable
  | some text =>
    match ((splitlines text).filter (· ≠ [])).mapM (loads floats) with
    | .ok records => .ok records
    | .error fault => .error (.line fault)

/-- The file after appends that are all taken, none where one is refused. -/
def Ledger.appendAll (floats : Floats F) (ledger : Ledger F) (hash : List Char → String)
    (file : Option (List UInt8)) : List ledger.Entry → Option (Option (List UInt8))
  | [] => some file
  | e :: rest =>
    match ledger.appendLocked floats hash file e with
    | (.ok _, after) => Ledger.appendAll floats ledger hash after rest
    | (.error _, _) => none

/- The strings that an append gives. -/

def Trial.given (t : Trial F) : List String :=
  [t.iteration, t.family, t.specHash, t.verdict, t.runRef, t.notes, t.timestamp] ++
    t.variant.toList ++ strings t.datasets.1 ++ strings t.invocation.1 ++ strings t.metrics.1 ++
    strings t.attempt.1

def Reading.given (r : Reading F) : List String :=
  [r.iteration, r.specHash, r.notes, r.timestamp] ++ r.outcome.toList ++ strings r.invocation.1 ++
    strings r.datasets.1 ++ strings r.metrics.1 ++ strings r.attempt.1

def Book.given {floats : Floats F} {validators : Validators F} (book : Book) :
    (book.store floats validators).Entry → List String :=
  match book with
  | .trials => Trial.given
  | .readings => Reading.given

/-- No string has an end of a line that a record's text leaves as it is. -/
def Unbroken (texts : List String) : Prop := ∀ s ∈ texts, ∀ c ∈ s.toList, c ∉ wideBreaks

instance (texts : List String) : Decidable (Unbroken texts) :=
  inferInstanceAs (Decidable (∀ s ∈ texts, ∀ c ∈ s.toList, c ∉ wideBreaks))

/- Strings. -/

@[simp] theorem unbroken_nil : Unbroken [] := by simp [Unbroken]

@[simp] theorem unbroken_cons {s : String} {texts : List String} :
    Unbroken (s :: texts) ↔ (∀ c ∈ s.toList, c ∉ wideBreaks) ∧ Unbroken texts := by
  simp [Unbroken]

@[simp] theorem unbroken_append {a b : List String} : Unbroken (a ++ b) ↔ Unbroken a ∧ Unbroken b := by
  simp [Unbroken, or_imp, forall_and]

/-- A text whose characters are no wide ends. -/
abbrev Whole (s : String) : Prop := ∀ c ∈ s.toList, c ∉ wideBreaks

theorem whole_hex {n : Nat} {s : String} (hex : Reconcile.isHex n s = true) : Whole s := by
  unfold Reconcile.isHex at hex
  simp only [Bool.and_eq_true, List.all_eq_true, Bool.or_eq_true, decide_eq_true_eq] at hex
  intro c mem wide
  have low : ∀ d ∈ wideBreaks, ¬ (d.isDigit = true ∨ 'a' ≤ d ∧ d ≤ 'f') := by decide
  exact low c wide (hex.2 c mem)

theorem whole_genesis : Whole genesisHash := by
  unfold Whole genesisHash
  decide +kernel

/-- A field that is new adds its strings. -/
theorem unbroken_put {key : String} {v : Value F} {members : List (String × Value F)}
    (fresh : ∀ m ∈ members, m.1 ≠ key) :
    Unbroken (memberStrings (put key v members)) ↔
      Whole key ∧ Unbroken (strings v) ∧ Unbroken (memberStrings members) := by
  induction members with
  | nil => simp [put, memberStrings]
  | cons m members ih =>
    obtain ⟨k, w⟩ := m
    have other : key ≠ k := Ne.symm (fresh (k, w) List.mem_cons_self)
    have later := ih fun m mem => fresh m (List.mem_cons_of_mem _ mem)
    unfold put
    rw [if_neg other]
    split
    · simp [memberStrings]
    · simp only [memberStrings, unbroken_cons, unbroken_append, later]
      tauto

theorem object_keys {fields : List (String × Value F)} {m : String × Value F}
    (mem : m ∈ object fields) : m.1 ∈ fields.map Prod.fst := by
  induction fields using List.reverseRecOn with
  | nil => cases mem
  | append_singleton fields f ih =>
    rw [object_concat] at mem
    rw [List.map_append, List.mem_append]
    rcases mem_put mem with same | mem
    · exact Or.inr (by simp [same])
    · exact Or.inl (ih mem)

/-- The strings of an object are its fields', where no field is given twice. -/
theorem unbroken_object {fields : List (String × Value F)} (distinct : (fields.map Prod.fst).Nodup) :
    Unbroken (memberStrings (object fields)) ↔
      ∀ f ∈ fields, Whole f.1 ∧ Unbroken (strings f.2) := by
  induction fields using List.reverseRecOn with
  | nil => simp [object, memberStrings]
  | append_singleton fields f ih =>
    rw [List.map_append, List.nodup_append] at distinct
    obtain ⟨earlier, _, apart⟩ := distinct
    have fresh : ∀ m ∈ object fields, m.1 ≠ f.1 := fun m mem =>
      apart m.1 (object_keys mem) f.1 (by simp)
    rw [object_concat, unbroken_put fresh, ih earlier]
    simp only [List.mem_append, List.mem_singleton, or_imp, forall_and, forall_eq]
    tauto

/- What an append's record has of what it was given. -/

theorem strings_ints (zs : List Int) : itemStrings (zs.map Value.int : List (Value F)) = [] := by
  induction zs with
  | nil => rfl
  | cons z zs ih => simp [itemStrings, strings, ih]

/-- Fields under given keys, whose strings are some texts. -/
structure Given (fields : List (String × Value F)) (keys : List String) (texts : List String) :
    Prop where
  fresh : ∀ m ∈ fields, m.1 ∉ keys
  same : Unbroken (memberStrings fields) ↔ Unbroken texts

/-- Keys that are different from one another and from others, and have no wide end in them. -/
def Apart (own others : List String) : Prop :=
  own.Nodup ∧ ∀ key ∈ own, key ∉ others ∧ Whole key

instance (own others : List String) : Decidable (Apart own others) :=
  inferInstanceAs (Decidable (own.Nodup ∧ ∀ key ∈ own, key ∉ others ∧ Whole key))

theorem given_object {fields : List (String × Value F)} {keys texts : List String}
    (own : List String) (apart : Apart own keys) (names : fields.map Prod.fst = own)
    (same : (∀ f ∈ fields, Unbroken (strings f.2)) ↔ Unbroken texts) :
    Given (object fields) keys texts := by
  subst names
  obtain ⟨distinct, each⟩ := apart
  refine ⟨fun m mem => (each m.1 (object_keys mem)).1, ?_⟩
  rw [unbroken_object distinct, ← same]
  constructor
  · exact fun all f mem => (all f mem).2
  · exact fun all f mem => ⟨(each f.1 (List.mem_map_of_mem mem)).2, all f mem⟩

/-- What a trial is composed of, with its variant where it has one. -/
def trialKeys (variant : List String) : List String :=
  ["iteration", "family", "spec_hash", "seeds", "metrics", "n_trials_in_family", "verdict", "run_ref",
    "notes"] ++ variant ++ ["schema_version", "timestamp", "datasets", "invocation", "attempt"]

def composedReadingKeys : List String :=
  ["iteration", "spec_hash", "invocation", "datasets", "metrics", "outcome", "notes", "attempt",
    "schema_version", "timestamp"]

theorem trial_given (t : Trial F) {disk : List (Value F)} {fields : List (String × Value F)}
    (composed : t.compose disk = .ok fields) : Given fields ("trial_id" :: storeKeys) t.given := by
  unfold Trial.compose at composed
  simp only at composed
  split at composed
  · cases composed
  · injection composed with same
    subst same
    unfold Trial.caller Trial.given
    cases t.variant with
    | none =>
      refine given_object (trialKeys []) (by decide) rfl ?_
      simp [strings, strings_ints]
      tauto
    | some variant =>
      refine given_object (trialKeys ["variant"]) (by decide) rfl ?_
      simp [strings, strings_ints]
      tauto

theorem reading_given (r : Reading F) (disk : List (Value F)) {fields : List (String × Value F)}
    (composed : r.compose disk = .ok fields) : Given fields ("reading_id" :: storeKeys) r.given := by
  unfold Reading.compose at composed
  injection composed with same
  subst same
  unfold Reading.caller Reading.given
  refine given_object composedReadingKeys (by decide) rfl ?_
  cases r.outcome <;> simp [strings] <;> tauto

theorem Book.composed_given {floats : Floats F} {validators : Validators F} (book : Book)
    {disk : List (Value F)} {e : (book.store floats validators).Entry}
    {fields : List (String × Value F)}
    (composed : (book.store floats validators).compose disk e = .ok fields) :
    Given fields ((book.store floats validators).idKey :: storeKeys) (book.given e) := by
  cases book with
  | trials => exact trial_given e composed
  | readings => exact reading_given e disk composed

theorem fresh_put {key other : String} {v : Value F} {members : List (String × Value F)}
    (fresh : ∀ m ∈ members, m.1 ≠ other) (differ : key ≠ other) :
    ∀ m ∈ put key v members, m.1 ≠ other := by
  intro m mem
  rcases mem_put mem with same | mem
  · rw [same]
    exact differ
  · exact fresh m mem

variable {floats : Floats F} {hash : List Char → String}

/-- The link of the next record is a hash, or stands for none. -/
theorem nextLink_whole (hexed : ∀ text, Reconcile.isHex 64 (hash text) = true) {idKey prev : String}
    {id : Int} {disk : List (Value F)}
    (hashed : ∀ r ∈ disk, ∃ text, textAt r "record_hash" = .ok (hash text))
    (follows : Ledger.nextLink idKey disk = .ok (id, prev)) : Whole prev := by
  unfold Ledger.nextLink at follows
  split at follows
  · rename_i last is_last
    obtain ⟨_, _, follows⟩ := bind_ok.mp follows
    obtain ⟨link, read, follows⟩ := bind_ok.mp follows
    injection follows with pair
    injection pair with _ link_prev
    obtain ⟨text, of_text⟩ := hashed last (List.mem_of_getLast? is_last)
    rw [of_text] at read
    injection read with same
    rw [← link_prev, ← same]
    exact whole_hex (hexed text)
  · injection follows with pair
    injection pair with _ genesis
    rw [← genesis]
    exact whole_genesis

/-- What a store adds to the fields of an append has no wide end in it. -/
theorem complete_given {validators : Validators F} (book : Book)
    (hexed : ∀ text, Reconcile.isHex 64 (hash text) = true) {disk : List (Value F)}
    {e : (book.store floats validators).Entry} {record : Value F}
    (hashed : ∀ r ∈ disk, ∃ text, textAt r "record_hash" = .ok (hash text))
    (completed : (book.store floats validators).complete floats hash disk e = .ok record) :
    (Unbroken (strings record) ↔ Unbroken (book.given e)) ∧
      ∃ text, textAt record "record_hash" = .ok (hash text) := by
  have own : Apart ((book.store floats validators).idKey :: storeKeys) [] := by
    cases book
    · exact (by decide : Apart ("trial_id" :: storeKeys) [])
    · exact (by decide : Apart ("reading_id" :: storeKeys) [])
  obtain ⟨distinct, each⟩ := own
  have whole {key : String} (mem : key ∈ (book.store floats validators).idKey :: storeKeys) :
      Whole key := (each key mem).2
  have id_apart : (book.store floats validators).idKey ∉ storeKeys := (List.nodup_cons.mp distinct).1
  have id_ne {key : String} (mem : key ∈ storeKeys) : (book.store floats validators).idKey ≠ key :=
    fun same => id_apart (same ▸ mem)
  unfold Ledger.complete at completed
  obtain ⟨composed, composes, completed⟩ := bind_ok.mp completed
  obtain ⟨⟨id, prev⟩, follows, completed⟩ := bind_ok.mp completed
  obtain ⟨datasets, _, completed⟩ := bind_ok.mp completed
  injection completed with same
  subst same
  obtain ⟨fresh, given⟩ := book.composed_given composes
  have new {key : String} (mem : key ∈ (book.store floats validators).idKey :: storeKeys) :
      ∀ m ∈ composed, m.1 ≠ key := fun m in_composed same => fresh m in_composed (same ▸ mem)
  have linked := nextLink_whole hexed hashed follows
  constructor
  · -- the four fields are put one after another, each under a key of its own
    have id_put := unbroken_put (v := .int id) (new List.mem_cons_self)
    have fresh_of {key : String} (mem : key ∈ storeKeys) :=
      fresh_put (v := .int id) (new (List.mem_cons_of_mem _ mem)) (id_ne mem)
    have fresh_prev := fresh_of (by decide : "prev_hash" ∈ storeKeys)
    have fresh_dataset := fresh_of (by decide : "dataset_hash" ∈ storeKeys)
    have fresh_record := fresh_of (by decide : "record_hash" ∈ storeKeys)
    rw [strings, unbroken_put (fresh_put (fresh_put fresh_record (by decide)) (by decide)),
      unbroken_put (fresh_put fresh_dataset (by decide)), unbroken_put fresh_prev, id_put, given]
    have prev_key : Whole "prev_hash" := whole (by simp [storeKeys])
    have dataset_key : Whole "dataset_hash" := whole (by simp [storeKeys])
    have record_key : Whole "record_hash" := whole (by simp [storeKeys])
    have id_key := whole (List.mem_cons_self (l := storeKeys))
    simp only [strings, unbroken_cons, unbroken_nil, and_true]
    have dataset_hash := whole_hex (hexed (dumps floats datasets))
    have record_hash := fun text => whole_hex (hexed text)
    tauto
  · exact ⟨_, by simp [textAt, field, fieldOf_put]; rfl⟩

/- A file that appends wrote. -/

/-- The text of records, each on a line. -/
def pages (floats : Floats F) (records : List (Value F)) : List Char :=
  records.flatMap fun r => dumps floats r ++ ['\n']

theorem pages_concat (records : List (Value F)) (r : Value F) :
    pages floats (records ++ [r]) = pages floats records ++ (dumps floats r ++ ['\n']) := by
  simp [pages]

theorem pages_ended (records : List (Value F)) : Ended (pages floats records) := by
  induction records using List.reverseRecOn with
  | nil => exact Or.inl rfl
  | append_singleton records r _ =>
    rw [pages_concat]
    exact ended_line _ _

def IsObject (r : Value F) : Prop := r.Canonical ∧ ∃ members, r = .obj members

structure Written (floats : Floats F) (ledger : Ledger F) (hash : List Char → String)
    (file : Option (List UInt8)) (records : List (Value F)) : Prop where
  text : file.getD [] = encode (pages floats records)
  holds : Holds floats ledger (pages floats records) records
  objects : ∀ r ∈ records, IsObject r
  hashed : ∀ r ∈ records, ∃ text, textAt r "record_hash" = .ok (hash text)

theorem written_none (ledger : Ledger F) : Written floats ledger hash none [] where
  text := rfl
  holds := ⟨.nil, _, rfl⟩
  objects := by simp
  hashed := by simp

theorem written_reads {ledger : Ledger F} {file : Option (List UInt8)} {records : List (Value F)}
    (written : Written floats ledger hash file records) :
    (ledger.readHealing floats file).1 = .ok records := by
  rw [← (opened_healed file).1, written.text, holds_reads written.holds]

/-- One append that a store takes. -/
theorem written_append {validators : Validators F} (book : Book)
    (hexed : ∀ text, Reconcile.isHex 64 (hash text) = true) {file after : Option (List UInt8)}
    {records : List (Value F)} {e : (book.store floats validators).Entry} {record : Value F}
    (written : Written floats (book.store floats validators) hash file records)
    (appended : (book.store floats validators).appendLocked floats hash file e = (.ok record, after)) :
    Written floats (book.store floats validators) hash after (records ++ [record]) ∧
      (Unbroken (strings record) ↔ Unbroken (book.given e)) := by
  obtain ⟨old, read, completed, valid, rfl⟩ := append_ok appended
  rw [written.text, holds_reads written.holds] at read ⊢
  injection read with same
  subst same
  obtain ⟨canonical, is_object, walked, is_record⟩ :=
    completed_holds (book.lawful validators) written.holds completed valid
  obtain ⟨given, hashed⟩ := complete_given book hexed written.hashed completed
  refine ⟨⟨?_, ?_, ?_, ?_⟩, given⟩
  · rw [pages_concat, encode_append (pages floats records)]
    rfl
  · rw [pages_concat]
    exact holds_line written.holds (pages_ended _) walked is_record
  · simp only [List.mem_append, List.mem_singleton]
    rintro r (earlier | rfl)
    · exact written.objects r earlier
    · exact ⟨canonical, is_object⟩
  · simp only [List.mem_append, List.mem_singleton]
    rintro r (earlier | rfl)
    · exact written.hashed r earlier
    · exact hashed

/-- A run of appends: each adds the record that its entry became. -/
theorem written_run {validators : Validators F} (book : Book)
    (hexed : ∀ text, Reconcile.isHex 64 (hash text) = true)
    {entries : List (book.store floats validators).Entry} {file after : Option (List UInt8)}
    {records : List (Value F)}
    (written : Written floats (book.store floats validators) hash file records)
    (accepted : (book.store floats validators).appendAll floats hash file entries = some after) :
    ∃ more, Written floats (book.store floats validators) hash after (records ++ more) ∧
      List.Forall₂ (fun e r => Unbroken (strings r) ↔ Unbroken (book.given e)) entries more := by
  induction entries generalizing file records with
  | nil =>
    injection accepted with same
    subst same
    exact ⟨[], by rwa [List.append_nil], .nil⟩
  | cons e entries ih =>
    unfold Ledger.appendAll at accepted
    split at accepted
    · rename_i record next appended
      obtain ⟨grown, given⟩ := written_append book hexed written appended
      obtain ⟨more, final, others⟩ := ih grown accepted
      refine ⟨record :: more, ?_, .cons given others⟩
      rwa [List.append_assoc] at final
    · cases accepted

/- What git shows of it. -/

theorem shown_ok {text : List Char} {records : List (Value F)} :
    shown floats (encode text) = .ok records ↔
      List.Forall₂ (fun line r => loads floats line = .ok r)
        ((splitlines text).filter (· ≠ [])) records := by
  rw [← mapM_ok]
  unfold shown
  rw [decode_encode]
  simp only
  split
  · rename_i found read
    rw [read]
    simp
  · rename_i fault read
    rw [read]
    simp

variable (floats) in
theorem dumps_filled {r : Value F} (object : IsObject r) : ∃ body, dumps floats r = '{' :: body := by
  obtain ⟨_, members, rfl⟩ := object
  obtain ⟨body, shape⟩ := dumps_object floats members
  exact ⟨_, shape⟩

theorem splitlines_record {r : Value F} (unbroken : Unbroken (strings r)) (rest : List Char) :
    splitlines (dumps floats r ++ '\n' :: rest) = dumps floats r :: splitlines rest := by
  apply splitlines_break
  · intro c mem ends
    obtain ⟨wide, s, of_r, in_s⟩ := breaks_dumps mem ends
    exact unbroken s of_r c in_s wide
  · decide
  · decide

/-- A record with a wide end in it is cut where the first one stands, and its beginning is no JSON. -/
theorem cut_record {r : Value F} (object : IsObject r) (broken : ¬ Unbroken (strings r))
    (rest : List Char) : ∃ piece more, splitlines (dumps floats r ++ rest) = piece :: more ∧
      piece ≠ [] ∧ loads floats piece = .error .malformed := by
  have wide_ends : ∀ c ∈ wideBreaks, 127 ≤ c.toNat ∧ c ∈ breaks ∧ c ≠ '\r' := by decide
  unfold Unbroken at broken
  push Not at broken
  obtain ⟨s, of_r, c, in_s, wide⟩ := broken
  have in_text : c ∈ dumps floats r := (wide_dumps (wide_ends c wide).1 r).mpr ⟨s, of_r, in_s⟩
  have found : ((dumps floats r).find? (· ∈ breaks)).isSome := by
    rw [List.find?_isSome]
    exact ⟨c, in_text, by simpa using (wide_ends c wide).2.1⟩
  obtain ⟨d, first⟩ := Option.isSome_iff_exists.mp found
  obtain ⟨ends, piece, more, parted, before⟩ := List.find?_eq_some_iff_append.mp first
  rw [decide_eq_true_eq] at ends
  have in_parted : d ∈ dumps floats r := by simp [parted]
  have other : d ≠ '\r' := (wide_ends d (breaks_dumps in_parted ends).1).2.2
  refine ⟨piece, splitlines (more ++ rest), ?_, ?_, ?_⟩
  · rw [parted, List.append_assoc, List.cons_append]
    exact splitlines_break (fun e mem => by simpa using before e mem) ends other
  · rintro rfl
    obtain ⟨body, shape⟩ := dumps_filled floats object
    rw [shape] at parted
    injection parted with brace _
    rw [← brace] at ends
    exact absurd ends (by decide)
  · obtain ⟨canonical, members, rfl⟩ := object
    exact loads_cut canonical parted (List.cons_ne_nil _ _)

theorem shown_pages {records : List (Value F)} (objects : ∀ r ∈ records, IsObject r) :
    shown floats (encode (pages floats records)) = .ok records ↔
      ∀ r ∈ records, Unbroken (strings r) := by
  rw [shown_ok]
  induction records with
  | nil => simp [pages, splitlines, splitFrom]
  | cons r records ih =>
    have object := objects r List.mem_cons_self
    have later := ih fun s mem => objects s (List.mem_cons_of_mem _ mem)
    have first : pages floats (r :: records) = dumps floats r ++ '\n' :: pages floats records := by
      simp [pages]
    rw [first, List.forall_mem_cons]
    by_cases unbroken : Unbroken (strings r)
    · obtain ⟨body, shape⟩ := dumps_filled floats object
      have filled : dumps floats r ≠ [] := by simp [shape]
      have read : loads floats (dumps floats r) = .ok r := loads_dumps object.1
      rw [splitlines_record unbroken, List.filter_cons_of_pos (by simpa using filled),
        List.forall₂_cons, later]
      simp [read, unbroken]
    · obtain ⟨piece, more, split, filled, malformed⟩ :=
        cut_record object unbroken ('\n' :: pages floats records)
      rw [split, List.filter_cons_of_pos (by simpa using filled), List.forall₂_cons]
      simp [malformed, unbroken]

/-- One record with a wide end in it is enough for the read to fail. -/
theorem shown_cut {r : Value F} (object : IsObject r) (broken : ¬ Unbroken (strings r))
    (rest : List Char) :
    shown floats (encode (dumps floats r ++ rest)) = .error (.line .malformed) := by
  obtain ⟨piece, more, split, filled, malformed⟩ := cut_record object broken rest
  have failed : ((splitlines (dumps floats r ++ rest)).filter (· ≠ [])).mapM (loads floats) =
      .error .malformed := by
    rw [split, List.filter_cons_of_pos (by simpa using filled), List.mapM_cons]
    exact bind_error.mpr (Or.inl malformed)
  unfold shown
  rw [decode_encode]
  simp only [failed]

/-- After appends to a store that has no file yet, the attempt count reads from git what the store
    itself loads exactly where no append was given a string with one of the three line ends that a
    record's text leaves as they are. -/
theorem shown_agrees_iff (validators : Validators F) (book : Book)
    (hexed : ∀ text, Reconcile.isHex 64 (hash text) = true)
    {entries : List (book.store floats validators).Entry} {file : Option (List UInt8)}
    (accepted : (book.store floats validators).appendAll floats hash none entries = some file) :
    (∃ records, ((book.store floats validators).readHealing floats file).1 = .ok records ∧
        shown floats (file.getD []) = .ok records) ↔
      ∀ e ∈ entries, Unbroken (book.given e) := by
  obtain ⟨records, written, given⟩ := written_run book hexed (written_none _) accepted
  rw [List.nil_append] at written
  have same : (∀ r ∈ records, Unbroken (strings r)) ↔ ∀ e ∈ entries, Unbroken (book.given e) := by
    constructor
    · intro all e mem
      obtain ⟨r, in_records, of_r⟩ := partner given mem
      exact of_r.mp (all r in_records)
    · intro all r mem
      obtain ⟨e, in_entries, of_r⟩ := partner_of given mem
      exact of_r.mpr (all e in_entries)
  rw [← same, written_reads written, written.text, ← shown_pages written.objects]
  constructor
  · rintro ⟨read, loaded, shows⟩
    injection loaded with same
    subst same
    exact shows
  · exact fun shows => ⟨records, rfl, shows⟩

end

/- A reading whose note has a line separator in it. -/

/-- The checks of a stored reading, made of what a caller gives as well. -/
def strict : Validators Empty :=
  checkedBy Char.isDigit noFloats (fun x => nomatch x) zeroDigest
    { lenient with readingFields := fun r => validateReadingFields Char.isDigit (object r.caller) }

abbrev strictStore : Ledger Empty := Book.readings.store noFloats strict

def noted (notes : String) : Reading Empty := { carryReading with notes }

def notedRecord (notes : String) : Value Empty :=
  match strictStore.complete noFloats zeroDigest [] (noted notes) with
  | .ok record => record
  | .error _ => .null

theorem noted_completed (notes : String) :
    strictStore.complete noFloats zeroDigest [] (noted notes) = .ok (notedRecord notes) := by
  have some_record : ∃ record, strictStore.complete noFloats zeroDigest [] (noted notes) =
      .ok record := by
    refine ⟨_, bind_ok.mpr ⟨_, rfl, bind_ok.mpr ⟨(1, genesisHash), rfl, bind_ok.mpr ⟨carryDatasets,
      ?_, rfl⟩⟩⟩⟩
    have other : "datasets" ≠ strictStore.idKey := (by decide : "datasets" ≠ "reading_id")
    unfold Ledger.memberAt
    simp [other, Reading.caller, object, fieldOf_put, noted, carryReading]
  obtain ⟨record, completed⟩ := some_record
  unfold notedRecord
  rw [completed]

def notedFile (notes : String) : List UInt8 :=
  [] ++ encode (dumps noFloats (notedRecord notes) ++ ['\n'])

theorem noted_appended {notes : String} (taken : strictStore.takes (noted notes) = true)
    (valid : strictStore.validate (notedRecord notes) = true) :
    strictStore.appendLocked noFloats zeroDigest none (noted notes) =
      (.ok (notedRecord notes), some (notedFile notes)) := by
  have read : strictStore.readHealing noFloats (some (none.getD [])) = (.ok [], some []) := rfl
  exact append_completed taken read (noted_completed notes) valid

theorem noted_accepted {notes : String} (taken : strictStore.takes (noted notes) = true)
    (valid : strictStore.validate (notedRecord notes) = true) :
    strictStore.appendAll noFloats zeroDigest none [noted notes] = some (some (notedFile notes)) := by
  unfold Ledger.appendAll
  rw [noted_appended taken valid]
  rfl

theorem zeroDigest_hex (text : List Char) : Reconcile.isHex 64 (zeroDigest text) = true := by
  unfold zeroDigest
  decide +kernel

theorem plain_note_agrees :
    (∃ records, (strictStore.readHealing noFloats (some (notedFile "re-read"))).1 = .ok records ∧
        shown noFloats (notedFile "re-read") = .ok records) ↔
      ∀ e ∈ [noted "re-read"], Unbroken (Reading.given e) :=
  shown_agrees_iff strict .readings zeroDigest_hex
    (noted_accepted (by decide +kernel) (by decide +kernel))

/-- A note with a line separator in it is taken, and loads; what git shows of it fails. -/
theorem separated_note_fails :
    strictStore.appendAll noFloats zeroDigest none [noted "re-\u2028read"] =
        some (some (notedFile "re-\u2028read")) ∧
      (strictStore.readHealing noFloats (some (notedFile "re-\u2028read"))).1 =
        .ok [notedRecord "re-\u2028read"] ∧
      shown noFloats (notedFile "re-\u2028read") = .error (.line .malformed) := by
  have taken : strictStore.takes (noted "re-\u2028read") = true := by decide +kernel
  have valid : strictStore.validate (notedRecord "re-\u2028read") = true := by decide +kernel
  obtain ⟨written, given⟩ :=
    written_append .readings zeroDigest_hex (written_none strictStore) (noted_appended taken valid)
  have broken : ¬ Unbroken (strings (notedRecord "re-\u2028read")) := by
    rw [given]
    exact (by decide +kernel : ¬ Unbroken (Reading.given (noted "re-\u2028read")))
  refine ⟨noted_accepted taken valid, written_reads written, ?_⟩
  exact shown_cut (written.objects _ List.mem_cons_self) broken _

end Registry
