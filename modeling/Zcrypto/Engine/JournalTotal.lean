import Mathlib.Data.Option.Basic
import Zcrypto.Engine.JournalReader
import Zcrypto.Engine.PlanDocument
import Zcrypto.JsonLaws

/- When the reader answers as it should: with a record every rule holds of, or with the journal's own refusal.
   What it raises else stands at a few of its checks, and is raised unless a check before it refuses. A valid
   record reads back from the text it is written as. -/
namespace JournalReader
open Checks Fallible Journal
open ProbePlans (hour hoursPerDay)

section
variable {F α β : Type} (doubles : Doubles F) (iso : Iso)

/-- A part of the document that has to read. -/
def reads (x : Except Fault α) : Check :=
  refuse "journal JSON is missing or misshapes a required key" x.isOk

/-- The nav, which may be an integer beyond the doubles. -/
def navCheck (members : List (String × Json F)) : Check where
  what := "nav must be a finite and positive number"
  raises := match members.lookup "nav" with
    | some (.int n) => if (doubles.ofInt n).isSome then none else some "OverflowError"
    | _ => none
  passes := (readOptional members "nav" (asPositiveFloat doubles)).isOk

def readChecks : Json F → List Check
  | .obj members =>
    [reads (field members "schema_version"), reads (stampAt iso members "cycle_ts"),
      reads (fieldAs members "snapshots" (readSnapshots iso)),
      reads (fieldAs members "final_targets" readDict), reads (stampAt iso members "started_at"),
      reads (stampAt iso members "completed_at"), reads (field members "code_version"),
      reads (field members "builder_path"), reads (readOptional members "closes" readDict),
      navCheck doubles members, reads (readOptional members "held" readDict)]
  | _ => [refuse "journal JSON is missing or misshapes a required key" false]

/-- What is read of a part, with a stand-in where it does not read. -/
def readOr (x : Except Fault α) (standIn : α) : α :=
  match x with
  | .ok a => a
  | .error _ => standIn

def someStamp : Stamp := ⟨0, none⟩

/-- The fields of a document. -/
def fieldsOf (members : List (String × Json F)) : Record F where
  schemaVersion := readOr (field members "schema_version") .null
  cycleTs := readOr (stampAt iso members "cycle_ts") someStamp
  snapshots := readOr (fieldAs members "snapshots" (readSnapshots iso)) []
  finalTargets := readOr (fieldAs members "final_targets" readDict) []
  startedAt := readOr (stampAt iso members "started_at") someStamp
  completedAt := readOr (stampAt iso members "completed_at") someStamp
  codeVersion := readOr (field members "code_version") .null
  builderPath := readOr (field members "builder_path") .null
  closes := readOr (readOptional members "closes" readDict) none
  nav := readOr (readOptional members "nav" (asPositiveFloat doubles)) none
  held := readOr (readOptional members "held" readDict) none

/-- Every check a document is put to, those of its reading before those of the record. -/
def documentChecks : Json F → List Check
  | .obj members =>
    readChecks doubles iso (.obj members) ++ recordChecks doubles (fieldsOf doubles iso members)
  | doc => readChecks doubles iso doc

/-- The texts that are answered: those that are no JSON, and those whose document has each of the checks that
    would raise something behind one it fails. -/
def Answerable (loads : String → Except LoadFault (Json F)) (s : String) : Prop :=
  match loads s with
  | .error .notJson => True
  | .error _ => False
  | .ok doc => Guarded (documentChecks doubles iso doc)

/-- The answer there should be: a record every rule holds of, or the journal's refusal. -/
def Answers (result : Except Fault (Record F)) : Prop :=
  (∃ r, result = .ok r ∧ Valid doubles r) ∨ ∃ what, result = .error (.journal what)

variable {doubles iso}

/- Parts that read or are refused. -/

/-- Nothing but the journal's refusal stands for a failure. -/
def Plain (x : Except Fault α) : Prop := ∀ e, x = .error e → ∃ what, e = .journal what

theorem plain_ok (a : α) : Plain (.ok a) := by
  intro e same
  cases same

theorem plain_misshaped : Plain (misshaped : Except Fault α) := by
  intro e same
  injection same with same
  exact ⟨_, same.symm⟩

theorem Plain.bind {x : Except Fault α} {f : α → Except Fault β} (first : Plain x)
    (rest : ∀ a, Plain (f a)) : Plain (x >>= f) := by
  intro e failed
  rcases bind_error.mp failed with here | ⟨a, _, later⟩
  · exact first e here
  · exact rest a e later

theorem Plain.map {x : Except Fault α} {f : α → β} (plain : Plain x) : Plain (x.map f) := by
  intro e failed
  cases x with
  | ok a => cases failed
  | error e' =>
    injection failed with same
    exact plain e (by rw [same])

theorem field_plain (members : List (String × Json F)) (key : String) : Plain (field members key) := by
  unfold field
  split
  · exact plain_ok _
  · exact plain_misshaped

theorem fieldAs_plain (members : List (String × Json F)) (key : String) {read : Json F → Except Fault α}
    (plain : ∀ v, Plain (read v)) : Plain (fieldAs members key read) :=
  (field_plain members key).bind plain

theorem readStamp_plain (v : Json F) : Plain (readStamp iso v) := by
  unfold readStamp
  split
  · split
    · exact plain_ok _
    · exact plain_misshaped
  · exact plain_misshaped

theorem stampAt_plain (members : List (String × Json F)) (key : String) :
    Plain (stampAt iso members key) :=
  fieldAs_plain members key readStamp_plain

theorem readEntry_plain (v : Json F) : Plain (readEntry iso v) := by
  unfold readEntry
  split
  · rename_i members
    apply (field_plain members "pair").bind
    intro pair
    apply (field_plain members "grid").bind
    intro grid
    apply (field_plain members "n_bars").bind
    intro nBars
    apply (stampAt_plain members "first_ts").bind
    intro firstTs
    apply (stampAt_plain members "last_ts").bind
    intro lastTs
    apply (field_plain members "content_hash").bind
    intro contentHash
    apply (field_plain members "path").bind
    intro path
    exact plain_ok _
  · exact plain_misshaped

theorem readSnapshots_plain (v : Json F) : Plain (readSnapshots iso v) := by
  unfold readSnapshots
  split
  · intro e failed
    obtain ⟨item, _, item_failed⟩ := mapM_error failed
    exact readEntry_plain item e item_failed
  · exact plain_ok _
  · exact plain_ok _
  · exact plain_misshaped

theorem readDict_plain (v : Json F) : Plain (readDict v) := by
  unfold readDict
  split
  · exact plain_ok _
  · split
    · exact plain_ok _
    · exact plain_misshaped
  · exact plain_ok _
  · exact plain_misshaped

theorem readOptional_plain (members : List (String × Json F)) (key : String)
    {read : Json F → Except Fault α} (plain : ∀ v, Plain (read v)) :
    Plain (readOptional members key read) := by
  unfold readOptional
  split
  · exact plain_ok _
  · exact plain_ok _
  · exact (plain _).map

/- The checks that a reading makes. -/

/-- The checks say how the computation ends: it succeeds where they pass, is refused where they refuse, and
    raises what they raise. -/
def Told (cs : List Check) (x : Except Fault α) : Prop :=
  match run cs with
  | .passed => ∃ a, x = .ok a
  | .refused _ => ∃ what, x = .error (.journal what)
  | .raised error => x = .error (.raised error)

theorem told_reads {x : Except Fault α} (plain : Plain x) : Told [reads x] x := by
  cases x with
  | ok a => exact ⟨a, rfl⟩
  | error e =>
    obtain ⟨what, same⟩ := plain e rfl
    rw [same]
    exact ⟨what, rfl⟩

theorem Told.append {cs ds : List Check} {x : Except Fault α} {f : α → Except Fault β}
    (first : Told cs x) (rest : ∀ a, x = .ok a → Told ds (f a)) : Told (cs ++ ds) (x >>= f) := by
  unfold Told at first rest ⊢
  cases ran : run cs with
  | passed =>
    rw [ran] at first
    obtain ⟨a, same⟩ := first
    rw [run_append_of_passed ran, same]
    exact rest a same
  | refused what =>
    rw [ran] at first
    obtain ⟨text, same⟩ := first
    rw [run_append_of_not (by rw [ran]; exact fun other => by cases other), ran, same]
    exact ⟨text, rfl⟩
  | raised error =>
    rw [ran] at first
    rw [run_append_of_not (by rw [ran]; exact fun other => by cases other), ran, first]
    rfl

theorem Told.next {c : Check} {ds : List Check} {x : Except Fault α} {f : α → Except Fault β}
    (first : Told [c] x) (rest : ∀ a, x = .ok a → Told ds (f a)) : Told (c :: ds) (x >>= f) :=
  Told.append first rest

theorem positiveFloat_plain (x : F) : Plain (positiveFloat doubles x) := by
  unfold positiveFloat
  split
  · exact plain_ok _
  · intro e same
    injection same with same
    exact ⟨_, same.symm⟩

theorem told_nav (members : List (String × Json F)) :
    Told [navCheck doubles members] (readOptional members "nav" (asPositiveFloat doubles)) := by
  have plain : ∀ x : Except Fault (Option F), Plain x → ∀ what,
      Told [⟨what, none, x.isOk⟩] x := by
    intro x plain what
    cases x with
    | ok a => exact ⟨a, rfl⟩
    | error e =>
      obtain ⟨text, same⟩ := plain e rfl
      rw [same]
      exact ⟨text, rfl⟩
  unfold navCheck
  cases found : members.lookup "nav" with
  | none =>
    have absent : readOptional members "nav" (asPositiveFloat doubles) = .ok none := by
      rw [readOptional, found]
    rw [absent]
    exact plain (.ok none) (plain_ok _) _
  | some v =>
    cases v with
    | int n =>
      have given : readOptional members "nav" (asPositiveFloat doubles) =
          (asPositiveFloat doubles (.int n)).map some := by
        rw [readOptional, found]
      rw [given, asPositiveFloat]
      cases double : doubles.ofInt n with
      | none =>
        simp only [double]
        rfl
      | some x =>
        simp only [double, Option.isSome_some, if_true]
        exact plain _ (positiveFloat_plain x).map _
    | null =>
      have absent : readOptional members "nav" (asPositiveFloat doubles) = .ok none := by
        rw [readOptional, found]
      rw [absent]
      exact plain (.ok none) (plain_ok _) _
    | float x =>
      have given : readOptional members "nav" (asPositiveFloat doubles) =
          (asPositiveFloat doubles (.float x)).map some := by
        rw [readOptional, found]
      rw [given]
      exact plain _ (positiveFloat_plain x).map _
    | _ =>
      have given : readOptional members "nav" (asPositiveFloat doubles) =
          .error (.journal "nav must be a number") := by
        rw [readOptional, found]
        rfl
      rw [given]
      exact ⟨_, rfl⟩

theorem told_document (doc : Json F) :
    Told (readChecks doubles iso doc) (fromDocument doubles iso doc) := by
  cases doc with
  | obj members =>
    apply Told.next (told_reads (field_plain members "schema_version"))
    intro schemaVersion _
    apply Told.next (told_reads (stampAt_plain members "cycle_ts"))
    intro cycleTs _
    apply Told.next (told_reads (fieldAs_plain members "snapshots" readSnapshots_plain))
    intro snapshots _
    apply Told.next (told_reads (fieldAs_plain members "final_targets" readDict_plain))
    intro finalTargets _
    apply Told.next (told_reads (stampAt_plain members "started_at"))
    intro startedAt _
    apply Told.next (told_reads (stampAt_plain members "completed_at"))
    intro completedAt _
    apply Told.next (told_reads (field_plain members "code_version"))
    intro codeVersion _
    apply Told.next (told_reads (field_plain members "builder_path"))
    intro builderPath _
    apply Told.next (told_reads (readOptional_plain members "closes" readDict_plain))
    intro closes _
    apply Told.next (told_nav members)
    intro nav _
    apply Told.next (told_reads (readOptional_plain members "held" readDict_plain))
    intro held _
    exact ⟨_, rfl⟩
  | _ => exact ⟨_, rfl⟩

theorem fieldsOf_ok {members : List (String × Json F)} {r : Record F}
    (read : fromDocument doubles iso (.obj members) = .ok r) : fieldsOf doubles iso members = r := by
  simp only [fromDocument] at read
  obtain ⟨schemaVersion, schema_ok, read⟩ := bind_ok.mp read
  obtain ⟨cycleTs, cycle_ok, read⟩ := bind_ok.mp read
  obtain ⟨snapshots, snapshots_ok, read⟩ := bind_ok.mp read
  obtain ⟨finalTargets, targets_ok, read⟩ := bind_ok.mp read
  obtain ⟨startedAt, started_ok, read⟩ := bind_ok.mp read
  obtain ⟨completedAt, completed_ok, read⟩ := bind_ok.mp read
  obtain ⟨codeVersion, code_ok, read⟩ := bind_ok.mp read
  obtain ⟨builderPath, builder_ok, read⟩ := bind_ok.mp read
  obtain ⟨closes, closes_ok, read⟩ := bind_ok.mp read
  obtain ⟨nav, nav_ok, read⟩ := bind_ok.mp read
  obtain ⟨held, held_ok, read⟩ := bind_ok.mp read
  injection read with same
  unfold fieldsOf
  rw [schema_ok, cycle_ok, snapshots_ok, targets_ok, started_ok, completed_ok, code_ok, builder_ok,
    closes_ok, nav_ok, held_ok, ← same]
  rfl

/- The reader. -/

/-- A record is answered just where its checks raise nothing. -/
theorem validate_answers (r : Record F) :
    Answers doubles (do
      validateRecord doubles r
      .ok r) ↔ ∀ error, run (recordChecks doubles r) ≠ .raised error := by
  unfold validateRecord
  cases ran : run (recordChecks doubles r) with
  | passed =>
    constructor
    · intro _ error other
      cases other
    · intro _
      exact Or.inl ⟨r, rfl, run_passed.mp ran⟩
  | refused what =>
    constructor
    · intro _ error other
      cases other
    · intro _
      exact Or.inr ⟨what, rfl⟩
  | raised error =>
    constructor
    · rintro (⟨other, same, _⟩ | ⟨what, same⟩)
      · cases same
      · injection same with same
        cases same
    · intro quiet
      exact absurd rfl (quiet error)

theorem answers_error {e : Fault} : Answers doubles (.error e : Except Fault (Record F)) ↔
    ∃ what, e = .journal what := by
  constructor
  · rintro (⟨r, same, _⟩ | ⟨what, same⟩)
    · cases same
    · injection same with same
      exact ⟨what, same⟩
  · rintro ⟨what, same⟩
    exact Or.inr ⟨what, by rw [same]⟩

theorem document_answers (doc : Json F) :
    Answers doubles (do
      let r ← fromDocument doubles iso doc
      validateRecord doubles r
      .ok r) ↔ Guarded (documentChecks doubles iso doc) := by
  have told : Told (readChecks doubles iso doc) (fromDocument doubles iso doc) := told_document doc
  unfold Told at told
  cases doc with
  | obj members =>
    rw [guarded_iff, documentChecks]
    cases ran : run (readChecks doubles iso (.obj members)) with
    | passed =>
      rw [ran] at told
      obtain ⟨r, same⟩ := told
      rw [same, run_append_of_passed ran, fieldsOf_ok same]
      exact validate_answers r
    | refused what =>
      rw [ran] at told
      obtain ⟨text, same⟩ := told
      rw [same, run_append_of_not (by rw [ran]; exact fun other => by cases other), ran]
      constructor
      · intro _ error other
        cases other
      · intro _
        exact Or.inr ⟨text, rfl⟩
    | raised error =>
      rw [ran] at told
      rw [told, run_append_of_not (by rw [ran]; exact fun other => by cases other), ran]
      constructor
      · intro answered
        obtain ⟨what, other⟩ := answers_error.mp answered
        cases other
      · intro quiet
        exact absurd rfl (quiet error)
  | _ =>
    rw [guarded_iff]
    constructor
    · intro _ error other
      cases other
    · intro _
      exact Or.inr ⟨_, rfl⟩

theorem read_answers (loads : String → Except LoadFault (Json F)) (s : String) :
    Answers doubles (read doubles iso loads s) ↔ Answerable doubles iso loads s := by
  unfold read fromJson Answerable
  cases loads s with
  | ok doc => exact document_answers doc
  | error fault =>
    cases fault with
    | notJson => exact ⟨fun _ => trivial, fun _ => Or.inr ⟨_, rfl⟩⟩
    | tooManyDigits =>
      refine ⟨fun answered => ?_, fun never => never.elim⟩
      obtain ⟨what, other⟩ := answers_error.mp answered
      cases other
    | tooDeep =>
      refine ⟨fun answered => ?_, fun never => never.elim⟩
      obtain ⟨what, other⟩ := answers_error.mp answered
      cases other

/- The round trip. -/

/-- The same record, its dicts told apart by no order. -/
structure Same (r r' : Record F) : Prop where
  schemaVersion : r.schemaVersion = r'.schemaVersion
  cycleTs : r.cycleTs = r'.cycleTs
  snapshots : r.snapshots = r'.snapshots
  finalTargets : r.finalTargets.Perm r'.finalTargets
  startedAt : r.startedAt = r'.startedAt
  completedAt : r.completedAt = r'.completedAt
  codeVersion : r.codeVersion = r'.codeVersion
  builderPath : r.builderPath = r'.builderPath
  closes : Option.Rel List.Perm r.closes r'.closes
  nav : r.nav = r'.nav
  held : Option.Rel List.Perm r.held r'.held

/-- Every stamp a record carries. -/
def Record.times (r : Record F) : List Stamp :=
  r.cycleTs :: r.startedAt :: r.completedAt :: r.snapshots.flatMap fun e => [e.firstTs, e.lastTs]

def Texts (items : Items F) : Prop := ∀ item ∈ items, ∃ s, item.1 = .text s

theorem texts_of_named {items : Items F} {what : String}
    (named : ∀ item ∈ items, (namedKey what item.1).Passes) : Texts items := by
  intro item mem
  obtain ⟨_, passes⟩ := named item mem
  cases key : item.1 with
  | text s => exact ⟨s, rfl⟩
  | other =>
    rw [key] at passes
    cases passes

theorem Valid.targets {r : Record F} (valid : Valid doubles r) : Texts r.finalTargets := by
  apply texts_of_named
  intro item mem
  apply valid
  have listed : namedKey "final_targets" item.1 ∈ targetChecks doubles r := by
    apply List.mem_cons_of_mem
    exact List.mem_flatMap.mpr ⟨item, mem, List.mem_cons_self⟩
  simp only [recordChecks, List.mem_append]
  tauto

theorem Valid.nav_positive {r : Record F} (valid : Valid doubles r) {nav : F} (given : r.nav = some nav) :
    positiveFloat doubles nav = .ok nav := by
  have listed : refuse "nav must be finite and positive when present"
      ((doubles.finite nav).any (0 < ·)) ∈ r.nav.elim [] (navChecks doubles) := by
    rw [given]
    exact List.mem_cons_self
  have passes : Check.Passes _ := valid _ (by
    simp only [recordChecks, List.mem_append]
    tauto)
  unfold positiveFloat
  exact if_pos passes.2

theorem Valid.held_texts {r : Record F} (valid : Valid doubles r) {held : Items F}
    (given : r.held = some held) : Texts held := by
  apply texts_of_named
  intro item mem
  apply valid
  have listed : namedKey "held" item.1 ∈ r.held.elim [] (heldChecks doubles) := by
    rw [given]
    exact List.mem_flatMap.mpr ⟨item, mem, List.mem_cons_self⟩
  simp only [recordChecks, List.mem_append]
  tauto

theorem Valid.closes_texts {r : Record F} (valid : Valid doubles r) {closes : Items F}
    (given : r.closes = some closes) : Texts closes := by
  apply texts_of_named
  intro item mem
  apply valid
  have listed : namedKey "closes" item.1 ∈ r.closes.elim [] (closesChecks doubles) := by
    rw [given]
    exact List.mem_cons_of_mem _ (List.mem_flatMap.mpr ⟨item, mem, List.mem_cons_self⟩)
  simp only [recordChecks, List.mem_append]
  tauto

/-- A dict written with its keys in order reads back as itself. -/
theorem readDict_inOrder {items : Items F} (texts : Texts items) :
    ∃ back, readDict (.obj (inOrder items)) = .ok back ∧ items.Perm back := by
  refine ⟨(inOrder items).map fun m => (.text m.1, m.2), rfl, ?_⟩
  have sorted := (List.perm_insertionSort (fun a b : String × Json F => a.1 ≤ b.1)
    (items.map fun item => (keyText item.1, item.2))).map
      fun m => ((.text m.1, m.2) : Key × Json F)
  have itself : (items.map fun item => (keyText item.1, item.2)).map
      (fun m => ((.text m.1, m.2) : Key × Json F)) = items := by
    rw [List.map_map, List.map_congr_left, List.map_id]
    intro item mem
    obtain ⟨s, text⟩ := texts item mem
    obtain ⟨key, v⟩ := item
    cases text
    rfl
  rw [itself] at sorted
  exact sorted.symm

theorem readEntry_document {e : Entry F} (first : iso.fromisoformat (iso.isoformat e.firstTs) = some e.firstTs)
    (last : iso.fromisoformat (iso.isoformat e.lastTs) = some e.lastTs) :
    readEntry iso (entryDocument iso e) = .ok e := by
  simp [readEntry, entryDocument, field, fieldAs, stampAt, readStamp, List.lookup_cons, bind, Except.bind, first,
    last]

theorem readSnapshots_document {entries : List (Entry F)}
    (first : ∀ e ∈ entries, iso.fromisoformat (iso.isoformat e.firstTs) = some e.firstTs)
    (last : ∀ e ∈ entries, iso.fromisoformat (iso.isoformat e.lastTs) = some e.lastTs) :
    readSnapshots iso (.arr (entries.map (entryDocument iso))) = .ok entries := by
  show (entries.map (entryDocument iso)).mapM (readEntry iso) = .ok entries
  rw [mapM_ok, List.forall₂_map_left_iff, List.forall₂_same]
  exact fun e mem => readEntry_document (first e mem) (last e mem)

theorem lookup_closes (r : Record F) : (payload iso r).lookup "closes" =
    r.closes.map fun closes => .obj (inOrder closes) := by
  unfold payload
  cases r.closes <;> cases r.held <;> cases r.nav <;> simp [List.lookup_cons]

theorem lookup_held (r : Record F) : (payload iso r).lookup "held" =
    r.held.map fun held => .obj (inOrder held) := by
  unfold payload
  cases r.closes <;> cases r.held <;> cases r.nav <;> simp [List.lookup_cons]

theorem lookup_nav (r : Record F) : (payload iso r).lookup "nav" = r.nav.map .float := by
  unfold payload
  cases r.closes <;> cases r.held <;> cases r.nav <;> simp [List.lookup_cons]

/-- The fields every record has. -/
structure Fields (iso : Iso) (r : Record F) (members : List (String × Json F)) : Prop where
  builderPath : members.lookup "builder_path" = some r.builderPath
  codeVersion : members.lookup "code_version" = some r.codeVersion
  completedAt : members.lookup "completed_at" = some (.str (iso.isoformat r.completedAt))
  cycleTs : members.lookup "cycle_ts" = some (.str (iso.isoformat r.cycleTs))
  finalTargets : members.lookup "final_targets" = some (.obj (inOrder r.finalTargets))
  schemaVersion : members.lookup "schema_version" = some r.schemaVersion
  snapshots : members.lookup "snapshots" = some (.arr (r.snapshots.map (entryDocument iso)))
  startedAt : members.lookup "started_at" = some (.str (iso.isoformat r.startedAt))

theorem payload_fields (r : Record F) : Fields iso r (payload iso r) := by
  unfold payload
  constructor
  all_goals cases r.closes <;> cases r.held <;> cases r.nav <;> simp [List.lookup_cons]

theorem field_ok {members : List (String × Json F)} {key : String} {v : Json F}
    (found : members.lookup key = some v) : field members key = .ok v := by
  rw [field, found]

theorem fieldAs_ok {members : List (String × Json F)} {key : String} {v : Json F}
    {read : Json F → Except Fault α} {a : α} (found : members.lookup key = some v) (reads : read v = .ok a) :
    fieldAs members key read = .ok a := by
  rw [fieldAs, field_ok found]
  exact reads

theorem stampAt_ok {members : List (String × Json F)} {key : String} {t : Stamp}
    (found : members.lookup key = some (.str (iso.isoformat t)))
    (back : iso.fromisoformat (iso.isoformat t) = some t) : stampAt iso members key = .ok t := by
  apply fieldAs_ok found
  rw [readStamp, back]

/-- A dict that may be absent reads back, absent where it was. -/
theorem readOptional_dict {members : List (String × Json F)} {key : String} {items : Option (Items F)}
    (found : members.lookup key = items.map fun d => .obj (inOrder d))
    (texts : ∀ d, items = some d → Texts d) :
    ∃ back, readOptional members key readDict = .ok back ∧ Option.Rel List.Perm items back := by
  cases items with
  | none =>
    refine ⟨none, ?_, .none⟩
    rw [readOptional, found]
    rfl
  | some d =>
    obtain ⟨back, read, same⟩ := readDict_inOrder (texts d rfl)
    refine ⟨some back, ?_, .some same⟩
    rw [readOptional, found]
    simp only [Option.map_some, read]
    rfl

theorem readOptional_nav {r : Record F} (valid : Valid doubles r) :
    readOptional (payload iso r) "nav" (asPositiveFloat doubles) = .ok r.nav := by
  rw [readOptional, lookup_nav]
  cases given : r.nav with
  | none => rfl
  | some nav =>
    simp only [Option.map_some, asPositiveFloat, valid.nav_positive given]
    rfl

theorem fromDocument_payload {r : Record F} (valid : Valid doubles r)
    (times : ∀ t ∈ r.times, iso.fromisoformat (iso.isoformat t) = some t) :
    ∃ r', fromDocument doubles iso (.obj (payload iso r)) = .ok r' ∧ Same r r' := by
  have fields : Fields iso r (payload iso r) := payload_fields r
  have cycle := times r.cycleTs (by simp [Record.times])
  have started := times r.startedAt (by simp [Record.times])
  have completed := times r.completedAt (by simp [Record.times])
  have entries : readSnapshots iso (.arr (r.snapshots.map (entryDocument iso))) = .ok r.snapshots := by
    apply readSnapshots_document
    · intro e mem
      apply times
      simp only [Record.times, List.mem_cons, List.mem_flatMap]
      exact Or.inr (Or.inr (Or.inr ⟨e, mem, Or.inl rfl⟩))
    · intro e mem
      apply times
      simp only [Record.times, List.mem_cons, List.mem_flatMap]
      exact Or.inr (Or.inr (Or.inr ⟨e, mem, Or.inr (Or.inl rfl)⟩))
  obtain ⟨targets, targets_ok, targets_same⟩ := readDict_inOrder valid.targets
  have closes_found : (payload iso r).lookup "closes" = r.closes.map fun d => .obj (inOrder d) :=
    lookup_closes r
  have held_found : (payload iso r).lookup "held" = r.held.map fun d => .obj (inOrder d) := lookup_held r
  obtain ⟨closes, closes_ok, closes_same⟩ :=
    readOptional_dict closes_found fun _ given => valid.closes_texts given
  obtain ⟨held, held_ok, held_same⟩ := readOptional_dict held_found fun _ given => valid.held_texts given
  refine ⟨{ r with finalTargets := targets, closes, held }, ?_,
    ⟨rfl, rfl, rfl, targets_same, rfl, rfl, rfl, rfl, closes_same, rfl, held_same⟩⟩
  simp only [fromDocument, field_ok fields.schemaVersion, stampAt_ok fields.cycleTs cycle,
    fieldAs_ok fields.snapshots entries, fieldAs_ok fields.finalTargets targets_ok,
    stampAt_ok fields.startedAt started, stampAt_ok fields.completedAt completed,
    field_ok fields.codeVersion, field_ok fields.builderPath, closes_ok, readOptional_nav valid, held_ok]
  rfl

/-- The reader answers a text with a valid record or the journal's refusal just where what would raise
    something else stands behind a check that refuses; and a valid record reads back from its own text. -/
theorem journal_read (doubles : Doubles F) (iso : Iso) (loads : String → Except LoadFault (Json F))
    (dumps : Json F → String) :
    (∀ s, Answers doubles (read doubles iso loads s) ↔ Answerable doubles iso loads s) ∧
    (∀ r, Valid doubles r → loads (toJson iso dumps r) = .ok (.obj (payload iso r)) →
      (∀ t ∈ r.times, iso.fromisoformat (iso.isoformat t) = some t) →
      ∃ r', fromJson doubles iso loads (toJson iso dumps r) = .ok r' ∧ Same r r') := by
  constructor
  · exact read_answers loads
  · intro r valid loaded times
    obtain ⟨r', document, same⟩ := fromDocument_payload valid times
    refine ⟨r', ?_, same⟩
    rw [fromJson, loaded]
    exact document

end

section

/-- The one double there is, 1.0. -/
def oneFloat : JsonText.Floats Unit where
  repr _ := ['1', '.', '0']
  parse text := if text = ['1', '.', '0'] then some () else none
  below _ n := 1 < n
  lexeme _ := by decide
  back _ := rfl

def oneDouble : Doubles Unit where
  finite _ := some 1
  ofInt n := if n = 1 then some () else none
  spelled _ := "1.0"

/-- Four in the morning, the midnight before it, and the two midnights before that. -/
def sampleTimes : List Stamp :=
  [⟨1767240000000000, some 0⟩, ⟨1767225600000000, some 0⟩, ⟨1767139200000000, some 0⟩,
    ⟨1767052800000000, some 0⟩]

def sampleIso : Iso where
  isoformat t := ProbePlans.isoformat t.wall
  fromisoformat s := sampleTimes.find? fun t => ProbePlans.isoformat t.wall = s

def sampleEntry (grid : String) (lastTs : Stamp) : Entry Unit where
  pair := .str "BTC/EUR"
  grid := .str grid
  nBars := .int 2
  firstTs := ⟨1767052800000000, some 0⟩
  lastTs := lastTs
  contentHash := .str "0000000000000000000000000000000000000000000000000000000000000000"
  path := .str "BTC-EUR.parquet"

def sampleRecord (schemaVersion : Json Unit) : Record Unit where
  schemaVersion := schemaVersion
  cycleTs := ⟨1767240000000000, some 0⟩
  snapshots := [sampleEntry "240" ⟨1767225600000000, some 0⟩, sampleEntry "1440" ⟨1767139200000000, some 0⟩]
  finalTargets := [(.text "BTC/EUR", .float ())]
  startedAt := ⟨1767240000000000, some 0⟩
  completedAt := ⟨1767240000000000, some 0⟩
  codeVersion := .str "v1"
  builderPath := .str "fast"
  closes := none
  nav := some ()
  held := none

def jsonText (doc : Json Unit) : String := String.ofList (JsonText.dumps oneFloat doc)

def jsonRead (s : String) : Except LoadFault (Json Unit) :=
  (JsonText.loads oneFloat s.toList).mapError fun _ => .notJson

/-- The sample as it is written, with another nav. -/
def withNav (nav : Json Unit) : Json Unit :=
  .obj (("nav", nav) :: payload sampleIso (sampleRecord (.int 2)))

/-- A nav of a one and four hundred noughts leaves the reader as an overflow, and a schema version that is a
    list the validator as a type error. -/
theorem journal_raises :
    read oneDouble sampleIso (fun _ => .ok (withNav (.int (10 ^ 400)))) "" =
        .error (.raised "OverflowError") ∧
      validateRecord oneDouble (sampleRecord (.arr [])) = .error (.raised "TypeError") := by
  have nav : run (readChecks oneDouble sampleIso (withNav (.int (10 ^ 400)))) = .raised "OverflowError" := by
    decide +kernel
  have schema : run (recordChecks oneDouble (sampleRecord (.arr []))) = .raised "TypeError" := by
    decide +kernel
  have told : Told _ (fromDocument oneDouble sampleIso (withNav (.int (10 ^ 400)))) :=
    told_document (withNav (.int (10 ^ 400)))
  unfold Told at told
  rw [nav] at told
  have told : fromDocument oneDouble sampleIso (withNav (.int (10 ^ 400))) =
      .error (.raised "OverflowError") := told
  constructor
  · rw [read, fromJson]
    simp only [told]
    rfl
  · rw [validateRecord, schema]
    rfl

theorem sampleRecord_valid : Valid oneDouble (sampleRecord (.int 2)) :=
  run_passed.mp (by decide +kernel)

theorem sample_canonical : (JsonText.Value.obj (payload sampleIso (sampleRecord (.int 2)))).Canonical := by
  simp only [payload, sampleRecord, JsonText.Value.Canonical, JsonText.AllCanonical,
    JsonText.MembersCanonical, Option.elim, List.map, entryDocument, sampleEntry, inOrder, keyText,
    List.insertionSort, List.foldr, List.orderedInsert, List.cons_append, List.nil_append]
  decide

theorem journal_read_sample :
    (Answers oneDouble (read oneDouble sampleIso jsonRead
      (toJson sampleIso jsonText (sampleRecord (.int 2)))) ↔
        Answerable oneDouble sampleIso jsonRead (toJson sampleIso jsonText (sampleRecord (.int 2)))) ∧
    ∃ r', fromJson oneDouble sampleIso jsonRead (toJson sampleIso jsonText (sampleRecord (.int 2))) = .ok r' ∧
      Same (sampleRecord (.int 2)) r' := by
  obtain ⟨answers, back⟩ := journal_read oneDouble sampleIso jsonRead jsonText
  refine ⟨answers _, back (sampleRecord (.int 2)) sampleRecord_valid ?_ ?_⟩
  · have text : (toJson sampleIso jsonText (sampleRecord (.int 2))).toList =
        JsonText.dumps oneFloat (.obj (payload sampleIso (sampleRecord (.int 2)))) := by
      rw [toJson, jsonText, String.toList_ofList]
    rw [jsonRead, text, JsonText.loads_dumps sample_canonical]
    rfl
  · have each : (sampleRecord (.int 2)).times.all fun t =>
        sampleIso.fromisoformat (sampleIso.isoformat t) = some t := by decide +kernel
    intro t mem
    exact of_decide_eq_true (List.all_eq_true.mp each t mem)

end

end JournalReader
