import Zcrypto.HashChain
import Zcrypto.Registry.AttemptsValid
import Zcrypto.Registry.Loaded
import Zcrypto.Registry.Validators

/- The last hash of a chained file stands for all of its records. -/
namespace Registry
open JsonText TextFile Fallible Attempts HashChain

section
variable {F : Type} {floats : Floats F} {sameAs : F → Int → Bool} {hash : List Char → String}
  {isDecimal : Char → Bool} {key : String} {r s : Value F}

/-- A loaded record whose hash is that of the rest of it. -/
structure Hashed (floats : Floats F) (hash : List Char → String) (key : String) (r : Value F) : Prop where
  canonical : r.Canonical
  hash : ∃ members, r = .obj members ∧
    fieldOf members key = some (.str (hash (dumps floats (.obj (members.filter fun m => m.1 ≠ key)))))

/-- The text that the hash of a record is of. -/
def hashedText (floats : Floats F) (key : String) (r : Value F) : List Char := dumps floats (without key r)

theorem hashed_equal (left : Hashed floats hash key r) (right : Hashed floats hash key s)
    (free : hash (hashedText floats key r) = hash (hashedText floats key s) →
      hashedText floats key r = hashedText floats key s)
    (same : field r key = field s key) : r = s := by
  obtain ⟨canonical, members, rfl, is⟩ := left
  obtain ⟨canonical', members', rfl, is'⟩ := right
  have fields : fieldOf members key = fieldOf members' key := same
  rw [is, is'] at fields
  have digests := Value.str.inj (Option.some.inj fields)
  have texts := free digests
  rw [digests] at is
  rw [body_determines canonical canonical' is is' texts]

/- The two stores. -/

theorem book_links {validators : Validators F} (book : Book) {w next : Walk}
    (stepped : (book.store floats validators).step w r = .ok next) :
    intAt r (book.store floats validators).idKey = .ok (w.idx + 1 : Int) ∧
      textAt r "prev_hash" = .ok w.prev := by
  cases book with
  | trials =>
    refine ⟨(trialStep_ok stepped).1, ?_⟩
    obtain ⟨_, -, stepped⟩ := bind_ok.mp stepped
    obtain ⟨_, -, stepped⟩ := bind_ok.mp stepped
    obtain ⟨_, -, stepped⟩ := bind_ok.mp stepped
    obtain ⟨_, -, stepped⟩ := bind_ok.mp stepped
    obtain ⟨_, linked, -⟩ := bind_ok.mp stepped
    exact refuseABrokenLink_ok.mp linked
  | readings =>
    refine ⟨(readingStep_ok stepped).1, ?_⟩
    obtain ⟨_, -, stepped⟩ := bind_ok.mp stepped
    obtain ⟨_, linked, -⟩ := bind_ok.mp stepped
    exact refuseABrokenLink_ok.mp linked

theorem intAt_field {z : Int} (read : intAt r key = .ok z) : field r key = some (.int z) := by
  unfold intAt at read
  split at read
  · rename_i w found
    obtain rfl := Except.ok.inj read
    exact found
  · cases read

theorem textAt_field {text : String} (read : textAt r key = .ok text) :
    field r key = some (.str text) := by
  unfold textAt at read
  split at read
  · rename_i w found
    obtain rfl := Except.ok.inj read
    exact found
  · cases read

/-- What links one record to the next, and which record is the first. -/
abbrev Linked (hashKey : String) (opens : Value F → Prop) (records : List (Value F)) : Prop :=
  Chained (fun r => field r hashKey) (fun r => field r "prev_hash") opens records

theorem book_chained {validators : Validators F} (book : Book) {records : List (Value F)} {w : Walk}
    (walked : (book.store floats validators).assertCrossRecord records = .ok w) :
    Linked "record_hash" (fun r => field r (book.store floats validators).idKey = some (.int 1))
      records := by
  induction records using List.reverseRecOn generalizing w with
  | nil => exact .nil
  | append_singleton records r ih =>
    rw [assertCross_concat] at walked
    obtain ⟨before, earlier, stepped⟩ := bind_ok.mp walked
    have reached := (book.lawful validators).reached earlier
    obtain ⟨id, prev⟩ := book_links book stepped
    apply chained_concat (ih earlier)
    · rintro rfl
      rw [intAt_field id, reached.idx]
      rfl
    · intro last mem
      obtain ⟨-, linked⟩ := reached.last last mem
      refine ⟨?_, by rw [textAt_field prev, textAt_field linked]⟩
      have filled : 0 < records.length := List.length_pos_of_mem (List.mem_of_getLast? mem)
      rw [intAt_field id, reached.idx]
      simp only [Option.some.injEq, Value.int.injEq]
      omega

/- The attempts log. -/

theorem fieldIsText_iff {text : String} : fieldIsText r key text = true ↔ field r key = some (.str text) := by
  unfold fieldIsText
  split
  · rename_i s found
    rw [found, decide_eq_true_eq]
    simp
  · rename_i other
    simp only [Bool.false_eq_true, false_iff]
    exact other text

/-- What a line that verifies is, and what it leaves. -/
theorem verifyLine_links {c c' : Chain} (verified : verifyLine floats sameAs hash c r = .ok c') :
    (0 < c.lines → kindOf r ≠ some "genesis") ∧ field r "prev_hash" = some (.str c.prev) ∧
      field r "line_hash" = some (.str (hash (hashedText floats "line_hash" r))) ∧
        c'.prev = hash (hashedText floats "line_hash" r) ∧ c'.lines = c.lines + 1 := by
  have counted : ∀ {mid}, verifyAttempt sameAs c r = .ok mid → mid.lines = c.lines + 1 := by
    intro mid attempted
    unfold verifyAttempt at attempted
    simp only at attempted
    repeat' split at attempted
    all_goals cases attempted
    all_goals rfl
  unfold verifyLine at verified
  simp only at verified
  split at verified
  · cases verified
  rename_i first
  split at verified
  · cases verified
  split at verified
  · cases verified
  rename_i linked
  split at verified
  · cases verified
  rename_i hashed
  rw [Bool.not_eq_false, fieldIsText_iff] at linked hashed
  refine ⟨?_, linked, hashed, ?_⟩
  · intro later genesis
    exact first ⟨by omega, genesis⟩
  · cases attempted : verifyAttempt sameAs c r with
    | error e =>
      rw [attempted] at verified
      cases verified
    | ok mid =>
      rw [attempted] at verified
      obtain rfl := Except.ok.inj verified
      have next : mid.lines = c.lines + 1 := counted attempted
      exact ⟨rfl, next⟩

theorem attempts_chained {lines : List (Value F)} {c : Chain}
    (verified : lines.foldlM (verifyLine floats sameAs hash) Chain.start = .ok c)
    (genesis : ∀ first ∈ lines.head?, kindOf first = some "genesis") :
    Linked "line_hash" (fun r => kindOf r = some "genesis") lines ∧ c.lines = lines.length ∧
      ∀ last ∈ lines.getLast?, field last "line_hash" = some (.str c.prev) := by
  induction lines using List.reverseRecOn generalizing c with
  | nil =>
    obtain rfl := Except.ok.inj verified
    exact ⟨.nil, rfl, fun _ mem => nomatch mem⟩
  | append_singleton lines r ih =>
    rw [List.foldlM_append, bind_ok] at verified
    obtain ⟨before, earlier, last⟩ := verified
    obtain ⟨next, stepped, same⟩ := bind_ok.mp last
    obtain rfl := Except.ok.inj same
    obtain ⟨later, prev, hashed, left, counted⟩ := verifyLine_links stepped
    obtain ⟨chained, length, tail⟩ := ih earlier (fun first mem => genesis first (by
      rw [Option.mem_def] at mem
      rw [List.head?_append, mem]
      rfl))
    refine ⟨chained_concat chained ?_ ?_, ?_, ?_⟩
    · rintro rfl
      exact genesis r rfl
    · intro last mem
      have filled : 0 < lines.length := List.length_pos_of_mem (List.mem_of_getLast? mem)
      exact ⟨later (length ▸ filled), by rw [prev, tail last mem]⟩
    · rw [counted, length, List.length_append, List.length_singleton]
    · intro last mem
      rw [Option.mem_def, List.getLast?_concat] at mem
      obtain rfl := Option.some.inj mem
      rw [hashed, left]

theorem readLocked_reads {tear : Option Tear} {log : Log} {lines : List (Value F)}
    (read : (readLocked floats sameAs hash tear log).1 = .ok lines) :
    ∃ file, (Attempts.readLines floats sameAs hash file).1 = .ok lines := by
  unfold readLocked at read
  split at read
  · split at read
    · cases read
    · cases read
    · split at read
      · rename_i lines' kept reads
        exact ⟨_, by rw [reads]; exact read⟩
      · cases read
  · exact ⟨_, read⟩

theorem readLines_reads {file : List UInt8} {lines : List (Value F)}
    (read : (Attempts.readLines floats sameAs hash file).1 = .ok lines) :
    (logLines.readHealing floats (some file)).1 = .ok lines ∧
      ∃ c, verifyChain floats sameAs hash lines = .ok c := by
  unfold Attempts.readLines at read
  split at read
  · cases read
  · rename_i found kept reads
    cases verified : verifyChain floats sameAs hash found with
    | error e =>
      rw [verified] at read
      cases read
    | ok c =>
      rw [verified] at read
      obtain rfl := Except.ok.inj read
      exact ⟨by rw [reads], c, verified⟩

/-- Every line of a chain that verifies has the hash of the rest of it. -/
theorem verified_lines {lines : List (Value F)} {c : Chain}
    (verified : lines.foldlM (verifyLine floats sameAs hash) Chain.start = .ok c) :
    ∀ r ∈ lines, field r "line_hash" = some (.str (hash (hashedText floats "line_hash" r))) := by
  induction lines using List.reverseRecOn generalizing c with
  | nil => exact fun _ mem => nomatch mem
  | append_singleton lines r ih =>
    rw [List.foldlM_append, bind_ok] at verified
    obtain ⟨before, earlier, last⟩ := verified
    obtain ⟨next, stepped, -⟩ := bind_ok.mp last
    intro s mem
    rcases List.mem_append.mp mem with old | new
    · exact ih earlier s old
    · rw [List.mem_singleton.mp new]
      exact (verifyLine_links stepped).2.2.1

/- What a copy of a file is. -/

/-- The chained files. -/
inductive Kept where
  | book (book : Book)
  | attempts
  deriving DecidableEq, Repr

def Kept.hashKey : Kept → String
  | .book _ => "record_hash"
  | .attempts => "line_hash"

/-- What only the first record of a file is. -/
def Kept.opens (kept : Kept) (r : Value F) : Prop :=
  match kept with
  | .book .trials => field r "trial_id" = some (.int 1)
  | .book .readings => field r "reading_id" = some (.int 1)
  | .attempts => kindOf r = some "genesis"

/-- The records of a file that loads. -/
def Kept.load (isDecimal : Char → Bool) (floats : Floats F) (sameAs : F → Int → Bool)
    (hash : List Char → String) (callers : Validators F) (kept : Kept) (file : Option (List UInt8)) :
    Option (List (Value F)) :=
  match kept with
  | .book b =>
    ((b.store floats (checkedBy isDecimal floats sameAs hash callers)).readHealing floats file).1.toOption
  | .attempts => (readLocked floats sameAs hash none ⟨file.getD [], []⟩).1.toOption

/-- The hash that another copy cites: that of the last record. -/
def headHash (key : String) (records : List (Value F)) : Option String :=
  records.getLast?.bind fun r => (textAt r key).toOption

theorem toOption_some {E A : Type} {e : Except E A} {a : A} (some_ : e.toOption = some a) : e = .ok a := by
  cases e with
  | error _ => cases some_
  | ok b => exact congrArg Except.ok (Option.some.inj some_)

theorem forall₂_right {A B : Type} {R : A → B → Prop} {xs : List A} {ys : List B}
    (all : List.Forall₂ R xs ys) : ∀ y ∈ ys, ∃ x, R x y := by
  induction all with
  | nil => exact fun _ mem => nomatch mem
  | @cons x y xs ys here _ ih =>
    intro z mem
    rcases List.mem_cons.mp mem with rfl | mem
    · exact ⟨x, here⟩
    · exact ih z mem

theorem record_loaded {ledger : Ledger F} {file : Option (List UInt8)} {records : List (Value F)}
    (read : (ledger.readHealing floats file).1 = .ok records) :
    (∃ w, ledger.assertCrossRecord records = .ok w) ∧
      ∀ r ∈ records, r.Canonical ∧ ledger.validate r = true := by
  obtain ⟨text, -, holds⟩ := healed_text read
  refine ⟨holds.walked, ?_⟩
  intro r mem
  obtain ⟨line, loaded, valid⟩ := forall₂_right holds.all r mem
  exact ⟨loads_canonical loaded, valid⟩

theorem validateLine_object {line : Value F} (valid : validateLine line = true) :
    ∃ members, line = .obj members := by
  unfold validateLine at valid
  split at valid
  · rename_i members keys _
    exact ⟨members, rfl⟩
  · cases valid

theorem verifyChain_genesis {lines : List (Value F)} {c : Chain}
    (verified : verifyChain floats sameAs hash lines = .ok c) :
    ∀ first ∈ lines.head?, kindOf first = some "genesis" := by
  cases lines with
  | nil => exact fun _ mem => nomatch mem
  | cons first lines =>
    intro r mem
    obtain rfl := Option.some.inj (Option.mem_def.mp mem)
    by_contra other
    simp only [verifyChain, if_neg other] at verified
    cases verified

theorem book_loads {callers : Validators F} (b : Book) {file : Option (List UInt8)}
    {records : List (Value F)}
    (loads : (Kept.book b).load isDecimal floats sameAs hash callers file = some records) :
    Linked "record_hash" (fun r => field r (b.store floats callers).idKey = some (.int 1)) records ∧
      ∀ r ∈ records, Hashed floats hash "record_hash" r := by
  unfold Kept.load at loads
  obtain ⟨⟨w, walked⟩, all⟩ := record_loaded (toOption_some loads)
  constructor
  · have chained := book_chained b walked
    cases b <;> exact chained
  intro r mem
  obtain ⟨canonical, valid⟩ := all r mem
  cases b with
  | trials =>
    obtain ⟨members, is_object, hashed⟩ := storedRecord_hash isDecimal floats sameAs hash valid
    exact ⟨canonical, members, is_object, hashIsOfBody_ok floats hash hashed⟩
  | readings =>
    obtain ⟨members, is_object, hashed⟩ := storedReading_hash isDecimal floats hash valid
    exact ⟨canonical, members, is_object, hashIsOfBody_ok floats hash hashed⟩

/-- A file that loads is a chain of records, each with the hash of the rest of it. -/
theorem load_chained {callers : Validators F} (kept : Kept) {file : Option (List UInt8)}
    {records : List (Value F)}
    (loads : kept.load isDecimal floats sameAs hash callers file = some records) :
    Linked kept.hashKey kept.opens records ∧ ∀ r ∈ records, Hashed floats hash kept.hashKey r := by
  cases kept with
  | book b =>
    have loaded := book_loads b loads
    cases b <;> exact loaded
  | attempts =>
    unfold Kept.load at loads
    obtain ⟨path, read⟩ := readLocked_reads (toOption_some loads)
    obtain ⟨healed, c, verified⟩ := readLines_reads read
    obtain ⟨-, all⟩ := record_loaded healed
    have folded := verifyChain_ok verified
    refine ⟨(attempts_chained folded (verifyChain_genesis verified)).1, ?_⟩
    intro r mem
    obtain ⟨canonical, valid⟩ := all r mem
    obtain ⟨members, rfl⟩ := validateLine_object valid
    exact ⟨canonical, members, rfl, verified_lines folded _ mem⟩

theorem headHash_field {records : List (Value F)} (all : ∀ r ∈ records, Hashed floats hash key r) :
    records.getLast?.map (fun r => field r key) = (headHash key records).map fun h => some (.str h) := by
  unfold headHash
  cases last : records.getLast? with
  | none => rfl
  | some r =>
    obtain ⟨-, members, rfl, is⟩ := all r (List.mem_of_getLast? last)
    have found : field (.obj members) key = some (.str (hash (dumps floats (.obj (members.filter fun m =>
        m.1 ≠ key))))) := is
    simp only [Option.map_some, Option.bind_some, found, textAt_of found]
    rfl

/-- Where no two of the texts that two files hash have one hash, files of one head that load have the
    same records. -/
theorem head_commits_history (callers : Validators F) (kept : Kept) {file file' : Option (List UInt8)}
    {records records' : List (Value F)}
    (loads : kept.load isDecimal floats sameAs hash callers file = some records)
    (loads' : kept.load isDecimal floats sameAs hash callers file' = some records')
    (free : ∀ r ∈ records, ∀ s ∈ records',
      hash (hashedText floats kept.hashKey r) = hash (hashedText floats kept.hashKey s) →
        hashedText floats kept.hashKey r = hashedText floats kept.hashKey s)
    (same : headHash kept.hashKey records = headHash kept.hashKey records') : records = records' := by
  obtain ⟨chained, hashed⟩ := load_chained kept loads
  obtain ⟨chained', hashed'⟩ := load_chained kept loads'
  apply head_determines chained chained'
  · intro r r_mem s s_mem digests
    exact hashed_equal (hashed r r_mem) (hashed' s s_mem) (free r r_mem s s_mem) digests
  · rw [headHash_field hashed, headHash_field hashed', same]

end

/- A log and a torn copy of it. -/

section

def noCallers : Validators Empty := ⟨fun _ => false, fun _ => false, fun _ => false, fun _ => false⟩

/-- The file of a new log, where the digest of a text is the text. -/
def newLog : List UInt8 := (initLog noFloats String.ofList "id" "h" "t").file

def loadLog (file : List UInt8) : Option (List (Value Empty)) :=
  Kept.attempts.load Char.isDigit noFloats (fun _ _ => false) String.ofList noCallers (some file)

theorem loadLog_torn {rest : List UInt8} (unended : newline ∉ rest) :
    loadLog (newLog ++ rest) = some [genesisLine noFloats String.ofList "id" "h" "t"] := by
  have whole : Lined noFloats (fun _ _ => false) String.ofList newLog _ _ [] := created_lined "id" "h" "t"
  have lined : Lined noFloats (fun _ _ => false) String.ofList
      (⟨newLog ++ rest, []⟩ : Log).file _ _ rest :=
    ⟨by rw [whole.bytes, List.append_nil], whole.holds, whole.ended, whole.chain, whole.numbered,
      unended⟩
  rcases readLocked_lined none lined with ⟨copies, read⟩ | ⟨torn, -⟩
  · unfold loadLog Kept.load
    rw [Option.getD_some, read]
    rfl
  · cases torn

theorem head_commits_history_torn :
    loadLog (newLog ++ [123]) = loadLog newLog ∧ (loadLog newLog).isSome = true := by
  have torn : loadLog (newLog ++ [123]) = some [genesisLine noFloats String.ofList "id" "h" "t"] :=
    loadLog_torn (by decide)
  have whole : loadLog newLog = some [genesisLine noFloats String.ofList "id" "h" "t"] := by
    rw [← List.append_nil newLog]
    exact loadLog_torn List.not_mem_nil
  have same := head_commits_history noCallers .attempts torn whole
    (fun _ _ _ _ digests => String.ofList_injective digests) rfl
  rw [torn, whole, same]
  exact ⟨rfl, rfl⟩

end

end Registry
