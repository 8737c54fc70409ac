import Zcrypto.Registry.Attempts
import Zcrypto.Registry.Readers

/- What every session of operations keeps of the attempts log, wherever its operations stop short. -/
namespace Attempts
open JsonText TextFile Registry Fallible

section
variable {F : Type} {floats : Floats F} {sameAs : F → Int → Bool} {hash : List Char → String}

/- Lines. -/

theorem mem_put_keys {key other : String} {v : Value F} {members : List (String × Value F)} :
    (∃ m ∈ put key v members, m.1 = other) ↔ other = key ∨ ∃ m ∈ members, m.1 = other := by
  have there : ∀ ms : List (String × Value F), (∃ m ∈ ms, m.1 = other) ↔ (fieldOf ms other).isSome := by
    intro ms
    simp [fieldOf, List.find?_isSome]
  rw [there, there, fieldOf_put]
  by_cases same : other = key <;> simp [same]

theorem mem_object_keys {other : String} (fields : List (String × Value F)) :
    (∃ m ∈ object fields, m.1 = other) ↔ other ∈ fields.map Prod.fst := by
  induction fields using List.reverseRecOn with
  | nil => simp [object]
  | append_singleton fields f ih =>
    rw [object_concat, mem_put_keys, ih]
    simp [or_comm]

theorem fieldOf_object_concat (fields : List (String × Value F)) (f : String × Value F) (key : String) :
    fieldOf (object (fields ++ [f])) key = if key = f.1 then some f.2 else fieldOf (object fields) key := by
  rw [object_concat, fieldOf_put]

theorem keysAre_iff {members : List (String × Value F)} {keys : List String} :
    keysAre members keys = true ↔ ∀ key, (∃ m ∈ members, m.1 = key) ↔ key ∈ keys := by
  unfold keysAre
  simp only [Bool.and_eq_true, List.all_eq_true, List.any_eq_true, decide_eq_true_eq]
  constructor
  · rintro ⟨within, all⟩ key
    constructor
    · rintro ⟨m, mem, rfl⟩
      exact within m mem
    · exact all key
  · intro same
    exact ⟨fun m mem => (same m.1).mp ⟨m, mem, rfl⟩, fun key mem => (same key).mpr mem⟩

/-- The last of the fields under a key is the one that counts. -/
theorem fieldOf_object (fields : List (String × Value F)) (key : String) :
    fieldOf (object fields) key = (fields.reverse.find? fun f => f.1 = key).map Prod.snd := by
  induction fields using List.reverseRecOn with
  | nil => rfl
  | append_singleton fields f ih =>
    rw [fieldOf_object_concat, ih, List.reverse_concat, List.find?_cons]
    by_cases here : f.1 = key
    · simp [here]
    · simp [here, Ne.symm here]

/-- A line of the log by its fields, and by those that chain it. -/
def lineWith (fields : List (String × Value F)) (seq : Int) (prev : Value F) (digest : String) :
    Value F :=
  .obj (object (fields ++ [("seq", .int seq), ("prev_hash", prev), ("line_hash", .str digest)]))

theorem nextLine_ok {lines : List (Value F)} {fields : List (String × Value F)} {line : Value F}
    (made : nextLine floats hash lines fields = .ok line) : ∃ prev digest,
      line = lineWith fields (lines.length + 1) prev digest := by
  unfold nextLine at made
  split at made
  · rename_i prev last
    obtain rfl := Except.ok.inj made
    refine ⟨prev, hash (dumps floats (.obj (put "prev_hash" prev
      (put "seq" (.int (lines.length + 1)) (object fields))))), ?_⟩
    simp [lineWith, object]
  · cases made

theorem lineWith_prev {fields : List (String × Value F)} {seq : Int} {prev : Value F}
    {digest : String} : field (lineWith fields seq prev digest) "prev_hash" = some prev := by
  simp [lineWith, field, fieldOf_object]

/-- The keys of a line of its kind. -/
theorem object_valid {fields : List (String × Value F)} {kind : String} {keys : List String}
    (is_kind : kindOf (.obj (object fields)) = some kind) (known : lineKeys kind = some keys)
    (perm : (fields.map Prod.fst).Perm keys) : validateLine (.obj (object fields)) = true := by
  unfold validateLine
  rw [is_kind, Option.bind_some, known]
  show keysAre (object _) keys = true
  rw [keysAre_iff]
  intro key
  rw [mem_object_keys]
  exact perm.mem_iff

theorem lineWith_canonical {fields : List (String × Value F)} {seq : Int} {prev : Value F}
    {digest : String} (all : ∀ f ∈ fields, f.2.Canonical) (link : prev.Canonical) :
    (lineWith fields seq prev digest).Canonical := by
  apply sorted_object
  intro f mem
  rcases List.mem_append.mp mem with own | chain
  · exact all f own
  · simp only [List.mem_cons, List.not_mem_nil, or_false] at chain
    rcases chain with rfl | rfl | rfl
    · trivial
    · exact link
    · trivial

theorem textOrNull_canonical (text : Option String) : (textOrNull text : Value F).Canonical := by
  cases text <;> exact trivial

theorem begin_canonical (b : Begin F) (attempt : Int) : ∀ f ∈ b.fields attempt, f.2.Canonical := by
  intro f mem
  simp only [Begin.fields, List.mem_cons, List.not_mem_nil, or_false] at mem
  rcases mem with rfl | rfl | rfl | rfl | rfl | rfl | rfl | rfl | rfl | rfl | rfl | rfl | rfl | rfl | rfl
  all_goals first
    | exact trivial
    | exact b.invocation.2
    | exact textOrNull_canonical _

theorem end_canonical (e : End F) : ∀ f ∈ e.fields floats hash, f.2.Canonical := by
  intro f mem
  simp only [End.fields, List.mem_cons, List.not_mem_nil, or_false] at mem
  rcases mem with rfl | rfl | rfl | rfl | rfl | rfl | rfl | rfl
  all_goals first
    | exact trivial
    | exact textOrNull_canonical _
    | (cases e.metrics with
        | none => exact trivial
        | some metrics => first | exact metrics.2 | exact trivial)

/-- What is known of a begin's line and of an end's. -/
structure Attempted (line : Value F) (kind : String) (attempt : Int) : Prop where
  kind : kindOf line = some kind
  attempt : field line "attempt" = some (.int attempt)
  valid : validateLine line = true
  canonical : (∃ s, field line "prev_hash" = some (.str s)) → line.Canonical

theorem begin_line (b : Begin F) (attempt seq : Int) (prev : Value F) (digest : String) :
    Attempted (lineWith (b.fields attempt) seq prev digest) "begin" attempt := by
  have is_kind : kindOf (lineWith (b.fields attempt) seq prev digest) = some "begin" := by
    unfold kindOf lineWith field
    simp only [fieldOf_object]
    rfl
  refine ⟨is_kind, ?_, ?_, ?_⟩
  · unfold lineWith field
    simp only [fieldOf_object]
    rfl
  · apply object_valid is_kind rfl
    show List.Perm ["kind", "attempt", "timestamp", "host", "pid", "boot", "worktree", "branch",
      "invocation", "spec_hash", "family", "bucket", "n_trials", "registry", "ledger", "seq", "prev_hash",
      "line_hash"] beginKeys
    decide +kernel
  · rintro ⟨s, text⟩
    have link : prev = .str s := Option.some.inj (lineWith_prev.symm.trans text)
    exact lineWith_canonical (begin_canonical b attempt) (by rw [link]; exact trivial)

theorem end_line (e : End F) (seq : Int) (prev : Value F) (digest : String) :
    Attempted (lineWith (e.fields floats hash) seq prev digest) "end" e.attempt := by
  have is_kind : kindOf (lineWith (e.fields floats hash) seq prev digest) = some "end" := by
    unfold kindOf lineWith field
    simp only [fieldOf_object]
    rfl
  refine ⟨is_kind, ?_, ?_, ?_⟩
  · unfold lineWith field
    simp only [fieldOf_object]
    rfl
  · apply object_valid is_kind rfl
    show List.Perm ["kind", "attempt", "timestamp", "verdict", "stop", "failed", "metrics",
      "metrics_hash", "seq", "prev_hash", "line_hash"] endKeys
    decide +kernel
  · rintro ⟨s, text⟩
    have link : prev = .str s := Option.some.inj (lineWith_prev.symm.trans text)
    exact lineWith_canonical (end_canonical e) (by rw [link]; exact trivial)

end

/- The chain. -/

section
variable {F : Type} {floats : Floats F} {sameAs : F → Int → Bool} {hash : List Char → String}
  {lines : List (Value F)} {line : Value F} {c c' : Chain}

def attemptOf (line : Value F) : Option Int :=
  match field line "attempt" with
  | some (.int attempt) => some attempt
  | _ => none

/-- A line whose attempt, if it is of one, is an int. -/
def Numbered (line : Value F) : Prop :=
  isBegin line = true ∨ isEnd line = true → ∃ attempt, field line "attempt" = some (.int attempt)

theorem verifyChain_ok (verified : verifyChain floats sameAs hash lines = .ok c) :
    lines.foldlM (verifyLine floats sameAs hash) Chain.start = .ok c := by
  unfold verifyChain at verified
  split at verified
  · cases verified
  · split at verified
    · exact verified
    · cases verified

theorem verifyLine_ok (verified : verifyLine floats sameAs hash c line = .ok c') :
    (∃ s, field line "prev_hash" = some (.str s)) ∧ ∃ mid, verifyAttempt sameAs c line = .ok mid ∧
      c'.begun = mid.begun ∧ c'.opened = mid.opened := by
  unfold verifyLine at verified
  simp only at verified
  split at verified
  · cases verified
  split at verified
  · cases verified
  split at verified
  · cases verified
  rename_i linked
  split at verified
  · cases verified
  constructor
  · unfold fieldIsText at linked
    split at linked
    · rename_i s text
      exact ⟨s, text⟩
    · exact absurd rfl linked
  · cases attempted : verifyAttempt sameAs c line with
    | error e =>
      rw [attempted] at verified
      cases verified
    | ok mid =>
      rw [attempted] at verified
      obtain rfl := Except.ok.inj verified
      exact ⟨mid, rfl, rfl, rfl⟩

/-- The attempts that the lines begin, one after another, and those they end, all of them begun. -/
structure Counted (lines : List (Value F)) (c : Chain) : Prop where
  begins : (lines.filter isBegin).map attemptOf =
    (List.range c.begun).map fun i : Nat => some ((i : Int) + 1)
  ends : ∃ ended : List Int, (lines.filter isEnd).map attemptOf = ended.map some ∧
    (ended ++ c.opened).Perm ((List.range c.begun).map fun i : Nat => (i : Int) + 1)

theorem kind_apart (is_begin : isBegin line = true) : isEnd line = false := by
  unfold isBegin isEnd at *
  rw [decide_eq_true_eq] at is_begin
  rw [is_begin]
  rfl

theorem attemptOf_int {attempt : Int} (int : field line "attempt" = some (.int attempt)) :
    attemptOf line = some attempt := by
  unfold attemptOf
  rw [int]

theorem fieldIs_int {attempt n : Int} (int : field line "attempt" = some (.int attempt)) :
    fieldIs sameAs line "attempt" n = true ↔ attempt = n := by
  unfold fieldIs
  rw [int]
  simp [isNumber]

theorem counted_line (numbered : Numbered line) (counted : Counted lines c)
    (verified : verifyAttempt sameAs c line = .ok c') : Counted (lines ++ [line]) c' := by
  obtain ⟨begins, ended, ends, perm⟩ := counted
  unfold verifyAttempt at verified
  by_cases is_begin : isBegin line = true
  · have not_end := kind_apart is_begin
    obtain ⟨attempt, int⟩ := numbered (.inl is_begin)
    have kind : kindOf line = some "begin" := of_decide_eq_true is_begin
    simp only [if_pos kind] at verified
    split at verified
    · rename_i next
      rw [fieldIs_int int] at next
      obtain rfl := Except.ok.inj verified
      constructor
      · rw [List.filter_append, List.map_append, begins, List.range_succ, List.map_append]
        simp [is_begin, attemptOf_int int, next]
      · refine ⟨ended, ?_, ?_⟩
        · rw [List.filter_append, List.map_append, ends]
          simp [not_end]
        · rw [List.range_succ, List.map_append, ← List.append_assoc]
          exact perm.append_right _
    · cases verified
  · have kind : ¬ kindOf line = some "begin" := fun kind => is_begin (decide_eq_true kind)
    simp only [if_neg kind] at verified
    by_cases is_end : isEnd line = true
    · obtain ⟨attempt, int⟩ := numbered (.inr is_end)
      have end_kind : kindOf line = some "end" := of_decide_eq_true is_end
      simp only [if_pos end_kind, int] at verified
      split at verified
      · rename_i open_attempt found
        obtain rfl := Except.ok.inj verified
        have same : attempt = open_attempt := (fieldIs_int int).mp (by simpa using List.find?_some found)
        subst same
        have there : attempt ∈ c.opened := List.mem_of_find?_eq_some found
        constructor
        · rw [List.filter_append, List.map_append, begins]
          simp [is_begin]
        · refine ⟨ended ++ [attempt], ?_, ?_⟩
          · rw [List.filter_append, List.map_append, ends]
            simp [is_end, attemptOf_int int]
          · rw [List.append_assoc]
            exact ((List.perm_cons_erase there).symm.append_left ended).trans perm
      · cases verified
    · have other : ¬ kindOf line = some "end" := fun kind => is_end (decide_eq_true kind)
      simp only [if_neg other] at verified
      obtain rfl := Except.ok.inj verified
      constructor
      · rw [List.filter_append, List.map_append, begins]
        simp [is_begin]
      · refine ⟨ended, ?_, perm⟩
        rw [List.filter_append, List.map_append, ends]
        simp [is_end]

/-- A chain that verifies numbers its begins from one, and ends each attempt once. -/
theorem chain_counts (numbered : ∀ line ∈ lines, Numbered line)
    (verified : lines.foldlM (verifyLine floats sameAs hash) Chain.start = .ok c) : Counted lines c := by
  induction lines using List.reverseRecOn generalizing c with
  | nil =>
    obtain rfl := Except.ok.inj verified
    exact ⟨rfl, [], rfl, .refl _⟩
  | append_singleton lines line ih =>
    rw [List.foldlM_append, bind_ok] at verified
    obtain ⟨before, earlier, last⟩ := verified
    obtain ⟨next, stepped, same⟩ := bind_ok.mp last
    obtain rfl := Except.ok.inj same
    obtain ⟨-, mid, attempted, begun, opened⟩ := verifyLine_ok stepped
    have counted := ih (fun other mem => numbered other (List.mem_append_left _ mem)) earlier
    have whole := counted_line (numbered line (by simp)) counted attempted
    obtain ⟨begins, ends⟩ := whole
    rw [← begun] at begins ends
    rw [← opened] at ends
    exact ⟨begins, ends⟩

end

/- The file. -/

section
variable {F : Type} {floats : Floats F} {sameAs : F → Int → Bool} {hash : List Char → String}
  {log : Log} {whole : List Char} {records : List (Value F)} {rest : List UInt8} {tear : Option Tear}

/-- A file of whole lines that chain, and of what no newline ends after them. -/
structure Lined (floats : Floats F) (sameAs : F → Int → Bool) (hash : List Char → String)
    (file : List UInt8) (whole : List Char) (records : List (Value F)) (rest : List UInt8) : Prop where
  bytes : file = encode whole ++ rest
  holds : Holds floats logLines whole records
  ended : Ended whole
  chain : ∃ c, verifyChain floats sameAs hash records = .ok c
  numbered : ∀ line ∈ records, Numbered line
  unended : newline ∉ rest

theorem Lined.healed {file : List UInt8} (lined : Lined floats sameAs hash file whole records rest) :
    Lined floats sameAs hash (encode whole) whole records [] :=
  ⟨(List.append_nil _).symm, lined.holds, lined.ended, lined.chain, lined.numbered, List.not_mem_nil⟩

theorem Lined.reads {file : List UInt8} (lined : Lined floats sameAs hash file whole records rest) :
    readLines floats sameAs hash (encode whole) = (.ok records, encode whole) := by
  obtain ⟨c, chain⟩ := lined.chain
  unfold readLines
  rw [holds_reads lined.holds]
  simp only [chain]
  rfl

/-- A read returns the lines and leaves nothing after them, or it stops within its heal. -/
theorem readLocked_lined (tear : Option Tear)
    (lined : Lined floats sameAs hash log.file whole records rest) :
    (∃ copies, readLocked floats sameAs hash tear log = (.ok records, ⟨encode whole, copies⟩)) ∨
      tear.isSome ∧ (readLocked floats sameAs hash tear log).1 = .error .stopped ∧
        ∃ rest', Lined floats sameAs hash (readLocked floats sameAs hash tear log).2.file whole records
          rest' := by
  have reads := lined.reads
  have cut : truncated log.file = encode whole := by
    rw [lined.bytes]
    exact truncated_append lined.ended lined.unended
  unfold readLocked
  split
  · split
    · exact .inr ⟨rfl, rfl, rest, lined⟩
    · refine .inr ⟨rfl, rfl, [], ?_⟩
      simp only [cut]
      exact lined.healed
    · left
      rw [cut, reads]
      exact ⟨log.copies, rfl⟩
  · rename_i closed
    left
    have none : rest = [] := by
      by_contra some
      apply closed
      rw [lined.bytes]
      refine ⟨fun empty => some (List.append_eq_nil_iff.mp empty).2, ?_⟩
      rw [List.getLast?_append_of_ne_nil _ some]
      intro last
      exact lined.unended (List.mem_of_getLast? last)
    have whole_file : log.file = encode whole := by
      rw [lined.bytes, none, List.append_nil]
    rw [whole_file, reads]
    exact ⟨log.copies, rfl⟩

/-- A line that may follow the lines of a file. -/
structure Follows (floats : Floats F) (sameAs : F → Int → Bool) (hash : List Char → String)
    (whole : List Char) (records : List (Value F)) (line : Value F) : Prop where
  holds : Holds floats logLines (whole ++ (dumps floats line ++ ['\n'])) (records ++ [line])
  chain : ∃ c, verifyChain floats sameAs hash (records ++ [line]) = .ok c
  numbered : Numbered line

theorem Attempted.numbered {line : Value F} {kind : String} {attempt : Int}
    (attempted : Attempted line kind attempt) : Numbered line :=
  fun _ => ⟨attempt, attempted.attempt⟩

theorem walked_any (records : List (Value F)) : ∃ w, logLines.assertCrossRecord records = .ok w := by
  induction records using List.reverseRecOn with
  | nil => exact ⟨_, rfl⟩
  | append_singleton records r ih =>
    obtain ⟨w, walked⟩ := ih
    rw [assertCross_concat]
    exact ⟨w, bind_ok.mpr ⟨w, walked, rfl⟩⟩

theorem follows_of {line : Value F} {kind : String} {attempt : Int} {c : Chain}
    (lined : Lined floats sameAs hash (encode whole) whole records [])
    (attempted : Attempted line kind attempt)
    (verified : verifyChain floats sameAs hash (records ++ [line]) = .ok c) :
    Follows floats sameAs hash whole records line := by
  have folded := verifyChain_ok verified
  rw [List.foldlM_append, bind_ok] at folded
  obtain ⟨before, -, last⟩ := folded
  obtain ⟨next, stepped, -⟩ := bind_ok.mp last
  have canonical := attempted.canonical (verifyLine_ok stepped).1
  refine ⟨?_, ⟨c, verified⟩, attempted.numbered⟩
  exact holds_line lined.holds lined.ended (walked_any _) ⟨loads_dumps canonical, attempted.valid⟩

/-- An append raises and leaves the file, or writes its line, whole or a beginning of it. -/
theorem append_lined {fields : List (String × Value F)} {kind : String} {attempt : Int}
    (lined : Lined floats sameAs hash (encode whole) whole records []) (file : log.file = encode whole)
    (attempted : ∀ seq prev digest, Attempted (lineWith fields seq prev digest) kind attempt) :
    (∃ error, append floats sameAs hash tear log records fields = (.error error, log)) ∨
      ∃ line, Attempted line kind attempt ∧ Follows floats sameAs hash whole records line ∧
        (append floats sameAs hash tear log records fields =
          (.ok line, { log with file := encode whole ++ lineOf floats line }) ∨
        ∃ k, tear = some (.line k) ∧ append floats sameAs hash tear log records fields =
          (.error .stopped, { log with file := encode whole ++ (lineOf floats line).take k })) := by
  unfold append
  cases made : nextLine floats hash records fields with
  | error error => exact .inl ⟨error, rfl⟩
  | ok line =>
    simp only
    cases verified : verifyChain floats sameAs hash (records ++ [line]) with
    | error error => exact .inl ⟨error, rfl⟩
    | ok c =>
      right
      obtain ⟨prev, digest, rfl⟩ := nextLine_ok made
      have own := attempted (records.length + 1) prev digest
      refine ⟨_, own, follows_of lined own verified, ?_⟩
      rw [file]
      simp only
      split
      · rename_i k
        exact .inr ⟨k, rfl, rfl⟩
      · exact .inl rfl

theorem Follows.lined {line : Value F} (lined : Lined floats sameAs hash (encode whole) whole records [])
    (follows : Follows floats sameAs hash whole records line) :
    Lined floats sameAs hash (encode whole ++ lineOf floats line)
      (whole ++ (dumps floats line ++ ['\n'])) (records ++ [line]) [] := by
  refine ⟨?_, follows.holds, ended_line _ _, follows.chain, ?_, List.not_mem_nil⟩
  · rw [List.append_nil, encode_append]
    rfl
  · intro other mem
    rcases List.mem_append.mp mem with old | new
    · exact lined.numbered other old
    · rw [List.mem_singleton.mp new]
      exact follows.numbered

/-- A beginning of a line is the line, or no newline ends it. -/
theorem take_line (floats : Floats F) (line : Value F) (k : Nat) : (lineOf floats line).take k = lineOf floats line ∨
    newline ∉ (lineOf floats line).take k := by
  by_cases whole_line : (lineOf floats line).length ≤ k
  · exact .inl (List.take_of_length_le whole_line)
  · right
    have parted : lineOf floats line = encode (dumps floats line) ++ [newline] := by
      unfold lineOf
      rw [encode_append]
      rfl
    rw [parted, List.length_append, List.length_singleton] at whole_line
    rw [parted, List.take_append_of_le_length (by omega)]
    intro mem
    exact newline_encode (dumps_line line) (List.mem_of_mem_take mem)

end

/- The operations. -/

section
variable {F : Type} {floats : Floats F} {sameAs : F → Int → Bool} {hash : List Char → String}
  {log : Log} {whole : List Char} {records : List (Value F)} {rest : List UInt8} {tear : Option Tear}

/-- What an operation that appends makes of a file: it raises and the whole lines are the same, or it
    writes its line, whole or a beginning of it. -/
inductive Outcome (floats : Floats F) (sameAs : F → Int → Bool) (hash : List Char → String)
    (tear : Option Tear) (whole : List Char) (records : List (Value F)) (kind : String) (attempt : Int) :
    Except LogError (Value F) × Log → Prop where
  | raised (error : LogError) (log : Log) (rest : List UInt8)
      (lined : Lined floats sameAs hash log.file whole records rest) :
      Outcome floats sameAs hash tear whole records kind attempt (.error error, log)
  | wrote (line : Value F) (copies : List (List UInt8)) (attempted : Attempted line kind attempt)
      (follows : Follows floats sameAs hash whole records line) :
      Outcome floats sameAs hash tear whole records kind attempt
        (.ok line, ⟨encode whole ++ lineOf floats line, copies⟩)
  | stopped (line : Value F) (copies : List (List UInt8)) (k : Nat) (torn : tear = some (.line k))
      (follows : Follows floats sameAs hash whole records line) :
      Outcome floats sameAs hash tear whole records kind attempt
        (.error .stopped, ⟨encode whole ++ (lineOf floats line).take k, copies⟩)

theorem append_outcome {fields : List (String × Value F)} {kind : String} {attempt : Int}
    {copies : List (List UInt8)}
    (lined : Lined floats sameAs hash (encode whole) whole records [])
    (attempted : ∀ seq prev digest, Attempted (lineWith fields seq prev digest) kind attempt) :
    Outcome floats sameAs hash tear whole records kind attempt
      (append floats sameAs hash tear ⟨encode whole, copies⟩ records fields) := by
  have file : (⟨encode whole, copies⟩ : Log).file = encode whole := rfl
  rcases append_lined lined file attempted with ⟨error, raised⟩ | ⟨line, own, follows, wrote | stopped⟩
  · rw [raised]
    exact .raised error _ [] lined
  · rw [wrote]
    exact .wrote line copies own follows
  · obtain ⟨k, torn, stopped⟩ := stopped
    rw [stopped]
    exact .stopped line copies k torn follows

theorem begin_outcome (tear : Option Tear)
    (lined : Lined floats sameAs hash log.file whole records rest) (b : Begin F) :
    Outcome floats sameAs hash tear whole records "begin" (records.countP isBegin + 1)
      (begin floats sameAs hash tear log b) := by
  unfold begin
  rcases readLocked_lined tear lined with ⟨copies, read⟩ | ⟨-, stopped, rest', lined'⟩
  · rw [read]
    simp only
    split
    · exact append_outcome lined.healed (begin_line b _)
    · exact .raised .notAdmitted _ [] lined.healed
  · generalize readLocked floats sameAs hash tear log = out at *
    obtain ⟨result, after⟩ := out
    subst stopped
    exact .raised .stopped after rest' lined'

theorem ends_outcome (tear : Option Tear)
    (lined : Lined floats sameAs hash log.file whole records rest) (e : End F) :
    Outcome floats sameAs hash tear whole records "end" e.attempt
      (ends floats sameAs hash tear log e) := by
  unfold ends
  rcases readLocked_lined tear lined with ⟨copies, read⟩ | ⟨-, stopped, rest', lined'⟩
  · rw [read]
    simp only
    split
    · exact .raised _ _ [] lined.healed
    · exact append_outcome lined.healed (end_line e)
  · generalize readLocked floats sameAs hash tear log = out at *
    obtain ⟨result, after⟩ := out
    subst stopped
    exact .raised .stopped after rest' lined'

/-- What a session keeps: the lines that were returned are among the log's, each on its own line, and
    the attempts that were returned ascend to no more than were begun. -/
structure Session.Sane (floats : Floats F) (sameAs : F → Int → Bool) (hash : List Char → String)
    (s : Session F) (whole : List Char) (records : List (Value F)) (rest : List UInt8) : Prop where
  lined : Lined floats sameAs hash s.log.file whole records rest
  returned : s.returned.Sublist records
  lines : ∀ line ∈ s.returned, LineIn floats whole line
  attempts : s.attempts.map some = (s.returned.filter isBegin).map attemptOf
  ascending : s.attempts.Pairwise (· < ·)
  begun : ∀ attempt ∈ s.attempts, attempt ≤ records.countP isBegin

theorem lineIn_further {whole : List Char} {line : Value F} (there : LineIn floats whole line)
    (more : List Char) : LineIn floats (whole ++ more) line := by
  obtain ⟨before, after, parted, ended⟩ := there
  refine ⟨before, after ++ more, ?_, ended⟩
  rw [parted]
  simp only [List.append_assoc]

/-- The session after a line that was written, whether or not its operation returned. -/
theorem Session.Sane.extend {s : Session F} {line : Value F} (log : Log)
    (sane : s.Sane floats sameAs hash whole records rest)
    (follows : Follows floats sameAs hash whole records line)
    (file : log.file = encode whole ++ lineOf floats line) :
    ({ s with log } : Session F).Sane floats sameAs hash (whole ++ (dumps floats line ++ ['\n']))
      (records ++ [line]) [] := by
  refine ⟨?_, sane.returned.trans (List.sublist_append_left _ _), ?_, sane.attempts, sane.ascending, ?_⟩
  · rw [file]
    exact follows.lined sane.lined.healed
  · exact fun other mem => lineIn_further (sane.lines other mem) _
  · intro attempt mem
    have below := sane.begun attempt mem
    rw [List.countP_append]
    push_cast
    omega

/-- What a step leaves of the whole lines, where its operation raised for another reason than a line
    that it did not write to its end. -/
def Untouched (tear : Option Tear) (error : Option LogError) (whole whole' : List Char) : Prop :=
  ∀ e, error = some e → (e = .stopped → ∀ k, tear ≠ some (.line k)) → whole' = whole

theorem sane_stopped {s : Session F} {line : Value F} {k : Nat} {copies : List (List UInt8)}
    (sane : s.Sane floats sameAs hash whole records rest)
    (follows : Follows floats sameAs hash whole records line) (torn : tear = some (.line k)) :
    ∃ whole' records' rest', ({ s with log := ⟨encode whole ++ (lineOf floats line).take k, copies⟩ } :
      Session F).Sane floats sameAs hash whole' records' rest' ∧ whole <+: whole' ∧
        Untouched tear (some .stopped) whole whole' := by
  have touched : ∀ whole', Untouched tear (some .stopped) whole whole' := by
    intro whole' e same apart
    exact absurd torn (apart (Option.some.inj same).symm k)
  rcases take_line floats line k with all | part
  · rw [all]
    exact ⟨_, _, [], sane.extend _ follows rfl, List.prefix_append _ _, touched _⟩
  · refine ⟨whole, records, (lineOf floats line).take k, ?_, List.prefix_rfl, touched _⟩
    refine ⟨?_, sane.returned, sane.lines, sane.attempts, sane.ascending, sane.begun⟩
    exact ⟨rfl, sane.lined.holds, sane.lined.ended, sane.lined.chain, sane.lined.numbered, part⟩

theorem Session.Sane.step {s : Session F} (sane : s.Sane floats sameAs hash whole records rest)
    (tear : Option Tear) (operation : Operation F) : ∃ whole' records' rest',
      (s.step floats sameAs hash tear operation).2.Sane floats sameAs hash whole' records' rest' ∧
        whole <+: whole' ∧
          Untouched tear (s.step floats sameAs hash tear operation).1 whole whole' := by
  have same_lines {log : Log} {rest' : List UInt8}
      (lined : Lined floats sameAs hash log.file whole records rest') :
      ({ s with log } : Session F).Sane floats sameAs hash whole records rest' :=
    ⟨lined, sane.returned, sane.lines, sane.attempts, sane.ascending, sane.begun⟩
  cases operation with
  | looks =>
    refine ⟨whole, records, ?_⟩
    unfold Session.step
    rcases readLocked_lined tear sane.lined with ⟨copies, read⟩ | ⟨-, stopped, rest', lined'⟩
    · rw [read]
      exact ⟨[], same_lines sane.lined.healed, List.prefix_rfl, fun _ _ _ => rfl⟩
    · generalize readLocked floats sameAs hash tear s.log = out at *
      obtain ⟨result, after⟩ := out
      subst stopped
      exact ⟨rest', same_lines lined', List.prefix_rfl, fun _ _ _ => rfl⟩
  | begins b =>
    simp only [Session.step]
    have outcome := begin_outcome tear sane.lined b
    generalize begin floats sameAs hash tear s.log b = out at *
    cases outcome with
    | raised error log rest' lined =>
      exact ⟨whole, records, rest', same_lines lined, List.prefix_rfl, fun _ _ _ => rfl⟩
    | stopped line copies k torn follows => exact sane_stopped sane follows torn
    | wrote line copies attempted follows =>
      have extended := sane.extend ⟨encode whole ++ lineOf floats line, copies⟩ follows rfl
      have is_begin : isBegin line = true := decide_eq_true attempted.kind
      refine ⟨whole ++ (dumps floats line ++ ['\n']), records ++ [line], [], ?_, List.prefix_append _ _,
        fun _ raised => nomatch raised⟩
      simp only [attempted.attempt, Option.elim_some]
      refine ⟨extended.lined, sane.returned.append_right [line], ?_, ?_, ?_, ?_⟩
      · intro other mem
        rcases List.mem_append.mp mem with old | new
        · exact extended.lines other old
        · rw [List.mem_singleton.mp new]
          exact ⟨whole, [], by rw [List.append_nil], sane.lined.ended⟩
      · rw [List.filter_append, List.map_append, List.map_append, sane.attempts]
        simp [is_begin, attemptOf_int attempted.attempt]
      · rw [List.pairwise_append]
        refine ⟨sane.ascending, List.pairwise_singleton _ _, ?_⟩
        intro attempt mem next last
        have below := sane.begun attempt mem
        obtain rfl := List.mem_singleton.mp last
        omega
      · intro attempt mem
        rw [List.countP_append]
        rcases List.mem_append.mp mem with old | new
        · have below := sane.begun attempt old
          push_cast
          omega
        · obtain rfl := List.mem_singleton.mp new
          simp [is_begin]
  | ends e =>
    simp only [Session.step]
    have outcome := ends_outcome tear sane.lined e
    generalize ends floats sameAs hash tear s.log e = out at *
    cases outcome with
    | raised error log rest' lined =>
      exact ⟨whole, records, rest', same_lines lined, List.prefix_rfl, fun _ _ _ => rfl⟩
    | stopped line copies k torn follows => exact sane_stopped sane follows torn
    | wrote line copies attempted follows =>
      have extended := sane.extend ⟨encode whole ++ lineOf floats line, copies⟩ follows rfl
      have not_begin : isBegin line = false := by
        unfold isBegin
        rw [attempted.kind]
        rfl
      refine ⟨whole ++ (dumps floats line ++ ['\n']), records ++ [line], [], ?_, List.prefix_append _ _,
        fun _ raised => nomatch raised⟩
      refine ⟨extended.lined, sane.returned.append_right [line], ?_, ?_, sane.ascending, extended.begun⟩
      · intro other mem
        rcases List.mem_append.mp mem with old | new
        · exact extended.lines other old
        · rw [List.mem_singleton.mp new]
          exact ⟨whole, [], by rw [List.append_nil], sane.lined.ended⟩
      · show s.attempts.map some = _
        rw [List.filter_append, List.map_append, sane.attempts]
        simp [not_begin]

end

/- The whole of a session. -/

section
variable {F : Type} {floats : Floats F} {sameAs : F → Int → Bool} {hash : List Char → String}

theorem filter_put (key : String) (v : Value F) (members : List (String × Value F)) :
    (put key v members).filter (fun m => m.1 ≠ key) = members.filter fun m => m.1 ≠ key := by
  induction members with
  | nil => simp [put]
  | cons m members ih =>
    obtain ⟨k, w⟩ := m
    unfold put
    split
    · rename_i same
      subst same
      simp
    · split
      · simp
      · rw [List.filter_cons, List.filter_cons, ih]

theorem without_genesis (logId host timestamp digest : String) :
    without "line_hash" (.obj (put "line_hash" (.str digest) (object
      (genesisFields (F := F) logId host timestamp)))) = .obj (object (genesisFields logId host timestamp)) := by
  simp only [without]
  rw [filter_put, List.filter_eq_self.mpr]
  intro m mem
  rw [decide_eq_true_eq]
  intro same
  have listed := (mem_object_keys (genesisFields logId host timestamp)).mp ⟨m, mem, same⟩
  exact absurd listed (show "line_hash" ∉ ["seq", "kind", "log_id", "host", "timestamp", "prev_hash"]
    by decide)

theorem genesis_object (logId host timestamp : String) :
    genesisLine floats hash logId host timestamp = .obj (object (genesisFields logId host timestamp ++
      [("line_hash", .str (hash (dumps floats (.obj (object (genesisFields logId host timestamp))))))])) := by
  rw [object_concat]
  rfl

theorem genesis_field (logId host timestamp key : String) (other : key ≠ "line_hash") :
    field (genesisLine floats hash logId host timestamp) key =
      fieldOf (object (genesisFields logId host timestamp)) key := by
  simp only [genesisLine, field, fieldOf_put, if_neg other]

theorem genesis_kind (logId host timestamp : String) :
    kindOf (genesisLine floats hash logId host timestamp) = some "genesis" := by
  unfold kindOf
  rw [genesis_field _ _ _ _ (by decide), fieldOf_object]
  rfl

theorem genesis_verifies (logId host timestamp : String) : ∃ c,
    verifyChain floats sameAs hash [genesisLine floats hash logId host timestamp] = .ok c := by
  have kind : kindOf (genesisLine floats hash logId host timestamp) = some "genesis" :=
    genesis_kind logId host timestamp
  have seq : fieldIs sameAs (genesisLine floats hash logId host timestamp) "seq" (1 : Nat) = true := by
    unfold fieldIs
    rw [genesis_field _ _ _ _ (by decide), fieldOf_object]
    rfl
  have prev : fieldIsText (genesisLine floats hash logId host timestamp) "prev_hash" genesisHash =
      true := by
    unfold fieldIsText
    rw [genesis_field _ _ _ _ (by decide), fieldOf_object]
    simp [genesisFields]
  have digest : fieldIsText (genesisLine floats hash logId host timestamp) "line_hash"
      (hash (dumps floats (without "line_hash" (genesisLine floats hash logId host timestamp)))) =
        true := by
    unfold fieldIsText genesisLine
    rw [without_genesis]
    simp only [field, fieldOf_put, if_true, decide_true]
  refine ⟨⟨1, hash (dumps floats (without "line_hash" (genesisLine floats hash logId host timestamp))), 0,
    []⟩, ?_⟩
  have verified : verifyLine floats sameAs hash Chain.start
      (genesisLine floats hash logId host timestamp) = .ok ⟨1, hash (dumps floats (without "line_hash"
        (genesisLine floats hash logId host timestamp))), 0, []⟩ := by
    unfold verifyLine
    simp only [Chain.start, Nat.zero_add, seq, prev, digest]
    rw [if_neg (by simp), if_neg (by simp), if_neg (by simp), if_neg (by simp)]
    unfold verifyAttempt
    rw [if_neg (by rw [kind]; decide), if_neg (by rw [kind]; decide)]
    rfl
  simp only [verifyChain, if_pos kind]
  exact bind_ok.mpr ⟨_, verified, rfl⟩

theorem genesis_record (logId host timestamp : String) :
    IsRecord floats logLines (dumps floats (genesisLine floats hash logId host timestamp))
      (genesisLine floats hash logId host timestamp) := by
  constructor
  · apply loads_dumps
    refine sorted_put (show Value.Canonical (.str _) from trivial) (sorted_object ?_)
    intro f mem
    simp only [genesisFields, List.mem_cons, List.not_mem_nil, or_false] at mem
    rcases mem with rfl | rfl | rfl | rfl | rfl | rfl <;> exact trivial
  · show validateLine _ = true
    rw [genesis_object]
    have kind : kindOf (genesisLine floats hash logId host timestamp) = some "genesis" :=
      genesis_kind logId host timestamp
    rw [genesis_object] at kind
    exact object_valid kind rfl (.refl _)

/-- The line of a new log stands for a log. -/
theorem created_lined (logId host timestamp : String) :
    Lined floats sameAs hash (initLog floats hash logId host timestamp).file
      ([] ++ (dumps floats (genesisLine floats hash logId host timestamp) ++ ['\n']))
      [genesisLine floats hash logId host timestamp] [] := by
  have empty : Holds floats logLines [] ([] : List (Value F)) := ⟨.nil, _, rfl⟩
  have record : IsRecord floats logLines (dumps floats (genesisLine floats hash logId host timestamp))
      (genesisLine floats hash logId host timestamp) := genesis_record logId host timestamp
  have holds := holds_line empty (.inl rfl) (walked_any _) record
  refine ⟨?_, holds, ended_line _ _, genesis_verifies logId host timestamp, ?_, List.not_mem_nil⟩
  · rw [List.append_nil]
    rfl
  · intro other mem kind
    rw [List.mem_singleton.mp mem] at kind
    unfold isBegin isEnd at kind
    rw [genesis_kind] at kind
    exact absurd kind (by decide)

theorem created_sane (logId host timestamp : String) :
    ∃ whole records, (Session.created floats hash logId host timestamp).Sane floats sameAs hash
      whole records [] := by
  have line : (Session.created floats hash logId host timestamp).returned =
      [genesisLine floats hash logId host timestamp] := rfl
  have not_begin : isBegin (genesisLine floats hash logId host timestamp) = false := by
    unfold isBegin
    rw [genesis_kind]
    rfl
  refine ⟨_, _, created_lined logId host timestamp, ?_, ?_, ?_, ?_, ?_⟩
  · rw [line]
  · rw [line]
    intro other mem
    rw [List.mem_singleton.mp mem]
    exact ⟨[], [], by rw [List.append_nil], .inl rfl⟩
  · rw [line, List.filter_cons_of_neg (by simp [not_begin])]
    rfl
  · exact List.Pairwise.nil
  · intro attempt mem
    cases mem

theorem Session.Sane.run {s : Session F} (sane : ∃ whole records rest,
    s.Sane floats sameAs hash whole records rest) (calls : List (Option Tear × Operation F)) :
    ∃ whole records rest, (s.run floats sameAs hash calls).Sane floats sameAs hash whole records rest := by
  induction calls generalizing s with
  | nil => exact sane
  | cons call calls ih =>
    obtain ⟨whole, records, rest, sane⟩ := sane
    obtain ⟨whole', records', rest', next, -⟩ := sane.step call.1 call.2
    exact ih ⟨whole', records', rest', next⟩

/-- A session whose log heals to these lines, a chain of whole lines. Those that were returned are among
    them, on lines of their own; its attempts count from one; and each is ended once, or is open. -/
structure Session.Valid (floats : Floats F) (sameAs : F → Int → Bool) (hash : List Char → String)
    (s : Session F) (lines : List (Value F)) : Prop where
  heals : ∃ copies, readLocked floats sameAs hash none s.log = (.ok lines, ⟨truncated s.log.file, copies⟩)
  rereads : readLines floats sameAs hash (truncated s.log.file) = (.ok lines, truncated s.log.file)
  chain : ∃ c, verifyChain floats sameAs hash lines = .ok c
  returned : s.returned.Sublist lines
  kept : ∀ line ∈ s.returned, CompleteLine (lineOf floats line) (some s.log.file)
  begins : (lines.filter isBegin).map attemptOf =
    (List.range (lines.countP isBegin)).map fun i : Nat => some ((i : Int) + 1)
  handed : s.attempts.map some = (s.returned.filter isBegin).map attemptOf
  once : s.attempts.Pairwise (· < ·)
  ends : ∃ ended : List Int, (lines.filter isEnd).map attemptOf = ended.map some ∧ ended.Nodup ∧
    ∀ attempt ∈ ended, 1 ≤ attempt ∧ attempt ≤ lines.countP isBegin

theorem counted_ends {lines : List (Value F)} {c : Chain} (counted : Counted lines c) :
    c.begun = lines.countP isBegin ∧ ∃ ended : List Int,
      (lines.filter isEnd).map attemptOf = ended.map some ∧ ended.Nodup ∧
        ∀ attempt ∈ ended, 1 ≤ attempt ∧ attempt ≤ lines.countP isBegin := by
  obtain ⟨begins, ended, ends, perm⟩ := counted
  have begun : c.begun = lines.countP isBegin := by
    have lengths := congrArg List.length begins
    rw [List.length_map, List.length_map, List.length_range, ← List.countP_eq_length_filter] at lengths
    exact lengths.symm
  refine ⟨begun, ended, ends, ?_, ?_⟩
  · have numbers : ((List.range c.begun).map fun i : Nat => (i : Int) + 1).Nodup := by
      refine List.Pairwise.map _ ?_ List.nodup_range
      intro i j apart same
      omega
    exact (List.nodup_append.mp (perm.nodup_iff.mpr numbers)).1
  · intro attempt mem
    have there := perm.mem_iff.mp (List.mem_append_left c.opened mem)
    obtain ⟨i, below, rfl⟩ := List.mem_map.mp there
    rw [List.mem_range, begun] at below
    omega

theorem Session.Sane.valid {s : Session F} {whole : List Char} {records : List (Value F)}
    {rest : List UInt8} (sane : s.Sane floats sameAs hash whole records rest) :
    truncated s.log.file = encode whole ∧ s.Valid floats sameAs hash records := by
  have lined := sane.lined
  have cut : truncated s.log.file = encode whole := by
    rw [lined.bytes]
    exact truncated_append lined.ended lined.unended
  obtain ⟨c, chain⟩ := lined.chain
  have counted := chain_counts lined.numbered (verifyChain_ok chain)
  obtain ⟨begun, ends⟩ := counted_ends counted
  refine ⟨cut, ?_, ?_, ⟨c, chain⟩, sane.returned, ?_, ?_, sane.attempts, sane.ascending, ends⟩
  · rw [cut]
    rcases readLocked_lined none lined with healed | ⟨torn, -⟩
    · exact healed
    · cases torn
  · rw [cut]
    exact lined.reads
  · intro line mem
    obtain ⟨before, after, parted, ended⟩ := sane.lines line mem
    refine ⟨encode before, encode after ++ rest, ?_, ended_byte ended⟩
    rw [lined.bytes, parted, encode_append, encode_append]
    simp only [lineOf, List.append_assoc]
  · rw [← begun]
    exact counted.begins

/-- Whatever a further operation does with the log, and wherever it stops, it keeps the whole lines, and it
    adds none to them where it raises for another reason than a line that it did not write to its end. -/
def Session.Keeps (floats : Floats F) (sameAs : F → Int → Bool) (hash : List Char → String)
    (s : Session F) : Prop :=
  ∀ (tear : Option Tear) (operation : Operation F),
    truncated s.log.file <+: truncated (s.step floats sameAs hash tear operation).2.log.file ∧
    ∀ error, (s.step floats sameAs hash tear operation).1 = some error →
      (error = .stopped → ∀ k, tear ≠ some (.line k)) →
        truncated (s.step floats sameAs hash tear operation).2.log.file = truncated s.log.file

theorem Session.Sane.keeps {s : Session F} {whole : List Char} {records : List (Value F)}
    {rest : List UInt8} (sane : s.Sane floats sameAs hash whole records rest) :
    s.Keeps floats sameAs hash := by
  intro tear operation
  obtain ⟨whole', records', rest', next, further, untouched⟩ := sane.step tear operation
  rw [sane.valid.1, next.valid.1]
  constructor
  · obtain ⟨more, rfl⟩ := further
    rw [encode_append]
    exact List.prefix_append _ _
  · intro error raised apart
    rw [untouched error raised apart]

/-- Whatever the processes have done with a log, and wherever their operations stopped, it heals to a chain
    with every line that was returned, and the next operation keeps its whole lines. -/
theorem attempts_log_valid (logId host timestamp : String) (calls : List (Option Tear × Operation F)) :
    (∃ lines, ((Session.created floats hash logId host timestamp).run floats sameAs hash calls).Valid
      floats sameAs hash lines) ∧
    ((Session.created floats hash logId host timestamp).run floats sameAs hash calls).Keeps
      floats sameAs hash := by
  have start : ∃ whole records rest, (Session.created floats hash logId host timestamp).Sane floats sameAs
      hash whole records rest := by
    obtain ⟨whole, records, sane⟩ := created_sane logId host timestamp
    exact ⟨whole, records, [], sane⟩
  obtain ⟨whole, records, rest, sane⟩ := Session.Sane.run start calls
  exact ⟨⟨records, sane.valid.2⟩, sane.keeps⟩

end

end Attempts
