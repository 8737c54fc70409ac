import Zcrypto.Registry.Attempts
import Zcrypto.Registry.Reconcile

/- The checks of one stored record and of one stored reading. What the texts of their errors say is left
   out. Which doubles are which integers is a parameter, and so are the digest and the decimal digits
   that are no ASCII ones. -/
namespace Registry
open JsonText Attempts

section
variable {F : Type}

/- Forms of a value. -/

def nullOr (form : Value F → Bool) : Value F → Bool
  | .null => true
  | v => form v

def isText : Value F → Bool
  | .str _ => true
  | _ => false

def isFilledText : Value F → Bool
  | .str s => s ≠ ""
  | _ => false

def isIntFrom (least : Int) : Value F → Bool
  | .int z => least ≤ z
  | _ => false

def isHexText (length : Nat) : Value F → Bool
  | .str s => Reconcile.isHex length s
  | _ => false

def isOneOf (texts : List String) : Value F → Bool
  | .str s => s ∈ texts
  | _ => false

def isTextPair : Value F → Bool
  | .arr [.str _, .str _] => true
  | _ => false

/-- A list whose items are all of a form. -/
def isListOf (form : Value F → Bool) : Value F → Bool
  | .arr items => items.all form
  | _ => false

/-- What an object has under a key is of a form. -/
def at_ (members : List (String × Value F)) (key : String) (form : Value F → Bool) : Bool :=
  (fieldOf members key).any form

/-- As above, where the key may be missing. -/
def atIfAny (members : List (String × Value F)) (key : String) (form : Value F → Bool) : Bool :=
  (fieldOf members key).all form

/- Metrics. -/

/-- Whether an integer is one that a double can be. -/
def isFiniteInt (z : Int) : Bool := z.natAbs < 2 ^ 1024 - 2 ^ 970

mutual
def assertFinite : Value F → Bool
  | .obj members => membersFinite members
  | .arr items => itemsFinite items
  | .int z => isFiniteInt z
  | .float _ => true
  | _ => false

def itemsFinite : List (Value F) → Bool
  | [] => true
  | v :: rest => assertFinite v && itemsFinite rest

def membersFinite : List (String × Value F) → Bool
  | [] => true
  | (_, v) :: rest => assertFinite v && membersFinite rest
end

def validateMetrics (metrics : Value F) : Bool := filled metrics && assertFinite metrics

/- The attempt. -/

def absorbedKeys : List String := ["id", "begin"]
def readingAttemptKeys : List String := ["log", "id", "begin", "absorbs"]
def recordAttemptKeys : List String := readingAttemptKeys ++ ["counted"]

def countedKeys : List String :=
  ["log", "id", "begin", "family", "subject", "spec_hash", "verdict", "metrics"]

def idOf (v : Value F) : Option Int :=
  match field v "id" with
  | some (.int z) => some z
  | _ => none

def logOf (v : Value F) : Option String :=
  match field v "log" with
  | some (.str s) => some s
  | _ => none

def itemsAt (members : List (String × Value F)) (key : String) : List (Value F) :=
  match fieldOf members key with
  | some (.arr items) => items
  | _ => []

def validateAbsorbed (own : Option Int) : Value F → Bool
  | .obj members => keysAre members absorbedKeys &&
      (at_ members "id" fun v => isIntFrom 1 v && match v, own with
        | .int z, some id => z < id
        | _, _ => false) && at_ members "begin" (isHexText 64)
  | _ => false

def validateAttemptReference (members : List (String × Value F)) : Bool :=
  at_ members "log" (isHexText 32) && at_ members "id" (isIntFrom 1) &&
    at_ members "begin" (isHexText 64) &&
    at_ members "absorbs" (isListOf (validateAbsorbed (idOf (.obj members)))) &&
    ((itemsAt members "absorbs").map idOf).Nodup

def validateCounted : Value F → Bool
  | .obj members => keysAre members countedKeys && at_ members "log" (isHexText 32) &&
      at_ members "id" (isIntFrom 1) && at_ members "begin" (isHexText 64) &&
      at_ members "spec_hash" (isHexText 64) && at_ members "family" isFilledText &&
      at_ members "subject" isFilledText && at_ members "verdict" (isOneOf verdicts) &&
      at_ members "metrics" validateMetrics
  | _ => false

/-- Distinct (log, id) pairs, none the record's own attempt or one it absorbs. -/
def countedApart (members : List (String × Value F)) : Bool :=
  let own := Value.obj members
  let pairs := (itemsAt members "counted").map fun entry => (logOf entry, idOf entry)
  let absorbed := (itemsAt members "absorbs").map idOf
  pairs.Nodup && pairs.all fun pair => pair ≠ (logOf own, idOf own) &&
    (pair.1 ≠ logOf own || pair.2 ∉ absorbed)

def validateRecordAttempt : Value F → Bool
  | .obj members => keysAre members recordAttemptKeys && validateAttemptReference members &&
      at_ members "counted" (isListOf validateCounted) && countedApart members
  | _ => false

def validateReadingAttempt : Value F → Bool
  | .null => true
  | .obj members => keysAre members readingAttemptKeys && validateAttemptReference members
  | _ => false

/- The datasets and the invocation. -/

/-- By its form, and with no look at a disk. -/
def isRelativePosixPath (path : String) : Bool :=
  path ≠ "" && path.toList.head? ≠ some '/' && '\\' ∉ path.toList &&
    ['.', '.'] ∉ path.toList.splitOn '/'

def datasetKeys : List String := ["files", "rows", "span"]

def validateFiles : Value F → Bool
  | .obj files => !files.isEmpty && files.all fun (path, digest) =>
      isRelativePosixPath path && isHexText 64 digest
  | _ => false

def validateDataset : Value F → Bool
  | .obj block => keysAre block datasetKeys && at_ block "files" validateFiles &&
      at_ block "rows" (isIntFrom 1) && at_ block "span" isTextPair
  | _ => false

def validateDatasetsShape : Value F → Bool
  | .obj datasets => !datasets.isEmpty && datasets.all fun (name, block) =>
      isRelativePosixPath name && validateDataset block
  | _ => false

def invocationKeys : List String :=
  ["subject", "dataset", "window", "as_of", "accept_holes", "comparator_trial", "commit"]

variable (isDecimal : Char → Bool)

def isDay : Value F → Bool
  | .str s =>
    match s.toList with
    | [a, b, c, d, '-', e, f, '-', g, h] => [a, b, c, d, e, f, g, h].all isDecimal
    | _ => false
  | _ => false

def isKeyOf (datasets : Option (Value F)) : Value F → Bool
  | .str s => match datasets with
    | some (.obj members) => members.any fun m => m.1 = s
    | _ => false
  | _ => false

def isBelow (own : Option Int) : Value F → Bool
  | .int z => own.all fun id => z < id
  | _ => false

/-- The invocation of a record, whose comparator is an earlier trial, or of a reading. -/
def validateInvocation (datasets : Option (Value F)) (own : Option Int) : Value F → Bool
  | .obj members => keysAre members invocationKeys && at_ members "subject" isFilledText &&
      at_ members "dataset" (isKeyOf datasets) && at_ members "window" (nullOr isTextPair) &&
      at_ members "as_of" (nullOr (isDay isDecimal)) &&
      at_ members "accept_holes" (fun | .bool _ => true | _ => false) &&
      at_ members "comparator_trial" (nullOr fun v => isIntFrom 1 v && isBelow own v) &&
      at_ members "commit" (isHexText 40)
  | _ => false

/- A stored record. -/

def baseStoredKeys : List String :=
  ["trial_id", "schema_version", "timestamp", "prev_hash", "record_hash", "dataset_hash", "iteration",
    "family", "spec_hash", "seeds", "metrics", "n_trials_in_family", "verdict", "run_ref", "notes"]

def expectedStoredKeys (version : Int) : List String :=
  baseStoredKeys ++ (if version ≥ 3 then ["variant"] else []) ++
    (if version ≥ 4 then ["datasets"] else []) ++ (if version ≥ 5 then ["invocation"] else []) ++
    if version ≥ 6 then ["attempt"] else []

def loadableSchemaVersions : List Int := [2, 3, 4, 5, 6]

/-- The fields that a caller gives, as a stored record has them. -/
def validateCallerFields (members : List (String × Value F)) : Bool :=
  at_ members "iteration" isFilledText && at_ members "family" isFilledText &&
    at_ members "spec_hash" isFilledText &&
    at_ members "seeds" (isListOf fun | .int _ => true | _ => false) &&
    at_ members "metrics" validateMetrics && at_ members "n_trials_in_family" (isIntFrom 1) &&
    at_ members "verdict" (isOneOf verdicts) && atIfAny members "run_ref" (nullOr isText) &&
    atIfAny members "variant" (nullOr isFilledText) && atIfAny members "notes" isText

variable (floats : Floats F) (sameAs : F → Int → Bool) (hash : List Char → String)

def computeHash (fields : Value F) : String := hash (dumps floats fields)

/-- The hash under a key is that of the fields but for it. -/
def hashIsOfBody (members : List (String × Value F)) : Bool :=
  fieldIsText (.obj members) "record_hash" (computeHash floats hash (without "record_hash" (.obj members)))

def isHashText : Value F → Bool
  | .str s => s.toList.length = 64
  | _ => false

def datasetHashIsOfDatasets (members : List (String × Value F)) : Bool :=
  (fieldOf members "datasets").any fun datasets =>
    fieldIsText (.obj members) "dataset_hash" (computeHash floats hash datasets)

def trialIdOf (members : List (String × Value F)) : Option Int :=
  match fieldOf members "trial_id" with
  | some (.int z) => some z
  | _ => none

def validateStoredRecord : Value F → Bool
  | .obj members =>
    match loadableSchemaVersions.find? (fieldIs sameAs (.obj members) "schema_version") with
    | none => false
    | some version =>
      members.all (fun m => m.1 ∈ expectedStoredKeys version) &&
        baseStoredKeys.all (fun key => members.any fun m => m.1 = key) &&
        atIfAny members "variant" isText && hashIsOfBody floats hash members &&
        at_ members "prev_hash" isHashText && (trialIdOf members).isSome &&
        at_ members "dataset_hash" isFilledText &&
        (version < 4 || (at_ members "datasets" validateDatasetsShape &&
          datasetHashIsOfDatasets floats hash members)) &&
        (version < 5 || at_ members "invocation"
          (validateInvocation isDecimal (fieldOf members "datasets") (trialIdOf members))) &&
        (version < 6 || at_ members "attempt" validateRecordAttempt) &&
        validateCallerFields members
  | _ => false

/- A stored reading. -/

def readingKeys : List String :=
  ["reading_id", "schema_version", "timestamp", "prev_hash", "record_hash", "dataset_hash", "iteration",
    "spec_hash", "invocation", "datasets", "metrics", "outcome", "notes"]

def readingKeysAt (version : Int) : Option (List String) :=
  if version = 1 then some readingKeys
  else if version = 2 then some (readingKeys ++ ["attempt"])
  else none

def validateReadingFields (members : List (String × Value F)) : Bool :=
  at_ members "iteration" isFilledText && at_ members "spec_hash" isFilledText &&
    at_ members "datasets" validateDatasetsShape &&
    at_ members "invocation" (validateInvocation isDecimal (fieldOf members "datasets") none) &&
    at_ members "metrics" validateMetrics && at_ members "outcome" (nullOr isFilledText) &&
    at_ members "notes" isText && atIfAny members "attempt" validateReadingAttempt

def validateStoredReading : Value F → Bool
  | .obj members =>
    match fieldOf members "schema_version" with
    | some (.int version) =>
      match readingKeysAt version with
      | none => false
      | some keys =>
        keysAre members keys && hashIsOfBody floats hash members &&
          at_ members "prev_hash" isHashText &&
          at_ members "reading_id" (fun | .int _ => true | _ => false) &&
          validateReadingFields isDecimal members && datasetHashIsOfDatasets floats hash members
    | _ => false
  | _ => false

/-- The stores' checks of a stored line, beside whatever they check of a caller. -/
def checkedBy (callers : Validators F) : Validators F :=
  { callers with
    storedRecord := validateStoredRecord isDecimal floats sameAs hash
    storedReading := validateStoredReading isDecimal floats hash }

/-- What the checks of a line say of its hash. -/
theorem hashIsOfBody_ok {members : List (String × Value F)} (is : hashIsOfBody floats hash members = true) :
    fieldOf members "record_hash" =
      some (.str (hash (dumps floats (.obj (members.filter fun m => m.1 ≠ "record_hash"))))) := by
  unfold hashIsOfBody fieldIsText at is
  split at is
  · rename_i s found
    rw [decide_eq_true_eq] at is
    rw [is] at found
    exact found
  · cases is

theorem storedRecord_hash {record : Value F}
    (valid : validateStoredRecord isDecimal floats sameAs hash record = true) :
    ∃ members, record = .obj members ∧ hashIsOfBody floats hash members = true := by
  unfold validateStoredRecord at valid
  split at valid
  · rename_i members
    split at valid
    · cases valid
    · simp only [Bool.and_eq_true] at valid
      exact ⟨members, rfl, by tauto⟩
  · cases valid

theorem storedReading_hash {record : Value F}
    (valid : validateStoredReading isDecimal floats hash record = true) :
    ∃ members, record = .obj members ∧ hashIsOfBody floats hash members = true := by
  unfold validateStoredReading at valid
  split at valid
  · rename_i members
    split at valid
    · split at valid
      · cases valid
      · simp only [Bool.and_eq_true] at valid
        exact ⟨members, rfl, by tauto⟩
    · cases valid
  · cases valid

end

end Registry
