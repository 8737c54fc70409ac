import Zcrypto.Registry.Store

/- The trial-attempts log: one hash-chained file, which every operation reads, heals and appends to
   under the file's lock. The digest is a parameter, and so is whether a double is an integer. The
   lines of a refusal's text are left out, and so is what a host says of its processes. -/
namespace Attempts
open JsonText TextFile Registry

/-- Why an operation raises. -/
inductive LogError where
  | noGenesis
  | secondGenesis (line : Nat)
  | seq (line : Nat)
  | prevHash (line : Nat)
  | lineHash (line : Nat)
  | begins (line : Nat)
  | ends (line : Nat)
  | unhashable (line : Nat)
  | unread (refusal : Refusal)
  | healed (error : LogError)
  | notAdmitted
  | notOpen
  | notOne
  | metrics
  | verdict
  | stopped
  deriving DecidableEq, Repr

section
variable {F : Type}

def genesisKeys : List String :=
  ["seq", "kind", "log_id", "host", "timestamp", "prev_hash", "line_hash"]

def beginKeys : List String :=
  ["seq", "kind", "attempt", "timestamp", "host", "pid", "boot", "worktree", "branch", "invocation",
    "spec_hash", "family", "bucket", "n_trials", "registry", "ledger", "prev_hash", "line_hash"]

def endKeys : List String :=
  ["seq", "kind", "attempt", "timestamp", "verdict", "stop", "failed", "metrics", "metrics_hash",
    "prev_hash", "line_hash"]

def lineKeys (kind : String) : Option (List String) :=
  if kind = "genesis" then some genesisKeys
  else if kind = "begin" then some beginKeys
  else if kind = "end" then some endKeys
  else none

def kindOf (line : Value F) : Option String :=
  match field line "kind" with
  | some (.str kind) => some kind
  | _ => none

def keysAre (members : List (String × Value F)) (keys : List String) : Bool :=
  members.all (fun m => m.1 ∈ keys) && keys.all fun key => members.any fun m => m.1 = key

def validateLine (line : Value F) : Bool :=
  match line, (kindOf line).bind lineKeys with
  | .obj members, some keys => keysAre members keys
  | _, _ => false

/- The chain. -/

/-- Whether a value equals an integer, as the program compares them. -/
def isNumber (sameAs : F → Int → Bool) (v : Value F) (n : Int) : Bool :=
  match v with
  | .int z => z = n
  | .bool b => (if b then 1 else 0) = n
  | .float x => sameAs x n
  | _ => false

def fieldIs (sameAs : F → Int → Bool) (line : Value F) (key : String) (n : Int) : Bool :=
  (field line key).any fun v => isNumber sameAs v n

def fieldIsText (line : Value F) (key text : String) : Bool :=
  match field line key with
  | some (.str s) => s = text
  | _ => false

def without (key : String) (line : Value F) : Value F :=
  match line with
  | .obj members => .obj (members.filter fun m => m.1 ≠ key)
  | v => v

/-- What the lines so far leave to check the next one against. -/
structure Chain where
  lines : Nat
  prev : String
  begun : Nat
  opened : List Int
  deriving DecidableEq, Repr

def Chain.start : Chain := ⟨0, genesisHash, 0, []⟩

variable (floats : Floats F) (sameAs : F → Int → Bool) (hash : List Char → String)

def verifyAttempt (c : Chain) (line : Value F) : Except LogError Chain :=
  let n := c.lines + 1
  if kindOf line = some "begin" then
    if fieldIs sameAs line "attempt" (c.begun + 1) then
      .ok { c with lines := n, begun := c.begun + 1, opened := c.opened ++ [(c.begun : Int) + 1] }
    else .error (.begins n)
  else if kindOf line = some "end" then
    match field line "attempt" with
    | some (.arr _) | some (.obj _) => .error (.unhashable n)
    | _ =>
      match c.opened.find? fun attempt => fieldIs sameAs line "attempt" attempt with
      | some attempt => .ok { c with lines := n, opened := c.opened.erase attempt }
      | none => .error (.ends n)
  else .ok { c with lines := n }

def verifyLine (c : Chain) (line : Value F) : Except LogError Chain :=
  let n := c.lines + 1
  let digest := hash (dumps floats (without "line_hash" line))
  if n > 1 ∧ kindOf line = some "genesis" then .error (.secondGenesis n)
  else if fieldIs sameAs line "seq" n = false then .error (.seq n)
  else if fieldIsText line "prev_hash" c.prev = false then .error (.prevHash n)
  else if fieldIsText line "line_hash" digest = false then .error (.lineHash n)
  else (verifyAttempt sameAs c line).map fun c => { c with prev := digest }

def verifyChain (lines : List (Value F)) : Except LogError Chain :=
  match lines with
  | [] => .error .noGenesis
  | first :: _ =>
    if kindOf first = some "genesis" then lines.foldlM (verifyLine floats sameAs hash) Chain.start
    else .error .noGenesis

/- The operations. -/

/-- The log's file and the copies of torn ones beside it. -/
structure Log where
  file : List UInt8
  copies : List (List UInt8)
  deriving DecidableEq, Repr

/-- Where an operation stops short, for a crash or for a write that was not whole: after so many bytes
    of the copy, between the truncation and the read, or after so many bytes of the line. -/
inductive Tear where
  | copy (bytes : Nat)
  | truncated
  | line (bytes : Nat)
  deriving DecidableEq, Repr

/-- What reads the lines of the log, which is what reads a store's. -/
def logLines : Ledger F where
  Entry := Unit
  idKey := "seq"
  validate := validateLine
  takes := fun _ => true
  compose := fun _ _ => .ok []
  step := fun w _ => .ok w

def readLines (file : List UInt8) : Except LogError (List (Value F)) × List UInt8 :=
  match logLines.readHealing floats (some file) with
  | (.error refusal, kept) => (.error (.unread refusal), kept.getD [])
  | (.ok lines, kept) => ((verifyChain floats sameAs hash lines).map fun _ => lines, kept.getD [])

/-- The log as read under the lock. A file that no newline ends is copied aside and truncated. -/
def readLocked (tear : Option Tear) (log : Log) : Except LogError (List (Value F)) × Log :=
  if log.file ≠ [] ∧ log.file.getLast? ≠ some newline then
    match tear with
    | some (.copy bytes) => (.error .stopped, { log with copies := log.copies ++ [log.file.take bytes] })
    | some .truncated => (.error .stopped, ⟨truncated log.file, log.copies ++ [log.file]⟩)
    | _ =>
      match readLines floats sameAs hash (truncated log.file) with
      | (.ok lines, kept) => (.ok lines, ⟨kept, log.copies⟩)
      | (.error error, kept) => (.error (.healed error), ⟨kept, log.copies ++ [log.file]⟩)
  else
    match readLines floats sameAs hash log.file with
    | (read, kept) => (read, { log with file := kept })

/-- A line of some fields after those of the log. -/
def nextLine (lines : List (Value F)) (fields : List (String × Value F)) : Except LogError (Value F) :=
  match lines.getLast?.bind fun last => field last "line_hash" with
  | some prev =>
    let linked := put "prev_hash" prev (put "seq" (.int (lines.length + 1)) (object fields))
    .ok (.obj (put "line_hash" (.str (hash (dumps floats (.obj linked)))) linked))
  | none => .error (.unread (.unread "line_hash"))

def append (tear : Option Tear) (log : Log) (lines : List (Value F))
    (fields : List (String × Value F)) : Except LogError (Value F) × Log :=
  match nextLine floats hash lines fields with
  | .error error => (.error error, log)
  | .ok line =>
    match verifyChain floats sameAs hash (lines ++ [line]) with
    | .error error => (.error error, log)
    | .ok _ =>
      let bytes := encode (dumps floats line ++ ['\n'])
      match tear with
      | some (.line k) => (.error .stopped, { log with file := log.file ++ bytes.take k })
      | _ => (.ok line, { log with file := log.file ++ bytes })

/-- What an attempt begins with. Whoever begins it may refuse the log as it is. -/
structure Begin (F : Type) where
  admits : List (Value F) → Bool
  timestamp : String
  host : String
  pid : Int
  boot : String
  worktree : String
  branch : Option String
  invocation : Doc F
  specHash : String
  family : String
  bucket : Option String
  nTrials : Int
  registry : String
  ledger : String

structure End (F : Type) where
  attempt : Int
  timestamp : String
  verdict : Option String
  stop : Option String
  failed : Option String
  metrics : Option (Doc F)

def textOrNull : Option String → Value F
  | some s => .str s
  | none => .null

def Begin.fields (b : Begin F) (attempt : Int) : List (String × Value F) :=
  [("kind", .str "begin"), ("attempt", .int attempt), ("timestamp", .str b.timestamp),
    ("host", .str b.host), ("pid", .int b.pid), ("boot", .str b.boot), ("worktree", .str b.worktree),
    ("branch", textOrNull b.branch), ("invocation", b.invocation.1), ("spec_hash", .str b.specHash),
    ("family", .str b.family), ("bucket", textOrNull b.bucket), ("n_trials", .int b.nTrials),
    ("registry", .str b.registry), ("ledger", .str b.ledger)]

def End.fields (e : End F) : List (String × Value F) :=
  [("kind", .str "end"), ("attempt", .int e.attempt), ("timestamp", .str e.timestamp),
    ("verdict", textOrNull e.verdict), ("stop", textOrNull e.stop), ("failed", textOrNull e.failed),
    ("metrics", e.metrics.elim .null Subtype.val),
    ("metrics_hash", match e.metrics with
      | some metrics => .str (hash (dumps floats metrics.1))
      | none => .null)]

def isBegin (line : Value F) : Bool := kindOf line = some "begin"
def isEnd (line : Value F) : Bool := kindOf line = some "end"

def begin (tear : Option Tear) (log : Log) (b : Begin F) : Except LogError (Value F) × Log :=
  match readLocked floats sameAs hash tear log with
  | (.error error, log) => (.error error, log)
  | (.ok lines, log) =>
    if b.admits lines then
      append floats sameAs hash tear log lines (b.fields (lines.countP isBegin + 1))
    else (.error .notAdmitted, log)

def isOpen (lines : List (Value F)) (attempt : Int) : Bool :=
  lines.any (fun line => isBegin line && fieldIs sameAs line "attempt" attempt) &&
    !lines.any fun line => isEnd line && fieldIs sameAs line "attempt" attempt

def verdicts : List String := ["adopt", "reject", "park"]

def filled : Value F → Bool
  | .obj members => !members.isEmpty
  | _ => false

def End.check (lines : List (Value F)) (e : End F) : Except LogError Unit :=
  if isOpen sameAs lines e.attempt = false then .error .notOpen
  else if [e.verdict, e.stop, e.failed].countP Option.isNone ≠ 2 then .error .notOne
  else if (match e.failed with
      | none => e.metrics.any fun metrics => filled metrics.1
      | some _ => e.metrics.isNone) = false then .error .metrics
  else if e.verdict.all (· ∈ verdicts) = false then .error .verdict
  else .ok ()

def ends (tear : Option Tear) (log : Log) (e : End F) : Except LogError (Value F) × Log :=
  match readLocked floats sameAs hash tear log with
  | (.error error, log) => (.error error, log)
  | (.ok lines, log) =>
    match e.check sameAs lines with
    | .error error => (.error error, log)
    | .ok _ => append floats sameAs hash tear log lines (e.fields floats hash)

def genesisFields (logId host timestamp : String) : List (String × Value F) :=
  [("seq", .int 1), ("kind", .str "genesis"), ("log_id", .str logId), ("host", .str host),
    ("timestamp", .str timestamp), ("prev_hash", .str genesisHash)]

def genesisLine (logId host timestamp : String) : Value F :=
  let base := object (genesisFields logId host timestamp)
  .obj (put "line_hash" (.str (hash (dumps floats (.obj base)))) base)

/-- The log of one line, as it was created. -/
def initLog (logId host timestamp : String) : Log :=
  ⟨encode (dumps floats (genesisLine floats hash logId host timestamp) ++ ['\n']), []⟩

/- The processes. -/

/-- Opening a log and holding its lock both read it and heal it. -/
inductive Operation (F : Type) where
  | looks
  | begins (b : Begin F)
  | ends (e : End F)

/-- What the processes have made of the log, the lines whose operation returned, and the attempt that
    each begin returned. -/
structure Session (F : Type) where
  log : Log
  returned : List (Value F)
  attempts : List Int

def Session.step (s : Session F) (tear : Option Tear) : Operation F → Option LogError × Session F
  | .looks =>
    match readLocked floats sameAs hash tear s.log with
    | (.ok _, log) => (none, { s with log })
    | (.error error, log) => (some error, { s with log })
  | .begins b =>
    match begin floats sameAs hash tear s.log b with
    | (.ok line, log) => (none, { s with
        log, returned := s.returned ++ [line]
        attempts := s.attempts ++ ((field line "attempt").elim [] fun
          | .int attempt => [attempt]
          | _ => []) })
    | (.error error, log) => (some error, { s with log })
  | .ends e =>
    match ends floats sameAs hash tear s.log e with
    | (.ok line, log) => (none, { s with log, returned := s.returned ++ [line] })
    | (.error error, log) => (some error, { s with log })

def Session.created (logId host timestamp : String) : Session F :=
  ⟨initLog floats hash logId host timestamp, [genesisLine floats hash logId host timestamp], []⟩

def Session.run (s : Session F) (calls : List (Option Tear × Operation F)) : Session F :=
  calls.foldl (fun s call => (s.step floats sameAs hash call.1 call.2).2) s

end

end Attempts
