import Mathlib.Data.List.Sort
import Zcrypto.DecimalText
import Zcrypto.Engine.ProbePlan

/- The plan document and its parser: every shape it refuses, in the order it checks them. A text
   that reads as an instant comes with its reading, and a document that is no JSON is none. -/
namespace ProbePlans

inductive Doc where
  | null
  | bool (b : Bool)
  | int (n : Int)
  | num (q : ℚ)
  | notFinite
  | text (s : String)
  | stamp (s : String) (instant : Int) (aware : Bool)
  | arr (items : List Doc)
  | obj (fields : List (String × Doc))

/-- What is wrong with a document, and the field it is wrong with. Three of them are not the parser's own
    error but the one Python raises: for a value that has no hash, an integer beyond the doubles, and an
    integer of more digits than are read. -/
inductive PlanError where
  | notJson
  | notAnObject
  | typeError
  | overflowError
  | valueError
  | unknownKeys (keys : List String)
  | field (name what : String)
  deriving DecidableEq, Repr

def basket : List Pair :=
  [.adaEur, .avaxEur, .btcEur, .dogeEur, .dotEur, .ethBtc, .ethEur, .linkEur, .ltcEur, .solBtc,
    .solEur, .xrpEur]

def planKeys : List String := ["plan_id", "created_at", "intents"]

def intentKeys : List String :=
  ["symbol", "side", "action", "mode", "notional_eur", "qty", "leverage", "offset_pct",
    "hold_minutes"]

def minLeverage : Int := 2
def maxLeverage : Int := 10
def maxHoldMinutes : Int := 60

/-- The integers from here on are no double. -/
def floatLimit : Nat := 2 ^ 1024 - 2 ^ 970

def Side.text : Side → String
  | .buy => "buy"
  | .sell => "sell"

def Action.text : Action → String
  | .opening => "open"
  | .closing => "close"

def Mode.text : Mode → String
  | .execute => "execute"
  | .restCancel => "rest-cancel"
  | .restHold => "rest-hold"

/-- A field that is absent reads as null. -/
def valueAt (fields : List (String × Doc)) (key : String) : Doc :=
  (fields.lookup key).getD .null

def Doc.isNull : Doc → Bool
  | .null => true
  | _ => false

def checkKeys (fields : List (String × Doc)) (keys : List String) : Except PlanError Unit :=
  match (fields.map Prod.fst).filter (· ∉ keys) with
  | [] => .ok ()
  | unknown => .error (.unknownKeys (unknown.insertionSort (· ≤ ·)))

def Doc.text? : Doc → Option String
  | .text s => some s
  | .stamp s _ _ => some s
  | _ => none

def parseSymbol (value : Doc) : Except PlanError Pair :=
  match value.text?.bind fun s => basket.find? (·.name = s) with
  | some pair => .ok pair
  | none => .error (.field "symbol" "is not in the basket")

/-- One of a few words. A list or an object has no hash to look up. -/
def parseWord {α : Type} (name : String) (words : List α) (spelt : α → String) :
    Doc → Except PlanError α
  | .arr _ => .error .typeError
  | .obj _ => .error .typeError
  | value =>
    match value.text?.bind fun s => words.find? (spelt · = s) with
    | some word => .ok word
    | none => .error (.field name "must be one of its words")

def parseSide : Doc → Except PlanError Side := parseWord "side" [.buy, .sell] Side.text

def parseAction : Doc → Except PlanError Action :=
  parseWord "action" [.opening, .closing] Action.text

def parseMode : Doc → Except PlanError Mode :=
  parseWord "mode" [.execute, .restCancel, .restHold] Mode.text

def positive (name : String) (q : ℚ) : Except PlanError ℚ :=
  if 0 < q then .ok q else .error (.field name "must be a finite positive number")

def parsePositiveNumber (name : String) : Doc → Except PlanError ℚ
  | .int n => if floatLimit ≤ n.natAbs then .error .overflowError else positive name n
  | .num q => positive name q
  | .notFinite => .error (.field name "must be a finite positive number")
  | _ => .error (.field name "must be a number")

/-- A number where the field is given. -/
def parseAmount (name : String) (value : Doc) : Except PlanError (Option ℚ) :=
  if value.isNull then .ok none else (parsePositiveNumber name value).map some

def parseLeverage : Doc → Except PlanError (Option Nat)
  | .null => .ok none
  | .int n =>
    if minLeverage ≤ n ∧ n ≤ maxLeverage then .ok (some n.toNat)
    else .error (.field "leverage" "must be an int in its band")
  | _ => .error (.field "leverage" "must be an int in its band")

def parseHoldMinutes : Doc → Except PlanError Nat
  | .int n =>
    if 1 ≤ n ∧ n ≤ maxHoldMinutes then .ok n.toNat
    else .error (.field "hold_minutes" "must be an int in its band")
  | _ => .error (.field "hold_minutes" "must be an int in its band")

/-- The two fields of a rest-hold, which no other mode carries. -/
def parseRest (mode : Mode) (action : Action) (offset hold : Doc) :
    Except PlanError (Option ℚ × Option Nat) :=
  if mode = .restHold then
    if offset.isNull || hold.isNull then
      .error (.field "mode" "'rest-hold' requires both offset_pct and hold_minutes")
    else if action ≠ .opening then .error (.field "mode" "'rest-hold' requires action == 'open'")
    else do
      let offsetPct ← parsePositiveNumber "offset_pct" offset
      let holdMinutes ← parseHoldMinutes hold
      .ok (some offsetPct, some holdMinutes)
  else if !offset.isNull || !hold.isNull then
    .error (.field "offset_pct/hold_minutes" "are legal only on mode 'rest-hold'")
  else .ok (none, none)

def parseIntent : Doc → Except PlanError ProbeIntent
  | .obj fields => do
    checkKeys fields intentKeys
    let symbol ← parseSymbol (valueAt fields "symbol")
    let side ← parseSide (valueAt fields "side")
    let action ← parseAction (valueAt fields "action")
    let mode ← parseMode (valueAt fields "mode")
    if (valueAt fields "notional_eur").isNull = (valueAt fields "qty").isNull then
      .error (.field "notional_eur/qty" "must carry exactly one")
    else do
      let notionalEur ← parseAmount "notional_eur" (valueAt fields "notional_eur")
      let qty ← parseAmount "qty" (valueAt fields "qty")
      let leverage ← parseLeverage (valueAt fields "leverage")
      let rest ← parseRest mode action (valueAt fields "offset_pct") (valueAt fields "hold_minutes")
      if qty.isSome ∧ (action ≠ .closing ∨ leverage.isSome) then
        .error (.field "qty" "requires action == 'close' and no leverage")
      else
        .ok { symbol, side, action, mode, notionalEur, qty, leverage
              offsetPct := rest.1, holdMinutes := rest.2 }
  | _ => .error .notAnObject

def parsePlanId (value : Doc) : Except PlanError PlanId :=
  match value.text? with
  | some s =>
    if s.toList.all DecimalText.isSpace then .error (.field "plan_id" "must be a non-empty string")
    else .ok s
  | none => .error (.field "plan_id" "must be a non-empty string")

def parseCreatedAt : Doc → Except PlanError Int
  | .stamp _ instant aware =>
    if aware then .ok instant else .error (.field "created_at" "must be timezone-aware")
  | .text _ => .error (.field "created_at" "is not a valid ISO datetime")
  | _ => .error (.field "created_at" "must be a string")

def parseIntents : Doc → Except PlanError (List ProbeIntent)
  | .arr (item :: rest) => (item :: rest).mapM parseIntent
  | _ => .error (.field "intents" "must be a non-empty list")

/-- What `json.loads` raises instead of a document. -/
inductive LoadFault where
  | notJson
  | tooManyDigits
  deriving DecidableEq, Repr

def parsePlan : Option Doc → Except PlanError ProbePlan
  | none => .error .notJson
  | some (.obj fields) => do
    checkKeys fields planKeys
    let planId ← parsePlanId (valueAt fields "plan_id")
    let createdAt ← parseCreatedAt (valueAt fields "created_at")
    let intents ← parseIntents (valueAt fields "intents")
    .ok { planId, createdAt, intents }
  | some _ => .error .notAnObject

/-- `parse_plan` of a text, read by `loads`. -/
def parseText (loads : String → Except LoadFault Doc) (text : String) : Except PlanError ProbePlan :=
  match loads text with
  | .error .notJson => parsePlan none
  | .error .tooManyDigits => .error .valueError
  | .ok doc => parsePlan (some doc)

/-- `isoformat` of an instant in UTC, its microseconds only where it has some. -/
def isoformat (t : Int) : String :=
  let (y, m, d) := civil (dayOf t)
  let micros := t % second
  padded 4 y ++ "-" ++ padded 2 m ++ "-" ++ padded 2 d ++ "T" ++
    padded 2 (hourOf t % hoursPerDay) ++ ":" ++ padded 2 (t / minute % 60) ++ ":" ++
    padded 2 (t / second % 60) ++ (if micros = 0 then "" else "." ++ padded 6 micros) ++ "+00:00"

example : isoformat 1767268800000500 = "2026-01-01T12:00:00.000500+00:00" := by decide +kernel

end ProbePlans
