import Zcrypto.Engine.Instruments
import Zcrypto.Engine.PlanDocument

/- One plan drafted from a book: each leg's target less what is held, sized to the venue's step and
   minima, the buys trimmed to the cash and the legs to a plan's caps. Two drafters share it: the
   helper that reads exports and the engine's own loop. The reasons given to the legs and the
   report are left out. -/
namespace DraftPlans
open ProbePlans Orders

inductive Outcome where
  | placed | queued | carried | onTarget
  deriving DecidableEq, Repr

structure Constraints where
  ordermin : ℚ
  lotStep : ℚ
  lot_pos : 0 < lotStep
  ordermin_nonneg : 0 ≤ ordermin
  deriving Repr

theorem Constraints.same_iff {c d : Constraints} : c.ordermin = d.ordermin ∧ c.lotStep = d.lotStep ↔ c = d := by
  cases c
  cases d
  simp

instance : DecidableEq Constraints := fun _ _ => decidable_of_iff _ Constraints.same_iff

structure LegDecision where
  symbol : Pair
  weight : ℚ
  targetEur : ℚ
  krakenHeld : ℚ
  venueB : ℚ
  price : ℚ
  ordermin : ℚ
  lotStep : ℚ
  deltaEur : ℚ
  outcome : Outcome
  side : Option Side
  qty : Option ℚ
  notionalEur : Option ℚ
  deriving DecidableEq, Repr

def eurPerWeight : ℚ := 720
def buyOrderminHeadroom : ℚ := 21 / 20
def minBuyEur : ℚ := 1 / 2
def cashReserveEur : ℚ := 5
def loopCashReserveEur : ℚ := 10
def planCapEur : ℚ := 95
def maxIntents : Nat := 3
def cent : ℚ := 1 / 100

/-- The nearest integer, the even one of two as near. -/
def roundHalfEven (x : ℚ) : Int :=
  if x - ⌊x⌋ < 1 / 2 then ⌊x⌋
  else if 1 / 2 < x - ⌊x⌋ then ⌊x⌋ + 1
  else if ⌊x⌋ % 2 = 0 then ⌊x⌋ else ⌊x⌋ + 1

def roundTo (digits : Nat) (x : ℚ) : ℚ := roundHalfEven (x * 10 ^ digits) / 10 ^ digits

def LegDecision.eur (d : LegDecision) : ℚ :=
  match d.side with
  | some .buy => d.notionalEur.getD 0
  | _ => d.qty.getD 0 * d.price

def LegDecision.buyFloor (d : LegDecision) : ℚ :=
  max (buyOrderminHeadroom * d.ordermin * d.price) minBuyEur

def LegDecision.isPlaced (d : LegDecision) (side : Side) : Bool :=
  d.outcome = .placed ∧ d.side = some side

def LegDecision.carry (d : LegDecision) : LegDecision :=
  { d with outcome := .carried, qty := none, notionalEur := none }

/- One leg. -/

/-- What is over the target, in whole lot steps. -/
def LegDecision.overTarget (leg : LegDecision) : ℚ :=
  floorToStep (leg.krakenHeld - leg.targetEur / leg.price) leg.lotStep

/-- The whole leg where the remainder would be under the minimum. -/
def LegDecision.sellQty (leg : LegDecision) : ℚ :=
  if leg.krakenHeld - leg.overTarget < leg.ordermin then floorToStep leg.krakenHeld leg.lotStep
  else leg.overTarget

def placeSell (leg : LegDecision) (qty : ℚ) : LegDecision :=
  { leg with outcome := .placed, side := some .sell, qty := some qty }

/-- No more than a positive `b`, which the engine image the box runs on refuses a sell over. -/
def sellUpToB (leg : LegDecision) (qty : ℚ) : LegDecision :=
  if 0 < leg.venueB ∧ leg.venueB < qty then
    if floorToStep leg.venueB leg.lotStep < leg.ordermin then { leg with side := some .sell }
    else placeSell leg (floorToStep leg.venueB leg.lotStep)
  else placeSell leg qty

def decideSell (leg : LegDecision) : LegDecision :=
  if leg.overTarget < leg.ordermin then { leg with side := some .sell }
  else sellUpToB leg leg.sellQty

def decideBuy (leg : LegDecision) : LegDecision :=
  if leg.deltaEur < leg.buyFloor then { leg with side := some .buy }
  else { leg with
    outcome := .placed, side := some .buy
    notionalEur := some (floorToStep (roundTo 9 leg.deltaEur) cent) }

/-- The leg's figures before anything is decided of it. -/
def freshLeg (symbol : Pair) (weight price : ℚ) (c : Constraints) (krakenHeld venueB target : ℚ) :
    LegDecision :=
  { symbol, weight, krakenHeld, venueB, price, targetEur := target
    ordermin := c.ordermin, lotStep := c.lotStep
    deltaEur := target - krakenHeld * price
    outcome := .carried, side := none, qty := none, notionalEur := none }

def decideDelta (leg : LegDecision) : LegDecision :=
  if leg.deltaEur = 0 then { leg with outcome := .onTarget }
  else if 0 < leg.deltaEur then decideBuy leg
  else decideSell leg

def decideLeg (symbol : Pair) (weight price : ℚ) (c : Constraints) (krakenHeld venueB : ℚ)
    (exiting : Bool) (eurPerWeight : ℚ) : LegDecision :=
  decideDelta (freshLeg symbol weight price c krakenHeld venueB
    (if exiting then 0 else eurPerWeight * max weight 0))

/- The trims. -/

def total (legs : List LegDecision) : ℚ := (legs.map LegDecision.eur).sum

/-- The smaller first, the earlier symbol of two as small. -/
def Smaller (a b : LegDecision) : Prop :=
  a.eur < b.eur ∨ (a.eur = b.eur ∧ a.symbol.name ≤ b.symbol.name)

instance : DecidableRel Smaller := fun _ _ => inferInstanceAs (Decidable (_ ∨ _))

def smallestFirst (legs : List LegDecision) : List LegDecision := legs.insertionSort Smaller

/-- Whole cents. -/
def cents (eur : ℚ) : Int := roundHalfEven (eur * 100)

/-- The buys that are cut, from the smallest, until none of the excess is left. -/
def cutBuys : Int → List LegDecision → List LegDecision
  | _, [] => []
  | excess, leg :: rest =>
    if excess ≤ 0 then []
    else
      let kept : ℚ := (cents (leg.notionalEur.getD 0) - excess) / 100
      if leg.buyFloor ≤ kept then { leg with notionalEur := some kept } :: cutBuys 0 rest
      else { leg with outcome := .carried, notionalEur := none } ::
        cutBuys (excess - cents (leg.notionalEur.getD 0)) rest

def trimBuysToCash (decisions : List LegDecision) (freeEur reserve : ℚ) : List LegDecision :=
  let budget : Int :=
    if reserve < freeEur then cents (floorToStep (roundTo 9 (freeEur - reserve)) cent) else 0
  let buys := smallestFirst (decisions.filter (·.isPlaced .buy))
  let excess := (buys.map fun d => cents (d.notionalEur.getD 0)).sum - budget
  let trimmed := cutBuys excess buys
  decisions.map fun d => (trimmed.find? (·.symbol = d.symbol)).getD d

/-- The legs left once the smallest are dropped until they fit beside what is kept. -/
def fit (cap beside : ℚ) : List LegDecision → List LegDecision
  | [] => []
  | leg :: rest =>
    if cap < beside + total (leg :: rest) then fit cap beside rest else leg :: rest

def trimToPlanCap (decisions : List LegDecision) (cap : ℚ) : List LegDecision :=
  let sells := fit cap 0 (smallestFirst (decisions.filter (·.isPlaced .sell)))
  let buys := fit cap (total sells) (smallestFirst (decisions.filter (·.isPlaced .buy)))
  let kept := (sells ++ buys).map LegDecision.symbol
  decisions.map fun d => if d.outcome = .placed ∧ d.symbol ∉ kept then d.carry else d

/- The plans. -/

inductive DraftError where
  | refused (why : String)
  | notPositive (symbol : Pair)
  | notAMarket (symbol : Pair)
  | overCap (symbol : Pair)
  | doesNotParse (e : PlanError)
  | ruled
  deriving DecidableEq, Repr

def isSell (d : LegDecision) : Bool := d.side = some .sell

/-- Sells first, then the larger, then the earlier symbol. -/
def PlanOrder (a b : LegDecision) : Prop :=
  (isSell a = true ∧ isSell b = false) ∨ (isSell a = isSell b ∧
    (b.eur < a.eur ∨ (a.eur = b.eur ∧ a.symbol.name ≤ b.symbol.name)))

instance : DecidableRel PlanOrder := fun _ _ => inferInstanceAs (Decidable (_ ∨ _))

/-- Legs dealt into plans in order, the plan being filled the first of `plans`. -/
def deal (most : Option Nat) (cap : Option ℚ) :
    List LegDecision → List (List LegDecision) → ℚ → Except DraftError (List (List LegDecision))
  | [], plans, _ => .ok plans.reverse
  | leg :: rest, plans, sum =>
    if cap.any (· < leg.eur) then .error (.overCap leg.symbol)
    else match plans with
      | [] => deal most cap rest [[leg]] leg.eur
      | current :: done =>
        if most = some current.length ∨ cap.any (· < sum + leg.eur) then
          deal most cap rest ([leg] :: current :: done) leg.eur
        else deal most cap rest ((current ++ [leg]) :: done) (sum + leg.eur)

def assemblePlans (decisions : List LegDecision) (most : Option Nat) (cap : Option ℚ) :
    Except DraftError (List (List LegDecision)) :=
  deal most cap ((decisions.filter (·.outcome = .placed)).insertionSort PlanOrder) [] 0

def queueLaterPlans (decisions : List LegDecision) (later : List (List LegDecision)) :
    List LegDecision :=
  decisions.map fun d =>
    if d.symbol ∈ later.flatten.map LegDecision.symbol then { d with outcome := .queued } else d

def amount : Option ℚ → Doc
  | some q => .num q
  | none => .null

def intentDocument (leg : LegDecision) : Doc :=
  if isSell leg then
    .obj [("symbol", .text leg.symbol.name), ("side", .text "sell"), ("action", .text "close"),
      ("mode", .text "execute"), ("qty", amount leg.qty)]
  else
    .obj [("symbol", .text leg.symbol.name), ("side", .text "buy"), ("action", .text "open"),
      ("mode", .text "execute"), ("notional_eur", amount leg.notionalEur)]

def planDocument (planId : PlanId) (createdAt : Int) (legs : List LegDecision) : Doc :=
  .obj [("plan_id", .text planId), ("created_at", .stamp (isoformat createdAt) createdAt true),
    ("intents", .arr (legs.map intentDocument))]

/- The engine's loop. -/

/-- The traded coins' pairs, in symbol order. -/
def spotPairs : List Pair :=
  [.adaEur, .avaxEur, .btcEur, .dogeEur, .dotEur, .ethEur, .linkEur, .ltcEur, .solEur, .xrpEur]

/-- The cycle record, the venue's book and the settings one boundary is drafted from. The record is
    a validated one, and a figure it or the venue lacks for a pair is named. -/
structure CycleBook where
  boundary : Int
  now : Int
  nav : ℚ
  missing : Pair → Option String
  targets : Pair → ℚ
  closes : Pair → ℚ
  instruments : Pair → Constraints
  held : Pair → ℚ
  earn : Pair → ℚ
  eurFree : ℚ
  resting : List Pair
  statuses : Pair → Option String
  maxPlanNotionalEur : ℚ
  nav_pos : 0 < nav
  closes_pos : ∀ symbol, 0 < closes symbol
  cap_pos : 0 < maxPlanNotionalEur

def CycleBook.draftLeg (b : CycleBook) (symbol : Pair) : LegDecision :=
  let leg := decideLeg symbol (b.targets symbol) (b.closes symbol) (b.instruments symbol)
    (b.held symbol) 0 false b.nav
  let leg := if leg.outcome = .placed ∧ symbol ∈ b.resting then leg.carry else leg
  if leg.outcome = .placed ∧ b.statuses symbol ≠ some "TRADING" then { leg.carry with side := none }
  else leg

def CycleBook.draftTable (b : CycleBook) : Option (List LegDecision) :=
  if spotPairs.any fun s => (b.missing s).isSome then none else some (spotPairs.map b.draftLeg)

def CycleBook.bookCoinEur (b : CycleBook) : ℚ :=
  (spotPairs.map fun s => (b.held s + b.earn s) * b.closes s).sum

/-- The table trimmed to the sleeve's free cash, then to the cap the plan is judged by. -/
def CycleBook.trimmed (b : CycleBook) (table : List LegDecision) : List LegDecision :=
  trimToPlanCap
    (trimBuysToCash table (min b.eurFree (b.nav - b.bookCoinEur)) loopCashReserveEur)
    b.maxPlanNotionalEur

/-- The plans of one boundary, the first of which is handed to the walls. -/
def CycleBook.draftCyclePlan (b : CycleBook) : Option (Except DraftError (List (List LegDecision))) :=
  b.draftTable.map fun table => assemblePlans (b.trimmed table) none none

def CycleBook.document (b : CycleBook) (legs : List LegDecision) : Doc :=
  planDocument (cyclePlanId b.boundary) b.now legs

/- The helper. -/

def helperLegs : List Pair :=
  [.btcEur, .ethEur, .solEur, .xrpEur, .dogeEur, .ltcEur, .adaEur, .avaxEur, .dotEur]

def boxFirstDay : Int := 20731
def boxDays : Int := 28
def exportMaxAge : Int := 30 * minute
def intentTimeBox : Int := 15 * minute

/-- A day outside the box, an exit day without `--exit`, or `--exit` on another day. -/
def boxDayRefused (day : Int) (exiting : Bool) : Bool :=
  let exitDay := day = boxFirstDay + 26 ∨ day = boxFirstDay + 27
  ¬ (boxFirstDay ≤ day ∧ day < boxFirstDay + boxDays) ∨ (exitDay ∧ ¬ exiting) ∨
    (exiting ∧ ¬ exitDay)

/-- What the helper reads. `unread` is why one of the documents could not be used, and the
    balances, the positions and the log are those a readable one gave. -/
structure HelperBook where
  now : Int
  cycleTs : Int
  balancesWrittenAt : Int
  positionsWrittenAt : Int
  unread : Option String
  weights : Pair → ℚ
  bids : Pair → ℚ
  asks : Pair → ℚ
  ordermins : Pair → ℚ
  lotSteps : Pair → ℚ
  held : Pair → ℚ
  venueB : Pair → ℚ
  freeEur : ℚ
  loggedIds : List PlanId
  placedToday : List Pair
  exiting : Bool

/-- A plan is drafted from the 12Z record, or from the 16Z one, and dropped within three hours. -/
def dropWindowEnd (cycleTs : Int) : Option Int :=
  let h := hourOf cycleTs % hoursPerDay
  if (h = 12 ∨ h = 16) ∧ cycleTs % hour = 0 then some (cycleTs + 3 * hour) else none

def exportRefused (writtenAt now : Int) : Bool :=
  exportMaxAge < now - writtenAt ∨ now - writtenAt < -minute

/-- How many intents the drop window still fits. -/
def HelperBook.fits (b : HelperBook) (windowEnd : Int) : Int :=
  min maxIntents ((windowEnd - b.now) / intentTimeBox)

def HelperBook.gate (b : HelperBook) : Except DraftError Int :=
  if boxDayRefused (dayOf b.now) b.exiting then .error (.refused "the day is outside the box")
  else if b.cycleTs < instantOf (boundaryAt b.now) then
    .error (.refused "the cycle record is older than the latest boundary")
  else if exportRefused b.balancesWrittenAt b.now || exportRefused b.positionsWrittenAt b.now then
    .error (.refused "an export is too old")
  else match dropWindowEnd b.cycleTs with
    | none => .error (.refused "no drop window follows the record")
    | some windowEnd =>
      if b.fits windowEnd < 1 then .error (.refused "past the last drop")
      else match b.unread with
        | some why => .error (.refused why)
        | none => .ok windowEnd

/-- One leg, its constraints and its touch checked. -/
def HelperBook.draftLeg (b : HelperBook) (symbol : Pair) : Except DraftError LegDecision :=
  if positive : 0 < b.ordermins symbol ∧ 0 < b.lotSteps symbol then
    if 0 < b.bids symbol ∧ b.bids symbol ≤ b.asks symbol then
      let leg := decideLeg symbol (b.weights symbol) ((b.asks symbol + b.bids symbol) / 2)
        ⟨b.ordermins symbol, b.lotSteps symbol, positive.2, positive.1.le⟩
        (b.held symbol) (b.venueB symbol) b.exiting eurPerWeight
      .ok (if leg.outcome = .placed ∧ symbol ∈ b.placedToday then leg.carry else leg)
    else .error (.notAMarket symbol)
  else .error (.notPositive symbol)

def stampOf (day : Int) : String :=
  let (y, m, d) := civil day
  padded 4 y ++ padded 2 m ++ padded 2 d

/-- The number of a plan id of the stamped day. -/
def usedNumber (stamp : String) (id : PlanId) : Option Nat :=
  match ("r2-" ++ stamp ++ "-").toList.isPrefixOf? id.toList with
  | some digits =>
    if digits ≠ [] ∧ digits.all Char.isDigit then some (Nat.ofDigitChars 10 digits 0) else none
  | none => none

def nextPlanId (ids : List PlanId) (day : Int) : PlanId :=
  let used := ids.filterMap (usedNumber (stampOf day))
  "r2-" ++ stampOf day ++ "-" ++ toString (used.foldr max 0 + 1)

/-- What the ruling refuses in a parsed plan. -/
def rulingRefused (plan : ProbePlan) (prices : Pair → ℚ) (exiting : Bool) (windowEnd : Int) : Bool :=
  let buyBeforeSell := (plan.intents.dropWhile (·.side ≠ .buy)).any (·.side = .sell)
  let eur := plan.intents.map fun i => i.notionalEur.getD (i.qty.getD 0 * prices i.symbol)
  boxDayRefused (dayOf plan.createdAt) exiting || decide (maxIntents < plan.intents.length) ||
    decide (windowEnd - plan.intents.length * intentTimeBox < plan.createdAt) || buyBeforeSell ||
    (exiting && plan.intents.any (·.side = .buy)) ||
    plan.intents.any (fun i => i.symbol ∉ helperLegs || i.leverage.isSome || i.mode ≠ .execute ||
      (i.side, i.action, i.qty.isSome) ∉
        [(Side.buy, Action.opening, false), (Side.sell, Action.closing, true)]) ||
    decide (planCapEur < eur.sum)

/-- The plan a run drafts. -/
structure HelperPlan where
  planId : PlanId
  document : Doc
  legs : List LegDecision

structure Draft where
  decisions : List LegDecision
  plan : Option HelperPlan

/-- The first plan, parsed and held to the ruling before it is written. -/
def HelperBook.write (b : HelperBook) (windowEnd : Int) (decisions : List LegDecision) :
    List (List LegDecision) → Except DraftError Draft
  | [] => .ok ⟨decisions, none⟩
  | legs :: later =>
    let planId := nextPlanId b.loggedIds (dayOf b.now)
    let document := planDocument planId b.now legs
    match parsePlan (some document) with
    | .error e => .error (.doesNotParse e)
    | .ok plan =>
      if rulingRefused plan (fun s => (b.asks s + b.bids s) / 2) b.exiting windowEnd then
        .error .ruled
      else .ok ⟨queueLaterPlans decisions later, some ⟨planId, document, legs⟩⟩

def HelperBook.draft (b : HelperBook) : Except DraftError Draft := do
  let windowEnd ← b.gate
  let table ← helperLegs.mapM b.draftLeg
  let decisions := trimBuysToCash table b.freeEur cashReserveEur
  let plans ← assemblePlans decisions (some (b.fits windowEnd).toNat) (some planCapEur)
  b.write windowEnd decisions plans

end DraftPlans
