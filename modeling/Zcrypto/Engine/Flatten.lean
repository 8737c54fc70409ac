import Zcrypto.Engine.Instruments
import Zcrypto.Engine.Store

/- The red button: cancel every resting order, close every margin position, sell every balance that
   is not euros. What the venue answers is read field by field, and a field it lacks is an
   unreachable, which is the one thing raised here. Lines for the operator and the journal's
   record are left out, except whether the plan could be shown at all. -/
namespace Flatten
open Effects Effects.Prog ProbePlans Orders Instruments

/-- One field of a venue's answer. -/
inductive Field where
  | absent
  | malformed
  | notFinite
  | number (q : ℚ)
  deriving DecidableEq, Repr

structure InstrumentRow where
  id : Option Symbol
  rawSymbol : String
  minQuantity : Field
  sizeIncrement : Field
  priceIncrement : Field
  deriving DecidableEq, Repr

structure PositionReport where
  instrumentId : Option Symbol
  positionSide : Option String
  quantity : Field
  deriving DecidableEq, Repr

structure BalanceReport where
  code : Option String
  free : Field
  deriving DecidableEq, Repr

/-- The prices of one side's levels, none where the side cannot be read. -/
structure Book where
  bids : Option (List Field)
  asks : Option (List Field)
  deriving DecidableEq, Repr

structure VenueStatus where
  status : String
  ok : Bool
  deriving DecidableEq, Repr

structure PositionRow where
  symbol : Symbol
  side : String
  quantity : ℚ
  deriving DecidableEq, Repr

structure BalanceRow where
  code : String
  free : ℚ
  deriving DecidableEq, Repr

inductive LegKind where
  | margin | spot
  deriving DecidableEq, Repr

inductive AccountType where
  | margin | cash
  deriving DecidableEq, Repr

structure Leg where
  kind : LegKind
  base : String
  symbol : Symbol
  side : Side
  quantity : ℚ
  accountType : AccountType
  source : String
  deriving DecidableEq, Repr

structure SizedLeg where
  leg : Leg
  qty : ℚ
  referencePrice : Option ℚ
  quote : String
  estimate : Option ℚ
  feeEstimate : Option ℚ
  send : Bool
  reason : Option String
  deriving DecidableEq, Repr

structure OrderParams where
  symbol : Symbol
  clientOrderId : String
  side : Side
  quantity : ℚ
  reduceOnly : Bool
  accountType : AccountType
  leverage : Option Nat
  deriving DecidableEq, Repr

inductive Request where
  | listing
  | orders
  | positions (scope : Option Symbol)
  | account
  | book (symbol : Symbol)
  deriving DecidableEq, Repr

/-- What went to the venue. A read fails where the request raises, and its answer may be refused
    after it; both say whether only the journal was to read it. -/
inductive Event where
  | read (r : Request) (forRecord failed : Bool)
  | refused (r : Request) (forRecord : Bool)
  | cancel (ok : Bool)
  | order (o : OrderParams) (ok : Bool)
  deriving DecidableEq, Repr

structure LegOutcome where
  leg : Leg
  qty : ℚ
  passName : String
  clientOrderId : Option String
  sent : Bool
  reason : Option String
  answer : Option String
  error : Option String
  deriving DecidableEq, Repr

/-- What the run has done so far, newest event first, with the words of the last unreachable and
    the sweep's own record. -/
structure Tape where
  asks : Nat
  forRecord : Bool
  failure : String
  trace : List Event
  ordersAfter : Option Nat
  outcomes : List LegOutcome

def Tape.blank : Tape := ⟨0, false, "", [], none, []⟩

/-- The venue and the host. A request is numbered by those before it, and one that raises is an
    error with its words. -/
structure World where
  instruments : Nat → Except String (List InstrumentRow)
  cacheInstrument : InstrumentRow → Option String
  orders : Nat → Except String (Option (List String))
  positions : Nat → Option Symbol → Except String (Option (List PositionReport))
  account : Nat → Except String (Option (List BalanceReport))
  book : Nat → Symbol → Except String Book
  cancelAllOrders : Nat → Option String
  submitOrder : Nat → OrderParams → Except String String
  mintsQuantity : ℚ → ℚ → Bool
  killFile : Option String
  tty : Bool
  venue : VenueStatus
  planShown : Bool
  prompt : Except String String
  stamp : String

abbrev Flat := Prog World Tape

def unreachable {α : Type} (words : String) : Flat α := do
  modify fun t => { t with failure := words }
  raise

/-- One request for an answer: numbered, noted, and unreachable where it raises. -/
def call {α : Type} (r : Request) (answer : World → Nat → Except String α) : Flat α := do
  let n ← gets Tape.asks
  let found ← env fun w => answer w n
  match found with
  | .ok a => do
    modify fun t => { t with asks := t.asks + 1, trace := .read r t.forRecord false :: t.trace }
    pure a
  | .error words => do
    modify fun t => { t with asks := t.asks + 1, trace := .read r t.forRecord true :: t.trace }
    unreachable words

/-- What is read out of an answer, refused where its shape is not the one named. -/
def shape {α : Type} (r : Request) : Except String α → Flat α
  | .ok a => pure a
  | .error words => do
    modify fun t => { t with trace := .refused r t.forRecord :: t.trace }
    unreachable words

-- reading an answer

def required {α : Type} (field what : String) : Option α → Except String α
  | none => .error (what ++ ": the venue's answer carries no readable " ++ field)
  | some a => .ok a

def asFloat (field what : String) : Field → Except String ℚ
  | .absent => .error (what ++ ": the venue's answer carries no readable " ++ field)
  | .malformed => .error (what ++ ": " ++ field ++ " is not a number")
  | .notFinite => .error (what ++ ": " ++ field ++ " is not finite")
  | .number q => .ok q

def asStep (field what : String) (f : Field) : Except String { q : ℚ // 0 < q } := do
  let q ← asFloat field what f
  if pos : 0 < q then .ok ⟨q, pos⟩
  else .error (what ++ ": " ++ field ++ " is not a positive step")

def lastDotted (s : String) : String :=
  String.ofList (s.toList.reverse.takeWhile (· ≠ '.')).reverse

def upper (s : String) : String :=
  String.ofList (s.toList.map Char.toUpper)

abbrev Listing := List (Symbol × InstrumentRow)

/-- A dict's assignment: the key's place is where it first stood. -/
def assign (d : Listing) (symbol : Symbol) (row : InstrumentRow) : Listing :=
  if (d.lookup symbol).isSome then d.map fun e => if e.1 = symbol then (symbol, row) else e
  else d ++ [(symbol, row)]

def spelledAsKey (e : Symbol × InstrumentRow) : Bool :=
  e.2.rawSymbol = e.1.base ++ e.1.quote

/-- Rows spelled as their own symbol come first, so a symbol listed twice keeps the other one. -/
def listingOf (rows : List InstrumentRow) : List (Symbol × InstrumentRow) × Listing :=
  let named := rows.filterMap fun r => r.id.map fun symbol => (symbol, r)
  let sorted := named.filter spelledAsKey ++ named.filter fun e => !spelledAsKey e
  (sorted, sorted.foldl (fun d e => assign d e.1 e.2) [])

def readListing : Flat Listing := do
  let rows ← call .listing World.instruments
  let (sorted, listing) := listingOf rows
  if listing = [] then
    shape .listing (.error "the instrument listing came back empty")
  else do
    let failed ← env fun w => sorted.findSome? fun e => w.cacheInstrument e.2
    match failed with
    | some words => shape .listing (.error ("the instrument listing could not be cached: " ++ words))
    | none => pure listing

def readOpenOrders : Flat (List String) := do
  let rows ← call .orders World.orders
  shape .orders (match rows with
    | none => .error "open orders could not be read: the venue answered nothing"
    | some rows => .ok rows)

def positionReports (scope : Option Symbol) : Flat (Option (List PositionReport)) :=
  call (.positions scope) fun w n => w.positions n scope

def positionRow (row : PositionReport) : Except String PositionRow := do
  let what := "a margin position row"
  let symbol ← required "instrument_id" what row.instrumentId
  let side ← required "position_side" what row.positionSide
  let quantity ← asFloat "quantity" what row.quantity
  return ⟨symbol, upper (lastDotted side), quantity⟩

def positionRows : Option (List PositionReport) → Except String (List PositionRow)
  | none => .error "margin positions could not be read: the venue answered nothing"
  | some rows => rows.mapM positionRow

def readPositions : Flat (List PositionRow) := do
  let rows ← positionReports none
  shape (.positions none) (positionRows rows)

/-- A read that could not see everything: each is a residual by name. -/
structure Unread where
  kind : String
  symbol : Option String
  reason : String
  error : String
  deriving DecidableEq, Repr

def symbolNamed (name : String) (listing : Listing) : Option Symbol :=
  (listing.find? fun e => e.1.text = name).map Prod.fst

/-- The basket's positions, read pair by pair after the whole account's read failed. The first pair
    that is read and fails is the venue's failure, and ends the read. -/
def pairByPair (listing : Listing) (failure : String) :
    List String → Bool → List PositionRow → List Unread → Flat (List PositionRow × List Unread)
  | [], readAny, rows, unread => if readAny then pure (rows, unread) else unreachable failure
  | name :: rest, readAny, rows, unread => match symbolNamed name listing with
    | none => pairByPair listing failure rest readAny rows (unread ++
        [⟨"position", some name, "position_unread", "the listing carries no such pair"⟩])
    | some symbol => do
      let found ← attempt
        (do
          let answer ← positionReports (some symbol)
          let read ← shape (.positions (some symbol)) (positionRows answer)
          pure (some read))
        (pure none)
      match found with
      | some read => pairByPair listing failure rest true (rows ++ read) unread
      | none =>
        if readAny then do
          let words ← gets Tape.failure
          pairByPair listing failure rest readAny rows (unread ++
            [⟨"position", some name, "position_unread", words⟩])
        else unreachable failure

def readMarginPositions (listing : Listing) : Flat (List PositionRow × List Unread) := do
  let answer ← attempt
    (do
      let answer ← positionReports none
      pure (some answer))
    (pure none)
  match answer with
  | some answer => do
    let rows ← shape (.positions none) (positionRows answer)
    pure (rows, [])
  | none => do
    let words ← gets Tape.failure
    pairByPair listing words Stores.basket false [] [⟨"position", none, "positions_unreadable", words⟩]

def balanceRow (row : BalanceReport) : Except String BalanceRow := do
  let code ← required "code" "a balance row's currency" row.code
  let free ← asFloat "free" ("the " ++ code ++ " balance") row.free
  return ⟨code, free⟩

def readBalances : Flat (List BalanceRow) := do
  let state ← call .account World.account
  shape .account (do
    let balances ← required "balances" "the account state" state
    balances.mapM balanceRow)

def constraintsFor (symbol : Symbol) (listing : Listing) : Except String PairConstraints :=
  match listing.lookup symbol with
  | none => .error (symbol.text ++ " is not in the venue's listing")
  | some row => do
    let what := symbol.text ++ "'s listing row"
    let ordermin ← asFloat "ordermin" what row.minQuantity
    let lot ← asStep "lot_step" what row.sizeIncrement
    let tick ← asStep "tick_size" what row.priceIncrement
    return ⟨symbol, ordermin, lot, tick, lot.2, tick.2⟩

def topPrice (symbol : Symbol) (side : Side) (book : Book) : Except String ℚ := do
  let what := symbol.text ++ "'s book"
  let (field, levels) := if side = .sell then ("bids", book.bids) else ("asks", book.asks)
  let levels ← required field what levels
  match levels with
  | [] => .error (what ++ ": the " ++ field ++ " side is empty")
  | top :: _ =>
    let price ← asFloat "price" what top
    if price ≤ 0 then .error (what ++ ": the top of the " ++ field ++ " side is not a price")
    else .ok price

def readBookPrice (symbol : Symbol) (side : Side) : Flat ℚ := do
  let book ← call (.book symbol) fun w n => w.book n symbol
  shape (.book symbol) (topPrice symbol side book)

-- legs

def assetAliases : List (String × String) :=
  [("XBT", "BTC"), ("XXBT", "BTC"), ("XDG", "DOGE"), ("XXDG", "DOGE")]

def listedBases (listing : Listing) : List String := listing.map fun e => e.1.base

/-- The code, the name it is an alias of, and the code less Kraken's own prefix. -/
def baseCandidates (code : String) : List String :=
  let u := upper code
  [some u, assetAliases.lookup u,
    match u.toList with
    | c :: rest => if 3 < u.length ∧ (c = 'X' ∨ c = 'Z') then some (String.ofList rest) else none
    | [] => none].reduceOption

def resolveBase (code : String) (bases : List String) : Option String :=
  (baseCandidates code).find? fun c => c ≠ "" && bases.contains c

def choosePair (base : String) (listing : Listing) : Option Symbol :=
  [(⟨base, "EUR"⟩ : Symbol), ⟨base, "BTC"⟩].find? fun s => (listing.lookup s).isSome

structure Unclosable where
  symbol : Symbol
  side : String
  quantity : ℚ
  reason : String
  note : String
  deriving DecidableEq, Repr

structure Unsellable where
  base : String
  code : String
  free : ℚ
  reason : String
  note : String
  deriving DecidableEq, Repr

def closingSide (side : String) : Option Side :=
  [("LONG", Side.sell), ("SHORT", Side.buy)].lookup side

/-- What one position row comes to: nothing, a leg, or a row no closer is built for. -/
def routePosition (listing : Listing) (row : PositionRow) : Option (Leg ⊕ Unclosable) :=
  if row.side = "FLAT" then none
  else match closingSide row.side with
    | none => some (.inr ⟨row.symbol, row.side, row.quantity, "unrecognised_position_side",
        "the venue answered a side this command cannot derive a close from"⟩)
    | some side =>
      if (listing.lookup row.symbol).isNone then
        some (.inr ⟨row.symbol, row.side, row.quantity, "pair_not_listed",
          "the listing carries no such pair, so nothing can be sized against it"⟩)
      else some (.inl ⟨.margin, row.symbol.base, row.symbol, side, row.quantity, .margin,
        "position_status_report.quantity"⟩)

def marginLegs (positions : List PositionRow) (listing : Listing) : List Leg × List Unclosable :=
  let routed := positions.filterMap (routePosition listing)
  (routed.filterMap Sum.getLeft?, routed.filterMap Sum.getRight?)

def isEuro (code : String) : Bool := eurCodes.contains (upper code)

/-- What one balance comes to: nothing, a sell, or a balance no pair carries. -/
def routeBalance (listing : Listing) (row : BalanceRow) : Option (Leg ⊕ Unsellable) :=
  if isEuro row.code then none
  else if row.free ≤ 0 then none
  else match resolveBase row.code (listedBases listing) with
    | none => some (.inr ⟨row.code, row.code, row.free, "no_eur_or_btc_pair",
        "no listed base matched the code"⟩)
    | some base => match choosePair base listing with
      | none => some (.inr ⟨base, row.code, row.free, "no_eur_or_btc_pair",
          "the listing carries neither a EUR nor a BTC pair for it"⟩)
      | some symbol => some (.inl ⟨.spot, base, symbol, .sell, row.free, .cash, "account_state.free"⟩)

def spotLegs (balances : List BalanceRow) (listing : Listing) : List Leg × List Unsellable :=
  let routed := balances.filterMap (routeBalance listing)
  (routed.filterMap Sum.getLeft?, routed.filterMap Sum.getRight?)

-- sizing

def balanceUnit : ℚ := 1 / 100000000
def takerRate : ℚ := 1 / 125

def costminFor (symbol : Symbol) : Option ℚ :=
  (costmin symbol).bind fun (amount, quote) => if quote = symbol.quote then some amount else none

def tickFloored (referencePrice : Option ℚ) (c : PairConstraints) : Option ℚ :=
  referencePrice.bind fun p =>
    let price := floorToStep p c.tickSize
    if 0 < price then some price else none

def size (free : ℚ) (c : PairConstraints) (referencePrice : Option ℚ) :
    Except BelowMinimum SizedOrder :=
  let price := tickFloored referencePrice c
  let applicable := if price.isSome then (costminFor c.symbol).getD 0 else 0
  sizeOrder free (price.getD 0) applicable c

def belowMinimum (e : Except BelowMinimum SizedOrder) : Bool := e.toOption.isNone

inductive Verdict where
  | flat | dust | residual
  deriving DecidableEq, Repr

def classifyBalance (free : ℚ) (c : PairConstraints) (referencePrice : Option ℚ) : Verdict :=
  if free ≤ 0 then .flat
  else if belowMinimum (size free c referencePrice) then .dust else .residual

def sizeLeg (leg : Leg) (c : PairConstraints) (referencePrice : Option ℚ) : SizedLeg :=
  let qty := floorToStep leg.quantity c.lotStep
  let price := tickFloored referencePrice c
  let (send, reason, qty) : Bool × Option String × ℚ :=
    if leg.kind = .margin then
      if qty ≤ 0 then (false, some "unclosable_below_minimum", qty) else (true, none, qty)
    else if classifyBalance leg.quantity c price ≠ .residual then
      (false, some "dust_below_venue_minimum", qty)
    else
      let shaved := floorToStep (qty - balanceUnit) c.lotStep
      (true, none, if 0 < shaved ∧ belowMinimum (size shaved c price) = false then shaved else qty)
  let estimate := price.map (qty * ·)
  ⟨leg, qty, price, c.symbol.quote, estimate, estimate.map (· * takerRate), send, reason⟩

-- the plan

structure Snapshot where
  orders : Option (List String)
  positions : List PositionRow
  balances : List BalanceRow
  unread : List Unread

structure Plan where
  margin : List SizedLeg
  spot : List SizedLeg
  unsellable : List Unsellable
  unclosable : List Unclosable
  prices : List (Symbol × ℚ)
  constraints : List (Symbol × PairConstraints)
  orders : Option (List String)
  unread : List Unread

def readSnapshot (listing : Listing) (beforeTheCancel : Bool) : Flat Snapshot := do
  let (orders, unread) ← attempt
    (do
      let orders ← readOpenOrders
      pure (some orders, []))
    (if beforeTheCancel then do
      let words ← gets Tape.failure
      pure (none, [⟨"order", none, "orders_unread", words⟩])
    else raise)
  let (positions, positionsUnread) ← readMarginPositions listing
  let balances ← readBalances
  pure ⟨orders, positions, balances, unread ++ positionsUnread⟩

def setDefault (d : List (Symbol × Side)) (symbol : Symbol) (side : Side) : List (Symbol × Side) :=
  if (d.lookup symbol).isSome then d else d ++ [(symbol, side)]

/-- The pairs to price: the first leg on a pair fixes its side, margin legs first. -/
def wantedPairs (margin spot : List Leg) (listing : Listing) : List (Symbol × Side) :=
  let wanted := (margin ++ spot).foldl (fun d leg => setDefault d leg.symbol leg.side) []
  if spot.any (fun leg => leg.symbol.quote = "BTC") ∧ (listing.lookup ⟨"BTC", "EUR"⟩).isSome then
    setDefault wanted ⟨"BTC", "EUR"⟩ .sell
  else wanted

def priced (wanted : Symbol × Side) : Flat (Option (Symbol × ℚ)) :=
  attempt
    (do
      let price ← readBookPrice wanted.1 wanted.2
      pure (some (wanted.1, price)))
    (pure none)

def sizeAll (constraints : List (Symbol × PairConstraints)) (prices : List (Symbol × ℚ))
    (legs : List Leg) : Flat (List SizedLeg) :=
  collect legs fun leg => do
    let c ← orRaise (constraints.lookup leg.symbol)
    pure (sizeLeg leg c (prices.lookup leg.symbol))

def buildPlan (snapshot : Snapshot) (listing : Listing) : Flat Plan := do
  let (marginRaw, unclosable) := marginLegs snapshot.positions listing
  let (spotRaw, unsellable) := spotLegs snapshot.balances listing
  let wanted := wantedPairs marginRaw spotRaw listing
  let constraints ← collect wanted fun e => do
    let c ← shape .listing (constraintsFor e.1 listing)
    pure (e.1, c)
  let prices ← collect wanted priced
  let margin ← sizeAll constraints prices.reduceOption marginRaw
  let spot ← sizeAll constraints prices.reduceOption spotRaw
  pure ⟨margin, spot, unsellable, unclosable, prices.reduceOption, constraints, snapshot.orders,
    snapshot.unread⟩

-- the sweep

structure SweepResult where
  cancelOk : Bool
  cancelError : Option String
  ordersAfterCancel : Option Nat
  postWriteFailure : Option String
  outcomes : List LegOutcome
  final : Option Snapshot

def marginLeverage : Nat := 2

def mintClientOrderId (stamp : String) (index : Nat) : String :=
  "FLT" ++ stamp ++ "-" ++ toString index

/-- One market order. Its quantity is minted before anything leaves. -/
def submitLeg (sized : SizedLeg) (c : PairConstraints) (clientOrderId : String) : Flat String := do
  let mints ← env fun w => w.mintsQuantity sized.qty c.lotStep
  if mints then do
    let params : OrderParams :=
      { symbol := c.symbol, clientOrderId, side := sized.leg.side, quantity := sized.qty
        reduceOnly := sized.leg.kind = .margin
        accountType := if sized.leg.kind = .margin then .margin else .cash
        leverage := if sized.leg.kind = .margin then some marginLeverage else none }
    let n ← gets Tape.asks
    let answer ← env fun w => w.submitOrder n params
    modify fun t => { t with
      asks := t.asks + 1, trace := .order params answer.toOption.isSome :: t.trace }
    match answer with
    | .ok a => pure a
    | .error words => unreachable words
  else unreachable "the quantity could not be minted"

/-- A refusal is an outcome: nothing is raised, and nothing is sent twice. -/
def sendLeg (sized : SizedLeg) (c : PairConstraints) (index : Nat) (passName : String) :
    Flat LegOutcome :=
  if sized.send then do
    let stamp ← env World.stamp
    let id := mintClientOrderId stamp index
    let unpriced := if sized.referencePrice.isNone then some "no_reference_price" else none
    attempt
      (do
        let answer ← submitLeg sized c id
        pure ⟨sized.leg, sized.qty, passName, some id, true, unpriced, some answer, none⟩)
      (do
        let words ← gets Tape.failure
        let reason := if sized.leg.kind = .margin ∧ sized.qty < c.ordermin then
          some "unclosable_below_minimum" else unpriced
        pure ⟨sized.leg, sized.qty, passName, some id, true, reason, none, some words⟩)
  else pure ⟨sized.leg, sized.qty, passName, none, false, sized.reason, none, none⟩

/-- The constraints a leg is sized and minted at, the plan's own or read now. -/
def constraintsAt (symbol : Symbol) (listing : Listing) (plan : Plan) : Flat PairConstraints :=
  match plan.constraints.lookup symbol with
  | some c => pure c
  | none => shape .listing (constraintsFor symbol listing)

def sizedWithConstraints (legs : List Leg) (listing : Listing) (plan : Plan) :
    Flat (List (SizedLeg × PairConstraints)) :=
  collect legs fun leg => do
    let c ← constraintsAt leg.symbol listing plan
    pure (sizeLeg leg c (plan.prices.lookup leg.symbol), c)

def sendAll (passName : String) : List (SizedLeg × PairConstraints) → Nat → Flat Nat
  | [], index => pure index
  | (sized, c) :: rest, index => do
    let outcome ← sendLeg sized c (index + 1) passName
    modify fun t => { t with outcomes := t.outcomes ++ [outcome] }
    sendAll passName rest (index + 1)

/-- A read after the first write that only the journal reads: its failure is stepped over. -/
def readForTheRecord {α : Type} (read : Flat α) : Flat (Option α) := do
  modify fun t => { t with forRecord := true }
  let found ← attempt
    (do
      let a ← read
      pure (some a))
    (pure none)
  modify fun t => { t with forRecord := false }
  pure found

def cancelAll : Flat (Bool × Option String) := do
  let n ← gets Tape.asks
  let failed ← env fun w => w.cancelAllOrders n
  modify fun t => { t with asks := t.asks + 1, trace := .cancel failed.isNone :: t.trace }
  pure (failed.isNone, failed)

def spotPass (listing : Listing) (plan : Plan) (passName : String) (index : Nat) : Flat Nat := do
  let balances ← readBalances
  let sized ← sizedWithConstraints (spotLegs balances listing).1 listing plan
  sendAll passName sized index

/-- The closes and the two spot passes. Every read whose answer is consumed ends it where it fails. -/
def sendLegs (listing : Listing) (plan : Plan) : Flat Nat := do
  let rows ← readForTheRecord readOpenOrders
  modify fun t => { t with ordersAfter := rows.map List.length }
  let (positionsNow, _) ← readMarginPositions listing
  let closers ← sizedWithConstraints (marginLegs positionsNow listing).1 listing plan
  let index ← sendAll "margin" closers 0
  let _ ← readForTheRecord readPositions
  let index ← spotPass listing plan "spot-1" index
  spotPass listing plan "spot-2" index

def sweep (listing : Listing) (plan : Plan) : Flat SweepResult := do
  let (cancelOk, cancelError) ← cancelAll
  let (failure, final) ← attempt
    (do
      let _ ← sendLegs listing plan
      let final ← readSnapshot listing false
      pure (none, some final))
    (do
      let words ← gets Tape.failure
      pure (some words, none))
  let t ← get
  pure ⟨cancelOk, cancelError, t.ordersAfter, failure, t.outcomes, final⟩

-- the verdict

inductive Residual where
  | order (count : Nat)
  | position (symbol : Symbol) (side : String) (quantity : ℚ) (reason : String)
  | unread (u : Unread)
  | balance (code : String) (free : ℚ) (symbol : Option Symbol) (reason : String)
  deriving DecidableEq, Repr

def judgePosition (listing : Listing) (row : PositionRow) : Option Residual :=
  if row.side = "FLAT" then none
  else some (.position row.symbol row.side row.quantity
    (if row.side ≠ "LONG" ∧ row.side ≠ "SHORT" then "unrecognised_position_side"
    else if (listing.lookup row.symbol).isNone then "pair_not_listed"
    else "open_position"))

def judgeBalance (listing : Listing) (prices : List (Symbol × ℚ)) (row : BalanceRow) :
    Option Residual :=
  if isEuro row.code ∨ row.free ≤ 0 then none
  else match (resolveBase row.code (listedBases listing)).bind fun base => choosePair base listing with
    | none => some (.balance row.code row.free none "no_eur_or_btc_pair")
    | some symbol => match constraintsFor symbol listing with
      | .error words => some (.balance row.code row.free none ("unjudgeable: " ++ words))
      | .ok c =>
        if classifyBalance row.free c (prices.lookup symbol) = .residual then
          some (.balance row.code row.free (some symbol) "sellable_balance")
        else none

def judgeFinal (final : Snapshot) (listing : Listing) (prices : List (Symbol × ℚ)) : List Residual :=
  (match final.orders with
    | some (o :: rest) => [.order (o :: rest).length]
    | _ => []) ++
  final.positions.filterMap (judgePosition listing) ++
  final.unread.map .unread ++
  final.balances.filterMap (judgeBalance listing prices)

def exitCode (result : SweepResult) (residuals : List Residual) (readWholeBeforeTheCancel : Bool) :
    Nat :=
  if result.postWriteFailure.isSome ∨ result.cancelOk = false ∨ residuals ≠ [] ∨
      readWholeBeforeTheCancel = false then 2 else 0

-- the run

def isSpace (c : Char) : Bool :=
  let n := c.toNat
  (9 ≤ n && n ≤ 13) || (28 ≤ n && n ≤ 32) || (8192 ≤ n && n ≤ 8202) ||
    [133, 160, 5760, 8232, 8233, 8239, 8287, 12288].contains n

def strip (s : String) : List Char :=
  ((s.toList.dropWhile isSpace).reverse.dropWhile isSpace).reverse

def confirmWord : String := "FLATTEN"

def matchesConfirm (reply : String) : Bool := strip reply = confirmWord.toList

def preparePlan : Flat (Listing × Plan) := do
  let listing ← readListing
  let snapshot ← readSnapshot listing true
  let plan ← buildPlan snapshot listing
  pure (listing, plan)

def residualsOf (result : SweepResult) (listing : Listing) (plan : Plan) : List Residual :=
  match result.final with
  | some final => judgeFinal final listing plan.prices
  | none => []

/-- The writes and the verdict, once the word has been typed. -/
def carryOut (listing : Listing) (plan : Plan) : Flat Nat := do
  let result ← sweep listing plan
  pure (exitCode result (residualsOf result listing plan) (plan.unread = []))

def confirmAndCarryOut (listing : Listing) (plan : Plan) : Flat Nat := do
  let reply ← env World.prompt
  match reply with
  | .error _ => pure 1
  | .ok reply => if matchesConfirm reply then carryOut listing plan else pure 1

def runFlatten (execute : Bool) : Flat Nat := do
  let killFile ← env World.killFile
  let tty ← env World.tty
  let venue ← env World.venue
  if execute ∧ killFile = none then pure 1
  else if execute ∧ tty = false then pure 1
  else if venue.ok = false then pure 3
  else do
    let prepared ← attempt
      (do
        let found ← preparePlan
        pure (some found))
      (pure none)
    match prepared with
    | none => pure 3
    | some (listing, plan) => do
      let shown ← env World.planShown
      if shown = false then pure 1
      else if execute = false then pure 0
      else confirmAndCarryOut listing plan

end Flatten
