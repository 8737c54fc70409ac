import Zcrypto.Panel.Materialize
import Mathlib.Data.Nat.Cast.Defs

/- The fill model: passive orders posted at the touch of the replayed book, met by the prints of the trades
   and cancelled by a clock. Prices compare as decimals. What a decimal narrows to as a float is a
   parameter, and so is the arithmetic of the floats. -/
namespace Panel
open OrderBook (Decimal)

def gridS : Nat := 15
def horizon : Int := 900 * 1000000
def cancelAfter : Int := 5 * 1000000
def staleAfter : Int := 30 * 1000000
def sizeRungs : List Nat := [0, 1]

inductive OrderSide where
  | bid | ask
  deriving DecidableEq, Repr

inductive TradeSide where
  | buy | sell
  deriving DecidableEq, Repr

/-- The mids that are read after a post and after a fill. -/
inductive Mid where
  | fillPlus60 | fillPlus900 | postPlus900 | postPlus3600
  deriving DecidableEq, Repr

/-- The last of a post's instants. -/
def lastMid : Mid := .postPlus3600

def fillMids : List (Mid × Int) := [(.fillPlus60, 60 * 1000000), (.fillPlus900, 900 * 1000000)]
def postMids : List (Mid × Int) := [(.postPlus900, 900 * 1000000), (.postPlus3600, 3600 * 1000000)]
def ordersPerPost : Nat := 2 * sizeRungs.length

/-- A print of the trades frame. -/
structure Print (F : Type) where
  ts : Int
  side : TradeSide
  price : Decimal
  qty : F
  deriving Repr

/-- What an order is posted with. -/
structure Post (F : Type) where
  ts : Int
  pair : String
  side : OrderSide
  size : Nat
  price : Decimal
  ourQty : F
  queueAheadQty : F
  queueAheadNotional : F
  midAtPost : F
  spreadAtPostBps : F
  staleAtPost : Option Int
  deriving DecidableEq, Repr

/-- `filledQty` is the part of the order that the prints have met, `aheadQty` the bound of the queue
    ahead, `levelQty` the level's quantity as the last boundary left it. -/
structure Order (F : Type) extends Post F where
  filledQty : F
  awaySince : Option Int
  filledAt : Option Int
  cancelledAt : Option Int
  mids : Mid → Option F
  aheadQty : F
  levelQty : F

/-- An order's row. -/
structure FillRow (F : Type) where
  post : Post F
  filled : Bool
  timeToFill : Option Int
  cancelledAfter : Option Int
  fillPrice : Option F
  mids : Mid → Option F

structure Counts where
  posts : Nat
  skippedNoQuote : Nat
  skippedStale : Nat
  deriving DecidableEq, Repr

def opensWithSnapshot (messages : List Message) : Bool := messages.head?.any fun m => m.type = "snapshot"

/- Prices. -/

namespace Price

def lt (a b : Decimal) : Bool := a.le b && !b.le a

def sub : Decimal → Decimal → Decimal
  | .number a, .number b => .number (a - b)
  | .infinity negative, .number _ => .infinity negative
  | .number _, .infinity negative => .infinity !negative
  | .infinity true, .infinity false => .infinity true
  | .infinity false, .infinity true => .infinity false
  | _, _ => .nan

def abs : Decimal → Decimal
  | .number a => .number |a|
  | .infinity _ => .infinity false
  | .nan => .nan

end Price

def levelsOf (book : Book) : OrderSide → Side
  | .bid => book.bids
  | .ask => book.asks

/-- The price nearest the other side, the first of equals. -/
def better (side : OrderSide) (held level : Level) : Level :=
  match side with
  | .bid => if (plain level.1).le (plain held.1) then held else level
  | .ask => if (plain held.1).le (plain level.1) then held else level

def best (book : Book) (side : OrderSide) : Option Level :=
  match levelsOf book side with
  | [] => none
  | level :: rest => some (rest.foldl (better side) level)

/-- The level's resting quantity at a price. -/
def qtyAt (side : Side) (price : Decimal) : Decimal :=
  match side.find? fun level => plain level.1 = price with
  | some level => plain level.2
  | none => .number 0

def gaps (side : Side) : List Decimal :=
  let prices := (side.map fun level => plain level.1).insertionSort fun a b => a.le b
  prices.tail.zipWith (fun high low => Price.sub high low) prices

/-- The smallest gap between consecutive levels on either side. -/
def pairTick (book : Book) : Decimal :=
  match gaps book.bids ++ gaps book.asks with
  | [] => .number 0
  | gap :: rest => rest.foldl (fun held gap => if held.le gap then held else gap) gap

/- Orders. -/

section
variable {F : Type}

def Order.isOpen (o : Order F) : Bool := o.filledAt.isNone && o.cancelledAt.isNone

def staleness (boundary : Int) (lastMsgTs : Option Int) : Option Int := lastMsgTs.map (boundary - ·)

def isStale (boundary : Int) (lastMsgTs : Option Int) : Bool :=
  (staleness boundary lastMsgTs).any (staleAfter < ·)

def FillRow.ofOrder (float : Decimal → F) (o : Order F) : FillRow F where
  post := o.toPost
  filled := o.filledAt.isSome
  timeToFill := o.filledAt.map (· - o.ts)
  cancelledAfter := o.cancelledAt.map (· - o.ts)
  fillPrice := if o.filledAt.isSome then some (float o.price) else none
  mids := o.mids

section
variable [Zero F]

/-- An order that was just posted. -/
def Post.order (p : Post F) : Order F :=
  { p with
    filledQty := 0
    awaySince := none
    filledAt := none
    cancelledAt := none
    mids := fun _ => none
    aheadQty := p.queueAheadQty
    levelQty := p.queueAheadQty }

variable [Add F] [Sub F] [Max F] [LE F] [DecidableLE F]

/-- Whether a print is on the order's side at its price or beyond. -/
def meets (o : Order F) (trade : Print F) : Bool :=
  match o.side with
  | .bid => trade.side = .sell && trade.price.le o.price
  | .ask => trade.side = .buy && o.price.le trade.price

def through (o : Order F) (trade : Print F) : Bool :=
  match o.side with
  | .bid => Price.lt trade.price o.price
  | .ask => Price.lt o.price trade.price

/-- An open order met by one print: at the price the queue ahead is met first. -/
def applyTrade (o : Order F) (trade : Print F) : Order F :=
  if !o.isOpen || !meets o trade then o
  else
    let met := if through o trade then { o with filledQty := o.filledQty + trade.qty }
      else { o with
        filledQty := o.filledQty + max 0 (trade.qty - o.aheadQty)
        aheadQty := max 0 (o.aheadQty - trade.qty) }
    if o.ourQty ≤ met.filledQty then { met with filledAt := some trade.ts } else met

end

section
variable [Min F] (float : Decimal → F)

/-- The queue ahead is capped by the level as the boundary before left it. -/
def capQueue (book : Book) (o : Order F) : Order F :=
  { o with
    aheadQty := min o.aheadQty o.levelQty
    levelQty := float (qtyAt (levelsOf book o.side) o.price) }

/-- The order's side is empty, or its best quote stands a tick or more from the order's price. -/
def isAway (book : Book) (tick : Decimal) (o : Order F) : Bool :=
  match best book o.side with
  | none => true
  | some level =>
    plain level.1 ≠ o.price && tick.le (Price.abs (Price.sub (plain level.1) o.price))

def tickCancel (book : Book) (ts : Int) (tick : Decimal) (o : Order F) : Order F :=
  if !o.isOpen then o
  else
    let capped := capQueue float book o
    let awaySince := if isAway book tick o then some (o.awaySince.getD ts) else none
    let away := awaySince.elim 0 (ts - ·)
    let cancelledAt := if cancelAfter ≤ away ∨ horizon ≤ ts - o.ts then some ts else none
    { capped with awaySince, cancelledAt }

end

/- Posts. -/

section
variable [NatCast F] [Add F] [Sub F] [Mul F] [Div F] [DecidableEq F] (float : Decimal → F)

/-- The ladder of a quote, by rung. -/
def notionalsFor (quote : String) : Except String (Nat → F) :=
  let eur : Nat → F
    | 0 => (100 : Nat)
    | 1 => (1000 : Nat)
    | _ => (10000 : Nat)
  let reference : F := (5587628413495087 : Nat) / (100000000000 : Nat)
  if quote = "EUR" then .ok eur
  else if quote = "BTC" then .ok fun rung => eur rung / reference
  else .error "PanelError: no notional ladder for the quote"

def divide (a b : F) : Except String F :=
  if b = (0 : Nat) then .error "ZeroDivisionError: float division by zero" else .ok (a / b)

def midOf (bid ask : Level) : F := (float (plain bid.1) + float (plain ask.1)) / (2 : Nat)

/-- The four posts at the touch, none where a side is empty. -/
def postOrders (book : Book) (ts : Int) (pair : String) (stale : Option Int) :
    Except String (List (Post F)) :=
  match best book .bid, best book .ask with
  | some bid, some ask => do
    let mid := midOf float bid ask
    let spread ← divide (float (plain ask.1) - float (plain bid.1)) mid
    let notionals ← notionalsFor (quoteOf pair)
    let touch := [(OrderSide.bid, bid), (OrderSide.ask, ask)]
    let posts ← touch.mapM fun (side, level) => sizeRungs.mapM fun size => do
      let price := plain level.1
      let queueAhead := float (plain level.2)
      let ourQty ← divide (notionals size) (float price)
      pure { ts, pair, side, size, price, ourQty, queueAheadQty := queueAhead,
             queueAheadNotional := queueAhead * float price, midAtPost := mid,
             spreadAtPostBps := spread * (10000 : Nat), staleAtPost := stale }
    pure posts.flatten
  | _, _ => .ok []

/-- None where a side is empty or the book is stale. -/
def freshMid (book : Book) (boundary : Int) (lastMsgTs : Option Int) : Option F :=
  match best book .bid, best book .ask with
  | some bid, some ask => if isStale boundary lastMsgTs then none else some (midOf float bid ask)
  | _, _ => none

/-- What is posted at a boundary, and the counts after it. -/
def postAt (book : Book) (boundary : Int) (pair : String) (lastMsgTs : Option Int) (counts : Counts) :
    Except String (List (Post F) × Counts) :=
  if isStale boundary lastMsgTs then
    .ok ([], { counts with skippedStale := counts.skippedStale + ordersPerPost })
  else do
    let posts ← postOrders float book boundary pair (staleness boundary lastMsgTs)
    if posts.isEmpty then
      pure (posts, { counts with skippedNoQuote := counts.skippedNoQuote + ordersPerPost })
    else pure (posts, { counts with posts := counts.posts + ordersPerPost })

end

/- The mids that are waited for. -/

/-- A mid to be read for an order, which is known by its place among the hour's. -/
structure Awaited where
  due : Int
  name : Mid
  order : Nat
  deriving DecidableEq, Repr

/-- Into the heap, kept in the order in which it is popped: by instant, and then as it was pushed. -/
def push (a : Awaited) : List Awaited → List Awaited
  | [] => [a]
  | b :: rest => if b.due ≤ a.due then b :: push a rest else a :: b :: rest

def pushAll (pending awaited : List Awaited) : List Awaited :=
  awaited.foldl (fun pending a => push a pending) pending

/-- The mids of some names that are not read of an order. -/
def awaits (i : Nat) (o : Order F) (names : List (Mid × Int)) (start : Int) : List Awaited :=
  names.filterMap fun (name, offset) => if (o.mids name).isNone then some ⟨start + offset, name, i⟩ else none

def awaitsFill (i : Nat) (o : Order F) : List Awaited :=
  match o.filledAt with
  | some at_ => awaits i o fillMids at_
  | none => []

/- The hour. -/

/-- The boundary of a second of the hour. -/
def boundaryOf (hour : Int) (k : Nat) : Int := startOf hour + k * 1000000

/-- What the seconds of an hour carry. An order's place in `orders` is its name. -/
structure Hour (F : Type) where
  book : Book
  lastMsgTs : Option Int
  orders : List (Order F)
  pending : List Awaited
  rows : List (FillRow F)
  counts : Counts
  tick : Decimal

namespace Hour

def start (book : Book) (lastMsgTs : Option Int) (carried : List (Order F)) : Hour F where
  book
  lastMsgTs
  orders := carried
  pending := pushAll [] (carried.zipIdx.flatMap fun (o, i) => awaits i o postMids o.ts ++ awaitsFill i o)
  rows := []
  counts := ⟨0, 0, 0⟩
  tick := .number 0

def ingest (h : Hour F) (m : Message) : Except String (Hour F) := do
  let book ← Panel.ingest h.book m
  pure { h with book, lastMsgTs := some m.ts }

/-- One mid read for one order, whose row is whole with its last. -/
def readMid (float : Decimal → F) (mid : F) (h : Hour F) (a : Awaited) : Hour F :=
  match h.orders[a.order]? with
  | none => h
  | some o =>
    let read := { o with mids := Function.update o.mids a.name (some mid) }
    { h with
      orders := h.orders.set a.order read
      rows := if a.name = lastMid then h.rows ++ [FillRow.ofOrder float read] else h.rows }

section
variable [NatCast F] [Add F] [Div F] (float : Decimal → F)

/-- Every mid that is due is read from a book that has one. -/
def readDue (boundary : Int) (h : Hour F) : Hour F :=
  match freshMid float h.book boundary h.lastMsgTs with
  | none => h
  | some mid =>
    (h.pending.takeWhile (·.due ≤ boundary)).foldl (readMid float mid)
      { h with pending := h.pending.dropWhile (·.due ≤ boundary) }

end

/-- One print, and the mids that wait for the orders it filled. -/
def print [Zero F] [Add F] [Sub F] [Max F] [LE F] [DecidableLE F] (h : Hour F) (trade : Print F) : Hour F :=
  { h with
    orders := h.orders.map (applyTrade · trade)
    pending := pushAll h.pending (h.orders.zipIdx.flatMap fun (o, i) =>
      if o.isOpen then awaitsFill i (applyTrade o trade) else []) }

variable [Zero F] [NatCast F] [Add F] [Sub F] [Mul F] [Div F] [Max F] [Min F] [LE F] [DecidableLE F]
  [DecidableEq F] (float : Decimal → F) (pair : String)

def post (boundary : Int) (h : Hour F) : Except String (Hour F) := do
  let (posts, counts) ← postAt float h.book boundary pair h.lastMsgTs h.counts
  pure { h with
    orders := h.orders ++ posts.map Post.order
    pending := pushAll h.pending ((posts.map Post.order).zipIdx h.orders.length |>.flatMap fun (o, i) =>
      awaits i o postMids o.ts)
    counts }

/-- One second: the messages and then the prints up to its boundary, the queue and the clock of every
    order, the mids that are due, and the posts of the grid. -/
def second (boundary : Int) (onGrid : Bool) (messages : List Message) (prints : List (Print F))
    (h : Hour F) : Except String (Hour F) := do
  let h ← messages.foldlM ingest h
  let h := if onGrid then { h with tick := pairTick h.book } else h
  let h := prints.foldl print h
  let h := { h with orders := h.orders.map (tickCancel float h.book boundary h.tick) }
  let h := readDue float boundary h
  if onGrid then post float pair boundary h else pure h

def seconds (hour : Int) :
    List Nat → Hour F → List Message → List (Print F) →
      Except String (Hour F × List Message × List (Print F))
  | [], h, messages, prints => .ok (h, messages, prints)
  | k :: later, h, messages, prints => do
    let boundary := boundaryOf hour k
    let h ← second float pair boundary (k % gridS = 0) (messages.takeWhile (·.ts ≤ boundary))
      (prints.takeWhile (·.ts ≤ boundary)) h
    seconds hour later h (messages.dropWhile (·.ts ≤ boundary)) (prints.dropWhile (·.ts ≤ boundary))

/-- The messages and prints after the last boundary, for the next hour to carry. -/
def rest (messages : List Message) (prints : List (Print F)) (h : Hour F) : Except String (Hour F) := do
  let h ← messages.foldlM ingest h
  pure { h with orders := prints.foldl (fun orders trade => orders.map (applyTrade · trade)) h.orders }

end Hour

section
variable [Zero F] [NatCast F] [Add F] [Sub F] [Mul F] [Div F] [Max F] [Min F] [LE F] [DecidableLE F]
  [DecidableEq F] (float : Decimal → F)

/-- The hour as its end leaves it. -/
def runHour (messages : List Message) (trades : List (Print F)) (book : Book) (hour : Int) (pair : String)
    (carried : List (Order F)) (lastMsgTs : Option Int) : Except String (Hour F) := do
  let (h, messages, trades) ← Hour.seconds float pair hour (List.range secondsPerHour)
    (Hour.start book lastMsgTs carried) messages trades
  h.rest messages trades

/-- Its last mid is not read. -/
def Order.isCarried (o : Order F) : Bool := (o.mids lastMid).isNone

def Hour.carried (h : Hour F) : List (Order F) := h.orders.filter Order.isCarried

structure Simulated (F : Type) where
  rows : List (FillRow F)
  carried : List (Order F)
  book : Book
  lastMsgTs : Option Int
  counts : Counts

def simulateHour (messages : List Message) (trades : List (Print F)) (book : Book) (hour : Int)
    (pair : String) (carried : List (Order F)) (lastMsgTs : Option Int) : Except String (Simulated F) := do
  let h ← runHour float messages trades book hour pair carried lastMsgTs
  pure ⟨h.rows, h.carried, h.book, h.lastMsgTs, h.counts⟩

end

/-- Every carried order as a row where the data ends. -/
def flush (float : Decimal → F) (carried : List (Order F)) : List (FillRow F) :=
  carried.map (FillRow.ofOrder float)

end

end Panel
