import Zcrypto.UpTo
import Zcrypto.Panel.Fills

/- The ladder at a boundary hour: four orders at the touch, posted once, which rest under the fill model's
   rule with no clock to the end of the box. What the fallback would pay is the touch across at the box end. -/
namespace Panel
open OrderBook (Decimal)

def postOffset : Nat := 120
def box : Nat := 900
def boxEnd : Nat := postOffset + box

def OrderSide.across : OrderSide → OrderSide
  | .bid => .ask
  | .ask => .bid

/-- An order's row of the ladder. -/
structure LadderRow (F : Type) where
  post : Post F
  filled : Bool
  timeToFill : Option Int
  fillPrice : Option F
  boxEndMid : Option F
  boxEndTouch : Option (F × F)
  metQty : F

/-- What the seconds of an episode carry. -/
structure Episode (F : Type) where
  book : Book
  lastMsgTs : Option Int
  orders : List (Order F)
  counts : Counts

section
variable {F : Type}

def oppositeTouch (float : Decimal → F) (o : Order F) (book : Book) : Option (F × F) :=
  (best book o.side.across).map fun level => (float (plain level.1), float (plain level.2))

def LadderRow.ofOrder (float : Decimal → F) (book : Book) (boxEndMid : Option F) (o : Order F) : LadderRow F where
  post := o.toPost
  filled := o.filledAt.isSome
  timeToFill := o.filledAt.map (· - o.ts)
  fillPrice := if o.filledAt.isSome then some (float o.price) else none
  boxEndMid
  boxEndTouch := boxEndMid.bind fun _ => oppositeTouch float o book
  metQty := o.filledQty

/-- The queue ahead of an order that is open. -/
def capOpen [Min F] (float : Decimal → F) (book : Book) (o : Order F) : Order F :=
  if o.isOpen then capQueue float book o else o

namespace Episode

def ingest (e : Episode F) (m : Message) : Except String (Episode F) := do
  let book ← Panel.ingest e.book m
  pure { e with book, lastMsgTs := some m.ts }

def print [Zero F] [Add F] [Sub F] [Max F] [LE F] [DecidableLE F] (e : Episode F) (trade : Print F) : Episode F :=
  { e with orders := e.orders.map (applyTrade · trade) }

variable [Zero F] [NatCast F] [Add F] [Sub F] [Mul F] [Div F] [Max F] [Min F] [LE F] [DecidableLE F]
  [DecidableEq F] (float : Decimal → F) (pair : String)

def post (boundary : Int) (e : Episode F) : Except String (Episode F) := do
  let (posts, counts) ← postAt float e.book boundary pair e.lastMsgTs e.counts
  pure { e with orders := posts.map Post.order, counts }

/-- One second: the messages and then the prints up to its boundary, the queue of every open order, and the
    one post. -/
def second (hour : Int) (k : Nat) (messages : List Message) (prints : List (Print F)) (e : Episode F) :
    Except String (Episode F) := do
  let e ← messages.foldlM ingest e
  let e := prints.foldl print e
  let e := { e with orders := e.orders.map (capOpen float e.book) }
  if k = postOffset then post float pair (boundaryOf hour k) e else pure e

end Episode

section
variable [Zero F] [NatCast F] [Add F] [Sub F] [Mul F] [Div F] [Max F] [Min F] [LE F] [DecidableLE F]
  [DecidableEq F] (float : Decimal → F)

/-- A boundary hour's episode, and no message or print after the box end. -/
def simulateEpisode (messages : List Message) (trades : List (Print F)) (book : Book) (hour : Int)
    (pair : String) (lastMsgTs : Option Int) : Except String (List (LadderRow F) × Counts) := do
  let (e, _, _) ← UpTo.sweep (boundaryOf hour) (·.ts) (·.ts) (Episode.second float pair hour)
    (List.range (boxEnd + 1)) ⟨book, lastMsgTs, [], 0, 0, 0⟩ messages trades
  let boxEndMid := freshMid float e.book (boundaryOf hour boxEnd) e.lastMsgTs
  pure (e.orders.map (LadderRow.ofOrder float e.book boxEndMid), e.counts)

end

end

end Panel
