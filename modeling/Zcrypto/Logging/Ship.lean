import Mathlib.Algebra.BigOperators.Group.List.Basic
import Mathlib.Algebra.Order.Field.Rat

/- The log shipper: records go into a bounded ring, and a worker of its own posts them in batches. A turn of the worker is
   one of its reads or writes of what it shares, so that records come, and the shipper is closed, between any two of them;
   what a post is answered, and when, is the run's. -/
namespace LogShip

/-- A record as it is shipped. -/
structure Entry where
  level : String
  tsNs : String
  line : String
  deriving DecidableEq, Repr

inductive Outcome where
  | ok | retry | drop
  deriving DecidableEq, Repr

structure Config where
  ringCapacity : Nat
  batchMax : Nat
  backoffMin : ℚ
  backoffMax : ℚ

def Config.defaults : Config := ⟨4096, 500, 1, 30⟩

/- The body of a push. -/

/-- One level's stream, in the order its lines came in. -/
structure Stream where
  level : String
  values : List (String × String)
  deriving DecidableEq, Repr

def Entry.value (e : Entry) : String × String := (e.tsNs, e.line)

def addTo (e : Entry) : List Stream → List Stream
  | [] => [⟨e.level, [e.value]⟩]
  | s :: rest => if s.level = e.level then { s with values := s.values ++ [e.value] } :: rest else s :: addTo e rest

def streamsOf (entries : List Entry) : List Stream := entries.foldl (fun streams e => addTo e streams) []

/-- A push: each stream under its three labels. -/
def buildPayload (entries : List Entry) (host service : String) : List (List (String × String) × List (String × String)) :=
  (streamsOf entries).map fun s => ([("host", host), ("container", service), ("level", s.level)], s.values)

/- The handler. -/

/-- Where the worker is, and what it has taken from the ring and not yet held. -/
inductive Pc where
  | top
  | woke
  | took (batch : List Entry)
  | holding
  | answered (outcome : Outcome)
  | accounted (recovered : Bool)
  | announcing
  | warning
  | backingOff
  | flushTop
  | flushTook (batch : List Entry)
  | flushHolding
  | flushPosted
  | ended
  deriving DecidableEq, Repr

structure Handler where
  ring : List Entry := []
  held : List Entry := []
  droppedTotal : Nat := 0
  shippedLinesTotal : Nat := 0
  droppedUnannounced : Nat := 0
  lastShipSuccessAt : Option Int := none
  lastCycleAt : Int
  backoff : ℚ
  stop : Bool := false
  pc : Pc := .top

def Handler.init (c : Config) (now : Int) : Handler := { lastCycleAt := now, backoff := c.backoffMin }

/-- The oldest gives way to a record that finds the ring full. -/
def Handler.emit (c : Config) (h : Handler) (e : Entry) : Handler :=
  let full := h.ring.length = c.ringCapacity
  { h with
    ring := (h.ring ++ [e]).drop (h.ring.length + 1 - c.ringCapacity)
    droppedTotal := if full then h.droppedTotal + 1 else h.droppedTotal
    droppedUnannounced := if full then h.droppedUnannounced + 1 else h.droppedUnannounced }

/-- What a turn of the worker meets: the answer to its post, the clock, and the record that its warning makes. -/
structure Answer where
  outcome : Outcome
  now : Int
  warning : Entry

def Handler.turn (c : Config) (a : Answer) (h : Handler) : Handler :=
  match h.pc with
  | .top => { h with pc := if h.stop then .flushTop else .woke }
  | .woke =>
    if h.held = [] then { h with ring := h.ring.drop c.batchMax, pc := .took (h.ring.take c.batchMax) }
    else { h with pc := .holding }
  | .took batch => { h with held := batch, pc := .holding }
  | .holding =>
    if h.held = [] then { h with lastCycleAt := a.now, pc := .top } else { h with pc := .answered a.outcome }
  | .answered .ok =>
    { h with
      shippedLinesTotal := h.shippedLinesTotal + h.held.length
      lastShipSuccessAt := some a.now
      lastCycleAt := a.now
      pc := .accounted true }
  | .answered .drop =>
    { h with
      droppedTotal := h.droppedTotal + h.held.length
      droppedUnannounced := h.droppedUnannounced + h.held.length
      lastCycleAt := a.now
      pc := .accounted false }
  | .answered .retry => { h with pc := .backingOff }
  | .accounted recovered =>
    { h with held := [], backoff := c.backoffMin, pc := if recovered then .announcing else .top }
  | .announcing => { h with droppedUnannounced := 0, pc := if h.droppedUnannounced = 0 then .top else .warning }
  | .warning => { h.emit c a.warning with pc := .top }
  | .backingOff => { h with backoff := min (h.backoff * 2) c.backoffMax, pc := .top }
  | .flushTop =>
    if h.held = [] then { h with ring := h.ring.drop c.batchMax, pc := .flushTook (h.ring.take c.batchMax) }
    else { h with pc := .flushHolding }
  | .flushTook batch => { h with held := batch, pc := .flushHolding }
  | .flushHolding => { h with pc := if h.held ≠ [] ∧ a.outcome = .ok then .flushPosted else .ended }
  | .flushPosted => { h with held := [], pc := .flushTop }
  | .ended => h

def Handler.close (h : Handler) : Handler := { h with stop := true }

/-- What `close` says is left. -/
def Handler.left (h : Handler) : Nat := h.held.length + h.ring.length

/- What is seen of a run. -/

/-- The records in the order they came, those that left the ring in the order they left it and whether they gave way, the
    batches that were answered for good and whether they were refused, the lines that the last flush shipped, and the
    counts that were announced. -/
structure Seen where
  emitted : List Entry := []
  gone : List (Entry × Bool) := []
  settled : List (List Entry × Bool) := []
  flushed : Nat := 0
  announced : List Nat := []

def Seen.emit (c : Config) (h : Handler) (e : Entry) (s : Seen) : Seen :=
  { s with
    emitted := s.emitted ++ [e]
    gone := s.gone ++ ((h.ring ++ [e]).take (h.ring.length + 1 - c.ringCapacity)).map (·, true) }

def Seen.drain (c : Config) (h : Handler) (s : Seen) : Seen :=
  { s with gone := s.gone ++ (h.ring.take c.batchMax).map (·, false) }

def Seen.turn (c : Config) (a : Answer) (h : Handler) (s : Seen) : Seen :=
  match h.pc with
  | .woke | .flushTop => if h.held = [] then s.drain c h else s
  | .holding =>
    if h.held = [] then s
    else match a.outcome with
      | .ok => { s with settled := s.settled ++ [(h.held, false)] }
      | .drop => { s with settled := s.settled ++ [(h.held, true)] }
      | .retry => s
  | .announcing => { s with announced := s.announced ++ [h.droppedUnannounced] }
  | .warning => s.emit c h a.warning
  | .flushHolding =>
    if h.held ≠ [] ∧ a.outcome = .ok then
      { s with settled := s.settled ++ [(h.held, false)], flushed := s.flushed + h.held.length }
    else s
  | _ => s

inductive Event where
  | emit (e : Entry)
  | turn (a : Answer)
  | close

structure World where
  handler : Handler
  seen : Seen := {}

def World.step (c : Config) (w : World) : Event → World
  | .emit e => ⟨w.handler.emit c e, w.seen.emit c w.handler e⟩
  | .turn a => ⟨w.handler.turn c a, w.seen.turn c a w.handler⟩
  | .close => ⟨w.handler.close, w.seen⟩

def run (c : Config) (start : Int) (events : List Event) : World :=
  events.foldl (World.step c) ⟨.init c start, {}⟩

end LogShip
