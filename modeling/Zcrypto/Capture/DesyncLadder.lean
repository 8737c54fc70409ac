import Mathlib.Data.List.Infix
import Mathlib.Logic.Function.Basic

/- The ladder of a pair whose book went out of sync: bounded retries, one reconnect, then nothing for as
   long as the cooldown lasts. The handler of messages and a timed loop drive it, either of which may stand
   at a call of the client while the other goes on. -/
namespace DesyncRecovery

inductive Action where
  | none
  | retry
  | reconnect
  deriving DecidableEq, Repr

/-- Spans of time. -/
structure Schedule where
  grace : Int
  backoff : List Int
  cooldown : Int
  grace_nonneg : 0 ≤ grace

def Schedule.default : Schedule where
  grace := 20000000
  backoff := [5000000, 10000000, 20000000]
  cooldown := 3600000000
  grace_nonneg := by decide

structure PairState where
  desyncedAt : Option Int := .none
  lastAttemptAt : Option Int := .none
  attempts : Nat := 0
  escalatedAt : Option Int := .none
  deriving DecidableEq, Repr

section
variable (s : Schedule) (now : Int)

/-- An escalation older than the cooldown is forgotten here. -/
def noteDesync : Option PairState → PairState
  | .none => { desyncedAt := some now }
  | some state =>
    if state.desyncedAt.isSome then state
    else { desyncedAt := some now, escalatedAt := state.escalatedAt.filter fun e => now - e < s.cooldown }

/-- The active ladder is cleared, and the record of an escalation kept. -/
def noteRecovered : Option PairState → Option PairState
  | .none => .none
  | some state => (state.escalatedAt.filter fun e => now - e < s.cooldown).map fun e => { escalatedAt := some e }

def noteAttempt : Option PairState → Option PairState :=
  Option.map fun state => { state with lastAttemptAt := some now, attempts := state.attempts + 1 }

def noteEscalated (state : Option PairState) : PairState :=
  { state.getD { desyncedAt := some now } with escalatedAt := some now }

/-- How long the next attempt waits, where there are so many before it. -/
def wait (attempts : Nat) : Int :=
  if attempts = 0 then s.grace else s.backoff.getD (min (attempts - 1) (s.backoff.length - 1)) 0

/-- The verdict on a pair with no escalation in force. -/
def verdict (state : PairState) (desyncedAt : Int) : Action :=
  if now - state.lastAttemptAt.getD desyncedAt < wait s state.attempts then .none
  else if s.backoff.length ≤ state.attempts then .reconnect
  else .retry

/-- A cooldown that has passed arms the whole ladder again, with the desync as old as it was. -/
def rearm (state : PairState) : PairState :=
  { state with escalatedAt := .none, attempts := 0, lastAttemptAt := .none }

/-- What to do for a pair, and what is then recorded of it. -/
def due : Option PairState → Action × Option PairState
  | .none => (.none, .none)
  | some state =>
    match state.desyncedAt, state.escalatedAt with
    | .none, _ => (.none, some state)
    | some d, .none => (verdict s now state d, some state)
    | some d, some e =>
      if now - e < s.cooldown then (.none, some state)
      else (verdict s now (rearm state) d, some (rearm state))

end

/-- The task that handles messages. A call that raises there is not caught, and ends the daemon. -/
inductive Consumer where
  | listening
  | awaiting (pair : String) (since : Int)
  | raised
  | ended
  deriving DecidableEq, Repr

/-- What was seen of a pair, and what was done for it. -/
inductive Mark where
  | desynced (instant : Int)
  | retried (instant : Int)
  | reconnected (instant : Int)
  | recovered
  deriving DecidableEq, Repr

/-- `now` is what the loop read of the clock when its sweep began, and `pending` the rest of the sweep. -/
structure System where
  records : String → Option PairState := fun _ => .none
  desynced : String → Bool := fun _ => false
  consumer : Consumer := .listening
  connected : Bool
  clock : Int
  now : Int := clock
  pending : List String := []
  log : String → List Mark := fun _ => []

/-- A message is of one pair: a message of several is as many of these. -/
inductive Event where
  | message (pair : String) (inSync : Bool) (elapsed : Nat)
  | returns
  | raises
  | ends
  | connection (up : Bool)
  | sweep (elapsed : Nat)
  | visit
  deriving DecidableEq, Repr

namespace System
open Function

variable (s : Schedule) (books : List String) (sys : System)

def marked (pair : String) (m : Mark) : System := { sys with log := update sys.log pair (m :: sys.log pair) }

def recorded (pair : String) (r : Option PairState) : System :=
  { sys with records := update sys.records pair r }

/-- A desync is told to the ladder when the call returns, as of the instant at which it was seen. -/
def handleBookMessage (pair : String) (inSync : Bool) : System :=
  let was := sys.desynced pair
  let seen := { sys with desynced := update sys.desynced pair (!inSync) }
  if !inSync then
    if !was then { seen.marked pair (.desynced sys.clock) with consumer := .awaiting pair sys.clock } else seen
  else if was then
    (seen.marked pair .recovered).recorded pair (noteRecovered s sys.clock (sys.records pair))
  else seen

/-- One pair of a sweep. The ladder is advanced before the client is called, so that a call that raises, which
    is caught, changes nothing. -/
def visitPair (pair : String) : System :=
  if !sys.desynced pair then sys.recorded pair (noteRecovered s sys.now (sys.records pair))
  else
    let (action, r) := due s sys.now (sys.records pair)
    match action with
    | .none => sys.recorded pair r
    | .retry =>
      if !sys.connected then sys.recorded pair r
      else (sys.marked pair (.retried sys.now)).recorded pair (noteAttempt sys.now r)
    | .reconnect =>
      if !sys.connected then sys.recorded pair r
      else (sys.marked pair (.reconnected sys.now)).recorded pair (some (noteEscalated sys.now r))

/-- What is not possible does not happen: the handler goes on once its call has come back, and a sweep begins
    once the one before it is through. -/
def step : Event → System
  | .message pair inSync elapsed =>
    if sys.consumer = .listening ∧ pair ∈ books then
      handleBookMessage s { sys with clock := sys.clock + elapsed } pair inSync
    else sys
  | .returns =>
    match sys.consumer with
    | .awaiting pair since =>
      { sys.recorded pair (some (noteDesync s since (sys.records pair))) with consumer := .listening }
    | _ => sys
  | .raises => if sys.consumer = .ended then sys else { sys with consumer := .raised }
  | .ends => { sys with consumer := .ended }
  | .connection up => { sys with connected := up }
  | .sweep elapsed =>
    if sys.consumer ≠ .ended ∧ sys.pending = [] then
      { sys with clock := sys.clock + elapsed, now := sys.clock + elapsed, pending := books }
    else sys
  | .visit =>
    match sys.pending with
    | pair :: rest =>
      if sys.consumer ≠ .ended then { visitPair s sys pair with pending := rest } else sys
    | [] => sys

/-- The states of a run. -/
def after (events : ℕ → Event) : ℕ → System
  | 0 => sys
  | n + 1 => step s books (after events n) (events n)

end System
end DesyncRecovery
