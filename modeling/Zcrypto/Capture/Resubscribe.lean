import Mathlib.Data.Finset.Insert
import Mathlib.Data.Finset.Erase

/- The socket client of the capture daemon: the subscriptions of a fresh socket, the resubscription of one pair,
   and the tasks that hold its second frame back until the first is acknowledged. Sends, replies, timeouts, drops
   and reconnects come in any order; a send raises only on a socket that is closed or closing. -/
namespace Resubscribe

inductive Channel where
  | book
  | trade
  deriving DecidableEq, Repr

inductive Method where
  | subscribe
  | unsubscribe
  deriving DecidableEq, Repr

structure Message where
  method : Method
  channel : Channel
  symbol : List String
  snapshot : Option Bool
  depth : Option Nat
  reqId : Option Nat
  deriving DecidableEq, Repr

def buildSubscribeMessage (channel : Channel) (symbols : List String) (depth reqId : Option Nat) : Message :=
  ⟨.subscribe, channel, symbols, some true, depth, reqId⟩

/-- There is no `snapshot` here: it is for a subscribe alone. -/
def buildUnsubscribeMessage (channel : Channel) (symbols : List String) (depth reqId : Option Nat) : Message :=
  ⟨.unsubscribe, channel, symbols, none, depth, reqId⟩

/-- A send that was begun. Of a deferred subscribe, `after` is the request whose reply it waited for. -/
structure Frame where
  no : Nat
  socket : Nat
  message : Message
  after : Option Nat
  deriving DecidableEq, Repr

/-- A `resubscribe_book` that stands at its send. -/
structure Call where
  pair : String
  socket : Nat
  reqId : Nat
  frame : Nat
  deriving DecidableEq, Repr

/-- Where a waiter stands: at its future, with the timer gone off or not, or at its send. -/
inductive Phase where
  | waiting (timedOut : Bool)
  | sending (frame : Nat)
  deriving DecidableEq, Repr

/-- A `_subscribe_after_ack` that has not ended. -/
structure Waiter where
  pair : String
  socket : Nat
  reqId : Nat
  phase : Phase
  deriving DecidableEq, Repr

/-- Where `stream` stands: without a socket, at a send of `_subscribe_all`, or at the messages. -/
inductive Stream where
  | idle
  | subscribing (channel : Channel) (frame : Nat)
  | reading
  deriving DecidableEq, Repr

/-- Sockets and frames are numbered as they come. `down` has the sockets that are closed or closing, `returned`
    the frames whose send has returned; `answered` and `rejected` are the requests in the order in which their
    future was given a result, or a rejection of them was counted. -/
structure Client where
  ws : Option Nat := none
  sockets : Nat := 0
  down : Finset Nat := ∅
  stream : Stream := .idle
  frames : List Frame := []
  returned : Finset Nat := ∅
  reqSeq : Nat := 0
  issued : Finset Nat := ∅
  pending : Finset Nat := ∅
  cancelled : Finset Nat := ∅
  calls : List Call := []
  waiters : List Waiter := []
  answered : List Nat := []
  rejected : List Nat := []
  reconnectsTotal : Nat := 0
  resubscribesTotal : Nat := 0
  resubscribeErrorsTotal : Nat := 0
  resubscribeAckTimeoutsTotal : Nat := 0
  deriving DecidableEq

namespace Client

def send (c : Client) (socket : Nat) (message : Message) (after : Option Nat) : Client :=
  { c with frames := c.frames ++ [⟨c.frames.length, socket, message, after⟩] }

def mint (c : Client) : Client :=
  { c with reqSeq := c.reqSeq + 1, issued := insert (c.reqSeq + 1) c.issued }

/-- The book frame of `_subscribe_all` goes out with nothing between it and the installation of its socket. -/
def connects (pairs : List String) (depth : Nat) (c : Client) : Client :=
  { c with
    ws := some c.sockets
    sockets := c.sockets + 1
    stream := .subscribing .book c.frames.length }.send
    c.sockets (buildSubscribeMessage .book pairs (some depth) none) none

def subscribeReturns (pairs : List String) (c : Client) (socket frame : Nat) : Channel → Client
  | .book =>
    { c with
      returned := insert frame c.returned
      stream := .subscribing .trade c.frames.length }.send
      socket (buildSubscribeMessage .trade pairs none none) none
  | .trade => { c with returned := insert frame c.returned, stream := .reading }

/-- Whatever ends the `async with` has closed its socket. -/
def drops (c : Client) (socket : Nat) : Client :=
  { c with
    ws := none
    down := insert socket c.down
    stream := .idle
    reconnectsTotal := c.reconnectsTotal + 1 }

def resubscribeBook (depth : Nat) (c : Client) (pair : String) : Client :=
  match c.ws with
  | none => c
  | some socket =>
    { c.mint with
      pending := insert (c.reqSeq + 1) c.pending
      calls := ⟨pair, socket, c.reqSeq + 1, c.frames.length⟩ :: c.calls }.send
      socket (buildUnsubscribeMessage .book [pair] (some depth) (some (c.reqSeq + 1))) none

def callReturns (c : Client) (k : Call) : Client :=
  { c with
    returned := insert k.frame c.returned
    resubscribesTotal := c.resubscribesTotal + 1
    calls := c.calls.erase k
    waiters := ⟨k.pair, k.socket, k.reqId, .waiting false⟩ :: c.waiters }

/-- The send raises out of the call: nothing after it runs, and nothing around it. -/
def callRaises (c : Client) (k : Call) : Client := { c with calls := c.calls.erase k }

def noteReply (c : Client) (reqId : Option Nat) (success : Bool) : Client :=
  match reqId with
  | none => c
  | some r =>
    if r ∉ c.issued then c
    else
      { c with
        issued := c.issued.erase r
        rejected := if success then c.rejected else c.rejected ++ [r]
        resubscribeErrorsTotal := c.resubscribeErrorsTotal + if success then 0 else 1
        pending := c.pending.erase r
        answered :=
          -- a future that is done already keeps what it has
          if r ∈ c.pending ∧ r ∉ c.answered ∧ r ∉ c.cancelled then c.answered ++ [r] else c.answered }

/-- The timeout cancels the task, and with it the future that is not done yet. -/
def timerFires (c : Client) (w : Waiter) : Client :=
  { c with
    cancelled := if w.reqId ∈ c.answered then c.cancelled else insert w.reqId c.cancelled
    waiters := { w with phase := .waiting true } :: c.waiters.erase w }

/-- What the waiter does of its own for a wait that timed out. -/
def timesOut (c : Client) (w : Waiter) (timedOut : Bool) : Client :=
  if timedOut then
    { c with
      pending := c.pending.erase w.reqId
      resubscribeAckTimeoutsTotal := c.resubscribeAckTimeoutsTotal + 1 }
  else c

/-- The second half of `_subscribe_after_ack`, up to its send. -/
def subscribeAfterAck (depth : Nat) (c : Client) (w : Waiter) : Client :=
  if c.ws ≠ some w.socket then { c with waiters := c.waiters.erase w }
  else
    { c.mint with
      waiters := { w with phase := .sending c.frames.length } :: c.waiters.erase w }.send
      w.socket (buildSubscribeMessage .book [w.pair] (some depth) (some (c.reqSeq + 1))) (some w.reqId)

def waiterReturns (c : Client) (w : Waiter) (frame : Nat) : Client :=
  { c with returned := insert frame c.returned, waiters := c.waiters.erase w }

def waiterRaises (c : Client) (w : Waiter) : Client := { c with waiters := c.waiters.erase w }

end Client

inductive Event where
  | connects
  | connectFails
  | subscribeReturns (socket frame : Nat) (channel : Channel)
  | drops (socket : Nat)
  | closes (socket : Nat)
  | resubscribes (pair : String)
  | callReturns (k : Call)
  | callRaises (k : Call)
  | replies (reqId : Option Nat) (success : Bool)
  | timerFires (w : Waiter)
  | waiterResumes (w : Waiter) (timedOut : Bool)
  | waiterReturns (w : Waiter) (frame : Nat)
  | waiterRaises (w : Waiter) (frame : Nat)
  deriving DecidableEq

section
variable (pairs : List String) (depth : Nat)

/-- When an event can come. A waiter goes on once its future has a result or its timer has gone off. -/
def Comes (c : Client) : Event → Prop
  | .connects | .connectFails => c.ws = none
  | .subscribeReturns socket frame channel => c.ws = some socket ∧ c.stream = .subscribing channel frame
  | .drops socket => c.ws = some socket
  | .closes _ | .resubscribes _ | .replies _ _ => True
  | .callReturns k => k ∈ c.calls
  | .callRaises k => k ∈ c.calls ∧ k.socket ∈ c.down
  | .timerFires w => w ∈ c.waiters ∧ w.phase = .waiting false
  | .waiterResumes w timedOut => w ∈ c.waiters ∧ w.phase = .waiting timedOut ∧ (timedOut ∨ w.reqId ∈ c.answered)
  | .waiterReturns w frame => w ∈ c.waiters ∧ w.phase = .sending frame
  | .waiterRaises w frame => w ∈ c.waiters ∧ w.phase = .sending frame ∧ w.socket ∈ c.down

instance (c : Client) (e : Event) : Decidable (Comes c e) := by
  cases e <;> unfold Comes <;> infer_instance

def next (c : Client) : Event → Client
  | .connects => c.connects pairs depth
  | .connectFails => { c with reconnectsTotal := c.reconnectsTotal + 1 }
  | .subscribeReturns socket frame channel => c.subscribeReturns pairs socket frame channel
  | .drops socket => c.drops socket
  | .closes socket => { c with down := insert socket c.down }
  | .resubscribes pair => c.resubscribeBook depth pair
  | .callReturns k => c.callReturns k
  | .callRaises k => c.callRaises k
  | .replies reqId success => c.noteReply reqId success
  | .timerFires w => c.timerFires w
  | .waiterResumes w timedOut => (c.timesOut w timedOut).subscribeAfterAck depth w
  | .waiterReturns w frame => c.waiterReturns w frame
  | .waiterRaises w _ => c.waiterRaises w

def step (c : Client) (e : Event) : Option Client := if Comes c e then some (next pairs depth c e) else none

/-- A run of a new client. -/
def run (events : List Event) : Option Client := events.foldlM (step pairs depth) {}

end

/-- The book frames of a pair on a socket, in the order they were sent. -/
def bookFrames (c : Client) (socket : Nat) (pair : String) : List Frame :=
  c.frames.filter fun f => f.socket = socket ∧ f.message.channel = .book ∧ pair ∈ f.message.symbol

/-- Of these the ones whose send has returned. -/
def sentFrames (c : Client) (socket : Nat) (pair : String) : List Frame :=
  (bookFrames c socket pair).filter fun f => f.no ∈ c.returned

/-- The socket a stream reads, while it is neither closed nor closing. -/
def Live (c : Client) (socket : Nat) : Prop := c.ws = some socket ∧ socket ∉ c.down

/-- The unsubscribe of a request. -/
def Unsubscribes (u : Frame) (socket : Nat) (pair : String) (reqId : Nat) : Prop :=
  u.socket = socket ∧ u.message.method = .unsubscribe ∧ u.message.symbol = [pair] ∧ u.message.reqId = some reqId

def Subscribes (g : Frame) (socket : Nat) (symbol : List String) : Prop :=
  g.socket = socket ∧ g.message.channel = .book ∧ g.message.method = .subscribe ∧ g.message.symbol = symbol

/-- What has gone right in every state: a deferred subscribe is on the socket of its unsubscribe and after it; on a
    live socket the last frame of a pair is a subscribe or something is still to come; a request is answered once,
    and its rejection counted once. -/
structure NeverStrands (pairs : List String) (c : Client) : Prop where
  found : ∀ g ∈ c.frames, ∀ r, g.after = some r → ∃ u ∈ c.frames, u.message.reqId = some r
  deferred : ∀ g ∈ c.frames, ∀ r, g.after = some r → ∀ u ∈ c.frames, u.message.reqId = some r →
    u.message.method = .unsubscribe ∧ u.socket = g.socket ∧ u.message.symbol = g.message.symbol ∧ u.no < g.no
  sent : ∀ n, Live c n → ∀ p f, (sentFrames c n p).getLast? = some f →
    f.message.method = .subscribe ∨ ∃ w ∈ c.waiters, w.pair = p ∧ w.socket = n
  begun : ∀ n, Live c n → ∀ p ∈ pairs, ∃ f, (bookFrames c n p).getLast? = some f ∧
    (f.message.method = .subscribe ∨ (∃ w ∈ c.waiters, w.pair = p ∧ w.socket = n) ∨
      ∃ k ∈ c.calls, k.pair = p ∧ k.socket = n)
  answered : c.answered.Nodup
  rejected : c.rejected.Nodup
  counted : c.resubscribeErrorsTotal = c.rejected.length

/-- With every waiter ended, the entries are those of the calls that stand at their send. -/
def NoneLeft (c : Client) : Prop := c.waiters = [] → ∀ r ∈ c.pending, ∃ k ∈ c.calls, k.reqId = r

/-- No unsubscribe raises while its entry is there. -/
def EntryGone (c : Client) : Event → Prop
  | .callRaises k => k.reqId ∉ c.pending
  | _ => True

instance (c : Client) (e : Event) : Decidable (EntryGone c e) := by
  cases e <;> unfold EntryGone <;> infer_instance

/-- A condition that every step of a run meets in the state it is taken in. -/
def Throughout (pairs : List String) (depth : Nat) (meets : Client → Event → Prop) : Client → List Event → Prop
  | _, [] => True
  | c, e :: rest => meets c e ∧ ∀ c' ∈ step pairs depth c e, Throughout pairs depth meets c' rest

instance decidableThroughout (pairs : List String) (depth : Nat) (meets : Client → Event → Prop)
    [∀ c e, Decidable (meets c e)] :
    (c : Client) → (events : List Event) → Decidable (Throughout pairs depth meets c events)
  | _, [] => isTrue trivial
  | c, e :: rest =>
    have (c' : Client) := decidableThroughout pairs depth meets c' rest
    inferInstanceAs (Decidable (meets c e ∧ ∀ c' ∈ step pairs depth c e, Throughout pairs depth meets c' rest))

section
variable {l : List Frame} {f g : Frame}

theorem last_latest (ascending : l.Pairwise (·.no < ·.no)) (last : l.getLast? = some f) :
    f ∈ l ∧ ∀ g ∈ l, g.no ≤ f.no := by
  obtain ⟨front, rfl⟩ := List.getLast?_eq_some_iff.mp last
  constructor
  · simp
  · intro g mem
    rcases List.mem_append.mp mem with earlier | at_end
    · exact le_of_lt ((List.pairwise_append.mp ascending).2.2 g earlier f (by simp))
    · rw [List.mem_singleton.mp at_end]

theorem same_no (ascending : l.Pairwise (·.no < ·.no)) (f_mem : f ∈ l) (g_mem : g ∈ l) (same : f.no = g.no) :
    f = g := by
  induction ascending with
  | nil => cases f_mem
  | cons before _ ih =>
    rcases List.mem_cons.mp f_mem with rfl | f_rest
    · rcases List.mem_cons.mp g_mem with rfl | g_rest
      · rfl
      · have := before g g_rest
        omega
    · rcases List.mem_cons.mp g_mem with rfl | g_rest
      · have := before f f_rest
        omega
      · exact ih f_rest g_rest

end

/-- Frames are numbered in the order they were sent, and are on sockets that were installed. -/
structure Numbered (c : Client) : Prop where
  ascending : c.frames.Pairwise (·.no < ·.no)
  bounded : ∀ f ∈ c.frames, f.no < c.frames.length
  sockets : ∀ f ∈ c.frames, f.socket < c.sockets
  installed : ∀ n, c.ws = some n → n < c.sockets

/-- A request is of one frame; what is still open of it was neither answered nor rejected. -/
structure Correlated (c : Client) : Prop where
  issued : ∀ r ∈ c.issued, r ≤ c.reqSeq ∧ r ∉ c.answered ∧ r ∉ c.rejected
  pending : ∀ r ∈ c.pending, r ≤ c.reqSeq ∧ r ∉ c.answered
  answered : ∀ r ∈ c.answered, r ≤ c.reqSeq
  rejected : ∀ r ∈ c.rejected, r ≤ c.reqSeq
  answered_once : c.answered.Nodup
  rejected_once : c.rejected.Nodup
  counted : c.resubscribeErrorsTotal = c.rejected.length
  frames : ∀ f ∈ c.frames, ∀ r, f.message.reqId = some r → r ≤ c.reqSeq
  alone : ∀ f ∈ c.frames, ∀ g ∈ c.frames, ∀ r, f.message.reqId = some r → g.message.reqId = some r → f = g

/-- Calls, waiters and deferred subscribes have their unsubscribe, and sends their frame. -/
structure Carried (c : Client) : Prop where
  calls : ∀ k ∈ c.calls, k.frame ∉ c.returned ∧ ∃ u ∈ c.frames, u.no = k.frame ∧ Unsubscribes u k.socket k.pair k.reqId
  apart : (c.calls.map (·.frame)).Nodup
  returned : ∀ f ∈ c.returned, f < c.frames.length
  waiters : ∀ w ∈ c.waiters, ∃ u ∈ c.frames, Unsubscribes u w.socket w.pair w.reqId
  sending : ∀ w ∈ c.waiters, ∀ f, w.phase = .sending f → ∃ g ∈ c.frames, g.no = f ∧ Subscribes g w.socket [w.pair]
  stream : ∀ channel f, c.stream = .subscribing channel f → ∃ g ∈ c.frames, g.no = f ∧ g.message.method = .subscribe
  after : ∀ g ∈ c.frames, ∀ r, g.after = some r →
    ∃ u ∈ c.frames, ∃ p, Unsubscribes u g.socket p r ∧ g.message.symbol = [p] ∧ u.no < g.no

/-- An unsubscribe is made good: its call stands at the send, its waiter goes on, or a later subscribe has gone out. -/
def MadeGood (c : Client) (u : Frame) : Prop :=
  (∃ k ∈ c.calls, k.frame = u.no ∧ k.socket = u.socket ∧ u.message.symbol = [k.pair]) ∨
  (∃ w ∈ c.waiters, w.socket = u.socket ∧ u.message.symbol = [w.pair] ∧ ∀ f, w.phase = .sending f → u.no < f) ∨
  ∃ g ∈ c.frames, u.no < g.no ∧ Subscribes g u.socket u.message.symbol ∧ g.no ∈ c.returned

structure Covered (pairs : List String) (c : Client) : Prop where
  bulk : ∀ n, c.ws = some n → ∃ g ∈ c.frames, Subscribes g n pairs
  madeGood : ∀ n, Live c n → ∀ u ∈ c.frames, u.socket = n → u.message.method = .unsubscribe → MadeGood c u

/-- Each entry is of a call that stands at its send, or of a waiter that waits. -/
def Owned (c : Client) : Prop :=
  ∀ r ∈ c.pending, (∃ k ∈ c.calls, k.reqId = r) ∨ ∃ w ∈ c.waiters, w.reqId = r ∧ ∃ timedOut, w.phase = .waiting timedOut

/-! What the invariants say of the frames a pair has on a live socket. -/

section
variable {pairs : List String} {c : Client} {n : Nat} {p : String} {f : Frame}

theorem bookFrames_last (numbered : Numbered c) (last : (bookFrames c n p).getLast? = some f) :
    (f ∈ c.frames ∧ f.socket = n ∧ f.message.channel = .book ∧ p ∈ f.message.symbol) ∧
      ∀ g ∈ bookFrames c n p, g.no ≤ f.no := by
  obtain ⟨mem, latest⟩ := last_latest (numbered.ascending.filter _) last
  exact ⟨by simpa [bookFrames] using mem, latest⟩

theorem sentFrames_last (numbered : Numbered c) (last : (sentFrames c n p).getLast? = some f) :
    (f ∈ c.frames ∧ f.socket = n ∧ f.message.channel = .book ∧ p ∈ f.message.symbol) ∧ f.no ∈ c.returned ∧
      ∀ g ∈ sentFrames c n p, g.no ≤ f.no := by
  obtain ⟨mem, latest⟩ := last_latest ((numbered.ascending.filter _).filter _) last
  have parts := List.mem_filter.mp mem
  exact ⟨by simpa [bookFrames] using parts.1, by simpa using parts.2, latest⟩

theorem subscribed_mem {g : Frame} (mem : g ∈ c.frames) (subscribes : Subscribes g n f.message.symbol)
    (named : p ∈ f.message.symbol) : g ∈ bookFrames c n p := by
  obtain ⟨at_n, book, _, same⟩ := subscribes
  rw [← same] at named
  simp [bookFrames, mem, at_n, book, named]

theorem last_sent (numbered : Numbered c) (carried : Carried c) (covered : Covered pairs c) (live : Live c n)
    (last : (sentFrames c n p).getLast? = some f) :
    f.message.method = .subscribe ∨ ∃ w ∈ c.waiters, w.pair = p ∧ w.socket = n := by
  obtain ⟨⟨mem, at_n, _, named⟩, out, latest⟩ := sentFrames_last numbered last
  cases way : f.message.method with
  | subscribe => exact Or.inl rfl
  | unsubscribe =>
    right
    rcases covered.madeGood n live f mem at_n way with ⟨k, k_mem, same, _⟩ | ⟨w, w_mem, at_w, symbol, _⟩ | later
    · exact absurd (same ▸ out) (carried.calls k k_mem).1
    · refine ⟨w, w_mem, ?_, by rw [at_w, at_n]⟩
      rw [symbol, List.mem_singleton] at named
      exact named.symm
    · obtain ⟨g, g_mem, after, subscribes, g_out⟩ := later
      rw [at_n] at subscribes
      have there := subscribed_mem g_mem subscribes named
      have := latest g (List.mem_filter.mpr ⟨there, by simpa using g_out⟩)
      omega

theorem last_begun (numbered : Numbered c) (covered : Covered pairs c) (live : Live c n) (known : p ∈ pairs) :
    ∃ f, (bookFrames c n p).getLast? = some f ∧ (f.message.method = .subscribe ∨
      (∃ w ∈ c.waiters, w.pair = p ∧ w.socket = n) ∨ ∃ k ∈ c.calls, k.pair = p ∧ k.socket = n) := by
  obtain ⟨b, b_mem, at_b, book, _, bulk⟩ := covered.bulk n live.1
  have some_frame : bookFrames c n p ≠ [] := by
    apply List.ne_nil_of_mem (a := b)
    simp [bookFrames, b_mem, at_b, book, bulk, known]
  have last := List.getLast?_eq_some_getLast some_frame
  refine ⟨_, last, ?_⟩
  obtain ⟨⟨mem, at_n, _, named⟩, latest⟩ := bookFrames_last numbered last
  cases way : ((bookFrames c n p).getLast some_frame).message.method with
  | subscribe => exact Or.inl rfl
  | unsubscribe =>
    right
    rcases covered.madeGood n live _ mem at_n way with ⟨k, k_mem, _, at_k, symbol⟩ | ⟨w, w_mem, at_w, symbol, _⟩ | later
    · right
      rw [symbol, List.mem_singleton] at named
      exact ⟨k, k_mem, named.symm, by rw [at_k, at_n]⟩
    · left
      rw [symbol, List.mem_singleton] at named
      exact ⟨w, w_mem, named.symm, by rw [at_w, at_n]⟩
    · obtain ⟨g, g_mem, after, subscribes, _⟩ := later
      rw [at_n] at subscribes
      have := latest g (subscribed_mem g_mem subscribes named)
      omega

theorem neverStrands_of (numbered : Numbered c) (correlated : Correlated c) (carried : Carried c)
    (covered : Covered pairs c) : NeverStrands pairs c where
  found := by
    intro g mem r waited
    obtain ⟨u, u_mem, p, ⟨_, _, _, id⟩, _⟩ := carried.after g mem r waited
    exact ⟨u, u_mem, id⟩
  deferred := by
    intro g mem r waited u u_mem id
    obtain ⟨v, v_mem, p, ⟨at_v, way, symbol, v_id⟩, same, before⟩ := carried.after g mem r waited
    obtain rfl := correlated.alone u u_mem v v_mem r id v_id
    exact ⟨way, at_v, by rw [symbol, same], before⟩
  sent := fun _ live _ _ last => last_sent numbered carried covered live last
  begun := fun _ live _ known => last_begun numbered covered live known
  answered := correlated.answered_once
  rejected := correlated.rejected_once
  counted := correlated.counted

theorem noneLeft_of (owned : Owned c) : NoneLeft c := by
  intro ended r mem
  rcases owned r mem with call | ⟨w, w_mem, _⟩
  · exact call
  · rw [ended] at w_mem
    cases w_mem

end

end Resubscribe
