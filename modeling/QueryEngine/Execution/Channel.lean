import QueryEngine.Execution.Stream

/-!
# Channels

A group that has a worker hands its tuples to the consumer through a bounded channel. The worker
pulls and sends, the consumer receives, and a cancellation may come at any time; each action is
a function, so that an interleaving is a list of actions. Between an attempt and the look at the
cancellation that follows it other actions may come, and so they are actions of their own.
`TupleStream.onWorker` is the stream that the consumer sees where nothing is cancelled and nothing that
the worker looks at changes beside it.
-/

set_option autoImplicit false

namespace QueryEngine

/-- What is sent over a channel: the tuples, and how the stream ended. -/
inductive Message where
  | row (t : Tuple)
  | finished
  | failed (e : ExecutionError)
deriving DecidableEq

namespace Message

/-- Whether no message of the stream comes after this one. -/
def isLast : Message → Bool
  | row _ => false
  | _ => true

def tuple? : Message → Option Tuple
  | row t => some t
  | _ => none

end Message

mutual

/-- All messages of a stream that is pulled to its end; a crash sends none. -/
def TupleStream.messages : TupleStream → RunState → List Message
  | .ended, _ => [.finished]
  | .of pull, s => (pull s).messages

def Reply.messages : Reply → List Message
  | .row t s rest => .row t :: rest.messages s
  | .finished _ _ => [.finished]
  | .failed e _ => [.failed e]
  | .crashed _ _ _ => []

end

/-- Where a worker stands. -/
inductive Worker where
  /-- Before a look at the cancellation. -/
  | ready (t : TupleStream) (s : RunState)
  /-- In a pull. -/
  | pulling (t : TupleStream) (s : RunState)
  /-- Before it tries to send a message, with what comes after it unless it is the last. -/
  | sending (m : Message) (next : Option (TupleStream × RunState))
  /-- After it found no room, before a look at the cancellation. -/
  | refused (m : Message) (next : Option (TupleStream × RunState))
  /-- Before it lets go of the channel, of itself or in a crash. -/
  | leaving (crashed : Bool)
  | gone (crashed : Bool)

namespace Worker

/-- The worker after a pull. -/
def ofReply : Reply → Worker
  | .row t s rest => sending (.row t) (some (rest, s))
  | .finished _ _ => sending .finished none
  | .failed e _ => sending (.failed e) none
  | .crashed _ _ _ => leaving true

/-- The worker after its message has been sent. -/
def afterSending : Option (TupleStream × RunState) → Worker
  | some (t, s) => ready t s
  | none => leaving false

/-- Whether it has let go of the channel. -/
def isGone : Worker → Bool
  | gone _ => true
  | _ => false

end Worker

/-- Where a consumer stands. -/
inductive Consumer where
  /-- Between two pulls, or waiting for a message. -/
  | asking
  /-- After a wait in vain, before a look at the cancellation. -/
  | timedOut
  /-- After it found the channel let go of by the worker, before a look at the cancellation. -/
  | cutOff
deriving DecidableEq

structure Channel where
  group : GroupId
  /-- How many messages may wait. -/
  capacity : Nat
  worker : Worker
  /-- The messages that wait, the oldest first. -/
  waiting : List Message
  consumer : Consumer
  /-- Whether the consumer knows that no message will come any more. -/
  ended : Bool
  /-- Whether the consumer has let go of the channel. -/
  released : Bool
  cancelled : Bool

/-- One action of the worker, of the consumer or from outside. -/
inductive ChannelAction where
  /-- The worker looks at the cancellation. -/
  | look
  /-- The worker's pull comes back; a cancelled one may have been interrupted. -/
  | pull (interrupted : Bool)
  /-- The worker tries to send. -/
  | send
  /-- The worker lets go of the channel. -/
  | leave
  /-- The consumer takes the oldest message, or learns that none will come. -/
  | receive
  /-- The consumer's patience ends. -/
  | timeout
  /-- The consumer looks at the cancellation. -/
  | check
  /-- The consumer lets go of the channel. -/
  | release
  | cancel
deriving DecidableEq

namespace Channel

/-- A channel before its worker starts. -/
def start (group : GroupId) (capacity : Nat) (t : TupleStream) (s : RunState) : Channel :=
  ⟨group, capacity, .ready t s, [], .asking, false, false, false⟩

variable (c : Channel)

/-! ## The worker -/

/-- A cancelled worker stops before the next pull, and also when it has found no room. -/
def look : Channel :=
  match c.worker with
  | .ready t s => { c with worker := if c.cancelled then .leaving false else .pulling t s }
  | .refused m next => { c with worker := if c.cancelled then .leaving false else .sending m next }
  | _ => c

def pull (interrupted : Bool) : Channel :=
  match c.worker with
  | .pulling t s =>
    if interrupted && c.cancelled then { c with worker := .sending (.failed .cancelled) none }
    else { c with worker := .ofReply (t.pull s) }
  | _ => c

/-- Sends a message where there is room. Without a consumer the worker stops. -/
def send : Channel :=
  match c.worker with
  | .sending m next =>
    if c.released then { c with worker := .leaving false }
    else if c.waiting.length < c.capacity then
      { c with waiting := c.waiting ++ [m], worker := .afterSending next }
    else { c with worker := .refused m next }
  | _ => c

def leave : Channel :=
  match c.worker with
  | .leaving crashed => { c with worker := .gone crashed }
  | _ => c

/-! ## The consumer -/

/-- Takes the oldest message. Once the last one has been taken the answer is always the end. -/
def receive : Channel × Option Message :=
  match c.consumer with
  | .asking =>
    if c.ended then (c, some .finished)
    else
      match c.waiting with
      | m :: rest => ({ c with waiting := rest, ended := m.isLast }, some m)
      | [] => (if c.worker.isGone then { c with ended := true, consumer := .cutOff } else c, none)
  | _ => (c, none)

/-- Gives up a wait in which nothing has come. -/
def timeout : Channel :=
  if c.consumer = .asking ∧ c.ended = false ∧ c.waiting = [] ∧ c.worker.isGone = false then
    { c with consumer := .timedOut }
  else c

/-- Answers a cancellation. Without one the consumer waits on, unless the worker is gone. -/
def check : Channel × Option Message :=
  match c.consumer with
  | .asking => (c, none)
  | .timedOut =>
    ({ c with consumer := .asking }, if c.cancelled then some (.failed .cancelled) else none)
  | .cutOff =>
    ({ c with consumer := .asking },
      some (.failed (if c.cancelled then .cancelled else .workerLost c.group)))

/-! ## Interleavings -/

/-- Performs an action, with the answer to the consumer's pull. A consumer that has let go of the
channel does nothing any more. -/
def act : ChannelAction → Channel × Option Message
  | .look => (c.look, none)
  | .pull interrupted => (c.pull interrupted, none)
  | .send => (c.send, none)
  | .leave => (c.leave, none)
  | .receive => if c.released then (c, none) else c.receive
  | .timeout => if c.released then (c, none) else (c.timeout, none)
  | .check => if c.released then (c, none) else c.check
  | .release => ({ c with released := true }, none)
  | .cancel => ({ c with cancelled := true }, none)

/-- Performs actions one after another, with all answers. -/
def run (c : Channel) : List ChannelAction → Channel × List Message
  | [] => (c, [])
  | a :: rest =>
    let acted := c.act a
    let later := run acted.1 rest
    (later.1, acted.2.toList ++ later.2)

end Channel

end QueryEngine
