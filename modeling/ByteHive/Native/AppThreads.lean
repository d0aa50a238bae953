import Mathlib.Data.String.Defs

/-!
# The threads of a started app (`registry.rs`, `bus.rs`, `filebrowser/app.rs`)

A start makes a stop channel of capacity one. `wire_subscriptions` starts a thread for each
subscription pattern, which selects between the messages of the bus and the stop channel in
no given order. An app may start workers that wait on the channel with a timeout; they leave
their loop when they receive something and go on when they do not, also when the sender is
gone. `stop_app` sends one value.

What a worker does between two waits is not part of this module.
-/

namespace ByteHive

structure BusMessage where
  id : Nat
  source : String
  topic : String
  payload : String
deriving DecidableEq, Repr

/-- `BUS_QUEUE_DEPTH`. -/
def busQueueDepth : Nat := 256

/-- `topic_matches`. -/
def topicMatches (pattern topic : String) : Bool :=
  pattern = "*" || pattern = topic ||
    -- `strip_suffix(".*")`
    match pattern.toList.reverse with
    | '*' :: '.' :: rest =>
      (rest.reverse ++ ['.']).isPrefixOf topic.toList || topic.toList = rest.reverse
    | _ => false

/-- The thread of a subscription, with the queue of its receiver. -/
structure SubThread where
  pattern : String
  queue : List BusMessage
  running : Bool
deriving DecidableEq, Repr

/-- The message comes to a thread that has subscribed to it, unless its queue is full. -/
def SubThread.offer (msg : BusMessage) (t : SubThread) : SubThread :=
  if topicMatches t.pattern msg.topic = true ∧ t.running = true ∧ t.queue.length < busQueueDepth
  then { t with queue := t.queue ++ [msg] }
  else t

/-- What a start has made: its threads and its stop channel. -/
structure Generation where
  subs : List SubThread
  /-- Whether each of the workers is running. -/
  workers : List Bool
  /-- The values in the stop channel. -/
  units : Nat
  senderAlive : Bool
  /-- `stop_app` has returned. -/
  stopped : Bool
  nextId : Nat
  /-- The messages that `on_message` was called with. -/
  delivered : List BusMessage
  /-- The numbers of the messages that were published after `stop_app` had returned. -/
  late : List Nat
deriving DecidableEq, Repr

inductive GenerationEvent where
  | publish (source topic payload : String)
  /-- The select of a subscription thread takes a message, or sees the stop channel. -/
  | takeMessage (i : Nat)
  | takeStop (i : Nat)
  /-- `recv_timeout` of a worker returns a value, or an error. -/
  | workerReceive (j : Nat)
  | workerTimeout (j : Nat)
  | stopApp
  /-- `start_app` replaces the sender, or the registry drops it. -/
  | dropSender
deriving DecidableEq, Repr

namespace Generation

/-- The threads of an app with the patterns and with `m` workers. -/
def wire (patterns : List String) (m : Nat) : Generation where
  subs := patterns.map fun pattern => ⟨pattern, [], true⟩
  workers := List.replicate m true
  units := 0
  senderAlive := true
  stopped := false
  nextId := 1
  delivered := []
  late := []

/-- One step; `none` where the event is not possible. -/
def step (g : Generation) : GenerationEvent → Option Generation
  | .publish source topic payload =>
    some { g with
      subs := g.subs.map (SubThread.offer ⟨g.nextId, source, topic, payload⟩)
      nextId := g.nextId + 1
      late := if g.stopped then g.nextId :: g.late else g.late }
  | .takeMessage i =>
    match g.subs[i]? with
    | some ⟨pattern, msg :: queue, true⟩ =>
      some { g with
        subs := g.subs.set i ⟨pattern, queue, true⟩
        delivered := msg :: g.delivered }
    | _ => none
  | .takeStop i =>
    match g.subs[i]? with
    | some ⟨pattern, queue, true⟩ =>
      let subs := g.subs.set i ⟨pattern, queue, false⟩
      if 0 < g.units then some { g with subs, units := g.units - 1 }
      -- the receiver sees that the sender is gone
      else if g.senderAlive = false then some { g with subs }
      else none
    | _ => none
  | .workerReceive j =>
    if g.workers[j]? = some true ∧ 0 < g.units then
      some { g with workers := g.workers.set j false, units := g.units - 1 }
    else none
  -- a timeout, or at once when the sender is gone: the loop goes on
  | .workerTimeout j =>
    if g.workers[j]? = some true ∧ g.units = 0 then some g else none
  | .stopApp =>
    if g.stopped = false ∧ g.senderAlive = true ∧ g.units < 1 then
      some { g with units := g.units + 1, stopped := true }
    else none
  | .dropSender => if g.senderAlive = true then some { g with senderAlive := false } else none

end Generation

end ByteHive
