import Mathlib.Data.List.Basic
import Mathlib.Logic.Function.Basic
import ByteHive.Native.AppThreads

/-!
# Delivery on the bus (`bus.rs`)

Threads subscribe, publish, receive, drop what they receive with and call `gc`, in any order of
their steps. `publish` takes a number, then the read lock, and offers its message to the matching
subscribers one after the other, in an order that is not given, as they are kept in a hash map.
`subscribe` and `gc` need the write lock, and so no thread that is offering.

The queues are bounded channels: an offer never waits. A channel of capacity zero holds nothing;
an offer reaches a consumer that is waiting in that moment. That the counter of the messages
starts again after `2^64` of them is left out.
-/

namespace ByteHive.MessageBus

/-- What a subscription is received with. -/
inductive Consumer where
  /-- A `BusReceiver`. -/
  | receiver
  /-- What `into_iter` makes of it: the channel without the token. -/
  | iterator
  /-- A `BusReceiver` whose channel is dropped and whose token is not yet. -/
  | closing
  | gone
deriving DecidableEq, Repr

/-- The channel has its receiving end. -/
def Consumer.present : Consumer → Bool
  | .receiver | .iterator => true
  | .closing | .gone => false

/-- `sub.alive.upgrade().is_some()` -/
def Consumer.tokenAlive : Consumer → Bool
  | .receiver | .closing => true
  | .iterator | .gone => false

/-- A message, and the thread that published it. -/
structure Published where
  publisher : Nat
  msg : BusMessage
deriving DecidableEq, Repr

/-- `Sub`, its channel and its consumer. -/
structure Sub where
  pattern : String
  capacity : Nat
  queue : List Published
  dropped : Nat
  consumer : Consumer
  /-- The consumer is in `recv`, and there was nothing to receive. -/
  waiting : Bool
  /-- What it has received, in this order. -/
  received : List Published
  /-- The number of messages that were published before. -/
  since : Nat
deriving DecidableEq, Repr

/-- `try_send` -/
def Sub.offer (sub : Sub) (p : Published) : Sub :=
  if !sub.consumer.present then sub
  else if sub.capacity = 0 then
    if sub.waiting then { sub with received := sub.received ++ [p], waiting := false }
    else { sub with dropped := sub.dropped + 1 }
  else if sub.queue.length < sub.capacity then { sub with queue := sub.queue ++ [p] }
  else { sub with dropped := sub.dropped + 1 }

/-- A call of `publish` that has the read lock or has returned. -/
structure Publication extends Published where
  /-- The subscribers it has not come to. -/
  pending : List Nat
deriving DecidableEq, Repr

structure BusState where
  /-- All subscriptions there were. -/
  subs : List Sub
  /-- Those that the bus has. -/
  inBus : List Nat
  nextId : Nat
  /-- The message of a thread between its number and the read lock. -/
  numbered : Nat → Option BusMessage
  /-- The calls in the order in which they got the read lock. -/
  log : List Publication

def BusState.new : BusState where
  subs := []
  inBus := []
  nextId := 1
  numbered _ := none
  log := []

/-- What a consumer does. -/
inductive ConsumerAct where
  /-- `recv` with nothing to receive. -/
  | wait
  /-- `recv` ends without a message. -/
  | timeout
  | receive
  | intoIter
  /-- What the consumer holds is dropped, of a `BusReceiver` the channel first. -/
  | drop
  | dropToken
deriving DecidableEq, Repr

inductive BusEvent where
  | subscribe (pattern : String) (queue : Nat)
  /-- The first part of `publish`: the message gets its number. -/
  | publish (thread : Nat) (source topic payload : String)
  /-- The read lock. -/
  | readLock (thread : Nat)
  /-- The call at this place of the log comes to a subscriber. -/
  | offer (call i : Nat)
  | consume (i : Nat) (act : ConsumerAct)
  | gc
deriving DecidableEq, Repr

/-- No thread has the read lock. -/
def BusState.unlocked (s : BusState) : Bool := s.log.all fun call => call.pending.isEmpty

/-- The thread is in no call of `publish`. -/
def BusState.idle (s : BusState) (thread : Nat) : Bool :=
  (s.numbered thread).isNone &&
    s.log.all fun call => decide (call.publisher = thread → call.pending = [])

def Sub.act (sub : Sub) : ConsumerAct → Option Sub
  | .wait =>
    if sub.consumer.present ∧ sub.queue = [] ∧ sub.waiting = false then
      some { sub with waiting := true }
    else none
  | .timeout => if sub.waiting then some { sub with waiting := false } else none
  | .receive =>
    match sub.queue with
    | [] => none
    | p :: rest =>
      if sub.consumer.present then
        some { sub with received := sub.received ++ [p], queue := rest, waiting := false }
      else none
  | .intoIter =>
    if sub.consumer = .receiver ∧ sub.waiting = false then
      some { sub with consumer := .iterator }
    else none
  | .drop =>
    if sub.consumer.present ∧ sub.waiting = false then
      some { sub with
        consumer := if sub.consumer = .receiver then .closing else .gone
        queue := [] }
    else none
  | .dropToken =>
    if sub.consumer = .closing then some { sub with consumer := .gone } else none

def step (s : BusState) : BusEvent → Option BusState
  | .subscribe pattern queue =>
    if s.unlocked then
      some { s with
        subs := s.subs ++ [⟨pattern, queue, [], 0, .receiver, false, [], s.log.length⟩]
        inBus := s.inBus ++ [s.subs.length] }
    else none
  | .publish thread source topic payload =>
    if s.idle thread then
      some { s with
        nextId := s.nextId + 1
        numbered := Function.update s.numbered thread (some ⟨s.nextId, source, topic, payload⟩) }
    else none
  | .readLock thread =>
    match s.numbered thread with
    | none => none
    | some msg =>
      some { s with
        numbered := Function.update s.numbered thread none
        log := s.log ++ [⟨⟨thread, msg⟩, s.inBus.filter fun i =>
          (s.subs[i]?).any fun sub => topicMatches sub.pattern msg.topic⟩] }
  | .offer call i =>
    match s.log[call]?, s.subs[i]? with
    | some pub, some sub =>
      if i ∈ pub.pending then
        some { s with
          log := s.log.set call { pub with pending := pub.pending.erase i }
          subs := s.subs.set i (sub.offer pub.toPublished) }
      else none
    | _, _ => none
  | .consume i act =>
    match s.subs[i]? with
    | none => none
    | some sub => (sub.act act).map fun sub => { s with subs := s.subs.set i sub }
  | .gc =>
    if s.unlocked then
      some { s with
        inBus := s.inBus.filter fun i => (s.subs[i]?).any fun sub => sub.consumer.tokenAlive }
    else none

end ByteHive.MessageBus
