import Mathlib.Logic.Function.Basic
import ByteHive.Native.Transport

/-!
# Connections (`transport.rs`)

Each end of a connection has a thread that owns the TLS stream. It takes frames from a bounded
queue and writes them, and puts the messages that it reads into another. A `Ping` it answers by
itself; neither `Ping` nor `Pong` is passed on. The bytes between the ends are what one has
written and the other has not read, in whatever pieces the reads take them.

Beside its state an end keeps what has gone through it. Nothing that it does depends on that.
-/

namespace ByteHive

/-- `SEND_QUEUE_DEPTH` -/
def sendQueueDepth : Nat := 512

/-- `RECV_CHANNEL_DEPTH` -/
def recvChannelDepth : Nat := 1024

def heartbeatIntervalSecs : Nat := 15

def heartbeatTimeoutSecs : Nat := 30

/-- A message with the two of the heartbeat told apart from the others, which carry data. -/
inductive WireMessage (α : Type) where
  | ping
  | pong
  | data (msg : α)
deriving DecidableEq, Repr

/-- The data in a message. -/
def WireMessage.data? {α : Type} : WireMessage α → Option α
  | .data msg => some msg
  | _ => none

inductive ConnectionError where
  | io (e : IoError)
  /-- `BrokenPipe`, "connection closed" -/
  | brokenPipe
  /-- `ConnectionAborted`, "connection closed" -/
  | connectionAborted
  | timedOut (text : String)
deriving DecidableEq, Repr

/-- What the thread does next. -/
inductive IoPhase (α : Type) where
  /-- The inner loop, which empties the send queue. -/
  | draining
  | polling
  /-- `recv_tx.send`; the thread ends after an error. -/
  | delivering (item : Except IoError α)
  | ended

/-- The bytes that `serialise_message` has made of a message. -/
structure WireFrame {α : Type} (c : Codec (WireMessage α)) where
  msg : WireMessage α
  bytes : List UInt8
  serialised : c.serialiseMessage msg = .ok bytes

structure Endpoint {α : Type} (c : Codec (WireMessage α)) where
  /-- The channel to the thread; `none` is the shutdown signal. -/
  sendQueue : List (Option (WireFrame c))
  /-- The channel from the thread. -/
  recvQueue : List (Except IoError α)
  reader : FrameReader
  phase : IoPhase α
  /-- The `Connection` still exists. -/
  held : Bool
  lastSendMs : Nat
  lastRecvMs : Nat
  /-- The messages whose frames were put into the send queue. -/
  accepted : List (WireMessage α)
  /-- The messages whose frames the thread has written, the last one perhaps not to its end. -/
  written : List (WireMessage α)
  /-- What the thread has read. -/
  read : List (WireMessage α)
  /-- What was taken from the receive queue. -/
  received : List (Except IoError α)

namespace Endpoint

variable {α : Type} {c : Codec (WireMessage α)}

/-- `from_tls` -/
def new (nowMs : Nat) : Endpoint c where
  sendQueue := []
  recvQueue := []
  reader := .new
  phase := .draining
  held := true
  lastSendMs := nowMs
  lastRecvMs := nowMs
  accepted := []
  written := []
  read := []
  received := []

/-- The receiving end of the send queue is gone. -/
def stopped (e : Endpoint c) : Bool :=
  match e.phase with
  | .ended => true
  | _ => false

/-! ## The methods of `Connection` -/

/-- A frame is put into the send queue. -/
def enqueue (e : Endpoint c) (nowMs : Nat) (frame : WireFrame c) : Endpoint c :=
  { e with
    sendQueue := e.sendQueue ++ [some frame]
    lastSendMs := nowMs
    accepted := e.accepted ++ [frame.msg] }

/-- `send_frame`; `none` waits for room in the queue. -/
def sendFrame (e : Endpoint c) (nowMs : Nat) (frame : WireFrame c) :
    Option (Except ConnectionError Unit × Endpoint c) :=
  if e.stopped then some (.error .brokenPipe, e)
  else if e.sendQueue.length < sendQueueDepth then some (.ok (), e.enqueue nowMs frame)
  else none

/-- `try_send_frame` -/
def trySendFrame (e : Endpoint c) (nowMs : Nat) (frame : WireFrame c) : Bool × Endpoint c :=
  if e.stopped || sendQueueDepth ≤ e.sendQueue.length then (false, e)
  else (true, e.enqueue nowMs frame)

/-- `send` -/
def send (e : Endpoint c) (nowMs : Nat) (msg : WireMessage α) :
    Option (Except ConnectionError Unit × Endpoint c) :=
  match h : c.serialiseMessage msg with
  | .error err => some (.error (.io err), e)
  | .ok bytes => e.sendFrame nowMs ⟨msg, bytes, h⟩

/-- `recv`; `none` waits for a message. -/
def recv (e : Endpoint c) : Option (Except ConnectionError α × Endpoint c) :=
  match e.recvQueue with
  | item :: rest =>
    some (item.mapError .io, { e with recvQueue := rest, received := e.received ++ [item] })
  | [] => if e.stopped then some (.error .connectionAborted, e) else none

/-- `recv_timeout` when its time is over. -/
def recvTimeout (e : Endpoint c) : Except ConnectionError α × Endpoint c :=
  e.recv.getD (.error (.timedOut "recv timeout"), e)

/-- `heartbeat_maintenance`; `none` waits for room in the queue. -/
def heartbeatMaintenance (e : Endpoint c) (nowMs : Nat) :
    Option (Except ConnectionError Unit × Endpoint c) :=
  if nowMs < e.lastSendMs ∨ nowMs < e.lastRecvMs then
    -- The clock was set back.
    some (.ok (), { e with lastSendMs := nowMs, lastRecvMs := nowMs })
  else
    let sinceRecv := nowMs - e.lastRecvMs
    let sent :=
      if heartbeatIntervalSecs * 1000 ≤ nowMs - e.lastSendMs then e.send nowMs .ping
      else some (.ok (), e)
    sent.map fun
      | (.error err, e) => (.error err, e)
      | (.ok (), e) =>
        if heartbeatTimeoutSecs * 1000 ≤ sinceRecv then
          (.error (.timedOut
            ("heartbeat timeout: no data for " ++ toString (sinceRecv / 1000) ++ " s")), e)
        else (.ok (), e)

/-- `shutdown`; `none` waits for room in the queue. -/
def shutdown (e : Endpoint c) : Option (Endpoint c) :=
  if e.stopped then some e
  else if e.sendQueue.length < sendQueueDepth then
    some { e with sendQueue := e.sendQueue ++ [none] }
  else none

/-- The `Connection` is dropped, with the two ends of the channels that it has. -/
def drop (e : Endpoint c) : Endpoint c := { e with held := false, recvQueue := [] }

/-! ## The thread -/

/-- `write_all` and `flush`, with the bytes written; it may fail after some of them. -/
def writeFrame (e : Endpoint c) (failsAfter : Option Nat) (frame : WireFrame c) :
    Endpoint c × List UInt8 :=
  let written := e.written ++ [frame.msg]
  match failsAfter with
  | none => ({ e with written, phase := .draining }, frame.bytes)
  | some k =>
    ({ e with written, phase := .delivering (.error ⟨.other, "write failed"⟩) },
      frame.bytes.take k)

/-- A turn of the inner loop of `io_loop`. -/
def drain (e : Endpoint c) (failsAfter : Option Nat) : Endpoint c × List UInt8 :=
  match e.sendQueue with
  | some frame :: rest => { e with sendQueue := rest }.writeFrame failsAfter frame
  | none :: rest => ({ e with sendQueue := rest, phase := .ended }, [])
  | [] => ({ e with phase := if e.held then .polling else .ended }, [])

/-- What `io_loop` does with a message. -/
def handleMessage (e : Endpoint c) (pongFails : Option Nat) :
    WireMessage α → Endpoint c × List UInt8
  | .ping =>
    match h : c.serialiseMessage .pong with
    | .ok bytes => e.writeFrame pongFails ⟨.pong, bytes, h⟩
    | .error _ => ({ e with phase := .draining }, [])
  | .pong => ({ e with phase := .draining }, [])
  | .data msg => ({ e with phase := .delivering (.ok msg) }, [])

/-- `reader.poll` and what follows, with the reads that are left. -/
def poll (e : Endpoint c) (nowMs : Nat) (pongFails : Option Nat) (evs : List (ReadEvent UInt8)) :
    (Endpoint c × List UInt8) × List (ReadEvent UInt8) :=
  match e.reader.poll c evs with
  | (.ok none, reader, evs) => (({ e with reader, phase := .draining }, []), evs)
  | (.ok (some msg), reader, evs) =>
    ({ e with reader, lastRecvMs := nowMs, read := e.read ++ [msg] }.handleMessage pongFails msg,
      evs)
  | (.error err, reader, evs) => (({ e with reader, phase := .delivering (.error err) }, []), evs)

/-- `recv_tx.send`; `none` waits for room in the queue. -/
def deliver (e : Endpoint c) (item : Except IoError α) : Option (Endpoint c) :=
  if !e.held then some { e with phase := .ended }
  else if e.recvQueue.length < recvChannelDepth then
    let phase := match item with
      | .ok _ => IoPhase.draining
      | .error _ => .ended
    some { e with recvQueue := e.recvQueue ++ [item], phase }
  else none

end Endpoint

/-! ## Both ends -/

inductive ConnectionEnd where
  | server
  | client
deriving DecidableEq, Repr

def ConnectionEnd.other : ConnectionEnd → ConnectionEnd
  | .server => .client
  | .client => .server

/-- Two ends, and the bytes that each has written and the other has not read. -/
structure Duplex {α : Type} (c : Codec (WireMessage α)) where
  ends : ConnectionEnd → Endpoint c
  wire : ConnectionEnd → List UInt8

/-- What happens at one end. -/
inductive EndpointEvent {α : Type} (c : Codec (WireMessage α)) where
  | send (msg : α) (nowMs : Nat)
  | trySendFrame (frame : WireFrame c) (nowMs : Nat)
  | heartbeatMaintenance (nowMs : Nat)
  | shutdown
  | recv
  | drop
  | drain (failsAfter : Option Nat)
  /-- A poll with its reads, up to a timeout: each gets some of the bytes. -/
  | poll (pieces : List (List UInt8)) (nowMs : Nat) (pongFails : Option Nat)
  /-- A poll that ends with a read error, or at the end of the stream. -/
  | pollEnds (pieces : List (List UInt8)) (fail : Bool) (nowMs : Nat) (pongFails : Option Nat)
  | deliver

namespace Duplex

variable {α : Type} {c : Codec (WireMessage α)}

def start (nowMs : Nat) : Duplex c := ⟨fun _ => .new nowMs, fun _ => []⟩

/-- One end after a step, with the bytes it has written. -/
def put (σ : Duplex c) (s : ConnectionEnd) (e : Endpoint c) (bytes : List UInt8) : Duplex c :=
  ⟨Function.update σ.ends s e, Function.update σ.wire s (σ.wire s ++ bytes)⟩

/-- A poll at one end that gets these reads: they take bytes from the front of what the other has
    written, and what the poll leaves of them stays there. -/
def pollWith (σ : Duplex c) (s : ConnectionEnd) (nowMs : Nat) (pongFails : Option Nat)
    (evs : List (ReadEvent UInt8)) : Option (Duplex c) :=
  if ReadEvent.payload evs <+: σ.wire s.other then
    let unread := (σ.wire s.other).drop (ReadEvent.payload evs).length
    let ((e, bytes), evs) := (σ.ends s).poll nowMs pongFails evs
    let σ := σ.put s e bytes
    some { σ with wire := Function.update σ.wire s.other (ReadEvent.payload evs ++ unread) }
  else none

/-- The reads of a poll that ends at one end: with an error, or with an empty read, which there is
    where the other thread is gone and all it has written is read. -/
def lastReads (σ : Duplex c) (s : ConnectionEnd) (pieces : List (List UInt8)) (fail : Bool) :
    Option (List (ReadEvent UInt8)) :=
  if fail then some (pieces.map .data ++ [.fail])
  else if (σ.ends s.other).stopped ∧ pieces.flatten = σ.wire s.other then
    some (pieces.map .data)
  else none

/-- A method of the `Connection` at one end, which is there. -/
def call (σ : Duplex c) (s : ConnectionEnd) (e : Option (Endpoint c)) : Option (Duplex c) :=
  if (σ.ends s).held then e.map fun e => σ.put s e [] else none

/-- One step at one end; `none` where it is not possible. -/
def step (σ : Duplex c) : ConnectionEnd × EndpointEvent c → Option (Duplex c)
  | (s, .send msg nowMs) => σ.call s (((σ.ends s).send nowMs (.data msg)).map (·.2))
  | (s, .trySendFrame frame nowMs) =>
    -- Only the heartbeat sends a `Ping`, and only the thread a `Pong`.
    if frame.msg.data?.isSome then σ.call s (some ((σ.ends s).trySendFrame nowMs frame).2)
    else none
  | (s, .heartbeatMaintenance nowMs) =>
    σ.call s (((σ.ends s).heartbeatMaintenance nowMs).map (·.2))
  | (s, .shutdown) => σ.call s (σ.ends s).shutdown
  | (s, .recv) => σ.call s ((σ.ends s).recv.map (·.2))
  | (s, .drop) => σ.call s (some (σ.ends s).drop)
  | (s, .drain failsAfter) =>
    match (σ.ends s).phase with
    | .draining =>
      let r := (σ.ends s).drain failsAfter
      some (σ.put s r.1 r.2)
    | _ => none
  | (s, .poll pieces nowMs pongFails) =>
    match (σ.ends s).phase with
    | .polling =>
      if [] ∈ pieces then none
      else σ.pollWith s nowMs pongFails (pieces.map .data ++ [.timeout])
    | _ => none
  | (s, .pollEnds pieces fail nowMs pongFails) =>
    match (σ.ends s).phase with
    | .polling =>
      if [] ∈ pieces then none
      else (σ.lastReads s pieces fail).bind (σ.pollWith s nowMs pongFails)
    | _ => none
  | (s, .deliver) =>
    match (σ.ends s).phase with
    | .delivering item => ((σ.ends s).deliver item).map fun e => σ.put s e []
    | _ => none

end Duplex

end ByteHive
