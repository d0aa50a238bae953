import ByteHive.Native.Journal
import ByteHive.Native.Server

/-!
# What comes back for a journal chunk (`client.rs`, `server.rs`)

The server handles the messages of a chunk one by one and closes it with an
`ActionBatchAck`. The client waits for the ack in one of two ways: during the handshake it
reads the connection itself and takes any other message for an error; afterwards the
receiving thread hands it the acks and deals with everything else.
-/

namespace ByteHive

/-- What the server sends to the client. -/
inductive Reply where
  | requestChunks (path : PathBuf) (chunkIndices : List UInt32)
  | actionBatchAck (uptoSeq : Nat)
  /-- A change of another peer. -/
  | relayed (m : Message)

/-- The state of the server's loop: of `recv_action_drain` and of `client_recv_loop`. -/
structure ActionLoop where
  engine : SyncEngine
  lastAcked : Nat
  chunkFailed : Bool

/-- The phase of the session. -/
inductive DrainPhase where
  | handshake
  | live
deriving DecidableEq

namespace ActionLoop

/-- One action of the client. -/
def recvAction (h : Host) (clientId : String) (s : ActionLoop) (m : Message) :
    List Reply × ActionLoop :=
  let r := applyClientAction h s.engine clientId m
  -- `request_retransmit`
  ((r.request.map fun x => Reply.requestChunks x.1 x.2).toList,
    { s with engine := r.engine, chunkFailed := s.chunkFailed || !r.ok })

/-- `ActionBatchEnd`. -/
def recvBatchEnd (h : Host) (s : ActionLoop) (uptoSeq : Nat) : List Reply × ActionLoop :=
  let ackUpto := if s.chunkFailed then s.lastAcked else max uptoSeq s.lastAcked
  ([.actionBatchAck ackUpto],
    { engine := s.engine.flushLedger h
      lastAcked := if s.chunkFailed then s.lastAcked else ackUpto
      chunkFailed := false })

end ActionLoop

/-- One message of a chunk, the host when the server handles it, and the changes of other peers
    that are relayed before. -/
structure SentAction where
  msg : Message
  host : Host
  relays : List Message

/-- A chunk that `drain_action_journal` has sent: what was streamed for it, and the last seq in
    it. -/
structure SentChunk where
  actions : List SentAction
  upto : Nat
  /-- The server's host when it closes the chunk. -/
  host : Host
  /-- The client's host when it writes the ack to its journal. -/
  clientHost : Host

namespace DrainPhase

/-- A client in the handshake is not yet among the peers. -/
def relayed (phase : DrainPhase) (relays : List Message) : List Reply :=
  match phase with
  | handshake => []
  | live => relays.map .relayed

/-- `await_action_ack` and, with `recv_loop`, `await_action_ack_live`; `none` is an error. -/
def await (phase : DrainPhase) (replies : List Reply) : Option Nat :=
  match phase with
  | handshake =>
    match replies with
    | .actionBatchAck uptoSeq :: _ => some uptoSeq
    | _ => none
  | live => replies.findSome? fun
    | .actionBatchAck uptoSeq => some uptoSeq
    | _ => none

end DrainPhase

namespace ActionLoop

/-- The messages of a chunk. -/
def recvActions (phase : DrainPhase) (clientId : String) (s : ActionLoop) :
    List SentAction → List Reply × ActionLoop
  | [] => ([], s)
  | a :: rest =>
    let r := s.recvAction a.host clientId a.msg
    let rs := recvActions phase clientId r.2 rest
    (phase.relayed a.relays ++ r.1 ++ rs.1, rs.2)

/-- A chunk and the `ActionBatchEnd` behind it. -/
def recvChunk (phase : DrainPhase) (clientId : String) (s : ActionLoop) (c : SentChunk) :
    List Reply × ActionLoop :=
  let r := s.recvActions phase clientId c.actions
  let e := r.2.recvBatchEnd c.host c.upto
  (r.1 ++ e.1, e.2)

end ActionLoop

/-- The loop of `drain_action_journal` over the chunks it would send; `none` is an error. -/
def drainChunks (phase : DrainPhase) (clientId : String) (s : ActionLoop) (j : ActionJournal) :
    List SentChunk → Option (ActionLoop × ActionJournal)
  | [] => some (s, j)
  | c :: rest =>
    let r := s.recvChunk phase clientId c
    match phase.await r.1 with
    | none => none
    | some got =>
      -- The ack must not cover entries beyond this chunk.
      let acked := min got c.upto
      match j.ack c.clientHost acked with
      | (false, _) => none
      | (true, j) =>
        if acked < c.upto then some (r.2, j) else drainChunks phase clientId r.2 j rest

end ByteHive
