import ByteHive.Native.Session

/-!
# One end of a session (`server.rs`, `client.rs`)

What a peer sends is handled by four loops on either side: the exchange of the ledgers, the
action drain, the initial sync and the live phase. The server broadcasts what it has applied
to the other peers; a client does not.

A message that a phase does not expect is logged and dropped, except where the handshake takes
it for an error. `InsufficientDiskSpace` and the acknowledgements of bundles carry no path and
no stamp and are left out.
-/

namespace ByteHive

/-- What a peer can send once its Hello is accepted. -/
inductive PeerMessage where
  | ledgerExchange (entries : List TombstoneDto)
  | manifestExchange (remote : Manifest)
  | action (m : Message)
  | requestChunks (path : PathBuf) (chunkIndices : List UInt32)
  | syncComplete

inductive Side where
  /-- The handler thread of the server for a client. -/
  | server (clientId : String)
  | client
deriving DecidableEq, Repr

inductive RecvPhase where
  | ledger
  | drain
  /-- The manifests are exchanged. -/
  | initial (locl remote : Manifest)
  | live
  | closed

structure Receiver where
  side : Side
  phase : RecvPhase
  engine : SyncEngine

/-- A message with its stamps clamped, as the handlers of the drain and of the live phase take it. -/
def Message.clamp (h : Host) : Message → Message
  | .bundle b => .bundle (clampBundle h b)
  | .delete paths t d => .delete paths (clampFutureStamp h t) d
  | .largeFileStart md n a => .largeFileStart md n (clampFutureStampOpt h a)
  | .rename f g a => .rename f g (clampFutureStamp h a)
  | m => m

namespace SyncEngine

/-- One message in the receive loop of `run_session`; `false` ends the session. -/
def recvDownload (h : Host) (e : SyncEngine) : Message → Bool × SyncEngine
  | .bundle b =>
    match e.applyBundle h b with
    | (some _, e) => (true, e)
    | (none, e) => (false, e)
  | .largeFileStart md n a => e.beginLargeFileWithAction h md n a
  | .largeFileChunk p i data =>
    match e.receiveLargeFileChunk h p i data with
    | (some (.readyToCommit hash), e) =>
      match e.commitLargeFile h p hash with
      | (some _, e) => (true, e)
      | (none, e) => (false, e)
    | (some .pending, e) => (true, e)
    | (none, e) => (false, e)
  | .largeFileEnd p fh =>
    match e.finishLargeFile h p fh with
    | (some _, e) => (true, e)
    | (none, e) => (false, e)
  | .delete paths t d => (true, (e.handleRecvDeleteWithMeta h paths t d).2)
  | .rename _ _ _ => (true, e)
  | .actionBatchEnd _ => (true, e)
  | .actionBatchAck _ => (true, e)

/-- One message in `recv_loop`, which goes on after an error. -/
def recvLive (h : Host) (e : SyncEngine) : Message → SyncEngine
  | .bundle b => (e.handleRecvBundle h b).2
  | .largeFileStart md n a => (e.handleRecvLargeFileStart h md n a).2
  | .largeFileChunk p i data => (e.handleRecvLargeFileChunk h p i data).2
  | .largeFileEnd p fh => (e.handleRecvLargeFileEnd h p fh).2
  | .delete paths t d => (e.handleRecvDeleteWithMeta h paths t d).2
  | .rename f g a => (e.handleRecvRename h f g a "server").2
  | .actionBatchEnd _ => e
  | .actionBatchAck _ => e

end SyncEngine

namespace Receiver

/-- The server in the drain and in the live phase: `recv_action_drain`, `client_recv_loop`. -/
def recvAction (h : Host) (r : Receiver) (clientId : String) :
    Message → Receiver × Option Message
  | .actionBatchEnd _ => ({ r with engine := r.engine.flushLedger h }, none)
  | .actionBatchAck _ => (r, none)
  | m =>
    let o := applyClientAction h r.engine clientId m
    ({ r with engine := o.engine }, o.relay)

/-- One message at the server; also what it broadcasts to the other peers. -/
def recvServer (h : Host) (clientId : String) (r : Receiver) (m : PeerMessage) :
    Receiver × Option Message :=
  match r.phase, m with
  | .ledger, .ledgerExchange entries =>
    ({ r with phase := .drain, engine := (r.engine.mergeLedger h entries).2 }, none)
  | .ledger, _ => ({ r with phase := .closed }, none)
  | .drain, .manifestExchange remote =>
    let s := sessionManifest h r.engine
    let q := initialPlan h s.2 s.1 remote
    ({ r with phase := .initial s.1 remote, engine := q.2.clearTombstones h q.1.recreated }, none)
  | .drain, .action m => r.recvAction h clientId m
  | .initial _ _, .syncComplete => ({ r with phase := .live }, none)
  | .initial _ _, .action m =>
    let o := applyInitialUpload h r.engine m
    ({ r with phase := if o.1 then r.phase else .closed, engine := o.2.engine }, o.2.relay)
  | .live, .action m => r.recvAction h clientId m
  | _, _ => (r, none)

/-- One message at the client. -/
def recvClient (h : Host) (r : Receiver) (m : PeerMessage) : Receiver :=
  match r.phase, m with
  | .ledger, .ledgerExchange entries =>
    { r with phase := .drain, engine := (r.engine.mergeLedger h entries).2 }
  | .ledger, _ => { r with phase := .closed }
  -- The client sends what its scan has found, then waits for the server's manifest.
  | .drain, .manifestExchange remote =>
    { r with phase := .initial (r.engine.scan h).manifest remote, engine := r.engine.scan h }
  -- An ack goes to the drain that awaits it.
  | .drain, .action (.actionBatchAck _) => r
  | .drain, _ => { r with phase := .closed }
  -- The client makes its plan only now, from the manifest it has sent.
  | .initial locl remote, .syncComplete =>
    let q := syncPlan false h r.engine locl remote
    { r with phase := .live, engine := q.2.clearTombstones h q.1.recreated }
  | .initial _ _, .action m =>
    let o := r.engine.recvDownload h m
    { r with phase := if o.1 then r.phase else .closed, engine := o.2 }
  | .live, .action m => { r with engine := r.engine.recvLive h m }
  | _, _ => r

/-- One message: the new state, and what is broadcast because of it. -/
def recv (h : Host) (r : Receiver) (m : PeerMessage) : Receiver × Option Message :=
  match r.side with
  | .server clientId => r.recvServer h clientId m
  | .client => (r.recvClient h m, none)

end Receiver

end ByteHive
