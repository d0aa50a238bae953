import ByteHive.Native.Bundler
import ByteHive.Native.Journal
import ByteHive.Native.Server

/-!
# Draining the journal (`client.rs`)

A pass of `drain_action_journal` takes a snapshot of the journal and delivers it in
chunks. Each entry of a chunk is first judged against the local ledger (`decide`); what is
accepted is streamed in journal order, and `ActionBatchEnd` closes the chunk. The server
answers with the prefix it has applied.

The second half is the protocol as a system: one client with its journal, the server, and
the connection between them. While a pass is under way the user goes on changing the
journal, other threads change both engines, and the connection can be lost at any point.
-/

namespace ByteHive

/-- `DRAIN_CHUNK_MAX_ENTRIES`. -/
def drainChunkMaxEntries : Nat := 256

inductive Wire where
  | upsert (path : PathBuf) (actionMs size : Nat)
  | rename (source target : PathBuf) (actionMs : Nat)
  | delete (path : PathBuf) (actionMs : Nat)
deriving DecidableEq, Repr

inductive Decision where
  | send (wire : Wire)
  | settled
  | stop
deriving DecidableEq, Repr

/-! ## Chunks -/

namespace SyncEngine

/-- `decide`: admission and local bookkeeping for one journal entry. -/
def decide (h : Host) (e : SyncEngine) (entry : JournalEntry) (size : Nat) :
    Decision × SyncEngine :=
  match entry.op with
  | .upsert =>
    -- Gone before delivery; a delete entry carries the removal.
    if !e.tree.pathExists entry.path then (.settled, e)
    else if !e.isFileStable h entry.path then (.stop, e)
    else
      match e.tombstoneBeating entry.path entry.actionMs with
      | some tomb =>
        (.settled, (e.applyDeletes h [entry.path] tomb.deletedAtMs tomb.deleterNode).2)
      | none =>
        (.send (.upsert entry.path entry.actionMs size),
          e.stageLiveAction entry.path entry.actionMs)
  | .rename target =>
    match e.tombstoneBeating target entry.actionMs with
    | some tomb =>
      let e := (e.applyDeletes h [target] tomb.deletedAtMs tomb.deleterNode).2
      -- A source that was recreated since the rename is kept.
      if e.tree.pathExists entry.path then (.settled, e)
      else
        (.send (.delete entry.path entry.actionMs),
          (e.applyDeletes h [entry.path] entry.actionMs e.nodeId).2)
    | none =>
      (.send (.rename entry.path target entry.actionMs), e.stageLiveAction target entry.actionMs)
  | .delete =>
    -- Recreated since the delete: the content is kept.
    if e.tree.pathExists entry.path then (.settled, e)
    else (.send (.delete entry.path entry.actionMs), e.stageDelete entry.path entry.actionMs)

end SyncEngine

/-- The size that counts against the limit of a chunk. -/
def JournalEntry.wireSize (h : Host) (t : Tree) (entry : JournalEntry) : Nat :=
  match entry.op with
  | .upsert =>
    match t.get entry.path with
    | some (.file c _) => c.length
    | some (.dir _) => h.dirLen entry.path
    | none => 0
  | _ => 0

/-- A chunk that is being formed: its entries, each with what is sent for it, and the
    bytes counted so far. -/
structure Chunk where
  decided : List (JournalEntry × Option Wire)
  bytes : Nat

namespace Chunk

def empty : Chunk := ⟨[], 0⟩

def wires (c : Chunk) : List Wire := c.decided.filterMap (·.2)

/-- The last sequence number of the chunk, when it has an entry. -/
def upto (c : Chunk) : Option Nat := c.decided.getLast?.map (·.1.seq)

def push (c : Chunk) (entry : JournalEntry) (wire : Option Wire) (size : Nat) : Chunk :=
  ⟨c.decided ++ [(entry, wire)], c.bytes + size⟩

end Chunk

/-- What one round of the inner loop does. -/
inductive Formed where
  | next (c : Chunk) (e : SyncEngine)
  | full
  | stop

/-- One round of the inner loop of `drain_action_journal`. -/
def formEntry (h : Host) (e : SyncEngine) (c : Chunk) (entry : JournalEntry) : Formed :=
  let size := entry.wireSize h e.tree
  if drainChunkMaxEntries ≤ c.decided.length then .full
  else if 0 < c.decided.length ∧ bundleMaxBytes < c.bytes + size then .full
  else
    match e.decide h entry size with
    | (.send wire, e) => .next (c.push entry (some wire) size) e
    | (.settled, e) => .next (c.push entry none size) e
    | (.stop, _) => .stop

/-- The stamp of a path in a run of upserts: the last one wins. -/
def runStamp (run : List (PathBuf × Nat)) (rel : PathBuf) : Option Nat :=
  (run.reverse.find? fun x => x.1 = rel).map (·.2)

/-- `stream_upserts`. -/
def streamUpserts (h : Host) (t : Tree) (run : List (PathBuf × Nat)) (nextBundleId : Nat) :
    List Message :=
  streamMessages h t (run.map (·.1)) (fun rel _ => runStamp run rel) nextBundleId

/-- Streams up to and with the next rename or delete; `run` are the upserts before it. Also
    returns what is left. -/
def streamSegment (h : Host) (t : Tree) (node : String) (nextBundleId : Nat)
    (run : List (PathBuf × Nat)) : List Wire → List Message × List Wire
  | [] => (streamUpserts h t run nextBundleId, [])
  | .upsert p a _ :: wires => streamSegment h t node nextBundleId (run ++ [(p, a)]) wires
  | .rename f g a :: wires => (streamUpserts h t run nextBundleId ++ [.rename f g a], wires)
  | .delete p a :: wires => (streamUpserts h t run nextBundleId ++ [.delete [p] a node], wires)

/-! ## The protocol -/

/-- Where a session stands: before the manifests, in the initial sync, or after it. -/
inductive LinkPhase where
  | draining
  | initial
  | live
deriving DecidableEq, Repr

/-- What travels from the client to the server. -/
inductive Frame where
  | msg (m : Message)
  | manifestExchange
  | syncComplete

/-- A connection: what is in flight and the two ends' view of it. -/
structure Link where
  clientPhase : LinkPhase
  serverPhase : LinkPhase
  toServer : List Frame
  /-- The `ActionBatchAck`s in flight. -/
  toClient : List Nat
  lastAcked : Nat
  chunkFailed : Bool
  /-- The actions since the last `ActionBatchEnd`, each with its result. -/
  current : List (Message × Bool)
  /-- The actions of the batch that was closed last. -/
  lastBatch : List (Message × Bool)

namespace Link

/-- A new connection. -/
def start : Link := ⟨.draining, .draining, [], [], 0, false, [], []⟩

/-- The server handles an `ActionBatchEnd`: in `recv_action_drain` and in
    `client_recv_loop`. -/
def recvBatchEnd (l : Link) (upto : Nat) : Link :=
  let ackUpto := if l.chunkFailed then l.lastAcked else max upto l.lastAcked
  { l with
    toClient := l.toClient ++ [ackUpto]
    lastAcked := if l.chunkFailed then l.lastAcked else ackUpto
    chunkFailed := false
    current := []
    lastBatch := l.current }

/-- Both loops start with nothing acknowledged. -/
def enter (l : Link) (phase : LinkPhase) : Link :=
  { l with serverPhase := phase, lastAcked := 0, chunkFailed := false, current := [] }

def recvResult (l : Link) (m : Message) (ok : Bool) : Link :=
  { l with chunkFailed := l.chunkFailed || !ok, current := l.current ++ [(m, ok)] }

/-- The server handles one frame; `none` ends the session. -/
def recvFrame (h : Host) (clientId : String) (l : Link) (server : SyncEngine) :
    Frame → Option Link × SyncEngine
  | .manifestExchange =>
    match l.serverPhase with
    | .draining => (some (l.enter .initial), server)
    | _ => (some l, server)
  | .syncComplete =>
    match l.serverPhase with
    | .initial => (some (l.enter .live), server)
    | _ => (some l, server)
  | .msg (.actionBatchEnd upto) =>
    match l.serverPhase with
    | .initial => (some l, server)
    | _ => (some (l.recvBatchEnd upto), server.flushLedger h)
  | .msg m =>
    match l.serverPhase with
    | .initial =>
      let r := applyInitialUpload h server m
      (if r.1 then some l else none, r.2.engine)
    | _ =>
      let r := applyClientAction h server clientId m
      (some (l.recvResult m r.ok), r.engine)

end Link

/-- The part of a pass that chunks share: the sequence number that was next when the
    snapshot was taken, the chunk, and the entries behind it. -/
structure Batch where
  horizon : Nat
  chunk : Chunk
  rest : List JournalEntry

/-- Where `drain_action_journal` stands. -/
inductive Pass where
  | idle
  | forming (b : Batch)
  /-- The chunk is complete and being sent. -/
  | streaming (b : Batch) (stop : Bool) (wires : List Wire) (streamed : List Message)
  /-- `ActionBatchEnd` is sent. -/
  | awaiting (b : Batch) (stop : Bool) (upto : Nat) (streamed : List Message)

structure DrainSystem where
  client : SyncEngine
  journal : ActionJournal
  pass : Pass
  server : SyncEngine
  link : Option Link

inductive DrainEvent where
  /-- The user acts; the watcher records it. -/
  | user (h : Host) (call : JournalCall)
  /-- Other threads change the engine of the client or of the server. -/
  | clientChange (e : SyncEngine)
  | serverChange (e : SyncEngine)
  | connect
  | disconnect
  /-- The client starts again on what is left of its journal file. -/
  | restart (h : Host) (disk : List JournalLine)
  | startPass
  | formNext (h : Host)
  | streamNext (h : Host) (nextBundleId : Nat)
  | sendBatchEnd (h : Host)
  /-- Another thread of the client sends: an upload of the initial sync or chunks that the
      server has asked for. -/
  | sendOther (m : Message)
  | sendManifest
  | sendSyncComplete
  | serverRecv (h : Host)
  | clientAck (h : Host)

namespace DrainSystem

/-- The pass is over or goes on with the next chunk. -/
def afterChunk (b : Batch) (stop : Bool) : Pass :=
  if stop || b.rest = [] then .idle else .forming { b with chunk := .empty }

/-- The inner loop has ended: the chunk is streamed unless it is empty. -/
def chunkFormed (b : Batch) (stop : Bool) : Pass :=
  if b.chunk.decided = [] then afterChunk b stop else .streaming b stop b.chunk.wires []

/-- The client sends on its connection. -/
def send (σ : DrainSystem) (l : Link) (frames : List Frame) : DrainSystem :=
  { σ with link := some { l with toServer := l.toServer ++ frames } }

/-- One step; `none` where the event is not possible. -/
def step (σ : DrainSystem) : DrainEvent → Option DrainSystem
  | .user h call => some { σ with journal := call.record h σ.journal }
  | .clientChange e => some { σ with client := e }
  | .serverChange e => some { σ with server := e }
  | .connect =>
    match σ.link with
    | none => some { σ with link := some .start }
    | some _ => none
  | .disconnect => some { σ with link := none, pass := .idle }
  | .restart h disk =>
    if disk.Sublist σ.journal.disk then
      some { σ with journal := .openJournal h disk, link := none, pass := .idle }
    else none
  | .startPass =>
    match σ.link, σ.pass with
    | some l, .idle =>
      if l.clientPhase = .initial then none
      else
        some { σ with
          pass := afterChunk ⟨σ.journal.state.nextSeq, .empty, σ.journal.snapshot⟩ false }
    | _, _ => none
  | .formNext h =>
    match σ.pass with
    | .forming ⟨horizon, c, []⟩ => some { σ with pass := chunkFormed ⟨horizon, c, []⟩ false }
    | .forming ⟨horizon, c, entry :: rest⟩ =>
      match formEntry h σ.client c entry with
      | .next c e => some { σ with client := e, pass := .forming ⟨horizon, c, rest⟩ }
      | .full => some { σ with pass := chunkFormed ⟨horizon, c, entry :: rest⟩ false }
      | .stop => some { σ with pass := chunkFormed ⟨horizon, c, entry :: rest⟩ true }
    | _ => none
  | .streamNext h nextBundleId =>
    match σ.link, σ.pass with
    | some l, .streaming b stop (wire :: wires) streamed =>
      let r := streamSegment h σ.client.tree σ.client.nodeId nextBundleId [] (wire :: wires)
      some { σ.send l (r.1.map .msg) with pass := .streaming b stop r.2 (streamed ++ r.1) }
    | _, _ => none
  | .sendBatchEnd h =>
    match σ.link, σ.pass with
    | some l, .streaming b stop [] streamed =>
      match b.chunk.upto with
      | some upto =>
        some { σ.send l [.msg (.actionBatchEnd upto)] with
          client := σ.client.flushLedger h
          pass := .awaiting b stop upto streamed }
      | none => none
    | _, _ => none
  | .sendOther m =>
    match σ.link, m with
    | none, _ => none
    | _, .actionBatchEnd _ => none
    | some l, m => some (σ.send l [.msg m])
  | .sendManifest =>
    match σ.link, σ.pass with
    | some l, .idle =>
      if l.clientPhase = .draining then
        some (σ.send { l with clientPhase := .initial } [.manifestExchange])
      else none
    | _, _ => none
  | .sendSyncComplete =>
    match σ.link with
    | some l =>
      if l.clientPhase = .initial then
        some (σ.send { l with clientPhase := .live } [.syncComplete])
      else none
    | none => none
  | .serverRecv h =>
    match σ.link with
    | some l =>
      match l.toServer with
      | frame :: frames =>
        match { l with toServer := frames }.recvFrame h σ.client.nodeId σ.server frame with
        | (some l, e) => some { σ with server := e, link := some l }
        | (none, e) => some { σ with server := e, link := none, pass := .idle }
      | [] => none
    | none => none
  | .clientAck h =>
    match σ.link, σ.pass with
    | some l, .awaiting b stop upto _ =>
      match l.toClient with
      | got :: acks =>
        -- The ack must not cover entries beyond this chunk.
        let acked := min got upto
        match σ.journal.ack h acked with
        | (false, j) => some { σ with journal := j, link := none, pass := .idle }
        | (true, j) =>
          some { σ with
            journal := j
            link := some { l with toClient := acks }
            -- A short ack ends the pass.
            pass := if acked < upto then .idle else afterChunk b stop }
      | [] => none
    | _, _ => none

end DrainSystem

end ByteHive
