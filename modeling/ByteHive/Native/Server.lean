import ByteHive.Native.Bundler
import ByteHive.Native.Common
import ByteHive.Native.Manifest

/-!
# The server (`server.rs`)

What one client action does on the server, and the server as a system of handler
threads: one for each connection, which share the engine and the map of registered
peers. A thread goes through the phases of `handle_client`; the map is keyed by the
node id that the client reported.
-/

namespace ByteHive

/-! ## Client actions -/

/-- The outcome of `apply_client_action`. -/
structure ActionOutcome where
  ok : Bool
  engine : SyncEngine
  /-- What is broadcast to the other peers. -/
  relay : Option Message
  /-- Chunks to request again. -/
  request : Option (PathBuf × List UInt32)

/-- `apply_client_action`: stamps are clamped before applying and relaying. -/
def applyClientAction (h : Host) (e : SyncEngine) (clientId : String) : Message → ActionOutcome
  | .bundle b =>
    let b := clampBundle h b
    match e.handleRecvBundle h b with
    | (some _, e) => ⟨true, e, some (.bundle b), none⟩
    | (none, e) => ⟨false, e, none, none⟩
  | .largeFileStart md n a =>
    let a := clampFutureStampOpt h a
    match e.handleRecvLargeFileStart h md n a with
    | (true, e) => ⟨true, e, some (.largeFileStart md n a), none⟩
    | (false, e) => ⟨false, e, none, none⟩
  | .largeFileChunk p i data =>
    match e.handleRecvLargeFileChunk h p i data with
    | (true, e) => ⟨true, e, some (.largeFileChunk p i data), none⟩
    | (false, e) => ⟨false, e, none, none⟩
  | .largeFileEnd p fh =>
    match e.handleRecvLargeFileEnd h p fh with
    | (some (.missingChunks indices), e) => ⟨false, e, none, some (p, indices)⟩
    | (some _, e) => ⟨true, e, some (.largeFileEnd p fh), none⟩
    | (none, e) => ⟨false, e, none, none⟩
  | .delete paths t d =>
    let t := clampFutureStamp h t
    ⟨true, (e.handleRecvDeleteWithMeta h paths t d).2, some (.delete paths t d), none⟩
  | .rename f g a =>
    let a := clampFutureStamp h a
    match e.handleRecvRename h f g a clientId with
    | (true, e) => ⟨true, e, some (.rename f g a), none⟩
    | (false, e) => ⟨false, e, none, none⟩
  | .actionBatchEnd _ => ⟨true, e, none, none⟩
  | .actionBatchAck _ => ⟨true, e, none, none⟩

/-- One message of the client's upload in the receive loop of the initial sync; `false`
    ends the session. Stamps of bundles and large files are taken as they are. -/
def applyInitialUpload (h : Host) (e : SyncEngine) : Message → Bool × ActionOutcome
  | .bundle b =>
    match e.applyBundle h b with
    | (some _, e) => (true, ⟨true, e, some (.bundle b), none⟩)
    | (none, e) => (false, ⟨false, e, none, none⟩)
  | .largeFileStart md n a =>
    match e.beginLargeFileWithAction h md n a with
    | (true, e) => (true, ⟨true, e, some (.largeFileStart md n a), none⟩)
    | (false, e) => (false, ⟨false, e, none, none⟩)
  | .largeFileChunk p i data =>
    match e.receiveLargeFileChunk h p i data with
    | (some (.readyToCommit hash), e) =>
      (true, ⟨true, (e.commitLargeFile h p hash).2, some (.largeFileChunk p i data), none⟩)
    | (some .pending, e) => (true, ⟨true, e, some (.largeFileChunk p i data), none⟩)
    | (none, e) => (true, ⟨false, e, none, none⟩)
  | .largeFileEnd p fh =>
    match e.finishLargeFile h p fh with
    | (some (.missingChunks indices), e) => (true, ⟨false, e, none, some (p, indices)⟩)
    | (some _, e) => (true, ⟨true, e, some (.largeFileEnd p fh), none⟩)
    | (none, e) => (true, ⟨false, e, none, none⟩)
  | .delete paths t d =>
    (true, ⟨true, (e.handleRecvDeleteWithMeta h paths t d).2, some (.delete paths t d), none⟩)
  | .rename _ _ _ => (true, ⟨false, e, none, none⟩)
  | .actionBatchEnd _ => (true, ⟨false, e, none, none⟩)
  | .actionBatchAck _ => (true, ⟨false, e, none, none⟩)

/-! ## The initial sync plan -/

/-- What one side sends in the initial sync. -/
structure InitialPlan where
  manifest : Manifest
  deletes : List (PathBuf × Nat × String)
  toClient : List PathBuf
  recreated : List PathBuf

/-- The manifest for a new session: the cached one unless it is empty. -/
def sessionManifest (h : Host) (e : SyncEngine) : Manifest × SyncEngine :=
  if e.manifest.files.isEmpty then ((e.scan h).manifest, e.scan h) else (e.manifest, e)

/-- The local deletes of stale copies that a tombstone beats: exact tombstones only. -/
def deleteVetoed (h : Host) (e : SyncEngine) (snap : DeletionLedger) (paths : List PathBuf) :
    SyncEngine :=
  paths.foldl (fun e p =>
    match snap.entries.get p with
    | some tomb => (e.applyDeletes h [p] tomb.deletedAtMs tomb.deleterNode).2
    | none => e) e

/-- The plan of one side for its peer, from the manifests of both sides and the ledger of the
    moment. `handle_client` and `run_session` make it in the same way; they differ in who wins
    a tie. -/
def syncPlan (isServer : Bool) (h : Host) (e : SyncEngine) (locl remote : Manifest) :
    InitialPlan × SyncEngine :=
  let raw := computeSendList h locl remote isServer
  let r := filterResurrected raw locl (some e.ledger)
  let snap := e.ledger
  let e := deleteVetoed h e snap (raw.filter fun p => !decide (p ∈ r.1))
  ({ manifest := locl
     deletes := computeDeletesToPush h e.manifest remote snap
     toClient := r.1
     recreated := r.2 }, e)

/-- The plan of `handle_client`. -/
def initialPlan (h : Host) (e : SyncEngine) (locl remote : Manifest) : InitialPlan × SyncEngine :=
  syncPlan true h e locl remote

/-! ## Local changes -/

/-- `flush_local_changes`: live records first, then what is broadcast: renames, completed and
    stable changes, deletes. The clock is read again for the deletes, by `h'`. -/
def flushLocalChanges (h h' : Host) (e : SyncEngine) (s : PendingChanges) (nextBundleId : Nat) :
    List Message × PendingChanges × SyncEngine :=
  let e := e.recordLiveActions h (s.live ++ s.renames.map fun r => (r.2, h.nowMs))
  let renames := s.renames.map fun r => .rename r.1 r.2 h.nowMs
  let ready := streamMessagesWith h e (h.order.toList s.ready) e.wireActionStamp nextBundleId
  let s := { s with renames := [], live := [], ready := ∅ }
  let stable := s.takeStableChanges h ready.2
  let changed := streamMessagesWith h stable.2.2 stable.1 stable.2.2.wireActionStamp nextBundleId
  if stable.2.1.deletes = ∅ then (renames ++ ready.1 ++ changed.1, stable.2.1, changed.2)
  else
    let deletes := stable.2.1.takeDeletesWithEngine h' changed.2
    (renames ++ ready.1 ++ changed.1 ++ [.delete deletes.1 h'.nowMs e.nodeId], deletes.2.1,
      deletes.2.2)

/-! ## Handler threads -/

/-- Where the handler thread of a connection stands. -/
inductive Phase where
  /-- Hello accepted: ledger exchange and action drain. -/
  | draining
  /-- The manifest is sent, the plan not yet made. -/
  | planning (locl remote : Manifest)
  /-- The plan is made; the client uploads. -/
  | syncing (plan : InitialPlan)
  /-- In the peer map, the threads of the live phase are being started. -/
  | registered (plan : InitialPlan)
  /-- The receive loop runs. -/
  | live (plan : InitialPlan)
  /-- The receive loop has ended. -/
  | ended
  | closed

structure Session where
  nodeId : String
  phase : Phase
  /-- An applied message whose broadcast is due. -/
  relaying : Option Message
  /-- The broadcast channel of this connection. -/
  queue : List Message
  /-- What its forwarder has taken from the channel. -/
  forwarded : List Message
  /-- The forwarder runs, so that the channel has a receiver. -/
  forwarding : Bool

namespace Session

/-- The initial sync is finished and the receive loop has not ended. -/
def isLive (s : Session) : Bool :=
  match s.phase with
  | .registered _ => true
  | .live _ => true
  | _ => false

/-- The thread reads client messages. -/
def receiving (s : Session) : Bool :=
  match s.phase with
  | .draining => true
  | .syncing _ => true
  | .live _ => true
  | _ => false

end Session

/-- The shared state and the handler threads, by connection. -/
structure ServerState where
  engine : SyncEngine
  sessions : FinMap Nat Session
  /-- The connection whose sender the map holds for a node id. -/
  peers : FinMap String Nat

inductive ServerEvent where
  /-- A new connection whose Hello is accepted. -/
  | accept (conn : Nat) (nodeId : String)
  /-- The handler applies one message of its client. -/
  | apply (conn : Nat) (h : Host) (msg : Message)
  /-- The broadcast of what it has applied. -/
  | relay (conn : Nat)
  /-- The manifest for the client is taken and sent. -/
  | snapshot (conn : Nat) (h : Host) (remote : Manifest)
  | plan (conn : Nat) (h : Host)
  /-- The client's `SyncComplete` is in: `peers.insert`. -/
  | register (conn : Nat)
  | startRecv (conn : Nat)
  /-- A thread of the live phase cannot be started. -/
  | spawnFailed (conn : Nat)
  /-- The handler returns early. -/
  | abort (conn : Nat)
  /-- The forwarder sends one queued frame. -/
  | forward (conn : Nat)
  | forwarderEnds (conn : Nat)
  | recvEnds (conn : Nat)
  /-- `peers.remove`. -/
  | remove (conn : Nat)
  /-- Another part of the server changes the engine. -/
  | engineChange (engine : SyncEngine)

namespace ServerState

/-- `broadcast_to_others`: every sender in the map but the one stored for `senderId`; a full
    queue drops the frame. -/
def broadcastToOthers (σ : ServerState) (senderId : String) (msg : Message) : ServerState :=
  { σ with
    sessions := σ.sessions.map fun c s =>
      if (∃ id ∈ σ.peers.keys, id ≠ senderId ∧ σ.peers.get id = some c) ∧ s.forwarding = true ∧
          s.queue.length < clientBroadcastDepth then
        { s with queue := s.queue ++ [msg] }
      else s }

def setSession (σ : ServerState) (c : Nat) (s : Session) : ServerState :=
  { σ with sessions := σ.sessions.insert c s }

/-- The steps of the handler thread of `c` once its connection is accepted. -/
def threadStep (σ : ServerState) (c : Nat) (s : Session) : ServerEvent → Option ServerState
  | .apply _ h msg =>
    if s.receiving = true ∧ s.relaying = none then
      match s.phase with
      | .syncing _ =>
        let r := applyInitialUpload h σ.engine msg
        let s := if r.1 then { s with relaying := r.2.relay } else { s with phase := .closed }
        some { σ.setSession c s with engine := r.2.engine }
      | _ =>
        let r := applyClientAction h σ.engine s.nodeId msg
        some { σ.setSession c { s with relaying := r.relay } with engine := r.engine }
    else none
  | .relay _ =>
    match s.relaying with
    | some msg => some ((σ.setSession c { s with relaying := none }).broadcastToOthers s.nodeId msg)
    | none => none
  | .snapshot _ h remote =>
    match s.phase, s.relaying with
    | .draining, none =>
      let r := sessionManifest h σ.engine
      some { σ.setSession c { s with phase := .planning r.1 remote } with engine := r.2 }
    | _, _ => none
  | .plan _ h =>
    match s.phase with
    | .planning locl remote =>
      let r := initialPlan h σ.engine locl remote
      some { σ.setSession c { s with phase := .syncing r.1 } with
        engine := r.2.clearTombstones h r.1.recreated }
    | _ => none
  | .register _ =>
    match s.phase, s.relaying with
    | .syncing plan, none =>
      some { σ.setSession c { s with phase := .registered plan } with
        peers := σ.peers.insert s.nodeId c }
    | _, _ => none
  | .startRecv _ =>
    match s.phase with
    | .registered plan => some (σ.setSession c { s with phase := .live plan })
    | _ => none
  | .spawnFailed _ =>
    match s.phase with
    | .registered _ => some (σ.setSession c { s with phase := .closed, forwarding := false })
    | _ => none
  | .abort _ =>
    match s.phase, s.relaying with
    | .draining, none => some (σ.setSession c { s with phase := .closed })
    | .planning _ _, none => some (σ.setSession c { s with phase := .closed })
    | .syncing _, none => some (σ.setSession c { s with phase := .closed })
    | _, _ => none
  | .forward _ =>
    match s.queue, s.forwarding with
    | m :: rest, true =>
      some (σ.setSession c { s with queue := rest, forwarded := s.forwarded ++ [m] })
    | _, _ => none
  | .forwarderEnds _ => some (σ.setSession c { s with forwarding := false })
  | .recvEnds _ =>
    match s.phase, s.relaying with
    | .live _, none => some (σ.setSession c { s with phase := .ended })
    | _, _ => none
  | .remove _ =>
    match s.phase with
    | .ended =>
      some { σ.setSession c { s with phase := .closed } with peers := σ.peers.erase s.nodeId }
    | _ => none
  | .accept _ _ => none
  | .engineChange _ => none

/-- The connection an event belongs to. -/
def conn? : ServerEvent → Option Nat
  | .accept c _ => some c
  | .apply c _ _ => some c
  | .relay c => some c
  | .snapshot c _ _ => some c
  | .plan c _ => some c
  | .register c => some c
  | .startRecv c => some c
  | .spawnFailed c => some c
  | .abort c => some c
  | .forward c => some c
  | .forwarderEnds c => some c
  | .recvEnds c => some c
  | .remove c => some c
  | .engineChange _ => none

/-- One step of the server; `none` where the event is not possible. -/
def step (σ : ServerState) (ev : ServerEvent) : Option ServerState :=
  match ev with
  | .engineChange e => some { σ with engine := e }
  | .accept c nodeId =>
    match σ.sessions.get c with
    | none => some (σ.setSession c ⟨nodeId, .draining, none, [], [], true⟩)
    | some _ => none
  | ev =>
    match conn? ev with
    | none => none
    | some c =>
      match σ.sessions.get c with
      | none => none
      | some s => σ.threadStep c s ev

/-- A server with no connection yet. -/
def start (engine : SyncEngine) : ServerState := ⟨engine, .empty, .empty⟩

end ServerState

end ByteHive
