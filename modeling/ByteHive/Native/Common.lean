import ByteHive.Native.LargeFile

/-!
# Shared handlers (`common.rs`)

Peer stamps are clamped to the local clock, then the engine applies the message. Bus
events and log lines are not modelled.

`PendingChanges` collects watcher events between two flushes of the server.
-/

namespace ByteHive

/-- `MAX_FUTURE_SKEW_MS`. -/
def maxFutureSkewMs : Nat := 5 * 60 * 1000

/-- The newest stamp a peer may send: `now.saturating_add(MAX_FUTURE_SKEW_MS)`. -/
def stampLimit (h : Host) : Nat := min (h.nowMs + maxFutureSkewMs) (2 ^ 64 - 1)

def clampFutureStamp (h : Host) (rawMs : Nat) : Nat :=
  if stampLimit h < rawMs then h.nowMs else rawMs

def clampFutureStampOpt (h : Host) (rawMs : Option Nat) : Option Nat :=
  rawMs.map (clampFutureStamp h)

def clampBundle (h : Host) (b : FileBundle) : FileBundle :=
  { b with files := b.files.map fun fd => { fd with actionMs := clampFutureStampOpt h fd.actionMs } }

namespace SyncEngine

/-! ## Handlers -/

/-- `handle_recv_bundle`: clamps only when a stamp needs it, which comes to the same. -/
def handleRecvBundle (h : Host) (e : SyncEngine) (b : FileBundle) :
    Option ApplyResult × SyncEngine := e.applyBundle h (clampBundle h b)

def handleRecvLargeFileStart (h : Host) (e : SyncEngine) (metadata : FileMetadata)
    (totalChunks : UInt32) (actionMs : Option Nat) : Bool × SyncEngine :=
  e.beginLargeFileWithAction h metadata totalChunks (clampFutureStampOpt h actionMs)

/-- `handle_recv_large_file_chunk`: a chunk that completes an announced file commits it.
    `false` is an error. -/
def handleRecvLargeFileChunk (h : Host) (e : SyncEngine) (path : PathBuf) (chunkIndex : UInt32)
    (data : Content) : Bool × SyncEngine :=
  match e.receiveLargeFileChunk h path chunkIndex data with
  | (none, e) => (false, e)
  | (some .pending, e) => (true, e)
  | (some (.readyToCommit hash), e) =>
    match e.commitLargeFile h path hash with
    | (none, e) => (false, e)
    | (some _, e) => (true, e)

def handleRecvLargeFileEnd (h : Host) (e : SyncEngine) (path : PathBuf) (finalHash : Hash) :
    Option FinishResult × SyncEngine := e.finishLargeFile h path finalHash

def handleRecvDeleteWithMeta (h : Host) (e : SyncEngine) (paths : List PathBuf)
    (deletedAtMs : Nat) (deleter : String) : Nat × SyncEngine :=
  e.applyDeletes h paths (clampFutureStamp h deletedAtMs) deleter

def handleRecvRename (h : Host) (e : SyncEngine) (source target : PathBuf) (actionMs : Nat)
    (peer : String) : Bool × SyncEngine :=
  e.applyRenameAt h source target (clampFutureStamp h actionMs) peer

end SyncEngine

/-! ## Watcher events -/

inductive FsEvent where
  | changed (path : PathBuf)
  | writeComplete (path : PathBuf)
  | deleted (path : PathBuf)
  | renamed (source target : PathBuf)
deriving DecidableEq, Repr

structure PendingChanges where
  changes : Finset PathBuf
  ready : Finset PathBuf
  deletes : Finset PathBuf
  renames : List (PathBuf × PathBuf)
  live : List (PathBuf × Nat)

namespace PendingChanges

def new : PendingChanges := ⟨∅, ∅, ∅, [], []⟩

def collectEvent (h : Host) (e : SyncEngine) (s : PendingChanges) : FsEvent → PendingChanges
  | .changed p =>
    if e.isSuppressed p || e.isExcluded p then s
    else
      { s with
        live := s.live ++ [(p, h.nowMs)]
        deletes := s.deletes.erase p
        changes := if p ∈ s.ready then s.changes else insert p s.changes }
  | .writeComplete p =>
    if e.isSuppressed p || e.isExcluded p then s
    else
      { s with
        live := s.live ++ [(p, h.nowMs)]
        deletes := s.deletes.erase p
        changes := s.changes.erase p
        ready := insert p s.ready }
  | .deleted p =>
    if e.isDeleteSuppressed p || e.isExcluded p then s
    else
      { s with
        changes := s.changes.erase p
        ready := s.ready.erase p
        deletes := insert p s.deletes }
  | .renamed f t =>
    if e.isSuppressed f || e.isSuppressed t || e.isExcluded f || e.isExcluded t then s
    else
      { s with
        changes := (s.changes.erase f).erase t
        ready := (s.ready.erase f).erase t
        deletes := s.deletes.erase f
        renames := s.renames ++ [(f, t)] }

/-- `take_stable_changes`: unstable paths stay. -/
def takeStableChanges (h : Host) (e : SyncEngine) (s : PendingChanges) :
    List PathBuf × PendingChanges × SyncEngine :=
  let stable := (h.order.toList s.changes).filter fun p => e.isFileStable h p
  (stable, { s with changes := s.changes.filter fun p => e.isFileStable h p = false },
    stable.foldl SyncEngine.clearChangeHistory e)

/-- The parents of `p`, nearest first, without the empty path. -/
def parents (p : PathBuf) : List PathBuf := ancestors p.dropLast

/-- `expand_deleted_ancestors`: the missing parents of deleted paths. -/
def deletedAncestors (t : Tree) (paths : List PathBuf) : Finset PathBuf :=
  ((paths.flatMap parents).filter fun q => !t.pathExists q).toFinset

/-- `take_deletes_with_engine`: the deletes and the missing parents that are neither
    listed nor suppressed, each recorded with one stamp. -/
def takeDeletesWithEngine (h : Host) (e : SyncEngine) (s : PendingChanges) :
    List PathBuf × PendingChanges × SyncEngine :=
  let deletes := h.order.toList s.deletes
  let extras := (h.order.toList (deletedAncestors e.tree deletes)).filter fun p =>
    (e.manifest.files.get p).isNone && !e.isSuppressed p
  let paths := deletes ++ extras
  let e' := paths.foldl (fun e' p =>
    e'.recordDelete h p h.nowMs e.nodeId (e.prevInfo p).1 (e.prevInfo p).2) e
  (paths, { s with deletes := ∅ }, e')

end PendingChanges

end ByteHive
