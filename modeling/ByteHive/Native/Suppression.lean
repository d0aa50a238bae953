import ByteHive.Native.Common
import ByteHive.Native.Journal
import ByteHive.Native.LargeFile

/-!
# Suppression timers and live capture (`sync_engine.rs`)

Remote writes are marked in the suppression sets, so that the watcher's events about
them are not taken for user actions. A thread started by `schedule_unsuppress` takes its
paths out of the set later, whatever happened to them in between; here such a thread is
an index into the list of those that have not run.

`EngineCall` is what can happen to the sets: a call of the engine that applies something
from a peer, or one of these threads running.
-/

namespace ByteHive

def FsEvent.paths : FsEvent → List PathBuf
  | .changed p | .writeComplete p | .deleted p => [p]
  | .renamed f t => [f, t]

/-- The user action that a watcher event stands for. -/
def FsEvent.userAction (nowMs : Nat) : FsEvent → JournalCall
  | .changed p | .writeComplete p => .upsert p nowMs
  | .deleted p => .delete p nowMs
  | .renamed f t => .rename f t nowMs

namespace SyncEngine

/-- `capture_fs_event`: a watcher event is journalled unless its path is suppressed or
    excluded. A failing append is only logged. -/
def captureFsEvent (h : Host) (e : SyncEngine) (j : ActionJournal) (event : FsEvent) :
    ActionJournal :=
  let ignored := match event with
    | .changed p | .writeComplete p => e.isSuppressed p || e.isExcluded p
    | .deleted p => e.isDeleteSuppressed p || e.isExcluded p
    | .renamed f t => e.isSuppressed f || e.isSuppressed t || e.isExcluded f || e.isExcluded t
  if ignored then j else (event.userAction h.nowMs).record h j

/-- The thread at `i` of `schedule_unsuppress` has slept long enough. -/
def fireUnsuppress (e : SyncEngine) (i : Nat) : Option SyncEngine :=
  (e.unsuppress[i]?).map fun paths => { e with
    suppressed := e.suppressed \ paths.toFinset
    unsuppress := e.unsuppress.eraseIdx i }

/-- The thread at `i` of `schedule_unsuppress_deletes` has slept long enough. -/
def fireUnsuppressDeletes (e : SyncEngine) (i : Nat) : Option SyncEngine :=
  (e.unsuppressDeletes[i]?).map fun paths => { e with
    suppressedDeletes := e.suppressedDeletes \ paths.toFinset
    unsuppressDeletes := e.unsuppressDeletes.eraseIdx i }

end SyncEngine

inductive EngineCall where
  | applyBundle (bundle : FileBundle)
  | beginLargeFile (metadata : FileMetadata) (totalChunks : UInt32) (actionMs : Option Nat)
  | receiveLargeFileChunk (path : PathBuf) (chunkIndex : UInt32) (data : Content)
  | finishLargeFile (path : PathBuf) (finalHash : Hash)
  | commitLargeFile (path : PathBuf) (finalHash : Hash)
  | clearInProgress
  | applyRenameAt (source target : PathBuf) (actionMs : Nat) (deleter : String)
  | applyDeletes (paths : List PathBuf) (deletedAtMs : Nat) (deleter : String)
  | fireUnsuppress (i : Nat)
  | fireUnsuppressDeletes (i : Nat)

/-- The engine after the call, whatever the call answers. A thread that does not exist
    cannot run. -/
def SyncEngine.call (h : Host) (e : SyncEngine) : EngineCall → Option SyncEngine
  | .applyBundle bundle => some (e.applyBundle h bundle).2
  | .beginLargeFile metadata totalChunks actionMs =>
    some (e.beginLargeFileWithAction h metadata totalChunks actionMs).2
  | .receiveLargeFileChunk path chunkIndex data =>
    some (e.receiveLargeFileChunk h path chunkIndex data).2
  | .finishLargeFile path finalHash => some (e.finishLargeFile h path finalHash).2
  | .commitLargeFile path finalHash => some (e.commitLargeFile h path finalHash).2
  | .clearInProgress => some e.clearInProgress
  | .applyRenameAt source target actionMs deleter =>
    some (e.applyRenameAt h source target actionMs deleter).2
  | .applyDeletes paths deletedAtMs deleter => some (e.applyDeletes h paths deletedAtMs deleter).2
  | .fireUnsuppress i => e.fireUnsuppress i
  | .fireUnsuppressDeletes i => e.fireUnsuppressDeletes i

/-- A call and the environment that it meets. The hash function is the same for all. -/
structure EngineStep (blake3 : Content → Hash) where
  host : Host
  hashes : host.blake3 = blake3
  call : EngineCall

end ByteHive
