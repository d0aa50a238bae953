import ByteHive.Native.Common
import ByteHive.Native.Journal
import ByteHive.Native.Manifest

/-!
# Scanning again (`common.rs`, `client.rs`)

The watcher can miss changes. So the client scans its whole root again from time to time, and what
differs from its manifest becomes user actions in the journal. When a rescan is due is given.
-/

namespace ByteHive

namespace PendingChanges

/-- A path that is new or changed. -/
def addChanged (s : PendingChanges) (p : PathBuf) : PendingChanges :=
  { s with deletes := s.deletes.erase p, changes := s.changes.erase p, ready := insert p s.ready }

/-- A path that is gone. -/
def addDeleted (s : PendingChanges) (p : PathBuf) : PendingChanges :=
  { s with changes := s.changes.erase p, ready := s.ready.erase p, deletes := insert p s.deletes }

/-- `periodic_rescan`; whether the scan succeeds. -/
def periodicRescan (h : Host) (e : SyncEngine) (s : PendingChanges) (scans : Bool) :
    PendingChanges × SyncEngine :=
  if scans then
    let diff := diffManifests h e.manifest (e.scan h).manifest
    (diff.2.foldl addDeleted (diff.1.foldl addChanged s), e.scan h)
  else (s, e)

/-- The actions that `rescan_into_journal` records. -/
def rescanCalls (h : Host) (e : SyncEngine) (s : PendingChanges) : List JournalCall :=
  (((h.order.toList s.changes ++ h.order.toList s.ready).filter fun p =>
      !(e.isSuppressed p || e.isExcluded p)).map fun p => .upsert p h.nowMs) ++
    ((h.order.toList s.deletes).filter fun p =>
      !(e.isDeleteSuppressed p || e.isExcluded p)).map fun p => .delete p h.nowMs

end PendingChanges

/-- What a rescan works on. -/
structure RescanState where
  engine : SyncEngine
  journal : ActionJournal
  pending : PendingChanges

/-- `rescan_into_journal` -/
def rescanIntoJournal (h : Host) (σ : RescanState) (scans : Bool) : RescanState :=
  let r := σ.pending.periodicRescan h σ.engine scans
  -- An action that cannot be appended is logged.
  { engine := r.2
    journal := (r.1.rescanCalls h r.2).foldl (JournalCall.record h) σ.journal
    pending := { r.1 with changes := ∅, ready := ∅, deletes := ∅ } }

/-- A rescan, and how the disk and the timers are when it begins. -/
structure RescanRound where
  host : Host
  tree : Tree
  suppressed : Finset PathBuf
  suppressedDeletes : Finset PathBuf
  /-- The scan succeeds. -/
  scans : Bool

namespace RescanState

def start (e : SyncEngine) (j : ActionJournal) : RescanState := ⟨e, j, .new⟩

/-- What has happened before the rescan. -/
def before (σ : RescanState) (r : RescanRound) : RescanState :=
  { σ with engine := { σ.engine with
      tree := r.tree, suppressed := r.suppressed, suppressedDeletes := r.suppressedDeletes } }

/-- One round. -/
def step (σ : RescanState) (r : RescanRound) : Option RescanState :=
  some (rescanIntoJournal r.host (σ.before r) r.scans)

/-- The actions that a round records. -/
def calls (σ : RescanState) (r : RescanRound) : List JournalCall :=
  let s := σ.before r
  let out := s.pending.periodicRescan r.host s.engine r.scans
  out.1.rescanCalls r.host out.2

end RescanState

end ByteHive
