import ByteHive.ForStd.FinMap
import ByteHive.Native.Path

/-!
# The deletion ledger (`ledger.rs`)

Tombstones and live-action records, both keyed by relative path. A tombstone is
the newest delete of a path; the live record `alive` is the newest action that
created or modified it. Stamps are wall-clock milliseconds.

The ledger file (`load`, `save_atomic`) is not part of this module.
-/

namespace ByteHive

/-- A single deletion tombstone. -/
structure Tombstone where
  path : PathBuf
  deletedAtMs : Nat
  deleterNode : String
  prevHash : Option String
  prevMtimeMs : Option Nat
deriving DecidableEq, Repr

/-- The set of tombstones, plus the live-action record per path. -/
structure DeletionLedger where
  entries : FinMap PathBuf Tombstone
  alive : FinMap PathBuf Nat

/-- `DELETION_LEDGER_TTL_MS`: 90 days. -/
def deletionLedgerTtlMs : Nat := 90 * 24 * 60 * 60 * 1000

namespace DeletionLedger

/-- `DeletionLedger::new`. -/
def new : DeletionLedger := ⟨.empty, .empty⟩

/-- Last live-action stamp for `path` (0 when none recorded). -/
def aliveSince (l : DeletionLedger) (path : PathBuf) : Nat := (l.alive.get path).getD 0

/-- A live action at `path` is at least as new as a tombstone stamped `deletedAtMs`. -/
def isSuperseded (l : DeletionLedger) (path : PathBuf) (deletedAtMs : Nat) : Bool :=
  match l.alive.get path with
  | some a => deletedAtMs ≤ a
  | none => false

/-- `recordAlive` with `actionMs` would change state. -/
def aliveRecordNeeded (l : DeletionLedger) (path : PathBuf) (actionMs : Nat) : Bool :=
  0 < actionMs &&
    (decide (l.aliveSince path < actionMs) ||
      match l.entries.get path with
      | some t => t.deletedAtMs ≤ actionMs
      | none => false)

/-- Record a live action: raises the live record and lifts a tombstone at `path`
    that it supersedes. Also returns whether the state changed. -/
def recordAlive (l : DeletionLedger) (path : PathBuf) (actionMs : Nat) :
    Bool × DeletionLedger :=
  if actionMs = 0 then (false, l)
  else
    let raised := decide (l.aliveSince path < actionMs)
    let l := if raised then { l with alive := l.alive.insert path actionMs } else l
    let lifted := match l.entries.get path with
      | some t => decide (t.deletedAtMs ≤ actionMs)
      | none => false
    let l := if lifted then { l with entries := l.entries.erase path } else l
    (raised || lifted, l)

/-- Record a tombstone: the newest `deletedAtMs` wins, and a tombstone not newer
    than the live record for `path` is ignored. -/
def record (l : DeletionLedger) (path : PathBuf) (deletedAtMs : Nat) (deleterNode : String)
    (prevHash : Option String) (prevMtimeMs : Option Nat) : DeletionLedger :=
  if l.isSuperseded path deletedAtMs then l
  else
    let entry : Tombstone := ⟨path, deletedAtMs, deleterNode, prevHash, prevMtimeMs⟩
    match l.entries.get path with
    | some existing =>
      if existing.deletedAtMs ≥ deletedAtMs then l
      else { l with entries := l.entries.insert path entry }
    | none => { l with entries := l.entries.insert path entry }

/-- A tombstone at exactly `path` is strictly newer than `mtimeMs`. -/
def hasNewerThan (l : DeletionLedger) (path : PathBuf) (mtimeMs : Nat) : Bool :=
  match l.entries.get path with
  | some t => t.deletedAtMs > mtimeMs
  | none => false

/-- The tombstone stored at `ancestor`, unless the live record of `path` is at
    least as new. -/
def effectiveTombstone (l : DeletionLedger) (path ancestor : PathBuf) : Option Tombstone :=
  (l.entries.get ancestor).filter fun t =>
    match l.alive.get path with
    | some a => !decide (t.deletedAtMs ≤ a)
    | none => true

/-- Nearest tombstone at `path` or an ancestor that still applies to `path`:
    one not newer than the live record of `path` is skipped and the walk goes on. -/
def coveringTombstone (l : DeletionLedger) (path : PathBuf) : Option Tombstone :=
  (ancestors path).findSome? (l.effectiveTombstone path)

/-- `hasNewerThan` for the exact or the nearest covering tombstone. -/
def hasNewerThanPrefix (l : DeletionLedger) (path : PathBuf) (mtimeMs : Nat) : Bool :=
  match l.coveringTombstone path with
  | some t => t.deletedAtMs > mtimeMs
  | none => false

/-- Merge remote tombstones, the newest per path winning. The loop of the source
    treats each path on its own, so the result is given path by path. -/
def mergeRemote (l : DeletionLedger) (remote : FinMap PathBuf Tombstone) : DeletionLedger :=
  { l with
    entries := .ofKeys (l.entries.keys ∪ remote.keys) fun path =>
      match remote.get path with
      | none => l.entries.get path
      | some tomb =>
        if l.isSuperseded path tomb.deletedAtMs then l.entries.get path
        else
          match l.entries.get path with
          | some existing =>
            if existing.deletedAtMs ≥ tomb.deletedAtMs then some existing else some tomb
          | none => some tomb }

/-- Drop tombstones and live records older than `ttlMs`; stamps from the future stay. -/
def prune (l : DeletionLedger) (nowMs ttlMs : Nat) : DeletionLedger :=
  { entries := l.entries.filter fun _ t => t.deletedAtMs > nowMs || nowMs - t.deletedAtMs ≤ ttlMs
    alive := l.alive.filter fun _ a => a > nowMs || nowMs - a ≤ ttlMs }

/-- Remove the tombstone for `path`; also returns whether there was one. -/
def remove (l : DeletionLedger) (path : PathBuf) : Bool × DeletionLedger :=
  ((l.entries.get path).isSome, { l with entries := l.entries.erase path })

end DeletionLedger

end ByteHive
