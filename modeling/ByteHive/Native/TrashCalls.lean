import ByteHive.Native.Engine
import ByteHive.Native.Trash

/-!
# Trash and ledger together (`core/src/trash.rs`, `sync_engine.rs`)

The calls of one `TrashManager`, one after another, and the calls of the engine on top of them:
a restore and the purges also lift tombstones from the ledger. A move or a restore in which a disk
operation fails has no result (`none`), and neither has a call whose arithmetic panics. The purges
go on when a disk operation fails.

The whole root is a `TrashTree`. The engine's own tree, which these calls do not look at, is not
used here.
-/

namespace ByteHive

namespace TrashManager

/-- `move_to_trash` -/
def moveToTrash (t : TrashTree) (now : Nat) (id : String) (rel : PathBuf) (deletedBy : String) :
    Option TrashTree :=
  if !t.pathExists rel then some t
  else do
    let (t, entry) ← moveData t now id rel deletedBy
    saveIndex t now ((IndexChange.push entry).apply (loadIndex t))

/-- `restore_entry_with_dest` -/
def restoreEntryWithDest (t : TrashTree) (now : Nat) (id : String) (destOverride : Option PathBuf) :
    Option (Except TrashRestoreError PathBuf × TrashTree) :=
  match restoreData t now (loadIndex t) id destOverride with
  | none => none
  | some (.error e) => some (.error e, t)
  | some (.ok (t', destRel)) =>
    (saveIndex t' now ((IndexChange.remove id).apply (loadIndex t))).map fun t => (.ok destRel, t)

/-- What fails on disk during a purge. -/
structure PurgeFaults where
  /-- `remove_dir_all` of the directory of this entry. It then leaves what is there. -/
  remove : String → Bool
  /-- Writing the index file. -/
  save : Bool
  errorText : String

def PurgeFaults.none : PurgeFaults := ⟨fun _ => false, false, ""⟩

/-- `remove_dir_all` of the directory of an entry. A directory that is not there is no error. -/
def removeDir (f : PurgeFaults) (t : TrashTree) (id : String) : Option TrashTree :=
  if f.remove id || t.isFile (trashIdDir id) then none else some (t.removeTree (trashIdDir id))

/-- The directories of the entries go, apart from those that cannot be removed. -/
def removeDirs (f : PurgeFaults) (t : TrashTree) (ids : List String) : TrashTree :=
  ids.foldl (fun t id => (removeDir f t id).getD t) t

/-- `save_index` where it may fail; the old index then stays. -/
def saveIndexOr (f : PurgeFaults) (t : TrashTree) (now : Nat) (index : List TrashEntry) :
    TrashTree :=
  if f.save then t else (saveIndex t now index).getD t

/-- `purge_entry` -/
def purgeEntry (f : PurgeFaults) (t : TrashTree) (now : Nat) (id : String) :
    Except String Unit × TrashTree :=
  if (loadIndex t).any (·.id = id) then
    match removeDir f t id with
    | some t' => (.ok (), saveIndexOr f t' now ((IndexChange.remove id).apply (loadIndex t)))
    | none => (.error ("delete failed: " ++ f.errorText), t)
  else (.error ("no trash entry with id " ++ id.quote), t)

/-- The entries that a purge with this cutoff takes. -/
def expired (cutoffMs : Nat) (index : List TrashEntry) : List TrashEntry :=
  index.filter (·.deletedAtMs < cutoffMs)

/-- `purge_expired`: how many entries were purged. -/
def purgeExpired (checks : Bool) (f : PurgeFaults) (t : TrashTree) (nowMs : Nat)
    (expiryDays : Option Nat) : Option (Nat × TrashTree) :=
  match expiryDays with
  | none => some (0, t)
  | some days =>
    if days = 0 then some (0, t)
    else do
      let cutoff ← expiryCutoffMs checks days nowMs
      let doomed := expired cutoff (loadIndex t)
      if doomed = [] then return (0, t)
      let t' := removeDirs f t (doomed.map (·.id))
      let rest := (IndexChange.retain cutoff).apply (loadIndex t)
      return (doomed.length, saveIndexOr f t' nowMs rest)

/-- `empty` -/
def empty (f : PurgeFaults) (t : TrashTree) (now : Nat) : Nat × TrashTree :=
  let index := loadIndex t
  (index.length, saveIndexOr f (removeDirs f t (index.map (·.id))) now [])

end TrashManager

/-! ## The engine's calls -/

/-- The engine with the whole root and the `expiry_days` of its `TrashManager`. -/
structure TrashedEngine where
  engine : SyncEngine
  root : TrashTree
  expiryDays : Option Nat

namespace SyncEngine

/-- `clear_ledger_prefix`: the tombstones at `pre` and below it go. -/
def clearLedgerPrefix (h : Host) (e : SyncEngine) (pre : PathBuf) : SyncEngine :=
  e.clearTombstones h
    ((h.order.toList e.ledger.entries.keys).filter fun k => Decidable.decide (pre <+: k))

end SyncEngine

namespace TrashedEngine

open TrashManager

/-- `list_trash` -/
def listTrash (s : TrashedEngine) : List TrashEntry := loadIndex s.root

/-- The tombstones at or below one of the paths go. -/
def clearLedgerPrefixes (h : Host) (s : TrashedEngine) (pres : List PathBuf) : TrashedEngine :=
  { s with engine := pres.foldl (SyncEngine.clearLedgerPrefix h) s.engine }

/-- The original path of the entry with this id. -/
def originalPath? (s : TrashedEngine) (id : String) : Option PathBuf :=
  (s.listTrash.find? (·.id = id)).map (·.originalPath)

/-- `restore_trash_entry_with_dest` -/
def restoreTrashEntryWithDest (h : Host) (s : TrashedEngine) (id : String)
    (dest : Option PathBuf) : Option (Except TrashRestoreError PathBuf × TrashedEngine) :=
  match restoreEntryWithDest s.root h.nowMs id dest with
  | none => none
  | some (.error e, root) => some (.error e, { s with root })
  | some (.ok destRel, root) =>
    some (.ok destRel, { s with root }.clearLedgerPrefixes h (s.originalPath? id).toList)

/-- `purge_trash_entry` -/
def purgeTrashEntry (h : Host) (f : PurgeFaults) (s : TrashedEngine) (id : String) :
    Except String Unit × TrashedEngine :=
  match purgeEntry f s.root h.nowMs id with
  | (.error e, root) => (.error e, { s with root })
  | (.ok (), root) =>
    (.ok (), { s with root }.clearLedgerPrefixes h (s.originalPath? id).toList)

/-- The entries that `purge_expired_trash` takes for expired, the clock being read for each. -/
def expiredAt (checks : Bool) (days : Nat) (clock : Nat → Nat) :
    List TrashEntry → Option (List TrashEntry)
  | [] => some []
  | e :: entries => do
    let cutoff ← expiryCutoffMs checks days (clock 0)
    let rest ← expiredAt checks days (fun i => clock (i + 1)) entries
    return if e.deletedAtMs < cutoff then e :: rest else rest

/-- What `purge_expired_trash` takes for expired of the whole index. -/
def expiredEntries (checks : Bool) (s : TrashedEngine) (clock : Nat → Nat) :
    Option (List TrashEntry) :=
  match s.expiryDays with
  | none => some []
  | some days => if days = 0 then some [] else expiredAt checks days clock s.listTrash

/-- `purge_expired_trash`; `clock` is the time at each entry, `managerNowMs` the time that the
    `TrashManager` then reads. -/
def purgeExpiredTrash (checks : Bool) (h : Host) (f : PurgeFaults) (s : TrashedEngine)
    (clock : Nat → Nat) (managerNowMs : Nat) : Option (Nat × TrashedEngine) := do
  let pres := (← s.expiredEntries checks clock).map (·.originalPath)
  let (count, root) ← purgeExpired checks f s.root managerNowMs s.expiryDays
  if count > 0 then return (count, { s with root }.clearLedgerPrefixes h pres)
  return (count, { s with root })

/-- `empty_trash` -/
def emptyTrash (h : Host) (f : PurgeFaults) (s : TrashedEngine) : Nat × TrashedEngine :=
  let pres := s.listTrash.map (·.originalPath)
  let (count, root) := TrashManager.empty f s.root h.nowMs
  if count > 0 then (count, { s with root }.clearLedgerPrefixes h pres)
  else (count, { s with root })

end TrashedEngine

end ByteHive
