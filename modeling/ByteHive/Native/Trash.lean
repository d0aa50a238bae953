import ByteHive.ForStd.Run
import ByteHive.Native.Protocol

/-!
# The trash (`core/src/trash.rs`)

Deleted files are moved below `.bh_filesync/trash/<id>/` and listed in one index file. Each
component of the program has its own `TrashManager` for the same root, with a mutex of its
own. The calls run in steps: moving the data, reading the index under the mutex, removing
data, writing the index. A step whose disk operation fails is not possible.

Here a tree is the whole root, `.bh_filesync` included. The size of an entry, which nothing
reads, is left out.
-/

namespace ByteHive

structure TrashEntry where
  id : String
  originalPath : PathBuf
  trashRelPath : PathBuf
  deletedAtMs : Nat
  isDir : Bool
  deletedBy : String
deriving DecidableEq, Repr

/-- A file by what `serde_json` reads from it: an index, or bytes that are none. -/
inductive TrashFile where
  | bytes (c : Content)
  | index (entries : List TrashEntry)
deriving DecidableEq, Repr

abbrev TrashTree := FileTree Component TrashFile

/-- `TRASH_DIR`. -/
def trashDir : PathBuf := .ofNames [".bh_filesync", "trash"]

/-- `TRASH_INDEX_FILE` in the trash directory. -/
def trashIndexFile : PathBuf := trashDir ++ [.normal "index.json"]

def trashIndexTmp : PathBuf := trashDir ++ [.normal "index.json.tmp"]

def trashIdDir (id : String) : PathBuf := trashDir ++ [.normal id]

/-- The decimal digits of `n`, with zeros in front up to `width` characters. -/
def padded (width n : Nat) : List Char := (Nat.toDigits 10 n).leftpad width '0'

/-- `trash_id`: the time in ns and a counter of the process. -/
def trashId (ns seq : Nat) : String := String.ofList (padded 20 ns ++ '_' :: padded 6 seq)

def validateRel (rel : PathBuf) : Except String Unit :=
  if rel = [] then .error "empty path"
  else if .parentDir ∈ rel ∨ .rootDir ∈ rel then .error "unsafe path in trash entry"
  else .ok ()

/-- Where a path leads: the kernel skips `.` components. -/
def skipCurDir (p : PathBuf) : PathBuf := p.filter (· ≠ .curDir)

/-- A product of `u64`s. With overflow checks (the dev profile) a product that is too large
    panics; without (the release profile) it wraps. -/
def mulU64 (checks : Bool) (a b : Nat) : Option Nat :=
  if a * b < 2 ^ 64 then some (a * b) else if checks then none else some (a * b % 2 ^ 64)

/-- A sum of `u64`s. -/
def addU64 (checks : Bool) (a b : Nat) : Option Nat :=
  if a + b < 2 ^ 64 then some (a + b) else if checks then none else some ((a + b) % 2 ^ 64)

/-- `now.saturating_sub(days * 24 * 3600 * 1000)` -/
def expiryCutoffMs (checks : Bool) (days nowMs : Nat) : Option Nat := do
  let hours ← mulU64 checks days 24
  let secs ← mulU64 checks hours 3600
  let ms ← mulU64 checks secs 1000
  return nowMs - ms

inductive TrashRestoreError where
  | notFound (text : String)
  | unsafePath (text : String)
  | destinationExists (path : PathBuf)
deriving DecidableEq, Repr

/-! ## The index file -/

/-- What a call changes in the index it has read. -/
inductive IndexChange where
  | push (entry : TrashEntry)
  /-- `index.remove(pos)` for the first entry with this id. -/
  | remove (id : String)
  /-- `index.retain(|e| e.deleted_at_ms >= cutoff_ms)` -/
  | retain (cutoffMs : Nat)
  | clear
deriving DecidableEq, Repr

def IndexChange.apply (index : List TrashEntry) : IndexChange → List TrashEntry
  | .push entry => index ++ [entry]
  | .remove id => index.eraseP (·.id = id)
  | .retain cutoffMs => index.filter (cutoffMs ≤ ·.deletedAtMs)
  | .clear => []

/-- The entries whose data a call with this change removes. -/
def IndexChange.removed (index : List TrashEntry) : IndexChange → List String
  | .push _ => []
  | .remove id => [id]
  | .retain cutoffMs => (index.filter (·.deletedAtMs < cutoffMs)).map (·.id)
  | .clear => index.map (·.id)

namespace TrashManager

/-- `load_index` -/
def loadIndex (t : TrashTree) : List TrashEntry :=
  match t.read trashIndexFile with
  | some (.index entries) => entries
  | _ => []

/-- `save_index` -/
def saveIndex (t : TrashTree) (now : Nat) (index : List TrashEntry) : Option TrashTree := do
  let t ← t.createDirAll now trashDir
  let t ← t.write trashIndexTmp (.index index) now
  t.rename trashIndexTmp trashIndexFile

/-- The part of `move_to_trash` before the lock is taken: the data of `rel` is moved below
    the directory of the new entry. -/
def moveData (t : TrashTree) (now : Nat) (id : String) (rel : PathBuf) (deletedBy : String) :
    Option (TrashTree × TrashEntry) := do
  let dest := trashIdDir id ++ rel
  let t' ← t.createDirAll now dest.dropLast
  let t' ← t'.rename rel dest
  return (t', ⟨id, rel, .normal id :: rel, now, t.isDir rel, deletedBy⟩)

/-- `remove_dir_all` of the directories of the entries. -/
def removeData (t : TrashTree) (ids : List String) : Option TrashTree :=
  if ids.any fun id => t.isFile (trashIdDir id) then none
  else some (ids.foldl (fun t id => t.removeTree (trashIdDir id)) t)

/-- The destination of a restored entry. -/
def restoreDest (entry : TrashEntry) (destOverride : Option PathBuf) :
    Except TrashRestoreError PathBuf :=
  match destOverride with
  | some o =>
    if o = [] then .error (.unsafePath "empty dest override")
    else
      match validateRel o with
      | .ok () => .ok o
      | .error text => .error (.unsafePath text)
  | none =>
    match validateRel entry.originalPath with
    | .ok () => .ok entry.originalPath
    | .error text => .error (.unsafePath text)

/-- `restore_entry_with_dest` on an index that has been read, up to where the index is saved. -/
def restoreData (t : TrashTree) (now : Nat) (index : List TrashEntry) (id : String)
    (destOverride : Option PathBuf) : Option (Except TrashRestoreError (TrashTree × PathBuf)) :=
  match index.find? (·.id = id) with
  | none => some (.error (.notFound ("no trash entry with id " ++ id.quote)))
  | some entry =>
    match restoreDest entry destOverride with
    | .error e => some (.error e)
    | .ok destRel =>
      let trashFull := trashDir ++ entry.trashRelPath
      let destFull := skipCurDir destRel
      if !t.pathExists trashFull then
        some (.error (.notFound ("trash data missing for id " ++ id.quote)))
      else if t.pathExists destFull then some (.error (.destinationExists destRel))
      else do
        let t ← t.createDirAll now destFull.dropLast
        let t ← t.rename trashFull destFull
        let t ← removeData t [entry.id]
        return .ok (t, destRel)

end TrashManager

/-! ## Calls in steps -/

inductive TrashOp where
  | moveToTrash (rel : PathBuf) (deletedBy : String)
  | restoreEntryWithDest (id : String) (destOverride : Option PathBuf)
  | purgeEntry (id : String)
  | purgeExpired
  | empty
deriving DecidableEq, Repr

/-- How far a call is. -/
inductive TrashPhase where
  | start
  /-- `move_to_trash` has moved the data. -/
  | moved (entry : TrashEntry)
  /-- The lock is held and the index has been read. -/
  | loaded (index : List TrashEntry)
  /-- The lock is held, the data is removed, and the index remains to be saved. -/
  | saving (index : List TrashEntry) (change : IndexChange)
deriving DecidableEq, Repr

namespace TrashPhase

/-- The index that a call has read and not yet written. -/
def held : TrashPhase → Option (List TrashEntry)
  | .loaded index => some index
  | .saving index _ => some index
  | _ => none

/-- The entry whose data is in the trash and that the call has yet to list. -/
def pending : TrashPhase → Option TrashEntry
  | .moved entry => some entry
  | .saving _ (.push entry) => some entry
  | _ => none

/-- The entries whose data the call has removed and that it has yet to drop. -/
def removing : TrashPhase → List String
  | .saving index change => change.removed index
  | _ => []

end TrashPhase

structure TrashCall where
  /-- The `TrashManager` that the call is made on. -/
  manager : Nat
  op : TrashOp
  /-- The time when the call was made. -/
  beganMs : Nat
  phase : TrashPhase
deriving DecidableEq, Repr

/-- All calls on one root. -/
structure TrashWorld where
  tree : TrashTree
  /-- `expiry_days` of each `TrashManager`. -/
  expiryDays : Nat → Option Nat
  /-- The time when the process started. -/
  bootNs : Nat
  /-- `COUNTER` of `trash_id`. -/
  nextSeq : Nat
  /-- The calls that have not returned. -/
  calls : FinMap Nat TrashCall
  /-- Every entry whose data was moved into the trash. -/
  entered : List TrashEntry
  /-- The ids of the entries that were restored or purged. -/
  gone : List String

inductive TrashEvent where
  | call (c manager : Nat) (op : TrashOp) (ns : Nat)
  /-- The next step of call `c`. -/
  | step (c ns : Nat)
deriving DecidableEq, Repr

namespace TrashWorld

open TrashManager

def index (w : TrashWorld) : List TrashEntry := loadIndex w.tree

/-- The mutex of the manager is taken. -/
def locked (w : TrashWorld) (manager : Nat) : Bool :=
  decide (∃ c ∈ w.calls.keys, (w.calls.get c).any fun call =>
    call.manager = manager && call.phase.held.isSome)

def setPhase (w : TrashWorld) (c : Nat) (call : TrashCall) (phase : TrashPhase) : TrashWorld :=
  { w with calls := w.calls.insert c { call with phase } }

/-- The call returns. -/
def finish (w : TrashWorld) (c : Nat) : TrashWorld := { w with calls := w.calls.erase c }

/-- The callers of `move_to_trash` pass a path below the root. -/
def callable : TrashOp → Bool
  | .moveToTrash rel _ => safeRelative rel && decide (rel ≠ [])
  | _ => true

/-- `purge_expired` does nothing without a number of days. -/
def cutoffMs (w : TrashWorld) (call : TrashCall) : Option Nat :=
  match w.expiryDays call.manager with
  | some d => if d > 0 then expiryCutoffMs false d call.beganMs else none
  | none => none

/-- The first step: `move_to_trash` moves the data, the others take the lock and read the
    index. -/
def stepStart (w : TrashWorld) (c : Nat) (call : TrashCall) (ns : Nat) : Option TrashWorld :=
  match call.op with
  | .moveToTrash rel deletedBy =>
    if !w.tree.pathExists rel then some (w.finish c)
    else
      (moveData w.tree (ns / 1000000) (trashId ns w.nextSeq) rel deletedBy).map fun (tree, entry) =>
        { w with tree, nextSeq := w.nextSeq + 1, entered := w.entered ++ [entry] }.setPhase c call
          (.moved entry)
  | op =>
    if op = .purgeExpired ∧ w.cutoffMs call = none then some (w.finish c)
    else if w.locked call.manager then none
    else some (w.setPhase c call (.loaded w.index))

/-- The change that a call makes to the index it has read, where it removes data. -/
def changeOf (w : TrashWorld) (call : TrashCall) (index : List TrashEntry) : Option IndexChange :=
  match call.op with
  | .purgeEntry id => if index.any (·.id = id) then some (.remove id) else none
  | .purgeExpired =>
    match w.cutoffMs call with
    | some cutoff => if index.any (·.deletedAtMs < cutoff) then some (.retain cutoff) else none
    | none => none
  | .empty => some .clear
  | _ => none

/-- The step between reading and saving the index. -/
def stepLoaded (w : TrashWorld) (c : Nat) (call : TrashCall) (ns : Nat)
    (index : List TrashEntry) : Option TrashWorld :=
  match call.op with
  | .restoreEntryWithDest id destOverride =>
    (restoreData w.tree (ns / 1000000) index id destOverride).map fun
      | .error _ => w.finish c
      | .ok (tree, _) =>
        { w with tree, gone := w.gone ++ [id] }.setPhase c call (.saving index (.remove id))
  | _ =>
    match w.changeOf call index with
    | none => some (w.finish c)
    | some change =>
      (removeData w.tree (change.removed index)).map fun tree =>
        { w with tree, gone := w.gone ++ change.removed index }.setPhase c call
          (.saving index change)

/-- The next step of a call. -/
def stepCall (w : TrashWorld) (c : Nat) (call : TrashCall) (ns : Nat) : Option TrashWorld :=
  match call.phase with
  | .start => w.stepStart c call ns
  | .moved entry =>
    if w.locked call.manager then none
    else some (w.setPhase c call (.saving w.index (.push entry)))
  | .loaded index => w.stepLoaded c call ns index
  | .saving index change =>
    (saveIndex w.tree (ns / 1000000) (change.apply index)).map fun tree =>
      { w with tree }.finish c

def step (w : TrashWorld) : TrashEvent → Option TrashWorld
  | .call c manager op ns =>
    if w.calls.get c = none ∧ callable op = true then
      some { w with calls := w.calls.insert c ⟨manager, op, ns / 1000000, .start⟩ }
    else none
  | .step c ns =>
    if ns < w.bootNs then none
    else (w.calls.get c).bind fun call => w.stepCall c call ns

end TrashWorld

end ByteHive
