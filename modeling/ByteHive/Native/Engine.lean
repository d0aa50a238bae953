import ByteHive.Native.Protocol

/-!
# The sync engine (`sync_engine.rs`): state, ledger access and admission

One engine owns a sync root: the files below it, the manifest, the deletion
ledger and the suppression sets. Functions of the source that take `&self` become
functions from a state to a state. `none` in the place of a result is an `Err`;
the state that comes with it keeps every change made before the error.

The threads that lift a suppression after a delay are modelled by the list of
what they will lift.
-/

namespace ByteHive

structure ConflictInfo where
  originalPath : PathBuf
  conflictCopyPath : PathBuf
deriving DecidableEq, Repr

structure ApplyResult where
  written : Nat
  conflicts : List ConflictInfo
deriving DecidableEq, Repr

/-- An in-flight large file. `tmp` is the digest that names its staging file. -/
structure LargeFileAssembly where
  tmp : Hash
  totalChunks : UInt32
  received : Finset UInt32
  expectedHash : Hash
  dst : PathBuf
  fileSize : Nat
  modifiedMs : Nat
  actionMs : Option Nat
  finalHashPending : Option Hash

structure SyncEngine where
  nodeId : String
  isExcluded : PathBuf → Bool
  tree : Tree
  manifest : Manifest
  ledger : DeletionLedger
  ledgerDirty : Bool
  /-- The ledger as last saved. -/
  ledgerFile : DeletionLedger
  suppressed : Finset PathBuf
  suppressedDeletes : Finset PathBuf
  /-- Paths that scheduled threads will take out of `suppressed`. -/
  unsuppress : List (List PathBuf)
  /-- Paths that scheduled threads will take out of `suppressedDeletes`. -/
  unsuppressDeletes : List (List PathBuf)
  inProgress : FinMap PathBuf LargeFileAssembly
  /-- The staging files, named by digest. -/
  staging : FinMap Hash Content
  /-- The `change_count` of each file's change history. -/
  changeCounts : FinMap PathBuf Nat
  lastSequenceNumber : Nat

/-! ## Conflict copies -/

/-- `Path::file_stem` and `Path::extension` of a file name: split at the last dot,
    unless nothing precedes it. -/
def splitFileAtDot (name : String) : String × Option String :=
  let after := (name.toList.reverse.takeWhile (· ≠ '.')).reverse
  let before := (name.toList.reverse.dropWhile (· ≠ '.')).reverse.dropLast
  if before = [] then (name, none) else (String.ofList before, some (String.ofList after))

/-- `Path::file_name`. -/
def fileName (p : PathBuf) : Option String :=
  match p.getLast? with
  | some (.normal name) => some name
  | _ => none

def conflictCopyName (relPath : PathBuf) (nodeId : String) (unixSecs : Nat) : PathBuf :=
  let stem := ((fileName relPath).map fun n => (splitFileAtDot n).1).getD "file"
  let ext := (fileName relPath).bind fun n => (splitFileAtDot n).2
  let base := stem ++ " (conflict " ++ toString unixSecs ++ " " ++ nodeId ++ ")"
  let conflictFilename := match ext with
    | some e => base ++ "." ++ e
    | none => base
  relPath.dropLast ++ [.normal conflictFilename]

/-- The bytes that name a staging file: every normal component, each followed by
    a slash. -/
def stagingKey (rel : PathBuf) : Content :=
  rel.flatMap fun
    | .normal name => (name ++ "/").toUTF8.data.toList
    | _ => []

/-- `staging_path`, relative to the root. -/
def stagingPath (digest : Hash) : PathBuf :=
  .ofNames [".bh_filesync", "transfers", hex digest ++ ".part"]

namespace SyncEngine

/-- `SyncEngine::new_configured` on a root that holds `tree`, with the ledger it
    loads. -/
def new (nodeId : String) (isExcluded : PathBuf → Bool) (tree : Tree) (ledgerFile : DeletionLedger) :
    SyncEngine where
  nodeId
  isExcluded
  tree
  manifest := ⟨.empty, nodeId⟩
  ledger := ledgerFile
  ledgerDirty := false
  ledgerFile
  suppressed := ∅
  suppressedDeletes := ∅
  unsuppress := []
  unsuppressDeletes := []
  inProgress := .empty
  staging := .empty
  changeCounts := .empty
  lastSequenceNumber := 0

/-! ## Suppression -/

def isSuppressed (e : SyncEngine) (p : PathBuf) : Bool := decide (p ∈ e.suppressed)

def isDeleteSuppressed (e : SyncEngine) (p : PathBuf) : Bool := decide (p ∈ e.suppressedDeletes)

def scheduleUnsuppress (e : SyncEngine) (paths : List PathBuf) : SyncEngine :=
  if paths = [] then e else { e with unsuppress := e.unsuppress ++ [paths] }

def scheduleUnsuppressDeletes (e : SyncEngine) (paths : List PathBuf) : SyncEngine :=
  if paths = [] then e else { e with unsuppressDeletes := e.unsuppressDeletes ++ [paths] }

/-! ## File changes -/

/-- `record_file_change`: the first call for a file already counts two changes. -/
def recordFileChange (e : SyncEngine) (rel : PathBuf) : Nat × SyncEngine :=
  let seq := e.lastSequenceNumber + 1
  (seq, { e with
    lastSequenceNumber := seq
    changeCounts := e.changeCounts.insert rel ((e.changeCounts.get rel).getD 1 + 1) })

def clearChangeHistory (e : SyncEngine) (rel : PathBuf) : SyncEngine :=
  { e with changeCounts := e.changeCounts.erase rel }

/-- `is_file_stable`: a directory, a file old enough, or one with a change history. -/
def isFileStable (h : Host) (e : SyncEngine) (rel : PathBuf) : Bool :=
  if rel = [] then true
  else
    match e.tree.get rel with
    | none => false
    | some (.dir _) => true
    | some (.file _ modifiedMs) =>
      decide (fileStabilityMs ≤ h.nowMs - modifiedMs) ||
        decide (1 < (e.changeCounts.get rel).getD 0)

/-! ## Ledger access -/

/-- `ledger_mut`: marks the ledger dirty when `f` reports a change. -/
def ledgerMut (e : SyncEngine) (f : DeletionLedger → Bool × DeletionLedger) : SyncEngine :=
  { e with ledger := (f e.ledger).2, ledgerDirty := e.ledgerDirty || (f e.ledger).1 }

def flushLedger (h : Host) (e : SyncEngine) : SyncEngine :=
  if !e.ledgerDirty || h.fails .saveLedger then e
  else { e with ledgerDirty := false, ledgerFile := e.ledger }

/-- `wire_action_stamp`: the stamp of an outgoing file. -/
def wireActionStamp (e : SyncEngine) (rel : PathBuf) (modifiedMs : Nat) : Option Nat :=
  if 0 < e.ledger.aliveSince rel then some (max (e.ledger.aliveSince rel) modifiedMs) else none

/-- One pass of `record_alive` over `actions`; reports whether anything changed. -/
def recordAll (l : DeletionLedger) : List (PathBuf × Nat) → Bool × DeletionLedger
  | [] => (false, l)
  | (path, actionMs) :: rest =>
    let r := l.recordAlive path actionMs
    let s := recordAll r.2 rest
    (r.1 || s.1, s.2)

def recordLiveActions (h : Host) (e : SyncEngine) (actions : List (PathBuf × Nat)) : SyncEngine :=
  if actions = [] then e else (e.ledgerMut fun l => recordAll l actions).flushLedger h

def recordDelete (h : Host) (e : SyncEngine) (path : PathBuf) (deletedAtMs : Nat)
    (deleter : String) (prevHash : Option String) (prevMtimeMs : Option Nat) : SyncEngine :=
  (e.ledgerMut fun l => (true, l.record path deletedAtMs deleter prevHash prevMtimeMs)).flushLedger h

/-- The tombstones among `dtos`, by path: a later one for a path replaces an
    earlier one. -/
def remoteTombstones (dtos : List TombstoneDto) : FinMap PathBuf Tombstone :=
  (dtos.filter fun d => !d.alive).foldl
    (fun m d => m.insert d.path ⟨d.path, d.deletedAtMs, d.deleterNode, d.prevHash, d.prevMtimeMs⟩)
    .empty

/-- The live records among `dtos`, in order. -/
def remoteAlive (dtos : List TombstoneDto) : List (PathBuf × Nat) :=
  (dtos.filter fun d => d.alive).map fun d => (d.path, d.deletedAtMs)

/-- `merge_ledger`: live records first, then tombstones. Also returns the number
    of entries received. -/
def mergeLedger (h : Host) (e : SyncEngine) (dtos : List TombstoneDto) : Nat × SyncEngine :=
  if dtos = [] then (0, e)
  else
    (dtos.length, (e.ledgerMut fun l =>
      (true, (recordAll l (remoteAlive dtos)).2.mergeRemote (remoteTombstones dtos))).flushLedger h)

/-- `ledger_entries`: tombstones, then live records. -/
def ledgerEntries (h : Host) (e : SyncEngine) : List TombstoneDto :=
  ((h.order.toList e.ledger.entries.keys).filterMap fun p =>
      (e.ledger.entries.get p).map fun t =>
        ⟨t.path, t.deletedAtMs, t.deleterNode, t.prevHash, t.prevMtimeMs, false⟩) ++
    (h.order.toList e.ledger.alive.keys).filterMap fun p =>
      (e.ledger.alive.get p).map fun at' => ⟨p, at', "", none, none, true⟩

def pruneLedger (h : Host) (e : SyncEngine) : SyncEngine :=
  let l := e.ledger.prune h.nowMs deletionLedgerTtlMs
  if l.entries.keys = e.ledger.entries.keys ∧ l.alive.keys = e.ledger.alive.keys then e
  else { e with ledger := l, ledgerDirty := true }.flushLedger h

/-- One pass of `remove` over `paths`; reports whether a tombstone was there. -/
def removeAll (l : DeletionLedger) : List PathBuf → Bool × DeletionLedger
  | [] => (false, l)
  | path :: rest =>
    let r := l.remove path
    let s := removeAll r.2 rest
    (r.1 || s.1, s.2)

def clearTombstones (h : Host) (e : SyncEngine) (paths : List PathBuf) : SyncEngine :=
  if paths = [] then e else (e.ledgerMut fun l => removeAll l paths).flushLedger h

/-- `tombstone_beating`: a covering tombstone strictly newer than `actionMs`. -/
def tombstoneBeating (e : SyncEngine) (path : PathBuf) (actionMs : Nat) : Option Tombstone :=
  (e.ledger.coveringTombstone path).filter fun t => t.deletedAtMs > actionMs

/-- What the manifest holds at `path`, as a tombstone remembers it. -/
def prevInfo (e : SyncEngine) (path : PathBuf) : Option String × Option Nat :=
  match e.manifest.files.get path with
  | some m => (some (hex m.hash), some m.modifiedMs)
  | none => (none, none)

def stageDelete (e : SyncEngine) (path : PathBuf) (deletedAtMs : Nat) : SyncEngine :=
  e.ledgerMut fun l =>
    (true, l.record path deletedAtMs e.nodeId (e.prevInfo path).1 (e.prevInfo path).2)

def stageLiveAction (e : SyncEngine) (path : PathBuf) (actionMs : Nat) : SyncEngine :=
  if e.ledger.aliveRecordNeeded path actionMs then e.ledgerMut fun l => l.recordAlive path actionMs
  else e

/-! ## Admission -/

/-- `veto_for`: the path of a covering tombstone strictly newer than the write's
    comparand, which is its live stamp or else its mtime. -/
def vetoFor (e : SyncEngine) (rel : PathBuf) (actionMs : Option Nat) (modifiedMs : Nat) :
    Option PathBuf :=
  ((e.ledger.coveringTombstone rel).filter fun t =>
    decide (t.deletedAtMs > actionMs.getD modifiedMs)).map (·.path)

/-- `admit_record`: what an admitted write leaves in the ledger. -/
def admitRecord (e : SyncEngine) (rel : PathBuf) (actionMs : Option Nat) (modifiedMs : Nat) :
    SyncEngine :=
  match actionMs with
  | some at' =>
    if e.ledger.aliveRecordNeeded rel at' then e.ledgerMut fun l => l.recordAlive rel at' else e
  | none =>
    match e.ledger.entries.get rel with
    | some t =>
      if modifiedMs > t.deletedAtMs then e.ledgerMut fun l => l.recordAlive rel modifiedMs else e
    | none => e

/-! ## Bundles -/

/-- `detect_conflict`: the manifest's hash when the file on disk is neither what
    the manifest says nor what comes in. -/
def detectConflict (h : Host) (e : SyncEngine) (relPath : PathBuf) (incomingHash : Hash) :
    Option Hash :=
  match e.manifest.files.get relPath with
  | none => none
  | some m =>
    if incomingHash = m.hash then none
    else
      match h.hashFile e.tree relPath with
      | none => none
      | some onDisk => if onDisk = m.hash ∨ onDisk = incomingHash then none else some m.hash

/-- Saves the local version of `relPath` beside it. The parent directory is there
    or is created; a failing copy is only logged. -/
def saveConflictCopy (h : Host) (e : SyncEngine) (relPath : PathBuf) :
    Option (SyncEngine × Option ConflictInfo) :=
  let conflictRel := conflictCopyName relPath e.nodeId h.unixSecs
  match h.createDirAll e.tree conflictRel.dropLast with
  | none => none
  | some t =>
    match h.copy t relPath conflictRel with
    | some t' => some ({ e with tree := t' }, some ⟨relPath, conflictRel⟩)
    | none => some ({ e with tree := t }, none)

/-- The disk writes for one entry of a bundle. `false` is an error; directories
    created before it stay. -/
def writeEntry (h : Host) (t : Tree) (fd : FileData) : Bool × Tree :=
  if fd.metadata.isDir then
    match h.createDirAll t fd.metadata.relPath with
    | some t' => (true, t')
    | none => (false, t)
  else
    match h.createDirAll t fd.metadata.relPath.dropLast with
    | none => (false, t)
    | some t' =>
      match h.write t' fd.metadata.relPath fd.content fd.metadata.modifiedMs with
      | some t'' => (true, t'')
      | none => (false, t')

/-- The state of the loop of `apply_bundle`. -/
structure BundleRun where
  engine : SyncEngine
  written : List PathBuf
  result : ApplyResult
  dirMtimes : List (PathBuf × Nat)

/-- One round of the loop of `apply_bundle`; `false` is an early return with `Err`. -/
def applyFile (h : Host) (s : BundleRun) (fd : FileData) : Bool × BundleRun :=
  let rel := fd.metadata.relPath
  if !safeRelative rel then (true, s)
  else if (s.engine.vetoFor rel fd.actionMs fd.metadata.modifiedMs).isSome then (true, s)
  else
    let e := s.engine.admitRecord rel fd.actionMs fd.metadata.modifiedMs
    let conflicted := !fd.metadata.isDir && (e.detectConflict h rel fd.metadata.hash).isSome
    match if conflicted then e.saveConflictCopy h rel else some (e, none) with
    | none => (false, { s with engine := e })
    | some (e, conflict) =>
      let conflicts := s.result.conflicts ++ conflict.toList
      let w := writeEntry h e.tree fd
      let e := { e with suppressed := insert rel e.suppressed, tree := w.2 }
      if !w.1 then
        (false, { s with
          engine := e, written := s.written ++ [rel], result := { s.result with conflicts } })
      else
        (true,
          { engine := { e with
              manifest := { e.manifest with files := e.manifest.files.insert rel fd.metadata } }
            written := s.written ++ [rel]
            result := ⟨s.result.written + 1, conflicts⟩
            dirMtimes := if fd.metadata.isDir then s.dirMtimes ++ [(rel, fd.metadata.modifiedMs)]
              else s.dirMtimes })

def applyFiles (h : Host) (s : BundleRun) : List FileData → Bool × BundleRun
  | [] => (true, s)
  | fd :: rest =>
    match applyFile h s fd with
    | (true, s) => applyFiles h s rest
    | (false, s) => (false, s)

/-- Directory mtimes are set deepest first, after all writes. -/
def setDirMtimes (h : Host) (t : Tree) (dirMtimes : List (PathBuf × Nat)) : Tree :=
  (dirMtimes.insertionSort fun a b => b.1.length ≤ a.1.length).foldl
    (fun t d => if h.fails (.setMtime d.1) then t else t.setMtime d.1 d.2) t

def applyBundle (h : Host) (e : SyncEngine) (bundle : FileBundle) :
    Option ApplyResult × SyncEngine :=
  match applyFiles h ⟨e, [], ⟨0, []⟩, []⟩ bundle.files with
  | (false, s) => (none, s.engine)
  | (true, s) =>
    let e := s.engine.flushLedger h
    (some s.result,
      { e with tree := setDirMtimes h e.tree s.dirMtimes }.scheduleUnsuppress s.written)

/-! ## Deletes -/

/-- `rel` and every manifest key below it. -/
def manifestSubtree (h : Host) (m : Manifest) (rel : PathBuf) : List PathBuf :=
  rel :: (h.order.toList m.files.keys).filter fun k => decide (k ≠ rel) && decide (rel <+: k)

/-- The live-action guard of `apply_deletes`. -/
def protectedPaths (l : DeletionLedger) (subtree : List PathBuf) (deletedAtMs : Nat) :
    List PathBuf :=
  subtree.filter fun p => decide (0 < l.aliveSince p) && decide (deletedAtMs ≤ l.aliveSince p)

/-- The state of the loops of `apply_deletes`. -/
structure DeleteRun where
  engine : SyncEngine
  removed : List PathBuf
  tombstones : List (PathBuf × Option String × Option Nat)
  count : Nat

/-- A delete that no live action holds back: the whole subtree goes. A path that is
    no directory takes only its own manifest entry along. -/
def deleteWhole (h : Host) (s : DeleteRun) (rel : PathBuf) (subtree : List PathBuf) : DeleteRun :=
  let e := s.engine
  let gone := if e.tree.isDir rel then subtree else [rel]
  { s with
    engine := { e with
      suppressedDeletes := e.suppressedDeletes ∪ subtree.toFinset
      tree := h.moveToTrash e.tree rel
      manifest := { e.manifest with
        files := e.manifest.files.filter fun k _ => !decide (k ∈ gone) } }
    removed := s.removed ++ subtree }

/-- The loop over the targets that are not protected; `gone` holds what an earlier
    round removed. -/
def deleteTargets (h : Host) (guarded : List PathBuf) (s : DeleteRun) (gone : List PathBuf) :
    List PathBuf → DeleteRun
  | [] => s
  | target :: rest =>
    if gone.any fun g => decide (g <+: target) then deleteTargets h guarded s gone rest
    else if s.engine.tree.isDir target &&
        guarded.any fun q => decide (q ≠ target) && decide (target <+: q) then
      deleteTargets h guarded s gone rest
    else
      let e := s.engine
      let s := { s with
        engine := { e with
          suppressedDeletes := insert target e.suppressedDeletes
          tree := h.moveToTrash e.tree target
          manifest := { e.manifest with
            files := e.manifest.files.filter fun k _ => !decide (target <+: k) } }
        removed := s.removed ++ [target] }
      deleteTargets h guarded s (gone ++ [target]) rest

/-- One round of the loop of `apply_deletes`. -/
def deletePath (h : Host) (deletedAtMs : Nat) (s : DeleteRun) (rel : PathBuf) : DeleteRun :=
  if !safeRelative rel then s
  else
    let subtree := manifestSubtree h s.engine.manifest rel
    let guarded := protectedPaths s.engine.ledger subtree deletedAtMs
    let prev := s.engine.prevInfo rel
    let s := if guarded = [] then deleteWhole h s rel subtree
      else
        let targets := subtree.filter fun p => !decide (p ∈ guarded)
        deleteTargets h guarded s [] (targets.insertionSort fun a b => a.length ≤ b.length)
    { s with tombstones := s.tombstones ++ [(rel, prev.1, prev.2)], count := s.count + 1 }

/-- Records the staged tombstones, in order. -/
def recordTombstones (deletedAtMs : Nat) (deleter : String) (l : DeletionLedger)
    (tombstones : List (PathBuf × Option String × Option Nat)) : DeletionLedger :=
  tombstones.foldl (fun l t => l.record t.1 deletedAtMs deleter t.2.1 t.2.2) l

/-- `apply_deletes`, which never fails. Also returns the number of paths taken. -/
def applyDeletes (h : Host) (e : SyncEngine) (paths : List PathBuf) (deletedAtMs : Nat)
    (deleter : String) : Nat × SyncEngine :=
  let s := paths.foldl (deletePath h deletedAtMs) ⟨e, [], [], 0⟩
  let e := if s.tombstones = [] then s.engine
    else (s.engine.ledgerMut fun l =>
      (true, recordTombstones deletedAtMs deleter l s.tombstones)).flushLedger h
  (s.count, e.scheduleUnsuppressDeletes (s.removed.insertionSort (· ≤ ·)).dedup)

/-! ## Renames -/

/-- The manifest keys at or below `source`, each with its new name. -/
def remapPairs (h : Host) (m : Manifest) (source target : PathBuf) : List (PathBuf × PathBuf) :=
  (h.order.toList m.files.keys).filterMap fun k =>
    if source <+: k then some (k, target ++ k.drop source.length) else none

/-- Moves one manifest entry. An entry that `refresh` selects takes the mtime its
    new path has on disk, when there is one. -/
def remapEntry (refresh : FileMetadata → Bool) (t : Tree) (m : Manifest)
    (pair : PathBuf × PathBuf) : Manifest :=
  match m.files.get pair.1 with
  | none => m
  | some fm =>
    let modifiedMs :=
      if refresh fm then ((t.get pair.2).map FileNode.mtime).getD fm.modifiedMs else fm.modifiedMs
    { m with
      files := (m.files.erase pair.1).insert pair.2 { fm with relPath := pair.2, modifiedMs } }

/-- The rename of a source that is gone: the manifest follows when the target
    exists. Only directories take the mtime on disk here. -/
def convergeRename (h : Host) (e : SyncEngine) (source target : PathBuf) : SyncEngine :=
  if e.tree.pathExists target then
    let pairs := remapPairs h e.manifest source target
    if pairs = [] then e
    else
      let touched := pairs.flatMap fun pr => [pr.1, pr.2]
      { e with
        manifest := pairs.foldl (remapEntry FileMetadata.isDir e.tree) e.manifest
        suppressed := e.suppressed ∪ touched.toFinset }.scheduleUnsuppress touched
  else e

/-- `apply_rename_at` once the target is admitted and the source exists. `false` is
    an error. -/
def moveRename (h : Host) (e : SyncEngine) (source target : PathBuf) : Bool × SyncEngine :=
  let pairs := remapPairs h e.manifest source target
  let touched := source :: target :: pairs.flatMap fun pr => [pr.1, pr.2]
  let e := { e with suppressed := e.suppressed ∪ touched.toFinset }
  match h.createDirAll e.tree target.dropLast with
  | none => (false, e)
  | some t =>
    let renamed := h.rename t source target
    if renamed.isNone && !t.pathExists target then (false, { e with tree := t })
    else
      -- A failing rename onto an existing target still moves the manifest.
      let t := renamed.getD t
      (true, { e with
        tree := t
        manifest := pairs.foldl (remapEntry (fun _ => true) t) e.manifest }.scheduleUnsuppress
          (touched.insertionSort (· ≤ ·)).dedup)

/-- `apply_rename_at`: the target is admitted before the source is looked at; when
    it is vetoed the source is deleted instead. -/
def applyRenameAt (h : Host) (e : SyncEngine) (source target : PathBuf) (actionMs : Nat)
    (deleter : String) : Bool × SyncEngine :=
  if !safeRelative source || !safeRelative target then (true, e)
  else if (e.vetoFor target (some actionMs) 0).isSome then
    (true, (e.applyDeletes h [source] actionMs deleter).2)
  else
    let e := (e.admitRecord target (some actionMs) 0).flushLedger h
    if !e.tree.pathExists source then (true, e.convergeRename h source target)
    else e.moveRename h source target

end SyncEngine

end ByteHive
