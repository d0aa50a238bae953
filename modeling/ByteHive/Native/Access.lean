import ByteHive.Native.Receiver

/-!
# The paths a message touches (`sync_engine.rs`, `server.rs`, `core/trash.rs`)

Every file-system call of a handler works on `root.join(path)` for some path. The functions
below follow the handlers and list these paths: what is read, looked up, written, moved or
removed. A path stands for what lies below it when a directory is moved, copied or removed.
`create_dir_all` is listed with the directories that it has to make.

`resolve` is where a joined path leads when there are no symbolic links: an absolute path
replaces the root, and `..` goes up.
-/

namespace ByteHive

/-- `root.join(path)` as the names from `/` down. -/
def resolve (root : List String) (p : PathBuf) : List String :=
  p.foldl (fun cur c =>
    match c with
    | .rootDir => []
    | .curDir => cur
    | .parentDir => cur.dropLast
    | .normal name => cur ++ [name]) root

/-- The directories that `create_dir_all` makes. -/
def dirsMade (t : Tree) (p : PathBuf) : List PathBuf :=
  (ancestors p).filter fun q => !t.pathExists q

/-- `TRASH_DIR` and the folder of one entry in it. -/
def trashEntryDir (id : String) : PathBuf := .ofNames [".bh_filesync", "trash", id]

/-- `move_to_trash`. The entry goes to `trash/<id>/<rel>`, then the index is written. -/
def trashTouches (id : String) (t : Tree) (rel : PathBuf) : List PathBuf :=
  if t.pathExists rel then
    rel :: ancestors (trashEntryDir id ++ rel) ++
      [.ofNames [".bh_filesync", "trash", "index.json.tmp"],
        .ofNames [".bh_filesync", "trash", "index.json"]]
  else [rel]

namespace SyncEngine

/-- `flush_ledger`: a ledger that has changed is written beside its file, then renamed. -/
def ledgerTouches (e : SyncEngine) : List PathBuf :=
  if e.ledgerDirty then
    [.ofNames [".bh_filesync"], .ofNames [".bh_filesync", "deletion-ledger.json.tmp"],
      .ofNames [".bh_filesync", "deletion-ledger.json"]]
  else []

/-! ## Bundles -/

/-- What `detect_conflict` reads, also in `commit_large_file`. -/
def conflictReads (e : SyncEngine) (rel dst : PathBuf) (incomingHash : Hash) : List PathBuf :=
  match e.manifest.files.get rel with
  | none => []
  | some m => if incomingHash = m.hash then [] else [dst]

/-- A conflict copy of `dst` beside `rel`. -/
def copyTouches (h : Host) (e : SyncEngine) (rel dst : PathBuf) : List PathBuf :=
  let conflictRel := conflictCopyName rel e.nodeId h.unixSecs
  dirsMade e.tree conflictRel.dropLast ++ [dst, conflictRel]

/-- The disk writes for one entry of a bundle. -/
def entryTouches (h : Host) (t : Tree) (fd : FileData) : List PathBuf :=
  if fd.metadata.isDir then dirsMade t fd.metadata.relPath
  else
    dirsMade t fd.metadata.relPath.dropLast ++
      if (h.createDirAll t fd.metadata.relPath.dropLast).isSome then [fd.metadata.relPath] else []

/-- One round of the loop of `apply_bundle`. -/
def fileTouches (h : Host) (e : SyncEngine) (fd : FileData) : List PathBuf :=
  let rel := fd.metadata.relPath
  if !safeRelative rel then []
  else if (e.vetoFor rel fd.actionMs fd.metadata.modifiedMs).isSome then []
  else
    let e := e.admitRecord rel fd.actionMs fd.metadata.modifiedMs
    let conflicted := !fd.metadata.isDir && (e.detectConflict h rel fd.metadata.hash).isSome
    (if fd.metadata.isDir then [] else e.conflictReads rel rel fd.metadata.hash) ++
      (if conflicted then e.copyTouches h rel rel else []) ++
      match if conflicted then e.saveConflictCopy h rel else some (e, none) with
      | none => []
      | some (e, _) => entryTouches h e.tree fd

def filesTouches (h : Host) (s : BundleRun) : List FileData → List PathBuf
  | [] => []
  | fd :: rest =>
    fileTouches h s.engine fd ++
      match applyFile h s fd with
      | (true, s) => filesTouches h s rest
      | (false, _) => []

/-- `apply_bundle`: the mtimes of directories come last. -/
def bundleTouches (h : Host) (e : SyncEngine) (b : FileBundle) : List PathBuf :=
  filesTouches h ⟨e, [], ⟨0, []⟩, []⟩ b.files ++
    match applyFiles h ⟨e, [], ⟨0, []⟩, []⟩ b.files with
    | (false, _) => []
    | (true, s) => s.engine.ledgerTouches ++ s.dirMtimes.map (·.1)

/-! ## Deletes and renames -/

section

variable (trashId : PathBuf → String)

def deleteTargetsTouches (h : Host) (guarded : List PathBuf) (s : DeleteRun) (gone : List PathBuf) :
    List PathBuf → List PathBuf
  | [] => []
  | target :: rest =>
    if gone.any fun g => Decidable.decide (g <+: target) then
      deleteTargetsTouches h guarded s gone rest
    else if s.engine.tree.isDir target &&
        guarded.any fun q => Decidable.decide (q ≠ target) && Decidable.decide (target <+: q) then
      target :: deleteTargetsTouches h guarded s gone rest
    else
      let e := s.engine
      let s := { s with
        engine := { e with
          suppressedDeletes := insert target e.suppressedDeletes
          tree := h.moveToTrash e.tree target
          manifest := { e.manifest with
            files := e.manifest.files.filter fun k _ => !Decidable.decide (target <+: k) } }
        removed := s.removed ++ [target] }
      trashTouches (trashId target) e.tree target ++
        deleteTargetsTouches h guarded s (gone ++ [target]) rest

/-- One round of the loop of `apply_deletes`. -/
def deletePathTouches (h : Host) (deletedAtMs : Nat) (s : DeleteRun) (rel : PathBuf) :
    List PathBuf :=
  if !safeRelative rel then []
  else
    let subtree := manifestSubtree h s.engine.manifest rel
    let guarded := protectedPaths s.engine.ledger subtree deletedAtMs
    if guarded = [] then trashTouches (trashId rel) s.engine.tree rel
    else
      let targets := subtree.filter fun p => !Decidable.decide (p ∈ guarded)
      deleteTargetsTouches trashId h guarded s []
        (targets.insertionSort fun a b => a.length ≤ b.length)

def deletePathsTouches (h : Host) (deletedAtMs : Nat) (s : DeleteRun) : List PathBuf → List PathBuf
  | [] => []
  | rel :: rest =>
    deletePathTouches trashId h deletedAtMs s rel ++
      deletePathsTouches h deletedAtMs (deletePath h deletedAtMs s rel) rest

def deletesTouches (h : Host) (e : SyncEngine) (paths : List PathBuf) (deletedAtMs : Nat)
    (deleter : String) : List PathBuf :=
  let s := paths.foldl (deletePath h deletedAtMs) ⟨e, [], [], 0⟩
  deletePathsTouches trashId h deletedAtMs ⟨e, [], [], 0⟩ paths ++
    if s.tombstones = [] then []
    else (s.engine.ledgerMut fun l =>
      (true, recordTombstones deletedAtMs deleter l s.tombstones)).ledgerTouches

/-- `apply_rename_at` once the target is admitted. The new names of manifest entries are looked
    up for their mtimes. -/
def moveTouches (h : Host) (e : SyncEngine) (source target : PathBuf) : List PathBuf :=
  let pairs := remapPairs h e.manifest source target
  if !e.tree.pathExists source then
    [source, target] ++
      if e.tree.pathExists target then
        (pairs.filter fun pr => (e.manifest.files.get pr.1).any FileMetadata.isDir).map (·.2)
      else []
  else
    source :: dirsMade e.tree target.dropLast ++
      match h.createDirAll e.tree target.dropLast with
      | none => []
      | some t =>
        [source, target] ++
          if (h.rename t source target).isNone && !t.pathExists target then []
          else pairs.map (·.2)

def renameTouches (h : Host) (e : SyncEngine) (source target : PathBuf) (actionMs : Nat)
    (deleter : String) : List PathBuf :=
  if !safeRelative source || !safeRelative target then []
  else if (e.vetoFor target (some actionMs) 0).isSome then
    deletesTouches trashId h e [source] actionMs deleter
  else
    (e.admitRecord target (some actionMs) 0).ledgerTouches ++
      moveTouches h ((e.admitRecord target (some actionMs) 0).flushLedger h) source target

end

/-! ## Large files -/

def beginTouches (h : Host) (e : SyncEngine) (metadata : FileMetadata) (actionMs : Option Nat) :
    List PathBuf :=
  let rel := metadata.relPath
  if !safeRelative rel then []
  else if (e.vetoFor rel actionMs metadata.modifiedMs).isSome then []
  else
    let e := e.admitRecord rel actionMs metadata.modifiedMs
    e.ledgerTouches ++ dirsMade (e.flushLedger h).tree rel.dropLast ++
      if (h.createDirAll (e.flushLedger h).tree rel.dropLast).isSome then
        ancestors (stagingPath (h.blake3 (stagingKey rel)))
      else []

/-- The last part of `commit_large_file`. -/
def installTouches (h : Host) (e : SyncEngine) (path : PathBuf) (asm : LargeFileAssembly)
    (finalHash : Hash) : List PathBuf :=
  e.conflictReads path asm.dst finalHash ++
    (if e.commitConflict h path asm.dst finalHash then e.copyTouches h path asm.dst else []) ++
    [stagingPath asm.tmp, asm.dst]

def commitTouches (h : Host) (e : SyncEngine) (path : PathBuf) (finalHash : Hash) :
    List PathBuf :=
  match e.inProgress.get path with
  | none => []
  | some asm =>
    let e := { e with inProgress := e.inProgress.erase path }
    if (e.vetoFor path asm.actionMs asm.modifiedMs).isSome then [stagingPath asm.tmp]
    else
      let e := e.admitRecord path asm.actionMs asm.modifiedMs
      e.ledgerTouches ++ [stagingPath asm.tmp] ++
        match (e.flushLedger h).staging.get asm.tmp with
        | none => []
        | some c =>
          if h.fails (.readStaging path) then []
          else if h.blake3 c ≠ finalHash then []
          else (e.flushLedger h).installTouches h path asm finalHash

def chunkTouches (h : Host) (e : SyncEngine) (path : PathBuf) (chunkIndex : UInt32)
    (data : Content) : List PathBuf :=
  match e.inProgress.get path with
  | none => []
  | some asm =>
    stagingPath asm.tmp ::
      match e.receiveLargeFileChunk h path chunkIndex data with
      | (some (.readyToCommit hash), e) => e.commitTouches h path hash
      | _ => []

def endTouches (h : Host) (e : SyncEngine) (path : PathBuf) (finalHash : Hash) : List PathBuf :=
  match e.inProgress.get path with
  | none => []
  | some asm =>
    if asm.receivedCount < asm.totalChunks then [] else e.commitTouches h path finalHash

/-! ## Messages -/

/-- What the handlers touch for a message of a peer. -/
def touches (trashId : PathBuf → String) (h : Host) (e : SyncEngine) (peer : String) :
    Message → List PathBuf
  | .bundle b => e.bundleTouches h b
  | .delete paths t d => e.deletesTouches trashId h paths t d
  | .largeFileStart md _ a => e.beginTouches h md a
  | .largeFileChunk p i data => e.chunkTouches h p i data
  | .largeFileEnd p fh => e.endTouches h p fh
  | .rename f g a => e.renameTouches trashId h f g a peer
  | .actionBatchEnd _ => e.ledgerTouches
  | .actionBatchAck _ => []

end SyncEngine

/-- The messages that name paths to work on. -/
inductive PathMessage where
  | action (m : Message)
  | requestChunks (path : PathBuf) (chunkIndices : List UInt32)

def PathMessage.toPeerMessage : PathMessage → PeerMessage
  | .action m => .action m
  | .requestChunks path chunkIndices => .requestChunks path chunkIndices

namespace Receiver

/-- The initial sync takes stamps as they are, but for a delete, and drops the other messages. -/
def initialTouches (trashId : PathBuf → String) (h : Host) (e : SyncEngine) :
    Message → List PathBuf
  | .delete paths t d => e.deletesTouches trashId h paths (clampFutureStamp h t) d
  | .rename _ _ _ => []
  | .actionBatchEnd _ => []
  | m => e.touches trashId h "" m

/-- What one message makes this end of the session touch. `handle_request_chunks` opens its path
    without a check. -/
def touches (trashId : PathBuf → String) (h : Host) (r : Receiver) (m : PathMessage) :
    List PathBuf :=
  match r.side, r.phase, m with
  | .server clientId, .drain, .action m => r.engine.touches trashId h clientId (m.clamp h)
  | _, .initial _ _, .action m => initialTouches trashId h r.engine m
  | .server clientId, .live, .action m => r.engine.touches trashId h clientId (m.clamp h)
  | .server _, .live, .requestChunks path _ => [path]
  | .client, .live, .action (.actionBatchEnd _) => []
  | .client, .live, .action m => r.engine.touches trashId h "server" (m.clamp h)
  | _, _, _ => []

end Receiver

end ByteHive
