import Mathlib.Data.Finset.Card
import ByteHive.Native.Engine

/-!
# Large-file transfers (`sync_engine.rs`)

A large file arrives as a start, numbered chunks and an end. The chunks are
written to a staging file, which replaces the destination once its hash is the
announced one. Assemblies are kept by relative path only, for all connections
together.
-/

namespace ByteHive

inductive ChunkResult where
  | pending
  | readyToCommit (hash : Hash)
deriving DecidableEq, Repr

inductive FinishResult where
  | committed
  | committedWithConflict (info : ConflictInfo)
  | missingChunks (missing : List UInt32)
deriving DecidableEq, Repr

/-- Writing `data` at `offset`: a gap behind the end reads as zeros. -/
def writeAt (c : Content) (offset : Nat) (data : Content) : Content :=
  if data = [] then c
  else c.take offset ++ .replicate (offset - c.length) 0 ++ data ++ c.drop (offset + data.length)

namespace LargeFileAssembly

/-- `received.len() as u32`. -/
def receivedCount (asm : LargeFileAssembly) : UInt32 := UInt32.ofNat asm.received.card

/-- The chunk numbers below `totalChunks` that did not arrive. -/
def missing (asm : LargeFileAssembly) : List UInt32 :=
  ((List.range asm.totalChunks.toNat).map UInt32.ofNat).filter fun i => !decide (i ∈ asm.received)

end LargeFileAssembly

namespace SyncEngine

/-- `begin_large_file_with_action`; `false` is an error. A vetoed or unsafe start
    succeeds without an assembly. -/
def beginLargeFileWithAction (h : Host) (e : SyncEngine) (metadata : FileMetadata)
    (totalChunks : UInt32) (actionMs : Option Nat) : Bool × SyncEngine :=
  let rel := metadata.relPath
  if !safeRelative rel then (true, e)
  else if (e.vetoFor rel actionMs metadata.modifiedMs).isSome then (true, e)
  else
    let e := (e.admitRecord rel actionMs metadata.modifiedMs).flushLedger h
    match h.createDirAll e.tree rel.dropLast with
    | none => (false, e)
    | some t =>
      let e := { e with tree := t }
      let tmp := h.blake3 (stagingKey rel)
      if h.fails (.openStaging rel) then (false, e)
      else if h.fails (.resizeStaging rel) then
        (false, { e with staging := e.staging.insert tmp [] })
      else
        (true, { e with
          staging := e.staging.insert tmp (.replicate metadata.size 0)
          suppressed := insert (stagingPath tmp) (insert rel e.suppressed)
          inProgress := e.inProgress.insert rel
            { tmp, totalChunks, received := ∅, expectedHash := metadata.hash, dst := rel
              fileSize := metadata.size, modifiedMs := metadata.modifiedMs, actionMs
              finalHashPending := none } })

/-- `receive_large_file_chunk`. A chunk for an unknown path is dropped. -/
def receiveLargeFileChunk (h : Host) (e : SyncEngine) (path : PathBuf) (chunkIndex : UInt32)
    (data : Content) : Option ChunkResult × SyncEngine :=
  match e.inProgress.get path with
  | none => (some .pending, e)
  | some asm =>
    match e.staging.get asm.tmp with
    | none => (none, e)
    | some c =>
      if h.fails (.writeStaging path) then (none, e)
      else
        let asm := { asm with received := insert chunkIndex asm.received }
        let e := { e with
          staging := e.staging.insert asm.tmp (writeAt c (chunkIndex.toNat * fileChunkSize) data)
          inProgress := e.inProgress.insert path asm }
        match asm.finalHashPending with
        | some hash =>
          if asm.receivedCount = asm.totalChunks then (some (.readyToCommit hash), e)
          else (some .pending, e)
        | none => (some .pending, e)

/-- Whether the destination of a commit holds content that would be lost. -/
def commitConflict (h : Host) (e : SyncEngine) (path dst : PathBuf) (finalHash : Hash) : Bool :=
  match e.manifest.files.get path with
  | none => false
  | some m =>
    decide (finalHash ≠ m.hash) &&
      match h.hashFile e.tree dst with
      | none => false
      | some onDisk => decide (onDisk ≠ m.hash) && decide (onDisk ≠ finalHash)

/-- Saves the local version of `dst` beside `path`; unlike in `apply_bundle` a parent
    directory that cannot be created is no error. -/
def saveCommitConflict (h : Host) (e : SyncEngine) (path dst : PathBuf) :
    Option ConflictInfo × SyncEngine :=
  let conflictRel := conflictCopyName path e.nodeId h.unixSecs
  let t := (h.createDirAll e.tree conflictRel.dropLast).getD e.tree
  match h.copy t dst conflictRel with
  | some t' => (some ⟨path, conflictRel⟩, { e with tree := t' })
  | none => (none, { e with tree := t })

/-- The last part of `commit_large_file`: the verified staging file `c` replaces the
    destination. -/
def installLargeFile (h : Host) (e : SyncEngine) (path : PathBuf) (asm : LargeFileAssembly)
    (finalHash : Hash) (c : Content) : Option FinishResult × SyncEngine :=
  let r := if e.commitConflict h path asm.dst finalHash then e.saveCommitConflict h path asm.dst
    else (none, e)
  let e := r.2
  let mtime := if h.fails (.setMtime asm.dst) then h.nowMs else asm.modifiedMs
  match if h.fails (.install asm.dst) then none else e.tree.write asm.dst c mtime with
  | none => (none, e)
  | some t =>
    let e := { e with
      tree := t
      staging := e.staging.erase asm.tmp
      manifest := { e.manifest with
        files := e.manifest.files.insert path
          { relPath := path, size := asm.fileSize, hash := finalHash
            modifiedMs := asm.modifiedMs, changeSequence := 0, isDir := false } } }
    let e := e.scheduleUnsuppress [path, stagingPath asm.tmp]
    (some (match r.1 with
      | some ci => .committedWithConflict ci
      | none => .committed), e)

/-- `commit_large_file`. An unknown path and a vetoed commit both answer `committed`. -/
def commitLargeFile (h : Host) (e : SyncEngine) (path : PathBuf) (finalHash : Hash) :
    Option FinishResult × SyncEngine :=
  match e.inProgress.get path with
  | none => (some .committed, e)
  | some asm =>
    let e := { e with inProgress := e.inProgress.erase path }
    if (e.vetoFor path asm.actionMs asm.modifiedMs).isSome then
      (some .committed, { e with staging := e.staging.erase asm.tmp })
    else
      let e := (e.admitRecord path asm.actionMs asm.modifiedMs).flushLedger h
      match e.staging.get asm.tmp with
      | none => (none, e)
      | some c =>
        if h.fails (.readStaging path) then (none, e)
        else if h.blake3 c ≠ finalHash then (none, { e with staging := e.staging.erase asm.tmp })
        else e.installLargeFile h path asm finalHash c

/-- `finish_large_file`. -/
def finishLargeFile (h : Host) (e : SyncEngine) (path : PathBuf) (finalHash : Hash) :
    Option FinishResult × SyncEngine :=
  match e.inProgress.get path with
  | none => (some .committed, e)
  | some asm =>
    if asm.receivedCount < asm.totalChunks then
      let asm' := { asm with finalHashPending := some finalHash }
      (some (.missingChunks asm.missing), { e with inProgress := e.inProgress.insert path asm' })
    else e.commitLargeFile h path finalHash

/-- `clear_in_progress`. -/
def clearInProgress (e : SyncEngine) : SyncEngine :=
  let tmps := e.inProgress.keys.biUnion fun p =>
    ((e.inProgress.get p).map fun asm => ({asm.tmp} : Finset Hash)).getD ∅
  { e with inProgress := .empty, staging := e.staging.filter fun k _ => !decide (k ∈ tmps) }

end SyncEngine

end ByteHive
