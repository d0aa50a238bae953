import ByteHive.Native.Engine

/-!
# Streaming files (`bundler.rs`)

`stream_messages` turns a list of paths into messages: directories and small files are
collected into bundles, a large file is sent as a start, its chunks and an end. Paths
that are gone or cannot be read are skipped.

With an engine each streamed path takes a change sequence number from it; without one
the number is 0.
-/

namespace ByteHive

/-- The chunks of a large file, each with its number. -/
def fileChunks (c : Content) : List (UInt32 × Content) :=
  (List.range ((c.length + fileChunkSize - 1) / fileChunkSize)).map fun i =>
    (UInt32.ofNat i, (c.drop (i * fileChunkSize)).take fileChunkSize)

/-- The `total_chunks` of a large file. -/
def totalChunks (size : Nat) : UInt32 :=
  UInt32.ofNat (max ((size + fileChunkSize - 1) / fileChunkSize) 1)

/-- The state of the loop of `stream_messages`. -/
structure BundlerRun where
  cur : List FileData
  curBytes : Nat
  sent : List Message
  nextBundleId : Nat
  engine : Option SyncEngine

namespace BundlerRun

/-- `flush_bundle`. -/
def flushBundle (s : BundlerRun) : BundlerRun :=
  if s.cur = [] then s
  else
    { s with
      cur := []
      curBytes := 0
      sent := s.sent ++ [.bundle ⟨s.cur, s.nextBundleId⟩]
      nextBundleId := s.nextBundleId + 1 }

/-- The change sequence number of the next streamed path. -/
def changeSequence (s : BundlerRun) (rel : PathBuf) : Nat × BundlerRun :=
  match s.engine with
  | none => (0, s)
  | some e => ((e.recordFileChange rel).1, { s with engine := some (e.recordFileChange rel).2 })

/-- `stream_large_file`. -/
def streamLargeFile (h : Host) (stamp : PathBuf → Nat → Option Nat) (s : BundlerRun)
    (rel : PathBuf) (c : Content) (modifiedMs : Nat) : BundlerRun :=
  if h.fails (.read rel) then s
  else
    let r := s.changeSequence rel
    let metadata : FileMetadata :=
      { relPath := rel, size := c.length, hash := h.blake3 c, modifiedMs, changeSequence := r.1
        isDir := false }
    { r.2 with
      sent := r.2.sent ++
        [.largeFileStart metadata (totalChunks c.length) (stamp rel modifiedMs)] ++
        ((fileChunks c).map fun x => .largeFileChunk rel x.1 x.2) ++
        [.largeFileEnd rel (h.blake3 c)] }

/-- One round of the loop of `stream_messages`. -/
def streamPath (h : Host) (t : Tree) (stamp : PathBuf → Nat → Option Nat) (s : BundlerRun)
    (rel : PathBuf) : BundlerRun :=
  match t.get rel with
  | none => s
  | some (.dir modifiedMs) =>
    let r := s.changeSequence rel
    let metadata : FileMetadata :=
      { relPath := rel, size := 0, hash := 0, modifiedMs, changeSequence := r.1, isDir := true }
    { r.2 with cur := r.2.cur ++ [⟨metadata, [], stamp rel modifiedMs⟩] }
  | some (.file c modifiedMs) =>
    if largeFileThreshold ≤ c.length then streamLargeFile h stamp s.flushBundle rel c modifiedMs
    else if h.fails (.read rel) then s
    else
      let s := if s.cur ≠ [] ∧
          (bundleMaxFiles ≤ s.cur.length ∨ bundleMaxBytes < s.curBytes + c.length) then
        s.flushBundle else s
      let r := s.changeSequence rel
      let metadata : FileMetadata :=
        { relPath := rel, size := c.length, hash := h.blake3 c, modifiedMs, changeSequence := r.1
          isDir := false }
      { r.2 with
        cur := r.2.cur ++ [⟨metadata, c, stamp rel modifiedMs⟩]
        curBytes := r.2.curBytes + c.length }

end BundlerRun

/-- `stream_messages` without an engine. -/
def streamMessages (h : Host) (t : Tree) (relPaths : List PathBuf)
    (stamp : PathBuf → Nat → Option Nat) (nextBundleId : Nat) : List Message :=
  (relPaths.foldl (BundlerRun.streamPath h t stamp)
    ⟨[], 0, [], nextBundleId, none⟩).flushBundle.sent

/-- `stream_messages` with an engine, whose change numbers go on. -/
def streamMessagesWith (h : Host) (e : SyncEngine) (relPaths : List PathBuf)
    (stamp : PathBuf → Nat → Option Nat) (nextBundleId : Nat) : List Message × SyncEngine :=
  let s := (relPaths.foldl (BundlerRun.streamPath h e.tree stamp)
    ⟨[], 0, [], nextBundleId, some e⟩).flushBundle
  (s.sent, s.engine.getD e)

end ByteHive
