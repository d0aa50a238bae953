import ByteHive.ForStd.FileTree
import ByteHive.Native.Ledger

/-!
# Wire and manifest data (`protocol.rs`)

File metadata, manifests, the messages two peers exchange, and what the engine
gets from its host machine: the clock, BLAKE3, the iteration order of a hash map
and which file-system calls fail.

Stamps and sizes are natural numbers; chunk indices and counts are `UInt32`, since
the code counts modulo `2^32`.
-/

namespace ByteHive

/-- The bytes of a file. -/
abbrev Content := List UInt8

/-- A BLAKE3 digest, `[u8; 32]`. -/
abbrev Hash := BitVec 256

/-- The files and directories below a sync root, without the engine's own folder
    `.bh_filesync`. -/
abbrev Tree := FileTree Component Content

/-- `BUNDLE_MAX_BYTES`. -/
def bundleMaxBytes : Nat := 8 * 1024 * 1024

/-- `BUNDLE_MAX_FILES`. -/
def bundleMaxFiles : Nat := 500

/-- `LARGE_FILE_THRESHOLD`. -/
def largeFileThreshold : Nat := 8 * 1024 * 1024

/-- `FILE_STABILITY_MS`. -/
def fileStabilityMs : Nat := 500

/-- `FILE_CHUNK_SIZE`. -/
def fileChunkSize : Nat := 8 * 1024 * 1024

/-- `CLIENT_BROADCAST_DEPTH`. -/
def clientBroadcastDepth : Nat := 512

/-- `crate::hex`: the lower-case hex digits of a digest. -/
def hex (h : Hash) : String :=
  String.ofList ((List.range 64).map fun i => Nat.digitChar (h.toNat / 16 ^ (63 - i) % 16))

structure FileMetadata where
  relPath : PathBuf
  size : Nat
  hash : Hash
  modifiedMs : Nat
  changeSequence : Nat
  isDir : Bool
deriving DecidableEq, Repr

structure Manifest where
  files : FinMap PathBuf FileMetadata
  nodeId : String

structure FileData where
  metadata : FileMetadata
  content : Content
  /-- `some` marks a live action, judged by this stamp; `none` is a catch-up
      transfer, judged by `modifiedMs`. -/
  actionMs : Option Nat
deriving DecidableEq, Repr

structure FileBundle where
  files : List FileData
  bundleId : Nat
deriving DecidableEq, Repr

structure TombstoneDto where
  path : PathBuf
  /-- The tombstone's stamp, or the live-action stamp when `alive`. -/
  deletedAtMs : Nat
  deleterNode : String
  prevHash : Option String
  prevMtimeMs : Option Nat
  alive : Bool
deriving DecidableEq, Repr

/-- The messages that carry a client's actions, and the two that close and
    acknowledge a batch of them. -/
inductive Message where
  | bundle (b : FileBundle)
  | delete (paths : List PathBuf) (deletedAtMs : Nat) (deleter : String)
  | largeFileStart (metadata : FileMetadata) (totalChunks : UInt32) (actionMs : Option Nat)
  | largeFileChunk (path : PathBuf) (chunkIndex : UInt32) (data : Content)
  | largeFileEnd (path : PathBuf) (finalHash : Hash)
  | rename (source target : PathBuf) (actionMs : Nat)
  | actionBatchEnd (uptoSeq : Nat)
  | actionBatchAck (uptoSeq : Nat)
deriving DecidableEq, Repr

/-! ## The host machine -/

/-- The file-system calls that can fail for reasons outside the tree. -/
inductive FsOp where
  | createDirAll (p : PathBuf)
  | write (p : PathBuf)
  | read (p : PathBuf)
  | setMtime (p : PathBuf)
  | copy (source target : PathBuf)
  | rename (source target : PathBuf)
  | remove (p : PathBuf)
  | openStaging (p : PathBuf)
  | resizeStaging (p : PathBuf)
  | writeStaging (p : PathBuf)
  | readStaging (p : PathBuf)
  | install (p : PathBuf)
  | saveLedger
  | appendJournal (seq : Nat)
  | compactJournal
deriving DecidableEq, Repr

/-- The order in which a hash map yields its keys: some enumeration of them. -/
structure HashOrder where
  toList : Finset PathBuf → List PathBuf
  nodup : ∀ s, (toList s).Nodup
  mem_toList : ∀ s p, p ∈ toList s ↔ p ∈ s

/-- The order that yields the keys sorted. -/
def HashOrder.sorted : HashOrder where
  toList s := Quot.liftOn s.val (List.insertionSort (· ≤ ·)) fun _ _ h =>
    List.Perm.eq_of_pairwise' (List.pairwise_insertionSort _ _) (List.pairwise_insertionSort _ _)
      (((List.perm_insertionSort _ _).trans h).trans (List.perm_insertionSort _ _).symm)
  nodup s := by
    obtain ⟨⟨l⟩, hl⟩ := s
    exact (List.perm_insertionSort _ l).nodup_iff.mpr hl
  mem_toList s p := by
    obtain ⟨⟨l⟩, hl⟩ := s
    exact (List.perm_insertionSort _ l).mem_iff

/-- What one call of an engine function gets from outside. -/
structure Host where
  blake3 : Content → Hash
  nowMs : Nat
  fails : FsOp → Bool
  order : HashOrder
  /-- The length the file system reports for a directory. -/
  dirLen : PathBuf → Nat

namespace Host

/-- A machine on which no call fails. -/
def reliable (blake3 : Content → Hash) (nowMs : Nat) : Host :=
  ⟨blake3, nowMs, fun _ => false, .sorted, fun _ => 4096⟩

/-- `SystemTime::now()` in whole seconds. -/
def unixSecs (h : Host) : Nat := h.nowMs / 1000

def createDirAll (h : Host) (t : Tree) (p : PathBuf) : Option Tree :=
  if h.fails (.createDirAll p) then none else t.createDirAll h.nowMs p

/-- `fs::write` and `set_file_mtime`; a failing second call leaves the current
    time. -/
def write (h : Host) (t : Tree) (p : PathBuf) (c : Content) (modifiedMs : Nat) : Option Tree :=
  if h.fails (.write p) then none
  else t.write p c (if h.fails (.setMtime p) then h.nowMs else modifiedMs)

/-- `fs::copy`: the copy gets the current time. -/
def copy (h : Host) (t : Tree) (source target : PathBuf) : Option Tree :=
  if h.fails (.copy source target) then none
  else
    match t.read source with
    | some c => t.write target c h.nowMs
    | none => none

def rename (h : Host) (t : Tree) (source target : PathBuf) : Option Tree :=
  if h.fails (.rename source target) then none else t.rename source target

/-- `TrashManager::move_to_trash` seen from the tree: the subtree is gone, whether
    it was moved, copied or hard-deleted, unless even that failed. -/
def moveToTrash (h : Host) (t : Tree) (p : PathBuf) : Tree :=
  if h.fails (.remove p) then t else t.removeTree p

/-- `hash_file`. -/
def hashFile (h : Host) (t : Tree) (p : PathBuf) : Option Hash :=
  if h.fails (.read p) then none else (t.read p).map h.blake3

end Host

end ByteHive
