import ByteHive.Native.Engine

/-!
# Manifests (`manifest.rs`)

Scanning a root and comparing two manifests: what to send, what to hold back because
a tombstone is newer, and which deletes the peer missed.

The scan here reads every file; the one with the hash cache is in `HashCache`.
-/

namespace ByteHive

/-- The manifest entry of a node on disk. -/
def FileMetadata.ofNode (h : Host) (rel : PathBuf) : FileNode Content → FileMetadata
  | .dir modifiedMs =>
    { relPath := rel, size := 0, hash := 0, modifiedMs, changeSequence := 0, isDir := true }
  | .file c modifiedMs =>
    { relPath := rel, size := c.length, hash := h.blake3 c, modifiedMs, changeSequence := 0
      isDir := false }

/-- `build_manifest`: every path that is not excluded; a file that cannot be read is
    left out. -/
def buildManifest (h : Host) (t : Tree) (nodeId : String) (isExcluded : PathBuf → Bool) :
    Manifest where
  files := .ofKeys t.nodes.keys fun p =>
    if isExcluded p then none
    else
      match t.get p with
      | none => none
      | some n =>
        if !n.isDir && h.fails (.read p) then none else some (FileMetadata.ofNode h p n)
  nodeId

namespace SyncEngine

/-- `scan`: also drops expired ledger entries. -/
def scan (h : Host) (e : SyncEngine) : SyncEngine :=
  { e with manifest := buildManifest h e.tree e.nodeId e.isExcluded }.pruneLedger h

end SyncEngine

/-- Whether `compute_send_list` sends the path with the entry `lm`. -/
def sendsOver (isServer : Bool) (lm : FileMetadata) : Option FileMetadata → Bool
  | none => true
  | some rm =>
    decide (lm.hash ≠ rm.hash) &&
      (decide (rm.modifiedMs < lm.modifiedMs) ||
        (decide (lm.modifiedMs = rm.modifiedMs) && isServer))

def computeSendList (h : Host) (locl remote : Manifest) (isServer : Bool) : List PathBuf :=
  (h.order.toList locl.files.keys).filter fun p =>
    (locl.files.get p).any fun lm => sendsOver isServer lm (remote.files.get p)

theorem mem_computeSendList {h : Host} {locl remote : Manifest} {isServer : Bool} {p : PathBuf} :
    p ∈ computeSendList h locl remote isServer ↔
      ∃ lm, locl.files.get p = some lm ∧ sendsOver isServer lm (remote.files.get p) = true := by
  unfold computeSendList
  rw [List.mem_filter, h.order.mem_toList, Option.any_eq_true]
  constructor
  · intro hmem
    exact hmem.2
  · intro hsends
    have hlisted : ∃ lm, locl.files.get p = some lm := hsends.imp fun lm hlm => hlm.1
    exact ⟨FinMap.mem_keys_of_get hlisted.choose_spec, hsends⟩

/-- What `filter_resurrected` does with one path: whether it is sent, and whether it is
    reported as a legitimate recreate. -/
def resurrectionVerdict (locl : Manifest) (ledger : DeletionLedger) (path : PathBuf) :
    Bool × Bool :=
  match locl.files.get path with
  | none => (true, false)
  | some m =>
    match ledger.entries.get path with
    | some tomb =>
      if tomb.deletedAtMs < m.modifiedMs then (true, true)
      else if ledger.hasNewerThan path m.modifiedMs then
        let hashMatches := match tomb.prevHash with
          | some prev => decide (hex m.hash = prev)
          | none => true
        let mtimeNotNewer := match tomb.prevMtimeMs with
          | some prevMtime => decide (m.modifiedMs ≤ prevMtime)
          | none => true
        (!(hashMatches || mtimeNotNewer), false)
      else (true, false)
    | none =>
      match ledger.coveringTombstone path with
      | none => (true, false)
      | some cover =>
        if cover.deletedAtMs < m.modifiedMs then (true, true)
        else (!decide (m.modifiedMs < cover.deletedAtMs), false)

/-- `filter_resurrected`: the paths to send and the recreated ones. -/
def filterResurrected (sendList : List PathBuf) (locl : Manifest)
    (ledger : Option DeletionLedger) : List PathBuf × List PathBuf :=
  match ledger with
  | none => (sendList, [])
  | some l =>
    (sendList.filter fun p => (resurrectionVerdict locl l p).1,
      sendList.filter fun p => (resurrectionVerdict locl l p).2)

/-- `compute_deletes_to_push`: paths the peer still lists but the ledger marks deleted. -/
def computeDeletesToPush (h : Host) (locl remote : Manifest) (ledger : DeletionLedger) :
    List (PathBuf × Nat × String) :=
  ((h.order.toList ledger.entries.keys).filterMap fun p =>
    if (locl.files.get p).isSome then none
    else
      match ledger.entries.get p, remote.files.get p with
      | some tomb, some m =>
        if m.modifiedMs < tomb.deletedAtMs then some (p, tomb.deletedAtMs, tomb.deleterNode)
        else none
      | _, _ => none).insertionSort fun a b => a.1 ≤ b.1

/-- `diff_manifests`: changed and deleted paths. -/
def diffManifests (h : Host) (old new : Manifest) : List PathBuf × List PathBuf :=
  ((h.order.toList new.files.keys).filter fun p =>
      match new.files.get p, old.files.get p with
      | some _, none => true
      | some nm, some om => decide (om.hash ≠ nm.hash)
      | none, _ => false,
    (h.order.toList old.files.keys).filter fun p => (new.files.get p).isNone)

end ByteHive
