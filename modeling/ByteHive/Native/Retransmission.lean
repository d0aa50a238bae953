import ByteHive.Native.Bundler

/-!
# Chunks that are sent again (`server.rs`)

A receiver that has the end of a large file and not yet all of its chunks asks for those that are
missing. The server reads them from the file as it is then.
-/

namespace ByteHive

/-- The bytes of a chunk: fewer at the end of the file, none behind it. -/
def chunkAt (c : Content) (idx : UInt32) : Content :=
  (c.drop (idx.toNat * fileChunkSize)).take fileChunkSize

/-- `handle_request_chunks`: the chunks that are sent. `unreadable` are those that cannot be read,
    and after `sends` messages the connection takes no more. -/
def handleRequestChunks (h : Host) (e : SyncEngine) (path : PathBuf) (unreadable : UInt32 → Bool)
    (sends : Nat) (chunkIndices : List UInt32) : List (UInt32 × Content) :=
  match if h.fails (.read path) then none else e.tree.read path with
  | none => []
  | some c =>
    let readable := chunkIndices.filter fun idx => !unreadable idx && decide (chunkAt c idx ≠ [])
    (readable.map fun idx => (idx, chunkAt c idx)).take sends

end ByteHive
