import ByteHive.ForStd.ReadEvents
import ByteHive.Native.Protocol

/-!
# Frames on the wire (`protocol.rs`, `transport.rs`)

A message is serialised with bincode, compressed with lz4 and sent behind its length.
`read_message` reads one message from a reader that blocks; `FrameReader.poll` reads from
one that times out, and keeps what it has of a frame from one call to the next.

bincode and lz4 are a parameter, a `Codec`.
-/

namespace ByteHive

/-- `MAX_FRAME_BYTES`. -/
def maxFrameBytes : Nat := 32 * 1024 * 1024

inductive IoErrorKind where
  | unexpectedEof
  | invalidData
  | other
deriving DecidableEq, Repr

structure IoError where
  kind : IoErrorKind
  text : String
deriving DecidableEq, Repr

/-- `bincode` and `lz4_flex`. -/
structure Codec (M : Type) where
  /-- `bincode::serialize` -/
  serialize : M → Except String (List UInt8)
  /-- `bincode::deserialize` -/
  deserialize : List UInt8 → Except String M
  /-- `lz4_flex::compress_prepend_size` -/
  compressPrependSize : List UInt8 → List UInt8
  /-- `lz4_flex::decompress_size_prepended` -/
  decompressSizePrepended : List UInt8 → Except String (List UInt8)

/-- An error of one of the two libraries, as `map_err` wraps it. -/
def invalidData {α : Type} : Except String α → Except IoError α
  | .ok a => .ok a
  | .error text => .error ⟨.invalidData, text⟩

/-- `u32::to_be_bytes` -/
def toBeBytes (n : UInt32) : List UInt8 :=
  [(n >>> 24).toUInt8, (n >>> 16).toUInt8, (n >>> 8).toUInt8, n.toUInt8]

/-- `u32::from_be_bytes` of a header. -/
def fromBeBytes (hdr : List UInt8) : UInt32 :=
  hdr.foldl (fun n b => n <<< 8 ||| b.toUInt32) 0

namespace Codec

variable {M : Type} (c : Codec M)

def serialiseMessage (msg : M) : Except IoError (List UInt8) := do
  let raw ← invalidData (c.serialize msg)
  let compressed := c.compressPrependSize raw
  if compressed.length > maxFrameBytes then
    throw ⟨.invalidData, s!"serialised frame {compressed.length} B exceeds " ++
      s!"MAX_FRAME_BYTES {maxFrameBytes} B"⟩
  return toBeBytes (UInt32.ofNat compressed.length) ++ compressed

/-- The two steps that turn a body into a message. -/
def decodeBody (body : List UInt8) : Except IoError M := do
  let raw ← invalidData (c.decompressSizePrepended body)
  invalidData (c.deserialize raw)

end Codec

/-- `Read::read_exact` on a stream that holds `bytes` and then ends. -/
def readExact (n : Nat) (bytes : List UInt8) : Except IoError (List UInt8 × List UInt8) :=
  if bytes.length < n then .error ⟨.unexpectedEof, "failed to fill whole buffer"⟩
  else .ok (bytes.take n, bytes.drop n)

/-- `read_message` on a stream that holds `bytes` and then ends. Returns the message and the
    bytes behind it. -/
def readMessage {M : Type} (c : Codec M) (bytes : List UInt8) :
    Except IoError (M × List UInt8) := do
  let (hdr, bytes) ← readExact 4 bytes
  let len := (fromBeBytes hdr).toNat
  if len > maxFrameBytes then
    throw ⟨.invalidData, s!"incoming frame {len} B exceeds MAX_FRAME_BYTES {maxFrameBytes} B"⟩
  let (buf, bytes) ← readExact len bytes
  let msg ← c.decodeBody buf
  return (msg, bytes)

/-- Up to `n` calls of `read_message`; it stops at the first error. -/
def readMessages {M : Type} (c : Codec M) : Nat → List UInt8 → List (Except IoError M)
  | 0, _ => []
  | n + 1, bytes =>
    match readMessage c bytes with
    | .error e => [.error e]
    | .ok (msg, bytes) => .ok msg :: readMessages c n bytes

structure FrameReader where
  hdr : List UInt8
  hdrPos : Nat
  body : List UInt8
  bodyPos : Nat
  bodyLen : Nat
deriving DecidableEq, Repr

namespace FrameReader

def new : FrameReader := ⟨[0, 0, 0, 0], 0, [], 0, 0⟩

/-- The result of `poll` where a loop of reads does not fill its buffer. -/
def stopped {M : Type} : FillEnd → Except IoError (Option M)
  | .closed => .error ⟨.unexpectedEof, "connection closed"⟩
  | .failed => .error ⟨.other, "read failed"⟩
  | _ => .ok none

/-- The last part of `poll`: the body is complete. -/
def decode {M : Type} (c : Codec M) (s : FrameReader) : Except IoError (Option M) × FrameReader :=
  match c.decodeBody s.body with
  | .error e => (.error e, s)
  | .ok msg => (.ok (some msg), { s with hdrPos := 0, body := [], bodyPos := 0, bodyLen := 0 })

/-- The second loop of `poll`. -/
def pollBody {M : Type} (c : Codec M) (s : FrameReader) (r : List (ReadEvent UInt8)) :
    Except IoError (Option M) × FrameReader × List (ReadEvent UInt8) :=
  match ReadEvent.fill s.bodyLen s.body s.bodyPos r with
  | (stop, body, bodyPos, r) =>
    let s := { s with body, bodyPos }
    if stop = .full then
      let (res, s) := s.decode c
      (res, s, r)
    else (stopped stop, s, r)

/-- `FrameReader::poll`. Returns what it returns, the reader and the reads to come. -/
def poll {M : Type} (c : Codec M) (s : FrameReader) (r : List (ReadEvent UInt8)) :
    Except IoError (Option M) × FrameReader × List (ReadEvent UInt8) :=
  match ReadEvent.fill 4 s.hdr s.hdrPos r with
  | (stop, hdr, hdrPos, r) =>
    let s := { s with hdr, hdrPos }
    if stop = .full then
      if s.body.isEmpty then
        let len := (fromBeBytes s.hdr).toNat
        if len > maxFrameBytes then
          (.error ⟨.invalidData, s!"incoming frame {len} B > MAX_FRAME_BYTES {maxFrameBytes} B"⟩,
            s, r)
        else
          pollBody c { s with bodyLen := len, body := List.replicate len 0, bodyPos := 0 } r
      else pollBody c s r
    else (stopped stop, s, r)

/-- Up to `n` calls of `poll`; it stops at the first error. Returns the results and the reads
    to come. -/
def polls {M : Type} (c : Codec M) :
    Nat → FrameReader → List (ReadEvent UInt8) →
      List (Except IoError (Option M)) × List (ReadEvent UInt8)
  | 0, _, r => ([], r)
  | n + 1, s, r =>
    match s.poll c r with
    | (.error e, _, r) => ([.error e], r)
    | (.ok msg, s, r) => ((.ok msg) :: (polls c n s r).1, (polls c n s r).2)

end FrameReader

end ByteHive
