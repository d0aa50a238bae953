import ByteHive.Native.Manifest
import ByteHive.Native.Server

/-!
# The hash cache of a scan (`manifest_cache.rs`, `manifest.rs`)

A scan keeps the hash of every file it has read, with the size, the modification time and the
inode that the file had, in `.bh_filesync/manifest-cache.json`. The next scan takes a hash from
there when all of these match and the file is older than five seconds.

What `stat` shows of a file beyond the tree, the part of its modification time below a
millisecond and its inode, is a `FileStat` beside the tree.
-/

namespace ByteHive

/-- `CACHE_MIN_AGE_MS`. -/
def cacheMinAgeMs : Nat := 5000

/-- What `stat` shows of a file that the tree does not. -/
structure FileStat where
  /-- Nanoseconds of the modification time below the millisecond. -/
  subNs : Nat
  inode : Nat
deriving DecidableEq, Repr

structure CachedEntry where
  size : Nat
  mtimeS : Nat
  mtimeNs : Nat
  inode : Nat
  /-- Lower-case hex. -/
  hash : String
deriving DecidableEq, Repr

structure ManifestCache where
  entries : FinMap PathBuf CachedEntry
  dirty : Bool

/-! ## Digests in hex -/

/-- `char::to_digit(16)`. -/
def toDigit16 (c : Char) : Option Nat :=
  if c.isDigit then some (c.toNat - 48)
  else if 'a' ≤ c ∧ c ≤ 'f' then some (c.toNat - 87)
  else if 'A' ≤ c ∧ c ≤ 'F' then some (c.toNat - 55)
  else none

/-- `parse_hex32`. -/
def parseHex32 (s : String) : Option Hash :=
  if s.length ≠ 64 then none
  else
    (s.toList.mapM toDigit16).map fun digits =>
      BitVec.ofNat 256 (digits.foldl (fun v d => v * 16 + d) 0)

/-! ## The cache -/

/-- `mtime_parts`: the seconds and nanoseconds of a modification time. -/
def mtimeParts (modifiedMs : Nat) (stat : FileStat) : Nat × Nat :=
  (modifiedMs / 1000, modifiedMs % 1000 * 1000000 + stat.subNs)

namespace ManifestCache

def new : ManifestCache := ⟨.empty, false⟩

/-- `lookup`: only when size, modification time and inode match and the file is old enough. -/
def lookup (cache : ManifestCache) (path : PathBuf) (size mtimeS mtimeNs inode nowMs : Nat) :
    Option String :=
  match cache.entries.get path with
  | none => none
  | some e =>
    if e.size ≠ size ∨ e.mtimeS ≠ mtimeS ∨ e.mtimeNs ≠ mtimeNs ∨ e.inode ≠ inode then none
    else
      let mtimeMs := min (min (mtimeS * 1000) (2 ^ 64 - 1) + mtimeNs / 1000000) (2 ^ 64 - 1)
      -- Too fresh: the file may still be written.
      if nowMs - mtimeMs ≤ cacheMinAgeMs then none else some e.hash

def upsert (cache : ManifestCache) (path : PathBuf) (entry : CachedEntry) : ManifestCache :=
  if cache.entries.get path = some entry then cache
  else ⟨cache.entries.insert path entry, true⟩

/-- `prune_missing`. -/
def pruneMissing (cache : ManifestCache) (existing : Finset PathBuf) : ManifestCache :=
  let kept := cache.entries.filter fun p _ => decide (p ∈ existing)
  let removed := cache.entries.keys.card - kept.keys.card
  ⟨kept, cache.dirty || decide (0 < removed)⟩

/-- `load`; `file` is what the cache file holds when it is there and can be parsed. -/
def load (file : Option (FinMap PathBuf CachedEntry)) : ManifestCache :=
  match file with
  | some entries => ⟨entries, false⟩
  | none => .new

/-- `save_atomic`: what the cache file holds afterwards. -/
def saveAtomic (cache : ManifestCache) (saves : Bool)
    (file : Option (FinMap PathBuf CachedEntry)) : Option (FinMap PathBuf CachedEntry) :=
  if cache.dirty && saves then some cache.entries else file

end ManifestCache

/-! ## Scanning -/

/-- What `stat` shows of the files of a root. -/
abbrev FileStats := PathBuf → FileStat

/-- `hash_one`: the manifest entry of a path and, for a file that was read, what is cached. -/
def hashOne (h : Host) (cache : Option ManifestCache) (dirty : Finset PathBuf) (t : Tree)
    (stats : FileStats) (rel : PathBuf) : Option (FileMetadata × Option CachedEntry) :=
  match t.get rel with
  | none => none
  | some (.dir modifiedMs) => some (.ofNode h rel (.dir modifiedMs), none)
  | some (.file c modifiedMs) =>
    let mtime := mtimeParts modifiedMs (stats rel)
    let inode := (stats rel).inode
    let cached :=
      if rel ∈ dirty then none
      else cache.bind fun cache => cache.lookup rel c.length mtime.1 mtime.2 inode h.nowMs
    match cached.bind parseHex32 with
    | some hash =>
      some (⟨rel, c.length, hash, modifiedMs, 0, false⟩, none)
    | none =>
      if h.fails (.read rel) then none
      else
        some (.ofNode h rel (.file c modifiedMs),
          some ⟨c.length, mtime.1, mtime.2, inode, hex (h.blake3 c)⟩)

/-- `build_manifest` with its cache; `buildManifest` is the same without one. -/
def buildManifestCached (h : Host) (t : Tree) (stats : FileStats) (nodeId : String)
    (isExcluded : PathBuf → Bool) (cache : Option ManifestCache) (dirty : Finset PathBuf) :
    Manifest × ManifestCache :=
  let outcome (p : PathBuf) : Option (FileMetadata × Option CachedEntry) :=
    if isExcluded p then none else hashOne h cache dirty t stats p
  let files : FinMap PathBuf FileMetadata := .ofKeys t.nodes.keys fun p => (outcome p).map (·.1)
  let updated := (h.order.toList t.nodes.keys).foldl (fun c p =>
    match outcome p with
    | some (_, some entry) => c.upsert p entry
    | _ => c) (cache.getD .new)
  (⟨files, nodeId⟩, updated.pruneMissing files.keys)

/-- A root with what a scan looks at. -/
structure CachedRoot where
  engine : SyncEngine
  stats : FileStats
  /-- The cache file, when it can be read. -/
  cacheFile : Option (FinMap PathBuf CachedEntry)

namespace CachedRoot

/-- `scan_with_dirty`; `saves` says whether the cache file can be written. -/
def scanWithDirty (h : Host) (saves : Bool) (r : CachedRoot) (dirty : Finset PathBuf) :
    CachedRoot :=
  let built := buildManifestCached h r.engine.tree r.stats r.engine.nodeId r.engine.isExcluded
    (some (.load r.cacheFile)) dirty
  { r with
    engine := { r.engine with manifest := built.1 }.pruneLedger h
    cacheFile := built.2.saveAtomic saves r.cacheFile }

/-- `scan`. -/
def scan (h : Host) (saves : Bool) (r : CachedRoot) : CachedRoot := r.scanWithDirty h saves ∅

end CachedRoot

/-- What happens to a root between and in its scans. -/
inductive RootEvent where
  | scan (h : Host) (saves : Bool)
  /-- The engine applies a message: a bundle, a part of a large file, a rename or a delete.
      `stats` is what the files then show. -/
  | apply (h : Host) (clientId : String) (m : Message) (stats : FileStats)
  /-- The user writes a file at the time `nowMs`. -/
  | userWrite (path : PathBuf) (c : Content) (nowMs : Nat) (stat : FileStat)

/-- One step; `none` where the event is not possible. -/
def CachedRoot.step (r : CachedRoot) : RootEvent → Option CachedRoot
  | .scan h saves => some (r.scan h saves)
  | .apply h clientId m stats =>
    some { r with engine := (applyClientAction h r.engine clientId m).engine, stats }
  | .userWrite path c nowMs stat =>
    (r.engine.tree.write path c nowMs).map fun t =>
      { r with
        engine := { r.engine with tree := t }
        stats := fun p => if p = path then stat else r.stats p }

end ByteHive
