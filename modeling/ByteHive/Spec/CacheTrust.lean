import ByteHive.ForStd.Run
import ByteHive.Native.HashCache
import ByteHive.Spec.EngineFrame

/-!
# What the hash cache is trusted with

A cached hash is taken where size, modification time and inode are those that an earlier scan
found. Two invariants carry this over a run: every entry of the cache file is that of a file as an
earlier scan found it, and a file that shows what an earlier scan found has the content that it
had then. The second one is kept by every write that does not bring an old `stat` back with a new
content. A user write at a new time never does; the engine, which sets the modification time that
came with the file, can.

## Key results

- `parseHex32_hex`: a digest comes back from its hex digits
- `Trusted.step`: the invariants over one step
- `scan_with_cache`: scans with and without the cache agree
-/

namespace ByteHive

/-! ## Digests in hex -/

theorem foldl_hexDigits (k n : Nat) :
    ((List.range k).map fun i => n / 16 ^ (k - 1 - i) % 16).foldl (fun v d => v * 16 + d) 0 =
      n % 16 ^ k := by
  induction k generalizing n with
  | zero => simp [Nat.mod_one]
  | succ k ih =>
    rw [List.range_succ, List.map_append, List.foldl_append]
    have hfront : ((List.range k).map fun i => n / 16 ^ (k + 1 - 1 - i) % 16) =
        (List.range k).map fun i => n / 16 / 16 ^ (k - 1 - i) % 16 := by
      refine List.map_congr_left fun i hi => ?_
      have hi' := List.mem_range.mp hi
      have hexp : k + 1 - 1 - i = (k - 1 - i) + 1 := by omega
      rw [hexp, Nat.pow_succ, Nat.mul_comm, Nat.div_div_eq_div_mul]
    rw [hfront, ih, List.map_singleton, List.foldl_cons, List.foldl_nil]
    have hlast : k + 1 - 1 - k = 0 := by omega
    rw [hlast, Nat.pow_zero, Nat.div_one, Nat.pow_succ, Nat.mul_comm (16 ^ k) 16, Nat.mod_mul]
    omega

theorem toDigit16_digitChar {d : Nat} (hd : d < 16) : toDigit16 (Nat.digitChar d) = some d := by
  have hall : ∀ d < 16, toDigit16 (Nat.digitChar d) = some d := by decide
  exact hall d hd

theorem mapM_toDigit16 (ds : List Nat) (hds : ∀ d ∈ ds, d < 16) :
    (ds.map Nat.digitChar).mapM toDigit16 = some ds := by
  induction ds with
  | nil => rfl
  | cons d ds ih =>
    rw [List.forall_mem_cons] at hds
    rw [List.map_cons, List.mapM_cons, toDigit16_digitChar hds.1, ih hds.2]
    rfl

/-- `parse_hex32` reads back what `hex` has written. -/
theorem parseHex32_hex (x : Hash) : parseHex32 (hex x) = some x := by
  have hlist : (hex x).toList =
      ((List.range 64).map fun i => x.toNat / 16 ^ (64 - 1 - i) % 16).map Nat.digitChar := by
    rw [hex, String.toList_ofList, List.map_map]
    rfl
  have hlen : (hex x).length = 64 := by
    rw [← String.length_toList, hlist]
    simp
  unfold parseHex32
  rw [if_neg (by simp [hlen]), hlist, mapM_toDigit16, Option.map_some, foldl_hexDigits]
  · have hlt : x.toNat < 16 ^ 64 := x.isLt
    rw [Nat.mod_eq_of_lt hlt, BitVec.ofNat_toNat]
    simp
  · intro d hd
    obtain ⟨i, -, rfl⟩ := List.mem_map.mp hd
    exact Nat.mod_lt _ (by decide)

/-! ## What a scan finds -/

/-- A file as a read and `stat` show it. -/
structure DiskFile where
  content : Content
  mtimeS : Nat
  mtimeNs : Nat
  inode : Nat
deriving DecidableEq, Repr

namespace DiskFile

/-- Nothing that the cache looks at tells the two apart. -/
def SameStat (f g : DiskFile) : Prop :=
  f.content.length = g.content.length ∧ f.mtimeS = g.mtimeS ∧ f.mtimeNs = g.mtimeNs ∧
    f.inode = g.inode

instance (f g : DiskFile) : Decidable (f.SameStat g) := by unfold SameStat; infer_instance

/-- What is cached of the file. -/
def cached (blake3 : Content → Hash) (f : DiskFile) : CachedEntry :=
  ⟨f.content.length, f.mtimeS, f.mtimeNs, f.inode, hex (blake3 f.content)⟩

end DiskFile

/-- The file at a path of a tree. -/
def diskFile (t : Tree) (stats : FileStats) (p : PathBuf) : Option DiskFile :=
  match t.get p with
  | some (.file c m) =>
    some ⟨c, (mtimeParts m (stats p)).1, (mtimeParts m (stats p)).2, (stats p).inode⟩
  | _ => none

/-- A hit: the entry is that of the path, matches and has the hash. -/
theorem lookup_spec {cache : ManifestCache} {p : PathBuf} {size mtimeS mtimeNs inode nowMs : Nat}
    {hash : String} (h : cache.lookup p size mtimeS mtimeNs inode nowMs = some hash) :
    cache.entries.get p = some ⟨size, mtimeS, mtimeNs, inode, hash⟩ := by
  unfold ManifestCache.lookup at h
  split at h
  · cases h
  · next e he =>
    split at h
    · cases h
    · next hmatch =>
      dsimp only at h
      split at h
      · cases h
      · obtain rfl := Option.some.inj h
        rw [he]
        obtain ⟨size', mtimeS', mtimeNs', inode', hash'⟩ := e
        simp only [ne_eq, not_or, not_not] at hmatch
        obtain ⟨rfl, rfl, rfl, rfl⟩ := hmatch
        rfl

section

variable {h : Host} {t : Tree} {stats : FileStats} {cache : ManifestCache} {p : PathBuf}

/-- A scan of one path is right where a matching entry has the hash of the file's content. -/
theorem hashOne_metadata (hread : h.fails (.read p) = false) (dirty : Finset PathBuf)
    (hentry : ∀ f e, diskFile t stats p = some f → cache.entries.get p = some e →
      e.size = f.content.length → e.mtimeS = f.mtimeS → e.mtimeNs = f.mtimeNs →
      e.inode = f.inode → e.hash = hex (h.blake3 f.content)) :
    (hashOne h (some cache) dirty t stats p).map (·.1) =
      (hashOne h none dirty t stats p).map (·.1) := by
  unfold hashOne
  cases hget : t.get p with
  | none => rfl
  | some n =>
    cases n with
    | dir m => rfl
    | file c m =>
      simp only [hread, Option.bind_some, Option.bind_none, ite_self, Bool.false_eq_true, if_false]
      split
      · next hash hhit =>
        obtain ⟨text, hlookup, hparse⟩ := Option.bind_eq_some_iff.mp hhit
        split at hlookup
        · cases hlookup
        · have hfile : diskFile t stats p = some ⟨c, (mtimeParts m (stats p)).1,
              (mtimeParts m (stats p)).2, (stats p).inode⟩ := by rw [diskFile, hget]
          have htext := hentry _ _ hfile (lookup_spec hlookup) rfl rfl rfl rfl
          dsimp only at htext
          rw [htext, parseHex32_hex] at hparse
          obtain rfl := Option.some.inj hparse
          rfl
      · rfl

/-- What a scan puts into the cache. -/
theorem hashOne_cached {dirty : Finset PathBuf} {cache : Option ManifestCache} {md : FileMetadata}
    {e : CachedEntry} (hone : hashOne h cache dirty t stats p = some (md, some e)) :
    ∃ f, diskFile t stats p = some f ∧ e = f.cached h.blake3 := by
  unfold hashOne at hone
  split at hone
  · cases hone
  · cases hone
  · next c m hget =>
    dsimp only at hone
    split at hone
    · cases hone
    · split at hone
      · cases hone
      · obtain ⟨-, he⟩ := Prod.mk.inj (Option.some.inj hone)
        have hfile : diskFile t stats p = some ⟨c, (mtimeParts m (stats p)).1,
            (mtimeParts m (stats p)).2, (stats p).inode⟩ := by rw [diskFile, hget]
        exact ⟨_, hfile, (Option.some.inj he).symm⟩

/-- Without a cache a scan is `buildManifest`. -/
theorem buildManifestCached_none (nodeId : String) (isExcluded : PathBuf → Bool)
    (dirty : Finset PathBuf) :
    (buildManifestCached h t stats nodeId isExcluded none dirty).1 =
      buildManifest h t nodeId isExcluded := by
  simp only [buildManifestCached, buildManifest]
  congr 1
  refine FinMap.ext_get fun p => ?_
  rw [FinMap.get_ofKeys, FinMap.get_ofKeys]
  unfold hashOne
  cases hget : t.get p with
  | none => simp
  | some n =>
    cases n with
    | dir m => cases isExcluded p <;> simp [FileNode.isDir]
    | file c m =>
      cases isExcluded p <;> cases h.fails (.read p) <;> simp [FileNode.isDir]

theorem get_upsert (cache : ManifestCache) (p q : PathBuf) (e : CachedEntry) :
    (cache.upsert p e).entries.get q = if q = p then some e else cache.entries.get q := by
  unfold ManifestCache.upsert
  split
  · next hsame =>
    split
    · next hq => rw [hq, hsame]
    · rfl
  · rw [FinMap.get_insert]

/-- An entry of the new cache is one of the old cache or that of a file as the scan found it. -/
theorem get_built {nodeId : String} {isExcluded : PathBuf → Bool} {dirty : Finset PathBuf}
    {e : CachedEntry}
    (hget : (buildManifestCached h t stats nodeId isExcluded (some cache) dirty).2.entries.get p =
      some e) :
    cache.entries.get p = some e ∨
      ∃ f, diskFile t stats p = some f ∧ e = f.cached h.blake3 := by
  simp only [buildManifestCached, ManifestCache.pruneMissing, FinMap.get_filter,
    Option.getD_some] at hget
  replace hget := (Option.filter_eq_some_iff.mp hget).1
  generalize h.order.toList t.nodes.keys = paths at hget
  induction paths using List.reverseRecOn with
  | nil => exact .inl hget
  | append_singleton paths q ih =>
    rw [List.foldl_append, List.foldl_cons, List.foldl_nil] at hget
    split at hget
    · next md e' houtcome =>
      rw [get_upsert] at hget
      split at hget
      · next hq =>
        -- The path that was hashed last.
        subst hq
        obtain rfl := Option.some.inj hget
        split at houtcome
        · cases houtcome
        · exact .inr (hashOne_cached houtcome)
      · exact ih hget
    · exact ih hget

end

/-! ## Runs -/

/-- A root, with every file as the scans so far have found it. -/
structure ScannedRoot where
  root : CachedRoot
  seen : List (PathBuf × DiskFile)

/-- The files of a root. -/
def CachedRoot.found (h : Host) (r : CachedRoot) : List (PathBuf × DiskFile) :=
  (h.order.toList r.engine.tree.nodes.keys).filterMap fun p =>
    (diskFile r.engine.tree r.stats p).map fun f => (p, f)

namespace ScannedRoot

def step (s : ScannedRoot) (ev : RootEvent) : Option ScannedRoot :=
  (s.root.step ev).map fun r =>
    { root := r
      seen := match ev with
        | .scan h _ => s.seen ++ s.root.found h
        | _ => s.seen }

/-- No file shows what an earlier scan found for its path with another content. -/
def NothingBack (seen : List (PathBuf × DiskFile)) (t : Tree) (stats : FileStats) : Prop :=
  ∀ x ∈ seen, ∀ f ∈ diskFile t stats x.1, f.SameStat x.2 → f.content = x.2.content

/-- A user write is at a time at which no scan has found the file; a write of the engine brings
    nothing back. -/
def WritesNew (s : ScannedRoot) : RootEvent → Prop
  | .scan _ _ => True
  | .apply h clientId m stats =>
    NothingBack s.seen (applyClientAction h s.root.engine clientId m).engine.tree stats
  | .userWrite path _ nowMs stat =>
    ∀ x ∈ s.seen, x.1 = path → (x.2.mtimeS, x.2.mtimeNs) ≠ mtimeParts nowMs stat

/-- The cache holds what scans have found, and no file only looks like one of these. -/
structure Trusted (blake3 : Content → Hash) (s : ScannedRoot) : Prop where
  cached : ∀ file ∈ s.root.cacheFile, ∀ p, ∀ e ∈ file.get p,
    ∃ f, (p, f) ∈ s.seen ∧ e = f.cached blake3
  current : NothingBack s.seen s.root.engine.tree s.root.stats

variable {blake3 : Content → Hash} {s s' : ScannedRoot}

theorem mem_found {h : Host} {r : CachedRoot} {p : PathBuf} {f : DiskFile} :
    (p, f) ∈ r.found h ↔ diskFile r.engine.tree r.stats p = some f := by
  unfold CachedRoot.found
  rw [List.mem_filterMap]
  constructor
  · rintro ⟨q, -, hq⟩
    obtain ⟨g, hg, heq⟩ := Option.map_eq_some_iff.mp hq
    obtain ⟨rfl, rfl⟩ := Prod.mk.inj heq
    exact hg
  · intro hf
    have hkey : p ∈ r.engine.tree.nodes.keys := by
      cases hget : r.engine.tree.get p with
      | none =>
        rw [diskFile, hget] at hf
        cases hf
      | some n => exact FinMap.mem_keys_of_get hget
    exact ⟨p, (h.order.mem_toList _ _).mpr hkey, by rw [hf]; rfl⟩

theorem pruneLedger_frame (h : Host) (e : SyncEngine) :
    (e.pruneLedger h).tree = e.tree ∧ (e.pruneLedger h).manifest = e.manifest := by
  unfold SyncEngine.pruneLedger SyncEngine.flushLedger
  dsimp only
  split
  · exact ⟨rfl, rfl⟩
  · split <;> exact ⟨rfl, rfl⟩

theorem tree_scan (h : Host) (saves : Bool) (r : CachedRoot) :
    (r.scan h saves).engine.tree = r.engine.tree := (pruneLedger_frame h _).1

/-- A scan caches what it finds. -/
theorem Trusted.scan (hs : s.Trusted blake3) {h : Host} (hblake3 : h.blake3 = blake3)
    (saves : Bool) :
    Trusted blake3 ⟨s.root.scan h saves, s.seen ++ s.root.found h⟩ := by
  constructor
  · intro file hfile p e he
    simp only [CachedRoot.scan, CachedRoot.scanWithDirty, ManifestCache.saveAtomic,
      Option.mem_def] at hfile
    -- What is in the old file was found before.
    have hold : ∀ e, (ManifestCache.load s.root.cacheFile).entries.get p = some e →
        ∃ f, (p, f) ∈ s.seen ∧ e = f.cached blake3 := by
      intro e he
      cases hcache : s.root.cacheFile with
      | none =>
        rw [hcache] at he
        cases he
      | some entries =>
        rw [hcache] at he
        exact hs.cached entries hcache p e he
    split at hfile
    · obtain rfl := Option.some.inj hfile
      rcases get_built he with he | ⟨f, hf, rfl⟩
      · obtain ⟨f, hf, rfl⟩ := hold e he
        exact ⟨f, List.mem_append_left _ hf, rfl⟩
      · rw [hblake3]
        exact ⟨f, List.mem_append_right _ (mem_found.mpr hf), rfl⟩
    · obtain ⟨f, hf, rfl⟩ := hs.cached file hfile p e he
      exact ⟨f, List.mem_append_left _ hf, rfl⟩
  · intro x hx f hf hsame
    show f.content = x.2.content
    rw [tree_scan] at hf
    rcases List.mem_append.mp hx with hx | hx
    · exact hs.current x hx f hf hsame
    · have hfound := mem_found.mp hx
      obtain rfl := Option.some.inj (hfound.symm.trans hf)
      rfl

/-- A user write at a new time brings nothing back. -/
theorem NothingBack.userWrite {seen : List (PathBuf × DiskFile)} {t t' : Tree} {stats : FileStats}
    (hs : NothingBack seen t stats) {p : PathBuf} {c : Content} {nowMs : Nat} {stat : FileStat}
    (ht : t.write p c nowMs = some t')
    (hnew : ∀ x ∈ seen, x.1 = p → (x.2.mtimeS, x.2.mtimeNs) ≠ mtimeParts nowMs stat) :
    NothingBack seen t' fun q => if q = p then stat else stats q := by
  intro x hx f hf hsame
  rw [diskFile, FileTree.get_write ht] at hf
  by_cases hxp : x.1 = p
  · simp only [hxp, if_true, Option.mem_def, Option.some.injEq] at hf
    obtain ⟨-, hs, hns, -⟩ := hsame
    subst hf
    exact absurd (Prod.ext hs.symm hns.symm) (hnew x hx hxp)
  · simp only [hxp, if_false] at hf
    exact hs x hx f hf hsame

/-- One step keeps the cache right. -/
theorem Trusted.step {ev : RootEvent} (hs : s.Trusted blake3) (hnew : s.WritesNew ev)
    (hblake3 : ∀ h saves, ev = .scan h saves → h.blake3 = blake3) (h : s.step ev = some s') :
    s'.Trusted blake3 := by
  obtain ⟨r, hr, rfl⟩ := Option.map_eq_some_iff.mp h
  cases ev with
  | scan host saves =>
    obtain rfl := Option.some.inj hr
    exact hs.scan (hblake3 host saves rfl) saves
  | apply host clientId m stats =>
    obtain rfl := Option.some.inj hr
    exact ⟨hs.cached, hnew⟩
  | userWrite p c nowMs stat =>
    obtain ⟨t, ht, rfl⟩ := Option.map_eq_some_iff.mp hr
    exact ⟨hs.cached, hs.current.userWrite ht hnew⟩

/-- With a cache that can be trusted a scan finds what it finds without. -/
theorem Trusted.scan_agrees (hs : s.Trusted blake3) {h : Host} (hblake3 : h.blake3 = blake3)
    (saves : Bool) {p : PathBuf} (hread : h.fails (.read p) = false) :
    (s.root.scan h saves).engine.manifest.files.get p =
      (buildManifestCached h s.root.engine.tree s.root.stats s.root.engine.nodeId
        s.root.engine.isExcluded none ∅).1.files.get p := by
  have hmanifest : (s.root.scan h saves).engine.manifest = (buildManifestCached h
      s.root.engine.tree s.root.stats s.root.engine.nodeId s.root.engine.isExcluded
      (some (.load s.root.cacheFile)) ∅).1 := (pruneLedger_frame h _).2
  have hentry : ∀ f e, diskFile s.root.engine.tree s.root.stats p = some f →
      (ManifestCache.load s.root.cacheFile).entries.get p = some e →
      e.size = f.content.length → e.mtimeS = f.mtimeS → e.mtimeNs = f.mtimeNs →
      e.inode = f.inode → e.hash = hex (h.blake3 f.content) := by
    intro f e hf he hsize hmtimeS hmtimeNs hinode
    cases hcache : s.root.cacheFile with
    | none =>
      rw [hcache] at he
      cases he
    | some entries =>
      rw [hcache] at he
      obtain ⟨g, hg, rfl⟩ := hs.cached entries hcache p e he
      have hsame : f.SameStat g := ⟨hsize.symm, hmtimeS.symm, hmtimeNs.symm, hinode.symm⟩
      have hcontent := hs.current (p, g) hg f hf hsame
      rw [hcontent, hblake3]
      rfl
  rw [hmanifest]
  simp only [buildManifestCached, FinMap.get_ofKeys]
  split
  · split
    · rfl
    · exact hashOne_metadata hread ∅ hentry
  · rfl

instance (seen : List (PathBuf × DiskFile)) (t : Tree) (stats : FileStats) :
    Decidable (NothingBack seen t stats) := by unfold NothingBack; infer_instance

instance (s : ScannedRoot) (ev : RootEvent) : Decidable (s.WritesNew ev) := by
  cases ev <;> unfold WritesNew <;> infer_instance

end ScannedRoot

/-- Scans with the cache and without agree on every file that can be read, in every run from a root
    without a cache file in which user writes are at times at which no scan has found the file, and
    the engine brings back no size, modification time and inode with another content. -/
theorem scan_with_cache (blake3 : Content → Hash) (r₀ : CachedRoot) (hnone : r₀.cacheFile = none)
    (evs : List RootEvent) (hblake3 : ∀ h saves, .scan h saves ∈ evs → h.blake3 = blake3)
    (hnew : Run.StepsMeet ScannedRoot.step ScannedRoot.WritesNew ⟨r₀, []⟩ evs)
    (before : List RootEvent) (h : Host) (saves : Bool)
    (hscan : before ++ [.scan h saves] <+: evs) (s : ScannedRoot)
    (hrun : Run.runFrom ScannedRoot.step ⟨r₀, []⟩ before = some s) (p : PathBuf)
    (hread : h.fails (.read p) = false) :
    (s.root.scan h saves).engine.manifest.files.get p =
      (buildManifestCached h s.root.engine.tree s.root.stats s.root.engine.nodeId
        s.root.engine.isExcluded none ∅).1.files.get p := by
  have hstart : ScannedRoot.Trusted blake3 ⟨r₀, []⟩ := by
    constructor
    · intro file hfile
      rw [hnone] at hfile
      cases hfile
    · exact fun x hx => absurd hx List.not_mem_nil
  have hbefore : before <+: evs := (List.prefix_append _ _).trans hscan
  have hmeets : Run.StepsMeet ScannedRoot.step (fun s ev => s.WritesNew ev ∧
      ∀ h saves, ev = .scan h saves → h.blake3 = blake3) ⟨r₀, []⟩ before := by
    intro bs ev s' hpre hs'
    refine ⟨hnew bs ev s' (hpre.trans hbefore) hs', ?_⟩
    intro h saves hev
    exact hblake3 h saves ((hpre.trans hbefore).subset (by simp [hev]))
  have htrusted := Run.always_of_stepsMeet (fun s a s' hs hc hstep => hs.step hc.1 hc.2 hstep)
    hstart hmeets hrun before s (List.prefix_refl _) hrun
  exact htrusted.scan_agrees (hblake3 h saves (hscan.subset (by simp))) saves hread

/-! ### One file, written twice -/

private def digestHost (nowMs : Nat) : Host :=
  .reliable (fun c => BitVec.ofNat 256 (c.headD 0).toNat) nowMs

/-- The engine writes one byte with the modification time `1000`. -/
private def engineWrite (b : UInt8) : RootEvent :=
  .apply (digestHost 500000) "peer"
    (.bundle ⟨[⟨⟨.ofNames ["a"], 1, BitVec.ofNat 256 b.toNat, 1000, 0, false⟩, [b], none⟩], 1⟩)
    fun _ => ⟨0, 7⟩

private def noFilesYet : CachedRoot :=
  ⟨.new "node" (fun _ => false) .empty .new, fun _ => ⟨0, 0⟩, none⟩

private def thenUser : List RootEvent :=
  [engineWrite 1, .scan (digestHost 600000) true,
    .userWrite (.ofNames ["a"]) [2] 700000 ⟨0, 7⟩, .scan (digestHost 800000) true]

/-- A write of the user behind one of the engine is seen. -/
theorem scan_sees_user_write :
    ∃ s, Run.runFrom ScannedRoot.step ⟨noFilesYet, []⟩ (thenUser.take 3) = some s ∧
      (s.root.scan (digestHost 800000) true).engine.manifest.files.get (.ofNames ["a"]) =
        (buildManifestCached (digestHost 800000) s.root.engine.tree s.root.stats
          s.root.engine.nodeId s.root.engine.isExcluded none ∅).1.files.get (.ofNames ["a"]) := by
  have hsome : (Run.runFrom ScannedRoot.step ⟨noFilesYet, []⟩ (thenUser.take 3)).isSome = true := by
    decide +kernel
  obtain ⟨s, hs⟩ := Option.isSome_iff_exists.mp hsome
  have hmeets : Run.StepsMeet ScannedRoot.step ScannedRoot.WritesNew ⟨noFilesYet, []⟩ thenUser :=
    Run.stepsMeet_of_meets (by decide +kernel)
  have hblake3 : ∀ h saves, .scan h saves ∈ thenUser →
      h.blake3 = fun c => BitVec.ofNat 256 (c.headD 0).toNat := by
    intro h saves hmem
    simp only [thenUser, engineWrite, List.mem_cons, List.not_mem_nil, or_false, reduceCtorEq,
      false_or, RootEvent.scan.injEq] at hmem
    rcases hmem with ⟨rfl, -⟩ | ⟨rfl, -⟩ <;> rfl
  exact ⟨s, hs, scan_with_cache _ noFilesYet rfl thenUser hblake3 hmeets (thenUser.take 3)
    (digestHost 800000) true (by exact List.prefix_refl _) s hs _ rfl⟩

/-- The engine writes a file a second time with the size and the modification time that it had;
    the next scan reports the hash of the first content. -/
theorem scan_misses_engine_write :
    ∃ s, Run.runFrom ScannedRoot.step ⟨noFilesYet, []⟩
        [engineWrite 1, .scan (digestHost 600000) true, engineWrite 2] = some s ∧
      ((s.root.scan (digestHost 800000) true).engine.manifest.files.get
          (.ofNames ["a"])).map (·.hash) ≠
        ((buildManifestCached (digestHost 800000) s.root.engine.tree s.root.stats
          s.root.engine.nodeId s.root.engine.isExcluded none ∅).1.files.get
          (.ofNames ["a"])).map (·.hash) := by
  have hrun : (Run.runFrom ScannedRoot.step ⟨noFilesYet, []⟩
      [engineWrite 1, .scan (digestHost 600000) true, engineWrite 2]).any (fun s =>
        decide (((s.root.scan (digestHost 800000) true).engine.manifest.files.get
            (.ofNames ["a"])).map (·.hash) ≠
          ((buildManifestCached (digestHost 800000) s.root.engine.tree s.root.stats
            s.root.engine.nodeId s.root.engine.isExcluded none ∅).1.files.get
            (.ofNames ["a"])).map (·.hash))) = true := by
    decide +kernel
  obtain ⟨s, hs, hne⟩ := Option.any_eq_true _ _ |>.mp hrun
  exact ⟨s, hs, of_decide_eq_true hne⟩

end ByteHive
