import ByteHive.Native.Transport
import ByteHive.Spec.StreamOrder

/-!
# The limits of a bundle

A small file that finds the pending bundle full, or no room in it, flushes it first; a directory is
pushed without a look. So the contents of a bundle never exceed its byte limit, and its entries
exceed theirs exactly when a directory comes while as many as allowed are gathered. A bundle within
both limits fits in a frame, whatever its paths of ordinary length.

bincode writes integers in fixed widths, little-endian, and sequences behind their length.

## Key results

- `length_encodeBundle_le`: the size of a bundle on the wire
- `Gathering.streamPath`: one round of the loop
- `bundles_within_limits_iff`: the bundles of `stream_messages`
-/

namespace ByteHive

/-! ## Bundles in bincode -/

/-- The `k` lowest bytes of `n`. -/
def littleEndian (k n : Nat) : List UInt8 :=
  (List.range k).map fun i => UInt8.ofNat (n / 256 ^ i)

/-- A component as `Path::to_str` writes it; the root shows as the slash behind it. -/
def Component.text : Component → String
  | .rootDir => ""
  | .curDir => "."
  | .parentDir => ".."
  | .normal name => name

/-- The bytes of `Path::to_str`. -/
def pathBytes (p : PathBuf) : List UInt8 :=
  ("/".intercalate (p.map Component.text)).toUTF8.data.toList

/-- A byte sequence behind its length. -/
def encodeBytes (bs : List UInt8) : List UInt8 := littleEndian 8 bs.length ++ bs

def encodeMetadata (md : FileMetadata) : List UInt8 :=
  encodeBytes (pathBytes md.relPath) ++ littleEndian 8 md.size ++
    (littleEndian 32 md.hash.toNat).reverse ++ littleEndian 8 md.modifiedMs ++
    littleEndian 8 md.changeSequence ++ [if md.isDir then 1 else 0]

def encodeFileData (fd : FileData) : List UInt8 :=
  encodeMetadata fd.metadata ++ encodeBytes fd.content ++
    match fd.actionMs with
    | none => [0]
    | some a => 1 :: littleEndian 8 a

/-- `Message::Bundle` is the variant number 4. -/
def encodeBundle (b : FileBundle) : List UInt8 :=
  littleEndian 4 4 ++ littleEndian 8 b.files.length ++ b.files.flatMap encodeFileData ++
    littleEndian 8 b.bundleId

/-- What bincode and lz4_flex document: the encoding of a bundle, and
    `get_maximum_output_size` behind four bytes for the size. -/
structure Codec.Documented (c : Codec Message) : Prop where
  serialize_bundle : ∀ b, c.serialize (.bundle b) = .ok (encodeBundle b)
  compress_le : ∀ raw,
    (c.compressPrependSize raw).length ≤ 4 + (16 + 4 + raw.length * 110 / 100)

@[simp] theorem length_littleEndian (k n : Nat) : (littleEndian k n).length = k := by
  simp [littleEndian]

@[simp] theorem length_encodeBytes (bs : List UInt8) :
    (encodeBytes bs).length = 8 + bs.length := by
  simp [encodeBytes]

theorem length_encodeFileData_le (fd : FileData) :
    (encodeFileData fd).length ≤
      82 + (pathBytes fd.metadata.relPath).length + fd.content.length := by
  unfold encodeFileData encodeMetadata
  cases fd.actionMs with
  | none =>
    simp only [List.length_append, length_encodeBytes, length_littleEndian, List.length_reverse,
      List.length_cons, List.length_nil]
    omega
  | some a =>
    simp only [List.length_append, length_encodeBytes, length_littleEndian, List.length_reverse,
      List.length_cons, List.length_nil]
    omega

/-- The bytes of content in a bundle. -/
def contentBytes (files : List FileData) : Nat := (files.map fun fd => fd.content.length).sum

@[simp] theorem contentBytes_append (fs fs' : List FileData) :
    contentBytes (fs ++ fs') = contentBytes fs + contentBytes fs' := by
  simp [contentBytes]

theorem length_flatMap_encodeFileData_le {files : List FileData} {n : Nat}
    (hpaths : ∀ fd ∈ files, (pathBytes fd.metadata.relPath).length ≤ n) :
    (files.flatMap encodeFileData).length ≤ files.length * (82 + n) + contentBytes files := by
  induction files with
  | nil => simp [contentBytes]
  | cons fd files ih =>
    obtain ⟨hfd, hfiles⟩ := List.forall_mem_cons.mp hpaths
    have hrest := ih hfiles
    have hone := length_encodeFileData_le fd
    have hbytes : contentBytes (fd :: files) = fd.content.length + contentBytes files := by
      simp [contentBytes]
    rw [List.flatMap_cons, List.length_append, List.length_cons, Nat.succ_mul, hbytes]
    omega

theorem length_encodeBundle_le {b : FileBundle} {n : Nat}
    (hpaths : ∀ fd ∈ b.files, (pathBytes fd.metadata.relPath).length ≤ n) :
    (encodeBundle b).length ≤ 20 + b.files.length * (82 + n) + contentBytes b.files := by
  have hfiles := length_flatMap_encodeFileData_le hpaths
  simp only [encodeBundle, List.length_append, length_littleEndian]
  omega

/-- The limits that `protocol.rs` sets. -/
structure WithinLimits (b : FileBundle) : Prop where
  files : b.files.length ≤ bundleMaxFiles
  bytes : contentBytes b.files ≤ bundleMaxBytes

/-- A bundle within the limits is sent in a frame. -/
theorem WithinLimits.sendable {c : Codec Message} (hc : c.Documented) {b : FileBundle}
    (hb : WithinLimits b)
    (hpaths : ∀ fd ∈ b.files, (pathBytes fd.metadata.relPath).length ≤ 4096) :
    ∃ frame, c.serialiseMessage (.bundle b) = .ok frame ∧ frame.length < maxFrameBytes := by
  obtain ⟨hfiles, hbytes⟩ := hb
  have hraw := length_encodeBundle_le hpaths
  have hcompressed := hc.compress_le (encodeBundle b)
  unfold bundleMaxFiles at hfiles
  unfold bundleMaxBytes at hbytes
  have hlen : (c.compressPrependSize (encodeBundle b)).length + 4 < maxFrameBytes := by
    unfold maxFrameBytes
    omega
  refine ⟨toBeBytes (UInt32.ofNat (c.compressPrependSize (encodeBundle b)).length) ++
    c.compressPrependSize (encodeBundle b), ?_, ?_⟩
  · have hfits : ¬ (c.compressPrependSize (encodeBundle b)).length > maxFrameBytes := by omega
    simp only [Codec.serialiseMessage, bind, Except.bind, hc.serialize_bundle, invalidData,
      if_neg hfits, pure, Except.pure]
  · rw [List.length_append]
    show 4 + _ < _
    omega

/-! ## What the loop gathers -/

/-- What a listed path is for the bundler. -/
inductive Piece where
  | skip
  | dir
  | small (size : Nat)
  | large
deriving DecidableEq, Repr

def pieceAt (h : Host) (t : Tree) (p : PathBuf) : Piece :=
  match t.get p with
  | none => .skip
  | some (.dir _) => .dir
  | some (.file c _) =>
    if largeFileThreshold ≤ c.length then .large
    else if h.fails (.read p) then .skip
    else .small c.length

/-- Entries that wait in a bundle, with the bytes of their contents. -/
structure Gathered where
  entries : Nat
  bytes : Nat

/-- A bundle is closed by a large file, and by a small one that finds it full or does not fit. -/
def Gathered.add (g : Gathered) : Piece → Gathered
  | .skip => g
  | .dir => ⟨g.entries + 1, g.bytes⟩
  | .small n =>
    if g.entries ≠ 0 ∧ (bundleMaxFiles ≤ g.entries ∨ bundleMaxBytes < g.bytes + n) then ⟨1, n⟩
    else ⟨g.entries + 1, g.bytes + n⟩
  | .large => ⟨0, 0⟩

/-- What waits after the listed paths. -/
def gathered (h : Host) (t : Tree) (ps : List PathBuf) : Gathered :=
  ps.foldl (fun g p => g.add (pieceAt h t p)) ⟨0, 0⟩

/-- No listed directory comes while as many entries wait as are allowed. -/
def DirsFit (h : Host) (t : Tree) (ps : List PathBuf) : Prop :=
  ∀ pre p post, ps = pre ++ p :: post → pieceAt h t p = .dir →
    (gathered h t pre).entries < bundleMaxFiles

section

variable {h : Host} {t : Tree} {stamp : PathBuf → Nat → Option Nat} {ps : List PathBuf}
  {p : PathBuf} {s : BundlerRun}

theorem gathered_concat (ps : List PathBuf) (p : PathBuf) :
    gathered h t (ps ++ [p]) = (gathered h t ps).add (pieceAt h t p) := by
  simp [gathered]

theorem dirsFit_concat (ps : List PathBuf) (p : PathBuf) :
    DirsFit h t (ps ++ [p]) ↔ DirsFit h t ps ∧
      (pieceAt h t p = .dir → (gathered h t ps).entries < bundleMaxFiles) := by
  constructor
  · intro hfit
    refine ⟨fun pre q post hps => ?_, hfit ps p [] rfl⟩
    exact hfit pre q (post ++ [p]) (by simp [hps])
  · rintro ⟨hfit, hlast⟩ pre q post hps
    obtain rfl | ⟨post, r, rfl⟩ := List.eq_nil_or_concat post
    · obtain ⟨rfl, hq⟩ := List.append_inj' hps rfl
      obtain rfl := List.head_eq_of_cons_eq hq
      exact hlast
    · rw [List.concat_eq_append, ← List.cons_append, ← List.append_assoc] at hps
      exact hfit pre q post (List.append_inj' hps rfl).1

/-! ### One path -/

theorem streamPath_skip (hp : pieceAt h t p = .skip) : s.streamPath h t stamp p = s := by
  unfold pieceAt at hp
  unfold BundlerRun.streamPath
  cases hget : t.get p with
  | none => rfl
  | some n =>
    rw [hget] at hp
    cases n with
    | dir m => cases hp
    | file c m =>
      dsimp only at hp ⊢
      split at hp
      · cases hp
      · next hlarge =>
        split at hp
        · next hread => rw [if_neg hlarge, if_pos hread]
        · cases hp

/-- A directory is pushed without a look at the limits. -/
theorem streamPath_dir (stamp : PathBuf → Nat → Option Nat) (s : BundlerRun)
    (hp : pieceAt h t p = .dir) :
    ∃ fd e, fd.content = [] ∧
      s.streamPath h t stamp p = { s with cur := s.cur ++ [fd], engine := e } := by
  unfold pieceAt at hp
  unfold BundlerRun.streamPath
  cases hget : t.get p with
  | none =>
    rw [hget] at hp
    cases hp
  | some n =>
    rw [hget] at hp
    cases n with
    | dir m =>
      obtain ⟨seq, e, hseq⟩ := changeSequence_eq s p
      dsimp only
      rw [hseq]
      exact ⟨⟨⟨p, 0, 0, m, seq, true⟩, [], stamp p m⟩, e, rfl, rfl⟩
    | file c m =>
      dsimp only at hp
      split at hp
      · cases hp
      · split at hp <;> cases hp

/-- The bundle that a small file of `n` bytes finds. -/
def flushFor (s : BundlerRun) (n : Nat) : BundlerRun :=
  if s.cur ≠ [] ∧ (bundleMaxFiles ≤ s.cur.length ∨ bundleMaxBytes < s.curBytes + n) then
    s.flushBundle else s

theorem streamPath_small (stamp : PathBuf → Nat → Option Nat) (s : BundlerRun)
    {n : Nat} (hp : pieceAt h t p = .small n) :
    n < largeFileThreshold ∧ ∃ fd e, fd.content.length = n ∧
      s.streamPath h t stamp p = { flushFor s n with
        cur := (flushFor s n).cur ++ [fd], curBytes := (flushFor s n).curBytes + n, engine := e } := by
  unfold pieceAt at hp
  cases hget : t.get p with
  | none =>
    rw [hget] at hp
    cases hp
  | some node =>
    rw [hget] at hp
    cases node with
    | dir m => cases hp
    | file c m =>
      dsimp only at hp
      split at hp
      · cases hp
      · next hlarge =>
        split at hp
        · cases hp
        · next hread =>
          obtain rfl := Piece.small.inj hp
          refine ⟨Nat.lt_of_not_le hlarge, ?_⟩
          unfold BundlerRun.streamPath
          rw [hget]
          dsimp only
          rw [if_neg hlarge, if_neg hread]
          obtain ⟨seq, e, hseq⟩ := changeSequence_eq (flushFor s c.length) p
          refine ⟨⟨⟨p, c.length, h.blake3 c, m, seq, false⟩, c, stamp p m⟩, e, rfl, ?_⟩
          unfold flushFor at hseq ⊢
          rw [hseq]

/-- A large file is sent on its own, behind the bundle. -/
theorem streamPath_large (stamp : PathBuf → Nat → Option Nat) (s : BundlerRun)
    (hp : pieceAt h t p = .large) :
    ∃ ms e, (∀ b, Message.bundle b ∉ ms) ∧ s.streamPath h t stamp p =
      { s.flushBundle with sent := s.flushBundle.sent ++ ms, engine := e } := by
  unfold pieceAt at hp
  cases hget : t.get p with
  | none =>
    rw [hget] at hp
    cases hp
  | some node =>
    rw [hget] at hp
    cases node with
    | dir m => cases hp
    | file c m =>
      dsimp only at hp
      split at hp
      · next hlarge =>
        unfold BundlerRun.streamPath
        rw [hget]
        dsimp only
        rw [if_pos hlarge]
        unfold BundlerRun.streamLargeFile
        generalize fileChunks c = chunks
        split
        · exact ⟨[], s.flushBundle.engine, by simp, by simp⟩
        · obtain ⟨seq, e, hseq⟩ := changeSequence_eq s.flushBundle p
          rw [hseq]
          refine ⟨[.largeFileStart ⟨p, c.length, h.blake3 c, m, seq, false⟩
            (totalChunks c.length) (stamp p m)] ++
            (chunks.map fun x => .largeFileChunk p x.1 x.2) ++ [.largeFileEnd p (h.blake3 c)],
            e, ?_, ?_⟩
          · intro b hb
            rcases List.mem_append.mp hb with hb | hb
            · rcases List.mem_append.mp hb with hb | hb
              · cases List.mem_singleton.mp hb
              · obtain ⟨x, -, hx⟩ := List.mem_map.mp hb
                cases hx
            · cases List.mem_singleton.mp hb
          · dsimp only
            rw [List.append_assoc, List.append_assoc, List.append_assoc]
      · split at hp <;> cases hp

/-! ### The loop -/

/-- More entries than allowed are in a bundle that was sent, or in the one that waits. -/
def Overfull (s : BundlerRun) : Prop :=
  bundleMaxFiles < s.cur.length ∨
    ∃ b, Message.bundle b ∈ s.sent ∧ bundleMaxFiles < b.files.length

theorem bundle_mem_flushBundle (s : BundlerRun) (b : FileBundle) :
    Message.bundle b ∈ s.flushBundle.sent ↔
      Message.bundle b ∈ s.sent ∨ s.cur ≠ [] ∧ b = ⟨s.cur, s.nextBundleId⟩ := by
  unfold BundlerRun.flushBundle
  split
  · next hnil => simp [hnil]
  · next hne =>
    rw [List.mem_append, List.mem_singleton, Message.bundle.injEq]
    simp [hne]

theorem overfull_flushBundle (s : BundlerRun) : Overfull s.flushBundle ↔ Overfull s := by
  unfold Overfull
  simp only [flushBundle_cur, bundle_mem_flushBundle]
  constructor
  · rintro (hnil | ⟨b, hb | ⟨-, rfl⟩, hlt⟩)
    · exact absurd hnil (Nat.not_lt_zero _)
    · exact .inr ⟨b, hb, hlt⟩
    · exact .inl hlt
  · rintro (hlt | ⟨b, hb, hlt⟩)
    · refine .inr ⟨_, .inr ⟨?_, rfl⟩, hlt⟩
      rintro hnil
      rw [hnil] at hlt
      exact Nat.not_lt_zero _ hlt
    · exact .inr ⟨b, .inl hb, hlt⟩

variable (h t ps s) in
/-- The loop after the paths `ps`: what waits is what they gather, and a bundle has grown too long
    only where a directory did not fit. -/
structure Gathering : Prop where
  entries : s.cur.length = (gathered h t ps).entries
  bytes : s.curBytes = (gathered h t ps).bytes
  content : contentBytes s.cur = s.curBytes
  bytes_le : s.curBytes ≤ bundleMaxBytes
  sent : ∀ b, Message.bundle b ∈ s.sent → contentBytes b.files ≤ bundleMaxBytes
  overfull : Overfull s ↔ ¬ DirsFit h t ps

/-- The bytes stay within their limit through a flush. -/
theorem Gathering.sent_flush (hs : Gathering h t ps s) :
    ∀ b, Message.bundle b ∈ s.flushBundle.sent → contentBytes b.files ≤ bundleMaxBytes := by
  intro b hb
  obtain hb | ⟨-, rfl⟩ := (bundle_mem_flushBundle s b).mp hb
  · exact hs.sent b hb
  · exact hs.content.trans_le hs.bytes_le

theorem Gathering.curBytes_flush (hs : Gathering h t ps s) : s.flushBundle.curBytes = 0 := by
  unfold BundlerRun.flushBundle
  split
  · next hnil =>
    rw [← hs.content, hnil]
    rfl
  · rfl

theorem Gathering.dir (hs : Gathering h t ps s) (hp : pieceAt h t p = .dir) :
    Gathering h t (ps ++ [p]) (s.streamPath h t stamp p) := by
  obtain ⟨fd, e, hfd, hs'⟩ := streamPath_dir stamp s hp
  rw [hs']
  constructor
  case entries =>
    rw [gathered_concat, hp]
    show (s.cur ++ [fd]).length = (gathered h t ps).entries + 1
    rw [List.length_append, hs.entries]
    rfl
  case bytes =>
    rw [gathered_concat, hp]
    exact hs.bytes
  case content =>
    show contentBytes (s.cur ++ [fd]) = s.curBytes
    rw [contentBytes_append, hs.content]
    simp [contentBytes, hfd]
  case bytes_le => exact hs.bytes_le
  case sent => exact hs.sent
  case overfull =>
    have hlen := hs.entries
    rw [dirsFit_concat, not_and_or, ← hs.overfull]
    unfold Overfull
    show bundleMaxFiles < (s.cur ++ [fd]).length ∨ _ ↔ _
    rw [List.length_append, List.length_singleton]
    constructor
    · rintro (hlt | hsent)
      · right
        intro hroom
        have hroom := hroom hp
        omega
      · exact .inl (.inr hsent)
    · rintro ((hlt | hsent) | hnot)
      · left
        omega
      · exact .inr hsent
      · left
        by_contra hle
        exact hnot fun _ => by omega

theorem Gathering.large (hs : Gathering h t ps s) (hp : pieceAt h t p = .large) :
    Gathering h t (ps ++ [p]) (s.streamPath h t stamp p) := by
  obtain ⟨ms, e, hms, hs'⟩ := streamPath_large stamp s hp
  have hmem : ∀ b, Message.bundle b ∈ s.flushBundle.sent ++ ms ↔
      Message.bundle b ∈ s.flushBundle.sent := by
    intro b
    rw [List.mem_append, or_iff_left (hms b)]
  rw [hs']
  constructor
  case entries =>
    rw [gathered_concat, hp]
    show s.flushBundle.cur.length = 0
    rw [flushBundle_cur]
    rfl
  case bytes =>
    rw [gathered_concat, hp]
    exact hs.curBytes_flush
  case content =>
    show contentBytes s.flushBundle.cur = s.flushBundle.curBytes
    rw [flushBundle_cur, hs.curBytes_flush]
    rfl
  case bytes_le =>
    show s.flushBundle.curBytes ≤ _
    rw [hs.curBytes_flush]
    exact Nat.zero_le _
  case sent =>
    intro b hb
    exact hs.sent_flush b ((hmem b).mp hb)
  case overfull =>
    rw [dirsFit_concat, not_and_or, ← hs.overfull, ← overfull_flushBundle s]
    unfold Overfull
    simp only [hmem, hp]
    simp

/-- A small file flushes a bundle that is full or has no room for it, and is pushed. -/
theorem Gathering.small {n : Nat} (hs : Gathering h t ps s) (hp : pieceAt h t p = .small n) :
    Gathering h t (ps ++ [p]) (s.streamPath h t stamp p) := by
  obtain ⟨hn, fd, e, hfd, hs'⟩ := streamPath_small stamp s hp
  have hn : n ≤ bundleMaxBytes := Nat.le_of_lt hn
  have hone : contentBytes [fd] = n := by simp [contentBytes, hfd]
  have hdirs : DirsFit h t (ps ++ [p]) ↔ DirsFit h t ps := by
    rw [dirsFit_concat]
    simp [hp]
  have hempty : s.cur ≠ [] ↔ (gathered h t ps).entries ≠ 0 := by
    rw [← hs.entries, Ne, Ne, List.length_eq_zero_iff]
  rw [hs']
  by_cases hfull : s.cur ≠ [] ∧
      (bundleMaxFiles ≤ s.cur.length ∨ bundleMaxBytes < s.curBytes + n)
  · have hflush : flushFor s n = s.flushBundle := if_pos hfull
    have hadd : (gathered h t ps).add (.small n) = ⟨1, n⟩ := by
      rw [hempty, hs.entries, hs.bytes] at hfull
      exact if_pos hfull
    rw [hflush, flushBundle_cur, hs.curBytes_flush, Nat.zero_add]
    constructor
    case entries =>
      rw [gathered_concat, hp, hadd]
      rfl
    case bytes =>
      rw [gathered_concat, hp, hadd]
    case content => exact hone
    case bytes_le => exact hn
    case sent => exact hs.sent_flush
    case overfull =>
      rw [hdirs, ← hs.overfull, ← overfull_flushBundle s]
      unfold Overfull
      rw [flushBundle_cur]
      -- One entry is no more than allowed, and neither are none.
      have hsmall : ¬ bundleMaxFiles < ([] ++ [fd]).length := by
        show ¬ bundleMaxFiles < 1
        decide
      have hnone : ¬ bundleMaxFiles < ([] : List FileData).length := by decide
      exact (or_congr (iff_of_false hsmall hnone) Iff.rfl)
  · have hroom : s.cur = [] ∨ s.cur.length < bundleMaxFiles ∧ s.curBytes + n ≤ bundleMaxBytes := by
      by_cases hnil : s.cur = []
      · exact .inl hnil
      · right
        by_contra hno
        exact hfull ⟨hnil, by omega⟩
    have hflush : flushFor s n = s := if_neg hfull
    have hadd : (gathered h t ps).add (.small n) =
        ⟨(gathered h t ps).entries + 1, (gathered h t ps).bytes + n⟩ := by
      rw [hempty, hs.entries, hs.bytes] at hfull
      exact if_neg hfull
    rw [hflush]
    constructor
    case entries =>
      rw [gathered_concat, hp, hadd, List.length_append, hs.entries]
      rfl
    case bytes =>
      rw [gathered_concat, hp, hadd, ← hs.bytes]
    case content =>
      rw [contentBytes_append, hs.content, hone]
    case bytes_le =>
      obtain hnil | ⟨-, hle⟩ := hroom
      · have hzero : s.curBytes = 0 := by
          rw [← hs.content, hnil]
          rfl
        show s.curBytes + n ≤ _
        omega
      · exact hle
    case sent => exact hs.sent
    case overfull =>
      rw [hdirs, ← hs.overfull]
      unfold Overfull
      rw [List.length_append, List.length_singleton]
      have hlen : s.cur.length < bundleMaxFiles := by
        obtain hnil | ⟨hlt, -⟩ := hroom
        · rw [hnil]
          decide
        · exact hlt
      exact or_congr (iff_of_false (by omega) (by omega)) Iff.rfl

/-- One round of the loop of `stream_messages`. -/
theorem Gathering.streamPath (hs : Gathering h t ps s) (p : PathBuf) :
    Gathering h t (ps ++ [p]) (s.streamPath h t stamp p) := by
  cases hp : pieceAt h t p with
  | skip =>
    obtain ⟨hentries, hbytes, hcontent, hle, hsent, hover⟩ := hs
    rw [streamPath_skip hp]
    have hsame : gathered h t (ps ++ [p]) = gathered h t ps := by
      rw [gathered_concat, hp]
      rfl
    refine ⟨hsame ▸ hentries, hsame ▸ hbytes, hcontent, hle, hsent, ?_⟩
    rw [hover, dirsFit_concat]
    simp [hp]
  | dir => exact hs.dir hp
  | small n => exact hs.small hp
  | large => exact hs.large hp

theorem gathering_loop (h : Host) (t : Tree) (stamp : PathBuf → Nat → Option Nat)
    (ps : List PathBuf) (nextBundleId : Nat) (e : Option SyncEngine) :
    Gathering h t ps
      (ps.foldl (BundlerRun.streamPath h t stamp) ⟨[], 0, [], nextBundleId, e⟩) := by
  induction ps using List.reverseRecOn with
  | nil =>
    refine ⟨rfl, rfl, rfl, Nat.zero_le _, by simp, iff_of_false ?_ ?_⟩
    · rintro (hlt | ⟨b, hb, -⟩)
      · exact Nat.not_lt_zero _ hlt
      · cases hb
    · rw [not_not]
      intro pre p post hps
      simp at hps
  | append_singleton ps p ih =>
    rw [List.foldl_append]
    exact ih.streamPath p

/-- No bundle has too many entries exactly if every directory fits. -/
theorem Gathering.files_le_iff (hs : Gathering h t ps s) :
    (∀ b, Message.bundle b ∈ s.flushBundle.sent → b.files.length ≤ bundleMaxFiles) ↔
      DirsFit h t ps := by
  have hover : (∃ b, Message.bundle b ∈ s.flushBundle.sent ∧ bundleMaxFiles < b.files.length) ↔
      ¬ DirsFit h t ps := by
    rw [← hs.overfull, ← overfull_flushBundle s, Overfull, flushBundle_cur]
    exact (or_iff_right (Nat.not_lt_zero _)).symm
  constructor
  · intro hall
    by_contra hnot
    obtain ⟨b, hb, hlt⟩ := hover.mpr hnot
    have hfiles := hall b hb
    omega
  · intro hfit b hb
    by_contra hlt
    exact hover.mp ⟨b, hb, by omega⟩ hfit

/-- Then each of them goes into a frame. -/
theorem Gathering.within_limits_iff {c : Codec Message} (hc : c.Documented)
    (hs : Gathering h t ps s) :
    (∀ b, Message.bundle b ∈ s.flushBundle.sent → WithinLimits b ∧
      ((∀ fd ∈ b.files, (pathBytes fd.metadata.relPath).length ≤ 4096) →
        ∃ frame, c.serialiseMessage (.bundle b) = .ok frame ∧ frame.length < maxFrameBytes)) ↔
    DirsFit h t ps := by
  rw [← hs.files_le_iff]
  constructor
  · intro hall b hb
    exact (hall b hb).1.files
  · intro hfiles b hb
    have hb : WithinLimits b := ⟨hfiles b hb, hs.sent_flush b hb⟩
    exact ⟨hb, hb.sendable hc⟩

theorem streamMessages_files_le_iff (h : Host) (t : Tree) (ps : List PathBuf)
    (stamp : PathBuf → Nat → Option Nat) (nextBundleId : Nat) :
    (∀ b, Message.bundle b ∈ streamMessages h t ps stamp nextBundleId →
      b.files.length ≤ bundleMaxFiles) ↔ DirsFit h t ps :=
  (gathering_loop h t stamp ps nextBundleId none).files_le_iff

/-- Directories only gather. -/
theorem gathered_dirs {ps : List PathBuf} (hdirs : ∀ p ∈ ps, pieceAt h t p = .dir) :
    (gathered h t ps).entries = ps.length := by
  induction ps using List.reverseRecOn with
  | nil => rfl
  | append_singleton ps p ih =>
    rw [gathered_concat, hdirs p (by simp), List.length_append, List.length_singleton,
      ← ih fun q hq => hdirs q (by simp [hq])]
    rfl

end

/-- Every bundle is within the limits and, with paths of up to 4096 bytes, goes into a frame. -/
def BundlesWithin (c : Codec Message) (ms : List Message) : Prop :=
  ∀ b, Message.bundle b ∈ ms → WithinLimits b ∧
    ((∀ fd ∈ b.files, (pathBytes fd.metadata.relPath).length ≤ 4096) →
      ∃ frame, c.serialiseMessage (.bundle b) = .ok frame ∧ frame.length < maxFrameBytes)

/-- For every tree and every list of paths, the bundles of `stream_messages` keep to their limits
    exactly if no listed directory comes while 500 entries wait. -/
theorem bundles_within_limits_iff (c : Codec Message) (hc : c.Documented) (h : Host) (t : Tree)
    (ps : List PathBuf) (stamp : PathBuf → Nat → Option Nat) (nextBundleId : Nat) :
    (BundlesWithin c (streamMessages h t ps stamp nextBundleId) ↔ DirsFit h t ps) ∧
      ∀ e : SyncEngine, e.tree = t →
        (BundlesWithin c (streamMessagesWith h e ps stamp nextBundleId).1 ↔ DirsFit h t ps) := by
  constructor
  · exact (gathering_loop h t stamp ps nextBundleId none).within_limits_iff hc
  · rintro e rfl
    exact (gathering_loop h e.tree stamp ps nextBundleId (some e)).within_limits_iff hc

/-! ### Many directories -/

/-- The names "0", "1" and so on, one for each of the first `n` numbers. -/
def numbered (n : Nat) : List PathBuf := (List.range n).map fun i => [.normal (toString i)]

/-- A tree of `n` directories below the root. -/
def manyDirs (n : Nat) : Tree where
  nodes := .ofKeys (numbered n).toFinset fun _ => some (.dir 0)
  closed p node hget := by
    rw [FinMap.get_ofKeys] at hget
    split at hget
    · next hp =>
      obtain ⟨i, -, rfl⟩ := List.mem_map.mp (List.mem_toFinset.mp hp)
      exact ⟨by simp, .inl rfl⟩
    · cases hget

theorem pieceAt_manyDirs {n : Nat} {p : PathBuf} (hp : p ∈ numbered n) (h : Host) :
    pieceAt h (manyDirs n) p = .dir := by
  have hget : (manyDirs n).get p = some (.dir 0) :=
    (FinMap.get_ofKeys ..).trans (if_pos (List.mem_toFinset.mpr hp))
  unfold pieceAt
  rw [hget]

theorem numbered_succ (n : Nat) : numbered (n + 1) = numbered n ++ [[.normal (toString n)]] := by
  rw [numbered, List.range_succ, List.map_append]
  rfl

/-- One directory more than allowed does not fit. -/
theorem not_dirsFit_manyDirs (h : Host) :
    ¬ DirsFit h (manyDirs (bundleMaxFiles + 1)) (numbered (bundleMaxFiles + 1)) := by
  intro hfit
  have hmem : ∀ p ∈ numbered bundleMaxFiles, p ∈ numbered (bundleMaxFiles + 1) := by
    intro p hp
    rw [numbered_succ]
    exact List.mem_append_left _ hp
  have hlast : [.normal (toString bundleMaxFiles)] ∈ numbered (bundleMaxFiles + 1) := by
    rw [numbered_succ]
    exact List.mem_append_right _ (List.mem_singleton_self _)
  have hlt := hfit _ _ [] (numbered_succ bundleMaxFiles) (pieceAt_manyDirs hlast h)
  rw [gathered_dirs fun p hp => pieceAt_manyDirs (hmem p hp) h, numbered, List.length_map,
    List.length_range] at hlt
  exact Nat.lt_irrefl _ hlt

/-- 501 directories are sent in one bundle. -/
theorem directories_overfill :
    ¬ ∀ (h : Host) (t : Tree) (ps : List PathBuf) (stamp : PathBuf → Nat → Option Nat)
        (nextBundleId : Nat) (b : FileBundle),
      Message.bundle b ∈ streamMessages h t ps stamp nextBundleId → WithinLimits b := by
  intro hall
  refine not_dirsFit_manyDirs (.reliable (fun _ => 0) 0)
    ((streamMessages_files_le_iff _ _ _ (fun _ _ => none) 1).mp fun b hb => ?_)
  exact (hall _ _ _ _ _ b hb).files

/-- bincode on bundles, and lz4 where nothing repeats: a block of literals behind the size. -/
def bundleCodec : Codec Message where
  serialize
    | .bundle b => .ok (encodeBundle b)
    | _ => .error "no bundle"
  deserialize _ := .error "not read back"
  compressPrependSize raw :=
    littleEndian 4 raw.length ++
      (if raw.length < 15 then [UInt8.ofNat (raw.length * 16)]
      else 240 :: (List.replicate ((raw.length - 15) / 255) 255 ++
        [UInt8.ofNat ((raw.length - 15) % 255)])) ++ raw
  decompressSizePrepended _ := .error "not read back"

theorem bundleCodec_documented : bundleCodec.Documented where
  serialize_bundle _ := rfl
  compress_le raw := by
    simp only [bundleCodec, List.length_append, length_littleEndian]
    split
    · rw [List.length_singleton]
      omega
    · rw [List.length_cons, List.length_append, List.length_replicate, List.length_singleton]
      omega

/-- One directory is sent within the limits. -/
theorem directory_within_limits :
    BundlesWithin bundleCodec
      (streamMessages (.reliable (fun _ => 0) 0) (manyDirs 1) (numbered 1) (fun _ _ => none) 1) := by
  refine (bundles_within_limits_iff bundleCodec bundleCodec_documented _ (manyDirs 1) (numbered 1)
    _ 1).1.mpr ?_
  intro pre p post hps _
  have hpre : pre = [] := by
    cases pre with
    | nil => rfl
    | cons q pre =>
      have hlen := congrArg List.length hps
      simp [numbered] at hlen
  rw [hpre]
  decide

end ByteHive
