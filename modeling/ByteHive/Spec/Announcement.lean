import ByteHive.Spec.DeliveryForms
import ByteHive.Spec.LargeFileCommit

/-!
# A committed file and its announcement

A start announces a size, a number of chunks and a hash; the chunks name their own places and the
end brings a hash of its own. The engine counts distinct chunk numbers, writes every chunk wherever
its number puts it, and compares the content with the hash of the end only. So a file that is
committed is the announced one exactly if the chunks kept to the announcement and the end repeated
its hash.

The run keeps, beside the engine, what the messages have said: the last start of each path with
what came after it, and how long each staging file was made.

## Key results

- `StagedFile.length_eq_iff`: when chunks of any size leave a file of the announced size
- `numbered_iff`: when counting chunks is enough
- `AnnouncedTransfers.commits_match_iff`: the commits of every run
-/

namespace ByteHive

/-! ## Chunks of any size -/

/-- Where a chunk ends in its file; an empty one is not written. -/
def chunkEnd (x : UInt32 × Content) : Nat :=
  if x.2 = [] then 0 else x.1.toNat * fileChunkSize + x.2.length

theorem length_writeAt_chunk (old : Content) (x : UInt32 × Content) :
    (writeAt old (x.1.toNat * fileChunkSize) x.2).length = max old.length (chunkEnd x) := by
  unfold writeAt chunkEnd
  split
  · omega
  · simp only [List.length_append, List.length_take, List.length_replicate, List.length_drop]
    omega

/-- A staging file: the length that it was given last, and the chunks written to it since. -/
structure StagedFile where
  base : Nat
  written : List (UInt32 × Content)

namespace StagedFile

def length (f : StagedFile) : Nat := f.written.foldl (fun n x => max n (chunkEnd x)) f.base

def write (f : StagedFile) (x : UInt32 × Content) : StagedFile :=
  { f with written := f.written ++ [x] }

/-- The file reaches to `size` and not beyond. -/
structure Fills (f : StagedFile) (size : Nat) : Prop where
  base_le : f.base ≤ size
  within : ∀ x ∈ f.written, chunkEnd x ≤ size
  reached : f.base = size ∨ ∃ x ∈ f.written, chunkEnd x = size

instance (f : StagedFile) (size : Nat) : Decidable (f.Fills size) :=
  decidable_of_iff (f.base ≤ size ∧ (∀ x ∈ f.written, chunkEnd x ≤ size) ∧
    (f.base = size ∨ ∃ x ∈ f.written, chunkEnd x = size))
    ⟨fun ⟨hbase, hwithin, hreached⟩ => ⟨hbase, hwithin, hreached⟩,
      fun ⟨hbase, hwithin, hreached⟩ => ⟨hbase, hwithin, hreached⟩⟩

theorem length_write (f : StagedFile) (x : UInt32 × Content) :
    (f.write x).length = max f.length (chunkEnd x) := by
  simp [length, write]

theorem length_le_iff (f : StagedFile) (n : Nat) :
    f.length ≤ n ↔ f.base ≤ n ∧ ∀ x ∈ f.written, chunkEnd x ≤ n := by
  obtain ⟨base, written⟩ := f
  show written.foldl _ base ≤ n ↔ base ≤ n ∧ _
  induction written generalizing base with
  | nil => simp
  | cons x xs ih =>
    rw [List.foldl_cons, ih, List.forall_mem_cons, max_le_iff, and_assoc]

/-- The file ends where its base or one of its chunks does. -/
theorem length_reached (f : StagedFile) :
    f.base = f.length ∨ ∃ x ∈ f.written, chunkEnd x = f.length := by
  obtain ⟨base, written⟩ := f
  show base = written.foldl _ base ∨ ∃ x ∈ written, chunkEnd x = written.foldl _ base
  induction written generalizing base with
  | nil => exact .inl rfl
  | cons x xs ih =>
    rw [List.foldl_cons]
    obtain hbase | ⟨y, hy, hend⟩ := ih (max base (chunkEnd x))
    · rw [← hbase]
      by_cases hle : chunkEnd x ≤ base
      · left
        omega
      · right
        exact ⟨x, by simp, by omega⟩
    · exact .inr ⟨y, List.mem_cons_of_mem x hy, hend⟩

theorem length_eq_iff (f : StagedFile) (size : Nat) : f.length = size ↔ f.Fills size := by
  constructor
  · rintro rfl
    obtain ⟨hbase, hwithin⟩ := (f.length_le_iff f.length).mp (Nat.le_refl _)
    exact ⟨hbase, hwithin, f.length_reached⟩
  · intro hf
    have hle : f.length ≤ size := (f.length_le_iff size).mpr ⟨hf.base_le, hf.within⟩
    obtain ⟨hbase, hwithin⟩ := (f.length_le_iff f.length).mp (Nat.le_refl _)
    obtain hreached | ⟨x, hx, hreached⟩ := hf.reached
    · omega
    · have hx := hwithin x hx
      omega

end StagedFile

/-- With only numbers below `n` among them, counting `n` of them is having them all. -/
theorem numbered_iff {received : Finset UInt32} {n : UInt32}
    (hcount : ¬ UInt32.ofNat received.card < n) :
    (∀ i ∈ received, i < n) ↔ (∀ i < n, i ∈ received) ∧ ∀ i ∈ received, i < n := by
  refine ⟨fun hnumbered => ⟨?_, hnumbered⟩, fun h => h.2⟩
  have hinj : Function.Injective UInt32.toNat := fun i j hij => UInt32.toNat_inj.mp hij
  have hsub : received.image UInt32.toNat ⊆ Finset.range n.toNat := by
    intro k hk
    obtain ⟨i, hi, rfl⟩ := Finset.mem_image.mp hk
    exact Finset.mem_range.mpr (UInt32.lt_iff_toNat_lt.mp (hnumbered i hi))
  have hcard : (received.image UInt32.toNat).card = received.card :=
    Finset.card_image_of_injective received hinj
  have hle := Finset.card_le_card hsub
  rw [hcard, Finset.card_range] at hle
  -- The count is below 2³², so the counter has not wrapped.
  have hlt := n.toNat_lt
  rw [UInt32.lt_iff_toNat_lt, UInt32.toNat_ofNat', Nat.mod_eq_of_lt (by omega)] at hcount
  have hall : received.image UInt32.toNat = Finset.range n.toNat := by
    refine Finset.eq_of_subset_of_card_le hsub ?_
    rw [hcard, Finset.card_range]
    omega
  intro i hi
  have hmem : i.toNat ∈ received.image UInt32.toNat := by
    rw [hall, Finset.mem_range]
    exact UInt32.lt_iff_toNat_lt.mp hi
  obtain ⟨j, hj, hji⟩ := Finset.mem_image.mp hmem
  rwa [← hinj hji]

/-! ## What the messages have said -/

/-- The transfer of a path by its messages: the last start that was admitted, the numbers of the
    chunks that came since, and the hash of the last end. -/
structure Announced where
  metadata : FileMetadata
  totalChunks : UInt32
  received : List UInt32
  finalHash : Option Hash

/-- The transfers, with what their messages have said. -/
structure AnnouncedTransfers extends Transfers where
  announced : PathBuf → Announced
  /-- The staging files by their names. -/
  staged : Hash → StagedFile

/-- The start is admitted and gets its staging file. -/
def opensTransfer (h : Host) (e : SyncEngine) (md : FileMetadata) (n : UInt32) (a : Option Nat) :
    Bool :=
  safeRelative md.relPath && (e.vetoFor md.relPath a md.modifiedMs).isNone &&
    (e.beginLargeFileWithAction h md n a).1

/-- What is announced for each path after a message to the engine `e`. -/
def announcedAfter (blake3 : Content → Hash) (e : SyncEngine) (announced : PathBuf → Announced) :
    TransferEvent → PathBuf → Announced
  | .start _ h md n a =>
    let h := { h with blake3 }
    if opensTransfer h e md n (clampFutureStampOpt h (clampFutureStampOpt h a)) then
      Function.update announced md.relPath ⟨md, n, [], none⟩
    else announced
  | .chunk _ h p i data =>
    if (e.receiveLargeFileChunk { h with blake3 } p i data).1.isSome then
      Function.update announced p
        { announced p with received := (announced p).received ++ [i] }
    else announced
  | .finish _ _ p x => Function.update announced p { announced p with finalHash := some x }
  | .other _ _ _ => announced

/-- The staging files after it. -/
def stagedAfter (blake3 : Content → Hash) (e : SyncEngine) (staged : Hash → StagedFile) :
    TransferEvent → Hash → StagedFile
  | .start _ h md n a =>
    let h := { h with blake3 }
    let a := clampFutureStampOpt h (clampFutureStampOpt h a)
    let tmp := blake3 (stagingKey md.relPath)
    if opensTransfer h e md n a then Function.update staged tmp ⟨md.size, []⟩
    -- The file was truncated and did not get its size.
    else if !(e.beginLargeFileWithAction h md n a).1 &&
        (e.beginLargeFileWithAction h md n a).2.staging.get tmp = some [] then
      Function.update staged tmp ⟨0, []⟩
    else staged
  | .chunk _ h p i data =>
    if (e.inProgress.get p).isSome &&
        (e.receiveLargeFileChunk { h with blake3 } p i data).1.isSome then
      let tmp := blake3 (stagingKey p)
      Function.update staged tmp ((staged tmp).write (i, data))
    else staged
  | .finish _ _ _ _ => staged
  | .other _ _ _ => staged

/-- The chunk numbers that a commit by this message goes by. -/
def counted (e : SyncEngine) : TransferEvent → Finset UInt32
  | .chunk _ _ p i _ => insert i (((e.inProgress.get p).map (·.received)).getD ∅)
  | .finish _ _ p _ => ((e.inProgress.get p).map (·.received)).getD ∅
  | _ => ∅

namespace AnnouncedTransfers

def step (blake3 : Content → Hash) (σ : AnnouncedTransfers) (ev : TransferEvent) :
    Option AnnouncedTransfers :=
  (σ.toTransfers.step blake3 ev).map fun t =>
    { toTransfers := t
      announced := announcedAfter blake3 σ.engine σ.announced ev
      staged := stagedAfter blake3 σ.engine σ.staged ev }

/-- The committed content `c` and its manifest entry are what was announced. -/
structure Matches (blake3 : Content → Hash) (a : Announced) (counted : Finset UInt32) (c : Content)
    (entry : FileMetadata) : Prop where
  length : c.length = entry.size
  size : entry.size = a.metadata.size
  complete : ∀ i < a.totalChunks, i ∈ a.received
  counted_lt : ∀ i ∈ counted, i < a.totalChunks
  final_hash : a.finalHash = some (blake3 c)
  announced_hash : blake3 c = a.metadata.hash

/-- The messages kept to the announcement. -/
structure Fits (a : Announced) (f : StagedFile) : Prop where
  numbered : ∀ i ∈ a.received, i < a.totalChunks
  fills : f.Fills a.metadata.size
  hash : a.finalHash = some a.metadata.hash

instance (a : Announced) (f : StagedFile) : Decidable (Fits a f) :=
  -- The numbers are checked along the list, not over all 2³² of them.
  decidable_of_iff (a.received.all (· < a.totalChunks) = true ∧ f.Fills a.metadata.size ∧
    a.finalHash = some a.metadata.hash)
    ⟨fun ⟨hnumbered, hfills, hhash⟩ => ⟨by simpa using hnumbered, hfills, hhash⟩,
      fun ⟨hnumbered, hfills, hhash⟩ => ⟨by simpa using hnumbered, hfills, hhash⟩⟩

/-- If the message commits a transfer, the file is the announced one. -/
def CommitsMatch (blake3 : Content → Hash) (σ : AnnouncedTransfers) (ev : TransferEvent) : Prop :=
  ∀ σ' p c, σ.step blake3 ev = some σ' → σ'.given = σ.given ++ [(p, c)] →
    σ'.engine.tree.read p = some c ∧ ∃ entry, σ'.engine.manifest.files.get p = some entry ∧
      Matches blake3 (σ'.announced p) (counted σ.engine ev) c entry

/-- If the message commits a transfer, its messages kept to the announcement. -/
def CommitsFit (blake3 : Content → Hash) (σ : AnnouncedTransfers) (ev : TransferEvent) : Prop :=
  ∀ σ' p c, σ.step blake3 ev = some σ' → σ'.given = σ.given ++ [(p, c)] →
    Fits (σ'.announced p) (σ'.staged (blake3 (stagingKey p)))

instance (blake3 : Content → Hash) (σ : AnnouncedTransfers) (ev : TransferEvent) :
    Decidable (CommitsFit blake3 σ ev) :=
  decidable_of_iff (∀ σ' ∈ σ.step blake3 ev, ∀ x ∈ σ'.given.drop σ.given.length,
      σ'.given = σ.given ++ [x] → Fits (σ'.announced x.1) (σ'.staged (blake3 (stagingKey x.1))))
    ⟨fun h σ' p c hstep hgiven => h σ' hstep (p, c) (by simp [hgiven]) hgiven,
      fun h σ' hstep x _ hgiven => h σ' x.1 x.2 hstep hgiven⟩

end AnnouncedTransfers

/-! ## The commit -/

namespace SyncEngine

variable {h : Host} {e : SyncEngine} {p : PathBuf} {asm : LargeFileAssembly}

theorem saveCommitConflict_staging (h : Host) (e : SyncEngine) (p dst : PathBuf) :
    (e.saveCommitConflict h p dst).2.staging = e.staging := by
  unfold saveCommitConflict
  dsimp only
  split <;> rfl

/-- Whatever comes of the installation, transfers stay as they are and only the staging file of this
    one can go. -/
theorem installLargeFile_shrinks (h : Host) (e : SyncEngine) (p : PathBuf) (asm : LargeFileAssembly)
    (x : Hash) (c : Content) :
    (e.installLargeFile h p asm x c).2.inProgress = e.inProgress ∧
      ((e.installLargeFile h p asm x c).2.staging = e.staging ∨
        (e.installLargeFile h p asm x c).2.staging = e.staging.erase asm.tmp) := by
  have hcopy : ∀ b : Bool, (if b then e.saveCommitConflict h p asm.dst else (none, e)).2.inProgress
      = e.inProgress ∧ (if b then e.saveCommitConflict h p asm.dst else (none, e)).2.staging
      = e.staging := by
    intro b
    cases b with
    | true => exact ⟨Transfers.saveCommitConflict_inProgress h e p _, saveCommitConflict_staging ..⟩
    | false => exact ⟨rfl, rfl⟩
  obtain ⟨hprogress, hstaging⟩ := hcopy (e.commitConflict h p asm.dst x)
  unfold installLargeFile
  dsimp only
  split
  · exact ⟨hprogress, .inl hstaging⟩
  · rw [scheduleUnsuppress_inProgress, scheduleUnsuppress_staging]
    refine ⟨hprogress, .inr ?_⟩
    show FinMap.erase _ asm.tmp = _
    rw [hstaging]

/-- A commit takes the transfer of its path out, with its staging file at most. -/
theorem commit_shrinks (h : Host) (e : SyncEngine) (p : PathBuf) (x : Hash) :
    (∀ q asm, (e.commitLargeFile h p x).2.inProgress.get q = some asm →
      q ≠ p ∧ e.inProgress.get q = some asm) ∧
    ∀ k c, (e.commitLargeFile h p x).2.staging.get k = some c → e.staging.get k = some c := by
  have herase : ∀ {q : PathBuf} {asm : LargeFileAssembly},
      (e.inProgress.erase p).get q = some asm → q ≠ p ∧ e.inProgress.get q = some asm := by
    intro q asm hq
    rw [FinMap.get_erase] at hq
    split at hq
    · cases hq
    · next hne => exact ⟨hne, hq⟩
  have hgone : ∀ {tmp k : Hash} {c : Content},
      (e.staging.erase tmp).get k = some c → e.staging.get k = some c := by
    intro tmp k c hk
    rw [FinMap.get_erase] at hk
    split at hk
    · cases hk
    · exact hk
  unfold commitLargeFile
  split
  · next hnone =>
    refine ⟨fun q asm hq => ⟨?_, hq⟩, fun _ _ hk => hk⟩
    rintro rfl
    exact absurd (hnone.symm.trans hq) (by simp)
  · next asm hasm =>
    dsimp only
    split
    · exact ⟨fun _ _ => herase, fun _ _ => hgone⟩
    · obtain ⟨dirty, file, hadm⟩ := exists_admitted h ({ e with
        inProgress := e.inProgress.erase p } : SyncEngine) p asm.actionMs asm.modifiedMs
      generalize (({ e with inProgress := e.inProgress.erase p } : SyncEngine).admitRecord p
        asm.actionMs asm.modifiedMs).ledger = l at hadm
      rw [hadm]
      split
      · exact ⟨fun _ _ => herase, fun _ _ hk => hk⟩
      · split
        · exact ⟨fun _ _ => herase, fun _ _ hk => hk⟩
        · split
          · exact ⟨fun _ _ => herase, fun _ _ => hgone⟩
          · next c _ _ _ =>
            obtain ⟨hprogress, hstaging⟩ := installLargeFile_shrinks h { e with
              inProgress := e.inProgress.erase p, ledger := l, ledgerDirty := dirty
              ledgerFile := file } p asm x c
            rw [hprogress]
            refine ⟨fun _ _ => herase, fun k c' hk => ?_⟩
            obtain hsame | hless := hstaging
            · rwa [hsame] at hk
            · rw [hless] at hk
              exact hgone hk

/-- The manifest entry of a file that was installed. -/
theorem installLargeFile_entry {x : Hash} {c : Content} {r : FinishResult} {e' : SyncEngine}
    (hr : e.installLargeFile h p asm x c = (some r, e')) :
    e'.manifest.files.get p = some
      { relPath := p, size := asm.fileSize, hash := x, modifiedMs := asm.modifiedMs
        changeSequence := 0, isDir := false } := by
  unfold installLargeFile at hr
  dsimp only at hr
  split at hr
  · cases hr
  · obtain rfl := (Prod.mk.inj hr).2
    rw [scheduleUnsuppress_manifest]
    exact (FinMap.get_insert ..).trans (if_pos rfl)

/-- What a commit that goes through has put in place. -/
theorem commit_spec {x : Hash} {r : FinishResult} {e' : SyncEngine}
    (hasm : e.inProgress.get p = some asm)
    (hveto : e.vetoFor p asm.actionMs asm.modifiedMs = none)
    (hr : e.commitLargeFile h p x = (some r, e')) :
    ∃ c, e.staging.get asm.tmp = some c ∧ h.blake3 c = x ∧ e'.tree.read asm.dst = some c ∧
      e'.manifest.files.get p = some
        { relPath := p, size := asm.fileSize, hash := x, modifiedMs := asm.modifiedMs
          changeSequence := 0, isDir := false } := by
  have hno : ({ e with inProgress := e.inProgress.erase p } : SyncEngine).vetoFor p asm.actionMs
      asm.modifiedMs = none := hveto
  unfold commitLargeFile at hr
  simp only [hasm, hno, Option.isSome_none, Bool.false_eq_true, if_false] at hr
  obtain ⟨dirty, file, hadm⟩ := exists_admitted h ({ e with
    inProgress := e.inProgress.erase p } : SyncEngine) p asm.actionMs asm.modifiedMs
  rw [hadm] at hr
  split at hr
  · cases hr
  · next c hc =>
    split at hr
    · cases hr
    · split at hr
      · cases hr
      · next hhash =>
        obtain ⟨hread, -⟩ := Transfers.installLargeFile_spec hr
        exact ⟨c, hc, by simpa using hhash, hread, installLargeFile_entry hr⟩

/-- A chunk for an open transfer fails, or it is written and counted; then it asks for a commit only
    when the end has come and the count is right. -/
theorem receiveLargeFileChunk_spec (hasm : e.inProgress.get p = some asm) (i : UInt32)
    (data : Content) :
    e.receiveLargeFileChunk h p i data = (none, e) ∨
    ∃ old r, e.staging.get asm.tmp = some old ∧
      e.receiveLargeFileChunk h p i data = (some r, { e with
        staging := e.staging.insert asm.tmp (writeAt old (i.toNat * fileChunkSize) data)
        inProgress := e.inProgress.insert p { asm with received := insert i asm.received } }) ∧
      ∀ x, r = .readyToCommit x ↔ asm.finalHashPending = some x ∧
        UInt32.ofNat (insert i asm.received).card = asm.totalChunks := by
  unfold receiveLargeFileChunk
  simp only [hasm]
  cases hold : e.staging.get asm.tmp with
  | none => exact .inl rfl
  | some old =>
    dsimp only
    split
    · exact .inl rfl
    · right
      cases hpending : asm.finalHashPending with
      | none => exact ⟨old, .pending, rfl, rfl, fun x => by simp⟩
      | some hash =>
        by_cases hall : UInt32.ofNat (insert i asm.received).card = asm.totalChunks
        · refine ⟨old, .readyToCommit hash, rfl, ?_, fun x => by simp [hall]⟩
          simp [LargeFileAssembly.receivedCount, hall]
        · refine ⟨old, .pending, rfl, ?_, fun x => by simp [hall]⟩
          simp [LargeFileAssembly.receivedCount, hall]

/-- What a start does to transfers and staging files: it opens a transfer, it leaves them as they
    are, or it fails with the staging file truncated. -/
theorem begin_cases (h : Host) (e : SyncEngine) (md : FileMetadata) (n : UInt32)
    (a : Option Nat) :
    (opensTransfer h e md n a = true ∧
      (e.beginLargeFileWithAction h md n a).2.staging =
        e.staging.insert (h.blake3 (stagingKey md.relPath)) (.replicate md.size 0) ∧
      (e.beginLargeFileWithAction h md n a).2.inProgress = e.inProgress.insert md.relPath
        { tmp := h.blake3 (stagingKey md.relPath), totalChunks := n, received := ∅
          expectedHash := md.hash, dst := md.relPath, fileSize := md.size
          modifiedMs := md.modifiedMs, actionMs := a, finalHashPending := none }) ∨
    (opensTransfer h e md n a = false ∧
      (e.beginLargeFileWithAction h md n a).2.inProgress = e.inProgress ∧
      ((e.beginLargeFileWithAction h md n a).2.staging = e.staging ∨
        (e.beginLargeFileWithAction h md n a).1 = false ∧
        (e.beginLargeFileWithAction h md n a).2.staging =
          e.staging.insert (h.blake3 (stagingKey md.relPath)) [])) := by
  unfold opensTransfer
  cases hsafe : safeRelative md.relPath with
  | false => simp [beginLargeFileWithAction, hsafe]
  | true =>
    cases hveto : e.vetoFor md.relPath a md.modifiedMs with
    | some q => simp [beginLargeFileWithAction, hsafe, hveto]
    | none =>
      obtain ⟨dirty, file, hadm⟩ := exists_admitted h e md.relPath a md.modifiedMs
      unfold beginLargeFileWithAction
      simp only [hsafe, hadm, hveto, Bool.not_true, Bool.false_eq_true, if_false,
        Option.isSome_none, Option.isNone_none, Bool.true_and]
      cases h.createDirAll e.tree md.relPath.dropLast with
      | none => exact .inr ⟨rfl, rfl, .inl rfl⟩
      | some t =>
        cases h.fails (.openStaging md.relPath) with
        | true => exact .inr ⟨rfl, rfl, .inl rfl⟩
        | false =>
          cases h.fails (.resizeStaging md.relPath) with
          | true => exact .inr ⟨rfl, rfl, .inr ⟨rfl, rfl⟩⟩
          | false => exact .inl ⟨rfl, rfl, rfl⟩

end SyncEngine

/-! ## What the engine knows of its transfers -/

/-- An open transfer agrees with what its messages have said. -/
structure Tracked (blake3 : Content → Hash) (e : SyncEngine) (a : Announced)
    (staged : Hash → StagedFile) (p : PathBuf) (asm : LargeFileAssembly) : Prop where
  dst : asm.dst = p
  tmp : asm.tmp = blake3 (stagingKey p)
  size : asm.fileSize = a.metadata.size
  total : asm.totalChunks = a.totalChunks
  received : asm.received = a.received.toFinset
  pending : asm.finalHashPending = a.finalHash
  staged : ∀ c, e.staging.get asm.tmp = some c → c.length = (staged asm.tmp).length

def AllTracked (blake3 : Content → Hash) (e : SyncEngine) (announced : PathBuf → Announced)
    (staged : Hash → StagedFile) : Prop :=
  ∀ p asm, e.inProgress.get p = some asm → Tracked blake3 e (announced p) staged p asm

namespace AllTracked

variable {blake3 : Content → Hash} {e e' : SyncEngine} {announced announced' : PathBuf → Announced}
  {staged : Hash → StagedFile} {p : PathBuf}

/-- Transfers and staging files that go away leave the others as they are. -/
theorem shrink (ht : AllTracked blake3 e announced staged)
    (hprogress : ∀ q asm, e'.inProgress.get q = some asm →
      e.inProgress.get q = some asm ∧ announced' q = announced q)
    (hstaging : ∀ k c, e'.staging.get k = some c → e.staging.get k = some c) :
    AllTracked blake3 e' announced' staged := by
  intro q asm hq
  obtain ⟨hq, hsame⟩ := hprogress q asm hq
  obtain ⟨hdst, htmp, hsize, htotal, hreceived, hpending, hstaged⟩ := ht q asm hq
  rw [hsame]
  exact ⟨hdst, htmp, hsize, htotal, hreceived, hpending, fun c hc => hstaged c (hstaging _ c hc)⟩

/-- The staging file of a transfer that was not touched, when the one called `tmp` was. -/
theorem staged_update {tmp : Hash} {c : Content} {f : StagedFile} (hlength : c.length = f.length)
    (hstaging : e'.staging = e.staging.insert tmp c) {k : Hash}
    (hk : ∀ c, e.staging.get k = some c → c.length = (staged k).length) :
    ∀ c, e'.staging.get k = some c → c.length = (Function.update staged tmp f k).length := by
  intro c' hc'
  rw [hstaging, FinMap.get_insert] at hc'
  by_cases htmp : k = tmp
  · rw [if_pos htmp] at hc'
    rw [htmp, Function.update_self, ← Option.some.inj hc', hlength]
  · rw [if_neg htmp] at hc'
    rw [Function.update_of_ne htmp, hk c' hc']

theorem start (ht : AllTracked blake3 e announced staged) (client : String) (h : Host)
    (md : FileMetadata) (n : UInt32) (a : Option Nat) :
    AllTracked blake3
      (e.handleRecvLargeFileStart { h with blake3 } md n
        (clampFutureStampOpt { h with blake3 } a)).2
      (announcedAfter blake3 e announced (.start client h md n a))
      (stagedAfter blake3 e staged (.start client h md n a)) := by
  unfold SyncEngine.handleRecvLargeFileStart announcedAfter stagedAfter
  dsimp only
  generalize clampFutureStampOpt { h with blake3 } (clampFutureStampOpt { h with blake3 } a) = a'
  obtain ⟨hopens, hstaging, hprogress⟩ | ⟨hopens, hprogress, hstaging⟩ :=
    SyncEngine.begin_cases { h with blake3 } e md n a'
  · rw [if_pos hopens, if_pos hopens]
    intro q asm hq
    rw [hprogress, FinMap.get_insert] at hq
    by_cases hqp : q = md.relPath
    · subst hqp
      rw [if_pos rfl] at hq
      obtain rfl := Option.some.inj hq
      rw [Function.update_self]
      refine ⟨rfl, rfl, rfl, rfl, rfl, rfl, fun c hc => ?_⟩
      rw [hstaging, FinMap.get_insert, if_pos rfl] at hc
      rw [Function.update_self, ← Option.some.inj hc, List.length_replicate]
      rfl
    · rw [if_neg hqp] at hq
      obtain ⟨hdst, htmp, hsize, htotal, hreceived, hpending, hstaged⟩ := ht q asm hq
      rw [Function.update_of_ne hqp]
      exact ⟨hdst, htmp, hsize, htotal, hreceived, hpending,
        staged_update (List.length_replicate ..) hstaging hstaged⟩
  · rw [if_neg (by simp [hopens]), if_neg (by simp [hopens])]
    obtain hsame | ⟨hfailed, htruncated⟩ := hstaging
    · split
      · next hempty =>
        intro q asm hq
        rw [hprogress] at hq
        obtain ⟨hdst, htmp, hsize, htotal, hreceived, hpending, hstaged⟩ := ht q asm hq
        refine ⟨hdst, htmp, hsize, htotal, hreceived, hpending, ?_⟩
        -- The file was empty before, so forgetting its chunks does no harm.
        rw [Bool.and_eq_true, decide_eq_true_eq] at hempty
        refine staged_update (c := []) (e := e) rfl ?_ hstaged
        refine FinMap.ext_get fun k => ?_
        rw [FinMap.get_insert, hsame]
        split
        · next hk => rw [hk, ← hempty.2, hsame]
        · rfl
      · exact ht.shrink (fun q asm hq => ⟨hprogress ▸ hq, rfl⟩) fun k c hc => hsame ▸ hc
    · rw [if_pos]
      · intro q asm hq
        rw [hprogress] at hq
        obtain ⟨hdst, htmp, hsize, htotal, hreceived, hpending, hstaged⟩ := ht q asm hq
        exact ⟨hdst, htmp, hsize, htotal, hreceived, hpending,
          staged_update (c := []) rfl htruncated hstaged⟩
      · rw [htruncated, FinMap.get_insert, if_pos rfl]
        simp [hfailed]

theorem chunk (ht : AllTracked blake3 e announced staged) (client : String) (h : Host)
    (p : PathBuf) (i : UInt32) (data : Content) :
    AllTracked blake3 (e.receiveLargeFileChunk { h with blake3 } p i data).2
      (announcedAfter blake3 e announced (.chunk client h p i data))
      (stagedAfter blake3 e staged (.chunk client h p i data)) := by
  unfold announcedAfter stagedAfter
  dsimp only
  cases hasm : e.inProgress.get p with
  | none =>
    have hunknown : e.receiveLargeFileChunk { h with blake3 } p i data = (some .pending, e) := by
      simp [SyncEngine.receiveLargeFileChunk, hasm]
    rw [hunknown]
    refine ht.shrink (fun q asm hq => ⟨hq, ?_⟩) fun k c hc => hc
    have hqp : q ≠ p := by
      rintro rfl
      exact absurd (hasm.symm.trans hq) (by simp)
    exact Function.update_of_ne hqp ..
  | some asm =>
    obtain hfailed | ⟨old, r, hold, hr, -⟩ :=
      SyncEngine.receiveLargeFileChunk_spec (h := { h with blake3 }) hasm i data
    · rw [hfailed]
      exact ht
    · obtain ⟨hdst, htmp, hsize, htotal, hreceived, hpending, hstaged⟩ := ht p asm hasm
      rw [hr, ← htmp]
      simp only [Option.isSome_some, Bool.and_self, if_true]
      have hlength : (writeAt old (i.toNat * fileChunkSize) data).length =
          ((staged asm.tmp).write (i, data)).length := by
        rw [StagedFile.length_write, ← hstaged old hold]
        exact length_writeAt_chunk old (i, data)
      intro q asm' hq
      replace hq := (FinMap.get_insert ..).symm.trans hq
      by_cases hqp : q = p
      · subst hqp
        rw [if_pos rfl] at hq
        obtain rfl := Option.some.inj hq
        refine ⟨hdst, htmp, ?_, ?_, ?_, ?_, staged_update hlength rfl hstaged⟩
        · rw [Function.update_self, hsize]
        · rw [Function.update_self, htotal]
        · rw [Function.update_self, hreceived]
          ext j
          simp
        · rw [Function.update_self, hpending]
      · rw [if_neg hqp] at hq
        obtain ⟨hdst', htmp', hsize', htotal', hreceived', hpending', hstaged'⟩ := ht q asm' hq
        rw [Function.update_of_ne hqp]
        exact ⟨hdst', htmp', hsize', htotal', hreceived', hpending',
          staged_update hlength rfl hstaged'⟩

theorem finish (ht : AllTracked blake3 e announced staged) (client : String) (h : Host)
    (p : PathBuf) (x : Hash) :
    AllTracked blake3 (e.finishLargeFile { h with blake3 } p x).2
      (announcedAfter blake3 e announced (.finish client h p x)) staged := by
  unfold announcedAfter SyncEngine.finishLargeFile
  split
  · next hnone =>
    refine ht.shrink (fun q asm hq => ⟨hq, ?_⟩) fun k c hc => hc
    have hqp : q ≠ p := by
      rintro rfl
      exact absurd (hnone.symm.trans hq) (by simp)
    exact Function.update_of_ne hqp ..
  · next asm hasm =>
    dsimp only
    split
    · intro q asm' hq
      replace hq := (FinMap.get_insert ..).symm.trans hq
      by_cases hqp : q = p
      · subst hqp
        rw [if_pos rfl] at hq
        obtain rfl := Option.some.inj hq
        obtain ⟨hdst, htmp, hsize, htotal, hreceived, -, hstaged⟩ := ht q asm hasm
        rw [Function.update_self]
        exact ⟨hdst, htmp, hsize, htotal, hreceived, rfl, hstaged⟩
      · rw [if_neg hqp] at hq
        obtain ⟨hdst, htmp, hsize, htotal, hreceived, hpending, hstaged⟩ := ht q asm' hq
        rw [Function.update_of_ne hqp]
        exact ⟨hdst, htmp, hsize, htotal, hreceived, hpending, hstaged⟩
    · obtain ⟨hprogress, hstaging⟩ := SyncEngine.commit_shrinks { h with blake3 } e p x
      refine ht.shrink (fun q asm' hq => ?_) hstaging
      obtain ⟨hqp, hq⟩ := hprogress q asm' hq
      exact ⟨hq, Function.update_of_ne hqp ..⟩

end AllTracked

theorem applyClientAction_start (h : Host) (e : SyncEngine) (client : String) (md : FileMetadata)
    (n : UInt32) (a : Option Nat) :
    (applyClientAction h e client (.largeFileStart md n a)).engine =
      (e.handleRecvLargeFileStart h md n (clampFutureStampOpt h a)).2 := by
  simp only [applyClientAction]
  rcases e.handleRecvLargeFileStart h md n (clampFutureStampOpt h a) with ⟨_ | _, e'⟩
  · rfl
  · rfl

theorem applyClientAction_chunk (h : Host) (e : SyncEngine) (client : String) (p : PathBuf)
    (i : UInt32) (data : Content) :
    (applyClientAction h e client (.largeFileChunk p i data)).engine =
        (e.handleRecvLargeFileChunk h p i data).2 ∧
      (applyClientAction h e client (.largeFileChunk p i data)).ok =
        (e.handleRecvLargeFileChunk h p i data).1 := by
  simp only [applyClientAction]
  rcases e.handleRecvLargeFileChunk h p i data with ⟨_ | _, e'⟩
  · exact ⟨rfl, rfl⟩
  · exact ⟨rfl, rfl⟩

namespace AnnouncedTransfers

variable {blake3 : Content → Hash} {σ σ' : AnnouncedTransfers} {ev : TransferEvent}

/-- What the engine knows of its transfers is what their messages have said. -/
def Known (blake3 : Content → Hash) (σ : AnnouncedTransfers) : Prop :=
  AllTracked blake3 σ.engine σ.announced σ.staged

theorem Known.step (hσ : Known blake3 σ) (hstep : σ.step blake3 ev = some σ') :
    Known blake3 σ' := by
  unfold AnnouncedTransfers.step Transfers.step at hstep
  cases ev with
  | start client h md n a =>
    obtain rfl := Option.some.inj hstep
    show AllTracked blake3 (applyClientAction { h with blake3 } σ.engine client _).engine _ _
    rw [applyClientAction_start]
    exact AllTracked.start hσ client h md n a
  | chunk client h p i data =>
    obtain rfl := Option.some.inj hstep
    have hchunk := AllTracked.chunk hσ client h p i data
    show AllTracked blake3 (applyClientAction { h with blake3 } σ.engine client _).engine _ _
    rw [(applyClientAction_chunk ..).1]
    unfold SyncEngine.handleRecvLargeFileChunk
    split
    · next e' hr => rwa [hr] at hchunk
    · next e' hr => rwa [hr] at hchunk
    · next x e' hr =>
      rw [hr] at hchunk
      obtain ⟨hprogress, hstaging⟩ := SyncEngine.commit_shrinks { h with blake3 } e' p x
      have hcommitted := hchunk.shrink (fun q asm hq => ⟨(hprogress q asm hq).2, rfl⟩) hstaging
      split
      · next hc => rwa [hc] at hcommitted
      · next hc => rwa [hc] at hcommitted
  | finish client h p x =>
    obtain rfl := Option.some.inj hstep
    show AllTracked blake3 (applyClientAction { h with blake3 } σ.engine client _).engine _ _
    rw [(Transfers.applyClientAction_end { h with blake3 } σ.engine client p x).1]
    exact AllTracked.finish hσ client h p x
  | other tree manifest ledger =>
    obtain rfl := Option.some.inj hstep
    exact AllTracked.shrink hσ (fun q asm hq => ⟨hq, rfl⟩) fun k c hc => hc

/-- A transfer that is complete by its count and goes through: the file is the announced one exactly
    if the messages kept to the announcement. -/
theorem matches_iff {h : Host} {e e' : SyncEngine} {a : Announced} {staged : Hash → StagedFile}
    {p : PathBuf} {asm : LargeFileAssembly} {x : Hash} {r : FinishResult} {c : Content}
    (hasm : e.inProgress.get p = some asm) (ht : Tracked h.blake3 e a staged p asm)
    (hcount : ¬ asm.receivedCount < asm.totalChunks)
    (hveto : e.vetoFor p asm.actionMs asm.modifiedMs = none)
    (hcommit : e.commitLargeFile h p x = (some r, e')) (hread : e'.tree.read asm.dst = some c) :
    (e'.tree.read p = some c ∧ ∃ entry, e'.manifest.files.get p = some entry ∧
        Matches h.blake3 { a with finalHash := some x } asm.received c entry) ↔
      Fits { a with finalHash := some x } (staged (h.blake3 (stagingKey p))) := by
  obtain ⟨c', hc', hhash, hread', hentry⟩ := SyncEngine.commit_spec hasm hveto hcommit
  obtain rfl : c' = c := Option.some.inj (hread'.symm.trans hread)
  have hlength := ht.staged c' hc'
  rw [ht.tmp] at hlength
  have hnumbered := numbered_iff hcount
  rw [ht.received, ht.total] at hnumbered
  simp only [List.mem_toFinset] at hnumbered
  constructor
  · rintro ⟨-, entry, hget, hm⟩
    obtain rfl := Option.some.inj (hentry.symm.trans hget)
    refine ⟨fun i hi => hm.counted_lt i (by rw [ht.received]; simpa using hi), ?_, ?_⟩
    · rw [← StagedFile.length_eq_iff, ← hlength]
      exact hm.length.trans hm.size
    · rw [← hm.announced_hash, hhash]
  · intro hf
    refine ⟨ht.dst ▸ hread, _, hentry, ?_⟩
    exact {
      length := by
        rw [hlength, (StagedFile.length_eq_iff ..).mpr hf.fills]
        exact ht.size.symm
      size := ht.size
      complete := (hnumbered.mp hf.numbered).1
      counted_lt := by
        intro i hi
        rw [ht.received, List.mem_toFinset] at hi
        exact hf.numbered i hi
      final_hash := by rw [hhash]
      announced_hash := by
        rw [hhash]
        exact Option.some.inj hf.hash }

theorem installed_eq_some {e e' : SyncEngine} {p : PathBuf} {ok : Bool} {c : Content}
    (hin : Transfers.installed e e' p ok = some c) :
    ∃ asm, e.inProgress.get p = some asm ∧ ok = true ∧ e'.inProgress.get p = none ∧
      e.vetoFor p asm.actionMs asm.modifiedMs = none ∧ e'.tree.read asm.dst = some c := by
  unfold Transfers.installed at hin
  split at hin
  · cases hin
  · next asm hasm =>
    split at hin
    · next hall =>
      obtain ⟨hok, hgone, hveto⟩ := hall
      exact ⟨asm, hasm, hok, Option.isNone_iff_eq_none.mp hgone,
        Option.isNone_iff_eq_none.mp hveto, hin⟩
    · cases hin

theorem given_concat {g : List (PathBuf × Content)} {o : Option Content} {p q : PathBuf}
    {c : Content} (h : g ++ (o.map fun c => (q, c)).toList = g ++ [(p, c)]) :
    q = p ∧ o = some c := by
  have h := List.append_cancel_left h
  cases o with
  | none => cases h
  | some c' =>
    obtain ⟨hq, hc⟩ := Prod.mk.inj (List.cons.inj h).1
    exact ⟨hq, congrArg some hc⟩

/-- A commit by the end of the transfer. -/
theorem finish_matches_iff (hσ : Known blake3 σ) {client : String} {h : Host} {p q : PathBuf}
    {x : Hash} {c : Content} (hstep : σ.step blake3 (.finish client h q x) = some σ')
    (hgiven : σ'.given = σ.given ++ [(p, c)]) :
    (σ'.engine.tree.read p = some c ∧ ∃ entry, σ'.engine.manifest.files.get p = some entry ∧
        Matches blake3 (σ'.announced p) (counted σ.engine (.finish client h q x)) c entry) ↔
      Fits (σ'.announced p) (σ'.staged (blake3 (stagingKey p))) := by
  obtain rfl := Option.some.inj hstep
  obtain ⟨rfl, hin⟩ := given_concat hgiven
  obtain ⟨asm, hasm, hok, hgone, hveto, hread⟩ := installed_eq_some hin
  obtain ⟨hengine, hanswer⟩ :=
    Transfers.applyClientAction_end { h with blake3 } σ.engine client q x
  rw [hanswer] at hok
  rw [hengine] at hgone hread
  show (SyncEngine.tree (applyClientAction { h with blake3 } σ.engine client _).engine).read q = _ ∧
    (∃ entry, (SyncEngine.manifest (applyClientAction { h with blake3 } σ.engine client
      _).engine).files.get q = some entry ∧
    Matches blake3 (Function.update σ.announced q _ q)
      (((σ.engine.inProgress.get q).map (·.received)).getD ∅) c entry) ↔
    Fits (Function.update σ.announced q _ q) _
  rw [hengine, Function.update_self, hasm]
  have hfinish : σ.engine.finishLargeFile { h with blake3 } q x =
      if asm.receivedCount < asm.totalChunks then
        (some (.missingChunks asm.missing), { σ.engine with
          inProgress := σ.engine.inProgress.insert q { asm with finalHashPending := some x } })
      else σ.engine.commitLargeFile { h with blake3 } q x := by
    simp only [SyncEngine.finishLargeFile, hasm]
  by_cases hmissing : asm.receivedCount < asm.totalChunks
  · -- The end is answered with the missing chunks, and the transfer stays open.
    rw [hfinish, if_pos hmissing] at hok
    cases hok
  · rw [hfinish, if_neg hmissing] at hok hread ⊢
    cases hcommit : σ.engine.commitLargeFile { h with blake3 } q x with
    | mk o e' =>
      rw [hcommit] at hok hread
      obtain ⟨r, rfl, -⟩ := (Option.any_eq_true ..).mp hok
      exact matches_iff hasm (hσ q asm hasm) hmissing hveto hcommit hread

/-- A commit by the last chunk of a transfer whose end has come. -/
theorem chunk_matches_iff (hσ : Known blake3 σ) {client : String} {h : Host} {p q : PathBuf}
    {i : UInt32} {data : Content} {c : Content}
    (hstep : σ.step blake3 (.chunk client h q i data) = some σ')
    (hgiven : σ'.given = σ.given ++ [(p, c)]) :
    (σ'.engine.tree.read p = some c ∧ ∃ entry, σ'.engine.manifest.files.get p = some entry ∧
        Matches blake3 (σ'.announced p) (counted σ.engine (.chunk client h q i data)) c entry) ↔
      Fits (σ'.announced p) (σ'.staged (blake3 (stagingKey p))) := by
  have hchunk := AllTracked.chunk hσ client h q i data
  obtain rfl := Option.some.inj hstep
  obtain ⟨rfl, hin⟩ := given_concat hgiven
  obtain ⟨asm, hasm, hok, hgone, hveto, hread⟩ := installed_eq_some hin
  obtain ⟨hengine, hanswer⟩ :=
    applyClientAction_chunk { h with blake3 } σ.engine client q i data
  rw [hanswer] at hok
  rw [hengine] at hgone hread
  show (SyncEngine.tree (applyClientAction { h with blake3 } σ.engine client _).engine).read q = _ ∧
    (∃ entry, (SyncEngine.manifest (applyClientAction { h with blake3 } σ.engine client
      _).engine).files.get q = some entry ∧
    Matches blake3 (announcedAfter blake3 σ.engine σ.announced (.chunk client h q i data) q)
      (insert i (((σ.engine.inProgress.get q).map (·.received)).getD ∅)) c entry) ↔
    Fits (announcedAfter blake3 σ.engine σ.announced (.chunk client h q i data) q)
      (stagedAfter blake3 σ.engine σ.staged (.chunk client h q i data) _)
  rw [hengine, hasm]
  generalize announcedAfter blake3 σ.engine σ.announced (.chunk client h q i data) = announced'
    at hchunk ⊢
  generalize stagedAfter blake3 σ.engine σ.staged (.chunk client h q i data) = staged' at hchunk ⊢
  unfold SyncEngine.handleRecvLargeFileChunk at hok hgone hread ⊢
  obtain hfailed | ⟨old, r, -, hr, hready⟩ :=
    SyncEngine.receiveLargeFileChunk_spec (h := { h with blake3 }) hasm i data
  · rw [hfailed] at hok
    cases hok
  · obtain ⟨e₁, hr, hasm', hveto'⟩ : ∃ e₁,
        σ.engine.receiveLargeFileChunk { h with blake3 } q i data = (some r, e₁) ∧
        e₁.inProgress.get q = some { asm with received := insert i asm.received } ∧
        e₁.vetoFor q asm.actionMs asm.modifiedMs = none :=
      ⟨_, hr, (FinMap.get_insert ..).trans (if_pos rfl), hveto⟩
    rw [hr] at hok hgone hread hchunk ⊢
    cases r with
    | pending =>
      -- The transfer stays open.
      exact absurd (hasm'.symm.trans hgone) (by simp)
    | readyToCommit x =>
      obtain ⟨hpending, hall⟩ := (hready x).mp rfl
      have ht := hchunk q _ hasm'
      have hfinal : (announced' q).finalHash = some x := ht.pending.symm.trans hpending
      have hsame : announced' q = { announced' q with finalHash := some x } := by rw [← hfinal]
      dsimp only at hok hgone hread ⊢
      cases hcommit : e₁.commitLargeFile { h with blake3 } q x with
      | mk o e' =>
        rw [hcommit] at hok hread
        cases o with
        | none => cases hok
        | some r =>
          have hcount : ¬ ({ asm with received := insert i asm.received } :
              LargeFileAssembly).receivedCount < asm.totalChunks := by
            rw [LargeFileAssembly.receivedCount, hall]
            exact UInt32.lt_irrefl _
          rw [hsame]
          exact matches_iff hasm' ht hcount hveto' hcommit hread

/-! ## Every message -/

/-- Whatever the message is: a file that it commits is the announced one exactly if the messages of
    the transfer kept to the announcement. -/
theorem commitsMatch_iff (hσ : Known blake3 σ) (ev : TransferEvent) :
    CommitsMatch blake3 σ ev ↔ CommitsFit blake3 σ ev := by
  have hcommit : ∀ {σ' p c}, σ.step blake3 ev = some σ' → σ'.given = σ.given ++ [(p, c)] →
      ((σ'.engine.tree.read p = some c ∧ ∃ entry, σ'.engine.manifest.files.get p = some entry ∧
        Matches blake3 (σ'.announced p) (counted σ.engine ev) c entry) ↔
      Fits (σ'.announced p) (σ'.staged (blake3 (stagingKey p)))) := by
    intro σ' p c hstep hgiven
    cases ev with
    | start client h md n a =>
      -- A start commits nothing.
      obtain rfl := Option.some.inj hstep
      exact absurd hgiven (by simp)
    | chunk client h q i data => exact chunk_matches_iff hσ hstep hgiven
    | finish client h q x => exact finish_matches_iff hσ hstep hgiven
    | other tree manifest ledger =>
      obtain rfl := Option.some.inj hstep
      exact absurd hgiven (by simp)
  constructor
  · intro h σ' p c hstep hgiven
    exact (hcommit hstep hgiven).mp (h σ' p c hstep hgiven)
  · intro h σ' p c hstep hgiven
    exact (hcommit hstep hgiven).mpr (h σ' p c hstep hgiven)

/-- A hash function that tells contents apart by their lengths. -/
def lengthHash (c : Content) : Hash := BitVec.ofNat 256 c.length

/-- An empty replica that nothing was sent to. -/
def noMessages : AnnouncedTransfers where
  engine := .new "server" (fun _ => false) .empty .new
  started := .empty
  given := []
  announced _ := ⟨⟨[], 0, 0, 0, 0, false⟩, 0, [], none⟩
  staged _ := ⟨0, []⟩

/-- The messages of a transfer of `data` in one chunk, on a host without errors; `size`, `n` and
    `hash` are announced. -/
def transferOf (data : Content) (size : Nat) (n : UInt32) (hash : Hash) : List TransferEvent :=
  let h := Host.reliable lengthHash 10
  let p := PathBuf.ofNames ["big"]
  [.start "a" h ⟨p, size, hash, 5, 0, false⟩ n (some 5), .chunk "a" h p 0 data]

/-- The end of a transfer of `data`. -/
def endOf (data : Content) : TransferEvent :=
  .finish "a" (Host.reliable lengthHash 10) (PathBuf.ofNames ["big"]) (lengthHash data)

/-- One byte and two chunks are announced. Two bytes come in the first chunk, and then the chunk
    with the number 7. -/
def overlong : List TransferEvent :=
  transferOf [1, 2] 1 2 (lengthHash [9]) ++
    [.chunk "a" (Host.reliable lengthHash 10) (PathBuf.ofNames ["big"]) 7 []]

end AnnouncedTransfers

end ByteHive
