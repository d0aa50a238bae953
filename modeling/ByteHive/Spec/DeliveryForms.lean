import ByteHive.Spec.LiveWrites
import ByteHive.Spec.Reception

/-!
# One file, two ways to deliver it

A file can come as one entry of a bundle, or as a start, chunks in any order and an end. The
two agree, down to the ledger and the conflict copy, unless the admission at the start makes
the veto at the commit fire: it raises the live record of the path, so a nearer tombstone no
longer covers it and a farther, newer one does (`DeletionLedger.Resurfaces`). A vetoed start
also leaves an older transfer of the path to take the chunks.

Key results:
- `writeChunks_perm`: chunks in any order give the content
- `SyncEngine.vetoFor_admitted`: when a write that was admitted is vetoed once more
- `deliveries_agree_iff`: when the two deliveries agree
-/

namespace ByteHive

/-! ## Chunks in any order -/

theorem getElem?_writeAt {old data : Content} {offset : Nat}
    (hfit : offset + data.length ≤ old.length) (j : Nat) :
    (writeAt old offset data)[j]? =
      if offset ≤ j ∧ j < offset + data.length then data[j - offset]? else old[j]? := by
  unfold writeAt
  split
  · next hnil =>
    rw [if_neg]
    rw [hnil, List.length_nil]
    omega
  · have hgap : offset - old.length = 0 := by omega
    have htake : (old.take offset).length = offset := by
      rw [List.length_take]
      omega
    rw [hgap, List.replicate_zero, List.append_nil, List.append_assoc, List.getElem?_append, htake]
    split
    · next hlt =>
      rw [List.getElem?_take_of_lt hlt, if_neg]
      omega
    · next hge =>
      rw [List.getElem?_append]
      split
      · next hin =>
        rw [if_pos]
        omega
      · next hout =>
        rw [if_neg (by omega), List.getElem?_drop]
        congr 1
        omega

theorem length_writeAt {old data : Content} {offset : Nat}
    (hfit : offset + data.length ≤ old.length) :
    (writeAt old offset data).length = old.length := by
  unfold writeAt
  split
  · rfl
  · simp only [List.length_append, List.length_take, List.length_replicate, List.length_drop]
    omega

/-- Writes the chunks `xs` over `staging`. -/
def writeChunks (staging : Content) (xs : List (UInt32 × Content)) : Content :=
  xs.foldl (fun s x => writeAt s (x.1.toNat * fileChunkSize) x.2) staging

/-- A chunk of the content, under its number. -/
theorem mem_fileChunks {content : Content} (hlen : content.length ≤ 2 ^ 32 * fileChunkSize)
    {x : UInt32 × Content} (hx : x ∈ fileChunks content) :
    x.2 = (content.drop (x.1.toNat * fileChunkSize)).take fileChunkSize ∧
      x.1.toNat < (content.length + fileChunkSize - 1) / fileChunkSize := by
  obtain ⟨i, hi, rfl⟩ := List.mem_map.mp hx
  rw [List.mem_range] at hi
  have hnum : (UInt32.ofNat i).toNat = i := by
    rw [UInt32.toNat_ofNat']
    unfold fileChunkSize at hi hlen
    omega
  exact ⟨by rw [hnum], by rw [hnum]; exact hi⟩

/-- What a byte of the file is after some chunks of `content` have come. -/
theorem getElem?_writeChunks {content staging : Content}
    (hlen : content.length ≤ 2 ^ 32 * fileChunkSize) {xs : List (UInt32 × Content)}
    (hxs : ∀ x ∈ xs, x ∈ fileChunks content) (hsize : staging.length = content.length) (j : Nat) :
    (writeChunks staging xs).length = content.length ∧
      (writeChunks staging xs)[j]? =
        if ∃ x ∈ xs, x.1.toNat = j / fileChunkSize then content[j]? else staging[j]? := by
  induction xs generalizing staging with
  | nil => simp [writeChunks, hsize]
  | cons x xs ih =>
    obtain ⟨hdata, hnum⟩ := mem_fileChunks hlen (hxs x (by simp))
    have hx2 : x.2.length = min fileChunkSize (content.length - x.1.toNat * fileChunkSize) := by
      rw [hdata, List.length_take, List.length_drop]
    have hfit : x.1.toNat * fileChunkSize + x.2.length ≤ staging.length := by
      rw [hx2, hsize]
      unfold fileChunkSize at hnum ⊢
      omega
    obtain ⟨hlength, hget⟩ := ih (fun y hy => hxs y (by simp [hy]))
      ((length_writeAt hfit).trans hsize)
    refine ⟨hlength, ?_⟩
    show (writeChunks (writeAt staging (x.1.toNat * fileChunkSize) x.2) xs)[j]? = _
    rw [hget, getElem?_writeAt hfit]
    by_cases hlater : ∃ y ∈ xs, y.1.toNat = j / fileChunkSize
    · obtain ⟨y, hy, hyj⟩ := hlater
      have hmem : ∃ z ∈ x :: xs, z.1.toNat = j / fileChunkSize :=
        ⟨y, List.mem_cons_of_mem x hy, hyj⟩
      rw [if_pos ⟨y, hy, hyj⟩, if_pos hmem]
    · rw [if_neg hlater]
      by_cases hself : x.1.toNat = j / fileChunkSize
      · have hmem : ∃ y ∈ x :: xs, y.1.toNat = j / fileChunkSize := ⟨x, by simp, hself⟩
        rw [if_pos hmem]
        -- The byte lies in this chunk, or behind the end of the file.
        by_cases hend : j < content.length
        · have hin : x.1.toNat * fileChunkSize ≤ j ∧
              j < x.1.toNat * fileChunkSize + x.2.length := by
            rw [hx2]
            unfold fileChunkSize at *
            omega
          rw [if_pos hin, hdata, List.getElem?_take_of_lt, List.getElem?_drop]
          · congr 1
            omega
          · unfold fileChunkSize at *
            omega
        · have hout : ¬ (x.1.toNat * fileChunkSize ≤ j ∧
              j < x.1.toNat * fileChunkSize + x.2.length) := by omega
          rw [if_neg hout, List.getElem?_eq_none (by omega), List.getElem?_eq_none (by omega)]
      · have hout : ¬ (x.1.toNat * fileChunkSize ≤ j ∧
            j < x.1.toNat * fileChunkSize + x.2.length) := by
          rw [hx2]
          unfold fileChunkSize at *
          omega
        have hnone : ¬ ∃ y ∈ x :: xs, y.1.toNat = j / fileChunkSize := by
          rintro ⟨y, hy, hyj⟩
          rcases List.mem_cons.mp hy with rfl | hy
          · exact hself hyj
          · exact hlater ⟨y, hy, hyj⟩
        rw [if_neg hout, if_neg hnone]

/-- All the chunks, in any order and any number of times, give the content. -/
theorem writeChunks_all {content staging : Content}
    (hlen : content.length ≤ 2 ^ 32 * fileChunkSize) {xs : List (UInt32 × Content)}
    (hxs : ∀ x ∈ xs, x ∈ fileChunks content) (hall : ∀ x ∈ fileChunks content, x ∈ xs)
    (hsize : staging.length = content.length) : writeChunks staging xs = content := by
  refine List.ext_getElem? fun j => ?_
  obtain ⟨hlength, hget⟩ := getElem?_writeChunks hlen hxs hsize j
  by_cases hend : j < content.length
  · rw [hget, if_pos]
    have hnum : j / fileChunkSize < (content.length + fileChunkSize - 1) / fileChunkSize := by
      unfold fileChunkSize
      omega
    refine ⟨_, hall _ (List.mem_map_of_mem (List.mem_range.mpr hnum)), ?_⟩
    rw [UInt32.toNat_ofNat']
    unfold fileChunkSize at *
    omega
  · rw [List.getElem?_eq_none (by omega), List.getElem?_eq_none (by omega)]

theorem writeChunks_perm {content staging : Content}
    (hlen : content.length ≤ 2 ^ 32 * fileChunkSize) {xs : List (UInt32 × Content)}
    (hxs : xs.Perm (fileChunks content)) (hsize : staging.length = content.length) :
    writeChunks staging xs = content :=
  writeChunks_all hlen (fun _ hx => hxs.mem_iff.mp hx) (fun _ hx => hxs.mem_iff.mpr hx) hsize

/-! ## The veto after the admission -/

namespace DeletionLedger

/-- The admission of a write puts it on record as a live action. -/
def Records (l : DeletionLedger) (rel : PathBuf) (a : Option Nat) (m : Nat) : Prop :=
  match a with
  | some at' => l.aliveRecordNeeded rel at' = true
  | none => ∃ t, l.entries.get rel = some t ∧ t.deletedAtMs < m

/-- A tombstone at or above the path is newer than the stamp and than the live record. -/
def Outlasts (l : DeletionLedger) (rel : PathBuf) (stamp : Nat) : Prop :=
  ∃ q t, q ≠ [] ∧ q <+: rel ∧ l.entries.get q = some t ∧ max (l.aliveSince rel) stamp < t.deletedAtMs

/-- Once the write is on record, a tombstone covers the path that did not before: a nearer one,
    older than the write, has been in front of it. -/
structure Resurfaces (l : DeletionLedger) (rel : PathBuf) (a : Option Nat) (m : Nat) : Prop where
  records : l.Records rel a m
  outlasts : l.Outlasts rel (a.getD m)

theorem Records.stamp_pos {l : DeletionLedger} {rel : PathBuf} {a : Option Nat} {m : Nat}
    (h : l.Records rel a m) : 0 < a.getD m := by
  cases a with
  | some at' =>
    simp only [Records, aliveRecordNeeded, Bool.and_eq_true, decide_eq_true_eq] at h
    exact h.1
  | none =>
    obtain ⟨t, -, ht⟩ := h
    exact Nat.zero_lt_of_lt ht

/-- With a live record at the path, the tombstones that apply are those newer than it. -/
theorem effectiveTombstone_iff {l : DeletionLedger} {rel q : PathBuf} {t : Tombstone}
    (hlive : 0 < l.aliveSince rel) :
    l.effectiveTombstone rel q = some t ↔
      l.entries.get q = some t ∧ l.aliveSince rel < t.deletedAtMs := by
  unfold aliveSince at *
  cases ha : l.alive.get rel with
  | none =>
    rw [ha] at hlive
    exact absurd hlive (by simp)
  | some v => simp [effectiveTombstone, ha, Option.filter_eq_some_iff]

end DeletionLedger

namespace SyncEngine

theorem ledger_admitRecord_of_records {e : SyncEngine} {rel : PathBuf} {a : Option Nat} {m : Nat}
    (h : e.ledger.Records rel a m) :
    (e.admitRecord rel a m).ledger = (e.ledger.recordAlive rel (a.getD m)).2 := by
  cases a with
  | some at' =>
    have hneed : e.ledger.aliveRecordNeeded rel at' = true := h
    simp [admitRecord, hneed]
  | none =>
    obtain ⟨t, ht, hlt⟩ := h
    simp [admitRecord, ht, hlt]

theorem ledger_admitRecord_of_not_records {e : SyncEngine} {rel : PathBuf} {a : Option Nat}
    {m : Nat} (h : ¬ e.ledger.Records rel a m) : (e.admitRecord rel a m).ledger = e.ledger := by
  cases a with
  | some at' =>
    have hneed : ¬ e.ledger.aliveRecordNeeded rel at' = true := h
    simp [admitRecord, hneed]
  | none =>
    unfold admitRecord
    cases ht : e.ledger.entries.get rel with
    | none => rfl
    | some t =>
      have hle : ¬ t.deletedAtMs < m := fun hlt => h ⟨t, ht, hlt⟩
      simp [hle]

/-- The veto reads nothing but the ledger. -/
theorem vetoFor_congr {e e' : SyncEngine} (h : e'.ledger = e.ledger) (rel : PathBuf)
    (a : Option Nat) (m : Nat) : e'.vetoFor rel a m = e.vetoFor rel a m := by
  rw [vetoFor, vetoFor, h]

theorem ledger_admitRecord_congr {e e' : SyncEngine} (h : e'.ledger = e.ledger) (rel : PathBuf)
    (a : Option Nat) (m : Nat) : (e'.admitRecord rel a m).ledger = (e.admitRecord rel a m).ledger := by
  by_cases hrec : e.ledger.Records rel a m
  · rw [ledger_admitRecord_of_records hrec, ledger_admitRecord_of_records (h ▸ hrec), h]
  · rw [ledger_admitRecord_of_not_records hrec, ledger_admitRecord_of_not_records (h ▸ hrec), h]

/-- A write that was admitted is vetoed by its own record exactly when a tombstone
    resurfaces. -/
theorem vetoFor_admitted {e : SyncEngine} {rel : PathBuf} {a : Option Nat} {m : Nat}
    (hveto : e.vetoFor rel a m = none) :
    ((e.admitRecord rel a m).vetoFor rel a m).isSome = true ↔ e.ledger.Resurfaces rel a m := by
  by_cases hrec : e.ledger.Records rel a m
  · have hledger := ledger_admitRecord_of_records hrec
    have hpos := hrec.stamp_pos
    have halive : (e.admitRecord rel a m).ledger.aliveSince rel =
        max (e.ledger.aliveSince rel) (a.getD m) := by
      rw [hledger, DeletionLedger.aliveSince_recordAlive, if_pos rfl]
    have hlive : 0 < (e.admitRecord rel a m).ledger.aliveSince rel := by omega
    have hstamp : ∀ t : Tombstone,
        (e.admitRecord rel a m).ledger.aliveSince rel < t.deletedAtMs → a.getD m < t.deletedAtMs := by
      intro t ht
      omega
    constructor
    · intro hsome
      obtain ⟨t, ht⟩ := Option.isSome_iff_exists.mp (Option.isSome_map ▸ hsome)
      obtain ⟨q, hq, heff⟩ := List.exists_of_findSome?_eq_some (Option.filter_eq_some_iff.mp ht).1
      obtain ⟨hentry, hnewer⟩ := (DeletionLedger.effectiveTombstone_iff hlive).mp heff
      obtain ⟨hne, hpre⟩ := mem_ancestors.mp hq
      exact ⟨hrec, q, t, hne, hpre, entries_admitRecord hentry, by rwa [halive] at hnewer⟩
    · rintro ⟨-, q, t, hne, hpre, hentry, hnewer⟩
      rw [← halive] at hnewer
      -- The admission only lifts a tombstone that is not newer than the write.
      have hkept : (e.admitRecord rel a m).ledger.entries.get q = some t := by
        rw [hledger, DeletionLedger.get_entries_recordAlive]
        split
        · next hself =>
          rw [← hself.1, hentry, Option.filter_some, if_pos]
          simpa using hstamp t hnewer
        · exact hentry
      obtain ⟨r, t', hcover, heff, -⟩ := DeletionLedger.coveringTombstone_of_effective hne hpre
        ((DeletionLedger.effectiveTombstone_iff hlive).mpr ⟨hkept, hnewer⟩)
      have hnewer' := ((DeletionLedger.effectiveTombstone_iff hlive).mp heff).2
      simp [vetoFor, hcover, Option.filter_some, hstamp t' hnewer']
  · have hledger := ledger_admitRecord_of_not_records hrec
    rw [vetoFor_congr hledger, hveto]
    exact iff_of_false (by simp) fun h => hrec h.records

/-- A second admission of the same write changes nothing. -/
theorem ledger_admitRecord_admitRecord (e : SyncEngine) (rel : PathBuf) (a : Option Nat) (m : Nat) :
    ((e.admitRecord rel a m).admitRecord rel a m).ledger = (e.admitRecord rel a m).ledger := by
  refine ledger_admitRecord_of_not_records fun hagain => ?_
  by_cases hrec : e.ledger.Records rel a m
  · have hledger := ledger_admitRecord_of_records hrec
    have hpos := hrec.stamp_pos
    have hentry : ∀ t, (e.admitRecord rel a m).ledger.entries.get rel = some t →
        a.getD m < t.deletedAtMs := by
      intro t ht
      rw [hledger, DeletionLedger.get_entries_recordAlive, if_pos ⟨rfl, hpos⟩] at ht
      simpa using (Option.filter_eq_some_iff.mp ht).2
    cases a with
    | some at' =>
      have halive : at' ≤ (e.admitRecord rel (some at') m).ledger.aliveSince rel := by
        rw [hledger, DeletionLedger.aliveSince_recordAlive, if_pos rfl]
        exact le_max_right _ _
      simp only [DeletionLedger.Records, DeletionLedger.aliveRecordNeeded, Bool.and_eq_true,
        Bool.or_eq_true, decide_eq_true_eq] at hagain
      rcases hagain.2 with hlt | hle
      · omega
      · cases ht : (e.admitRecord rel (some at') m).ledger.entries.get rel with
        | none => simp [ht] at hle
        | some t =>
          have hnewer := hentry t ht
          simp only [ht, decide_eq_true_eq, Option.getD_some] at hle hnewer
          omega
    | none =>
      obtain ⟨t, ht, hlt⟩ := hagain
      have hnewer := hentry t ht
      simp only [Option.getD_none] at hnewer
      omega
  · rw [ledger_admitRecord_of_not_records hrec] at hagain
    exact hrec hagain

end SyncEngine

/-! ## The two deliveries -/

/-- The metadata that a sender gives with a file. -/
def fileMetadata (h : Host) (rel : PathBuf) (content : Content) (m seq : Nat) : FileMetadata :=
  { FileMetadata.ofNode h rel (.file content m) with changeSequence := seq }

namespace FinishResult

/-- The conflict copies that a commit reports. -/
def conflicts : FinishResult → List ConflictInfo
  | .committedWithConflict info => [info]
  | .committed => []
  | .missingChunks _ => []

end FinishResult

namespace SyncEngine

/-- The file as the only entry of a bundle. -/
def deliverSmall (h : Host) (e : SyncEngine) (md : FileMetadata) (content : Content)
    (a : Option Nat) (bundleId : Nat) : Option ApplyResult × SyncEngine :=
  e.applyBundle h ⟨[⟨md, content, a⟩], bundleId⟩

/-- Chunks of the file at `rel` arrive. -/
def receiveChunks (e : SyncEngine) (rel : PathBuf) (xs : List (Host × UInt32 × Content)) :
    SyncEngine :=
  xs.foldl (fun e x => (e.handleRecvLargeFileChunk x.1 rel x.2.1 x.2.2).2) e

/-- The file as a start, the chunks `xs` and an end. -/
def deliverLarge (start fin : Host) (xs : List (Host × UInt32 × Content)) (e : SyncEngine)
    (md : FileMetadata) (a : Option Nat) : Option FinishResult × SyncEngine :=
  ((e.beginLargeFileWithAction start md (totalChunks md.size) a).2.receiveChunks
    md.relPath xs).finishLargeFile fin md.relPath md.hash

/-! ### The conflict copy -/

/-- The copy of the file at `rel` under its conflict name, when it can be made. -/
def copyAside (h : Host) (nodeId : String) (t : Tree) (rel : PathBuf) :
    Tree × Option ConflictInfo :=
  let conflictRel := conflictCopyName rel nodeId h.unixSecs
  match (t.read rel).bind fun old => t.write conflictRel old h.nowMs with
  | some t' => (t', some ⟨rel, conflictRel⟩)
  | none => (t, none)

/-- A conflict is one with a file that is there. -/
theorem exists_of_detectConflict {h : Host} {e : SyncEngine} {rel : PathBuf} {x : Hash}
    (hc : (e.detectConflict h rel x).isSome = true) : ∃ n, e.tree.get rel = some n := by
  unfold detectConflict at hc
  split at hc
  · cases hc
  · split at hc
    · cases hc
    · split at hc
      · cases hc
      · next onDisk hread =>
        unfold Host.hashFile FileTree.read at hread
        cases hn : e.tree.get rel with
        | none => simp [hn] at hread
        | some n => exact ⟨n, rfl⟩

variable {h : Host} {e : SyncEngine} {rel : PathBuf}

theorem conflictCopyName_dropLast (rel : PathBuf) (nodeId : String) (unixSecs : Nat) :
    (conflictCopyName rel nodeId unixSecs).dropLast = rel.dropLast := by
  simp [conflictCopyName]

theorem copy_eq_copyAside (hok : ∀ op, h.fails op = false) (t : Tree) (nodeId : String)
    (rel : PathBuf) :
    h.copy t rel (conflictCopyName rel nodeId h.unixSecs) =
      (t.read rel).bind fun old => t.write (conflictCopyName rel nodeId h.unixSecs) old h.nowMs := by
  simp only [Host.copy, hok, Bool.false_eq_true, if_false]
  cases t.read rel <;> rfl

theorem saveConflictCopy_eq (hok : ∀ op, h.fails op = false) {n : FileNode Content}
    (hn : e.tree.get rel = some n) :
    e.saveConflictCopy h rel =
      some ({ e with tree := (copyAside h e.nodeId e.tree rel).1 },
        (copyAside h e.nodeId e.tree rel).2) := by
  have hdirs : h.createDirAll e.tree rel.dropLast = some e.tree := by
    simp [Host.createDirAll, hok, FileTree.createDirAll_of_get hn]
  unfold saveConflictCopy copyAside
  simp only [conflictCopyName_dropLast, hdirs, copy_eq_copyAside hok]
  cases (e.tree.read rel).bind fun old =>
    e.tree.write (conflictCopyName rel e.nodeId h.unixSecs) old h.nowMs <;> rfl

theorem saveCommitConflict_eq (hok : ∀ op, h.fails op = false) {n : FileNode Content}
    (hn : e.tree.get rel = some n) :
    e.saveCommitConflict h rel rel =
      ((copyAside h e.nodeId e.tree rel).2,
        { e with tree := (copyAside h e.nodeId e.tree rel).1 }) := by
  have hdirs : h.createDirAll e.tree rel.dropLast = some e.tree := by
    simp [Host.createDirAll, hok, FileTree.createDirAll_of_get hn]
  unfold saveCommitConflict copyAside
  simp only [conflictCopyName_dropLast, hdirs, copy_eq_copyAside hok, Option.getD_some]
  cases (e.tree.read rel).bind fun old =>
    e.tree.write (conflictCopyName rel e.nodeId h.unixSecs) old h.nowMs <;> rfl

/-- The tree from which the file is written, and the conflict copy that is in it. -/
def settled (h : Host) (e : SyncEngine) (rel : PathBuf) (x : Hash) : Tree × Option ConflictInfo :=
  if (e.detectConflict h rel x).isSome then copyAside h e.nodeId e.tree rel else (e.tree, none)

/-! ### The bundle -/

theorem deliverSmall_vetoed {md : FileMetadata} (hsafe : safeRelative md.relPath = true)
    {a : Option Nat} (hveto : (e.vetoFor md.relPath a md.modifiedMs).isSome = true)
    (content : Content) (bundleId : Nat) :
    e.deliverSmall h md content a bundleId = (some ⟨0, []⟩, e.flushLedger h) := by
  have hskip : applyFile h ⟨e, [], ⟨0, []⟩, []⟩ ⟨md, content, a⟩ =
      (true, ⟨e, [], ⟨0, []⟩, []⟩) := by
    simp [applyFile, hsafe, hveto]
  unfold deliverSmall applyBundle
  simp only [applyFiles, hskip]
  rfl

/-- A bundle that goes through: the conflict copy, the parents, the file. -/
theorem deliverSmall_written (hok : ∀ op, h.fails op = false) {md : FileMetadata}
    (hsafe : safeRelative md.relPath = true) (hfile : md.isDir = false) {a : Option Nat}
    (hveto : e.vetoFor md.relPath a md.modifiedMs = none) {content : Content} {bundleId : Nat}
    {r : ApplyResult} {e' : SyncEngine}
    (hr : e.deliverSmall h md content a bundleId = (some r, e')) :
    ∃ t t', h.createDirAll (e.settled h md.relPath md.hash).1 md.relPath.dropLast = some t ∧
      t.write md.relPath content md.modifiedMs = some t' ∧ e'.tree = t' ∧
      r.conflicts = (e.settled h md.relPath md.hash).2.toList ∧
      e'.ledger = (e.admitRecord md.relPath a md.modifiedMs).ledger ∧
      e'.manifest = { e.manifest with files := e.manifest.files.insert md.relPath md } := by
  obtain ⟨dirty, hadm⟩ := exists_admitRecord e md.relPath a md.modifiedMs
  generalize (e.admitRecord md.relPath a md.modifiedMs).ledger = l at hadm ⊢
  -- The conflict is looked for after the admission, which leaves tree and manifest alone.
  have hcopy : (if ((e.admitRecord md.relPath a md.modifiedMs).detectConflict h
        md.relPath md.hash).isSome = true then
        (e.admitRecord md.relPath a md.modifiedMs).saveConflictCopy h md.relPath
      else some (e.admitRecord md.relPath a md.modifiedMs, none)) =
      some ({ e with
        ledger := l
        ledgerDirty := dirty
        tree := (e.settled h md.relPath md.hash).1 }, (e.settled h md.relPath md.hash).2) := by
    rw [hadm]
    have hdetect : ({ e with ledger := l, ledgerDirty := dirty } : SyncEngine).detectConflict h
        md.relPath md.hash = e.detectConflict h md.relPath md.hash := rfl
    simp only [hdetect, settled]
    split
    · next hconflict =>
      obtain ⟨n, hn⟩ := exists_of_detectConflict hconflict
      exact saveConflictCopy_eq hok hn
    · rfl
  unfold deliverSmall applyBundle at hr
  simp only [applyFiles, applyFile, hsafe, hveto, hfile, hcopy, Bool.not_true, Bool.not_false,
    Bool.true_and, Bool.false_eq_true, if_false, Option.isSome_none, writeEntry] at hr
  cases hdirs : h.createDirAll (e.settled h md.relPath md.hash).1 md.relPath.dropLast with
  | none => simp [hdirs] at hr
  | some t =>
    cases hwrite : t.write md.relPath content md.modifiedMs with
    | none => simp [hdirs, hwrite, Host.write, hok] at hr
    | some t' =>
      simp only [hdirs, hwrite, Host.write, hok, Bool.false_eq_true, if_false, Bool.not_true,
        Prod.mk.injEq, Option.some.injEq] at hr
      obtain ⟨rfl, rfl⟩ := hr
      refine ⟨t, t', rfl, hwrite, ?_, by simp, ?_, ?_⟩
      · rw [scheduleUnsuppress_tree]
        exact flushLedger_tree h _
      · rw [ledger_scheduleUnsuppress]
        exact ledger_flushLedger h _
      · rw [scheduleUnsuppress_manifest]
        exact flushLedger_manifest h _

/-! ### The large file -/

/-- A start that goes through. -/
theorem begin_eq (hok : ∀ op, h.fails op = false) {md : FileMetadata}
    (hsafe : safeRelative md.relPath = true) {a : Option Nat}
    (hveto : e.vetoFor md.relPath a md.modifiedMs = none) {t : Tree}
    (hdirs : h.createDirAll e.tree md.relPath.dropLast = some t) (n : UInt32) :
    ∃ dirty file suppressed, e.beginLargeFileWithAction h md n a =
      (true, { e with
        ledger := (e.admitRecord md.relPath a md.modifiedMs).ledger
        ledgerDirty := dirty
        ledgerFile := file
        tree := t
        staging := e.staging.insert (h.blake3 (stagingKey md.relPath)) (.replicate md.size 0)
        suppressed
        inProgress := e.inProgress.insert md.relPath
          { tmp := h.blake3 (stagingKey md.relPath), totalChunks := n, received := ∅
            expectedHash := md.hash, dst := md.relPath, fileSize := md.size
            modifiedMs := md.modifiedMs, actionMs := a, finalHashPending := none } }) := by
  obtain ⟨dirty, file, hadm⟩ := exists_admitted h e md.relPath a md.modifiedMs
  generalize (e.admitRecord md.relPath a md.modifiedMs).ledger = l at hadm ⊢
  unfold beginLargeFileWithAction
  simp only [hsafe, hveto, hadm, hdirs, hok, Bool.not_true, Bool.false_eq_true, if_false,
    Option.isSome_none]
  exact ⟨_, _, _, rfl⟩

/-- Chunks of a transfer whose end has not come are collected. -/
theorem receiveChunks_collects {xs : List (Host × UInt32 × Content)}
    (hok : ∀ x ∈ xs, ∀ op, x.1.fails op = false) {asm : LargeFileAssembly} {old : Content}
    (hasm : e.inProgress.get rel = some asm) (hpending : asm.finalHashPending = none)
    (hold : e.staging.get asm.tmp = some old) :
    ∃ staging inProgress,
      e.receiveChunks rel xs = { e with staging := staging, inProgress := inProgress } ∧
        inProgress.get rel =
          some { asm with received := asm.received ∪ (xs.map (·.2.1)).toFinset } ∧
        staging.get asm.tmp = some (writeChunks old (xs.map (·.2))) := by
  induction xs generalizing e asm old with
  | nil => exact ⟨e.staging, e.inProgress, rfl, by simpa using hasm, by simpa [writeChunks] using hold⟩
  | cons x xs ih =>
    have hwritten : x.1.fails (.writeStaging rel) = false := hok x (by simp) _
    have hone : (e.handleRecvLargeFileChunk x.1 rel x.2.1 x.2.2).2 =
        { e with
          staging := e.staging.insert asm.tmp (writeAt old (x.2.1.toNat * fileChunkSize) x.2.2)
          inProgress := e.inProgress.insert rel
            { asm with received := insert x.2.1 asm.received } } := by
      simp [handleRecvLargeFileChunk, receiveLargeFileChunk, hasm, hold, hwritten, hpending]
    have hrest : ∀ y ∈ xs, ∀ op, y.1.fails op = false := fun y hy => hok y (by simp [hy])
    have hasm₁ : (e.handleRecvLargeFileChunk x.1 rel x.2.1 x.2.2).2.inProgress.get rel =
        some { asm with received := insert x.2.1 asm.received } := by simp [hone]
    have hold₁ : (e.handleRecvLargeFileChunk x.1 rel x.2.1 x.2.2).2.staging.get asm.tmp =
        some (writeAt old (x.2.1.toNat * fileChunkSize) x.2.2) := by simp [hone]
    obtain ⟨staging, inProgress, heq, hasm', hstaging⟩ := ih hrest hasm₁ hpending hold₁
    refine ⟨staging, inProgress, ?_, ?_, hstaging⟩
    · show (e.handleRecvLargeFileChunk x.1 rel x.2.1 x.2.2).2.receiveChunks rel xs = _
      rw [heq, hone]
    · rw [hasm', List.map_cons, List.toFinset_cons, Finset.insert_union, Finset.union_insert]

/-- Without a transfer of the path its chunks are dropped. -/
theorem receiveChunks_unknown (hasm : e.inProgress.get rel = none)
    (xs : List (Host × UInt32 × Content)) : e.receiveChunks rel xs = e := by
  induction xs with
  | nil => rfl
  | cons x xs ih =>
    have hone : (e.handleRecvLargeFileChunk x.1 rel x.2.1 x.2.2).2 = e := by
      simp [handleRecvLargeFileChunk, receiveLargeFileChunk, hasm]
    show (e.handleRecvLargeFileChunk x.1 rel x.2.1 x.2.2).2.receiveChunks rel xs = e
    rw [hone]
    exact ih

/-- A commit that a tombstone vetoes. -/
theorem commit_vetoed {asm : LargeFileAssembly} (hasm : e.inProgress.get rel = some asm)
    (hveto : (e.vetoFor rel asm.actionMs asm.modifiedMs).isSome = true) (fh : Hash) :
    e.commitLargeFile h rel fh =
      (some .committed, { e with
        inProgress := e.inProgress.erase rel
        staging := e.staging.erase asm.tmp }) := by
  have hveto' : (({ e with inProgress := e.inProgress.erase rel } : SyncEngine).vetoFor rel
      asm.actionMs asm.modifiedMs).isSome = true := hveto
  unfold commitLargeFile
  simp only [hasm, hveto', if_true]

/-- A commit that goes through: the conflict copy, the file. -/
theorem commit_written (hok : ∀ op, h.fails op = false) {asm : LargeFileAssembly} {fh : Hash}
    (hasm : e.inProgress.get rel = some asm) (hdst : asm.dst = rel)
    (hveto : e.vetoFor rel asm.actionMs asm.modifiedMs = none) {content : Content}
    (hstaging : e.staging.get asm.tmp = some content) (hhash : h.blake3 content = fh) {t : Tree}
    (hwrite : (e.settled h rel fh).1.write rel content asm.modifiedMs = some t) :
    ∃ r e', e.commitLargeFile h rel fh = (some r, e') ∧ e'.tree = t ∧
      r.conflicts = (e.settled h rel fh).2.toList ∧
      e'.ledger = (e.admitRecord rel asm.actionMs asm.modifiedMs).ledger ∧
      e'.manifest = { e.manifest with
        files := e.manifest.files.insert rel
          { relPath := rel, size := asm.fileSize, hash := fh, modifiedMs := asm.modifiedMs
            changeSequence := 0, isDir := false } } := by
  have hveto' : ({ e with inProgress := e.inProgress.erase rel } : SyncEngine).vetoFor rel
      asm.actionMs asm.modifiedMs = none := hveto
  have hledger : (({ e with inProgress := e.inProgress.erase rel } : SyncEngine).admitRecord rel
      asm.actionMs asm.modifiedMs).ledger =
      (e.admitRecord rel asm.actionMs asm.modifiedMs).ledger := by
    apply ledger_admitRecord_congr
    rfl
  obtain ⟨dirty, file, hadm⟩ := exists_admitted h
    ({ e with inProgress := e.inProgress.erase rel } : SyncEngine) rel asm.actionMs asm.modifiedMs
  rw [hledger] at hadm
  generalize (e.admitRecord rel asm.actionMs asm.modifiedMs).ledger = l at hadm ⊢
  generalize he₁ : ({ e with
      inProgress := e.inProgress.erase rel
      ledger := l
      ledgerDirty := dirty
      ledgerFile := file } : SyncEngine) = e₁ at hadm
  have hcopy : (if e₁.commitConflict h rel rel fh then e₁.saveCommitConflict h rel rel
      else (none, e₁)) =
      ((e.settled h rel fh).2, { e₁ with tree := (e.settled h rel fh).1 }) := by
    have hdetect : e₁.detectConflict h rel fh = e.detectConflict h rel fh := by rw [← he₁]; rfl
    rw [commitConflict_eq, hdetect, settled]
    split
    · next hconflict =>
      obtain ⟨n, hn⟩ := exists_of_detectConflict hconflict
      have hn₁ : e₁.tree.get rel = some n := by rw [← he₁]; exact hn
      rw [saveCommitConflict_eq hok hn₁, ← he₁]
    · rw [← he₁]
  have hinstall : ∃ r e', e₁.installLargeFile h rel asm fh content = (some r, e') ∧ e'.tree = t ∧
      r.conflicts = (e.settled h rel fh).2.toList ∧ e'.ledger = e₁.ledger ∧
      e'.manifest = { e₁.manifest with
        files := e₁.manifest.files.insert rel
          { relPath := rel, size := asm.fileSize, hash := fh, modifiedMs := asm.modifiedMs
            changeSequence := 0, isDir := false } } := by
    unfold installLargeFile
    simp only [hdst, hcopy, hok, Bool.false_eq_true, if_false, hwrite]
    refine ⟨_, _, rfl, by simp, ?_, by simp, by simp⟩
    cases (e.settled h rel fh).2 <;> rfl
  unfold commitLargeFile
  have hstaging₁ : e₁.staging.get asm.tmp = some content := by rw [← he₁]; exact hstaging
  simp only [hasm, hveto', hadm, Option.isSome_none, Bool.false_eq_true, if_false, hstaging₁, hok,
    hhash, ne_eq, not_true_eq_false]
  obtain ⟨r, e', heq, htree, hconflicts, hl, hmanifest⟩ := hinstall
  refine ⟨r, e', heq, htree, hconflicts, ?_, ?_⟩
  · rw [hl, ← he₁]
  · rw [hmanifest, ← he₁]

end SyncEngine

/-! ## Where they agree -/

/-- The metadata without its change number. -/
def FileMetadata.unnumbered (md : FileMetadata) : FileMetadata := { md with changeSequence := 0 }

/-- What the bundle `b` and the large file `l` of `rel` leave is the same: the tree, but for times
    that the clocks of the two deliveries give, the ledger, the conflict copy and the manifest up
    to change numbers. -/
structure DeliveriesAgree (clocks : Nat → Nat → Prop) (rel : PathBuf)
    (b : Option ApplyResult × SyncEngine) (l : Option FinishResult × SyncEngine) : Prop where
  tree : FileTree.Alike clocks b.2.tree l.2.tree
  file : b.2.tree.get rel = l.2.tree.get rel
  ledger : b.2.ledger = l.2.ledger
  conflicts : b.1.map (·.conflicts) = l.1.map (·.conflicts)
  manifest : ∀ q, (b.2.manifest.files.get q).map (·.unnumbered) =
    (l.2.manifest.files.get q).map (·.unnumbered)

/-- The file and its manifest entry are there before it is delivered. -/
structure AlreadyThere (h : Host) (e : SyncEngine) (rel : PathBuf) (content : Content) (m : Nat) :
    Prop where
  file : e.tree.get rel = some (.file content m)
  entry : (e.manifest.files.get rel).map (·.unnumbered) = some (.ofNode h rel (.file content m))

/-- The condition: a vetoed start meets no older transfer of the path, and no tombstone resurfaces
    against an admitted one, unless nothing is to be written. -/
structure DeliversAlike (h : Host) (e : SyncEngine) (rel : PathBuf) (content : Content) (m : Nat)
    (a : Option Nat) : Prop where
  noOlder : (e.vetoFor rel a m).isSome = true → e.inProgress.get rel = none
  stays : e.vetoFor rel a m = none → e.ledger.Resurfaces rel a m → AlreadyThere h e rel content m

section

variable {h start fin : Host} {e : SyncEngine} {rel : PathBuf} {content : Content} {m seq : Nat}
  {a : Option Nat} {bundleId : Nat} {xs : List (Host × UInt32 × Content)}

/-- The clocks of a bundle and of the start and the end of a large file. -/
def clocksOf (h start fin : Host) (now now' : Nat) : Prop :=
  now = h.nowMs ∧ (now' = start.nowMs ∨ now' = fin.nowMs)

/-- Two copies made within a second have the same name. -/
theorem copyAside_alike {clocks : Nat → Nat → Prop} (hsecs : fin.unixSecs = h.unixSecs)
    (hnow : clocks h.nowMs fin.nowMs) {t : Tree} {n : FileNode Content} (hn : t.get rel = some n)
    (nodeId : String) :
    (SyncEngine.copyAside fin nodeId t rel).2 = (SyncEngine.copyAside h nodeId t rel).2 ∧
      FileTree.Alike clocks (SyncEngine.copyAside h nodeId t rel).1
        (SyncEngine.copyAside fin nodeId t rel).1 ∧
      ∃ k, (SyncEngine.copyAside h nodeId t rel).1.get rel = some k := by
  unfold SyncEngine.copyAside
  rw [hsecs]
  dsimp only
  cases t.read rel with
  | none => exact ⟨rfl, .refl _ t, n, hn⟩
  | some old =>
    have hfails : ∀ now now' : Nat, t.write (conflictCopyName rel nodeId h.unixSecs) old now = none →
        t.write (conflictCopyName rel nodeId h.unixSecs) old now' = none := by
      intro now now' hnone
      rw [FileTree.write_eq_none_iff] at hnone ⊢
      exact hnone
    simp only [Option.bind_some]
    cases hw : t.write (conflictCopyName rel nodeId h.unixSecs) old h.nowMs with
    | none =>
      rw [hfails h.nowMs fin.nowMs hw]
      exact ⟨rfl, .refl _ t, n, hn⟩
    | some t₁ =>
      cases hw' : t.write (conflictCopyName rel nodeId h.unixSecs) old fin.nowMs with
      | none =>
        rw [hfails fin.nowMs h.nowMs hw'] at hw
        cases hw
      | some t₂ =>
        refine ⟨rfl, (FileTree.Alike.refl _ t).write (.inr hnow) hw hw', ?_⟩
        rw [FileTree.get_write hw]
        split
        · exact ⟨_, rfl⟩
        · exact ⟨n, hn⟩

/-- From a tree to which the start has added the parents, the end writes what the bundle does. -/
theorem write_after_start (hstart : ∀ op, start.fails op = false)
    (hok : ∀ op, h.fails op = false) (hfin : ∀ op, fin.fails op = false)
    (hblake : fin.blake3 = h.blake3) (hsecs : fin.unixSecs = h.unixSecs) {x : Hash} {t t' : Tree}
    (hdirs : h.createDirAll (e.settled h rel x).1 rel.dropLast = some t)
    (hwrite : t.write rel content m = some t') :
    ∃ s, start.createDirAll e.tree rel.dropLast = some s ∧ s.get rel = e.tree.get rel ∧
      ∀ e₂ : SyncEngine, e₂.tree = s → e₂.manifest = e.manifest → e₂.nodeId = e.nodeId →
        (e₂.settled fin rel x).2 = (e.settled h rel x).2 ∧
        ∃ s', (e₂.settled fin rel x).1.write rel content m = some s' ∧
          FileTree.Alike (clocksOf h start fin) t' s' := by
  have hroot : rel ≠ [] := by
    rintro rfl
    rw [FileTree.write_eq_none_iff.mpr (.inl rfl)] at hwrite
    cases hwrite
  -- A conflict is looked for in the same file on both sides.
  have hdetect : ∀ e₂ : SyncEngine, e₂.tree.get rel = e.tree.get rel → e₂.manifest = e.manifest →
      e₂.detectConflict fin rel x = e.detectConflict h rel x := by
    intro e₂ hget hmanifest
    have hhash : fin.hashFile e₂.tree rel = h.hashFile e.tree rel := by
      simp [Host.hashFile, hok, hfin, hblake, FileTree.read, hget]
    rw [SyncEngine.detectConflict, SyncEngine.detectConflict, hmanifest, hhash]
  by_cases hconflict : (e.detectConflict h rel x).isSome = true
  · obtain ⟨n, hn⟩ := SyncEngine.exists_of_detectConflict hconflict
    have hparents : start.createDirAll e.tree rel.dropLast = some e.tree := by
      simp [Host.createDirAll, hstart, FileTree.createDirAll_of_get hn]
    refine ⟨e.tree, hparents, rfl, fun e₂ htree hmanifest hnode => ?_⟩
    have hsettled₂ : e₂.settled fin rel x = SyncEngine.copyAside fin e.nodeId e.tree rel := by
      rw [SyncEngine.settled, hdetect e₂ (by rw [htree]) hmanifest, if_pos hconflict, htree, hnode]
    have hsettled : e.settled h rel x = SyncEngine.copyAside h e.nodeId e.tree rel := by
      rw [SyncEngine.settled, if_pos hconflict]
    rw [hsettled] at hdirs
    rw [hsettled, hsettled₂]
    have hcopies : (SyncEngine.copyAside fin e.nodeId e.tree rel).2 =
          (SyncEngine.copyAside h e.nodeId e.tree rel).2 ∧
        FileTree.Alike (clocksOf h start fin) (SyncEngine.copyAside h e.nodeId e.tree rel).1
          (SyncEngine.copyAside fin e.nodeId e.tree rel).1 ∧
        ∃ k, (SyncEngine.copyAside h e.nodeId e.tree rel).1.get rel = some k :=
      copyAside_alike hsecs ⟨rfl, .inr rfl⟩ hn e.nodeId
    obtain ⟨hsame, halike, k, hk⟩ := hcopies
    refine ⟨hsame, ?_⟩
    have hnone : h.createDirAll (SyncEngine.copyAside h e.nodeId e.tree rel).1 rel.dropLast =
        some (SyncEngine.copyAside h e.nodeId e.tree rel).1 := by
      simp [Host.createDirAll, hok, FileTree.createDirAll_of_get hk]
    obtain rfl := Option.some.inj (hnone.symm.trans hdirs)
    obtain ⟨s', hs'⟩ := Option.isSome_iff_exists.mp
      (halike.write_isSome (Option.isSome_iff_exists.mpr ⟨t', hwrite⟩))
    exact ⟨s', hs', halike.write (.inl rfl) hwrite hs'⟩
  · have hsettled : e.settled h rel x = (e.tree, none) := by
      rw [SyncEngine.settled, if_neg hconflict]
    rw [hsettled] at hdirs ⊢
    have hcreate : e.tree.createDirAll h.nowMs rel.dropLast = some t := by
      simpa [Host.createDirAll, hok] using hdirs
    have hsome : (e.tree.createDirAll start.nowMs rel.dropLast).isSome = true := by
      rw [FileTree.createDirAll_isSome_iff, ← FileTree.createDirAll_isSome_iff h.nowMs]
      exact Option.isSome_iff_exists.mpr ⟨t, hcreate⟩
    obtain ⟨s, hs⟩ := Option.isSome_iff_exists.mp hsome
    have hget : s.get rel = e.tree.get rel := by
      rw [FileTree.get_createDirAll hs, if_neg]
      exact fun hc => FileTree.not_prefix_dropLast hroot hc.2.1
    refine ⟨s, by simp [Host.createDirAll, hstart, hs], hget, fun e₂ htree hmanifest hnode => ?_⟩
    have hsettled₂ : e₂.settled fin rel x = (s, none) := by
      rw [SyncEngine.settled, hdetect e₂ (by rw [htree, hget]) hmanifest, if_neg hconflict, htree]
    rw [hsettled₂]
    refine ⟨rfl, ?_⟩
    have halike : FileTree.Alike (clocksOf h start fin) t s :=
      (FileTree.Alike.refl _ e.tree).createDirAll ⟨rfl, .inl rfl⟩ hcreate hs
    obtain ⟨s', hs'⟩ := Option.isSome_iff_exists.mp
      (halike.write_isSome (Option.isSome_iff_exists.mpr ⟨t', hwrite⟩))
    exact ⟨s', hs', halike.write (.inl rfl) hwrite hs'⟩

/-- All chunks have come: the counter has wrapped just as the announced number has. -/
theorem received_all (hne : content ≠ []) (hlen : content.length ≤ 2 ^ 32 * fileChunkSize)
    (hxs : (xs.map (·.2)).Perm (fileChunks content)) :
    UInt32.ofNat (xs.map (·.2.1)).toFinset.card = totalChunks content.length := by
  have hnums : (xs.map (·.2.1)).Perm ((fileChunks content).map (·.1)) := by
    have hmap := hxs.map (·.1)
    rwa [List.map_map] at hmap
  have hpos := List.length_pos_of_ne_nil hne
  rw [List.toFinset_card_of_nodup (hnums.nodup_iff.mpr (nodup_fileChunks hlen)), hnums.length_eq,
    List.length_map, length_fileChunks, totalChunks]
  congr 1
  unfold fileChunkSize
  omega

/-- A large file whose start is admitted: the commit is vetoed, or it writes the file. -/
theorem deliverLarge_admitted (seq : Nat) (hstart : ∀ op, start.fails op = false)
    (hfin : ∀ op, fin.fails op = false) (hchunks : ∀ x ∈ xs, ∀ op, x.1.fails op = false)
    (hblake : fin.blake3 = h.blake3) (hsafe : safeRelative rel = true) (hne : content ≠ [])
    (hlen : content.length ≤ 2 ^ 32 * fileChunkSize)
    (hxs : (xs.map (·.2)).Perm (fileChunks content)) (hveto : e.vetoFor rel a m = none) {s : Tree}
    (hdirs : start.createDirAll e.tree rel.dropLast = some s) :
    ∃ e₂ : SyncEngine, e₂.tree = s ∧ e₂.manifest = e.manifest ∧ e₂.nodeId = e.nodeId ∧
      (e.ledger.Resurfaces rel a m →
        ∃ e', SyncEngine.deliverLarge start fin xs e (fileMetadata h rel content m seq) a =
          (some .committed, e') ∧ e'.tree = s ∧ e'.ledger = (e.admitRecord rel a m).ledger ∧
          e'.manifest = e.manifest) ∧
      ∀ s', ¬ e.ledger.Resurfaces rel a m →
        (e₂.settled fin rel (h.blake3 content)).1.write rel content m = some s' →
        ∃ r e', SyncEngine.deliverLarge start fin xs e (fileMetadata h rel content m seq) a =
            (some r, e') ∧ e'.tree = s' ∧
          r.conflicts = (e₂.settled fin rel (h.blake3 content)).2.toList ∧
          e'.ledger = (e.admitRecord rel a m).ledger ∧
          e'.manifest = { e.manifest with
            files := e.manifest.files.insert rel (.ofNode h rel (.file content m)) } := by
  obtain ⟨dirty, file, suppressed, hbegin⟩ := @SyncEngine.begin_eq start e hstart
    (fileMetadata h rel content m seq) hsafe a hveto s hdirs (totalChunks content.length)
  -- The engine after the start, and the assembly it keeps.
  obtain ⟨e₁, asm, hbegin, hasm, hold, hpending, hnew, hledger, htree, hmanifest, hnode⟩ :
      ∃ (e₁ : SyncEngine) (asm : LargeFileAssembly),
        e.beginLargeFileWithAction start (fileMetadata h rel content m seq)
          (totalChunks content.length) a = (true, e₁) ∧
        e₁.inProgress.get rel = some asm ∧
        e₁.staging.get asm.tmp = some (.replicate content.length 0) ∧
        asm.finalHashPending = none ∧
        (asm.received = ∅ ∧ asm.totalChunks = totalChunks content.length ∧ asm.dst = rel ∧
          asm.fileSize = content.length ∧ asm.modifiedMs = m ∧ asm.actionMs = a) ∧
        e₁.ledger = (e.admitRecord rel a m).ledger ∧ e₁.tree = s ∧ e₁.manifest = e.manifest ∧
        e₁.nodeId = e.nodeId :=
    ⟨_, _, hbegin, (FinMap.get_insert ..).trans (if_pos rfl),
      (FinMap.get_insert ..).trans (if_pos rfl), rfl,      ⟨rfl, rfl, rfl, rfl, rfl, rfl⟩, rfl, rfl, rfl, rfl⟩
  obtain ⟨hreceived, htotal, hdst, hsize, hmtime, hstamp⟩ := hnew
  obtain ⟨staging, inProgress, hcollect, hasm₂, hstaging⟩ :=
    SyncEngine.receiveChunks_collects hchunks hasm hpending hold
  rw [writeChunks_perm hlen hxs (List.length_replicate ..)] at hstaging
  rw [hreceived, Finset.empty_union] at hasm₂
  generalize he₂ : ({ e₁ with staging := staging, inProgress := inProgress } : SyncEngine) = e₂
    at hcollect
  have hledger₂ : e₂.ledger = (e.admitRecord rel a m).ledger := by rw [← he₂]; exact hledger
  have hasm₂ : e₂.inProgress.get rel =
      some { asm with received := (xs.map (·.2.1)).toFinset } := by rw [← he₂]; exact hasm₂
  have hstaging₂ : e₂.staging.get asm.tmp = some content := by rw [← he₂]; exact hstaging
  have hmanifest₂ : e₂.manifest = e.manifest := by rw [← he₂]; exact hmanifest
  -- The end finds all the chunks and commits.
  have hend : SyncEngine.deliverLarge start fin xs e (fileMetadata h rel content m seq) a =
      e₂.commitLargeFile fin rel (h.blake3 content) := by
    have hcount : ¬ UInt32.ofNat (xs.map (·.2.1)).toFinset.card < asm.totalChunks := by
      rw [received_all hne hlen hxs, htotal]
      exact UInt32.lt_irrefl _
    show ((e.beginLargeFileWithAction start (fileMetadata h rel content m seq)
      (totalChunks content.length) a).2.receiveChunks rel xs).finishLargeFile fin rel
        (h.blake3 content) = _
    rw [hbegin, hcollect]
    unfold SyncEngine.finishLargeFile
    simp only [hasm₂, LargeFileAssembly.receivedCount, hcount, if_false]
  have hagain : e₂.vetoFor rel a m = (e.admitRecord rel a m).vetoFor rel a m :=
    SyncEngine.vetoFor_congr hledger₂ rel a m
  have hresurface := SyncEngine.vetoFor_admitted hveto
  rw [← hagain] at hresurface
  refine ⟨e₂, by rw [← he₂]; exact htree, hmanifest₂, by rw [← he₂]; exact hnode, ?_, ?_⟩
  · intro hback
    have hvetoed := hresurface.mpr hback
    rw [← hmtime, ← hstamp] at hvetoed
    rw [hend, SyncEngine.commit_vetoed hasm₂ hvetoed]
    exact ⟨_, rfl, by rw [← he₂]; exact htree, hledger₂, hmanifest₂⟩
  · intro s' hstays hwrite
    have hadmitted : e₂.vetoFor rel asm.actionMs asm.modifiedMs = none := by
      rw [hmtime, hstamp, ← Option.not_isSome_iff_eq_none]
      exact fun hsome => hstays (hresurface.mp hsome)
    rw [← hmtime] at hwrite
    obtain ⟨r, e', hcommit, htree', hconflicts, hledger', hmanifest'⟩ :=
      SyncEngine.commit_written hfin hasm₂ hdst hadmitted hstaging₂ (by rw [hblake]) hwrite
    refine ⟨r, e', by rw [hend, hcommit], htree', hconflicts, ?_, ?_⟩
    · rw [hledger']
      show (e₂.admitRecord rel asm.actionMs asm.modifiedMs).ledger = _
      rw [hmtime, hstamp, SyncEngine.ledger_admitRecord_congr hledger₂,
        SyncEngine.ledger_admitRecord_admitRecord]
    · have hentry : ({ relPath := rel, size := asm.fileSize, hash := h.blake3 content
                       modifiedMs := asm.modifiedMs, changeSequence := 0
                       isDir := false } : FileMetadata) = .ofNode h rel (.file content m) := by
        rw [hsize, hmtime]
        rfl
      rw [hmanifest', hmanifest₂, ← hentry]

/-- A bundle whose file is admitted, field by field. -/
theorem deliverSmall_admitted (hok : ∀ op, h.fails op = false) (hsafe : safeRelative rel = true)
    (hveto : e.vetoFor rel a m = none) {r : ApplyResult} {e' : SyncEngine}
    (hr : e.deliverSmall h (fileMetadata h rel content m seq) content a bundleId = (some r, e')) :
    ∃ t t', h.createDirAll (e.settled h rel (h.blake3 content)).1 rel.dropLast = some t ∧
      t.write rel content m = some t' ∧ e'.tree = t' ∧
      r.conflicts = (e.settled h rel (h.blake3 content)).2.toList ∧
      e'.ledger = (e.admitRecord rel a m).ledger ∧
      e'.manifest = { e.manifest with
        files := e.manifest.files.insert rel (fileMetadata h rel content m seq) } :=
  @SyncEngine.deliverSmall_written h e hok (fileMetadata h rel content m seq) hsafe rfl a hveto
    content bundleId r e' hr

/-- A vetoed start of a path without a transfer changes nothing, and nor does what follows. -/
theorem deliverLarge_vetoed (hsafe : safeRelative rel = true)
    (hveto : (e.vetoFor rel a m).isSome = true) (hnone : e.inProgress.get rel = none) :
    SyncEngine.deliverLarge start fin xs e (fileMetadata h rel content m seq) a =
      (some .committed, e) := by
  have hbegin : e.beginLargeFileWithAction start (fileMetadata h rel content m seq)
      (totalChunks content.length) a = (true, e) := by
    have hsafe' : safeRelative (fileMetadata h rel content m seq).relPath = true := hsafe
    have hveto' : (e.vetoFor (fileMetadata h rel content m seq).relPath a
        (fileMetadata h rel content m seq).modifiedMs).isSome = true := hveto
    unfold SyncEngine.beginLargeFileWithAction
    simp only [hsafe', hveto', Bool.not_true, Bool.false_eq_true, if_false, if_true]
  show ((e.beginLargeFileWithAction start (fileMetadata h rel content m seq)
    (totalChunks content.length) a).2.receiveChunks rel xs).finishLargeFile fin rel
      (h.blake3 content) = _
  rw [hbegin, SyncEngine.receiveChunks_unknown hnone]
  simp only [SyncEngine.finishLargeFile, hnone]

/-- What is there already is written again: nothing changes. -/
theorem AlreadyThere.settled (hthere : AlreadyThere h e rel content m) :
    e.settled h rel (h.blake3 content) = (e.tree, none) := by
  have hnoconflict : e.detectConflict h rel (h.blake3 content) = none := by
    unfold SyncEngine.detectConflict
    cases hentry : e.manifest.files.get rel with
    | none => rfl
    | some md =>
      have hsame := hthere.entry
      rw [hentry] at hsame
      have hhash : md.hash = h.blake3 content :=
        congrArg FileMetadata.hash (Option.some.inj hsame)
      simp [hhash]
  rw [SyncEngine.settled, hnoconflict, Option.isSome_none, if_neg (by simp)]

/-- The condition suffices, and where no older transfer is in the way it is needed. -/
theorem deliveries_agree_iff (hok : ∀ op, h.fails op = false)
    (hstart : ∀ op, start.fails op = false) (hfin : ∀ op, fin.fails op = false)
    (hchunks : ∀ x ∈ xs, ∀ op, x.1.fails op = false) (hblake : fin.blake3 = h.blake3)
    (hsecs : fin.unixSecs = h.unixSecs) (hsafe : safeRelative rel = true) (hne : content ≠ [])
    (hlen : content.length ≤ 2 ^ 32 * fileChunkSize)
    (hxs : (xs.map (·.2)).Perm (fileChunks content))
    (hwritten : (e.deliverSmall h (fileMetadata h rel content m seq) content a bundleId).1.isSome) :
    (DeliversAlike h e rel content m a →
      DeliveriesAgree (clocksOf h start fin) rel
        (e.deliverSmall h (fileMetadata h rel content m seq) content a bundleId)
        (SyncEngine.deliverLarge start fin xs e (fileMetadata h rel content m seq) a)) ∧
    (((e.vetoFor rel a m).isSome = true → e.inProgress.get rel = none) →
      DeliveriesAgree (clocksOf h start fin) rel
        (e.deliverSmall h (fileMetadata h rel content m seq) content a bundleId)
        (SyncEngine.deliverLarge start fin xs e (fileMetadata h rel content m seq) a) →
      DeliversAlike h e rel content m a) := by
  cases hveto : e.vetoFor rel a m with
  | some tomb =>
    have hsome : (e.vetoFor rel a m).isSome = true := by rw [hveto]; rfl
    constructor
    · intro halike
      have hsmall := @SyncEngine.deliverSmall_vetoed h e (fileMetadata h rel content m seq) hsafe a
        hsome content bundleId
      rw [hsmall, deliverLarge_vetoed hsafe hsome (halike.noOlder hsome)]
      refine ⟨?_, ?_, ?_, rfl, fun q => ?_⟩
      · rw [SyncEngine.flushLedger_tree]
        exact .refl _ _
      · rw [SyncEngine.flushLedger_tree]
      · rw [SyncEngine.ledger_flushLedger]
      · rw [SyncEngine.flushLedger_manifest]
    · intro hnone _
      exact ⟨fun _ => hnone rfl, fun h => by rw [hveto] at h; cases h⟩
  | none =>
    obtain ⟨r, hr⟩ := Option.isSome_iff_exists.mp hwritten
    obtain ⟨e', hsmall⟩ : ∃ e', e.deliverSmall h (fileMetadata h rel content m seq) content a bundleId =
        (some r, e') := ⟨_, Prod.ext hr rfl⟩
    obtain ⟨t, t', hdirs, hwrite, htree, hconflicts, hledger, hmanifest⟩ :=
      deliverSmall_admitted hok hsafe hveto hsmall
    obtain ⟨s, hparents, hget, hmeet⟩ :=
      write_after_start hstart hok hfin hblake hsecs hdirs hwrite
    obtain ⟨e₂, htree₂, hmanifest₂, hnode₂, hback, hgo⟩ :=
      deliverLarge_admitted seq hstart hfin hchunks hblake hsafe hne hlen hxs hveto hparents
    have hfile : t'.get rel = some (.file content m) := by
      rw [FileTree.get_write hwrite, if_pos rfl]
    have hentry : (fileMetadata h rel content m seq).unnumbered = .ofNode h rel (.file content m) := rfl
    rw [hsmall]
    by_cases hresurface : e.ledger.Resurfaces rel a m
    · obtain ⟨e'', hlarge, htree'', hledger'', hmanifest''⟩ := hback hresurface
      rw [hlarge]
      constructor
      · intro halike
        have hthere := halike.stays hveto hresurface
        rw [hthere.settled] at hdirs hconflicts
        have hsame : t = e.tree := by
          rw [Host.createDirAll, hok, if_neg (by simp), FileTree.createDirAll_of_get hthere.file] at hdirs
          exact (Option.some.inj hdirs).symm
        have hsame' : s = e.tree := by
          rw [Host.createDirAll, hstart, if_neg (by simp),
            FileTree.createDirAll_of_get hthere.file] at hparents
          exact (Option.some.inj hparents).symm
        have hrewritten : t' = e.tree := by
          refine FileTree.ext_get fun q => ?_
          rw [FileTree.get_write hwrite, hsame]
          split
          · next hq => rw [hq, hthere.file]
          · rfl
        refine ⟨?_, ?_, hledger.trans hledger''.symm, ?_, fun q => ?_⟩
        · show FileTree.Alike _ e'.tree e''.tree
          rw [htree, hrewritten, htree'', hsame']
          exact .refl _ _
        · show e'.tree.get rel = e''.tree.get rel
          rw [htree, hrewritten, htree'', hsame']
        · show some r.conflicts = some []
          rw [hconflicts]
          rfl
        · show (e'.manifest.files.get q).map _ = (e''.manifest.files.get q).map _
          rw [hmanifest, hmanifest'', FinMap.get_insert]
          split
          · next hq => rw [hq, hthere.entry, Option.map_some, hentry]
          · rfl
      · intro _ hagree
        refine ⟨fun hsome => (by rw [hveto] at hsome; cases hsome), fun _ _ => ⟨?_, ?_⟩⟩
        · have hsame := hagree.file
          dsimp only at hsame
          rw [htree, hfile, htree'', hget] at hsame
          exact hsame.symm
        · have hsame := hagree.manifest rel
          dsimp only at hsame
          rw [hmanifest, hmanifest'', FinMap.get_insert, if_pos rfl, Option.map_some, hentry] at hsame
          exact hsame.symm
    · obtain ⟨hcopies, s', hs', halike⟩ := hmeet e₂ htree₂ hmanifest₂ hnode₂
      obtain ⟨r', e'', hlarge, htree'', hconflicts'', hledger'', hmanifest''⟩ :=
        hgo s' hresurface hs'
      rw [hlarge]
      constructor
      · intro _
        refine ⟨?_, ?_, ?_, ?_, fun q => ?_⟩
        · show FileTree.Alike _ e'.tree e''.tree
          rw [htree, htree'']
          exact halike
        · show e'.tree.get rel = e''.tree.get rel
          rw [htree, htree'', hfile, FileTree.get_write hs', if_pos rfl]
        · exact hledger.trans hledger''.symm
        · show some r.conflicts = some r'.conflicts
          rw [hconflicts, hconflicts'', hcopies]
        · show (e'.manifest.files.get q).map _ = (e''.manifest.files.get q).map _
          rw [hmanifest, hmanifest'', FinMap.get_insert, FinMap.get_insert]
          split
          · rfl
          · rfl
      · intro _ _
        exact ⟨fun hsome => (by rw [hveto] at hsome; cases hsome), fun _ h => absurd h hresurface⟩

end

/-! ## The failing inputs -/

/-- An engine that knows that `d/x` was deleted at 100 and then `d` at 200. -/
def deletedTwice : SyncEngine :=
  .new "node" (fun _ => false) .empty
    ((DeletionLedger.new.record (.ofNames ["d", "x"]) 100 "node" none none).record
      (.ofNames ["d"]) 200 "node" none none)

/-- An engine whose only file is in a catch-up transfer with the mtime 60; a delete at 50 came
    after the start. -/
def deletedInTransfer : SyncEngine :=
  let h := Host.reliable (fun _ => 0) 1000
  let e := (SyncEngine.new "node" (fun _ => false) .empty .new).beginLargeFileWithAction h
    (fileMetadata h (.ofNames ["a"]) [1] 60 0) 1 none
  (e.2.applyDeletes h [.ofNames ["a"]] 50 "node").2

/-- A live write of `d/x` at 150 is newer than the tombstone of the file, which then no longer
    hides the one of the directory. And a write of `a` that the delete vetoes is taken up by the
    older transfer. -/
theorem deliveries_differ :
    let h := Host.reliable (fun _ => 0) 1000
    let x := fileMetadata h (.ofNames ["d", "x"]) [1] 10 0
    let y := fileMetadata h (.ofNames ["a"]) [1] 10 0
    (safeRelative x.relPath = true ∧ (deletedTwice.deliverSmall h x [1] (some 150) 0).1.isSome ∧
      ¬ DeliveriesAgree (clocksOf h h h) x.relPath (deletedTwice.deliverSmall h x [1] (some 150) 0)
        (SyncEngine.deliverLarge h h [(h, 0, [1])] deletedTwice x (some 150))) ∧
    (safeRelative y.relPath = true ∧ (deletedInTransfer.deliverSmall h y [1] (some 40) 0).1.isSome ∧
      ¬ DeliveriesAgree (clocksOf h h h) y.relPath
        (deletedInTransfer.deliverSmall h y [1] (some 40) 0)
        (SyncEngine.deliverLarge h h [(h, 0, [1])] deletedInTransfer y (some 40))) := by
  refine ⟨⟨by decide +kernel, by decide +kernel, fun hagree => ?_⟩,
    by decide +kernel, by decide +kernel, fun hagree => ?_⟩
  · have hfile := hagree.file
    revert hfile
    decide +kernel
  · have hfile := hagree.file
    revert hfile
    decide +kernel

/-- Into a new engine both deliveries write the file. -/
theorem deliveries_agree_new :
    let h := Host.reliable (fun _ => 0) 1000
    let e := SyncEngine.new "node" (fun _ => false) .empty .new
    let rel := PathBuf.ofNames ["a"]
    DeliveriesAgree (clocksOf h h h) rel
      (e.deliverSmall h (fileMetadata h rel [1] 10 0) [1] (some 40) 0)
      (SyncEngine.deliverLarge h h [(h, 0, [1])] e (fileMetadata h rel [1] 10 0) (some 40)) := by
  have hcond : DeliversAlike (.reliable (fun _ => 0) 1000)
      (SyncEngine.new "node" (fun _ => false) .empty .new) (PathBuf.ofNames ["a"]) [1] 10
      (some 40) := by
    refine ⟨fun _ => rfl, fun _ hback => ?_⟩
    obtain ⟨q, t, -, -, ht, -⟩ := hback.outlasts
    cases ht
  refine (deliveries_agree_iff (fun _ => rfl) (fun _ => rfl) (fun _ => rfl) ?_ rfl rfl rfl ?_ ?_ ?_
    ?_).1 hcond
  · intro x hx op
    rw [List.mem_singleton.mp hx]
    rfl
  · exact List.cons_ne_nil 1 []
  · decide
  · exact List.Perm.of_eq (by decide +kernel)
  · decide +kernel

end ByteHive
