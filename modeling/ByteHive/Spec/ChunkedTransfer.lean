import ByteHive.Spec.DeliveryForms
import ByteHive.Spec.LargeFileCommit
import ByteHive.Spec.LiveWrites

/-!
# Chunks in any order

The chunks of a large file may come in any order and more than once, and the end may come before
them: then the engine names the missing chunks and commits with the last of them. The chunks write
their parts of a staging file of the announced size; which of them came is counted by their numbers.

## Key results

- `Transferring.step`: one message of a transfer
- `transfer_reassembles`: every sequence of the messages of a transfer
-/

namespace ByteHive

/-! ## The messages of a transfer -/

/-- A message for an open transfer, on the host that handles it. -/
inductive TransferMessage where
  | chunk (h : Host) (chunkIndex : UInt32) (data : Content)
  | finish (h : Host)

namespace TransferMessage

/-- The message belongs to the transfer of `content`, and no call fails when it is handled. -/
def Of (blake3 : Content → Hash) (content : Content) : TransferMessage → Prop
  | .chunk h i data =>
    (i, data) ∈ fileChunks content ∧ h.blake3 = blake3 ∧ ∀ op, h.fails op = false
  | .finish h => h.blake3 = blake3 ∧ ∀ op, h.fails op = false

end TransferMessage

/-- The chunks that came. -/
def arrived (ms : List TransferMessage) : List (UInt32 × Content) :=
  ms.filterMap fun m =>
    match m with
    | .chunk _ i data => some (i, data)
    | .finish _ => none

/-- The numbers of these chunks. -/
def gotChunks (ms : List TransferMessage) : Finset UInt32 := ((arrived ms).map (·.1)).toFinset

/-- The end came. -/
def ended (ms : List TransferMessage) : Bool :=
  ms.any fun m =>
    match m with
    | .chunk _ _ _ => false
    | .finish _ => true

/-- The numbers below `total_chunks` of the chunks that did not come, in order. -/
def missingChunks (content : Content) (ms : List TransferMessage) : List UInt32 :=
  ((List.range (totalChunks content.length).toNat).map UInt32.ofNat).filter fun i =>
    !decide (i ∈ gotChunks ms)

/-- An engine, with the number of times that a transfer of the path was taken out of it to be
    committed. -/
structure TransferRun where
  engine : SyncEngine
  commits : Nat

namespace TransferRun

/-- One message of the transfer of `rel`, whose end carries the hash `x`. -/
def step (rel : PathBuf) (x : Hash) (σ : TransferRun) (m : TransferMessage) : TransferRun :=
  let e := match m with
    | .chunk h i data => (σ.engine.handleRecvLargeFileChunk h rel i data).2
    | .finish h => (σ.engine.handleRecvLargeFileEnd h rel x).2
  ⟨e, σ.commits +
    if (σ.engine.inProgress.get rel).isSome && (e.inProgress.get rel).isNone then 1 else 0⟩

end TransferRun

section

variable {content : Content} {ms : List TransferMessage} {m : TransferMessage}

@[simp] theorem arrived_chunk (h : Host) (i : UInt32) (data : Content) :
    arrived (ms ++ [.chunk h i data]) = arrived ms ++ [(i, data)] := by
  simp [arrived]

@[simp] theorem arrived_finish (h : Host) : arrived (ms ++ [.finish h]) = arrived ms := by
  simp [arrived]

@[simp] theorem ended_chunk (h : Host) (i : UInt32) (data : Content) :
    ended (ms ++ [.chunk h i data]) = ended ms := by
  simp [ended]

@[simp] theorem ended_finish (h : Host) : ended (ms ++ [.finish h]) = true := by
  simp [ended]

theorem gotChunks_chunk (h : Host) (i : UInt32) (data : Content) :
    gotChunks (ms ++ [.chunk h i data]) = insert i (gotChunks ms) := by
  unfold gotChunks
  rw [arrived_chunk, List.map_append, List.toFinset_append]
  ext j
  simp

@[simp] theorem gotChunks_finish (h : Host) : gotChunks (ms ++ [.finish h]) = gotChunks ms := by
  unfold gotChunks
  rw [arrived_finish]

/-! ## Counting chunks -/

theorem toNat_totalChunks (hne : content ≠ [])
    (hcount : (content.length + fileChunkSize - 1) / fileChunkSize < 2 ^ 32) :
    (totalChunks content.length).toNat = (fileChunks content).length := by
  have hpos := List.length_pos_of_ne_nil hne
  rw [totalChunks, length_fileChunks, UInt32.toNat_ofNat']
  unfold fileChunkSize at *
  omega

theorem map_fst_fileChunks (hne : content ≠ [])
    (hcount : (content.length + fileChunkSize - 1) / fileChunkSize < 2 ^ 32) :
    (fileChunks content).map (·.1) =
      (List.range (totalChunks content.length).toNat).map UInt32.ofNat := by
  rw [toNat_totalChunks hne hcount, length_fileChunks, fileChunks, List.map_map]
  rfl

theorem missingChunks_eq_nil_iff (hne : content ≠ [])
    (hcount : (content.length + fileChunkSize - 1) / fileChunkSize < 2 ^ 32) :
    missingChunks content ms = [] ↔ ∀ x ∈ fileChunks content, x.1 ∈ gotChunks ms := by
  unfold missingChunks
  rw [← map_fst_fileChunks hne hcount, List.filter_eq_nil_iff]
  simp

/-- As many chunks as announced came exactly if none is missing. -/
theorem card_gotChunks (hne : content ≠ [])
    (hcount : (content.length + fileChunkSize - 1) / fileChunkSize < 2 ^ 32)
    (hms : ∀ x ∈ arrived ms, x ∈ fileChunks content) :
    (gotChunks ms).card ≤ (totalChunks content.length).toNat ∧
      ((gotChunks ms).card = (totalChunks content.length).toNat ↔
        missingChunks content ms = []) := by
  have hlen : content.length ≤ 2 ^ 32 * fileChunkSize := by
    unfold fileChunkSize at *
    omega
  have hall : ((fileChunks content).map (·.1)).toFinset.card =
      (totalChunks content.length).toNat := by
    rw [List.toFinset_card_of_nodup (nodup_fileChunks hlen), List.length_map,
      toNat_totalChunks hne hcount]
  have hsub : gotChunks ms ⊆ ((fileChunks content).map (·.1)).toFinset := by
    intro i hi
    obtain ⟨x, hx, rfl⟩ := List.mem_map.mp (List.mem_toFinset.mp hi)
    exact List.mem_toFinset.mpr (List.mem_map_of_mem (hms x hx))
  refine ⟨hall ▸ Finset.card_le_card hsub, ?_⟩
  rw [missingChunks_eq_nil_iff hne hcount]
  constructor
  · intro hcard x hx
    rw [Finset.eq_of_subset_of_card_le hsub (by rw [hall, hcard])]
    exact List.mem_toFinset.mpr (List.mem_map_of_mem hx)
  · intro hgot
    rw [← hall]
    congr 1
    refine Finset.Subset.antisymm hsub fun i hi => ?_
    obtain ⟨x, hx, rfl⟩ := List.mem_map.mp (List.mem_toFinset.mp hi)
    exact hgot x hx

/-- The same for the counter, which does not wrap. -/
theorem receivedCount_iff (hne : content ≠ [])
    (hcount : (content.length + fileChunkSize - 1) / fileChunkSize < 2 ^ 32)
    (hms : ∀ x ∈ arrived ms, x ∈ fileChunks content) :
    (UInt32.ofNat (gotChunks ms).card < totalChunks content.length ↔
      missingChunks content ms ≠ []) ∧
    (UInt32.ofNat (gotChunks ms).card = totalChunks content.length ↔
      missingChunks content ms = []) := by
  obtain ⟨hle, hiff⟩ := card_gotChunks hne hcount hms
  have hnum : (UInt32.ofNat (gotChunks ms).card).toNat = (gotChunks ms).card := by
    have hlt := (totalChunks content.length).toNat_lt
    rw [UInt32.toNat_ofNat']
    omega
  constructor
  · rw [UInt32.lt_iff_toNat_lt, hnum, Ne, ← hiff]
    omega
  · rw [← UInt32.toNat_inj, hnum, hiff]

end

/-! ## The commit -/

namespace SyncEngine

variable {h : Host} {e : SyncEngine} {rel : PathBuf}

/-- A commit never asks for chunks. -/
theorem isCommitted_commit {x : Hash} {r : FinishResult} {e' : SyncEngine}
    (hr : e.commitLargeFile h rel x = (some r, e')) : r.isCommitted = true := by
  have hcommitted : ∀ {r : FinishResult}, some FinishResult.committed = some r →
      r.isCommitted = true := by
    intro r hr
    rw [← Option.some.inj hr]
    rfl
  unfold commitLargeFile at hr
  split at hr
  · exact hcommitted (Prod.mk.inj hr).1
  · dsimp only at hr
    split at hr
    · exact hcommitted (Prod.mk.inj hr).1
    · split at hr
      · cases hr
      · split at hr
        · cases hr
        · split at hr
          · cases hr
          · unfold installLargeFile at hr
            dsimp only at hr
            split at hr
            · cases hr
            · obtain rfl := Option.some.inj (Prod.mk.inj hr).1
              split <;> rfl

/-- The conflict copy neither makes nor removes a directory. -/
theorem isDir_settled (x : Hash) (q : PathBuf) :
    (e.settled h rel x).1.isDir q = e.tree.isDir q := by
  unfold settled copyAside
  split
  · dsimp only
    cases e.tree.read rel with
    | none => rfl
    | some old =>
      rw [Option.bind_some]
      cases hw : e.tree.write (conflictCopyName rel e.nodeId h.unixSecs) old h.nowMs with
      | none => rfl
      | some t => exact FileTree.isDir_write hw q
  · rfl

/-- A commit of the whole content, where nothing is in the way. -/
theorem commit_content (hok : ∀ op, h.fails op = false) {asm : LargeFileAssembly}
    (hasm : e.inProgress.get rel = some asm) (hdst : asm.dst = rel)
    (hveto : e.vetoFor rel asm.actionMs asm.modifiedMs = none) {content : Content}
    (hstaging : e.staging.get asm.tmp = some content) (hroot : rel ≠ [])
    (hparent : e.tree.isDir rel.dropLast = true) (hfile : e.tree.isDir rel = false) :
    ∃ r e', e.commitLargeFile h rel (h.blake3 content) = (some r, e') ∧ r.isCommitted = true ∧
      e'.inProgress.get rel = none ∧ e'.tree.read rel = some content := by
  obtain ⟨t, hwrite⟩ : ∃ t, (e.settled h rel (h.blake3 content)).1.write rel content
      asm.modifiedMs = some t := by
    rw [← Option.ne_none_iff_exists', Ne, FileTree.write_eq_none_iff, isDir_settled, isDir_settled]
    simp [hroot, hparent, hfile]
  obtain ⟨r, e', hcommit, htree, -⟩ :=
    commit_written hok hasm hdst hveto hstaging rfl hwrite
  obtain ⟨hgone, -⟩ := Transfers.commit_installs hasm (by simp [hveto]) hcommit
  refine ⟨r, e', hcommit, isCommitted_commit hcommit, by simpa using hgone, ?_⟩
  rw [htree, FileTree.read_write hwrite, if_pos rfl]

end SyncEngine

/-! ## One message -/

/-- The transfer `asm` has been opened in `e₁` for `content`, and nothing is in the way of it. -/
structure Opened (rel : PathBuf) (content : Content) (asm : LargeFileAssembly) (e₁ : SyncEngine) :
    Prop where
  dst : asm.dst = rel
  total : asm.totalChunks = totalChunks content.length
  unvetoed : e₁.vetoFor rel asm.actionMs asm.modifiedMs = none
  root : rel ≠ []
  parent : e₁.tree.isDir rel.dropLast = true
  file : e₁.tree.isDir rel = false

/-- The end came, and all chunks. -/
def AllArrived (content : Content) (ms : List TransferMessage) : Prop :=
  ended ms = true ∧ missingChunks content ms = []

/-- The engine `e` after the messages `ms`, with the transfer still open. -/
structure Waiting (rel : PathBuf) (x : Hash) (content : Content) (asm : LargeFileAssembly)
    (e₁ : SyncEngine) (ms : List TransferMessage) (e : SyncEngine) : Prop where
  frame : e = { e₁ with staging := e.staging, inProgress := e.inProgress }
  transfer : e.inProgress.get rel = some { asm with
    received := gotChunks ms, finalHashPending := if ended ms then some x else none }
  staged : e.staging.get asm.tmp = some (writeChunks (.replicate content.length 0) (arrived ms))

/-- The run after the messages `ms`: it waits for more, or has committed once. -/
inductive Transferring (rel : PathBuf) (x : Hash) (content : Content) (asm : LargeFileAssembly)
    (e₁ : SyncEngine) (ms : List TransferMessage) (σ : TransferRun) : Prop where
  | pending (hwaits : ¬ AllArrived content ms) (hopen : Waiting rel x content asm e₁ ms σ.engine)
      (hcommits : σ.commits = 0)
  | committed (hdone : AllArrived content ms) (hgone : σ.engine.inProgress.get rel = none)
      (hread : σ.engine.tree.read rel = some content) (hcommits : σ.commits = 1)

variable {rel : PathBuf} {content : Content} {asm : LargeFileAssembly} {e₁ : SyncEngine}
  {ms : List TransferMessage} {m : TransferMessage} {σ : TransferRun} {blake3 : Content → Hash}

/-- Nothing happens to a path without a transfer. -/
theorem TransferRun.step_gone {x : Hash} (hgone : σ.engine.inProgress.get rel = none) :
    σ.step rel x m = σ := by
  obtain ⟨e, n⟩ := σ
  have hgone : e.inProgress.get rel = none := hgone
  cases m with
  | chunk h i data =>
    have hsame : (e.handleRecvLargeFileChunk h rel i data).2 = e := by
      simp [SyncEngine.handleRecvLargeFileChunk, SyncEngine.receiveLargeFileChunk, hgone]
    simp only [step, hsame]
    simp [hgone]
  | finish h =>
    have hsame : (e.handleRecvLargeFileEnd h rel x).2 = e := by
      simp [SyncEngine.handleRecvLargeFileEnd, SyncEngine.finishLargeFile, hgone]
    simp only [step, hsame]
    simp [hgone]

theorem arrived_mem (hms : ∀ m ∈ ms, m.Of blake3 content) :
    ∀ x ∈ arrived ms, x ∈ fileChunks content := by
  intro x hx
  obtain ⟨m, hm, hxm⟩ := List.mem_filterMap.mp hx
  cases m with
  | chunk h i data =>
    obtain rfl := Option.some.inj hxm
    exact (hms _ hm).1
  | finish h => cases hxm

theorem AllArrived.append (hdone : AllArrived content ms) (m : TransferMessage) :
    AllArrived content (ms ++ [m]) := by
  obtain ⟨hended, hmissing⟩ := hdone
  have hgrows : gotChunks ms ⊆ gotChunks (ms ++ [m]) := by
    cases m with
    | chunk h i data =>
      rw [gotChunks_chunk]
      exact Finset.subset_insert i _
    | finish h => rw [gotChunks_finish]
  refine ⟨by simp [ended] at hended ⊢; exact .inl hended, ?_⟩
  unfold missingChunks at hmissing ⊢
  rw [List.filter_eq_nil_iff] at hmissing ⊢
  intro i hi hnot
  refine hmissing i hi ?_
  simp only [Bool.not_eq_true', decide_eq_false_iff_not] at hnot ⊢
  exact fun hgot => hnot (hgrows hgot)

/-- A chunk that no call fails for is written and counted. -/
theorem receiveLargeFileChunk_open {e : SyncEngine} {h : Host} (hok : ∀ op, h.fails op = false)
    (hasm : e.inProgress.get rel = some asm) {old : Content}
    (hold : e.staging.get asm.tmp = some old) (i : UInt32) (data : Content) :
    (e.receiveLargeFileChunk h rel i data).2 = { e with
        staging := e.staging.insert asm.tmp (writeAt old (i.toNat * fileChunkSize) data)
        inProgress := e.inProgress.insert rel { asm with received := insert i asm.received } } ∧
      ∀ x, (e.receiveLargeFileChunk h rel i data).1 = some (.readyToCommit x) ↔
        asm.finalHashPending = some x ∧
          UInt32.ofNat (insert i asm.received).card = asm.totalChunks := by
  unfold SyncEngine.receiveLargeFileChunk
  simp only [hasm, hold, hok, Bool.false_eq_true, if_false]
  cases hpending : asm.finalHashPending with
  | none => exact ⟨rfl, fun x => by simp⟩
  | some hash =>
    by_cases hall : UInt32.ofNat (insert i asm.received).card = asm.totalChunks
    · simp [LargeFileAssembly.receivedCount, hall]
    · simp [LargeFileAssembly.receivedCount, hall]

theorem Waiting.chunk {x : Hash} {e : SyncEngine} (hw : Waiting rel x content asm e₁ ms e)
    {h : Host} (hok : ∀ op, h.fails op = false) (i : UInt32) (data : Content) :
    Waiting rel x content asm e₁ (ms ++ [.chunk h i data])
      (e.receiveLargeFileChunk h rel i data).2 := by
  rw [(receiveLargeFileChunk_open hok hw.transfer hw.staged i data).1]
  refine ⟨?_, ?_, ?_⟩
  · rw [hw.frame]
  · dsimp only
    rw [FinMap.get_insert, if_pos rfl, gotChunks_chunk, ended_chunk]
  · dsimp only
    rw [FinMap.get_insert, if_pos rfl, arrived_chunk, writeChunks, writeChunks, List.foldl_append]
    rfl

/-- The commit that a transfer with all its chunks comes to. -/
theorem Waiting.commit (hne : content ≠ [])
    (hcount : (content.length + fileChunkSize - 1) / fileChunkSize < 2 ^ 32)
    (hopen : Opened rel content asm e₁) {x : Hash} {e : SyncEngine}
    (hw : Waiting rel x content asm e₁ ms e) (hms : ∀ m ∈ ms, m.Of blake3 content)
    (hall : missingChunks content ms = []) {h : Host} (hok : ∀ op, h.fails op = false) :
    ∃ r e', e.commitLargeFile h rel (h.blake3 content) = (some r, e') ∧ r.isCommitted = true ∧
      e'.inProgress.get rel = none ∧ e'.tree.read rel = some content := by
  have hlen : content.length ≤ 2 ^ 32 * fileChunkSize := by
    unfold fileChunkSize at *
    omega
  have hwhole : writeChunks (.replicate content.length 0) (arrived ms) = content := by
    refine writeChunks_all hlen (arrived_mem hms) ?_ (List.length_replicate ..)
    intro x hx
    obtain ⟨y, hy, hxy⟩ := List.mem_map.mp (List.mem_toFinset.mp
      ((missingChunks_eq_nil_iff hne hcount).mp hall x hx))
    -- A chunk is known by its number.
    have hdata := (mem_fileChunks hlen (arrived_mem hms y hy)).1
    have hdata' := (mem_fileChunks hlen hx).1
    have heq : y = x := Prod.ext hxy (by rw [hdata, hdata', hxy])
    rwa [← heq]
  have hstaged := hw.staged
  rw [hwhole] at hstaged
  have htree : e.tree = e₁.tree := by rw [hw.frame]
  have hledger : e.ledger = e₁.ledger := by rw [hw.frame]
  have hveto : e.vetoFor rel asm.actionMs asm.modifiedMs = none := by
    rw [SyncEngine.vetoFor_congr hledger]
    exact hopen.unvetoed
  exact SyncEngine.commit_content hok hw.transfer hopen.dst hveto hstaged hopen.root
    (htree ▸ hopen.parent) (htree ▸ hopen.file)

/-- A message that leaves the transfer open is no commit. -/
theorem TransferRun.commits_waiting {e e' : SyncEngine} {asm' : LargeFileAssembly}
    (hasm : e'.inProgress.get rel = some asm') :
    0 + (if (e.inProgress.get rel).isSome && (e'.inProgress.get rel).isNone then 1 else 0) = 0 := by
  simp [hasm]

theorem TransferRun.commits_done {e e' : SyncEngine} {asm' : LargeFileAssembly}
    (hasm : e.inProgress.get rel = some asm') (hgone : e'.inProgress.get rel = none) :
    0 + (if (e.inProgress.get rel).isSome && (e'.inProgress.get rel).isNone then 1 else 0) = 1 := by
  simp [hasm, hgone]

/-- A chunk is kept, or it is the last one after the end and commits. -/
theorem Waiting.handleChunk (hne : content ≠ [])
    (hcount : (content.length + fileChunkSize - 1) / fileChunkSize < 2 ^ 32)
    (hopen : Opened rel content asm e₁) {e : SyncEngine} {h : Host} {i : UInt32} {data : Content}
    (hw : Waiting rel (blake3 content) content asm e₁ ms e)
    (hms : ∀ m ∈ ms ++ [.chunk h i data], m.Of blake3 content) :
    (¬ AllArrived content (ms ++ [.chunk h i data]) ∧
      Waiting rel (blake3 content) content asm e₁ (ms ++ [.chunk h i data])
        (e.handleRecvLargeFileChunk h rel i data).2) ∨
    (AllArrived content (ms ++ [.chunk h i data]) ∧
      (e.handleRecvLargeFileChunk h rel i data).2.inProgress.get rel = none ∧
      (e.handleRecvLargeFileChunk h rel i data).2.tree.read rel = some content) := by
  obtain ⟨-, hblake, hok⟩ := hms (.chunk h i data) (by simp)
  subst hblake
  have hnext := hw.chunk hok i data
  have hready : ∀ x, (e.receiveLargeFileChunk h rel i data).1 = some (.readyToCommit x) ↔
      x = h.blake3 content ∧ AllArrived content (ms ++ [.chunk h i data]) := by
    intro x
    rw [(receiveLargeFileChunk_open hok hw.transfer hw.staged i data).2 x,
      ← gotChunks_chunk h i data, hopen.total, (receivedCount_iff hne hcount (arrived_mem hms)).2,
      AllArrived, ended_chunk]
    cases ended ms with
    | false => simp
    | true =>
      simp only [if_true, Option.some.injEq, true_and]
      rw [eq_comm]
  cases hr : e.receiveLargeFileChunk h rel i data with
  | mk o s =>
    rw [hr] at hnext hready
    by_cases hdone : AllArrived content (ms ++ [.chunk h i data])
    · right
      obtain ⟨r, e', hcommit, -, hgone, hread⟩ :=
        hnext.commit hne hcount hopen hms hdone.2 hok
      have ho : o = some (.readyToCommit (h.blake3 content)) := (hready _).mpr ⟨rfl, hdone⟩
      rw [SyncEngine.handleRecvLargeFileChunk, hr, ho]
      dsimp only
      rw [hcommit]
      exact ⟨hdone, hgone, hread⟩
    · left
      refine ⟨hdone, ?_⟩
      rw [SyncEngine.handleRecvLargeFileChunk, hr]
      cases o with
      | none => exact hnext
      | some c =>
        cases c with
        | pending => exact hnext
        | readyToCommit x => exact absurd ((hready x).mp rfl).2 hdone

/-- The end commits when all chunks are there; else it names the missing ones, and waits. -/
theorem Waiting.handleEnd (hne : content ≠ [])
    (hcount : (content.length + fileChunkSize - 1) / fileChunkSize < 2 ^ 32)
    (hopen : Opened rel content asm e₁) {e : SyncEngine} {h : Host}
    (hw : Waiting rel (h.blake3 content) content asm e₁ ms e)
    (hms : ∀ m ∈ ms, m.Of h.blake3 content) (hok : ∀ op, h.fails op = false) :
    (missingChunks content ms ≠ [] ∧ ∃ e',
      e.handleRecvLargeFileEnd h rel (h.blake3 content) =
        (some (.missingChunks (missingChunks content ms)), e') ∧
      Waiting rel (h.blake3 content) content asm e₁ (ms ++ [.finish h]) e') ∨
    (missingChunks content ms = [] ∧ ∃ r e',
      e.handleRecvLargeFileEnd h rel (h.blake3 content) = (some r, e') ∧ r.isCommitted = true ∧
      e'.inProgress.get rel = none ∧ e'.tree.read rel = some content) := by
  have hcounter : ({ asm with
      received := gotChunks ms
      finalHashPending := if ended ms then some (h.blake3 content) else none } :
        LargeFileAssembly).receivedCount < asm.totalChunks ↔ missingChunks content ms ≠ [] := by
    rw [hopen.total]
    exact (receivedCount_iff hne hcount (arrived_mem hms)).1
  unfold SyncEngine.handleRecvLargeFileEnd SyncEngine.finishLargeFile
  simp only [hw.transfer]
  by_cases hmissing : missingChunks content ms = []
  · right
    rw [if_neg (fun hlt => hcounter.mp hlt hmissing)]
    exact ⟨hmissing, hw.commit hne hcount hopen hms hmissing hok⟩
  · left
    have hnamed : ({ asm with
        received := gotChunks ms
        finalHashPending := if ended ms then some (h.blake3 content) else none } :
          LargeFileAssembly).missing = missingChunks content ms := by
      rw [LargeFileAssembly.missing, missingChunks, hopen.total]
    rw [if_pos (hcounter.mpr hmissing), hnamed]
    refine ⟨hmissing, _, rfl, ⟨?_, ?_, ?_⟩⟩
    · rw [hw.frame]
    · dsimp only
      rw [FinMap.get_insert, if_pos rfl, gotChunks_finish, ended_finish]
      rfl
    · rw [arrived_finish]
      exact hw.staged

theorem Transferring.step (hne : content ≠ [])
    (hcount : (content.length + fileChunkSize - 1) / fileChunkSize < 2 ^ 32)
    (hopen : Opened rel content asm e₁) (hms : ∀ m' ∈ ms ++ [m], m'.Of blake3 content)
    (hσ : Transferring rel (blake3 content) content asm e₁ ms σ) :
    Transferring rel (blake3 content) content asm e₁ (ms ++ [m])
      (σ.step rel (blake3 content) m) := by
  obtain ⟨e, n⟩ := σ
  cases hσ with
  | committed hdone hgone hread hcommits =>
    rw [TransferRun.step_gone hgone]
    exact .committed (hdone.append m) hgone hread hcommits
  | pending hwaits hw hcommits =>
    obtain rfl : n = 0 := hcommits
    cases m with
    | chunk h i data =>
      obtain ⟨hwaits', hw'⟩ | ⟨hdone, hgone, hread⟩ := hw.handleChunk hne hcount hopen hms
      · exact .pending hwaits' hw' (TransferRun.commits_waiting hw'.transfer)
      · exact .committed hdone hgone hread (TransferRun.commits_done hw.transfer hgone)
    | finish h =>
      obtain ⟨hblake, hok⟩ := hms (.finish h) (by simp)
      subst hblake
      have hms' : ∀ m ∈ ms, m.Of h.blake3 content := fun m hm => hms m (by simp [hm])
      have hmissing' : missingChunks content (ms ++ [.finish h]) = missingChunks content ms := by
        unfold missingChunks
        rw [gotChunks_finish]
      obtain ⟨hmissing, e', heq, hw'⟩ | ⟨hall, r, e', heq, -, hgone, hread⟩ :=
        hw.handleEnd hne hcount hopen hms' hok
      · have he' : (e.handleRecvLargeFileEnd h rel (h.blake3 content)).2 = e' := by rw [heq]
        rw [← he'] at hw'
        refine .pending ?_ hw' (TransferRun.commits_waiting hw'.transfer)
        rintro ⟨-, hall⟩
        exact hmissing (hmissing' ▸ hall)
      · have he' : (e.handleRecvLargeFileEnd h rel (h.blake3 content)).2 = e' := by rw [heq]
        rw [← he'] at hgone hread
        exact .committed ⟨ended_finish h, hmissing'.trans hall⟩ hgone hread
          (TransferRun.commits_done hw.transfer hgone)

/-! ## Whole transfers -/

/-- An admitted start opens the transfer. -/
theorem opened_start {e : SyncEngine} {start : Host} (hstart : ∀ op, start.fails op = false)
    {md : FileMetadata} {a : Option Nat} (hsize : md.size = content.length)
    (hsafe : safeRelative md.relPath = true) (hwritable : Writable e.tree md.relPath)
    (hveto : e.vetoFor md.relPath (clampFutureStampOpt start a) md.modifiedMs = none)
    (hagain : (e.admitRecord md.relPath (clampFutureStampOpt start a) md.modifiedMs).vetoFor
      md.relPath (clampFutureStampOpt start a) md.modifiedMs = none) (x : Hash) :
    ∃ asm e₁, e.handleRecvLargeFileStart start md (totalChunks content.length) a = (true, e₁) ∧
      Opened md.relPath content asm e₁ ∧ Waiting md.relPath x content asm e₁ [] e₁ := by
  obtain ⟨t, hdirs, hwritable', hparent, -⟩ := hwritable.createDirAll hstart
  obtain ⟨dirty, file, suppressed, hbegin⟩ := SyncEngine.begin_eq hstart hsafe hveto hdirs
    (totalChunks content.length)
  -- The assembly that the start has put in.
  let asm : LargeFileAssembly :=
    { tmp := start.blake3 (stagingKey md.relPath), totalChunks := totalChunks content.length
      received := ∅, expectedHash := md.hash, dst := md.relPath, fileSize := md.size
      modifiedMs := md.modifiedMs, actionMs := clampFutureStampOpt start a
      finalHashPending := none }
  refine ⟨asm, _, hbegin, ?opened, ?waiting⟩
  case opened =>
    refine ⟨rfl, rfl, ?_, hwritable.not_root, hparent, hwritable'.not_dir⟩
    rw [← hagain]
    exact SyncEngine.vetoFor_congr rfl _ _ _
  case waiting =>
    refine ⟨rfl, ?_, ?_⟩
    · exact (FinMap.get_insert ..).trans (if_pos rfl)
    · rw [← hsize]
      exact (FinMap.get_insert ..).trans (if_pos rfl)

/-- What a run `σ` over the messages `ms` of the transfer of `content` has come to. -/
structure Reassembled (blake3 : Content → Hash) (rel : PathBuf) (content : Content)
    (ms : List TransferMessage) (σ : TransferRun) : Prop where
  /-- An end that comes now names the missing chunks, if there are any. -/
  answers_missing : ∀ h : Host, h.blake3 = blake3 → (∀ op, h.fails op = false) →
    missingChunks content ms ≠ [] →
    (σ.engine.handleRecvLargeFileEnd h rel (blake3 content)).1 =
      some (.missingChunks (missingChunks content ms))
  answers_committed : ∀ h : Host, h.blake3 = blake3 → (∀ op, h.fails op = false) →
    missingChunks content ms = [] →
    ∃ r, (σ.engine.handleRecvLargeFileEnd h rel (blake3 content)).1 = some r ∧
      r.isCommitted = true
  /-- With the end and all chunks the file was committed, once. -/
  once : AllArrived content ms → σ.commits = 1
  whole : AllArrived content ms → σ.engine.tree.read rel = some content
  not_before : ¬ AllArrived content ms → σ.commits = 0

theorem Transferring.run (hne : content ≠ [])
    (hcount : (content.length + fileChunkSize - 1) / fileChunkSize < 2 ^ 32)
    (hopen : Opened rel content asm e₁)
    (hstart : Waiting rel (blake3 content) content asm e₁ [] e₁)
    (hms : ∀ m ∈ ms, m.Of blake3 content) :
    Transferring rel (blake3 content) content asm e₁ ms
      (ms.foldl (TransferRun.step rel (blake3 content)) ⟨e₁, 0⟩) := by
  induction ms using List.reverseRecOn with
  | nil =>
    refine .pending ?_ hstart rfl
    rintro ⟨hended, -⟩
    cases hended
  | append_singleton ms m ih =>
    rw [List.foldl_append]
    exact (ih fun m' hm' => hms m' (by simp [hm'])).step hne hcount hopen hms

/-- Every sequence of the chunks and ends of an admitted transfer, in any order and with any
    repetition, comes to the content as soon as it has the end and every chunk. -/
theorem transfer_reassembles (hne : content ≠ [])
    (hcount : (content.length + fileChunkSize - 1) / fileChunkSize < 2 ^ 32)
    (e : SyncEngine) (start : Host) (hstart : ∀ op, start.fails op = false) (md : FileMetadata)
    (a : Option Nat) (hsize : md.size = content.length) (hsafe : safeRelative md.relPath = true)
    (hwritable : Writable e.tree md.relPath)
    (hveto : e.vetoFor md.relPath (clampFutureStampOpt start a) md.modifiedMs = none)
    (hagain : (e.admitRecord md.relPath (clampFutureStampOpt start a) md.modifiedMs).vetoFor
      md.relPath (clampFutureStampOpt start a) md.modifiedMs = none)
    (hms : ∀ m ∈ ms, m.Of blake3 content) :
    Reassembled blake3 md.relPath content ms
      (ms.foldl (TransferRun.step md.relPath (blake3 content))
        ⟨(e.handleRecvLargeFileStart start md (totalChunks content.length) a).2, 0⟩) := by
  obtain ⟨asm, e₁, hbegin, hopen, hwaiting⟩ :=
    opened_start hstart hsize hsafe hwritable hveto hagain (blake3 content)
  rw [hbegin]
  have hrun := Transferring.run hne hcount hopen hwaiting hms
  generalize ms.foldl (TransferRun.step md.relPath (blake3 content)) ⟨e₁, 0⟩ = σ at hrun ⊢
  cases hrun with
  | pending hwaits hw hcommits =>
    refine ⟨?_, ?_, fun hdone => absurd hdone hwaits, fun hdone => absurd hdone hwaits,
      fun _ => hcommits⟩
    · rintro h rfl hok hmissing
      obtain ⟨-, e', heq, -⟩ | ⟨hall, -⟩ := hw.handleEnd hne hcount hopen hms hok
      · rw [heq]
      · exact absurd hall hmissing
    · rintro h rfl hok hall
      obtain ⟨hmissing, -⟩ | ⟨-, r, e', heq, hr, -⟩ := hw.handleEnd hne hcount hopen hms hok
      · exact absurd hall hmissing
      · exact ⟨r, by rw [heq], hr⟩
  | committed hdone hgone hread hcommits =>
    refine ⟨fun _ _ _ hmissing => absurd hdone.2 hmissing, ?_, fun _ => hcommits, fun _ => hread,
      fun hnot => absurd hdone hnot⟩
    intro h _ _ _
    refine ⟨.committed, ?_, rfl⟩
    simp [SyncEngine.handleRecvLargeFileEnd, SyncEngine.finishLargeFile, hgone]

/-- A file of one chunk, whose end comes first and whose chunk comes twice. -/
theorem end_before_chunk :
    let h := Host.reliable (fun _ => 0) 1000
    Reassembled (fun _ => 0) (PathBuf.ofNames ["f"]) [7]
      [.finish h, .chunk h 0 [7], .chunk h 0 [7]]
      ([TransferMessage.finish h, .chunk h 0 [7], .chunk h 0 [7]].foldl
        (TransferRun.step (PathBuf.ofNames ["f"]) 0)
        ⟨((SyncEngine.new "node" (fun _ => false) .empty .new).handleRecvLargeFileStart h
          ⟨PathBuf.ofNames ["f"], 1, 0, 10, 0, false⟩ (totalChunks 1) none).2, 0⟩) := by
  have hwritable : Writable (FileTree.empty : Tree) (PathBuf.ofNames ["f"]) :=
    ⟨by decide, fun q _ _ => rfl, by decide +kernel⟩
  refine transfer_reassembles (by decide) (by decide) _ _ (fun _ => rfl)
    ⟨PathBuf.ofNames ["f"], 1, 0, 10, 0, false⟩ none rfl (by decide) hwritable (by decide +kernel)
    (by decide +kernel) ?_
  simp only [List.mem_cons, List.not_mem_nil, or_false, forall_eq_or_imp, forall_eq]
  exact ⟨⟨rfl, fun _ => rfl⟩, ⟨by decide +kernel, rfl, fun _ => rfl⟩, by decide +kernel, rfl,
    fun _ => rfl⟩

end ByteHive
