import ByteHive.Native.Retransmission
import ByteHive.Spec.ChunkedTransfer

/-!
# One round of missing chunks

The chunks that are sent again are chunks as they were sent the first time, and all that are asked
for are sent. So one answer to the end of a large file is enough: when what it asks for has come,
in whatever order and with whatever else of the transfer, the file is there.
-/

namespace ByteHive

variable {content : Content} {h : Host} {e : SyncEngine} {rel : PathBuf} {sends : Nat}
  {unreadable : UInt32 → Bool} {asked : List UInt32}

/-! ## What is sent again -/

/-- Only behind the end of the file a chunk is empty. -/
theorem chunkAt_ne_nil_iff {i : UInt32} :
    chunkAt content i ≠ [] ↔
      i.toNat < (content.length + fileChunkSize - 1) / fileChunkSize := by
  have hlen : (chunkAt content i).length =
      min fileChunkSize (content.length - i.toNat * fileChunkSize) := by
    rw [chunkAt, List.length_take, List.length_drop]
  rw [← List.length_pos_iff_ne_nil, hlen]
  unfold fileChunkSize
  omega

/-- A chunk within the file is the one that was sent the first time. -/
theorem mem_fileChunks_iff
    (hcount : (content.length + fileChunkSize - 1) / fileChunkSize < 2 ^ 32)
    {x : UInt32 × Content} :
    x ∈ fileChunks content ↔ x.2 = chunkAt content x.1 ∧ chunkAt content x.1 ≠ [] := by
  rw [chunkAt_ne_nil_iff]
  constructor
  · have hlen : content.length ≤ 2 ^ 32 * fileChunkSize := by
      unfold fileChunkSize at *
      omega
    exact mem_fileChunks hlen
  · rintro ⟨hdata, hnum⟩
    refine List.mem_map.mpr ⟨x.1.toNat, List.mem_range.mpr hnum, ?_⟩
    rw [UInt32.ofNat_toNat, ← chunkAt, ← hdata]

theorem handleRequestChunks_read (hread : e.tree.read rel = some content)
    (hok : h.fails (.read rel) = false) :
    handleRequestChunks h e rel unreadable sends asked =
      ((asked.filter fun i => !unreadable i && decide (chunkAt content i ≠ [])).map
        fun i => (i, chunkAt content i)).take sends := by
  rw [handleRequestChunks, hok, hread]
  rfl

/-- Whatever is asked for and whatever fails, what is sent are chunks of the file. -/
theorem handleRequestChunks_mem
    (hcount : (content.length + fileChunkSize - 1) / fileChunkSize < 2 ^ 32)
    (hread : e.tree.read rel = some content) {x : UInt32 × Content}
    (hx : x ∈ handleRequestChunks h e rel unreadable sends asked) :
    x ∈ fileChunks content ∧ x.1 ∈ asked := by
  cases hok : h.fails (.read rel) with
  | true =>
    rw [handleRequestChunks, hok] at hx
    cases hx
  | false =>
    rw [handleRequestChunks_read hread hok] at hx
    obtain ⟨i, hi, rfl⟩ := List.mem_map.mp (List.mem_of_mem_take hx)
    obtain ⟨hasked, hi⟩ := List.mem_filter.mp hi
    obtain ⟨-, hne⟩ := Bool.and_eq_true_iff.mp hi
    exact ⟨(mem_fileChunks_iff hcount).mpr ⟨rfl, of_decide_eq_true hne⟩, hasked⟩

/-- Where nothing fails, what is asked for is sent, in the order in which it is asked for. -/
theorem handleRequestChunks_all (hread : e.tree.read rel = some content)
    (hok : h.fails (.read rel) = false) (hasked : ∀ i ∈ asked, chunkAt content i ≠ [])
    (hsends : asked.length ≤ sends) :
    handleRequestChunks h e rel (fun _ => false) sends asked =
      asked.map fun i => (i, chunkAt content i) := by
  have hall : asked.filter (fun i => !false && decide (chunkAt content i ≠ [])) = asked := by
    apply List.filter_eq_self.mpr
    intro i hi
    simpa using hasked i hi
  rw [handleRequestChunks_read hread hok, hall, List.take_of_length_le]
  rw [List.length_map]
  exact hsends

/-! ## The round -/

section

variable {ms ms' : List TransferMessage}

theorem arrived_append : arrived (ms ++ ms') = arrived ms ++ arrived ms' :=
  List.filterMap_append

theorem mem_gotChunks {i : UInt32} : i ∈ gotChunks ms ↔ ∃ data, (i, data) ∈ arrived ms := by
  rw [gotChunks, List.mem_toFinset, List.mem_map]
  constructor
  · rintro ⟨x, hx, rfl⟩
    exact ⟨x.2, hx⟩
  · rintro ⟨data, hdata⟩
    exact ⟨(i, data), hdata, rfl⟩

/-- The chunks that are missing are chunks of the file. -/
theorem chunkAt_missing (hne : content ≠ [])
    (hcount : (content.length + fileChunkSize - 1) / fileChunkSize < 2 ^ 32) {i : UInt32}
    (hi : i ∈ missingChunks content ms) : chunkAt content i ≠ [] := by
  have hrange := (List.mem_filter.mp hi).1
  rw [← map_fst_fileChunks hne hcount] at hrange
  obtain ⟨x, hx, rfl⟩ := List.mem_map.mp hrange
  exact ((mem_fileChunks_iff hcount).mp hx).2

/-- With the end, what had come and what was missing, everything has arrived. -/
theorem allArrived_of_missing (hne : content ≠ [])
    (hcount : (content.length + fileChunkSize - 1) / fileChunkSize < 2 ^ 32) {fin : Host}
    (hcame : ∀ i ∈ missingChunks content ms, i ∈ gotChunks ms') :
    AllArrived content (ms ++ .finish fin :: ms') := by
  constructor
  · simp [ended]
  · rw [missingChunks_eq_nil_iff hne hcount]
    intro y hy
    have harrived : arrived (ms ++ .finish fin :: ms') = arrived ms ++ arrived ms' :=
      arrived_append
    rw [mem_gotChunks, harrived]
    -- A chunk came before the end, or was missing then and has come since.
    by_cases hgot : y.1 ∈ gotChunks ms
    · obtain ⟨data, hdata⟩ := mem_gotChunks.mp hgot
      exact ⟨data, List.mem_append_left _ hdata⟩
    · have hrange : y.1 ∈ (List.range (totalChunks content.length).toNat).map UInt32.ofNat := by
        rw [← map_fst_fileChunks hne hcount]
        exact List.mem_map_of_mem hy
      have hmissing : y.1 ∈ missingChunks content ms :=
        List.mem_filter.mpr ⟨hrange, by simp [hgot]⟩
      obtain ⟨data, hdata⟩ := mem_gotChunks.mp (hcame _ hmissing)
      exact ⟨data, List.mem_append_right _ hdata⟩

/-- The answer to an end that is not a commit names what has not come. -/
theorem Transferring.names_missing {asm : LargeFileAssembly} {e₁ : SyncEngine} {σ : TransferRun}
    (hne : content ≠ [])
    (hcount : (content.length + fileChunkSize - 1) / fileChunkSize < 2 ^ 32)
    (hopen : Opened rel content asm e₁) {fin : Host} (hms : ∀ m ∈ ms, m.Of fin.blake3 content)
    (hfin : ∀ op, fin.fails op = false)
    (hσ : Transferring rel (fin.blake3 content) content asm e₁ ms σ) {missing : List UInt32}
    {e' : SyncEngine}
    (hanswer : σ.engine.handleRecvLargeFileEnd fin rel (fin.blake3 content) =
      (some (.missingChunks missing), e')) : missing = missingChunks content ms := by
  cases hσ with
  | pending hwaits hw hcommits =>
    obtain ⟨-, e'', heq, -⟩ | ⟨-, r, e'', heq, hr, -⟩ := hw.handleEnd hne hcount hopen hms hfin
    · rw [heq] at hanswer
      cases hanswer
      rfl
    · rw [heq] at hanswer
      cases hanswer
      cases hr
  | committed hdone hgone hread hcommits =>
    -- The assembly is gone, and an end without one is answered as committed.
    rw [SyncEngine.handleRecvLargeFileEnd, SyncEngine.finishLargeFile, hgone] at hanswer
    cases hanswer

/-- The end of a large file is answered with exactly the chunks that have not come. A server that
    still has the file sends them all, as they were; when they have come, in any order and mixed
    with any other messages of the transfer, the file has been committed once and has its
    content. -/
theorem one_round_suffices (content : Content) (hne : content ≠ [])
    (hcount : (content.length + fileChunkSize - 1) / fileChunkSize < 2 ^ 32)
    (e : SyncEngine) (start : Host) (hstart : ∀ op, start.fails op = false) (md : FileMetadata)
    (a : Option Nat) (hsize : md.size = content.length) (hsafe : safeRelative md.relPath = true)
    (hwritable : Writable e.tree md.relPath)
    (hveto : e.vetoFor md.relPath (clampFutureStampOpt start a) md.modifiedMs = none)
    (hagain : (e.admitRecord md.relPath (clampFutureStampOpt start a) md.modifiedMs).vetoFor
      md.relPath (clampFutureStampOpt start a) md.modifiedMs = none)
    (fin : Host) (hfin : ∀ op, fin.fails op = false)
    (ms : List TransferMessage) (hms : ∀ m ∈ ms, m.Of fin.blake3 content)
    {missing : List UInt32} {e' : SyncEngine}
    (hanswer : (ms.foldl (TransferRun.step md.relPath (fin.blake3 content))
      ⟨(e.handleRecvLargeFileStart start md (totalChunks content.length) a).2,
        0⟩).engine.handleRecvLargeFileEnd fin md.relPath (fin.blake3 content) =
          (some (.missingChunks missing), e'))
    (server : SyncEngine) (hserver : server.tree.read md.relPath = some content)
    (sh : Host) (hopen : sh.fails (.read md.relPath) = false)
    (sends : Nat) (hsends : missing.length ≤ sends)
    (ms' : List TransferMessage) (hms' : ∀ m ∈ ms', m.Of fin.blake3 content)
    (hcame : ∀ y ∈ handleRequestChunks sh server md.relPath (fun _ => false) sends missing,
      y ∈ arrived ms') :
    missing = missingChunks content ms ∧
      handleRequestChunks sh server md.relPath (fun _ => false) sends missing =
        missing.map (fun i => (i, chunkAt content i)) ∧
      ((ms ++ .finish fin :: ms').foldl (TransferRun.step md.relPath (fin.blake3 content))
        ⟨(e.handleRecvLargeFileStart start md (totalChunks content.length) a).2, 0⟩).commits = 1 ∧
      ((ms ++ .finish fin :: ms').foldl (TransferRun.step md.relPath (fin.blake3 content))
        ⟨(e.handleRecvLargeFileStart start md (totalChunks content.length) a).2,
          0⟩).engine.tree.read md.relPath = some content := by
  obtain ⟨asm, e₁, hbegin, hopened, hwaiting⟩ :=
    opened_start hstart hsize hsafe hwritable hveto hagain (fin.blake3 content)
  rw [hbegin] at hanswer ⊢
  have hasked : missing = missingChunks content ms :=
    (Transferring.run hne hcount hopened hwaiting hms).names_missing hne hcount hopened hms hfin
      hanswer
  have hsent : handleRequestChunks sh server md.relPath (fun _ => false) sends missing =
      missing.map fun i => (i, chunkAt content i) := by
    apply handleRequestChunks_all hserver hopen _ hsends
    intro i hi
    exact chunkAt_missing hne hcount (hasked ▸ hi)
  have hdone : AllArrived content (ms ++ .finish fin :: ms') := by
    apply allArrived_of_missing hne hcount
    intro i hi
    rw [← hasked] at hi
    have hin : (i, chunkAt content i) ∈ arrived ms' := by
      apply hcame
      rw [hsent]
      exact List.mem_map.mpr ⟨i, hi, rfl⟩
    exact mem_gotChunks.mpr ⟨_, hin⟩
  have hall : ∀ m ∈ ms ++ .finish fin :: ms', m.Of fin.blake3 content := by
    intro m hm
    rcases List.mem_append.mp hm with hm | hm
    · exact hms m hm
    · rcases List.mem_cons.mp hm with rfl | hm
      · exact ⟨rfl, hfin⟩
      · exact hms' m hm
  -- The whole is one more run of the transfer, with the end in the middle.
  have hrun := Transferring.run hne hcount hopened hwaiting hall
  refine ⟨hasked, hsent, ?_⟩
  cases hrun with
  | pending hwaits => exact absurd hdone hwaits
  | committed _ _ hread hcommits => exact ⟨hcommits, hread⟩

end

/-- A file of one byte and the engine that is sent it. -/
def byteFile : FileMetadata := ⟨PathBuf.ofNames ["f"], 1, 0, 10, 0, false⟩

def byteReceiver : SyncEngine := .new "client" (fun _ => false) .empty .new

/-- The server that has the file. -/
def byteServer : SyncEngine :=
  .new "server" (fun _ => false)
    ((FileTree.empty.write (PathBuf.ofNames ["f"]) [7] 10).getD .empty) .new

/-- The only chunk comes after the end, when it has been asked for. -/
theorem one_round_suffices_byte :
    let h := Host.reliable (fun _ => 0) 1000
    let started : TransferRun :=
      ⟨(byteReceiver.handleRecvLargeFileStart h byteFile (totalChunks 1) none).2, 0⟩
    (started.engine.handleRecvLargeFileEnd h byteFile.relPath 0).1 = some (.missingChunks [0]) ∧
      handleRequestChunks h byteServer byteFile.relPath (fun _ => false) 1 [0] = [(0, [7])] ∧
      ([TransferMessage.finish h, .chunk h 0 [7]].foldl
        (TransferRun.step byteFile.relPath 0) started).commits = 1 := by
  intro h started
  have hanswer : (started.engine.handleRecvLargeFileEnd h byteFile.relPath 0).1 =
      some (.missingChunks [0]) := by decide +kernel
  have hsent : handleRequestChunks h byteServer byteFile.relPath (fun _ => false) 1 [0] =
      [(0, [7])] := by decide +kernel
  have hwritable : Writable (FileTree.empty : Tree) byteFile.relPath :=
    ⟨by decide, fun q _ _ => rfl, by decide +kernel⟩
  have hcame : ∀ y ∈ handleRequestChunks h byteServer byteFile.relPath (fun _ => false) 1 [0],
      y ∈ arrived [.chunk h 0 [7]] := by
    intro y hy
    rw [hsent] at hy
    exact hy
  have hlast : ∀ m ∈ [TransferMessage.chunk h 0 [7]], m.Of h.blake3 [7] := by
    intro m hm
    rw [List.mem_singleton.mp hm]
    exact ⟨by decide +kernel, rfl, fun _ => rfl⟩
  have hround := one_round_suffices [7] (by decide) (by decide) byteReceiver h (fun _ => rfl)
    byteFile none rfl (by decide) hwritable (by decide +kernel) (by decide +kernel) h
    (fun _ => rfl) [] (by simp) (Prod.ext hanswer rfl) byteServer (by decide +kernel) h rfl 1
    (by simp) [.chunk h 0 [7]] hlast hcame
  exact ⟨hanswer, hsent, hround.2.2.1⟩

end ByteHive
