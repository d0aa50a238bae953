import ByteHive.Spec.ChunkedTransfer
import ByteHive.Spec.Transfer

/-!
# The order of a stream

The messages of one sending thread, read in order, name the paths of its list in order. A bundle
stands for its entries, a large file for one start with its chunks and its end; `readDeliveries`
reads them back in this way, and fails where a group is broken off or mixed with another message.

Between two rounds of the loop the messages and the pending bundle together stand for the paths so
far: `Streamed`.

## Key results

- `readDeliveries_append`: messages behind one another
- `Streamed.streamPath`: one round of the loop
- `stream_in_order`: all messages of `stream_messages`, with and without an engine
-/

namespace ByteHive

/-! ## Chunks of a content -/

theorem flatten_chunks_take {α : Type} (n k : Nat) (xs : List α) :
    ((List.range k).map fun i => (xs.drop (i * n)).take n).flatten = xs.take (k * n) := by
  induction k with
  | zero => simp
  | succ k ih =>
    rw [List.range_succ, List.map_append, List.flatten_append, ih]
    have hk : (k + 1) * n = k * n + n := Nat.succ_mul k n
    rw [hk, List.take_add]
    simp

theorem flatten_fileChunks (c : Content) : ((fileChunks c).map (·.2)).flatten = c := by
  rw [fileChunks, List.map_map]
  show ((List.range _).map fun i => (c.drop (i * fileChunkSize)).take fileChunkSize).flatten = c
  rw [flatten_chunks_take, List.take_of_length_le]
  unfold fileChunkSize
  omega

/-! ## Reading the messages -/

/-- One path as its messages deliver it. -/
inductive Delivery where
  | entry (fd : FileData)
  | large (metadata : FileMetadata) (totalChunks : UInt32) (actionMs : Option Nat)
      (chunks : List (UInt32 × Content)) (finalHash : Hash)
deriving DecidableEq, Repr

def Delivery.path : Delivery → PathBuf
  | .entry fd => fd.metadata.relPath
  | .large md _ _ _ _ => md.relPath

/-- A large file whose end has not come, with the chunks so far. -/
structure OpenGroup where
  metadata : FileMetadata
  totalChunks : UInt32
  actionMs : Option Nat
  chunks : List (UInt32 × Content)

/-- Reads messages in order, in or outside a group. -/
def readDeliveries : Option OpenGroup → List Message → Option (List Delivery)
  | none, [] => some []
  | none, .bundle b :: ms => (readDeliveries none ms).map (b.files.map .entry ++ ·)
  | none, .largeFileStart md n a :: ms => readDeliveries (some ⟨md, n, a, []⟩) ms
  | some g, .largeFileChunk p i data :: ms =>
    if g.metadata.relPath = p then
      readDeliveries (some { g with chunks := g.chunks ++ [(i, data)] }) ms
    else none
  | some g, .largeFileEnd p x :: ms =>
    if g.metadata.relPath = p then
      (readDeliveries none ms).map (.large g.metadata g.totalChunks g.actionMs g.chunks x :: ·)
    else none
  | _, _ => none

/-- Messages that are whole groups can be followed by others. -/
theorem readDeliveries_append {g : Option OpenGroup} {ms : List Message} {ds : List Delivery}
    (hms : readDeliveries g ms = some ds) (ms' : List Message) :
    readDeliveries g (ms ++ ms') = (readDeliveries none ms').map (ds ++ ·) := by
  fun_induction readDeliveries g ms generalizing ds with
  | case1 =>
    obtain rfl := Option.some.inj hms
    cases h : readDeliveries none ms' <;> simp [h]
  | case2 b ms ih =>
    obtain ⟨ds', hds', rfl⟩ := Option.map_eq_some_iff.mp hms
    rw [List.cons_append, readDeliveries, ih hds', Option.map_map]
    simp [Function.comp_def]
  | case3 md n a ms ih => exact ih hms
  | case4 g i data ms ih =>
    rw [List.cons_append, readDeliveries, if_pos rfl]
    exact ih hms
  | case5 => cases hms
  | case6 g x ms ih =>
    obtain ⟨ds', hds', rfl⟩ := Option.map_eq_some_iff.mp hms
    rw [List.cons_append, readDeliveries, if_pos rfl, ih hds', Option.map_map]
    simp [Function.comp_def]
  | case7 => cases hms
  | case8 => cases hms

/-- The chunks of a group and its end. -/
theorem readDeliveries_group (g : OpenGroup) (cs : List (UInt32 × Content)) (x : Hash) :
    readDeliveries (some g) ((cs.map fun c => .largeFileChunk g.metadata.relPath c.1 c.2) ++
        [.largeFileEnd g.metadata.relPath x]) =
      some [.large g.metadata g.totalChunks g.actionMs (g.chunks ++ cs) x] := by
  induction cs generalizing g with
  | nil => simp [readDeliveries]
  | cons c cs ih =>
    rw [List.map_cons, List.cons_append, readDeliveries, if_pos rfl]
    have hrest := ih { g with chunks := g.chunks ++ [c] }
    rw [List.append_assoc] at hrest
    exact hrest

/-! ## The loop -/

section

variable (h : Host) (t : Tree) (stamp : PathBuf → Nat → Option Nat)

/-- The delivery is that of the node at `p`; the sequence number is the engine's. -/
inductive Delivers (p : PathBuf) : Delivery → Prop where
  | dir {m seq : Nat} (hget : t.get p = some (.dir m)) :
      Delivers p (.entry ⟨⟨p, 0, 0, m, seq, true⟩, [], stamp p m⟩)
  | small {c : Content} {m seq : Nat} (hget : t.get p = some (.file c m))
      (hsize : c.length < largeFileThreshold) :
      Delivers p (.entry ⟨⟨p, c.length, h.blake3 c, m, seq, false⟩, c, stamp p m⟩)
  | large {c : Content} {m seq : Nat} {n : UInt32} {chunks : List (UInt32 × Content)}
      (hget : t.get p = some (.file c m)) (hsize : largeFileThreshold ≤ c.length)
      (hnumbers : chunks.map (·.1) = (List.range n.toNat).map UInt32.ofNat)
      (hcontent : (chunks.map (·.2)).flatten = c) :
      Delivers p (.large ⟨p, c.length, h.blake3 c, m, seq, false⟩ n (stamp p m) chunks (h.blake3 c))

/-- The deliveries are those of the listed paths that exist, in order. -/
def DeliversAll (ps : List PathBuf) (ds : List Delivery) : Prop :=
  List.Forall₂ (Delivers h t stamp) (ps.filter fun p => (t.get p).isSome) ds

/-- What was sent and what is pending stand for the paths `ps`. -/
def Streamed (ps : List PathBuf) (s : BundlerRun) : Prop :=
  ∃ ds, readDeliveries none s.sent = some ds ∧ DeliversAll h t stamp ps (ds ++ s.cur.map .entry)

variable {h t stamp} {ps : List PathBuf} {p : PathBuf} {s : BundlerRun}

theorem Delivers.path_eq {d : Delivery} (hd : Delivers h t stamp p d) : d.path = p := by
  cases hd with
  | dir _ => rfl
  | small _ _ => rfl
  | large _ _ _ _ => rfl

theorem DeliversAll.map_path {ds : List Delivery} (hds : DeliversAll h t stamp ps ds) :
    ds.map Delivery.path = ps.filter fun p => (t.get p).isSome := by
  unfold DeliversAll at hds
  generalize (ps.filter fun p => (t.get p).isSome) = qs at hds ⊢
  induction hds with
  | nil => rfl
  | cons hd _ ih => rw [List.map_cons, hd.path_eq, ih]

theorem DeliversAll.gone {ds : List Delivery} (hds : DeliversAll h t stamp ps ds)
    (hp : t.get p = none) : DeliversAll h t stamp (ps ++ [p]) ds := by
  unfold DeliversAll at *
  rw [List.filter_append]
  simpa [hp] using hds

theorem DeliversAll.concat {ds : List Delivery} {d : Delivery}
    (hds : DeliversAll h t stamp ps ds) (hp : (t.get p).isSome = true)
    (hd : Delivers h t stamp p d) : DeliversAll h t stamp (ps ++ [p]) (ds ++ [d]) := by
  unfold DeliversAll at *
  have hone : [p].filter (fun p => (t.get p).isSome) = [p] := by simp [hp]
  rw [List.filter_append, hone]
  exact List.rel_append hds (.cons hd .nil)

theorem changeSequence_eq (s : BundlerRun) (rel : PathBuf) :
    ∃ seq e, s.changeSequence rel = (seq, { s with engine := e }) := by
  obtain ⟨cur, bytes, sent, id, engine⟩ := s
  cases engine with
  | none => exact ⟨0, none, rfl⟩
  | some e => exact ⟨_, _, rfl⟩

theorem flushBundle_cur (s : BundlerRun) : s.flushBundle.cur = [] := by
  unfold BundlerRun.flushBundle
  split
  · next hnil => exact hnil
  · rfl

/-- `flush_bundle`: what was pending is sent. -/
theorem Streamed.flush (hs : Streamed h t stamp ps s) : Streamed h t stamp ps s.flushBundle := by
  obtain ⟨ds, hread, hds⟩ := hs
  unfold BundlerRun.flushBundle
  split
  · exact ⟨ds, hread, hds⟩
  · refine ⟨ds ++ s.cur.map .entry, ?_, ?_⟩
    · rw [readDeliveries_append hread]
      simp [readDeliveries]
    · rw [List.map_nil, List.append_nil]
      exact hds

/-- A small node waits in the bundle. -/
theorem Streamed.push (hs : Streamed h t stamp ps s) {fd : FileData}
    (hp : (t.get p).isSome = true) (hd : Delivers h t stamp p (.entry fd)) (bytes : Nat)
    (e : Option SyncEngine) :
    Streamed h t stamp (ps ++ [p]) { s with cur := s.cur ++ [fd], curBytes := bytes, engine := e } := by
  obtain ⟨ds, hread, hds⟩ := hs
  refine ⟨ds, hread, ?_⟩
  rw [List.map_append, ← List.append_assoc]
  exact hds.concat hp hd

/-- `stream_large_file`, behind the bundle. -/
theorem Streamed.streamLargeFile (hs : Streamed h t stamp ps s) (hcur : s.cur = [])
    (hread : ∀ p, h.fails (.read p) = false) {c : Content} {m : Nat}
    (hget : t.get p = some (.file c m)) (hlarge : largeFileThreshold ≤ c.length)
    (hcount : (c.length + fileChunkSize - 1) / fileChunkSize < 2 ^ 32) :
    Streamed h t stamp (ps ++ [p]) (s.streamLargeFile h stamp p c m) := by
  obtain ⟨ds, hsent, hds⟩ := hs
  obtain ⟨seq, e, hseq⟩ := changeSequence_eq s p
  have hne : c ≠ [] := by
    rintro rfl
    simp [largeFileThreshold] at hlarge
  unfold BundlerRun.streamLargeFile
  simp only [hread, Bool.false_eq_true, if_false, hseq]
  refine ⟨ds ++ [.large ⟨p, c.length, h.blake3 c, m, seq, false⟩ (totalChunks c.length) (stamp p m)
    (fileChunks c) (h.blake3 c)], ?_, ?_⟩
  · rw [List.append_assoc, List.append_assoc, readDeliveries_append hsent, List.singleton_append,
      readDeliveries]
    have hgroup := readDeliveries_group ⟨⟨p, c.length, h.blake3 c, m, seq, false⟩,
      totalChunks c.length, stamp p m, []⟩ (fileChunks c) (h.blake3 c)
    dsimp only at hgroup
    rw [hgroup, List.nil_append, Option.map_some]
  · rw [hcur] at hds ⊢
    rw [List.map_nil, List.append_nil] at hds ⊢
    exact hds.concat (by simp [hget])
      (.large hget hlarge (map_fst_fileChunks hne hcount) (flatten_fileChunks c))

/-- One round of the loop of `stream_messages`. -/
theorem Streamed.streamPath (hs : Streamed h t stamp ps s)
    (hread : ∀ p, h.fails (.read p) = false)
    (hcount : ∀ p c m, t.get p = some (.file c m) →
      (c.length + fileChunkSize - 1) / fileChunkSize < 2 ^ 32) :
    Streamed h t stamp (ps ++ [p]) (s.streamPath h t stamp p) := by
  unfold BundlerRun.streamPath
  split
  · next hgone =>
    obtain ⟨ds, hsent, hds⟩ := hs
    exact ⟨ds, hsent, hds.gone hgone⟩
  · next m hget =>
    obtain ⟨seq, e, hseq⟩ := changeSequence_eq s p
    rw [hseq]
    exact hs.push (by simp [hget]) (.dir hget) s.curBytes e
  · next c m hget =>
    split
    · next hlarge =>
      exact hs.flush.streamLargeFile (flushBundle_cur s) hread hget hlarge (hcount p c m hget)
    · next hsmall =>
      rw [if_neg (by simp [hread])]
      -- With or without a flush before it, the file is pushed.
      have hpush : ∀ s' : BundlerRun, Streamed h t stamp ps s' →
          Streamed h t stamp (ps ++ [p]) { (s'.changeSequence p).2 with
            cur := (s'.changeSequence p).2.cur ++ [⟨⟨p, c.length, h.blake3 c, m,
              (s'.changeSequence p).1, false⟩, c, stamp p m⟩]
            curBytes := (s'.changeSequence p).2.curBytes + c.length } := by
        intro s' hs'
        obtain ⟨seq, e, hseq⟩ := changeSequence_eq s' p
        rw [hseq]
        exact hs'.push (by simp [hget]) (.small hget (by omega)) _ e
      dsimp only
      split
      · exact hpush _ hs.flush
      · exact hpush _ hs

/-- The whole loop, from an empty bundle. -/
theorem streamed_loop (hread : ∀ p, h.fails (.read p) = false)
    (hcount : ∀ p c m, t.get p = some (.file c m) →
      (c.length + fileChunkSize - 1) / fileChunkSize < 2 ^ 32)
    (ps : List PathBuf) (nextBundleId : Nat) (e : Option SyncEngine) :
    Streamed h t stamp ps
      (ps.foldl (BundlerRun.streamPath h t stamp) ⟨[], 0, [], nextBundleId, e⟩) := by
  induction ps using List.reverseRecOn with
  | nil => exact ⟨[], rfl, .nil⟩
  | append_singleton ps p ih =>
    rw [List.foldl_append]
    exact ih.streamPath hread hcount

variable (h t stamp ps) in
/-- The messages, read in order, deliver the listed paths that exist, in order and each once. -/
def SentInOrder (ms : List Message) : Prop :=
  ∃ ds, readDeliveries none ms = some ds ∧ DeliversAll h t stamp ps ds ∧
    ds.map Delivery.path = (ps.filter fun p => (t.get p).isSome) ∧ (ds.map Delivery.path).Nodup

theorem Streamed.sentInOrder (hs : Streamed h t stamp ps s) (hps : ps.Nodup) :
    SentInOrder h t stamp ps s.flushBundle.sent := by
  obtain ⟨ds, hread, hds⟩ := hs.flush
  rw [flushBundle_cur, List.map_nil, List.append_nil] at hds
  refine ⟨ds, hread, hds, hds.map_path, ?_⟩
  rw [hds.map_path]
  exact hps.filter _

end

/-- For every tree whose files can all be read and every list of distinct paths,
    `stream_messages` delivers the paths of the list that exist, in order and each once, with the
    contents that they have; whether or not an engine numbers them. -/
theorem stream_in_order (h : Host) (hread : ∀ p, h.fails (.read p) = false) (t : Tree)
    (hcount : ∀ p c m, t.get p = some (.file c m) →
      (c.length + fileChunkSize - 1) / fileChunkSize < 2 ^ 32)
    (ps : List PathBuf) (hps : ps.Nodup) (stamp : PathBuf → Nat → Option Nat)
    (nextBundleId : Nat) :
    SentInOrder h t stamp ps (streamMessages h t ps stamp nextBundleId) ∧
      ∀ e : SyncEngine, e.tree = t →
        SentInOrder h t stamp ps (streamMessagesWith h e ps stamp nextBundleId).1 := by
  constructor
  · exact (streamed_loop hread hcount ps nextBundleId none).sentInOrder hps
  · rintro e rfl
    exact (streamed_loop hread hcount ps nextBundleId (some e)).sentInOrder hps

/-! ### Two files -/

/-- Two small files. -/
def twoFiles : Tree :=
  ((FileTree.empty.write [.normal "a"] [1, 2] 7).bind fun t =>
    t.write [.normal "b"] [3] 8).getD .empty

/-- They are sent in the order of the list, without the path between them that is not there. -/
theorem twoFiles_in_order :
    SentInOrder (.reliable (fun _ => 0) 0) twoFiles (fun _ m => some m)
      [[.normal "b"], [.normal "c"], [.normal "a"]]
      (streamMessages (.reliable (fun _ => 0) 0) twoFiles
        [[.normal "b"], [.normal "c"], [.normal "a"]] (fun _ m => some m) 1) := by
  refine (stream_in_order _ (fun _ => rfl) twoFiles ?_ _ (by decide) _ 1).1
  intro p c m hget
  replace hget : (if p = [.normal "b"] then some (FileNode.file [3] 8)
    else if p = [.normal "a"] then some (FileNode.file [1, 2] 7) else none) = some (.file c m) :=
    hget
  split at hget
  · obtain ⟨rfl, -⟩ := FileNode.file.inj (Option.some.inj hget)
    decide
  · split at hget
    · obtain ⟨rfl, -⟩ := FileNode.file.inj (Option.some.inj hget)
      decide
    · cases hget

end ByteHive
