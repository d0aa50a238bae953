import ByteHive.ForStd.Run
import ByteHive.Spec.JournalRows

/-!
# The indexes over whole runs

The journal in memory always has indexes that describe its entries exactly, and all pending seqs
between the acked mark and the next one (`Indexed`). Reading a file back keeps this as long as its
records are in order (`Replayable`): every entry has a larger number than all records before it.
An append that fails after it has written its whole line breaks that order, because the next entry
takes the same number.

Key results:
- `indexed_readRows`: reading the lines of a file back
- `always_described`: the journal after any calls, failed ones included, and restarts
-/

namespace ByteHive

/-- No stored set is empty. -/
def SeqIndex.NoEmpty (index : SeqIndex) : Prop := ∀ p set, index.get p = some set → set.keys ≠ []

namespace SeqIndex

theorem noEmpty_empty : NoEmpty .empty := nofun

theorem NoEmpty.push {index : SeqIndex} (h : index.NoEmpty) (key : PathBuf) (seq : Nat) :
    (index.push key seq).NoEmpty := by
  intro p set hset
  rw [SeqIndex.push, OrdMap.get_insert] at hset
  split at hset
  · obtain rfl := Option.some.inj hset
    simp [OrdMap.keys, OrdMap.insert]
  · exact h p set hset

theorem NoEmpty.dropIndex {index : SeqIndex} (h : index.NoEmpty) (key : PathBuf) (seq : Nat) :
    (index.dropIndex key seq).NoEmpty := by
  intro p set hset
  rw [SeqIndex.dropIndex] at hset
  split at hset
  · exact h p set hset
  · split at hset
    · rw [OrdMap.get_erase] at hset
      split at hset
      · cases hset
      · exact h p set hset
    · next hleft =>
      rw [OrdMap.get_insert] at hset
      split at hset
      · obtain rfl := Option.some.inj hset
        simpa [OrdMap.keys] using hleft
      · exact h p set hset

end SeqIndex

namespace JournalState

/-- Both indexes describe the entries exactly and hold no empty set, each entry is stored under its
    own seq, and all seqs are between the acked mark and the next one. -/
structure Described (st : JournalState) : Prop where
  byPath : ∀ p s, s ∈ st.byPath.exact p ↔ ∃ e, st.entries.get s = some e ∧ e.path = p
  byTo : ∀ q s, s ∈ st.byTo.exact q ↔ ∃ e, st.entries.get s = some e ∧ e.op = .rename q
  byPath_noEmpty : st.byPath.NoEmpty
  byTo_noEmpty : st.byTo.NoEmpty
  seq_eq : ∀ s e, st.entries.get s = some e → e.seq = s
  between : ∀ s e, st.entries.get s = some e → st.acked < s ∧ s < st.nextSeq

/-- Neither index holds an empty set. -/
structure NoEmptySets (st : JournalState) : Prop where
  byPath : st.byPath.NoEmpty
  byTo : st.byTo.NoEmpty

theorem NoEmptySets.insert {st : JournalState} (h : st.NoEmptySets) (e : JournalEntry) :
    (st.insert e).NoEmptySets := by
  refine ⟨h.byPath.push _ _, ?_⟩
  unfold JournalState.insert
  cases e.op with
  | upsert => exact h.byTo
  | delete => exact h.byTo
  | rename target => exact h.byTo.push _ _

theorem NoEmptySets.remove {st : JournalState} (h : st.NoEmptySets) (s : Nat) :
    (st.remove s).NoEmptySets := by
  unfold JournalState.remove
  split
  · exact h
  · next e he =>
    refine ⟨h.byPath.dropIndex _ _, ?_⟩
    cases e.op with
    | upsert => exact h.byTo
    | delete => exact h.byTo
    | rename target => exact h.byTo.dropIndex _ _

/-- The invariant of the journal in memory. -/
structure Indexed (st : JournalState) : Prop where
  wellFormed : st.WellFormed
  noEmptySets : st.NoEmptySets
  bounded : st.Bounded

theorem indexed_init : init.Indexed :=
  ⟨wellFormed_init, ⟨SeqIndex.noEmpty_empty, SeqIndex.noEmpty_empty⟩, sound_init.bounded⟩

theorem Indexed.apply {st : JournalState} (h : st.Indexed) {new : JournalEntry}
    (hseq : st.nextSeq ≤ new.seq) :
    (st.apply new).Indexed ∧ (st.apply new).nextSeq = new.seq + 1 := by
  obtain ⟨hw, hnext, -⟩ := h.wellFormed.apply hseq
  have hsets : (st.apply new).NoEmptySets :=
    apply_keeps (P := NoEmptySets) (fun _ e h => h.insert e) (fun _ s h => h.remove s)
      h.noEmptySets new
  exact ⟨⟨hw, hsets, h.bounded.apply h.wellFormed hseq⟩, hnext⟩

theorem Indexed.ackLocal {st : JournalState} (h : st.Indexed) (upto : Nat) :
    (st.ackLocal upto).Indexed := by
  have hsets : ((st.entries.keys.filter (· ≤ upto)).foldl JournalState.remove st).NoEmptySets :=
    List.foldlRecOn _ _ h.noEmptySets fun _ h s _ => h.remove s
  exact ⟨h.wellFormed.ackLocal upto, ⟨hsets.byPath, hsets.byTo⟩, h.bounded.ackLocal upto⟩

theorem Indexed.linesOnDisk {st : JournalState} (h : st.Indexed) (n : Nat) :
    { st with linesOnDisk := n }.Indexed :=
  ⟨h.wellFormed.linesOnDisk n, ⟨h.noEmptySets.byPath, h.noEmptySets.byTo⟩,
    ⟨h.bounded.above, h.bounded.acked_lt⟩⟩

theorem Indexed.described {st : JournalState} (h : st.Indexed) : st.Described where
  byPath := h.wellFormed.byPath
  byTo := h.wellFormed.byTo
  byPath_noEmpty := h.noEmptySets.byPath
  byTo_noEmpty := h.noEmptySets.byTo
  seq_eq := h.wellFormed.seq_eq
  between := fun s e he => ⟨h.bounded.above s e he, h.wellFormed.lt_nextSeq s e he⟩

end JournalState

/-! ## Records in order -/

/-- The record is an acknowledgement or an entry with a positive seq. -/
def JournalLine.Readable (line : JournalLine) : Prop :=
  (∃ upto, line = .ack upto) ∨ ∃ e : JournalEntry, 0 < e.seq ∧ line = e.toLine

/-- The record may come behind the other one: an entry needs a larger number. -/
def JournalLine.Follows (line before : JournalLine) : Prop :=
  (∃ upto, line = .ack upto) ∨ before.number < line.number

/-- Records that can be read back in this order. -/
structure Replayable (lines : List JournalLine) : Prop where
  readable : ∀ line ∈ lines, line.Readable
  ordered : lines.Pairwise fun before line => line.Follows before

namespace Replayable

variable {lines : List JournalLine}

theorem nil : Replayable [] := ⟨nofun, .nil⟩

theorem sublist {lines' : List JournalLine} (h : Replayable lines)
    (hsub : List.Sublist lines' lines) : Replayable lines' :=
  ⟨fun line hline => h.readable line (hsub.subset hline), h.ordered.sublist hsub⟩

theorem concat (h : Replayable lines) {line : JournalLine} (hread : line.Readable)
    (hfollows : ∀ before ∈ lines, line.Follows before) : Replayable (lines ++ [line]) := by
  constructor
  · intro l hl
    obtain hl | hl := List.mem_append.mp hl
    · exact h.readable l hl
    · rw [List.mem_singleton.mp hl]
      exact hread
  · rw [List.pairwise_append]
    refine ⟨h.ordered, List.pairwise_singleton _ _, fun before hbefore l hl => ?_⟩
    rw [List.mem_singleton.mp hl]
    exact hfollows before hbefore

theorem concat_ack (h : Replayable lines) (upto : Nat) : Replayable (lines ++ [.ack upto]) :=
  h.concat (.inl ⟨upto, rfl⟩) fun _ _ => .inl ⟨upto, rfl⟩

theorem concat_entry (h : Replayable lines) {e : JournalEntry} (hpos : 0 < e.seq)
    (habove : ∀ before ∈ lines, before.number < e.seq) : Replayable (lines ++ [e.toLine]) := by
  refine h.concat (.inr ⟨e, hpos, rfl⟩) fun before hbefore => .inr ?_
  rw [number_toLine]
  exact habove before hbefore

end Replayable

/-- A compacted file holds the acked mark and the entries above it, in their order. -/
theorem JournalState.Indexed.compactedLines {st : JournalState} (h : st.Indexed) :
    Replayable st.compactedLines ∧ ∀ line ∈ st.compactedLines, line.number < st.nextSeq := by
  have hentry : ∀ line ∈ st.entries.values.map (·.toLine), ∃ e : JournalEntry,
      line = e.toLine ∧ st.acked < e.seq ∧ e.seq < st.nextSeq := by
    intro line hline
    obtain ⟨e, he, rfl⟩ := List.mem_map.mp hline
    have hget := h.wellFormed.mem_values.mp he
    exact ⟨e, rfl, h.bounded.above _ _ hget, h.wellFormed.lt_nextSeq _ _ hget⟩
  have hack : ∀ line ∈ (if 0 < st.acked then [JournalLine.ack st.acked] else []),
      line = .ack st.acked := by
    intro line hline
    split at hline
    · exact List.mem_singleton.mp hline
    · cases hline
  unfold JournalState.compactedLines
  refine ⟨⟨fun line hline => ?_, List.pairwise_append.mpr ⟨?_, ?_, fun a ha b hb => ?_⟩⟩,
    fun line hline => ?_⟩
  · obtain hline | hline := List.mem_append.mp hline
    · exact .inl ⟨_, hack line hline⟩
    · obtain ⟨e, rfl, habove, -⟩ := hentry line hline
      exact .inr ⟨e, by omega, rfl⟩
  · split
    · exact List.pairwise_singleton _ _
    · exact .nil
  · rw [List.pairwise_map]
    refine h.wellFormed.sorted_values.imp fun {a b} hab => .inr ?_
    rw [number_toLine, number_toLine]
    exact hab
  · obtain ⟨e, rfl, habove, -⟩ := hentry b hb
    rw [hack a ha]
    refine .inr ?_
    rw [number_toLine]
    exact habove
  · obtain hline | hline := List.mem_append.mp hline
    · rw [hack line hline]
      exact h.bounded.acked_lt
    · obtain ⟨e, rfl, -, hbelow⟩ := hentry line hline
      rw [number_toLine]
      exact hbelow

/-! ## Reading a file back -/

theorem JournalState.Indexed.applyLine {st : JournalState} (h : st.Indexed) {line : JournalLine}
    (hread : line.Readable) (habove : (∃ upto, line = .ack upto) ∨ st.nextSeq ≤ line.number) :
    (st.applyLine line).2.Indexed ∧
      (st.applyLine line).2.nextSeq = max st.nextSeq (line.number + 1) := by
  obtain ⟨upto, rfl⟩ | ⟨e, -, rfl⟩ := hread
  · exact ⟨h.ackLocal upto, nextSeq_ackLocal st upto⟩
  · obtain ⟨upto, hack⟩ | habove := habove
    · obtain ⟨seq, op, path, a⟩ := e
      cases op <;> cases hack
    · rw [number_toLine] at habove ⊢
      rw [applyLine_toLine]
      obtain ⟨hindexed, hnext⟩ := h.apply habove
      refine ⟨hindexed, ?_⟩
      show (st.apply e).nextSeq = _
      omega

namespace JournalFile

open JournalState

variable {c : LineCodec}

/-- A line of the text is applied as its record, or it only counts. -/
theorem readLine_spec (s : Bool × JournalState) (row : List Char) :
    ∃ n, (readLine c s row).2 =
      { (readRecord c row).elim s.2 (fun line => (s.2.applyLine line).2) with
        linesOnDisk := n } := by
  unfold readLine readRecord
  split
  · exact ⟨s.2.linesOnDisk, rfl⟩
  · cases c.fromText row <;> exact ⟨_, rfl⟩

/-- The lines of a file whose records are in order: the next seq is the least that is positive and
    larger than all their numbers. -/
theorem indexed_readRows (torn : Bool) (rows : List (List Char))
    (h : Replayable (rows.filterMap (readRecord c))) :
    (rows.foldl (readLine c) (torn, .init)).2.Indexed ∧
      ∀ n, 0 < n → (∀ line ∈ rows.filterMap (readRecord c), line.number < n) →
        (rows.foldl (readLine c) (torn, .init)).2.nextSeq ≤ n := by
  induction rows using List.reverseRecOn with
  | nil => exact ⟨indexed_init, fun n hn _ => hn⟩
  | append_singleton rows row ih =>
    rw [List.filterMap_append] at h ⊢
    obtain ⟨hindexed, hleast⟩ := ih (h.sublist (List.sublist_append_left _ _))
    rw [List.foldl_concat]
    generalize rows.foldl (readLine c) (torn, .init) = s at *
    obtain ⟨n, hn⟩ := readLine_spec (c := c) s row
    rw [hn]
    cases hrecord : readRecord c row with
    | none =>
      rw [List.filterMap_cons_none hrecord, List.filterMap_nil, List.append_nil]
      exact ⟨hindexed.linesOnDisk n, hleast⟩
    | some line =>
      rw [List.filterMap_cons_some hrecord, List.filterMap_nil] at h ⊢
      have hread := h.readable line (by simp)
      have hfollows := (List.pairwise_append.mp h.ordered).2.2
      have habove : (∃ upto, line = .ack upto) ∨ s.2.nextSeq ≤ line.number := by
        obtain hack | ⟨e, hpos, rfl⟩ := hread
        · exact .inl hack
        · refine or_iff_not_imp_left.mpr fun hentry => hleast _ (by rwa [number_toLine]) ?_
          intro before hbefore
          exact (hfollows before hbefore _ (by simp)).resolve_left hentry
      obtain ⟨hindexed', hnext⟩ := hindexed.applyLine hread habove
      refine ⟨hindexed'.linesOnDisk n, fun m hm hall => ?_⟩
      show (s.2.applyLine line).2.nextSeq ≤ m
      have hold := hleast m hm fun before hbefore => hall before (by simp [hbefore])
      have hlast := hall line (by simp)
      omega

/-! ## The journal and its file -/

/-- The journal in memory is indexed, and all numbers fit in 64 bits, those of the file too. Where
    `ordered` holds, the file can be read back. -/
structure Consistent (c : LineCodec) (ordered : Prop) (j : JournalFile) : Prop where
  indexed : j.state.Indexed
  shaped : Shaped c j.bytes
  replayable : ordered → Replayable (records c j.bytes)
  fits : j.state.nextSeq < 2 ^ 64
  recordsFit : ∀ line ∈ records c j.bytes, line.number + 1 < 2 ^ 64

/-- All records of the file have numbers below the next seq. -/
def Below (c : LineCodec) (j : JournalFile) : Prop :=
  ∀ line ∈ records c j.bytes, line.number < j.state.nextSeq

theorem shaped_nil : Shaped c [] := by
  intro text htext
  have hnil := decodeText_eq_some_iff.mp htext
  exact ⟨[], [], Utf8Cut.encode_eq_nil_iff.mp hnil.symm, nofun, .nil⟩

theorem records_nil : records c [] = [] := by
  have h : records c (encodeText (fileText [] [])) = _ :=
    records_fileText (List.forall_mem_nil _) List.not_mem_nil
  exact h

variable {ordered : Prop} {j : JournalFile}

theorem consistent_fresh : Consistent c ordered ⟨.init, []⟩ := by
  refine ⟨indexed_init, shaped_nil, fun _ => ?_, by decide, ?_⟩
  · rw [records_nil]
    exact .nil
  · rw [records_nil]
    nofun

/-- One append, before its entry or acknowledgement is applied. -/
theorem Consistent.appendLine (hc : c.Lawful) (hs : c.Strict)
    (hj : Consistent c ordered j) (o : AppendOutcome) {line : JournalLine}
    (hlast : ordered → Leaves c o line → Replayable (records c j.bytes ++ [line]))
    (hfit : line.number + 1 < 2 ^ 64) :
    Consistent c ordered (j.appendLine c o line).2 ∧
      (∃ n, (j.appendLine c o line).2.state = { j.state with linesOnDisk := n }) ∧
      ((j.appendLine c o line).1 = true → Leaves c o line) ∧
      ∀ l ∈ records c (j.appendLine c o line).2.bytes, l ∈ records c j.bytes ∨ l = line := by
  obtain ⟨hshaped, ⟨n, hstate⟩, hok, hrecords⟩ := appendLine_spec hc hs hj.shaped o line
  have hmem : ∀ l ∈ records c (j.appendLine c o line).2.bytes,
      l ∈ records c j.bytes ∨ l = line := by
    intro l hl
    obtain hsub | ⟨-, hsub⟩ := hrecords
    · exact .inl (hsub.subset hl)
    · simpa using hsub.subset hl
  refine ⟨⟨?_, hshaped, ?_, ?_, fun l hl => ?_⟩, ⟨n, hstate⟩, hok, hmem⟩
  · rw [hstate]
    exact hj.indexed.linesOnDisk n
  · intro hord
    obtain hsub | ⟨hleaves, hsub⟩ := hrecords
    · exact (hj.replayable hord).sublist hsub
    · exact (hlast hord hleaves).sublist hsub
  · rw [hstate]
    exact hj.fits
  · obtain hl | rfl := hmem l hl
    · exact hj.recordsFit l hl
    · exact hfit

/-- An entry that is appended and applied. If its line is left in the file, all the records there
    need smaller numbers. -/
theorem Consistent.appendEntry (hc : c.Lawful) (hs : c.Strict)
    (hj : Consistent c ordered j) (o : AppendOutcome) (op : JournalOp) (p : PathBuf) (a : Nat)
    (hbelow : ordered → Leaves c o (⟨j.state.nextSeq, op, p, a⟩ : JournalEntry).toLine → Below c j)
    (hfit : j.state.nextSeq + 1 < 2 ^ 64) :
    Consistent c ordered (j.appendEntry c o op p a).2 ∧
      ((j.appendEntry c o op p a).1 = true →
        (ordered → Below c (j.appendEntry c o op p a).2) ∧
          (j.appendEntry c o op p a).2.state.nextSeq = j.state.nextSeq + 1) := by
  have hpos : 0 < j.state.nextSeq := Nat.zero_lt_of_lt hj.indexed.bounded.acked_lt
  have hlast : ordered → Leaves c o (⟨j.state.nextSeq, op, p, a⟩ : JournalEntry).toLine →
      Replayable (records c j.bytes ++ [(⟨j.state.nextSeq, op, p, a⟩ : JournalEntry).toLine]) :=
    fun hord hleaves => (hj.replayable hord).concat_entry hpos (hbelow hord hleaves)
  obtain ⟨hj', ⟨n, hstate⟩, hok, hmem⟩ := hj.appendLine hc hs o hlast (by rwa [number_toLine])
  unfold JournalFile.appendEntry
  simp only
  split
  · next j' heq =>
    rw [heq] at hj'
    exact ⟨hj', nofun⟩
  · next j' heq =>
    rw [heq] at hj' hstate hok hmem
    simp only at hj' hstate hmem
    have hseq : j'.state.nextSeq ≤ (⟨j.state.nextSeq, op, p, a⟩ : JournalEntry).seq := by
      rw [hstate]
    obtain ⟨hindexed, hnext⟩ := hj'.indexed.apply hseq
    refine ⟨⟨hindexed, hj'.shaped, hj'.replayable, ?_, hj'.recordsFit⟩, fun _ => ⟨?_, hnext⟩⟩
    · show (j'.state.apply _).nextSeq < _
      rw [hnext]
      exact hfit
    · intro hord l hl
      show l.number < (j'.state.apply _).nextSeq
      rw [hnext]
      obtain hl | rfl := hmem l hl
      · exact Nat.lt_succ_of_lt (hbelow hord (hok rfl) l hl)
      · rw [number_toLine]
        exact Nat.lt_succ_self _

/-- A file of whole lines holds their records. -/
theorem records_written (hc : c.Lawful) {bytes : List UInt8} {lines : List JournalLine}
    (h : Written c bytes lines) : Shaped c bytes ∧ records c bytes = lines := by
  obtain ⟨texts, htexts, rfl⟩ := h
  have hnl := notMem_of_texts hc htexts
  have hbytes : texts.flatMap lineBytes = encodeText (fileText texts []) := by
    rw [encodeText_fileText]
    exact (List.append_nil _).symm
  rw [hbytes]
  constructor
  · intro text htext
    rw [decodeText_encodeText] at htext
    exact ⟨texts, [], (Option.some.inj htext).symm, hnl, .nil⟩
  · rw [records_fileText hnl List.not_mem_nil]
    clear hbytes hnl
    induction htexts with
    | nil => rfl
    | @cons line text _ _ htext _ ih =>
      have hrecord : readRecord c text = some line := by
        rw [readRecord, hc.visible line text htext, hc.read line text htext]
        rfl
      rw [List.filterMap_cons_some hrecord, ih]

theorem Consistent.writeCompacted (hc : c.Lawful) (hj : Consistent c ordered j)
    (done : Bool) : Consistent c ordered (j.writeCompacted c done) := by
  unfold JournalFile.writeCompacted
  split
  · exact hj
  · next texts htexts =>
    split
    · obtain ⟨hshaped, hrecords⟩ := records_written hc ⟨texts, texts_of_mapM htexts, rfl⟩
      obtain ⟨hreplay, hbelow⟩ := hj.indexed.compactedLines
      refine ⟨hj.indexed.linesOnDisk _, hshaped, fun _ => ?_, hj.fits, ?_⟩
      · rw [hrecords]
        exact hreplay
      · rw [hrecords]
        exact fun line hline => lt_of_le_of_lt (hbelow line hline) hj.fits
    · exact hj

theorem Consistent.maybeCompact (hc : c.Lawful) (hj : Consistent c ordered j)
    (done : Bool) : Consistent c ordered (j.maybeCompact c done) := by
  unfold JournalFile.maybeCompact
  split
  · exact hj.writeCompacted hc done
  · exact hj

theorem Consistent.append (hc : c.Lawful) (hs : c.Strict) (hj : Consistent c ordered j)
    (o : Outcome) (op : JournalOp) (p : PathBuf) (a : Nat)
    (hbelow : ordered → Leaves c o.first (⟨j.state.nextSeq, op, p, a⟩ : JournalEntry).toLine →
      Below c j)
    (hfit : j.state.nextSeq + 1 < 2 ^ 64) : Consistent c ordered (j.append c o op p a).2 := by
  have hentry := (hj.appendEntry hc hs o.first op p a hbelow hfit).1
  unfold JournalFile.append
  split
  · next j' heq =>
    rw [heq] at hentry
    exact hentry
  · next j' heq =>
    rw [heq] at hentry
    exact hentry.maybeCompact hc o.compacted

theorem Consistent.rename (hc : c.Lawful) (hs : c.Strict) (hj : Consistent c ordered j)
    (o : Outcome) (f t : PathBuf) (a : Nat)
    (hbelow : ordered →
      Leaves c o.first (⟨j.state.nextSeq, .rename t, f, a⟩ : JournalEntry).toLine → Below c j)
    (hfit : j.state.nextSeq + ((JournalRequest.call (.rename f t a)).lines j.state).length
      < 2 ^ 64) :
    Consistent c ordered (j.rename c o f t a).2 := by
  simp only [JournalRequest.lines, List.length_cons] at hfit
  have hfirst := hj.appendEntry hc hs o.first (.rename t) f a hbelow (by omega)
  unfold JournalFile.rename
  simp only
  split
  · next j₁ heq =>
    rw [heq] at hfirst
    exact hfirst.1
  · next j₁ heq =>
    rw [heq] at hfirst
    obtain ⟨hj₁, hdone⟩ := hfirst
    obtain ⟨hbelow₁, hnext₁⟩ := hdone rfl
    split
    · next hhad =>
      rw [if_pos (of_decide_eq_true hhad), List.length_singleton] at hfit
      simp only at hj₁ hbelow₁ hnext₁
      -- The first line has been written, so the second one comes behind smaller numbers.
      have hsecond :=
        (hj₁.appendEntry hc hs o.second .upsert t a (fun hord _ => hbelow₁ hord) (by omega)).1
      split
      · next j₂ heq₂ =>
        rw [heq₂] at hsecond
        exact hsecond
      · next j₂ heq₂ =>
        rw [heq₂] at hsecond
        exact hsecond.maybeCompact hc o.compacted
    · exact hj₁.maybeCompact hc o.compacted

theorem Consistent.ack (hc : c.Lawful) (hs : c.Strict) (hj : Consistent c ordered j)
    (o : Outcome) {upto : Nat} (hfit : upto + 1 < 2 ^ 64) : Consistent c ordered (j.ack c o upto).2 := by
  have hacked : ∀ {j : JournalFile}, Consistent c ordered j →
      Consistent c ordered { j with state := j.state.ackLocal upto } := by
    intro j hj
    refine ⟨hj.indexed.ackLocal upto, hj.shaped, hj.replayable, ?_, hj.recordsFit⟩
    show (j.state.ackLocal upto).nextSeq < _
    have hfits := hj.fits
    rw [nextSeq_ackLocal]
    omega
  have hlast : ordered → Leaves c o.first (.ack upto) →
      Replayable (records c j.bytes ++ [.ack upto]) :=
    fun hord _ => (hj.replayable hord).concat_ack upto
  have hline := (hj.appendLine hc hs o.first hlast hfit).1
  unfold JournalFile.ack
  split
  · exact hacked hj
  · split
    · next j' heq =>
      rw [heq] at hline
      exact hline
    · next j' heq =>
      rw [heq] at hline
      exact (hacked hline).maybeCompact hc o.compacted

/-- Where the file cannot be read, the journal starts empty. -/
theorem Consistent.unread (hj : Consistent c ordered j) :
    Consistent c ordered ⟨.init, j.bytes⟩ :=
  ⟨indexed_init, hj.shaped, hj.replayable, show 1 < 2 ^ 64 by decide, hj.recordsFit⟩

theorem Consistent.openFile (hc : c.Lawful) (hj : Consistent c ordered j)
    (hreplay : Replayable (records c j.bytes)) (compacted : Bool) :
    Consistent c ordered (openFile c compacted j.bytes) := by
  unfold JournalFile.openFile
  split
  · exact hj.unread
  · next text htext =>
    have hrecords : records c j.bytes =
        (text.splitOn '\n').dropLast.filterMap (readRecord c) := by
      rw [records, htext]
    have hfit := hj.recordsFit
    rw [hrecords] at hreplay hfit
    simp only
    generalize hread : (text.splitOn '\n').dropLast.foldl (readLine c) _ = s
    obtain ⟨hindexed, hleast⟩ := indexed_readRows _ _ hreplay
    rw [hread] at hindexed hleast
    have hnext := hleast (2 ^ 64 - 1) (by decide) fun line hline => by
      have := hfit line hline
      omega
    have hopen : Consistent c ordered ⟨s.2, j.bytes⟩ :=
      ⟨hindexed, hj.shaped, hj.replayable, by show s.2.nextSeq < _; omega, hj.recordsFit⟩
    split
    · exact hopen.writeCompacted hc compacted
    · exact hopen

end JournalFile

/-! ## Runs -/

/-- What happens to the journal of a sync root. -/
inductive JournalAct where
  | request (o : JournalFile.Outcome) (req : JournalRequest)
  /-- A restart; `readable` is whether the file could be read. -/
  | reopen (readable compacted : Bool)

/-- The entry that the call appends first. -/
def JournalCall.entry (seq : Nat) : JournalCall → JournalEntry
  | .upsert p a => ⟨seq, .upsert, p, a⟩
  | .delete p a => ⟨seq, .delete, p, a⟩
  | .rename f t a => ⟨seq, .rename t, f, a⟩

namespace JournalAct

open JournalFile

def step (c : LineCodec) (j : JournalFile) : JournalAct → Option JournalFile
  | .request o req => some (req.run c o j).2
  | .reopen readable compacted =>
    some (if readable then openFile c compacted j.bytes else ⟨.init, j.bytes⟩)

/-- The seqs that the request takes or acknowledges are below `2 ^ 64`. -/
def Fits (st : JournalState) : JournalRequest → Prop
  | .call call => st.nextSeq + ((JournalRequest.call call).lines st).length < 2 ^ 64
  | .ack upto => upto + 1 < 2 ^ 64

instance (st : JournalState) (req : JournalRequest) : Decidable (Fits st req) :=
  match req with
  | .call _ => inferInstanceAs (Decidable (_ < _))
  | .ack _ => inferInstanceAs (Decidable (_ < _))

/-- Numbers fit, and a file that is read back has its records in order. -/
def InOrder (c : LineCodec) (j : JournalFile) : JournalAct → Prop
  | .request _ req => Fits j.state req
  | .reopen readable _ => readable = true → Replayable (records c j.bytes)

/-- Numbers fit, and a call leaves the line of its entry in the file only where the records there
    have smaller numbers. -/
def Fresh (c : LineCodec) (j : JournalFile) : JournalAct → Prop
  | .request o (.call call) =>
    Fits j.state (.call call) ∧ (Leaves c o.first (call.entry j.state.nextSeq).toLine → Below c j)
  | .request _ (.ack upto) => Fits j.state (.ack upto)
  | .reopen _ _ => True

/-- One request. The order of the records is only needed where it is to be kept. -/
theorem consistent_request {c : LineCodec} (hc : c.Lawful) (hs : c.Strict) {ordered : Prop}
    (hj : Consistent c ordered j) {o : Outcome} {req : JournalRequest}
    (hfits : Fits j.state req) (hfresh : ordered → Fresh c j (.request o req)) :
    Consistent c ordered (req.run c o j).2 := by
  cases req using JournalRequest.byKind with
  | upsert p a => exact hj.append hc hs o .upsert p a (fun hord => (hfresh hord).2) hfits
  | delete p a => exact hj.append hc hs o .delete p a (fun hord => (hfresh hord).2) hfits
  | rename f t a => exact hj.rename hc hs o f t a (fun hord => (hfresh hord).2) hfits
  | ack upto => exact hj.ack hc hs o hfits

theorem consistent_reopen {c : LineCodec} (hc : c.Lawful) {ordered : Prop} {j j' : JournalFile}
    (hj : Consistent c ordered j) {readable compacted : Bool}
    (hreplay : readable = true → Replayable (records c j.bytes))
    (hstep : step c j (.reopen readable compacted) = some j') : Consistent c ordered j' := by
  obtain rfl := Option.some.inj hstep
  cases readable with
  | false => exact hj.unread
  | true => exact hj.openFile hc (hreplay rfl) compacted

theorem fits_of_fresh {c : LineCodec} {j : JournalFile} {o : Outcome} {req : JournalRequest}
    (h : Fresh c j (.request o req)) : Fits j.state req := by
  cases req with
  | call call => exact h.1
  | ack upto => exact h

theorem exists_step (c : LineCodec) (j : JournalFile) (act : JournalAct) :
    ∃ j', step c j act = some j' := by
  cases act <;> exact ⟨_, rfl⟩

variable {c : LineCodec}

/-- While the files that are read back have their records in order, the indexes describe the
    entries exactly. -/
theorem described_of_inOrder (hc : c.Lawful) (hs : c.Strict) (acts : List JournalAct)
    (h : Run.StepsMeet (step c) (InOrder c) ⟨.init, []⟩ acts) :
    Run.Always (step c) (fun j => j.state.Described ∧ j.state.nextSeq < 2 ^ 64)
      ⟨.init, []⟩ acts := by
  have hstep : ∀ j act j', Consistent c False j → InOrder c j act → step c j act = some j' →
      Consistent c False j' := by
    intro j act j' hj hord hj'
    cases act with
    | request o req =>
      obtain rfl := Option.some.inj hj'
      exact consistent_request hc hs hj hord nofun
    | reopen readable compacted => exact consistent_reopen hc hj hord hj'
  obtain ⟨last, hlast⟩ := Run.exists_runFrom (exists_step c) ⟨.init, []⟩ acts
  have halways := Run.always_of_stepsMeet hstep consistent_fresh h hlast
  intro pre j hpre hrun
  have hj := halways pre j hpre hrun
  exact ⟨hj.indexed.described, hj.fits⟩

/-- The files that calls write are in order, whatever failed appends leave in them, unless an entry
    comes behind a record with its number or a larger one. -/
theorem inOrder_of_fresh (hc : c.Lawful) (hs : c.Strict) (acts : List JournalAct)
    (h : Run.StepsMeet (step c) (Fresh c) ⟨.init, []⟩ acts) :
    Run.StepsMeet (step c) (InOrder c) ⟨.init, []⟩ acts := by
  have hstep : ∀ j act j', Consistent c True j → Fresh c j act → step c j act = some j' →
      Consistent c True j' := by
    intro j act j' hj hfresh hj'
    cases act with
    | request o req =>
      obtain rfl := Option.some.inj hj'
      exact consistent_request hc hs hj (fits_of_fresh hfresh) fun _ => hfresh
    | reopen readable compacted =>
      exact consistent_reopen hc hj (fun _ => hj.replayable trivial) hj'
  obtain ⟨last, hlast⟩ := Run.exists_runFrom (exists_step c) ⟨.init, []⟩ acts
  have halways := Run.always_of_stepsMeet hstep consistent_fresh h hlast
  intro pre act j hpre hrun
  cases act with
  | request o req => exact fits_of_fresh (h pre _ j hpre hrun)
  | reopen readable compacted =>
    have hj := halways pre j ((List.prefix_append _ _).trans hpre) hrun
    exact fun _ => hj.replayable trivial

/-- The indexes describe the entries exactly throughout every run in which the files that are read
    back have their records in order, and calls write such files as long as no entry is appended
    behind a record with its number or a larger one. -/
theorem always_described (hc : c.Lawful) (hs : c.Strict) (acts : List JournalAct) :
    (Run.StepsMeet (step c) (InOrder c) ⟨.init, []⟩ acts →
      Run.Always (step c) (fun j => j.state.Described ∧ j.state.nextSeq < 2 ^ 64)
        ⟨.init, []⟩ acts) ∧
    (Run.StepsMeet (step c) (Fresh c) ⟨.init, []⟩ acts →
      Run.StepsMeet (step c) (InOrder c) ⟨.init, []⟩ acts) :=
  ⟨described_of_inOrder hc hs acts, inOrder_of_fresh hc hs acts⟩

theorem strict_twoRecords : twoRecords.Strict := by
  intro cut line text _ hcut htext
  have hlong : ∀ path stamp, cut ++ text ≠ upsertText path stamp := by
    intro path stamp heq
    have hlen := congrArg List.length heq
    rw [List.length_append] at hlen
    obtain ⟨-, rfl⟩ | ⟨-, rfl⟩ := twoRecords_cases htext <;>
      exact hcut (by simpa [upsertText] using hlen)
  simp only [twoRecords]
  rw [if_neg (hlong 'a' '1'), if_neg (hlong 'b' '2')]

/-- A first upsert that fails, one that succeeds, and a restart. -/
private def upsertsThenReopen (first : AppendOutcome) : List JournalAct :=
  [.request ⟨first, .written, true⟩ (.call (.upsert (.ofNames ["a"]) 1)),
    .request ⟨.written, .written, true⟩ (.call (.upsert (.ofNames ["b"]) 2)), .reopen true true]

theorem always_described_torn :
    Run.Always (step twoRecords) (fun j => j.state.Described ∧ j.state.nextSeq < 2 ^ 64)
      ⟨.init, []⟩ (upsertsThenReopen (.torn 5)) := by
  obtain ⟨halways, hinOrder⟩ :=
    always_described lawful_twoRecords strict_twoRecords (upsertsThenReopen (.torn 5))
  refine halways (hinOrder ?_)
  have hbytes : (JournalRequest.run twoRecords ⟨.torn 5, .written, true⟩ ⟨.init, []⟩
      (.call (.upsert (.ofNames ["a"]) 1))).2.bytes =
      encodeText (fileText [] ((upsertText 'a' '1').take 5)) := by decide +kernel
  refine (Run.stepsMeet_cons rfl).mpr ⟨⟨by decide, fun _ line hline => ?_⟩,
    (Run.stepsMeet_cons rfl).mpr ⟨⟨by decide, fun _ line hline => ?_⟩,
      (Run.stepsMeet_cons rfl).mpr ⟨trivial, ?_⟩⟩⟩
  · rw [records_nil] at hline
    cases hline
  · -- five bytes are no record
    rw [hbytes, records_fileText (List.forall_mem_nil _) (by decide)] at hline
    cases hline
  · intro bs a s hpre
    simp at hpre

theorem runFrom_reopen (c : LineCodec) (o₁ o₂ : Outcome) (req₁ req₂ : JournalRequest) :
    Run.runFrom (step c) ⟨.init, []⟩ [.request o₁ req₁, .request o₂ req₂, .reopen true true] =
      some (openFile c true (runSteps c ⟨.init, []⟩ [(o₁, req₁), (o₂, req₂)]).bytes) := rfl

/-- The first upsert fails after its line was written: both come back with seq 1. -/
theorem described_fails_unsynced :
    twoRecords.Lawful ∧ twoRecords.Strict ∧
      ¬ Run.Always (step twoRecords) (fun j => j.state.Described) ⟨.init, []⟩
        (upsertsThenReopen (.torn 1000)) := by
  refine ⟨lawful_twoRecords, strict_twoRecords, fun hall => ?_⟩
  have hbytes : (runSteps twoRecords ⟨.init, []⟩
      [(⟨.torn 1000, .written, true⟩, .call (.upsert (.ofNames ["a"]) 1)),
        (⟨.written, .written, true⟩, .call (.upsert (.ofNames ["b"]) 2))]).bytes =
      encodeText (fileText [upsertText 'a' '1', upsertText 'b' '2'] []) := by decide +kernel
  have hrun : Run.runFrom (step twoRecords) ⟨.init, []⟩ (upsertsThenReopen (.torn 1000)) =
      some (openFile twoRecords true (encodeText
        (fileText [upsertText 'a' '1', upsertText 'b' '2'] []))) := by
    rw [← hbytes]
    exact runFrom_reopen ..
  have hopen : ∀ text, text = fileText [upsertText 'a' '1', upsertText 'b' '2'] [] →
      1 ∈ (openFile twoRecords true (encodeText text)).state.byPath.exact (.ofNames ["a"]) ∧
        ((openFile twoRecords true (encodeText text)).state.entries.get 1).map (·.path) =
          some (.ofNames ["b"]) := by
    intro text htext
    unfold openFile
    rw [decodeText_encodeText, htext]
    decide +kernel
  obtain ⟨hstale, hother⟩ := hopen _ rfl
  -- the index has seq 1 at `a`, and the entry there is the one of `b`
  have hdescribed := hall _ _ (List.prefix_refl _) hrun
  obtain ⟨e, he, hpath⟩ := (hdescribed.byPath (.ofNames ["a"]) 1).mp hstale
  rw [he, Option.map_some, hpath] at hother
  exact absurd hother (by decide)

end JournalAct

end ByteHive
