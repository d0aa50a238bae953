import ByteHive.Spec.JournalIndex

/-!
# Sequence numbers of the journal

Every journal that the code can open keeps its entries under positive sequence numbers
below `nextSeq`, whatever its file holds. Appending puts at most new numbers in, from
`nextSeq` on; an acknowledgement takes exactly the numbers up to it out.

This does not need the indexes to be right, so it also holds for a file that lost lines.

Key results:
- `sequenced_openJournal`: a journal that is opened again.
- `Sequenced.record`: a user action.
- `ack_spec`: an acknowledgement.
-/

namespace ByteHive

namespace JournalState

/-- Entries are stored under their own seq, which is positive and below `nextSeq`. -/
structure Sequenced (st : JournalState) : Prop where
  nextSeq_pos : 0 < st.nextSeq
  entry : ∀ s e, st.entries.get s = some e → e.seq = s ∧ 0 < s ∧ s < st.nextSeq

/-- A step that puts no seq in. -/
structure Shrinks (st st' : JournalState) : Prop where
  nextSeq_eq : st'.nextSeq = st.nextSeq
  isSome : ∀ s, (st'.entries.get s).isSome → (st.entries.get s).isSome

/-- A step that puts no seq in below the old `nextSeq`. -/
structure Grows (st st' : JournalState) : Prop where
  nextSeq_le : st.nextSeq ≤ st'.nextSeq
  isSome : ∀ s, (st'.entries.get s).isSome → (st.entries.get s).isSome ∨ st.nextSeq ≤ s

theorem Shrinks.refl (st : JournalState) : st.Shrinks st := ⟨rfl, fun _ h => h⟩

theorem Shrinks.trans {st st' st'' : JournalState} (h : st.Shrinks st') (h' : st'.Shrinks st'') :
    st.Shrinks st'' :=
  ⟨h'.nextSeq_eq.trans h.nextSeq_eq, fun s hs => h.isSome s (h'.isSome s hs)⟩

theorem Grows.refl (st : JournalState) : st.Grows st := ⟨Nat.le_refl _, fun _ h => .inl h⟩

theorem Grows.trans {st st' st'' : JournalState} (h : st.Grows st') (h' : st'.Grows st'') :
    st.Grows st'' := by
  refine ⟨h.nextSeq_le.trans h'.nextSeq_le, fun s hs => ?_⟩
  rcases h'.isSome s hs with hs | hs
  · exact h.isSome s hs
  · exact .inr (h.nextSeq_le.trans hs)

theorem sequenced_init : init.Sequenced := ⟨Nat.one_pos, fun _ _ h => nomatch h⟩

theorem shrinks_foldl_remove (st : JournalState) (seqs : List Nat) :
    st.Shrinks (seqs.foldl remove st) := by
  refine ⟨nextSeq_foldl_remove st seqs, fun s h => ?_⟩
  rw [get_foldl_remove] at h
  split at h
  · cases h
  · exact h

theorem Sequenced.foldl_remove {st : JournalState} (hst : st.Sequenced) (seqs : List Nat) :
    (seqs.foldl JournalState.remove st).Sequenced := by
  refine ⟨by rw [nextSeq_foldl_remove]; exact hst.nextSeq_pos, fun s e h => ?_⟩
  rw [get_foldl_remove] at h
  rw [nextSeq_foldl_remove]
  split at h
  · cases h
  · exact hst.entry s e h

theorem Sequenced.insert {st : JournalState} (hst : st.Sequenced) {e : JournalEntry}
    (he : 0 < e.seq) : (st.insert e).Sequenced := by
  have hpos := hst.nextSeq_pos
  refine ⟨by rw [nextSeq_insert]; omega, fun s e' h => ?_⟩
  rw [nextSeq_insert]
  rw [get_insert] at h
  split at h
  · next hs =>
    obtain rfl := Option.some.inj h
    exact ⟨hs.symm, hs ▸ he, by omega⟩
  · have := hst.entry s e' h
    omega

/-- An entry that takes the place of another one. -/
theorem Sequenced.replace {st : JournalState} (hst : st.Sequenced) {s : Nat} {v : JournalEntry}
    (hv : st.entries.get s = some v) (op : JournalOp) (p : PathBuf) (a : Nat) :
    ((st.remove s).insert ⟨s, op, p, a⟩).Sequenced ∧
      st.Shrinks ((st.remove s).insert ⟨s, op, p, a⟩) := by
  have hs := hst.entry s v hv
  refine ⟨(hst.foldl_remove [s]).insert hs.2.1, ?_, fun s' h => ?_⟩
  · rw [nextSeq_insert, nextSeq_remove]
    show max st.nextSeq (s + 1) = st.nextSeq
    omega
  · rw [get_insert] at h
    split at h
    · next hs' =>
      rw [hs', hv]
      rfl
    · exact (shrinks_foldl_remove st [s]).isSome s' h

theorem Sequenced.coalesceDelete {st : JournalState} (hst : st.Sequenced) (p : PathBuf) (s : Nat) :
    (st.coalesceDelete p s).Sequenced ∧ st.Shrinks (st.coalesceDelete p s) := by
  have hremove : (st.remove s).Sequenced ∧ st.Shrinks (st.remove s) :=
    ⟨hst.foldl_remove [s], shrinks_foldl_remove st [s]⟩
  unfold JournalState.coalesceDelete
  split
  · exact ⟨hst, Shrinks.refl st⟩
  · next v hv =>
    split
    · exact hremove
    · exact hremove
    · split
      · split
        · exact hremove
        · exact hst.replace hv _ _ _
      · split
        · exact hst.replace hv _ _ _
        · exact ⟨hst, Shrinks.refl st⟩

theorem Sequenced.foldl_coalesceDelete {st : JournalState} (hst : st.Sequenced) (p : PathBuf)
    (seqs : List Nat) :
    (seqs.foldl (JournalState.coalesceDelete p) st).Sequenced ∧
      st.Shrinks (seqs.foldl (JournalState.coalesceDelete p) st) := by
  induction seqs generalizing st with
  | nil => exact ⟨hst, Shrinks.refl st⟩
  | cons s seqs ih =>
    obtain ⟨hst', hshrinks⟩ := hst.coalesceDelete p s
    obtain ⟨hst'', hshrinks'⟩ := ih hst'
    exact ⟨hst'', hshrinks.trans hshrinks'⟩

/-- What coalescing leaves, then the new entry. -/
theorem Shrinks.insert {st st' : JournalState} (h : st.Shrinks st') {e : JournalEntry}
    (he : st.nextSeq ≤ e.seq) : st.Grows (st'.insert e) := by
  refine ⟨by rw [nextSeq_insert, h.nextSeq_eq]; omega, fun s hs => ?_⟩
  rw [get_insert] at hs
  split at hs
  · next hseq => exact .inr (hseq ▸ he)
  · exact .inl (h.isSome s hs)

/-- The coalescing rules, whether the entry is new or read back from the file. -/
theorem Sequenced.apply {st : JournalState} (hst : st.Sequenced) {new : JournalEntry}
    (hnew : 0 < new.seq) :
    (st.apply new).Sequenced ∧ (st.nextSeq ≤ new.seq → st.Grows (st.apply new)) := by
  unfold JournalState.apply
  split
  · exact ⟨(hst.foldl_remove _).insert hnew, (shrinks_foldl_remove st _).insert⟩
  · obtain ⟨hst', hshrinks⟩ := hst.foldl_coalesceDelete new.path (st.deleteVictims new.path)
    exact ⟨hst'.insert hnew, hshrinks.insert⟩
  · have hshrinks := shrinks_foldl_remove st (st.exactWith new.path isUpsert)
    exact ⟨((hst.foldl_remove _).foldl_remove _).insert hnew,
      (hshrinks.trans (shrinks_foldl_remove _ _)).insert⟩

/-! ## Acknowledgements -/

theorem get_ackLocal (st : JournalState) (upto s : Nat) :
    (st.ackLocal upto).entries.get s = if s ≤ upto then none else st.entries.get s := by
  show ((st.entries.keys.filter (· ≤ upto)).foldl JournalState.remove st).entries.get s = _
  rw [get_foldl_remove]
  by_cases hs : s ≤ upto
  · rw [if_pos hs]
    split
    · rfl
    · next hmem =>
      rw [OrdMap.get_eq_none_iff]
      exact fun hkey => hmem (List.mem_filter.mpr ⟨hkey, by simpa using hs⟩)
  · rw [if_neg hs, if_neg]
    exact fun hmem => hs (by simpa using (List.mem_filter.mp hmem).2)

theorem nextSeq_ackLocal (st : JournalState) (upto : Nat) :
    (st.ackLocal upto).nextSeq = max st.nextSeq (upto + 1) := by
  show max ((st.entries.keys.filter (· ≤ upto)).foldl JournalState.remove st).nextSeq _ = _
  rw [nextSeq_foldl_remove]

theorem Sequenced.ackLocal {st : JournalState} (hst : st.Sequenced) (upto : Nat) :
    (st.ackLocal upto).Sequenced := by
  have hpos := hst.nextSeq_pos
  refine ⟨by rw [nextSeq_ackLocal]; omega, fun s e h => ?_⟩
  rw [get_ackLocal] at h
  rw [nextSeq_ackLocal]
  split at h
  · cases h
  · have := hst.entry s e h
    omega

theorem Sequenced.linesOnDisk {st : JournalState} (hst : st.Sequenced) (n : Nat) :
    { st with linesOnDisk := n }.Sequenced := ⟨hst.nextSeq_pos, hst.entry⟩

end JournalState

/-- A record with a positive seq. -/
def JournalLine.Positive : JournalLine → Prop
  | .ack _ => True
  | .entry seq _ _ _ _ => 0 < seq

namespace ActionJournal

/-- The journal and its file hold positive seqs only. -/
structure Sequenced (j : ActionJournal) : Prop where
  state : j.state.Sequenced
  disk : ∀ line ∈ j.disk, line.Positive

theorem positive_toLine {e : JournalEntry} (he : 0 < e.seq) : e.toLine.Positive := by
  unfold JournalEntry.toLine
  split <;> exact he

theorem Sequenced.writeCompacted {j : ActionJournal} (hj : j.Sequenced) (h : Host) :
    (j.writeCompacted h).Sequenced := by
  unfold ActionJournal.writeCompacted
  split
  · exact hj
  · refine ⟨hj.state.linesOnDisk _, fun line hline => ?_⟩
    rcases List.mem_append.mp hline with hline | hline
    · split at hline
      · rw [List.mem_singleton.mp hline]
        exact trivial
      · cases hline
    · obtain ⟨e, he, rfl⟩ := List.mem_map.mp hline
      obtain ⟨⟨s, e⟩, hmem, rfl⟩ := List.mem_map.mp he
      have hs := hj.state.entry s e (OrdMap.get_eq_some_iff.mpr hmem)
      exact positive_toLine (hs.1 ▸ hs.2.1)

theorem Sequenced.maybeCompact {j : ActionJournal} (hj : j.Sequenced) (h : Host) :
    (j.maybeCompact h).Sequenced := by
  unfold ActionJournal.maybeCompact
  split
  · exact hj.writeCompacted h
  · exact hj

/-- Compaction leaves the entries and the next seq alone. -/
theorem maybeCompact_entries (h : Host) (j : ActionJournal) :
    (j.maybeCompact h).state.entries = j.state.entries ∧
      (j.maybeCompact h).state.nextSeq = j.state.nextSeq := by
  unfold maybeCompact writeCompacted
  split
  · split <;> exact ⟨rfl, rfl⟩
  · exact ⟨rfl, rfl⟩

theorem grows_maybeCompact (h : Host) {st : JournalState} {j : ActionJournal}
    (hg : st.Grows j.state) : st.Grows (j.maybeCompact h).state := by
  obtain ⟨hentries, hnext⟩ := maybeCompact_entries h j
  exact ⟨hnext ▸ hg.nextSeq_le, fun s hs => hg.isSome s (hentries ▸ hs)⟩

/-! ## Appends -/

theorem Sequenced.appendEntry {j j' : ActionJournal} (hj : j.Sequenced) {h : Host}
    {op : JournalOp} {p : PathBuf} {a : Nat} (hj' : j.appendEntry h op p a = some j') :
    j'.Sequenced ∧ j.state.Grows j'.state := by
  simp only [ActionJournal.appendEntry, appendLine] at hj'
  split at hj'
  · cases hj'
  · obtain rfl := Option.some.inj hj'
    have hpos : 0 < (⟨j.state.nextSeq, op, p, a⟩ : JournalEntry).seq := hj.state.nextSeq_pos
    obtain ⟨hst, hgrows⟩ := (hj.state.linesOnDisk (j.state.linesOnDisk + 1)).apply hpos
    have hgrows := hgrows (Nat.le_refl _)
    refine ⟨⟨hst, fun line hline => ?_⟩, hgrows.nextSeq_le, hgrows.isSome⟩
    rcases List.mem_append.mp hline with hline | hline
    · exact hj.disk line hline
    · rw [List.mem_singleton.mp hline]
      exact positive_toLine hj.state.nextSeq_pos

theorem Sequenced.append {j : ActionJournal} (hj : j.Sequenced) (h : Host) (op : JournalOp)
    (p : PathBuf) (a : Nat) :
    (j.append h op p a).2.Sequenced ∧ j.state.Grows (j.append h op p a).2.state := by
  unfold ActionJournal.append
  split
  · exact ⟨hj, .refl _⟩
  · next j' hj' =>
    obtain ⟨hseq, hgrows⟩ := hj.appendEntry hj'
    exact ⟨hseq.maybeCompact h, grows_maybeCompact h hgrows⟩

theorem Sequenced.rename {j : ActionJournal} (hj : j.Sequenced) (h : Host) (f t : PathBuf)
    (a : Nat) :
    (j.rename h f t a).2.Sequenced ∧ j.state.Grows (j.rename h f t a).2.state := by
  unfold ActionJournal.rename
  simp only
  split
  · exact ⟨hj, .refl _⟩
  · next j₁ hj₁ =>
    obtain ⟨hseq₁, hgrows₁⟩ := hj.appendEntry hj₁
    split
    · split
      · exact ⟨hseq₁, hgrows₁⟩
      · next j₂ hj₂ =>
        obtain ⟨hseq₂, hgrows₂⟩ := hseq₁.appendEntry hj₂
        exact ⟨hseq₂.maybeCompact h, grows_maybeCompact h (hgrows₁.trans hgrows₂)⟩
    · exact ⟨hseq₁.maybeCompact h, grows_maybeCompact h hgrows₁⟩

/-- A user action. -/
theorem Sequenced.record {j : ActionJournal} (hj : j.Sequenced) (h : Host) (call : JournalCall) :
    (call.record h j).Sequenced ∧ j.state.Grows (call.record h j).state := by
  cases call with
  | upsert p a => exact hj.append h .upsert p a
  | delete p a => exact hj.append h .delete p a
  | rename f t a => exact hj.rename h f t a

/-! ## Acknowledgements and restarts -/

/-- An acknowledgement that can be written takes exactly the seqs up to it out; one that
    cannot leaves the journal as it is. -/
theorem ack_spec {j : ActionJournal} (hj : j.Sequenced) (h : Host) (upto : Nat) :
    (j.ack h upto).2.Sequenced ∧ j.state.nextSeq ≤ (j.ack h upto).2.state.nextSeq ∧
      ((j.ack h upto).1 = true → upto < (j.ack h upto).2.state.nextSeq ∧
        ∀ s, (j.ack h upto).2.state.entries.get s =
          if s ≤ upto then none else j.state.entries.get s) ∧
      ((j.ack h upto).1 = false → (j.ack h upto).2 = j) := by
  have hnext := JournalState.nextSeq_ackLocal
  unfold ack
  split
  · refine ⟨⟨hj.state.ackLocal upto, hj.disk⟩, ?_, fun _ => ⟨?_, fun s => ?_⟩, fun h => nomatch h⟩
    · show _ ≤ (j.state.ackLocal upto).nextSeq
      rw [hnext]
      omega
    · show _ < (j.state.ackLocal upto).nextSeq
      rw [hnext]
      omega
    · exact JournalState.get_ackLocal j.state upto s
  · split
    · refine ⟨hj, Nat.le_refl _, ?_, fun _ => rfl⟩
      intro h
      cases h
    · next j' hj' =>
      unfold appendLine at hj'
      split at hj'
      · cases hj'
      · obtain rfl := Option.some.inj hj'
        have hst := (hj.state.linesOnDisk (j.state.linesOnDisk + 1)).ackLocal upto
        have hdisk : ∀ line ∈ j.disk ++ [.ack upto], line.Positive := fun line hline => by
          rcases List.mem_append.mp hline with hline | hline
          · exact hj.disk line hline
          · rw [List.mem_singleton.mp hline]
            exact trivial
        refine ⟨Sequenced.maybeCompact ⟨hst, hdisk⟩ h, ?_, fun _ => ⟨?_, fun s => ?_⟩,
          fun h => nomatch h⟩
        · rw [(maybeCompact_entries h _).2, hnext]
          show j.state.nextSeq ≤ max j.state.nextSeq _
          omega
        · rw [(maybeCompact_entries h _).2, hnext]
          omega
        · rw [(maybeCompact_entries h _).1]
          exact JournalState.get_ackLocal _ upto s

theorem sequenced_applyLine {st : JournalState} (hst : st.Sequenced) {line : JournalLine}
    (hline : line.Positive) : (st.applyLine line).2.Sequenced := by
  cases line with
  | ack upto => exact hst.ackLocal upto
  | entry seq op p target a =>
    have hseq : 0 < seq := hline
    have happly : ∀ op', (st.apply ⟨seq, op', p, a⟩).Sequenced := fun op' => (hst.apply hseq).1
    simp only [JournalState.applyLine]
    split
    · exact happly .upsert
    · exact happly .delete
    · exact happly (.rename _)
    · exact hst

/-- A journal that is opened on any file of positive records. -/
theorem sequenced_openJournal (h : Host) {disk : List JournalLine}
    (hdisk : ∀ line ∈ disk, line.Positive) : (openJournal h disk).Sequenced := by
  have hfold : ∀ (lines : List JournalLine) (st : JournalState), st.Sequenced →
      (∀ line ∈ lines, line.Positive) →
      (lines.foldl (fun st line =>
        let st := (st.applyLine line).2
        { st with linesOnDisk := st.linesOnDisk + 1 }) st).Sequenced := by
    intro lines
    induction lines with
    | nil => exact fun _ hst _ => hst
    | cons line lines ih =>
      intro st hst hpos
      rw [List.forall_mem_cons] at hpos
      exact ih _ ((sequenced_applyLine hst hpos.1).linesOnDisk _) hpos.2
  have hopen : (⟨_, disk⟩ : ActionJournal).Sequenced :=
    ⟨hfold disk .init JournalState.sequenced_init hdisk, hdisk⟩
  unfold openJournal
  simp only
  split
  · exact hopen.writeCompacted h
  · exact hopen

end ActionJournal

end ByteHive
