import ByteHive.Native.JournalFile
import ByteHive.Spec.JournalReplay

/-!
# Appends that fail

The file is followed byte by byte. While nothing has gone wrong it holds the text of the
records (`Written`), and a call that succeeds is a call of the record-level journal
(`run_refines`). A failed append that left bytes behind is harmless as long as nothing is
written after it; otherwise its part of a line is glued to the next one, or its record
shares its seq with the next one.

Key results:
- `openFile_written`: reading a file of records with a torn tail
- `reopen_survives`: what a journal with failed calls comes back as
-/

namespace ByteHive

open JournalState ActionJournal

/-! ## Text and bytes -/

theorem decodeText_encodeText (text : List Char) : decodeText (encodeText text) = some text := by
  unfold decodeText encodeText
  rw [show (text.flatMap String.utf8EncodeChar).toByteArray = text.utf8Encode from rfl,
    List.utf8Decode?_utf8Encode]
  rfl

theorem encodeText_append (a b : List Char) : encodeText (a ++ b) = encodeText a ++ encodeText b :=
  List.flatMap_append

/-- The text of a file: lines, then what follows the last newline. -/
def fileText (texts : List (List Char)) (tail : List Char) : List Char :=
  texts.flatMap (· ++ ['\n']) ++ tail

theorem encodeText_fileText (texts : List (List Char)) (tail : List Char) :
    encodeText (fileText texts tail) = texts.flatMap lineBytes ++ encodeText tail := by
  unfold fileText
  rw [encodeText_append]
  congr 1
  unfold encodeText lineBytes encodeText
  rw [List.flatMap_assoc]

theorem splitOn_fileText {texts : List (List Char)} {tail : List Char}
    (htexts : ∀ t ∈ texts, '\n' ∉ t) (htail : '\n' ∉ tail) :
    (fileText texts tail).splitOn '\n' = texts ++ [tail] := by
  induction texts with
  | nil => exact List.splitOn_eq_singleton htail
  | cons t texts ih =>
    have hsplit : fileText (t :: texts) tail = t ++ '\n' :: fileText texts tail := by
      simp [fileText]
    rw [hsplit, List.splitOn_append_cons_self_of_not_mem (htexts t (by simp)),
      ih fun t' ht' => htexts t' (by simp [ht'])]
    rfl

/-- What the code relies on: a record's text is one line that is not blank, and it is read back. -/
structure LineCodec.Lawful (c : LineCodec) : Prop where
  read : ∀ line text, c.toText line = some text → c.fromText text = some line
  oneLine : ∀ line text, c.toText line = some text → '\n' ∉ text
  visible : ∀ line text, c.toText line = some text → text.all isWhiteSpace = false

/-- The texts of records. -/
def Texts (c : LineCodec) : List JournalLine → List (List Char) → Prop :=
  List.Forall₂ fun line text => c.toText line = some text

/-- The bytes are those of the records. -/
def Written (c : LineCodec) (bytes : List UInt8) (lines : List JournalLine) : Prop :=
  ∃ texts, Texts c lines texts ∧ bytes = texts.flatMap lineBytes

theorem texts_of_mapM {c : LineCodec} {lines : List JournalLine} {texts : List (List Char)}
    (h : lines.mapM c.toText = some texts) : Texts c lines texts := by
  induction lines generalizing texts with
  | nil =>
    obtain rfl : texts = [] := by simpa using h.symm
    exact .nil
  | cons line lines ih =>
    rw [List.mapM_cons] at h
    obtain ⟨text, htext, h⟩ := Option.bind_eq_some_iff.mp h
    obtain ⟨rest, hrest, h⟩ := Option.bind_eq_some_iff.mp h
    obtain rfl := Option.some.inj h
    exact .cons htext (ih hrest)

theorem Written.append {c : LineCodec} {bytes : List UInt8} {lines : List JournalLine}
    (h : Written c bytes lines) {line : JournalLine} {text : List Char}
    (htext : c.toText line = some text) :
    Written c (bytes ++ lineBytes text) (lines ++ [line]) := by
  obtain ⟨texts, htexts, rfl⟩ := h
  refine ⟨texts ++ [text], List.rel_append htexts (.cons htext .nil), ?_⟩
  simp

theorem notMem_of_texts {c : LineCodec} (hc : c.Lawful) {lines : List JournalLine}
    {texts : List (List Char)} (h : Texts c lines texts) : ∀ t ∈ texts, '\n' ∉ t := by
  intro t ht
  obtain ⟨i, hi, rfl⟩ := List.mem_iff_getElem.mp ht
  have hlen := h.length_eq
  exact hc.oneLine _ _ (h.get (by omega) hi)

/-! ## Opening -/

/-- Lines that are records. -/
theorem foldl_readLine {c : LineCodec} (hc : c.Lawful) {lines : List JournalLine}
    {texts : List (List Char)} (h : Texts c lines texts) (s : Bool × JournalState) :
    (texts.foldl (JournalFile.readLine c) s).2 =
      lines.foldl (fun st line =>
        let st := (st.applyLine line).2
        { st with linesOnDisk := st.linesOnDisk + 1 }) s.2 := by
  induction h generalizing s with
  | nil => rfl
  | @cons line text lines texts htext _ ih =>
    have hstep : (JournalFile.readLine c s text).2 =
        { (s.2.applyLine line).2 with linesOnDisk := (s.2.applyLine line).2.linesOnDisk + 1 } := by
      simp [JournalFile.readLine, hc.visible line text htext, hc.read line text htext]
    rw [List.foldl_cons, List.foldl_cons, ih, hstep]

theorem JournalFile.writeCompacted_same (c : LineCodec) (done : Bool) (j : JournalFile) :
    (j.writeCompacted c done).state.Same j.state := by
  unfold JournalFile.writeCompacted
  split
  · exact .refl _
  · split
    · exact Same.linesOnDisk _ _
    · exact .refl _

/-- A file of records with a torn tail is read as the records. -/
theorem openFile_written {c : LineCodec} (hc : c.Lawful) {bytes : List UInt8}
    {lines : List JournalLine} (h : Written c bytes lines) {tail : List Char} (htail : '\n' ∉ tail)
    (compacted : Bool) :
    (JournalFile.openFile c compacted (bytes ++ encodeText tail)).state.Same (readBack lines) := by
  obtain ⟨texts, htexts, rfl⟩ := h
  have hlines := notMem_of_texts hc htexts
  have hsplit := splitOn_fileText hlines htail
  have hread := foldl_readLine hc htexts
  rw [← encodeText_fileText]
  unfold JournalFile.openFile
  rw [decodeText_encodeText]
  simp only [hsplit, List.dropLast_concat]
  split
  · refine (JournalFile.writeCompacted_same c compacted _).trans ?_
    rw [hread]
    exact .refl _
  · rw [hread]
    exact .refl _

/-! ## Calls that succeed -/

/-- A host on which appends succeed; `b` is whether compaction fails. -/
def appendingHost (b : Bool) : Host :=
  { Host.reliable (fun _ => 0) 0 with
    fails := fun
      | .compactJournal => b
      | _ => false }

/-- The journal is the one at record level, and its file holds the records. -/
structure Refines (c : LineCodec) (j : JournalFile) (r : ActionJournal) : Prop where
  state : j.state = r.state
  written : Written c j.bytes r.disk

theorem Refines.appendLine {c : LineCodec} {j j' : JournalFile} {r : ActionJournal}
    (hr : Refines c j r) {o : AppendOutcome} {line : JournalLine}
    (hrun : j.appendLine c o line = (true, j')) :
    ∃ r', (∀ b s, r.appendLine (appendingHost b) line s = some r') ∧ Refines c j' r' := by
  unfold JournalFile.appendLine at hrun
  split at hrun
  · cases hrun
  · next text htext =>
    split at hrun
    · obtain rfl := (Prod.mk.inj hrun).2
      refine ⟨⟨{ r.state with linesOnDisk := r.state.linesOnDisk + 1 }, r.disk ++ [line]⟩,
        fun _ _ => rfl, ?_, hr.written.append htext⟩
      rw [hr.state]
    · cases hrun

theorem Refines.appendEntry {c : LineCodec} {j j' : JournalFile} {r : ActionJournal}
    (hr : Refines c j r) {o : AppendOutcome} {op : JournalOp} {p : PathBuf} {a : Nat}
    (hrun : j.appendEntry c o op p a = (true, j')) :
    ∃ r', (∀ b, r.appendEntry (appendingHost b) op p a = some r') ∧ Refines c j' r' := by
  simp only [JournalFile.appendEntry] at hrun
  split at hrun
  · cases hrun
  · next j₁ happend =>
    obtain rfl := (Prod.mk.inj hrun).2
    rw [hr.state] at happend
    obtain ⟨r₁, hr₁, href⟩ := hr.appendLine happend
    refine ⟨{ r₁ with state := r₁.state.apply ⟨r.state.nextSeq, op, p, a⟩ }, fun b => ?_, ?_, ?_⟩
    · simp [ActionJournal.appendEntry, hr₁ b]
    · rw [href.state, hr.state]
    · exact href.written

/-- A compaction fails at record level where it fails here, or where a record has no text. -/
theorem Refines.maybeCompact {c : LineCodec} {j : JournalFile} {r : ActionJournal}
    (hr : Refines c j r) (done : Bool) :
    ∃ b, (b = false → done = true) ∧
      Refines c (j.maybeCompact c done) (r.maybeCompact (appendingHost b)) := by
  have hkeep : Refines c j (r.maybeCompact (appendingHost true)) := by
    refine ⟨?_, ?_⟩
    · simp only [ActionJournal.maybeCompact, ActionJournal.writeCompacted]
      split <;> exact hr.state
    · simp only [ActionJournal.maybeCompact, ActionJournal.writeCompacted]
      split <;> exact hr.written
  unfold JournalFile.maybeCompact JournalFile.writeCompacted
  by_cases hlong : compactMinLines ≤ j.state.linesOnDisk
  · rw [if_pos hlong]
    split
    · exact ⟨true, (fun h => nomatch h), hkeep⟩
    · next texts htexts =>
      by_cases hdone : done = true
      · refine ⟨false, fun _ => hdone, ?_⟩
        rw [if_pos hdone]
        rw [hr.state] at hlong htexts ⊢
        have hrun : r.maybeCompact (appendingHost false) =
            ⟨{ r.state with linesOnDisk := r.state.compactedLines.length },
              r.state.compactedLines⟩ := by
          simp [ActionJournal.maybeCompact, ActionJournal.writeCompacted, hlong, appendingHost]
        rw [hrun]
        exact ⟨rfl, texts, texts_of_mapM htexts, rfl⟩
      · rw [if_neg hdone]
        exact ⟨true, (fun h => nomatch h), hkeep⟩
  · rw [if_neg hlong]
    exact ⟨true, (fun h => nomatch h), hkeep⟩

/-- The event of a request. -/
def JournalRequest.event : JournalRequest → JournalEvent
  | .call c => .call c
  | .ack upto => .ack upto

theorem Refines.append {c : LineCodec} {j j' : JournalFile} {r : ActionJournal}
    (hr : Refines c j r) {o : JournalFile.Outcome} {op : JournalOp} {p : PathBuf} {a : Nat}
    (hrun : j.append c o op p a = (true, j')) :
    ∃ b, (b = false → o.compacted = true) ∧
      Refines c j' (r.append (appendingHost b) op p a).2 := by
  unfold JournalFile.append at hrun
  split at hrun
  · cases hrun
  · next j₁ hj₁ =>
    obtain rfl := (Prod.mk.inj hrun).2
    obtain ⟨r₁, hr₁, href⟩ := hr.appendEntry hj₁
    obtain ⟨b, hb, hcompact⟩ := href.maybeCompact o.compacted
    refine ⟨b, hb, ?_⟩
    simpa [ActionJournal.append, hr₁ b] using hcompact

theorem JournalRequest.byKind {motive : JournalRequest → Prop}
    (upsert : ∀ p a, motive (.call (.upsert p a))) (delete : ∀ p a, motive (.call (.delete p a)))
    (rename : ∀ f t a, motive (.call (.rename f t a))) (ack : ∀ upto, motive (.ack upto))
    (req : JournalRequest) : motive req := by
  cases req with
  | call c =>
    cases c with
    | upsert p a => exact upsert p a
    | delete p a => exact delete p a
    | rename f t a => exact rename f t a
  | ack upto => exact ack upto

/-- A request that succeeds is the same request at record level. -/
theorem run_refines {c : LineCodec} {j j' : JournalFile} {r : ActionJournal}
    (hr : Refines c j r) {o : JournalFile.Outcome} {req : JournalRequest}
    (hrun : req.run c o j = (true, j')) :
    ∃ b, (b = false → o.compacted = true) ∧
      Refines c j' (JournalEvent.run r (appendingHost b, req.event)) := by
  cases req using JournalRequest.byKind with
  | upsert p a => exact hr.append hrun
  | delete p a => exact hr.append hrun
  | rename f t a =>
    simp only [JournalRequest.run, JournalFile.rename] at hrun
    split at hrun
    · cases hrun
    · next j₁ hj₁ =>
      obtain ⟨r₁, hr₁, href₁⟩ := hr.appendEntry hj₁
      rw [hr.state] at hrun
      by_cases hhad : r.state.exactWith f isUpsert ≠ []
      · simp only [hhad, decide_true, if_true, not_false_eq_true, ne_eq] at hrun
        split at hrun
        · cases hrun
        · next j₂ hj₂ =>
          obtain rfl := (Prod.mk.inj hrun).2
          obtain ⟨r₂, hr₂, href₂⟩ := href₁.appendEntry hj₂
          obtain ⟨b, hb, hcompact⟩ := href₂.maybeCompact o.compacted
          refine ⟨b, hb, ?_⟩
          simpa [JournalRequest.event, JournalEvent.run, JournalCall.record, ActionJournal.rename,
            hr₁ b, hr₂ b, hhad] using hcompact
      · simp only [hhad, decide_false, Bool.false_eq_true, if_false] at hrun
        obtain rfl := (Prod.mk.inj hrun).2
        obtain ⟨b, hb, hcompact⟩ := href₁.maybeCompact o.compacted
        simp only [ne_eq, not_not] at hhad
        refine ⟨b, hb, ?_⟩
        simpa [JournalRequest.event, JournalEvent.run, JournalCall.record, ActionJournal.rename,
          hr₁ b, hhad] using hcompact
  | ack upto =>
    simp only [JournalRequest.run, JournalFile.ack, hr.state] at hrun
    split at hrun
    · next hle =>
      obtain rfl := (Prod.mk.inj hrun).2
      have hrun' : JournalEvent.run r (appendingHost true, .ack upto) =
          { r with state := r.state.ackLocal upto } := by
        simp [JournalEvent.run, ActionJournal.ack, hle]
      refine ⟨true, (fun h => Bool.noConfusion h), ?_⟩
      show Refines c _ (JournalEvent.run r (appendingHost true, .ack upto))
      rw [hrun']
      exact ⟨rfl, hr.written⟩
    · next hle =>
      split at hrun
      · cases hrun
      · next j₁ hj₁ =>
        obtain rfl := (Prod.mk.inj hrun).2
        obtain ⟨r₁, hr₁, href₁⟩ := hr.appendLine hj₁
        have hacked : Refines c { j₁ with state := j₁.state.ackLocal upto }
            { r₁ with state := r₁.state.ackLocal upto } := by
          refine ⟨?_, href₁.written⟩
          show j₁.state.ackLocal upto = r₁.state.ackLocal upto
          rw [href₁.state]
        obtain ⟨b, hb, hcompact⟩ := hacked.maybeCompact o.compacted
        refine ⟨b, hb, ?_⟩
        simpa [JournalRequest.event, JournalEvent.run, ActionJournal.ack, hle, hr₁ b] using hcompact

/-! ## What a request does in memory -/

/-- The request on the journal in memory, when its appends succeed. -/
def JournalRequest.effect (st : JournalState) : JournalRequest → JournalState
  | .call (.upsert p a) => st.apply ⟨st.nextSeq, .upsert, p, a⟩
  | .call (.delete p a) => st.apply ⟨st.nextSeq, .delete, p, a⟩
  | .call (.rename f t a) =>
    let st₁ := st.apply ⟨st.nextSeq, .rename t, f, a⟩
    if st.exactWith f isUpsert ≠ [] then st₁.apply ⟨st.nextSeq + 1, .upsert, t, a⟩ else st₁
  | .ack upto => st.ackLocal upto

/-- The records that the request appends. -/
def JournalRequest.lines (st : JournalState) : JournalRequest → List JournalLine
  | .call (.upsert p a) => [(⟨st.nextSeq, .upsert, p, a⟩ : JournalEntry).toLine]
  | .call (.delete p a) => [(⟨st.nextSeq, .delete, p, a⟩ : JournalEntry).toLine]
  | .call (.rename f t a) =>
    (⟨st.nextSeq, .rename t, f, a⟩ : JournalEntry).toLine ::
      if st.exactWith f isUpsert ≠ [] then
        [(⟨st.nextSeq + 1, .upsert, t, a⟩ : JournalEntry).toLine] else []
  | .ack upto => if upto ≤ st.acked then [] else [.ack upto]

theorem length_lines (st : JournalState) (req : JournalRequest) :
    (req.lines st).length = req.event.records st := by
  cases req using JournalRequest.byKind with
  | upsert p a => rfl
  | delete p a => rfl
  | rename f t a =>
    simp only [JournalRequest.lines, JournalRequest.event, JournalEvent.records]
    split <;> rfl
  | ack upto =>
    simp only [JournalRequest.lines, JournalRequest.event, JournalEvent.records]
    split <;> rfl

theorem exactWith_congr {st st' : JournalState} (hw : st.WellFormed) (hw' : st'.WellFormed)
    (h : st.Same st') (p : PathBuf) (sel : JournalOp → Bool) :
    st.exactWith p sel ≠ [] ↔ st'.exactWith p sel ≠ [] := by
  have hiff : ∀ s, s ∈ st.exactWith p sel ↔ s ∈ st'.exactWith p sel := by
    intro s
    rw [hw.mem_exactWith, hw'.mem_exactWith, h.entries]
  constructor
  · rintro hne
    obtain ⟨s, hs⟩ := List.exists_mem_of_ne_nil _ hne
    exact List.ne_nil_of_mem ((hiff s).mp hs)
  · rintro hne
    obtain ⟨s, hs⟩ := List.exists_mem_of_ne_nil _ hne
    exact List.ne_nil_of_mem ((hiff s).mpr hs)

theorem effect_same {st st' : JournalState} (hw : st.WellFormed) (hw' : st'.WellFormed)
    (h : st.Same st') (req : JournalRequest) : (req.effect st).Same (req.effect st') := by
  cases req using JournalRequest.byKind with
  | upsert p a =>
    simp only [JournalRequest.effect, ← h.nextSeq]
    exact h.apply hw hw' (Nat.le_refl st.nextSeq)
  | delete p a =>
    simp only [JournalRequest.effect, ← h.nextSeq]
    exact h.apply hw hw' (Nat.le_refl st.nextSeq)
  | rename f t a =>
    simp only [JournalRequest.effect, ← h.nextSeq]
    have hseq : st.nextSeq ≤ (⟨st.nextSeq, .rename t, f, a⟩ : JournalEntry).seq := Nat.le_refl _
    have hseq' : st'.nextSeq ≤ (⟨st.nextSeq, .rename t, f, a⟩ : JournalEntry).seq := h.nextSeq.ge
    obtain ⟨hw₁, hnext, -⟩ := hw.apply hseq
    obtain ⟨hw₁', -, -⟩ := hw'.apply hseq'
    have h₁ := h.apply hw hw' hseq
    by_cases hhad : st.exactWith f isUpsert ≠ []
    · rw [if_pos hhad, if_pos ((exactWith_congr hw hw' h f isUpsert).mp hhad)]
      exact h₁.apply hw₁ hw₁' hnext.le
    · rw [if_neg hhad, if_neg (fun h' => hhad ((exactWith_congr hw hw' h f isUpsert).mpr h'))]
      exact h₁
  | ack upto => exact h.ackLocal upto

theorem acked_le_effect (st : JournalState) (req : JournalRequest) :
    st.acked ≤ (req.effect st).acked := by
  cases req using JournalRequest.byKind with
  | upsert p a => exact (keeps_apply st _).acked.ge
  | delete p a => exact (keeps_apply st _).acked.ge
  | rename f t a =>
    simp only [JournalRequest.effect]
    split
    · exact ((keeps_apply st _).trans (keeps_apply _ _)).acked.ge
    · exact (keeps_apply st _).acked.ge
  | ack upto =>
    simp only [JournalRequest.effect, acked_ackLocal]
    exact Nat.le_max_left _ _

theorem maybeCompact_same (h : Host) (r : ActionJournal) :
    (r.maybeCompact h).state.Same r.state := by
  unfold ActionJournal.maybeCompact ActionJournal.writeCompacted
  split
  · split
    · exact .refl _
    · exact Same.linesOnDisk _ _
  · exact .refl _

/-- One entry at record level. -/
theorem appendEntry_effect {r : ActionJournal} (hw : r.state.WellFormed) (b : Bool)
    (op : JournalOp) (p : PathBuf) (a : Nat) :
    ∃ r', r.appendEntry (appendingHost b) op p a = some r' ∧
      r'.state.Same (r.state.apply ⟨r.state.nextSeq, op, p, a⟩) ∧ r'.state.WellFormed ∧
      r'.disk = r.disk ++ [(⟨r.state.nextSeq, op, p, a⟩ : JournalEntry).toLine] := by
  have hw' := hw.linesOnDisk (r.state.linesOnDisk + 1)
  refine ⟨_, rfl, ?_, ?_, rfl⟩
  · exact (Same.linesOnDisk _ _).apply hw' hw (Nat.le_refl r.state.nextSeq)
  · exact (hw'.apply (Nat.le_refl r.state.nextSeq)).1

/-- A request at record level: its effect, and its records if the file is not rewritten. -/
theorem run_effect {r : ActionJournal} (hw : r.state.WellFormed) (b : Bool) (req : JournalRequest) :
    (JournalEvent.run r (appendingHost b, req.event)).state.Same (req.effect r.state) ∧
      (b = true → (JournalEvent.run r (appendingHost b, req.event)).disk =
        r.disk ++ req.lines r.state) := by
  have hdisk : ∀ r' : ActionJournal, b = true →
      (r'.maybeCompact (appendingHost b)).disk = r'.disk := by
    rintro r' rfl
    unfold ActionJournal.maybeCompact ActionJournal.writeCompacted
    split <;> rfl
  have happend : ∀ (op : JournalOp) (p : PathBuf) (a : Nat),
      (r.append (appendingHost b) op p a).2.state.Same
          (r.state.apply ⟨r.state.nextSeq, op, p, a⟩) ∧
        (b = true → (r.append (appendingHost b) op p a).2.disk =
          r.disk ++ [(⟨r.state.nextSeq, op, p, a⟩ : JournalEntry).toLine]) := by
    intro op p a
    obtain ⟨r₁, hr₁, hsame, -, hdisk₁⟩ := appendEntry_effect hw b op p a
    simp only [ActionJournal.append, hr₁]
    exact ⟨(maybeCompact_same _ _).trans hsame, fun hb => (hdisk r₁ hb).trans hdisk₁⟩
  cases req using JournalRequest.byKind with
  | upsert p a => exact happend .upsert p a
  | delete p a => exact happend .delete p a
  | rename f t a =>
    obtain ⟨r₁, hr₁, hsame₁, hw₁, hdisk₁⟩ := appendEntry_effect hw b (.rename t) f a
    obtain ⟨r₂, hr₂, hsame₂, -, hdisk₂⟩ := appendEntry_effect hw₁ b .upsert t a
    have hseq : r.state.nextSeq ≤ (⟨r.state.nextSeq, .rename t, f, a⟩ : JournalEntry).seq :=
      Nat.le_refl _
    obtain ⟨hwe, hnext, -⟩ := hw.apply hseq
    have hnext₁ : r₁.state.nextSeq = r.state.nextSeq + 1 := hsame₁.nextSeq.trans hnext
    by_cases hhad : r.state.exactWith f isUpsert ≠ []
    · have hrun : JournalEvent.run r (appendingHost b, .call (.rename f t a)) =
          r₂.maybeCompact (appendingHost b) := by
        simp [JournalEvent.run, JournalCall.record, ActionJournal.rename, hr₁, hr₂, hhad]
      simp only [JournalRequest.event, hrun, JournalRequest.effect, JournalRequest.lines, hhad,
        if_true, ne_eq, not_false_eq_true]
      rw [hnext₁] at hsame₂ hdisk₂
      refine ⟨(maybeCompact_same _ _).trans (hsame₂.trans ?_), fun hb => ?_⟩
      · exact hsame₁.apply hw₁ hwe hnext₁.le
      · rw [hdisk r₂ hb, hdisk₂, hdisk₁]
        simp
    · have hrun : JournalEvent.run r (appendingHost b, .call (.rename f t a)) =
          r₁.maybeCompact (appendingHost b) := by
        simp only [ne_eq, not_not] at hhad
        simp [JournalEvent.run, JournalCall.record, ActionJournal.rename, hr₁, hhad]
      simp only [JournalRequest.event, hrun, JournalRequest.effect, JournalRequest.lines, hhad,
        if_false]
      exact ⟨(maybeCompact_same _ _).trans hsame₁, fun hb => (hdisk r₁ hb).trans hdisk₁⟩
  | ack upto =>
    by_cases hle : upto ≤ r.state.acked
    · have hrun : JournalEvent.run r (appendingHost b, .ack upto) =
          { r with state := r.state.ackLocal upto } := by
        simp [JournalEvent.run, ActionJournal.ack, hle]
      simp only [JournalRequest.event, hrun, JournalRequest.effect, JournalRequest.lines, hle,
        if_true, List.append_nil, implies_true, and_true]
      exact .refl _
    · set r₁ : ActionJournal := ⟨({ r.state with linesOnDisk := r.state.linesOnDisk + 1 } :
        JournalState).ackLocal upto, r.disk ++ [.ack upto]⟩ with hr₁
      have hrun : JournalEvent.run r (appendingHost b, .ack upto) =
          r₁.maybeCompact (appendingHost b) := by
        simp [JournalEvent.run, ActionJournal.ack, hle, ActionJournal.appendLine, appendingHost, hr₁]
      simp only [JournalRequest.event, hrun, JournalRequest.effect, JournalRequest.lines, hle,
        if_false]
      exact ⟨(maybeCompact_same _ _).trans ((Same.linesOnDisk _ _).ackLocal upto),
        fun hb => hdisk r₁ hb⟩

/-! ## Calls that fail -/

/-- The request writes no byte: it appends nothing, or its first append fails at once. -/
def WritesNothing (c : LineCodec) (o : JournalFile.Outcome) (st : JournalState) (req : JournalRequest) :
    Prop :=
  match req.lines st with
  | [] => True
  | line :: _ => c.toText line = none ∨ o.first = .torn 0

/-- The first append fails after some whole characters of its line, without the newline. -/
def TornFirst (c : LineCodec) (o : JournalFile.Outcome) (st : JournalState)
    (req : JournalRequest) : Prop :=
  match req.lines st with
  | [] => False
  | line :: _ => ∃ text k cut, c.toText line = some text ∧ o.first = .torn k ∧
      (lineBytes text).take k = encodeText cut ∧ '\n' ∉ cut

/-- The last append fails after all of its bytes. -/
def WholeLast (c : LineCodec) (o : JournalFile.Outcome) (st : JournalState)
    (req : JournalRequest) : Prop :=
  match req.lines st with
  | [line] => ∃ text k, c.toText line = some text ∧ o.first = .torn k ∧
      (lineBytes text).length ≤ k
  | [line, line'] => (c.toText line).isSome ∧ o.first = .written ∧
      ∃ text k, c.toText line' = some text ∧ o.second = .torn k ∧ (lineBytes text).length ≤ k
  | _ => False

/-- The request fails with its first append. -/
theorem run_of_first_fails {c : LineCodec} {o : JournalFile.Outcome} {j j' : JournalFile}
    {req : JournalRequest} {line : JournalLine} {rest : List JournalLine}
    (hlines : req.lines j.state = line :: rest)
    (hfails : j.appendLine c o.first line = (false, j')) : req.run c o j = (false, j') := by
  cases req using JournalRequest.byKind with
  | upsert p a =>
    obtain rfl := (List.cons.inj hlines).1
    simp [JournalRequest.run, JournalFile.append, JournalFile.appendEntry, hfails]
  | delete p a =>
    obtain rfl := (List.cons.inj hlines).1
    simp [JournalRequest.run, JournalFile.append, JournalFile.appendEntry, hfails]
  | rename f t a =>
    obtain rfl := (List.cons.inj hlines).1
    simp [JournalRequest.run, JournalFile.rename, JournalFile.appendEntry, hfails]
  | ack upto =>
    simp only [JournalRequest.lines] at hlines
    split at hlines
    · cases hlines
    · next hle =>
      obtain rfl := (List.cons.inj hlines).1
      simp [JournalRequest.run, JournalFile.ack, hle, hfails]

/-- Without records the request is an acknowledgement that came before. -/
theorem run_of_no_lines {c : LineCodec} {o : JournalFile.Outcome} {j : JournalFile}
    {req : JournalRequest} (hlines : req.lines j.state = []) :
    ∃ upto, req = .ack upto ∧ upto ≤ j.state.acked ∧
      req.run c o j = (true, { j with state := j.state.ackLocal upto }) := by
  cases req using JournalRequest.byKind with
  | upsert p a => cases hlines
  | delete p a => cases hlines
  | rename f t a => cases hlines
  | ack upto =>
    simp only [JournalRequest.lines] at hlines
    split at hlines
    · next hle => exact ⟨upto, rfl, hle, by simp [JournalRequest.run, JournalFile.ack, hle]⟩
    · cases hlines

theorem WritesNothing.run {c : LineCodec} {o : JournalFile.Outcome} {j : JournalFile}
    {req : JournalRequest} (h : WritesNothing c o j.state req) :
    req.run c o j = (false, j) ∨
      ∃ upto, req = .ack upto ∧ upto ≤ j.state.acked ∧
        req.run c o j = (true, { j with state := j.state.ackLocal upto }) := by
  unfold WritesNothing at h
  split at h
  · next hlines => exact .inr (run_of_no_lines hlines)
  · next line rest hlines =>
    refine .inl (run_of_first_fails hlines ?_)
    unfold JournalFile.appendLine
    rcases h with h | h
    · rw [h]
    · rw [h]
      cases c.toText line <;> simp

theorem TornFirst.run {c : LineCodec} {o : JournalFile.Outcome} {j : JournalFile}
    {req : JournalRequest} (h : TornFirst c o j.state req) :
    ∃ cut, '\n' ∉ cut ∧
      req.run c o j = (false, { j with bytes := j.bytes ++ encodeText cut }) := by
  unfold TornFirst at h
  split at h
  · exact h.elim
  · next line rest hlines =>
    obtain ⟨text, k, cut, htext, hfirst, hcut, hnl⟩ := h
    refine ⟨cut, hnl, run_of_first_fails hlines ?_⟩
    simp [JournalFile.appendLine, htext, hfirst, hcut]

/-- The request has failed, but all its records are in the file. -/
theorem WholeLast.run {c : LineCodec} {o : JournalFile.Outcome} {j : JournalFile}
    {r : ActionJournal} (hr : Refines c j r) (hw : r.state.WellFormed) {req : JournalRequest}
    (h : WholeLast c o j.state req) :
    ∃ j', req.run c o j = (false, j') ∧ Written c j'.bytes (r.disk ++ req.lines r.state) ∧
      j'.state.acked = j.state.acked := by
  unfold WholeLast at h
  split at h
  · next line hlines =>
    obtain ⟨text, k, htext, hfirst, hk⟩ := h
    refine ⟨{ j with bytes := j.bytes ++ lineBytes text }, run_of_first_fails hlines ?_, ?_, rfl⟩
    · simp [JournalFile.appendLine, htext, hfirst, List.take_of_length_le hk]
    · rw [← hr.state, hlines]
      exact hr.written.append htext
  · next line line' hlines =>
    obtain ⟨hsome, hfirst, text', k, htext', hsecond, hk⟩ := h
    obtain ⟨text, htext⟩ := Option.isSome_iff_exists.mp hsome
    cases req using JournalRequest.byKind with
    | upsert p a => cases hlines
    | delete p a => cases hlines
    | ack upto =>
      simp only [JournalRequest.lines] at hlines
      split at hlines <;> cases hlines
    | rename f t a =>
      rw [hr.state] at hlines
      simp only [JournalRequest.lines] at hlines
      obtain ⟨hline, hrest⟩ := List.cons.inj hlines
      split at hrest
      · next hhad =>
        obtain rfl := hline
        obtain rfl := (List.cons.inj hrest).1
        set st : JournalState := { r.state with linesOnDisk := r.state.linesOnDisk + 1 } with hst
        have hseq : st.nextSeq ≤ (⟨r.state.nextSeq, .rename t, f, a⟩ : JournalEntry).seq :=
          Nat.le_refl _
        obtain ⟨-, hnext, -⟩ := (hw.linesOnDisk (r.state.linesOnDisk + 1)).apply hseq
        refine ⟨⟨st.apply ⟨r.state.nextSeq, .rename t, f, a⟩,
          j.bytes ++ lineBytes text ++ lineBytes text'⟩, ?_, ?_, ?_⟩
        · simp only [JournalRequest.run, JournalFile.rename, JournalFile.appendEntry,
            JournalFile.appendLine, hr.state, htext, hfirst, hsecond, hhad, hnext, htext',
            decide_true, if_true, not_false_eq_true, ne_eq, List.take_of_length_le hk, hst]
        · have hwritten := (hr.written.append htext).append htext'
          simpa [JournalRequest.lines, hhad] using hwritten
        · rw [(keeps_apply _ _).acked, hr.state]
      · cases hrest
  · exact h.elim

/-! ## Runs -/

/-- A request and how its file operations end. -/
abbrev JournalStep := JournalFile.Outcome × JournalRequest

def runSteps (c : LineCodec) (j : JournalFile) (steps : List JournalStep) : JournalFile :=
  steps.foldl (fun j x => (x.2.run c x.1 j).2) j

/-- The requests with their answers. -/
def answers (c : LineCodec) (j : JournalFile) : List JournalStep → List (JournalRequest × Bool)
  | [] => []
  | (o, req) :: rest => (req, (req.run c o j).1) :: answers c (req.run c o j).2 rest

/-- The requests that succeeded, and some of those that failed, in their order. -/
inductive Kept : List (JournalRequest × Bool) → List JournalRequest → Prop where
  | nil : Kept [] []
  | keep (req ok) {answers kept} : Kept answers kept → Kept ((req, ok) :: answers) (req :: kept)
  | drop (req) {answers kept} : Kept answers kept → Kept ((req, false) :: answers) kept

/-- The requests, one after the other, on a journal whose file operations succeed. -/
def redo (r : ActionJournal) (reqs : List JournalRequest) : ActionJournal :=
  reqs.foldl (fun r req => JournalEvent.run r (appendingHost true, req.event)) r

/-- No request of the run writes a byte. -/
def Silent (c : LineCodec) (j : JournalFile) : List JournalStep → Prop
  | [] => True
  | (o, req) :: rest => WritesNothing c o j.state req ∧ Silent c (req.run c o j).2 rest

/-- Where a request fails it has written nothing; or it is the last one that writes, and has
    written a part of its first line or all of its lines. A file that is rewritten finds settled
    entries. -/
def Harmless (c : LineCodec) (j : JournalFile) : List JournalStep → Prop
  | [] => True
  | (o, req) :: rest =>
    if (req.run c o j).1 then
      (o.compacted = true → 0 < (req.lines j.state).length →
        compactMinLines ≤ j.state.linesOnDisk + (req.lines j.state).length →
        Settled (req.effect j.state).entries.values) ∧
      Harmless c (req.run c o j).2 rest
    else
      (WritesNothing c o j.state req ∧ Harmless c (req.run c o j).2 rest) ∨
      ((TornFirst c o j.state req ∨ WholeLast c o j.state req) ∧ Silent c (req.run c o j).2 rest)

/-- Redoing a request. -/
theorem ActionJournal.Faithful.redoOne {r : ActionJournal} (hr : r.Faithful)
    (req : JournalRequest) :
    (JournalEvent.run r (appendingHost true, req.event)).Faithful := by
  refine (hr.run (fun _ => rfl) req.event).faithful fun hc => ?_
  have hfails : (appendingHost true).fails .compactJournal = true := rfl
  cases req with
  | call c => simp [JournalRequest.event, JournalEvent.Compacts, hfails] at hc
  | ack upto => simp [JournalRequest.event, JournalEvent.Compacts, hfails] at hc

/-- After the last write the rest changes nothing, in the file or in a journal that has
    acknowledged as much. -/
theorem Silent.run {c : LineCodec} {j : JournalFile} {steps : List JournalStep}
    (h : Silent c j steps) :
    (runSteps c j steps).bytes = j.bytes ∧
      ∃ kept, Kept (answers c j steps) kept ∧ ∀ r : ActionJournal, r.Faithful →
        j.state.acked ≤ r.state.acked → (redo r kept).state.Same r.state := by
  induction steps generalizing j with
  | nil => exact ⟨rfl, [], .nil, fun r _ _ => .refl _⟩
  | cons x rest ih =>
    obtain ⟨o, req⟩ := x
    obtain ⟨hquiet, hrest⟩ := h
    obtain ⟨hbytes, kept, hkept, hredo⟩ := ih hrest
    rcases hquiet.run with hrun | ⟨upto, rfl, hle, hrun⟩
    · rw [hrun] at hbytes hkept hredo
      refine ⟨?_, kept, ?_, hredo⟩
      · rw [← hbytes]
        simp [runSteps, hrun]
      · simp only [answers, hrun]
        exact .drop req hkept
    · rw [hrun] at hbytes hkept hredo
      refine ⟨?_, .ack upto :: kept, ?_, fun r hr hacked => ?_⟩
      · rw [show j.bytes = ({ j with state := j.state.ackLocal upto } : JournalFile).bytes from rfl,
          ← hbytes]
        simp [runSteps, hrun]
      · simp only [answers, hrun]
        exact .keep _ _ hkept
      · have hone := hr.redoOne (.ack upto)
        have hsame := (run_effect hr.sound.wellFormed true (.ack upto)).1.trans
          (hr.sound.ackLocal_same (hle.trans hacked))
        refine (hredo _ hone ?_).trans hsame
        rw [hsame.acked, acked_ackLocal]
        omega

theorem reopen_of_harmless {c : LineCodec} (hc : c.Lawful) (compacted : Bool)
    (steps : List JournalStep) {j : JournalFile} {r k : ActionJournal} (hr : Refines c j r)
    (hf : r.Faithful) (hk : k.Faithful) (hsame : r.state.Same k.state) (h : Harmless c j steps) :
    ∃ kept, Kept (answers c j steps) kept ∧
      (JournalFile.openFile c compacted (runSteps c j steps).bytes).state.Same
        (redo k kept).state := by
  induction steps generalizing j r k with
  | nil =>
    refine ⟨[], .nil, ?_⟩
    have hopen := openFile_written hc hr.written (show '\n' ∉ ([] : List Char) by simp) compacted
    rw [show encodeText [] = [] from rfl, List.append_nil] at hopen
    exact hopen.trans (hf.same.trans hsame)
  | cons x rest ih =>
    obtain ⟨o, req⟩ := x
    have hw := hf.sound.wellFormed
    -- The request, redone on the journal to compare with.
    have hk' := hk.redoOne req
    have heffect := (run_effect hk.sound.wellFormed true req).1
    have hmatch := effect_same hw hk.sound.wellFormed hsame req
    unfold Harmless at h
    cases hrun : req.run c o j with
    | mk ok j' =>
    have hsteps : ∀ kept, (runSteps c j' rest).bytes = (runSteps c j ((o, req) :: rest)).bytes ∧
        (Kept (answers c j' rest) kept →
          Kept (answers c j ((o, req) :: rest)) (req :: kept)) ∧
        (ok = false → Kept (answers c j' rest) kept →
          Kept (answers c j ((o, req) :: rest)) kept) := by
      intro kept
      refine ⟨by simp [runSteps, hrun], fun hkept => ?_, fun hok hkept => ?_⟩
      · simp only [answers, hrun]
        exact .keep _ _ hkept
      · simp only [answers, hrun, hok]
        exact .drop _ hkept
    rw [hrun] at h
    cases ok with
    | true =>
      simp only [if_true] at h
      obtain ⟨hsettled, hrest⟩ := h
      obtain ⟨b, hb, hr'⟩ := run_refines hr hrun
      have hsame' := (run_effect hw b req).1
      have hf' : (JournalEvent.run r (appendingHost b, req.event)).Faithful := by
        refine (hf.run (fun _ => rfl) req.event).faithful fun hcompacts => ?_
        show Settled (JournalEvent.run r (appendingHost b, req.event)).state.entries.values
        rw [hsame'.entries, ← hr.state]
        rw [hr.state, length_lines] at hsettled
        have hcompacts' : b = false ∧ 0 < req.event.records r.state ∧
            compactMinLines ≤ r.state.linesOnDisk + req.event.records r.state := by
          cases req with
          | call c => exact hcompacts
          | ack upto => exact hcompacts
        rw [hr.state]
        exact hsettled (hb hcompacts'.1) hcompacts'.2.1 hcompacts'.2.2
      obtain ⟨kept, hkept, hopen⟩ := ih hr' hf' hk'
        (hsame'.trans (hmatch.trans heffect.symm)) hrest
      refine ⟨req :: kept, (hsteps kept).2.1 hkept, ?_⟩
      rw [← (hsteps kept).1]
      exact hopen
    | false =>
      simp only [Bool.false_eq_true, if_false] at h
      rcases h with ⟨hquiet, hrest⟩ | ⟨htorn | hwhole, hsilent⟩
      · -- Nothing was written: as if the call had not been made.
        have hj : j' = j := by
          rcases hquiet.run with hq | ⟨_, _, _, hq⟩
          · rw [hrun] at hq
            exact (Prod.mk.inj hq).2
          · rw [hrun] at hq
            cases hq
        subst hj
        obtain ⟨kept, hkept, hopen⟩ := ih hr hf hk hsame hrest
        refine ⟨kept, (hsteps kept).2.2 rfl hkept, ?_⟩
        rw [← (hsteps kept).1]
        exact hopen
      · -- A torn tail is skipped.
        obtain ⟨cut, hnl, hq⟩ := htorn.run
        rw [hrun] at hq
        obtain rfl := (Prod.mk.inj hq).2
        obtain ⟨hbytes, kept, hkept, hredo⟩ := hsilent.run
        refine ⟨kept, (hsteps kept).2.2 rfl hkept, ?_⟩
        rw [← (hsteps kept).1, hbytes]
        have hacked : j.state.acked ≤ k.state.acked := by rw [hr.state, hsame.acked]
        exact (openFile_written hc hr.written hnl compacted).trans
          (hf.same.trans (hsame.trans (hredo k hk hacked).symm))
      · -- The call is in the file although it failed.
        obtain ⟨j₁, hq, hwritten, hacked⟩ := hwhole.run hr hw
        rw [hrun] at hq
        obtain rfl := (Prod.mk.inj hq).2
        obtain ⟨hbytes, kept, hkept, hredo⟩ := hsilent.run
        refine ⟨req :: kept, (hsteps kept).2.1 hkept, ?_⟩
        rw [← (hsteps kept).1, hbytes]
        have hdone := hf.redoOne req
        obtain ⟨hsame', hdisk⟩ := run_effect hw true req
        have hopen := openFile_written hc hwritten (show '\n' ∉ ([] : List Char) by simp) compacted
        rw [show encodeText [] = [] from rfl, List.append_nil, ← hdisk rfl] at hopen
        have hall := hopen.trans (hdone.same.trans (hsame'.trans (hmatch.trans heffect.symm)))
        refine hall.trans (hredo _ hk' ?_).symm
        rw [hacked, hr.state, hsame.acked, heffect.acked]
        exact acked_le_effect k.state req

theorem Silent.of_initial {c : LineCodec} {j : JournalFile} {pre steps : List JournalStep}
    (hpre : pre <+: steps) (h : Silent c j steps) : Silent c j pre := by
  induction pre generalizing j steps with
  | nil => trivial
  | cons x pre ih =>
    obtain ⟨rest, rfl⟩ := hpre
    exact ⟨h.1, ih ⟨rest, rfl⟩ h.2⟩

theorem Harmless.of_initial {c : LineCodec} {j : JournalFile} {pre steps : List JournalStep}
    (hpre : pre <+: steps) (h : Harmless c j steps) : Harmless c j pre := by
  induction pre generalizing j steps with
  | nil => trivial
  | cons x pre ih =>
    obtain ⟨o, req⟩ := x
    obtain ⟨rest, rfl⟩ := hpre
    simp only [List.cons_append, Harmless] at h ⊢
    split
    · next hok =>
      rw [if_pos hok] at h
      exact ⟨h.1, ih ⟨rest, rfl⟩ h.2⟩
    · next hok =>
      rw [if_neg hok] at h
      exact h.imp (fun h => ⟨h.1, ih ⟨rest, rfl⟩ h.2⟩)
        (fun h => ⟨h.1, h.2.of_initial ⟨rest, rfl⟩⟩)

/-- A journal that has gone through harmless failures comes back as the one on which the calls
    that succeeded were made, and each failed one either was made or was not. -/
theorem reopen_survives {c : LineCodec} (hc : c.Lawful) (steps : List JournalStep)
    (h : Harmless c ⟨.init, []⟩ steps) (compacted : Bool) :
    ∀ pre, pre <+: steps → ∃ kept, Kept (answers c ⟨.init, []⟩ pre) kept ∧
      (JournalFile.openFile c compacted (runSteps c ⟨.init, []⟩ pre).bytes).state.Same
        (redo ⟨.init, []⟩ kept).state := by
  intro pre hpre
  have hstart : Refines c ⟨.init, []⟩ ⟨.init, []⟩ := ⟨rfl, [], .nil, rfl⟩
  exact reopen_of_harmless hc compacted pre hstart faithful_fresh faithful_fresh (.refl _)
    (h.of_initial hpre)

/-- The JSON text of an upsert with seq 1. -/
def upsertText (path stamp : Char) : List Char :=
  ['{', '\x22', 's', 'e', 'q', '\x22', ':', '1', ',', '\x22', 'o', 'p', '\x22', ':', '\x22', 'u', 'p',
    's', 'e', 'r', 't', '\x22', ',', '\x22', 'p', 'a', 't', 'h', '\x22', ':', '\x22', path, '\x22', ',',
    '\x22', 'a', 'c', 't', 'i', 'o', 'n', '_', 'm', 's', '\x22', ':', stamp, '}']

def upsertA : JournalLine := .entry 1 "upsert" (.ofNames ["a"]) none 1

def upsertB : JournalLine := .entry 1 "upsert" (.ofNames ["b"]) none 2

/-- The text of two records; no other one is written below. -/
def twoRecords : LineCodec where
  toText line :=
    if line = upsertA then some (upsertText 'a' '1')
    else if line = upsertB then some (upsertText 'b' '2')
    else none
  fromText text :=
    if text = upsertText 'a' '1' then some upsertA
    else if text = upsertText 'b' '2' then some upsertB
    else none

theorem twoRecords_cases {line : JournalLine} {text : List Char}
    (h : twoRecords.toText line = some text) :
    (line = upsertA ∧ text = upsertText 'a' '1') ∨ (line = upsertB ∧ text = upsertText 'b' '2') := by
  simp only [twoRecords] at h
  split at h
  · next hline => exact .inl ⟨hline, (Option.some.inj h).symm⟩
  · split at h
    · next hline => exact .inr ⟨hline, (Option.some.inj h).symm⟩
    · cases h

theorem lawful_twoRecords : twoRecords.Lawful := by
  refine ⟨fun line text h => ?_, fun line text h => ?_, fun line text h => ?_⟩ <;>
    rcases twoRecords_cases h with ⟨rfl, rfl⟩ | ⟨rfl, rfl⟩ <;> decide +kernel

private def upserts (first : AppendOutcome) : List JournalStep :=
  [(⟨first, .written, true⟩, .call (.upsert (.ofNames ["a"]) 1)),
    (⟨.written, .written, true⟩, .call (.upsert (.ofNames ["b"]) 2))]

theorem reopen_survives_unwritten :
    ∃ kept, Kept (answers twoRecords ⟨.init, []⟩ (upserts (.torn 0))) kept ∧
      (JournalFile.openFile twoRecords true
        (runSteps twoRecords ⟨.init, []⟩ (upserts (.torn 0))).bytes).state.Same
          (redo ⟨.init, []⟩ kept).state := by
  have hharmless : Harmless twoRecords ⟨.init, []⟩ (upserts (.torn 0)) := by
    refine .inl ⟨.inr rfl, ?_⟩
    exact ⟨fun _ _ hlong => absurd hlong (by decide), trivial⟩
  exact reopen_survives lawful_twoRecords (upserts (.torn 0)) hharmless true _ (List.prefix_refl _)

/-- Five bytes of the first upsert spoil the second one, which succeeds. -/
theorem reopen_loses_next_upsert :
    twoRecords.Lawful ∧ ¬ ∃ kept, Kept (answers twoRecords ⟨.init, []⟩ (upserts (.torn 5))) kept ∧
      (JournalFile.openFile twoRecords true
        (runSteps twoRecords ⟨.init, []⟩ (upserts (.torn 5))).bytes).state.Same
          (redo ⟨.init, []⟩ kept).state := by
  refine ⟨lawful_twoRecords, ?_⟩
  rintro ⟨kept, hkept, hsame⟩
  have hbytes : (runSteps twoRecords ⟨.init, []⟩ (upserts (.torn 5))).bytes =
      encodeText ((upsertText 'a' '1').take 5 ++ upsertText 'b' '2' ++ ['\n']) := by decide +kernel
  have hempty : (JournalFile.openFile twoRecords true
      (runSteps twoRecords ⟨.init, []⟩ (upserts (.torn 5))).bytes).state.entries.values = [] := by
    rw [hbytes]
    unfold JournalFile.openFile
    rw [decodeText_encodeText]
    decide +kernel
  rw [hsame.entries] at hempty
  have hanswers : answers twoRecords ⟨.init, []⟩ (upserts (.torn 5)) =
      [(.call (.upsert (.ofNames ["a"]) 1), false), (.call (.upsert (.ofNames ["b"]) 2), true)] := rfl
  rw [hanswers] at hkept
  -- The second upsert is among the kept ones in any case.
  cases hkept with
  | keep _ _ hrest =>
    cases hrest with
    | keep _ _ hrest =>
      cases hrest
      exact absurd hempty (by decide +kernel)
  | drop _ hrest =>
    cases hrest with
    | keep _ _ hrest =>
      cases hrest
      exact absurd hempty (by decide +kernel)

end ByteHive
