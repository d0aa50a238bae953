import ByteHive.ForStd.Utf8Cut
import ByteHive.Spec.JournalTorn

/-!
# The journal file behind failed appends

Appends go on after one has failed. The bytes it has left are glued to the next line, which is no
record then, or they end inside a character, and the file is no text any more. Whatever happens,
the records that `open` finds (`JournalFile.records`) are among those whose lines were written as a
whole, in their order.

Key results:
- `shaped_append`: some more bytes of a line
- `appendLine_spec`: one append, however it ends
-/

namespace ByteHive

/-- The number that the record carries. -/
def JournalLine.number : JournalLine → Nat
  | .ack upto => upto
  | .entry seq _ _ _ _ => seq

@[simp] theorem number_toLine (e : JournalEntry) : e.toLine.number = e.seq := by
  obtain ⟨seq, op, path, a⟩ := e
  cases op <;> rfl

/-- Parts of the lines of records, one behind the other. -/
inductive Torn (c : LineCodec) : List Char → Prop where
  | nil : Torn c []
  | part {cut part text : List Char} {line : JournalLine} (before : Torn c cut)
      (written : c.toText line = some text) (isPart : part <+: text) : Torn c (cut ++ part)

/-- What holds of the texts of JSON objects: one with parts of others in front of it is no record. -/
def LineCodec.Strict (c : LineCodec) : Prop :=
  ∀ cut line text, Torn c cut → cut ≠ [] → c.toText line = some text →
    c.fromText (cut ++ text) = none

/-- The record of one line of the text. -/
def readRecord (c : LineCodec) (row : List Char) : Option JournalLine :=
  if row.all isWhiteSpace then none else c.fromText row

namespace JournalFile

/-- The records that `open` finds. -/
def records (c : LineCodec) (bytes : List UInt8) : List JournalLine :=
  match decodeText bytes with
  | none => []
  | some text => (text.splitOn '\n').dropLast.filterMap (readRecord c)

/-- If the file is a text, it has parts of lines behind its last newline. -/
def Shaped (c : LineCodec) (bytes : List UInt8) : Prop :=
  ∀ text, decodeText bytes = some text →
    ∃ texts cut, text = fileText texts cut ∧ (∀ t ∈ texts, '\n' ∉ t) ∧ Torn c cut

variable {c : LineCodec} {bytes : List UInt8} {line : JournalLine} {text : List Char}

theorem decodeText_eq_some_iff : decodeText bytes = some text ↔ bytes = encodeText text :=
  Utf8Cut.decode_eq_some_iff

theorem records_fileText {texts : List (List Char)} {cut : List Char}
    (htexts : ∀ t ∈ texts, '\n' ∉ t) (hcut : '\n' ∉ cut) :
    records c (encodeText (fileText texts cut)) = texts.filterMap (readRecord c) := by
  rw [records, decodeText_encodeText]
  simp only [splitOn_fileText htexts hcut, List.dropLast_concat]

theorem notMem_of_torn (hc : c.Lawful) {cut : List Char} (h : Torn c cut) : '\n' ∉ cut := by
  induction h with
  | nil => exact List.not_mem_nil
  | part _ hwritten hpart ih =>
    rw [List.mem_append, not_or]
    exact ⟨ih, fun hmem => hc.oneLine _ _ hwritten (hpart.subset hmem)⟩

/-- A line is read back, but not behind parts of others. -/
theorem readRecord_append (hc : c.Lawful) (hs : c.Strict) {cut : List Char} (hcut : Torn c cut)
    (htext : c.toText line = some text) :
    readRecord c (cut ++ text) = if cut = [] then some line else none := by
  rw [readRecord]
  by_cases hnil : cut = []
  · rw [if_pos hnil, hnil, List.nil_append, hc.visible line text htext, hc.read line text htext]
    rfl
  · rw [if_neg hnil, hs cut line text hcut hnil htext]
    exact ite_self _

/-- More bytes of a line keep the shape of the file, and add its record at most where they are all
    of it. -/
theorem shaped_append (hc : c.Lawful) (hs : c.Strict) (h : Shaped c bytes)
    (htext : c.toText line = some text) {part : List UInt8} (hpart : part <+: lineBytes text) :
    Shaped c (bytes ++ part) ∧
      List.Sublist (records c (bytes ++ part))
        (records c bytes ++ if part = lineBytes text then [line] else []) := by
  cases hdecode : decodeText (bytes ++ part) with
  | none =>
    refine ⟨fun whole hwhole => ?_, ?_⟩
    · rw [hdecode] at hwhole
      cases hwhole
    · rw [records, hdecode]
      exact List.nil_sublist _
  | some whole =>
    obtain ⟨before, cut', hbytes, hcut', rfl, hpre⟩ :=
      Utf8Cut.exists_of_append hpart (decodeText_eq_some_iff.mp hdecode)
    obtain ⟨texts, cut, rfl, htexts, hcut⟩ := h before (decodeText_eq_some_iff.mpr hbytes)
    have hnl := notMem_of_torn hc hcut
    have hold : records c bytes = texts.filterMap (readRecord c) := by
      rw [hbytes]
      exact records_fileText htexts hnl
    obtain heq | hproper := List.prefix_concat_iff.mp hpre
    · -- the whole line, which ends what was there before
      have hline : ∀ t ∈ texts ++ [cut ++ text], '\n' ∉ t := by
        intro t ht
        obtain ht | ht := List.mem_append.mp ht
        · exact htexts t ht
        · rw [List.mem_singleton.mp ht, List.mem_append, not_or]
          exact ⟨hnl, hc.oneLine line text htext⟩
      have hwhole : fileText texts cut ++ cut' = fileText (texts ++ [cut ++ text]) [] := by
        rw [heq]
        simp [fileText]
      have hpartEq : part = lineBytes text := by
        rw [hcut', heq]
        rfl
      refine ⟨fun w hw => ⟨_, [], ?_, hline, .nil⟩, ?_⟩
      · rw [hdecode] at hw
        rw [← Option.some.inj hw, hwhole]
      · rw [decodeText_eq_some_iff.mp hdecode, hwhole, records_fileText hline List.not_mem_nil,
          List.filterMap_append, hold, if_pos hpartEq]
        refine List.Sublist.append_left ?_ _
        rw [List.filterMap_cons, readRecord_append hc hs hcut htext]
        split <;> simp_all
    · have hwhole : fileText texts cut ++ cut' = fileText texts (cut ++ cut') := by
        simp [fileText]
      have hcutPart : Torn c (cut ++ cut') := .part hcut htext hproper
      refine ⟨fun w hw => ⟨texts, cut ++ cut', ?_, htexts, hcutPart⟩, ?_⟩
      · rw [hdecode] at hw
        rw [← Option.some.inj hw, hwhole]
      · rw [decodeText_eq_some_iff.mp hdecode, hwhole,
          records_fileText htexts (notMem_of_torn hc hcutPart), hold]
        exact List.sublist_append_left _ _

/-! ## One append -/

/-- The append leaves the whole line in the file, even if it reports an error. -/
def Leaves (c : LineCodec) (o : AppendOutcome) (line : JournalLine) : Prop :=
  ∃ text, c.toText line = some text ∧ ∀ k, o = .torn k → (lineBytes text).length ≤ k

/-- An append changes the state in the line count only, and the file by its record at most. -/
theorem appendLine_spec (hc : c.Lawful) (hs : c.Strict) {j : JournalFile} (h : Shaped c j.bytes)
    (o : AppendOutcome) (line : JournalLine) :
    Shaped c (j.appendLine c o line).2.bytes ∧
      (∃ n, (j.appendLine c o line).2.state = { j.state with linesOnDisk := n }) ∧
      ((j.appendLine c o line).1 = true → Leaves c o line) ∧
      (List.Sublist (records c (j.appendLine c o line).2.bytes) (records c j.bytes) ∨
        Leaves c o line ∧
          List.Sublist (records c (j.appendLine c o line).2.bytes) (records c j.bytes ++ [line])) := by
  rw [appendLine]
  split
  · refine ⟨h, ⟨_, rfl⟩, fun hok => ?_, .inl (List.Sublist.refl _)⟩
    cases hok
  · next text htext =>
    split
    · obtain ⟨hshaped, hsub⟩ := shaped_append hc hs h htext (List.prefix_refl (lineBytes text))
      rw [if_pos rfl] at hsub
      have hleaves : Leaves c .written line := by
        refine ⟨text, htext, fun k hk => ?_⟩
        cases hk
      exact ⟨hshaped, ⟨_, rfl⟩, fun _ => hleaves, .inr ⟨hleaves, hsub⟩⟩
    · next k =>
      obtain ⟨hshaped, hsub⟩ := shaped_append hc hs h htext (List.take_prefix k (lineBytes text))
      refine ⟨hshaped, ⟨_, rfl⟩, fun hok => ?_, ?_⟩
      · cases hok
      · by_cases hk : (lineBytes text).length ≤ k
        · rw [if_pos (List.take_of_length_le hk)] at hsub
          refine .inr ⟨⟨text, htext, fun k' hk' => ?_⟩, hsub⟩
          cases hk'
          exact hk
        · rw [if_neg, List.append_nil] at hsub
          · exact .inl hsub
          · intro heq
            have hlen := congrArg List.length heq
            rw [List.length_take] at hlen
            omega

end JournalFile

end ByteHive
