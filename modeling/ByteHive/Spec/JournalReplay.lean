import ByteHive.Spec.JournalSeq

/-!
# Reading the journal back

`open` applies the records of the file with the rules that append uses, so a file that was
only appended to gives the journal in memory back. A compacted file holds the pending
entries themselves, and these go through the rules once more: they come back exactly when
none of them supersedes an older one (`Settled`). A rename that a delete has rewritten in
place can break this.

Key results:
- `readBack_compactedLines_iff`: when a compacted file gives the pending entries back
- `reopen_iff_settled`: along every run of calls, compactions and restarts
-/

namespace ByteHive

namespace JournalState

/-! ## What coalescing leaves alone -/

/-- The acked mark and the line count stay. -/
structure Keeps (st st' : JournalState) : Prop where
  acked : st'.acked = st.acked
  linesOnDisk : st'.linesOnDisk = st.linesOnDisk

theorem Keeps.refl (st : JournalState) : st.Keeps st := ⟨rfl, rfl⟩

theorem Keeps.trans {st st' st'' : JournalState} (h : st.Keeps st') (h' : st'.Keeps st'') :
    st.Keeps st'' := ⟨h'.acked.trans h.acked, h'.linesOnDisk.trans h.linesOnDisk⟩

theorem keeps_insert (st : JournalState) (e : JournalEntry) : st.Keeps (st.insert e) := ⟨rfl, rfl⟩

theorem keeps_remove (st : JournalState) (s : Nat) : st.Keeps (st.remove s) := by
  unfold remove
  split <;> exact ⟨rfl, rfl⟩

/-- What `insert` and `remove` keep is kept by one victim of a delete, and by the rules as a whole. -/
theorem coalesceDelete_keeps {P : JournalState → Prop}
    (hinsert : ∀ st e, P st → P (st.insert e)) (hremove : ∀ st s, P st → P (st.remove s))
    {st : JournalState} (h : P st) (p : PathBuf) (s : Nat) : P (st.coalesceDelete p s) := by
  have hremoved := hremove st s h
  unfold coalesceDelete
  split
  · exact h
  · split
    · exact hremoved
    · exact hremoved
    · split
      · split
        · exact hremoved
        · exact hinsert _ _ hremoved
      · split
        · exact hinsert _ _ hremoved
        · exact h

theorem apply_keeps {P : JournalState → Prop} (hinsert : ∀ st e, P st → P (st.insert e))
    (hremove : ∀ st s, P st → P (st.remove s)) {st : JournalState} (h : P st)
    (new : JournalEntry) : P (st.apply new) := by
  have hall : ∀ {st : JournalState} (seqs : List Nat), P st → P (seqs.foldl remove st) :=
    fun seqs h => List.foldlRecOn seqs remove h fun st h s _ => hremove st s h
  unfold apply
  split
  · exact hinsert _ _ (hall _ h)
  · refine hinsert _ _ (List.foldlRecOn _ _ h fun st h s _ => ?_)
    exact coalesceDelete_keeps hinsert hremove h new.path s
  · exact hinsert _ _ (hall _ (hall _ h))

theorem keeps_apply (st : JournalState) (e : JournalEntry) : st.Keeps (st.apply e) :=
  apply_keeps (fun st' e h => h.trans (keeps_insert st' e))
    (fun st' s h => h.trans (keeps_remove st' s)) (.refl st) e

theorem keeps_foldl_remove (st : JournalState) (seqs : List Nat) :
    st.Keeps (seqs.foldl remove st) :=
  List.foldlRecOn seqs remove (.refl st) fun st' h s _ => h.trans (keeps_remove st' s)

@[simp] theorem acked_apply (st : JournalState) (e : JournalEntry) :
    (st.apply e).acked = st.acked := (keeps_apply st e).acked

@[simp] theorem acked_ackLocal (st : JournalState) (upto : Nat) :
    (st.ackLocal upto).acked = max st.acked upto := by
  show max ((st.entries.keys.filter (· ≤ upto)).foldl remove st).acked upto = _
  rw [(keeps_foldl_remove st _).acked]

theorem WellFormed.ackLocal {st : JournalState} (hw : st.WellFormed) (upto : Nat) :
    (st.ackLocal upto).WellFormed := by
  have h := hw.foldl_remove (st.entries.keys.filter (· ≤ upto))
  refine ⟨h.seq_eq, fun s e he => ?_, h.byPath, h.byTo⟩
  exact lt_of_lt_of_le (h.lt_nextSeq s e he) (Nat.le_max_left _ _)

theorem WellFormed.linesOnDisk {st : JournalState} (hw : st.WellFormed) (n : Nat) :
    { st with linesOnDisk := n }.WellFormed := ⟨hw.seq_eq, hw.lt_nextSeq, hw.byPath, hw.byTo⟩

/-! ## Journals with the same content -/

/-- The same pending entries, acked mark and next seq. -/
structure Same (st st' : JournalState) : Prop where
  entries : st.entries = st'.entries
  acked : st.acked = st'.acked
  nextSeq : st.nextSeq = st'.nextSeq

theorem Same.refl (st : JournalState) : st.Same st := ⟨rfl, rfl, rfl⟩

theorem Same.symm {st st' : JournalState} (h : st.Same st') : st'.Same st :=
  ⟨h.entries.symm, h.acked.symm, h.nextSeq.symm⟩

theorem Same.trans {st st' st'' : JournalState} (h : st.Same st') (h' : st'.Same st'') :
    st.Same st'' :=
  ⟨h.entries.trans h'.entries, h.acked.trans h'.acked, h.nextSeq.trans h'.nextSeq⟩

theorem Same.linesOnDisk (st : JournalState) (n : Nat) : { st with linesOnDisk := n }.Same st :=
  ⟨rfl, rfl, rfl⟩

theorem Same.apply {st st' : JournalState} (h : st.Same st') (hw : st.WellFormed)
    (hw' : st'.WellFormed) {new : JournalEntry} (hseq : st.nextSeq ≤ new.seq) :
    (st.apply new).Same (st'.apply new) := by
  obtain ⟨-, hnext, hget⟩ := hw.apply hseq
  obtain ⟨-, hnext', hget'⟩ := hw'.apply (h.nextSeq ▸ hseq)
  refine ⟨OrdMap.ext_get fun s => ?_, ?_, hnext.trans hnext'.symm⟩
  · rw [hget, hget', h.entries]
  · rw [acked_apply, acked_apply, h.acked]

theorem Same.ackLocal {st st' : JournalState} (h : st.Same st') (upto : Nat) :
    (st.ackLocal upto).Same (st'.ackLocal upto) := by
  refine ⟨OrdMap.ext_get fun s => ?_, ?_, ?_⟩
  · rw [get_ackLocal, get_ackLocal, h.entries]
  · rw [acked_ackLocal, acked_ackLocal, h.acked]
  · rw [nextSeq_ackLocal, nextSeq_ackLocal, h.nextSeq]

/-! ## The journal in memory -/

/-- Entries are above the acked mark, and the next seq is the least one that is free for both. -/
structure Sound (st : JournalState) : Prop where
  wellFormed : st.WellFormed
  above : ∀ s e, st.entries.get s = some e → st.acked < s
  acked_lt : st.acked < st.nextSeq
  tight : st.nextSeq = st.acked + 1 ∨ (st.entries.get (st.nextSeq - 1)).isSome

/-- The acked mark is below the entries and the next seq. -/
structure Bounded (st : JournalState) : Prop where
  above : ∀ s e, st.entries.get s = some e → st.acked < s
  acked_lt : st.acked < st.nextSeq

theorem Bounded.apply {st : JournalState} (h : st.Bounded) (hw : st.WellFormed)
    {new : JournalEntry} (hseq : st.nextSeq ≤ new.seq) : (st.apply new).Bounded := by
  obtain ⟨-, hnext, hget⟩ := hw.apply hseq
  have hlt := h.acked_lt
  refine ⟨fun s e he => ?_, ?_⟩
  · rw [acked_apply]
    rw [hget] at he
    split at he
    · next hs => omega
    · obtain ⟨e', he', -⟩ := Option.bind_eq_some_iff.mp he
      exact h.above s e' he'
  · rw [acked_apply, hnext]
    omega

theorem Bounded.ackLocal {st : JournalState} (h : st.Bounded) (upto : Nat) :
    (st.ackLocal upto).Bounded := by
  have hlt := h.acked_lt
  refine ⟨fun s e he => ?_, ?_⟩
  · rw [get_ackLocal] at he
    rw [acked_ackLocal]
    split at he
    · cases he
    · have := h.above s e he
      omega
  · rw [acked_ackLocal, nextSeq_ackLocal]
    omega

theorem Sound.bounded {st : JournalState} (hst : st.Sound) : st.Bounded :=
  ⟨hst.above, hst.acked_lt⟩

theorem sound_init : init.Sound :=
  ⟨wellFormed_init, (fun _ _ h => nomatch h), Nat.one_pos, .inl rfl⟩

theorem Sound.congr {st st' : JournalState} (hst : st.Sound) (h : st'.Same st)
    (hw : st'.WellFormed) : st'.Sound := by
  refine ⟨hw, ?_, ?_, ?_⟩
  · rw [h.entries, h.acked]
    exact hst.above
  · rw [h.acked, h.nextSeq]
    exact hst.acked_lt
  · rw [h.entries, h.acked, h.nextSeq]
    exact hst.tight

theorem Sound.apply {st : JournalState} (hst : st.Sound) {new : JournalEntry}
    (hseq : new.seq = st.nextSeq) : (st.apply new).Sound := by
  obtain ⟨hw, hnext, hget⟩ := hst.wellFormed.apply hseq.ge
  have hbounded := hst.bounded.apply hst.wellFormed hseq.ge
  refine ⟨hw, hbounded.above, hbounded.acked_lt, .inr ?_⟩
  rw [hnext, Nat.add_sub_cancel, hget, if_pos rfl]
  rfl

theorem Sound.ackLocal {st : JournalState} (hst : st.Sound) (upto : Nat) :
    (st.ackLocal upto).Sound := by
  have hlt := hst.acked_lt
  have hbounded := hst.bounded.ackLocal upto
  refine ⟨hst.wellFormed.ackLocal upto, hbounded.above, hbounded.acked_lt, ?_⟩
  rw [acked_ackLocal, nextSeq_ackLocal, get_ackLocal]
  by_cases hup : st.nextSeq ≤ upto + 1
  · left
    omega
  · rcases hst.tight with ht | ht
    · left
      omega
    · right
      have hmax : max st.nextSeq (upto + 1) = st.nextSeq := by omega
      rw [hmax, if_neg (by omega)]
      exact ht

/-- An acknowledgement that was acknowledged before changes nothing. -/
theorem Sound.ackLocal_same {st : JournalState} (hst : st.Sound) {upto : Nat}
    (h : upto ≤ st.acked) : (st.ackLocal upto).Same st := by
  have hlt := hst.acked_lt
  refine ⟨OrdMap.ext_get fun s => ?_, by rw [acked_ackLocal]; omega,
    by rw [nextSeq_ackLocal]; omega⟩
  rw [get_ackLocal]
  split
  · next hs =>
    cases he : st.entries.get s with
    | none => rfl
    | some e =>
      have := hst.above s e he
      omega
  · rfl

/-! ## Reading records -/

/-- The records of a file, applied in order. -/
def readBack (lines : List JournalLine) : JournalState :=
  lines.foldl (fun st line =>
    let st := (st.applyLine line).2
    { st with linesOnDisk := st.linesOnDisk + 1 }) .init

theorem readBack_concat (lines : List JournalLine) (line : JournalLine) :
    ∃ n, readBack (lines ++ [line]) =
      { ((readBack lines).applyLine line).2 with linesOnDisk := n } := by
  unfold readBack
  rw [List.foldl_append]
  exact ⟨_, rfl⟩

theorem applyLine_toLine (st : JournalState) (e : JournalEntry) :
    st.applyLine e.toLine = (true, st.apply e) := by
  obtain ⟨seq, op, path, a⟩ := e
  cases op <;> rfl

/-! ## Compacted files -/

/-- No entry supersedes an older one. -/
def Settled (es : List JournalEntry) : Prop := es.Pairwise fun e new => afterAppend new e = some e

instance (es : List JournalEntry) : Decidable (Settled es) :=
  inferInstanceAs (Decidable (es.Pairwise _))

/-- What later entries leave of one. -/
def leftOf (e : JournalEntry) (later : List JournalEntry) : Option JournalEntry :=
  later.foldl (fun o new => o.bind (afterAppend new)) (some e)

/-- A rewritten entry was a rename and is none any more. -/
theorem afterAppend_rewrites {new e e' : JournalEntry} (h : afterAppend new e = some e') :
    e' = e ∨ ((∃ t, e.op = .rename t) ∧ ∀ t, e'.op ≠ .rename t) := by
  have hkept : ∀ {c : Prop} [Decidable c], (if c then none else some e) = some e' → e' = e := by
    intro c _ hc
    split at hc
    · cases hc
    · exact (Option.some.inj hc).symm
  unfold afterAppend at h
  split at h
  · exact .inl (hkept h)
  · unfold afterDelete at h
    split at h
    · exact .inl (hkept h)
    · exact .inl (hkept h)
    · next t hop =>
      split at h
      · split at h
        · cases h
        · obtain rfl := Option.some.inj h
          exact .inr ⟨⟨t, hop⟩, fun t' ht => nomatch ht⟩
      · split at h
        · obtain rfl := Option.some.inj h
          exact .inr ⟨⟨t, hop⟩, fun t' ht => nomatch ht⟩
        · exact .inl (Option.some.inj h).symm
  · exact .inl (hkept h)

theorem foldl_afterAppend_none (later : List JournalEntry) :
    later.foldl (fun o new => o.bind (afterAppend new)) none = none := by
  induction later with
  | nil => rfl
  | cons new later ih => exact ih

/-- Nothing turns an entry back into a rename. -/
theorem foldl_afterAppend_ne_rename (later : List JournalEntry) (o : Option JournalEntry)
    (ho : ∀ e, o = some e → ∀ t, e.op ≠ .rename t) :
    ∀ e, later.foldl (fun o new => o.bind (afterAppend new)) o = some e →
      ∀ t, e.op ≠ .rename t := by
  induction later generalizing o with
  | nil => exact ho
  | cons new later ih =>
    refine ih _ fun e he => ?_
    obtain ⟨e₀, he₀, hafter⟩ := Option.bind_eq_some_iff.mp he
    rcases afterAppend_rewrites hafter with rfl | ⟨-, hno⟩
    · exact ho e he₀
    · exact hno

theorem leftOf_eq_self_iff {e : JournalEntry} {later : List JournalEntry} :
    leftOf e later = some e ↔ ∀ new ∈ later, afterAppend new e = some e := by
  induction later with
  | nil => simp [leftOf]
  | cons new later ih =>
    rw [List.forall_mem_cons, ← ih]
    unfold leftOf
    rw [List.foldl_cons, Option.bind_some]
    constructor
    · intro h
      cases hafter : afterAppend new e with
      | none =>
        rw [hafter] at h
        rw [foldl_afterAppend_none] at h
        cases h
      | some e' =>
        rcases afterAppend_rewrites hafter with rfl | ⟨⟨t, ht⟩, hno⟩
        · rw [hafter] at h
          exact ⟨rfl, h⟩
        · -- Once rewritten, the rename is gone for good.
          rw [hafter] at h
          refine absurd ht (foldl_afterAppend_ne_rename later (some e') ?_ e h t)
          intro e'' he''
          exact Option.some.inj he'' ▸ hno
    · rintro ⟨hafter, h⟩
      rw [hafter]
      exact h

/-- Entries with new, increasing seqs, applied one after the other. -/
theorem WellFormed.foldl_apply {st : JournalState} (hw : st.WellFormed) (es : List JournalEntry)
    (hsorted : es.Pairwise fun a b => a.seq < b.seq) (hnew : ∀ e ∈ es, st.nextSeq ≤ e.seq) :
    (es.foldl JournalState.apply st).WellFormed ∧
      (∀ s, (es.foldl JournalState.apply st).entries.get s =
        es.foldl (fun o e => if s = e.seq then some e else o.bind (afterAppend e))
          (st.entries.get s)) ∧
      (es.foldl JournalState.apply st).nextSeq = (es.getLast?.map (·.seq + 1)).getD st.nextSeq := by
  induction es generalizing st with
  | nil => exact ⟨hw, fun _ => rfl, rfl⟩
  | cons e es ih =>
    rw [List.pairwise_cons] at hsorted
    obtain ⟨hw', hnext, hget⟩ := hw.apply (hnew e (by simp))
    obtain ⟨hend, hgetEnd, hnextEnd⟩ := ih hw' hsorted.2 fun e' he' => by
      rw [hnext]
      exact hsorted.1 e' he'
    refine ⟨hend, fun s => ?_, ?_⟩
    · rw [List.foldl_cons, List.foldl_cons, hgetEnd, hget]
    · rw [List.foldl_cons, hnextEnd, hnext, List.getLast?_cons]
      cases es.getLast? <;> rfl

/-- Where each of them ends. -/
theorem foldl_replace_eq_leftOf {pre post : List JournalEntry} {e : JournalEntry}
    {o : Option JournalEntry} (hpost : ∀ e' ∈ post, e.seq ≠ e'.seq) :
    (pre ++ e :: post).foldl (fun o x => if e.seq = x.seq then some x else o.bind (afterAppend x))
      o = leftOf e post := by
  rw [List.foldl_append, List.foldl_cons, if_pos rfl]
  unfold leftOf
  generalize some e = o'
  induction post generalizing o' with
  | nil => rfl
  | cons x post ih =>
    rw [List.foldl_cons, List.foldl_cons, if_neg (hpost x (by simp))]
    exact ih (fun e' he' => hpost e' (by simp [he'])) _

theorem foldl_replace_of_not_mem {es : List JournalEntry} {s : Nat} (hs : ∀ e ∈ es, s ≠ e.seq) :
    es.foldl (fun o e => if s = e.seq then some e else o.bind (afterAppend e)) none = none := by
  induction es with
  | nil => rfl
  | cons e es ih =>
    rw [List.foldl_cons, if_neg (hs e (by simp))]
    exact ih fun e' he' => hs e' (by simp [he'])

/-- The pending entries in their order. -/
theorem WellFormed.mem_values {st : JournalState} (hw : st.WellFormed) {e : JournalEntry} :
    e ∈ st.entries.values ↔ st.entries.get e.seq = some e := by
  unfold OrdMap.values
  rw [List.mem_map]
  constructor
  · rintro ⟨⟨s, e'⟩, hmem, rfl⟩
    have hget := OrdMap.get_eq_some_iff.mpr hmem
    rw [hw.seq_eq s e' hget]
    exact hget
  · intro hget
    exact ⟨(e.seq, e), OrdMap.get_eq_some_iff.mp hget, rfl⟩

theorem WellFormed.sorted_values {st : JournalState} (hw : st.WellFormed) :
    st.entries.values.Pairwise fun a b => a.seq < b.seq := by
  unfold OrdMap.values
  rw [List.pairwise_map]
  refine st.entries.sorted.imp_of_mem ?_
  rintro ⟨s, e⟩ ⟨s', e'⟩ hmem hmem' hlt
  rw [hw.seq_eq s e (OrdMap.get_eq_some_iff.mpr hmem),
    hw.seq_eq s' e' (OrdMap.get_eq_some_iff.mpr hmem')]
  exact hlt

/-- Applied to a journal without entries, the pending entries come back exactly when they are
    settled. -/
theorem foldl_apply_values_iff {st₀ st : JournalState} (hw₀ : st₀.WellFormed)
    (hempty : ∀ s, st₀.entries.get s = none) (hw : st.WellFormed)
    (hnew : ∀ e ∈ st.entries.values, st₀.nextSeq ≤ e.seq) :
    (st.entries.values.foldl JournalState.apply st₀).entries = st.entries ↔
      Settled st.entries.values := by
  obtain ⟨-, hget, -⟩ := hw₀.foldl_apply _ hw.sorted_values hnew
  -- Seq by seq: an entry meets those behind it.
  have hself : ∀ pre e post, st.entries.values = pre ++ e :: post →
      (st.entries.values.foldl JournalState.apply st₀).entries.get e.seq = leftOf e post := by
    intro pre e post hsplit
    rw [hget, hempty, hsplit]
    refine foldl_replace_eq_leftOf fun e' he' => ?_
    have hsorted := hw.sorted_values
    rw [hsplit, List.pairwise_append, List.pairwise_cons] at hsorted
    exact (hsorted.2.1.1 e' he').ne
  have hsettled : Settled st.entries.values ↔
      ∀ pre e post, st.entries.values = pre ++ e :: post → leftOf e post = some e := by
    unfold Settled
    rw [List.pairwise_iff_forall_sublist]
    constructor
    · intro h pre e post hsplit
      rw [leftOf_eq_self_iff]
      intro new hnew
      refine h ?_
      rw [hsplit]
      exact (List.singleton_sublist.mpr hnew).cons_cons e |>.trans (List.sublist_append_right pre _)
    · intro h a b hsub
      obtain ⟨pre, post, hsplit, ha, hb⟩ := List.cons_sublist_iff.mp hsub
      obtain ⟨l₁, l₂, rfl⟩ := List.append_of_mem ha
      have hleft := h l₁ a (l₂ ++ post) (by rw [hsplit]; simp)
      exact leftOf_eq_self_iff.mp hleft b (by simp [List.singleton_sublist.mp hb])
  rw [hsettled]
  constructor
  · intro heq pre e post hsplit
    rw [← hself pre e post hsplit, heq]
    exact hw.mem_values.mp (by rw [hsplit]; simp)
  · intro h
    refine OrdMap.ext_get fun s => ?_
    cases hs : st.entries.get s with
    | none =>
      rw [hget, hempty]
      refine foldl_replace_of_not_mem fun e he hse => ?_
      rw [hse, hw.mem_values.mp he] at hs
      cases hs
    | some e =>
      have hseq := hw.seq_eq s e hs
      obtain ⟨pre, post, hsplit⟩ := List.append_of_mem (hw.mem_values.mpr (hseq.symm ▸ hs))
      rw [← hseq, hself pre e post hsplit, h pre e post hsplit]

/-- Entry records behind other records. -/
theorem readBack_entries {lines : List JournalLine} (hw : (readBack lines).WellFormed)
    (es : List JournalEntry) (hsorted : es.Pairwise fun a b => a.seq < b.seq)
    (hnew : ∀ e ∈ es, (readBack lines).nextSeq ≤ e.seq) :
    (readBack (lines ++ es.map (·.toLine))).WellFormed ∧
      (readBack (lines ++ es.map (·.toLine))).Same (es.foldl JournalState.apply (readBack lines)) := by
  induction es using List.reverseRecOn with
  | nil => simpa using ⟨hw, Same.refl _⟩
  | append_singleton es e ih =>
    have hsorted' := List.pairwise_append.mp hsorted
    obtain ⟨hw₁, hsame⟩ := ih hsorted'.1 fun e' he' => hnew e' (by simp [he'])
    obtain ⟨hw₂, -, hnext⟩ := hw.foldl_apply es hsorted'.1 fun e' he' => hnew e' (by simp [he'])
    -- The last seq is beyond all others.
    have hseq : (es.foldl JournalState.apply (readBack lines)).nextSeq ≤ e.seq := by
      rw [hnext]
      cases hlast : es.getLast? with
      | none => exact hnew e (by simp)
      | some x => exact hsorted'.2.2 x (List.mem_of_getLast? hlast) e (by simp)
    obtain ⟨n, hread⟩ := readBack_concat (lines ++ es.map (·.toLine)) e.toLine
    rw [applyLine_toLine] at hread
    have hlist : lines ++ (es ++ [e]).map (·.toLine) =
        (lines ++ es.map (·.toLine)) ++ [e.toLine] := by simp
    rw [hlist, hread, List.foldl_append]
    have hseq' := hsame.nextSeq.symm ▸ hseq
    exact ⟨(hw₁.apply hseq').1.linesOnDisk n, (Same.linesOnDisk _ _).trans (hsame.apply hw₁ hw₂ hseq')⟩

/-- The acked mark of a compacted file. -/
theorem readBack_ackedLine (acked : Nat) :
    let st := readBack (if 0 < acked then [.ack acked] else [])
    st.WellFormed ∧ (∀ s, st.entries.get s = none) ∧ st.acked = acked ∧ st.nextSeq = acked + 1 := by
  intro st
  by_cases h : 0 < acked
  · have hst : st = { init.ackLocal acked with linesOnDisk := 1 } := by
      simp only [st, h, if_true]
      rfl
    rw [hst]
    refine ⟨(wellFormed_init.ackLocal acked).linesOnDisk 1, fun s => ?_, ?_, ?_⟩
    · show (init.ackLocal acked).entries.get s = none
      rw [get_ackLocal]
      split <;> rfl
    · show (init.ackLocal acked).acked = acked
      rw [acked_ackLocal]
      exact Nat.zero_max acked
    · show (init.ackLocal acked).nextSeq = acked + 1
      rw [nextSeq_ackLocal]
      show max 1 (acked + 1) = acked + 1
      omega
  · have hst : st = init := by
      simp only [st, h, if_false]
      rfl
    have hzero : acked = 0 := by omega
    rw [hst, hzero]
    exact ⟨wellFormed_init, (fun _ => rfl), rfl, rfl⟩

/-- A compacted file gives the journal back exactly when its pending entries are settled. -/
theorem readBack_compactedLines_iff {st : JournalState} (hst : st.Sound) :
    (readBack st.compactedLines).WellFormed ∧
      ((readBack st.compactedLines).Same st ↔ Settled st.entries.values) := by
  obtain ⟨hw₀, hempty, hacked, hnext⟩ := readBack_ackedLine st.acked
  have hw := hst.wellFormed
  have hnew : ∀ e ∈ st.entries.values,
      (readBack (if 0 < st.acked then [.ack st.acked] else [])).nextSeq ≤ e.seq := by
    intro e he
    rw [hnext]
    exact hst.above e.seq e (hw.mem_values.mp he)
  obtain ⟨hwell, hsame⟩ := readBack_entries hw₀ st.entries.values hw.sorted_values hnew
  have hkeeps : (readBack (if 0 < st.acked then [.ack st.acked] else [])).Keeps
      (st.entries.values.foldl JournalState.apply _) :=
    List.foldlRecOn _ _ (.refl _) fun st' h e _ => h.trans (keeps_apply st' e)
  obtain ⟨-, -, hnextEnd⟩ := hw₀.foldl_apply st.entries.values hw.sorted_values hnew
  have hiff := foldl_apply_values_iff hw₀ hempty hw hnew
  refine ⟨hwell, fun h => hiff.mp (hsame.entries.symm.trans h.entries), fun h => ?_⟩
  refine ⟨hsame.entries.trans (hiff.mpr h), ?_, ?_⟩
  · show (readBack _).acked = st.acked
    rw [compactedLines, hsame.acked, hkeeps.acked, hacked]
  · show (readBack _).nextSeq = st.nextSeq
    rw [compactedLines, hsame.nextSeq, hnextEnd, hnext]
    have hlt := hst.acked_lt
    cases hlast : st.entries.values.getLast? with
    | none =>
      rcases hst.tight with ht | ht
      · simp [ht]
      · -- An entry at the top, but there is none.
        obtain ⟨e, he⟩ := Option.isSome_iff_exists.mp ht
        have hmem := hw.mem_values.mpr ((hw.seq_eq _ e he).symm ▸ he)
        rw [List.getLast?_eq_none_iff.mp hlast] at hmem
        cases hmem
    | some x =>
      have hx := List.mem_of_getLast? hlast
      have hxs := hw.lt_nextSeq _ _ (hw.mem_values.mp hx)
      have hxa := hst.above _ _ (hw.mem_values.mp hx)
      show x.seq + 1 = st.nextSeq
      rcases hst.tight with ht | ht
      · omega
      · obtain ⟨e, he⟩ := Option.isSome_iff_exists.mp ht
        have hseq := hw.seq_eq _ e he
        have hmem := hw.mem_values.mpr (hseq.symm ▸ he)
        obtain ⟨pre, hpre⟩ := List.getLast?_eq_some_iff.mp hlast
        have hsorted := hw.sorted_values
        rw [hpre] at hmem hsorted
        rcases List.mem_append.mp hmem with hmem | hmem
        · have := (List.pairwise_append.mp hsorted).2.2 e hmem x (by simp)
          omega
        · rw [← List.mem_singleton.mp hmem, hseq]
          omega

end JournalState

namespace ActionJournal

open JournalState

/-! ## Journals that the file gives back -/

/-- The file holds the journal. -/
structure Faithful (j : ActionJournal) : Prop where
  sound : j.state.Sound
  read : (readBack j.disk).WellFormed
  same : (readBack j.disk).Same j.state
  clean : ∀ line ∈ j.disk, (JournalState.init.applyLine line).1 = true

theorem openJournal_same (h : Host) (disk : List JournalLine) :
    (openJournal h disk).state.Same (readBack disk) := by
  unfold openJournal writeCompacted
  simp only
  split
  · split
    · exact .refl _
    · exact Same.linesOnDisk _ _
  · exact .refl _

/-- The start: no file. -/
theorem faithful_fresh : (⟨.init, []⟩ : ActionJournal).Faithful :=
  ⟨sound_init, wellFormed_init, .refl _, (fun _ h => nomatch h)⟩

/-- One more record, in memory and in the file. -/
theorem Faithful.extend {j : ActionJournal} (hj : j.Faithful) {line : JournalLine}
    {st : JournalState} (hst : st.Sound)
    (hwell : ((readBack j.disk).applyLine line).2.WellFormed)
    (hsame : ((readBack j.disk).applyLine line).2.Same st)
    (hclean : (JournalState.init.applyLine line).1 = true) :
    (⟨st, j.disk ++ [line]⟩ : ActionJournal).Faithful := by
  obtain ⟨n, hread⟩ := readBack_concat j.disk line
  refine ⟨hst, ?_, ?_, fun l hl => ?_⟩
  · show (readBack (j.disk ++ [line])).WellFormed
    rw [hread]
    exact hwell.linesOnDisk n
  · show (readBack (j.disk ++ [line])).Same st
    rw [hread]
    exact (Same.linesOnDisk _ n).trans hsame
  · rcases List.mem_append.mp hl with hl | hl
    · exact hj.clean l hl
    · rw [List.mem_singleton.mp hl]
      exact hclean

theorem Faithful.appendEntry {j : ActionJournal} (hj : j.Faithful) {h : Host}
    (hok : ∀ s, h.fails (.appendJournal s) = false) (op : JournalOp) (p : PathBuf) (a : Nat) :
    ∃ j', j.appendEntry h op p a = some j' ∧ j'.Faithful ∧
      j'.state.linesOnDisk = j.state.linesOnDisk + 1 := by
  set e : JournalEntry := ⟨j.state.nextSeq, op, p, a⟩ with he
  set st : JournalState := { j.state with linesOnDisk := j.state.linesOnDisk + 1 } with hst
  have hsound : st.Sound := hj.sound.congr (Same.linesOnDisk _ _) (hj.sound.wellFormed.linesOnDisk _)
  refine ⟨⟨st.apply e, j.disk ++ [e.toLine]⟩, ?_, ?_, (keeps_apply st e).linesOnDisk⟩
  · simp [ActionJournal.appendEntry, appendLine, hok, he, hst]
  · have hseq : (readBack j.disk).nextSeq ≤ e.seq := hj.same.nextSeq.le
    have hsame : (readBack j.disk).Same st := hj.same.trans (Same.linesOnDisk _ _).symm
    refine hj.extend (hsound.apply rfl) ?_ ?_ ?_
    · rw [applyLine_toLine]
      exact (hj.read.apply hseq).1
    · rw [applyLine_toLine]
      exact hsame.apply hj.read hsound.wellFormed hseq
    · rw [applyLine_toLine]

/-- The journal is faithful if `c`, and given back only if `c`. -/
structure KeptWhen (c : Prop) (j : ActionJournal) : Prop where
  faithful : c → j.Faithful
  necessary : (readBack j.disk).Same j.state → c

theorem KeptWhen.congr {c c' : Prop} {j : ActionJournal} (h : KeptWhen c j) (hc : c ↔ c') :
    KeptWhen c' j := ⟨fun h' => h.faithful (hc.mpr h'), fun h' => hc.mp (h.necessary h')⟩

theorem Faithful.keptWhen {j : ActionJournal} (hj : j.Faithful) {c : Prop} (hc : c) :
    KeptWhen c j := ⟨fun _ => hj, fun _ => hc⟩

/-- Rewriting the file keeps the journal exactly when its entries are settled. -/
theorem Faithful.writeCompacted {j : ActionJournal} (hj : j.Faithful) (h : Host) :
    KeptWhen (h.fails .compactJournal = false → Settled j.snapshot) (j.writeCompacted h) := by
  obtain ⟨hwell, hiff⟩ := readBack_compactedLines_iff hj.sound
  unfold ActionJournal.writeCompacted
  split
  · next hfails => exact hj.keptWhen fun h' => absurd hfails (by simp [h'])
  · next hfails =>
    have hfails : h.fails .compactJournal = false := by simpa using hfails
    refine ⟨fun hset => ?_, fun hsame _ => hiff.mp (hsame.trans (Same.linesOnDisk _ _))⟩
    refine ⟨hj.sound.congr (Same.linesOnDisk _ _) (hj.sound.wellFormed.linesOnDisk _), hwell,
      (hiff.mpr (hset hfails)).trans (Same.linesOnDisk _ _).symm, fun line hline => ?_⟩
    rcases List.mem_append.mp hline with hline | hline
    · split at hline
      · rw [List.mem_singleton.mp hline]
        rfl
      · cases hline
    · obtain ⟨e, -, rfl⟩ := List.mem_map.mp hline
      rw [applyLine_toLine]

theorem Faithful.maybeCompact {j : ActionJournal} (hj : j.Faithful) (h : Host) :
    KeptWhen (compactMinLines ≤ j.state.linesOnDisk → h.fails .compactJournal = false →
      Settled j.snapshot) (j.maybeCompact h) := by
  unfold ActionJournal.maybeCompact
  split
  · next hlines => exact (hj.writeCompacted h).congr (by simp [hlines])
  · next hlines => exact hj.keptWhen fun h' => absurd h' hlines

end ActionJournal

/-! ## Runs -/

open ActionJournal JournalState

/-- What happens to a journal. -/
inductive JournalEvent where
  | call (c : JournalCall)
  | ack (upto : Nat)
  | compact
  | reopen

namespace JournalEvent

def run (j : ActionJournal) : Host × JournalEvent → ActionJournal
  | (h, call c) => c.record h j
  | (h, ack upto) => (j.ack h upto).2
  | (h, compact) => j.writeCompacted h
  | (h, reopen) => openJournal h j.disk

/-- How many records the event appends. -/
def records (st : JournalState) : JournalEvent → Nat
  | call (.upsert _ _) => 1
  | call (.delete _ _) => 1
  | call (.rename source _ _) => if st.exactWith source isUpsert ≠ [] then 2 else 1
  | ack upto => if upto ≤ st.acked then 0 else 1
  | compact => 0
  | reopen => 0

/-- The event rewrites the file: it is a compaction, or it appends to a file that is long. -/
def Compacts (j : ActionJournal) : Host × JournalEvent → Prop
  | (h, compact) => h.fails .compactJournal = false
  | (h, ev) => h.fails .compactJournal = false ∧ 0 < ev.records j.state ∧
      compactMinLines ≤ j.state.linesOnDisk + ev.records j.state

end JournalEvent

open JournalEvent

/-- One event keeps the file faithful exactly when a rewritten file finds settled entries. -/
theorem ActionJournal.Faithful.run {j : ActionJournal} (hj : j.Faithful) {h : Host}
    (hok : ∀ s, h.fails (.appendJournal s) = false) (ev : JournalEvent) :
    KeptWhen (Compacts j (h, ev) → Settled (JournalEvent.run j (h, ev)).snapshot)
      (JournalEvent.run j (h, ev)) := by
  have happend : ∀ (op : JournalOp) (p : PathBuf) (a : Nat),
      KeptWhen (h.fails .compactJournal = false ∧ 0 < 1 ∧ compactMinLines ≤ j.state.linesOnDisk + 1 →
        Settled (j.append h op p a).2.snapshot) (j.append h op p a).2 := by
    intro op p a
    obtain ⟨j₁, hj₁, hf₁, hlines⟩ := hj.appendEntry hok op p a
    simp only [ActionJournal.append, hj₁]
    refine (hf₁.maybeCompact h).congr ?_
    rw [snapshot_maybeCompact, hlines]
    tauto
  cases ev with
  | call c =>
    cases c with
    | upsert p a => exact happend .upsert p a
    | delete p a => exact happend .delete p a
    | rename f t a =>
      obtain ⟨j₁, hj₁, hf₁, hlines₁⟩ := hj.appendEntry hok (.rename t) f a
      obtain ⟨j₂, hj₂, hf₂, hlines₂⟩ := hf₁.appendEntry hok .upsert t a
      by_cases hhad : j.state.exactWith f isUpsert ≠ []
      · have hrun : JournalEvent.run j (h, .call (.rename f t a)) = j₂.maybeCompact h := by
          simp [JournalEvent.run, JournalCall.record, ActionJournal.rename, hj₁, hj₂, hhad]
        rw [hrun, snapshot_maybeCompact]
        refine (hf₂.maybeCompact h).congr ?_
        rw [hlines₂, hlines₁]
        simp only [Compacts, records, hhad, if_true, ne_eq, not_false_eq_true]
        tauto
      · have hrun : JournalEvent.run j (h, .call (.rename f t a)) = j₁.maybeCompact h := by
          simp only [ne_eq, not_not] at hhad
          simp [JournalEvent.run, JournalCall.record, ActionJournal.rename, hj₁, hhad]
        rw [hrun, snapshot_maybeCompact]
        refine (hf₁.maybeCompact h).congr ?_
        rw [hlines₁]
        simp only [Compacts, records, hhad, if_false]
        tauto
  | ack upto =>
    by_cases hle : upto ≤ j.state.acked
    · have hrun : JournalEvent.run j (h, .ack upto) =
          { j with state := j.state.ackLocal upto } := by
        simp [JournalEvent.run, ActionJournal.ack, hle]
      have hsame := hj.sound.ackLocal_same hle
      rw [hrun]
      have hf : ({ j with state := j.state.ackLocal upto } : ActionJournal).Faithful :=
        ⟨hj.sound.ackLocal upto, hj.read, hj.same.trans hsame.symm, hj.clean⟩
      refine hf.keptWhen fun hc => ?_
      simp [Compacts, records, hle] at hc
    · set st : JournalState := { j.state with linesOnDisk := j.state.linesOnDisk + 1 } with hst
      have hsame : (readBack j.disk).Same st := hj.same.trans (Same.linesOnDisk _ _).symm
      have hsound : st.Sound :=
        hj.sound.congr (Same.linesOnDisk _ _) (hj.sound.wellFormed.linesOnDisk _)
      have hf : (⟨st.ackLocal upto, j.disk ++ [.ack upto]⟩ : ActionJournal).Faithful :=
        hj.extend (hsound.ackLocal upto) (hj.read.ackLocal upto) (hsame.ackLocal upto) rfl
      have hrun : JournalEvent.run j (h, .ack upto) =
          (⟨st.ackLocal upto, j.disk ++ [.ack upto]⟩ : ActionJournal).maybeCompact h := by
        simp [JournalEvent.run, ActionJournal.ack, hle, appendLine, hok, hst]
      have hlines : (st.ackLocal upto).linesOnDisk = j.state.linesOnDisk + 1 :=
        (keeps_foldl_remove st _).linesOnDisk
      rw [hrun, snapshot_maybeCompact]
      refine (hf.maybeCompact h).congr ?_
      rw [hlines]
      simp only [Compacts, records, hle, if_false]
      tauto
  | compact =>
    have hsnap : (j.writeCompacted h).snapshot = j.snapshot := by
      unfold ActionJournal.writeCompacted
      split <;> rfl
    refine (hj.writeCompacted h).congr ?_
    simp only [Compacts, JournalEvent.run, hsnap]
  | reopen =>
    have hopen : openJournal h j.disk = ⟨readBack j.disk, j.disk⟩ := by
      unfold openJournal
      simp only
      rw [if_neg]
      · rfl
      · simpa using hj.clean
    simp only [JournalEvent.run, hopen]
    have hf : (⟨readBack j.disk, j.disk⟩ : ActionJournal).Faithful :=
      ⟨hj.sound.congr hj.same hj.read, hj.read, .refl _, hj.clean⟩
    refine hf.keptWhen fun hc => ?_
    simp [Compacts, records] at hc

/-- The journal after a run that starts without a file. -/
def runJournal (evs : List (Host × JournalEvent)) : ActionJournal := evs.foldl run ⟨.init, []⟩

/-- Opening the journal again gives it back after every part of a run exactly when, whenever the
    file is rewritten, no pending entry supersedes an older one. -/
theorem reopen_iff_settled (evs : List (Host × JournalEvent))
    (hok : ∀ x ∈ evs, ∀ s, x.1.fails (.appendJournal s) = false) :
    (∀ pre, pre <+: evs → ∀ h, (openJournal h (runJournal pre).disk).state.Same
        (runJournal pre).state) ↔
      ∀ pre x, pre ++ [x] <+: evs → Compacts (runJournal pre) x →
        Settled (runJournal (pre ++ [x])).snapshot := by
  -- From the front, as long as the file is faithful.
  have hstep : ∀ pre x, pre ++ [x] <+: evs → (runJournal pre).Faithful →
      KeptWhen (Compacts (runJournal pre) x → Settled (runJournal (pre ++ [x])).snapshot)
        (runJournal (pre ++ [x])) := by
    intro pre x hx hf
    have heq : runJournal (pre ++ [x]) = JournalEvent.run (runJournal pre) x := by
      simp [runJournal, List.foldl_append]
    rw [heq]
    exact hf.run (hok x (hx.subset (by simp))) x.2
  have hinit : ∀ {pre x}, pre ++ [x] <+: evs → pre <+: evs :=
    fun hx => (List.prefix_append _ _).trans hx
  constructor
  · intro hall
    have hback : ∀ pre, pre <+: evs → (readBack (runJournal pre).disk).Same (runJournal pre).state :=
      fun pre hpre => (openJournal_same (.reliable (fun _ => 0) 0) _).symm.trans (hall pre hpre _)
    have hfaithful : ∀ pre, pre <+: evs → (runJournal pre).Faithful := by
      intro pre
      induction pre using List.reverseRecOn with
      | nil => exact fun _ => faithful_fresh
      | append_singleton pre x ih =>
        intro hx
        have hkept := hstep pre x hx (ih (hinit hx))
        exact hkept.faithful (hkept.necessary (hback _ hx))
    intro pre x hx
    exact (hstep pre x hx (hfaithful pre (hinit hx))).necessary (hback _ hx)
  · intro hall pre hpre h
    have hfaithful : (runJournal pre).Faithful := by
      induction pre using List.reverseRecOn with
      | nil => exact faithful_fresh
      | append_singleton pre x ih =>
        exact (hstep pre x hpre (ih (hinit hpre))).faithful (hall pre x hpre)
    exact (openJournal_same h _).trans hfaithful.same

/-- A file that is created, removed and compacted away. -/
theorem reopen_iff_settled_deleted :
    let h : Host := .reliable (fun _ => 0) 0
    let evs := [(h, JournalEvent.call (.upsert (.ofNames ["a"]) 1)),
      (h, .call (.delete (.ofNames ["a"]) 2)), (h, .compact)]
    (openJournal h (runJournal evs).disk).state.Same (runJournal evs).state := by
  intro h evs
  have hok : ∀ x ∈ evs, ∀ s, x.1.fails (.appendJournal s) = false := by
    intro x hx s
    simp only [evs, List.mem_cons, List.not_mem_nil, or_false] at hx
    rcases hx with rfl | rfl | rfl <;> rfl
  have hsettled : ∀ l ∈ evs.inits, Settled (runJournal l).snapshot := by decide +kernel
  exact (reopen_iff_settled evs hok).mpr (fun pre x hx _ => hsettled _ ((List.mem_inits _ _).mpr hx))
    evs (List.prefix_refl evs) h

/-- A rename that a delete turns into an upsert of a path with a newer upsert. -/
private def renamedThenDeleted : List (Host × JournalEvent) :=
  let h : Host := .reliable (fun _ => 0) 0
  [(h, .call (.rename (.ofNames ["a"]) (.ofNames ["b"]) 1)), (h, .call (.upsert (.ofNames ["b"]) 2)),
    (h, .call (.delete (.ofNames ["a"]) 3))]

/-- After a compaction the first of the two upserts is gone. -/
theorem reopen_loses_rewritten_rename :
    let evs := renamedThenDeleted ++ [(.reliable (fun _ => 0) 0, .compact)]
    (∀ x ∈ evs, ∀ s, x.1.fails (.appendJournal s) = false) ∧
      ¬ ∀ h, (openJournal h (runJournal evs).disk).state.Same (runJournal evs).state := by
  intro evs
  refine ⟨?_, fun hall => ?_⟩
  · intro x hx s
    simp only [evs, renamedThenDeleted, List.cons_append, List.nil_append, List.mem_cons,
      List.not_mem_nil, or_false] at hx
    rcases hx with rfl | rfl | rfl | rfl <;> rfl
  · have hne : ((openJournal (.reliable (fun _ => 0) 0) (runJournal evs).disk).state.entries.values.map
        (·.seq)) ≠ (runJournal evs).state.entries.values.map (·.seq) := by decide +kernel
    exact hne (by rw [(hall _).entries])

end ByteHive
