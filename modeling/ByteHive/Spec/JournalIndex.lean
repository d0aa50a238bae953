import ByteHive.Native.Journal

/-!
# The indexes of the journal

`by_path` and `by_to` describe the pending entries exactly, and `under` finds
everything at or below a path. On top of that `apply` is described by what it does to
the entries alone.

Key results:
- `SeqIndex.under_eq_filter`: the subtree lookup is complete.
- `JournalState.WellFormed`: the invariant, kept by `insert`, `remove` and `apply`.
- `JournalState.get_apply_upsert`, `get_apply_delete`, `get_apply_rename`: the entries
  after an append.
-/

namespace ByteHive

/-! ## Paths in order -/

/-- A path comes before everything below it. -/
theorem le_of_prefix {p q : PathBuf} (h : p <+: q) : p ≤ q := by
  obtain ⟨r, rfl⟩ := h
  induction p with
  | nil =>
    cases r with
    | nil => exact le_rfl
    | cons c r => exact le_of_lt List.Lex.nil
  | cons c p ih => exact List.cons_le_cons c ih

/-- What lies between a path and something below it lies below it too. -/
theorem prefix_of_le_of_le {p a b : PathBuf} (hpa : p ≤ a) (hab : a ≤ b) (hpb : p <+: b) :
    p <+: a := by
  obtain ⟨r, rfl⟩ := hpb
  rw [← not_lt] at hpa hab
  induction p generalizing a with
  | nil => exact List.nil_prefix
  | cons c p ih =>
    cases a with
    | nil => exact absurd List.Lex.nil hpa
    | cons d a =>
      rcases lt_trichotomy c d with hcd | rfl | hdc
      · exact absurd (List.Lex.rel hcd) hab
      · exact List.cons_prefix_cons.mpr
          ⟨rfl, ih (fun h => hpa (.cons h)) fun h => hab (.cons h)⟩
      · exact absurd (List.Lex.rel hdc) hpa

namespace SeqIndex

theorem mem_exact {index : SeqIndex} {p : PathBuf} {s : Nat} :
    s ∈ index.exact p ↔ ∃ set, index.get p = some set ∧ s ∈ set.keys := by
  unfold exact
  cases h : index.get p <;> simp

theorem mem_exact_push {index : SeqIndex} {k p : PathBuf} {n s : Nat} :
    s ∈ (index.push k n).exact p ↔ (p = k ∧ s = n) ∨ s ∈ index.exact p := by
  have hset : ∀ set : SeqSet, s ∈ (set.insert n ()).keys ↔ s = n ∨ s ∈ set.keys := by
    intro set
    simp only [OrdMap.keys, List.mem_map, OrdMap.mem_toList_insert]
    constructor
    · rintro ⟨x, rfl | ⟨hx, -⟩, rfl⟩
      · exact .inl rfl
      · exact .inr ⟨x, hx, rfl⟩
    · rintro (rfl | ⟨x, hx, rfl⟩)
      · exact ⟨_, .inl rfl, rfl⟩
      · by_cases hn : x.1 = n
        · exact ⟨_, .inl rfl, hn.symm⟩
        · exact ⟨x, .inr ⟨hx, hn⟩, rfl⟩
  unfold push exact
  rw [OrdMap.get_insert]
  by_cases hp : p = k
  · subst hp
    simp only [if_true, Option.map_some, Option.getD_some, hset, true_and]
    cases h : index.get p with
    | none => simp [OrdMap.empty, OrdMap.keys]
    | some set => simp
  · simp [hp]

theorem mem_exact_dropIndex {index : SeqIndex} {k p : PathBuf} {n s : Nat} :
    s ∈ (index.dropIndex k n).exact p ↔ s ∈ index.exact p ∧ ¬ (p = k ∧ s = n) := by
  unfold dropIndex
  split
  · next h =>
    refine ⟨fun hs => ⟨hs, ?_⟩, fun hs => hs.1⟩
    rintro ⟨rfl, -⟩
    simp [exact, h] at hs
  · next set h =>
    have hset : s ∈ (set.erase n).keys ↔ s ∈ set.keys ∧ s ≠ n := by
      simp only [OrdMap.keys, List.mem_map, OrdMap.mem_toList_erase]
      constructor
      · rintro ⟨x, ⟨hx, hn⟩, rfl⟩
        exact ⟨⟨x, hx, rfl⟩, hn⟩
      · rintro ⟨⟨x, hx, rfl⟩, hn⟩
        exact ⟨x, ⟨hx, hn⟩, rfl⟩
    by_cases hp : p = k
    · subst hp
      split
      · next hempty =>
        have : s ∉ (set.erase n).keys := by simp [OrdMap.keys, hempty]
        rw [hset] at this
        simp only [exact, OrdMap.get_erase, if_true, Option.map_none, Option.getD_none,
          List.not_mem_nil, h, Option.map_some, Option.getD_some, true_and, false_iff]
        exact this
      · simp [exact, OrdMap.get_insert, h, hset]
    · split <;> simp [exact, OrdMap.get_insert, OrdMap.get_erase, hp]

/-- The subtree lookup lists what is stored at `pre` or below it, in the order of the paths:
    paths are ordered by component, so the keys below `pre` follow it without a gap. -/
theorem under_eq_filter (index : SeqIndex) (pre : PathBuf) :
    index.under pre =
      (index.toList.filter fun x => decide (pre <+: x.1)).flatMap fun x => x.2.keys := by
  have hfrom := index.rangeFrom_eq_filter pre
  have hsorted : (index.rangeFrom pre).Pairwise fun a b => a.1 < b.1 := by
    rw [hfrom]
    exact index.sorted.filter _
  have hle : ∀ x ∈ index.rangeFrom pre, pre ≤ x.1 := by
    intro x hx
    rw [hfrom] at hx
    exact of_decide_eq_true (List.mem_filter.mp hx).2
  have hcut : (index.rangeFrom pre).takeWhile (fun x => decide (pre <+: x.1)) =
      index.toList.filter fun x => decide (pre <+: x.1) := by
    rw [OrdMap.takeWhile_eq_filter_of_sorted hsorted, hfrom, List.filter_filter]
    · refine List.filter_congr fun x _ => ?_
      by_cases hx : pre <+: x.1
      · simp [hx, le_of_prefix hx]
      · simp [hx]
    · -- a key between `pre` and one of its descendants is a descendant
      intro a ha b _ hab hb
      exact decide_eq_true (prefix_of_le_of_le (hle a ha) hab.le (of_decide_eq_true hb))
  rw [under, hcut]

theorem mem_under {index : SeqIndex} {pre : PathBuf} {s : Nat} :
    s ∈ index.under pre ↔ ∃ k, pre <+: k ∧ s ∈ index.exact k := by
  simp only [under_eq_filter, List.mem_flatMap, List.mem_filter, decide_eq_true_eq, mem_exact]
  constructor
  · rintro ⟨x, ⟨hx, hpre⟩, hs⟩
    exact ⟨x.1, hpre, x.2, OrdMap.get_eq_some_iff.mpr hx, hs⟩
  · rintro ⟨k, hpre, set, hget, hs⟩
    exact ⟨(k, set), ⟨OrdMap.get_eq_some_iff.mp hget, hpre⟩, hs⟩

/-- The subtree lookup misses no descendant and finds nothing else. -/
theorem under_complete (index : SeqIndex) (pre : PathBuf) :
    index.under pre =
        (index.toList.filter fun x => decide (pre <+: x.1)).flatMap (fun x => x.2.keys) ∧
      ∀ s, s ∈ index.under pre ↔
        ∃ k set, index.get k = some set ∧ pre <+: k ∧ s ∈ set.keys := by
  refine ⟨index.under_eq_filter pre, fun s => ?_⟩
  simp only [mem_under, mem_exact]
  constructor
  · rintro ⟨k, hpre, set, hget, hs⟩
    exact ⟨k, set, hget, hpre, hs⟩
  · rintro ⟨k, set, hget, hpre, hs⟩
    exact ⟨k, hpre, set, hget, hs⟩

/-- Siblings that come between a directory and its files in the order of texts. -/
example :
    let paths := [["a"], ["a-b"], ["a.b"], ["a", "b"], ["a", "b-c"]].map PathBuf.ofNames
    under (paths.zipIdx.foldl (fun index x => push index x.1 x.2) OrdMap.empty) (.ofNames ["a"]) =
      [0, 3, 4] := by
  decide +kernel

end SeqIndex

namespace JournalState

/-! ## The invariant -/

/-- Entries are stored under their own seq, below `nextSeq`, and both indexes describe
    them exactly. -/
structure WellFormed (st : JournalState) : Prop where
  seq_eq : ∀ s e, st.entries.get s = some e → e.seq = s
  lt_nextSeq : ∀ s e, st.entries.get s = some e → s < st.nextSeq
  byPath : ∀ p s, s ∈ st.byPath.exact p ↔ ∃ e, st.entries.get s = some e ∧ e.path = p
  byTo : ∀ p s, s ∈ st.byTo.exact p ↔ ∃ e, st.entries.get s = some e ∧ e.op = .rename p

theorem wellFormed_init : init.WellFormed where
  seq_eq := by intro s e h; cases h
  lt_nextSeq := by intro s e h; cases h
  byPath := by intro p s; simp [init, SeqIndex.exact, OrdMap.empty, OrdMap.get]
  byTo := by intro p s; simp [init, SeqIndex.exact, OrdMap.empty, OrdMap.get]

/-- The entries after `insert`. -/
theorem get_insert (st : JournalState) (e : JournalEntry) (s : Nat) :
    (st.insert e).entries.get s = if s = e.seq then some e else st.entries.get s :=
  OrdMap.get_insert _ _ _ _

/-- The entries after `remove`. -/
theorem get_remove (st : JournalState) (seq s : Nat) :
    (st.remove seq).entries.get s = if s = seq then none else st.entries.get s := by
  unfold remove
  split
  · next h =>
    by_cases hs : s = seq
    · simp [hs, h]
    · simp [hs]
  · exact OrdMap.get_erase _ _ _

@[simp] theorem nextSeq_remove (st : JournalState) (seq : Nat) :
    (st.remove seq).nextSeq = st.nextSeq := by
  unfold remove
  split <;> rfl

/-- Inserting under a seq that is free. -/
theorem WellFormed.insert {st : JournalState} (hw : st.WellFormed) {e : JournalEntry}
    (hfree : st.entries.get e.seq = none) : (st.insert e).WellFormed where
  seq_eq := by
    intro s e' h
    rw [get_insert] at h
    split at h
    · next hs =>
      obtain rfl := Option.some.inj h
      exact hs.symm
    · exact hw.seq_eq s e' h
  lt_nextSeq := by
    intro s e' h
    rw [get_insert] at h
    show s < max st.nextSeq (e.seq + 1)
    split at h
    · omega
    · have := hw.lt_nextSeq s e' h
      omega
  byPath := by
    intro p s
    show s ∈ (st.byPath.push e.path e.seq).exact p ↔ _
    rw [SeqIndex.mem_exact_push, hw.byPath]
    simp only [get_insert]
    by_cases hs : s = e.seq
    · subst hs
      simp [hfree, eq_comm]
    · simp [hs]
  byTo := by
    intro p s
    have hold : ∀ q, s ∈ st.byTo.exact q → s ≠ e.seq := by
      intro q hq hs
      obtain ⟨e', he', -⟩ := (hw.byTo q s).mp hq
      rw [hs, hfree] at he'
      cases he'
    simp only [get_insert]
    cases hop : e.op with
    | upsert =>
      rw [show (st.insert e).byTo = st.byTo by simp [JournalState.insert, hop]]
      by_cases hs : s = e.seq
      · simp only [hs, if_true, Option.some.injEq, exists_eq_left', hop, reduceCtorEq, iff_false]
        exact fun h => hold p (hs ▸ h) hs
      · simp [hs, hw.byTo]
    | delete =>
      rw [show (st.insert e).byTo = st.byTo by simp [JournalState.insert, hop]]
      by_cases hs : s = e.seq
      · simp only [hs, if_true, Option.some.injEq, exists_eq_left', hop, reduceCtorEq, iff_false]
        exact fun h => hold p (hs ▸ h) hs
      · simp [hs, hw.byTo]
    | rename target =>
      rw [show (st.insert e).byTo = st.byTo.push target e.seq by simp [JournalState.insert, hop],
        SeqIndex.mem_exact_push]
      by_cases hs : s = e.seq
      · simp only [hs, and_true, if_true, Option.some.injEq, exists_eq_left', hop,
          JournalOp.rename.injEq]
        constructor
        · rintro (rfl | h)
          · rfl
          · exact absurd hs (hold p (hs ▸ h))
        · rintro rfl
          exact .inl rfl
      · simp [hs, hw.byTo]

theorem WellFormed.remove {st : JournalState} (hw : st.WellFormed) (seq : Nat) :
    (st.remove seq).WellFormed := by
  cases hget : st.entries.get seq with
  | none => simpa [JournalState.remove, hget] using hw
  | some v =>
    refine ⟨?_, ?_, ?_, ?_⟩
    · intro s e h
      rw [get_remove] at h
      split at h
      · cases h
      · exact hw.seq_eq s e h
    · intro s e h
      rw [get_remove] at h
      rw [nextSeq_remove]
      split at h
      · cases h
      · exact hw.lt_nextSeq s e h
    · intro p s
      rw [show (st.remove seq).byPath = st.byPath.dropIndex v.path seq by
        simp [JournalState.remove, hget], SeqIndex.mem_exact_dropIndex, hw.byPath]
      simp only [get_remove]
      by_cases hs : s = seq
      · subst hs
        simp [hget, eq_comm]
      · simp [hs]
    · intro p s
      simp only [get_remove]
      cases hop : v.op with
      | upsert =>
        rw [show (st.remove seq).byTo = st.byTo by simp [JournalState.remove, hget, hop], hw.byTo]
        by_cases hs : s = seq
        · subst hs
          simp [hget, hop]
        · simp [hs]
      | delete =>
        rw [show (st.remove seq).byTo = st.byTo by simp [JournalState.remove, hget, hop], hw.byTo]
        by_cases hs : s = seq
        · subst hs
          simp [hget, hop]
        · simp [hs]
      | rename target =>
        rw [show (st.remove seq).byTo = st.byTo.dropIndex target seq by
          simp [JournalState.remove, hget, hop], SeqIndex.mem_exact_dropIndex, hw.byTo]
        by_cases hs : s = seq
        · subst hs
          simp [hget, hop, eq_comm]
        · simp [hs]

/-! ## Coalescing -/

theorem WellFormed.foldl_remove {st : JournalState} (hw : st.WellFormed) (seqs : List Nat) :
    (seqs.foldl JournalState.remove st).WellFormed := by
  induction seqs generalizing st with
  | nil => exact hw
  | cons s seqs ih => exact ih (hw.remove s)

theorem get_foldl_remove (st : JournalState) (seqs : List Nat) (s : Nat) :
    (seqs.foldl remove st).entries.get s = if s ∈ seqs then none else st.entries.get s := by
  induction seqs generalizing st with
  | nil => simp
  | cons n seqs ih =>
    rw [List.foldl_cons, ih, get_remove]
    by_cases hn : s = n <;> simp [hn]

@[simp] theorem nextSeq_foldl_remove (st : JournalState) (seqs : List Nat) :
    (seqs.foldl remove st).nextSeq = st.nextSeq := by
  induction seqs generalizing st with
  | nil => rfl
  | cons n seqs ih => rw [List.foldl_cons, ih, nextSeq_remove]

/-- The exact lookup selects entries by path and operation. -/
theorem WellFormed.mem_exactWith {st : JournalState} (hw : st.WellFormed) {p : PathBuf}
    {sel : JournalOp → Bool} {s : Nat} :
    s ∈ st.exactWith p sel ↔ ∃ e, st.entries.get s = some e ∧ e.path = p ∧ sel e.op = true := by
  unfold exactWith
  rw [List.mem_filter, hw.byPath]
  constructor
  · rintro ⟨⟨e, he, hp⟩, hsel⟩
    exact ⟨e, he, hp, by simpa [he] using hsel⟩
  · rintro ⟨e, he, hp, hsel⟩
    exact ⟨⟨e, he, hp⟩, by simpa [he] using hsel⟩

/-- Dropping the entries at `p` that `sel` selects. -/
theorem WellFormed.get_dropExact {st : JournalState} (hw : st.WellFormed) (p : PathBuf)
    (sel : JournalOp → Bool) (s : Nat) :
    ((st.exactWith p sel).foldl JournalState.remove st).entries.get s =
      (st.entries.get s).filter fun e => !decide (e.path = p ∧ sel e.op = true) := by
  rw [get_foldl_remove]
  cases he : st.entries.get s with
  | none => simp
  | some e =>
    by_cases hsel : e.path = p ∧ sel e.op = true
    · rw [if_pos (hw.mem_exactWith.mpr ⟨e, he, hsel.1, hsel.2⟩)]
      rw [Option.filter_some_neg (by simp [hsel.1, hsel.2])]
    · rw [if_neg, Option.filter_some_pos (by rw [decide_eq_false hsel]; rfl)]
      rintro hmem
      obtain ⟨e', he', h⟩ := hw.mem_exactWith.mp hmem
      obtain rfl : e = e' := Option.some.inj (he.symm.trans he')
      exact hsel h

/-- What is left of an older entry when `p` is deleted. -/
def afterDelete (p : PathBuf) (e : JournalEntry) : Option JournalEntry :=
  match e.op with
  | .upsert => if p <+: e.path then none else some e
  | .delete => if p <+: e.path then none else some e
  | .rename target =>
    if p <+: e.path then
      if p <+: target then none else some ⟨e.seq, .upsert, target, e.actionMs⟩
    else if p <+: target then some ⟨e.seq, .delete, e.path, e.actionMs⟩
    else some e

/-- One victim of a delete. -/
theorem WellFormed.get_coalesceDelete {st : JournalState} (hw : st.WellFormed) {p : PathBuf}
    {seq : Nat} (hv : ∀ e, st.entries.get seq = some e → p <+: e.path ∨ ∃ t, e.op = .rename t ∧ p <+: t)
    (s : Nat) :
    (coalesceDelete p st seq).entries.get s =
      if s = seq then (st.entries.get seq).bind (afterDelete p) else st.entries.get s := by
  unfold coalesceDelete
  cases he : st.entries.get seq with
  | none =>
    by_cases hs : s = seq
    · simp [hs, he]
    · simp [hs]
  | some e =>
    have hseq := hw.seq_eq seq e he
    have hpath := hv e he
    obtain ⟨n, op, path, a⟩ := e
    cases op with
    | upsert => simp_all [get_remove, afterDelete]
    | delete => simp_all [get_remove, afterDelete]
    | rename target =>
      by_cases hf : p <+: path
      · by_cases ht : p <+: target
        · simp [hf, ht, get_remove, afterDelete]
        · simp only [hf, ht, if_true, if_false, get_insert, get_remove, afterDelete,
            Option.bind_some]
          simp_all
      · by_cases ht : p <+: target
        · simp only [hf, ht, if_true, if_false, get_insert, get_remove, afterDelete,
            Option.bind_some]
          simp_all
        · exact absurd hpath (by simp [hf, ht])

theorem WellFormed.coalesceDelete {st : JournalState} (hw : st.WellFormed) (p : PathBuf)
    (seq : Nat) : (coalesceDelete p st seq).WellFormed := by
  unfold JournalState.coalesceDelete
  have hfree : (st.remove seq).entries.get seq = none := by simp [get_remove]
  split
  · exact hw
  · split
    · exact hw.remove seq
    · exact hw.remove seq
    · split
      · split
        · exact hw.remove seq
        · exact (hw.remove seq).insert hfree
      · split
        · exact (hw.remove seq).insert hfree
        · exact hw

@[simp] theorem nextSeq_insert (st : JournalState) (e : JournalEntry) :
    (st.insert e).nextSeq = max st.nextSeq (e.seq + 1) := rfl

/-- A rewritten entry keeps its place, so no new seq is taken. -/
theorem WellFormed.nextSeq_coalesceDelete {st : JournalState} (hw : st.WellFormed) (p : PathBuf)
    (seq : Nat) : (JournalState.coalesceDelete p st seq).nextSeq = st.nextSeq := by
  unfold JournalState.coalesceDelete
  split
  · rfl
  · next v hv =>
    have hlt := hw.lt_nextSeq seq v hv
    split
    · simp
    · simp
    · split
      · split
        · simp
        · simp; omega
      · split
        · simp; omega
        · rfl

theorem mem_deleteVictims {st : JournalState} {p : PathBuf} {s : Nat} :
    s ∈ st.deleteVictims p ↔ s ∈ st.byPath.under p ∨ s ∈ st.byTo.under p := by
  have hcollect : ∀ (l : List Nat) (set : SeqSet),
      s ∈ (l.foldl (fun s n => s.insert n ()) set).keys ↔ s ∈ l ∨ s ∈ set.keys := by
    intro l
    induction l with
    | nil => simp
    | cons n l ih =>
      intro set
      rw [List.foldl_cons, ih]
      have : s ∈ (set.insert n ()).keys ↔ s = n ∨ s ∈ set.keys := by
        rw [← not_iff_not, ← OrdMap.get_eq_none_iff, OrdMap.get_insert, not_or,
          ← OrdMap.get_eq_none_iff]
        by_cases hs : s = n <;> simp [hs]
      rw [this, List.mem_cons]
      tauto
  unfold deleteVictims
  rw [hcollect, List.mem_append]
  simp [OrdMap.empty, OrdMap.keys]

/-- The victims of a delete are the entries with their path or target at or below it. -/
theorem WellFormed.mem_deleteVictims {st : JournalState} (hw : st.WellFormed) {p : PathBuf}
    {s : Nat} : s ∈ st.deleteVictims p ↔
      ∃ e, st.entries.get s = some e ∧ (p <+: e.path ∨ ∃ t, e.op = .rename t ∧ p <+: t) := by
  rw [JournalState.mem_deleteVictims, SeqIndex.mem_under, SeqIndex.mem_under]
  simp only [hw.byPath, hw.byTo]
  constructor
  · rintro (⟨k, hk, e, he, rfl⟩ | ⟨k, hk, e, he, hop⟩)
    · exact ⟨e, he, .inl hk⟩
    · exact ⟨e, he, .inr ⟨k, hop, hk⟩⟩
  · rintro ⟨e, he, hk | ⟨t, hop, ht⟩⟩
    · exact .inl ⟨e.path, hk, e, he, rfl⟩
    · exact .inr ⟨t, ht, e, he, hop⟩

theorem afterDelete_of_not_victim {p : PathBuf} {e : JournalEntry} (hpath : ¬ p <+: e.path)
    (hto : ∀ t, e.op = .rename t → ¬ p <+: t) : afterDelete p e = some e := by
  unfold afterDelete
  split
  · simp [hpath]
  · simp [hpath]
  · next t ht => simp [hpath, hto t ht]

/-- All victims of a delete, each rewritten in its own place. -/
private theorem get_foldl_coalesceDelete {p : PathBuf} {seqs : List Nat} (hnodup : seqs.Nodup)
    {st : JournalState} (hw : st.WellFormed)
    (hv : ∀ s ∈ seqs, ∀ e, st.entries.get s = some e →
      p <+: e.path ∨ ∃ t, e.op = .rename t ∧ p <+: t) (s : Nat) :
    (seqs.foldl (JournalState.coalesceDelete p) st).WellFormed ∧
      (seqs.foldl (JournalState.coalesceDelete p) st).nextSeq = st.nextSeq ∧
      (seqs.foldl (JournalState.coalesceDelete p) st).entries.get s =
        if s ∈ seqs then (st.entries.get s).bind (afterDelete p) else st.entries.get s := by
  induction seqs generalizing st with
  | nil => simpa using hw
  | cons n seqs ih =>
    obtain ⟨hn, hnodup⟩ := List.nodup_cons.mp hnodup
    have hget := hw.get_coalesceDelete (hv n (by simp))
    -- The first victim leaves the others as they are.
    have hrest : ∀ m ∈ seqs, ∀ e, (JournalState.coalesceDelete p st n).entries.get m = some e →
        p <+: e.path ∨ ∃ t, e.op = .rename t ∧ p <+: t := by
      intro m hm e he
      rw [hget, if_neg (by rintro rfl; exact hn hm)] at he
      exact hv m (by simp [hm]) e he
    obtain ⟨h₁, h₂, h₃⟩ := ih hnodup (hw.coalesceDelete p n) hrest
    refine ⟨h₁, h₂.trans (hw.nextSeq_coalesceDelete p n), ?_⟩
    rw [List.foldl_cons, h₃, hget]
    by_cases hs : s = n
    · subst hs
      simp [hn]
    · simp [hs]

theorem nodup_deleteVictims (st : JournalState) (p : PathBuf) : (st.deleteVictims p).Nodup :=
  OrdMap.nodup_keys _

/-- Rewriting what a delete supersedes. -/
theorem WellFormed.coalesceDeletes {st : JournalState} (hw : st.WellFormed) (p : PathBuf) :
    ((st.deleteVictims p).foldl (JournalState.coalesceDelete p) st).WellFormed ∧
      ((st.deleteVictims p).foldl (JournalState.coalesceDelete p) st).nextSeq = st.nextSeq ∧
      ∀ s, ((st.deleteVictims p).foldl (JournalState.coalesceDelete p) st).entries.get s =
        (st.entries.get s).bind (afterDelete p) := by
  have hv : ∀ s ∈ st.deleteVictims p, ∀ e, st.entries.get s = some e →
      p <+: e.path ∨ ∃ t, e.op = .rename t ∧ p <+: t := by
    intro s hs e he
    obtain ⟨e', he', h⟩ := hw.mem_deleteVictims.mp hs
    obtain rfl : e = e' := Option.some.inj (he.symm.trans he')
    exact h
  have hall := get_foldl_coalesceDelete (nodup_deleteVictims st p) hw hv
  refine ⟨(hall 0).1, (hall 0).2.1, fun s => ?_⟩
  rw [(hall s).2.2]
  split
  · rfl
  · next hs =>
    cases he : st.entries.get s with
    | none => rfl
    | some e =>
      rw [hw.mem_deleteVictims] at hs
      push Not at hs
      have := hs e he
      rw [Option.bind_some, afterDelete_of_not_victim this.1 this.2]

/-! ## What an append does -/

/-- What is left of an older entry when a new action is appended. -/
def afterAppend (new : JournalEntry) (e : JournalEntry) : Option JournalEntry :=
  match new.op with
  | .upsert => if e.path = new.path ∧ isUpsertOrDelete e.op = true then none else some e
  | .delete => afterDelete new.path e
  | .rename target =>
    if (e.path = new.path ∧ isUpsert e.op = true) ∨ (e.path = target ∧ isUpsertOrDelete e.op = true)
    then none else some e

/-- `apply` keeps the invariant, and each older entry is kept, rewritten in its own place
    or dropped. -/
theorem WellFormed.apply {st : JournalState} (hw : st.WellFormed) {new : JournalEntry}
    (hseq : st.nextSeq ≤ new.seq) :
    (st.apply new).WellFormed ∧ (st.apply new).nextSeq = new.seq + 1 ∧
      ∀ s, (st.apply new).entries.get s =
        if s = new.seq then some new else (st.entries.get s).bind (afterAppend new) := by
  have hfresh : st.entries.get new.seq = none := by
    cases h : st.entries.get new.seq with
    | none => rfl
    | some e => exact absurd (hw.lt_nextSeq _ e h) (by omega)
  obtain ⟨n, op, path, a⟩ := new
  simp only at hseq hfresh ⊢
  cases op with
  | upsert =>
    have hget := hw.get_dropExact path isUpsertOrDelete
    have hfree : ((st.exactWith path isUpsertOrDelete).foldl JournalState.remove st).entries.get n =
        none := by simp [hget, hfresh]
    refine ⟨(hw.foldl_remove _).insert hfree, by simp [JournalState.apply]; omega, fun s => ?_⟩
    simp only [JournalState.apply, get_insert, hget]
    congr 1
    cases st.entries.get s with
    | none => rfl
    | some e =>
      by_cases h : e.path = path ∧ isUpsertOrDelete e.op = true
      · simp [afterAppend, Option.filter_some, h.1, h.2]
      · simp only [afterAppend, Option.filter_some, decide_eq_false h, Option.bind_some, if_neg h]
        rfl
  | delete =>
    obtain ⟨hw', hnext, hget⟩ := hw.coalesceDeletes path
    have hfree : ((st.deleteVictims path).foldl (JournalState.coalesceDelete path) st).entries.get n
        = none := by simp [hget, hfresh]
    refine ⟨hw'.insert hfree, by simp [JournalState.apply, hnext]; omega, fun s => ?_⟩
    simp only [JournalState.apply, get_insert, hget]
    rfl
  | rename target =>
    have hw₁ := hw.foldl_remove (st.exactWith path isUpsert)
    have hget₁ := hw.get_dropExact path isUpsert
    have hget₂ := hw₁.get_dropExact target isUpsertOrDelete
    have hfree : ((((st.exactWith path isUpsert).foldl JournalState.remove st).exactWith target
        isUpsertOrDelete).foldl JournalState.remove
          ((st.exactWith path isUpsert).foldl JournalState.remove st)).entries.get n = none := by
      simp [hget₂, hget₁, hfresh]
    refine ⟨(hw₁.foldl_remove _).insert hfree, by simp [JournalState.apply]; omega, fun s => ?_⟩
    simp only [JournalState.apply, get_insert, hget₂, hget₁]
    congr 1
    cases st.entries.get s with
    | none => rfl
    | some e =>
      simp only [Option.filter_some, Option.bind_some, afterAppend]
      by_cases h₁ : e.path = path ∧ isUpsert e.op = true
      · simp [h₁.1, h₁.2]
      · rw [decide_eq_false h₁, Bool.not_false, if_pos rfl, Option.filter_some]
        by_cases h₂ : e.path = target ∧ isUpsertOrDelete e.op = true
        · rw [if_pos (Or.inr h₂ : _ ∨ e.path = target ∧ isUpsertOrDelete e.op = true),
            decide_eq_true h₂]
          rfl
        · have hkeep : ¬ ((e.path = path ∧ isUpsert e.op = true) ∨
              (e.path = target ∧ isUpsertOrDelete e.op = true)) := not_or.mpr ⟨h₁, h₂⟩
          rw [if_neg hkeep, decide_eq_false h₂]
          rfl

/-- The pending entries after an append, in sequence order. -/
theorem WellFormed.values_apply {st : JournalState} (hw : st.WellFormed) {new : JournalEntry}
    (hseq : st.nextSeq ≤ new.seq) :
    (st.apply new).entries.values = st.entries.values.filterMap (afterAppend new) ++ [new] := by
  obtain ⟨-, -, hget⟩ := hw.apply hseq
  -- Seen without the new entry, the map is computed entry by entry from the old one.
  have hold : ∀ s, ((st.apply new).entries.erase new.seq).get s =
      (st.entries.get s).bind (afterAppend new) := by
    intro s
    rw [OrdMap.get_erase, hget]
    by_cases hs : s = new.seq
    · subst hs
      cases h : st.entries.get new.seq with
      | none => simp
      | some e => exact absurd (hw.lt_nextSeq _ e h) (by omega)
    · simp [hs]
  have hlist := OrdMap.toList_eq_filterMap hold
  have hinsert : (st.apply new).entries.toList =
      (((st.apply new).entries.erase new.seq).insert new.seq new).toList := by
    have : (st.apply new).entries = ((st.apply new).entries.erase new.seq).insert new.seq new := by
      refine OrdMap.ext_get fun s => ?_
      rw [OrdMap.get_insert, OrdMap.get_erase, hget]
      by_cases hs : s = new.seq <;> simp [hs]
    rw [← this]
  have hlt : ∀ x ∈ ((st.apply new).entries.erase new.seq).toList, x.1 < new.seq := by
    rintro ⟨s, e⟩ hx
    rw [← OrdMap.get_eq_some_iff, hold, Option.bind_eq_some_iff] at hx
    obtain ⟨e', he', -⟩ := hx
    exact (hw.lt_nextSeq s e' he').trans_le hseq
  unfold OrdMap.values
  rw [hinsert, OrdMap.toList_insert_of_lt hlt, List.map_append, hlist, List.map_filterMap,
    List.filterMap_map]
  simp [Function.comp_def, Option.map_map]

end JournalState

/-- Compaction leaves the pending entries alone. -/
theorem ActionJournal.snapshot_maybeCompact (h : Host) (j : ActionJournal) :
    (j.maybeCompact h).snapshot = j.snapshot := by
  unfold maybeCompact writeCompacted
  split
  · split <;> rfl
  · rfl

end ByteHive
