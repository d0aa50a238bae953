import ByteHive.ForStd.Run
import ByteHive.Spec.JournalIndex

/-!
# What coalescing does to the meaning of the journal

An entry list is read as a program on the set of existing paths. Each append drops or
rewrites older entries; the reading of the pending entries from the starting tree
should stay the tree that the user's actions made.

A dropped entry is missed at a few paths only. Those paths must not be carried
elsewhere by a later rename, and a dropped delete must not have had anything to remove
below its path: `CoalescesSafely` says this for each kind of append.

Key results:
- `agreeOff_replay`: rewriting entries leaves the reading alone away from the paths in
  doubt.
- `replay_snapshot_of_coalescesSafely`: along every run of safe appends the pending
  entries mean what the actions did.
-/

namespace ByteHive

/-! ## Reading entries -/

/-- What an operation does to the set of existing paths. -/
def JournalOp.interp (path : PathBuf) (s : Finset PathBuf) : JournalOp → Finset PathBuf
  | .upsert => insert path s
  | .delete => s.filter fun q => ¬ path <+: q
  | .rename target =>
    (s.filter fun q => ¬ path <+: q) ∪
      (s.filter fun q => path <+: q).image fun q => target ++ q.drop path.length

/-- Reading a list of entries in order. -/
def replay (tree : Finset PathBuf) (entries : List JournalEntry) : Finset PathBuf :=
  entries.foldl (fun s e => e.op.interp e.path s) tree

theorem replay_append (tree : Finset PathBuf) (es es' : List JournalEntry) :
    replay tree (es ++ es') = replay (replay tree es) es' := List.foldl_append

theorem replay_cons (tree : Finset PathBuf) (e : JournalEntry) (es : List JournalEntry) :
    replay tree (e :: es) = replay (e.op.interp e.path tree) es := rfl

@[simp] theorem replay_singleton (tree : Finset PathBuf) (e : JournalEntry) :
    replay tree [e] = e.op.interp e.path tree := rfl

theorem mem_interp_upsert {s : Finset PathBuf} {p z : PathBuf} :
    z ∈ JournalOp.upsert.interp p s ↔ z = p ∨ z ∈ s := Finset.mem_insert

theorem mem_interp_delete {s : Finset PathBuf} {p z : PathBuf} :
    z ∈ JournalOp.delete.interp p s ↔ z ∈ s ∧ ¬ p <+: z := Finset.mem_filter

theorem mem_interp_rename {s : Finset PathBuf} {f t z : PathBuf} :
    z ∈ (JournalOp.rename t).interp f s ↔
      (z ∈ s ∧ ¬ f <+: z) ∨ ∃ r, z = t ++ r ∧ f ++ r ∈ s := by
  simp only [JournalOp.interp, Finset.mem_union, Finset.mem_filter, Finset.mem_image]
  refine or_congr_right ⟨?_, ?_⟩
  · rintro ⟨q, ⟨hq, r, rfl⟩, rfl⟩
    exact ⟨r, by simp, hq⟩
  · rintro ⟨r, rfl, hr⟩
    exact ⟨f ++ r, ⟨hr, List.prefix_append f r⟩, by simp⟩

/-! ## Sets that agree away from some paths -/

/-- The two sets hold the same paths outside `doubt`. -/
def AgreeOff (doubt : PathBuf → Prop) (s s' : Finset PathBuf) : Prop :=
  ∀ z, ¬ doubt z → (z ∈ s ↔ z ∈ s')

/-- An operation that carries no path in doubt elsewhere keeps two sets in agreement. -/
theorem AgreeOff.interp {doubt : PathBuf → Prop} {s s' : Finset PathBuf}
    (h : AgreeOff doubt s s') {e : JournalEntry}
    (hmove : ∀ t, e.op = .rename t → ∀ d, doubt d → ¬ e.path <+: d) :
    AgreeOff doubt (e.op.interp e.path s) (e.op.interp e.path s') := by
  intro z hz
  have hzs := h z hz
  cases hop : e.op with
  | upsert => simp [JournalOp.interp, hzs]
  | delete => simp [JournalOp.interp, hzs]
  | rename t =>
    rw [mem_interp_rename, mem_interp_rename, hzs]
    refine or_congr_right (exists_congr fun r => and_congr_right fun _ => ?_)
    refine h _ fun hd => ?_
    exact hmove t hop _ hd (List.prefix_append e.path r)

/-- What is left of an entry, read on a set. -/
def interpLeft (s : Finset PathBuf) : Option JournalEntry → Finset PathBuf
  | none => s
  | some e => e.op.interp e.path s

theorem replay_concat_filterMap (tree : Finset PathBuf) (g : JournalEntry → Option JournalEntry)
    (es : List JournalEntry) (e : JournalEntry) :
    replay tree ((es ++ [e]).filterMap g) = interpLeft (replay tree (es.filterMap g)) (g e) := by
  rw [List.filterMap_append, replay_append]
  cases h : g e <;> simp [h, interpLeft, replay]

/-- Rewriting entries by `g` changes the reading at paths in doubt only, when each
    rewritten entry does so where it stands, and no entry behind a rewritten one carries
    a path in doubt elsewhere. -/
theorem agreeOff_replay {tree : Finset PathBuf} {doubt : PathBuf → Prop}
    {g : JournalEntry → Option JournalEntry} (victim : JournalEntry → Prop)
    {es : List JournalEntry} (hkeep : ∀ e, ¬ victim e → g e = some e)
    (hmove : es.Pairwise fun a b => victim a → ¬ victim b → ∀ t, b.op = .rename t →
      ∀ d, doubt d → ¬ b.path <+: d)
    (hvictim : ∀ pre e post, es = pre ++ e :: post → victim e → ∀ s',
      AgreeOff doubt (replay tree pre) s' →
        AgreeOff doubt (e.op.interp e.path (replay tree pre)) (interpLeft s' (g e))) :
    AgreeOff doubt (replay tree es) (replay tree (es.filterMap g)) ∧
      ((∀ e ∈ es, ¬ victim e) → replay tree (es.filterMap g) = replay tree es) := by
  -- From the front: as long as nothing was rewritten the two readings are equal.
  induction es using List.reverseRecOn with
  | nil => exact ⟨fun z _ => Iff.rfl, fun _ => rfl⟩
  | append_singleton es e ih =>
    rw [List.pairwise_append] at hmove
    obtain ⟨hes, -, hlast⟩ := hmove
    obtain ⟨hagree, hsame⟩ := ih hes fun pre x post hx =>
      hvictim pre x (post ++ [e]) (by simp [hx])
    rw [replay_concat_filterMap, replay_append, replay_singleton]
    have hno : (∀ x ∈ es ++ [e], ¬ victim x) →
        interpLeft (replay tree (es.filterMap g)) (g e) = e.op.interp e.path (replay tree es) := by
      intro hnone
      rw [hkeep e (hnone e (by simp)), hsame fun x hx => hnone x (by simp [hx])]
      rfl
    refine ⟨?_, hno⟩
    by_cases hv : victim e
    · exact hvictim es e [] rfl hv _ hagree
    · rw [hkeep e hv]
      by_cases hany : ∃ a ∈ es, victim a
      · obtain ⟨a, ha, hva⟩ := hany
        exact hagree.interp (hlast a ha e (by simp) hva hv)
      · push Not at hany
        rw [hsame hany]
        exact fun z _ => Iff.rfl

/-! ## Safe appends -/

/-- Dropping the entries at `p` that `sel` selects is safe: no rename behind one of them
    starts at `p` or above it, and a dropped delete had nothing to remove below `p`. -/
structure DropsSafely (tree : Finset PathBuf) (es : List JournalEntry) (p : PathBuf)
    (sel : JournalOp → Bool) : Prop where
  move : es.Pairwise fun a b => a.path = p → sel a.op = true → ∀ t, b.op = .rename t →
    ¬ b.path <+: p
  leaf : ∀ pre e post, es = pre ++ e :: post → e.path = p → sel e.op = true → e.op = .delete →
    ∀ q ∈ replay tree pre, p <+: q → q = p

/-- Deleting `p` is safe: no rename behind a rewritten entry starts strictly above `p`,
    and a rename out of the subtree of `p` moved a file or an empty directory. -/
structure DeletesSafely (tree : Finset PathBuf) (es : List JournalEntry) (p : PathBuf) : Prop where
  move : es.Pairwise fun a b => JournalState.afterDelete p a ≠ some a → ∀ t, b.op = .rename t →
    b.path <+: p → b.path = p
  leaf : ∀ pre e post t, es = pre ++ e :: post → e.op = .rename t → p <+: e.path → ¬ p <+: t →
    e.path ∈ replay tree pre ∧ ∀ q ∈ replay tree pre, e.path <+: q → q = e.path

/-- What is dropped for a new action at `p`. -/
def dropExact (p : PathBuf) (sel : JournalOp → Bool) (e : JournalEntry) : Option JournalEntry :=
  if e.path = p ∧ sel e.op = true then none else some e

/-- Dropping entries at `p` is missed at `p` only. -/
theorem agreeOff_dropExact {tree : Finset PathBuf} {es : List JournalEntry} {p : PathBuf}
    {sel : JournalOp → Bool} (hsel : ∀ t, sel (.rename t) = false)
    (h : DropsSafely tree es p sel) :
    AgreeOff (· = p) (replay tree es) (replay tree (es.filterMap (dropExact p sel))) := by
  refine (agreeOff_replay (fun e => e.path = p ∧ sel e.op = true) ?_ ?_ ?_).1
  · intro e he
    simp [dropExact, he]
  · refine h.move.imp fun {a b} hab hva _ t hop d hd => ?_
    subst hd
    exact hab hva.1 hva.2 t hop
  · rintro pre e post hes ⟨hp, hs⟩ s' hagree z hz
    rw [show dropExact p sel e = none by simp [dropExact, hp, hs]]
    cases hop : e.op with
    | upsert =>
      rw [hp]
      simpa [JournalOp.interp, interpLeft, hz] using hagree z hz
    | delete =>
      have hleaf := h.leaf pre e post hes hp hs hop
      rw [hp]
      simp only [JournalOp.interp, interpLeft, Finset.mem_filter, ← hagree z hz]
      exact ⟨fun h => h.1, fun hm => ⟨hm, fun hpz => hz (hleaf z hm hpz)⟩⟩
    | rename t => simp [hop, hsel] at hs

/-- Rewriting entries for a delete of `p` is missed at or below `p` only. -/
theorem agreeOff_afterDelete {tree : Finset PathBuf} {es : List JournalEntry} {p : PathBuf}
    (h : DeletesSafely tree es p) :
    AgreeOff (p <+: ·) (replay tree es)
      (replay tree (es.filterMap (JournalState.afterDelete p))) := by
  refine (agreeOff_replay (fun e => JournalState.afterDelete p e ≠ some e) ?_ ?_ ?_).1
  · intro e he
    simpa using he
  · refine h.move.imp fun {a b} hab hva hvb t hop d hd hbd => ?_
    rcases List.prefix_or_prefix_of_prefix hbd hd with hbp | hpb
    · obtain hbp := hab hva t hop hbp
      refine hvb fun heq => ?_
      simp only [JournalState.afterDelete, hop, hbp, List.prefix_refl, if_true] at heq
      split at heq
      · cases heq
      · cases (congrArg JournalEntry.op (Option.some.inj heq)).trans hop
    · refine hvb fun heq => ?_
      simp only [JournalState.afterDelete, hop, hpb, if_true] at heq
      split at heq
      · cases heq
      · cases (congrArg JournalEntry.op (Option.some.inj heq)).trans hop
  · rintro pre e post hes hv s' hagree z hz
    unfold JournalState.afterDelete at hv ⊢
    cases hop : e.op with
    | upsert =>
      simp only [hop] at hv ⊢
      split at hv
      · next hpe =>
        have hne : z ≠ e.path := by rintro rfl; exact hz hpe
        simpa [hpe, JournalOp.interp, interpLeft, hne] using hagree z hz
      · exact absurd rfl hv
    | delete =>
      simp only [hop] at hv ⊢
      split at hv
      · next hpe =>
        have hne : ¬ e.path <+: z := fun h => hz (hpe.trans h)
        simpa [hpe, JournalOp.interp, interpLeft, hne] using hagree z hz
      · exact absurd rfl hv
    | rename t =>
      simp only [hop] at hv ⊢
      have hbelow := mem_interp_rename (s := replay tree pre) (f := e.path) (t := t) (z := z)
      split at hv
      · next hpe =>
        have hne : ¬ e.path <+: z := fun h => hz (hpe.trans h)
        split at hv
        · next hpt =>
          -- Source and target are both below `p`.
          have hno : ¬ ∃ r, z = t ++ r ∧ e.path ++ r ∈ replay tree pre := by
            rintro ⟨r, rfl, -⟩
            exact hz (hpt.trans (List.prefix_append t r))
          simp only [hpe, hpt, if_true, interpLeft]
          rw [hbelow, or_iff_left hno, and_iff_left hne]
          exact hagree z hz
        · next hpt =>
          -- The source is a leaf, so that only the target itself arrives outside.
          obtain ⟨hin, hleaf⟩ := h.leaf pre e post t hes hop hpe hpt
          have hto : (∃ r, z = t ++ r ∧ e.path ++ r ∈ replay tree pre) ↔ z = t := by
            constructor
            · rintro ⟨r, rfl, hr⟩
              have := hleaf _ hr (List.prefix_append _ _)
              simp [List.append_right_eq_self.mp this]
            · rintro rfl
              exact ⟨[], by simp, by simpa using hin⟩
          simp only [hpe, hpt, if_true, if_false, interpLeft]
          rw [hbelow, mem_interp_upsert, hto, hagree z hz, and_iff_left hne]
          exact or_comm
      · next hpe =>
        split at hv
        · next hpt =>
          have hno : ¬ ∃ r, z = t ++ r ∧ e.path ++ r ∈ replay tree pre := by
            rintro ⟨r, rfl, -⟩
            exact hz (hpt.trans (List.prefix_append t r))
          simp only [hpe, hpt, if_true, if_false, interpLeft]
          rw [hbelow, mem_interp_delete, or_iff_left hno, hagree z hz]
        · exact absurd rfl hv

/-! ## Appends -/

namespace ActionJournal

theorem wellFormed_linesOnDisk {st : JournalState} (hw : st.WellFormed) (n : Nat) :
    { st with linesOnDisk := n }.WellFormed := ⟨hw.seq_eq, hw.lt_nextSeq, hw.byPath, hw.byTo⟩

theorem wellFormed_maybeCompact (h : Host) {j : ActionJournal} (hw : j.state.WellFormed) :
    (j.maybeCompact h).state.WellFormed := by
  unfold maybeCompact writeCompacted
  split
  · split
    · exact hw
    · exact wellFormed_linesOnDisk hw _
  · exact hw

/-- One entry is written and applied when the file system lets it. -/
theorem appendEntry_spec {h : Host} (hio : ∀ s, h.fails (.appendJournal s) = false)
    {j : ActionJournal} (hw : j.state.WellFormed) (op : JournalOp) (path : PathBuf) (a : Nat) :
    ∃ j', j.appendEntry h op path a = some j' ∧ j'.state.WellFormed ∧ j'.snapshot =
      j.snapshot.filterMap (JournalState.afterAppend ⟨j.state.nextSeq, op, path, a⟩) ++
        [⟨j.state.nextSeq, op, path, a⟩] := by
  have hw' := wellFormed_linesOnDisk hw (j.state.linesOnDisk + 1)
  refine ⟨_, by simp [appendEntry, appendLine, hio]; rfl, (hw'.apply le_rfl).1, ?_⟩
  exact hw'.values_apply le_rfl

/-- The pending entries after an upsert or a delete. -/
theorem append_spec {h : Host} (hio : ∀ s, h.fails (.appendJournal s) = false)
    {j : ActionJournal} (hw : j.state.WellFormed) (op : JournalOp) (path : PathBuf) (a : Nat) :
    (j.append h op path a).2.state.WellFormed ∧ (j.append h op path a).2.snapshot =
      j.snapshot.filterMap (JournalState.afterAppend ⟨j.state.nextSeq, op, path, a⟩) ++
        [⟨j.state.nextSeq, op, path, a⟩] := by
  obtain ⟨j', hj', hw', hsnap⟩ := appendEntry_spec hio hw op path a
  simp only [append, hj']
  exact ⟨wellFormed_maybeCompact h hw', (snapshot_maybeCompact h j').trans hsnap⟩

/-- The entries a rename leaves of the older ones. -/
def afterRename (f t : PathBuf) (es : List JournalEntry) : List JournalEntry :=
  (es.filterMap (dropExact f JournalState.isUpsert)).filterMap
    (dropExact t JournalState.isUpsertOrDelete)

theorem filterMap_afterAppend_rename (n a : Nat) (f t : PathBuf) (es : List JournalEntry) :
    es.filterMap (JournalState.afterAppend ⟨n, .rename t, f, a⟩) = afterRename f t es := by
  unfold afterRename
  rw [List.filterMap_filterMap]
  refine List.filterMap_congr fun e _ => ?_
  by_cases h₁ : e.path = f ∧ JournalState.isUpsert e.op = true
  · simp [JournalState.afterAppend, dropExact, h₁]
  · simp [JournalState.afterAppend, dropExact, h₁]

/-- Nothing at the target is left that a second append there would drop. -/
theorem filterMap_afterAppend_upsert_target {n n' a a' : Nat} {f t : PathBuf}
    {es : List JournalEntry} :
    (afterRename f t es ++ [(⟨n, .rename t, f, a⟩ : JournalEntry)]).filterMap
        (JournalState.afterAppend ⟨n', .upsert, t, a'⟩) =
      afterRename f t es ++ [⟨n, .rename t, f, a⟩] := by
  refine (List.filterMap_congr fun e he => ?_).trans List.filterMap_some
  have hnot : ¬ (e.path = t ∧ JournalState.isUpsertOrDelete e.op = true) := by
    rw [List.mem_append, afterRename, List.mem_filterMap] at he
    rintro ⟨hp, hop⟩
    rcases he with ⟨e', -, he'⟩ | he
    · unfold dropExact at he'
      split at he'
      · cases he'
      · next hkept =>
        obtain rfl := Option.some.inj he'
        exact hkept ⟨hp, hop⟩
    · obtain rfl := List.mem_singleton.mp he
      cases hop
  simp [JournalState.afterAppend, hnot]

/-- The pending entries after a rename: unsent content at the source is recorded again
    at the target. -/
theorem rename_spec {h : Host} (hio : ∀ s, h.fails (.appendJournal s) = false)
    {j : ActionJournal} (hw : j.state.WellFormed) (f t : PathBuf) (a : Nat) :
    (j.rename h f t a).2.state.WellFormed ∧ ∃ n n', (j.rename h f t a).2.snapshot =
      afterRename f t j.snapshot ++ ⟨n, .rename t, f, a⟩ ::
        if ∃ e ∈ j.snapshot, e.path = f ∧ e.op = .upsert then [⟨n', .upsert, t, a⟩] else [] := by
  obtain ⟨j', hj', hw', hsnap⟩ := appendEntry_spec hio hw (.rename t) f a
  rw [filterMap_afterAppend_rename] at hsnap
  have hupsert : j.state.exactWith f JournalState.isUpsert ≠ [] ↔
      ∃ e ∈ j.snapshot, e.path = f ∧ e.op = .upsert := by
    rw [ne_eq, List.eq_nil_iff_forall_not_mem, not_forall_not]
    constructor
    · rintro ⟨s, hs⟩
      obtain ⟨e, he, hp, hop⟩ := hw.mem_exactWith.mp hs
      refine ⟨e, List.mem_map.mpr ⟨(s, e), OrdMap.get_eq_some_iff.mp he, rfl⟩, hp, ?_⟩
      cases h : e.op <;> simp_all [JournalState.isUpsert]
    · rintro ⟨e, he, hp, hop⟩
      obtain ⟨⟨n, e'⟩, hmem, rfl⟩ := List.mem_map.mp he
      exact ⟨n, hw.mem_exactWith.mpr ⟨e', OrdMap.get_eq_some_iff.mpr hmem, hp, hop ▸ rfl⟩⟩
  obtain ⟨j'', hj'', hw'', hsnap'⟩ := appendEntry_spec hio hw' .upsert t a
  rw [hsnap, filterMap_afterAppend_upsert_target] at hsnap'
  simp only [rename, hj', hj'', hupsert, decide_eq_true_eq]
  split
  · refine ⟨wellFormed_maybeCompact h hw'', j.state.nextSeq, j'.state.nextSeq, ?_⟩
    rw [snapshot_maybeCompact, hsnap']
    simp
  · refine ⟨wellFormed_maybeCompact h hw', j.state.nextSeq, 0, ?_⟩
    rw [snapshot_maybeCompact, hsnap]

end ActionJournal

/-! ## Runs -/

namespace JournalCall

/-- The set of existing paths after the action itself. -/
def interp (s : Finset PathBuf) : JournalCall → Finset PathBuf
  | .upsert p _ => JournalOp.upsert.interp p s
  | .delete p _ => JournalOp.delete.interp p s
  | .rename f t _ => (JournalOp.rename t).interp f s

/-- The action can happen on a tree: it creates below an existing directory, deletes
    something, or moves something to a place that is free or replaceable and not below
    itself. -/
def Applicable (s : Finset PathBuf) : JournalCall → Prop
  | .upsert p _ => p ≠ [] ∧ (p.dropLast = [] ∨ p.dropLast ∈ s)
  | .delete p _ => p ∈ s
  | .rename f t _ => f ∈ s ∧ t ≠ [] ∧ (t.dropLast = [] ∨ t.dropLast ∈ s) ∧ ¬ f <+: t ∧
      ∀ q ∈ s, t <+: q → q = t

instance (s : Finset PathBuf) : (c : JournalCall) → Decidable (c.Applicable s)
  | .upsert p _ => inferInstanceAs (Decidable (p ≠ [] ∧ (p.dropLast = [] ∨ p.dropLast ∈ s)))
  | .delete p _ => inferInstanceAs (Decidable (p ∈ s))
  | .rename f t _ => inferInstanceAs (Decidable (f ∈ s ∧ t ≠ [] ∧
      (t.dropLast = [] ∨ t.dropLast ∈ s) ∧ ¬ f <+: t ∧ ∀ q ∈ s, t <+: q → q = t))

/-- The append is safe for the pending entries `es`, read from the starting tree. -/
def CoalescesSafely (tree : Finset PathBuf) (es : List JournalEntry) : JournalCall → Prop
  | .upsert p _ => DropsSafely tree es p JournalState.isUpsertOrDelete
  | .delete p _ => DeletesSafely tree es p
  | .rename f t _ =>
    DropsSafely tree es f JournalState.isUpsert ∧
      DropsSafely tree (es.filterMap (dropExact f JournalState.isUpsert)) t
        JournalState.isUpsertOrDelete

end JournalCall

/-- The journal of a client and the paths that exist in its root. -/
structure JournalRun where
  journal : ActionJournal
  tree : Finset PathBuf

/-- One user action, recorded in the journal. -/
def JournalRun.step (h : Host) (s : JournalRun) (c : JournalCall) : Option JournalRun :=
  if c.Applicable s.tree then some ⟨c.record h s.journal, c.interp s.tree⟩ else none

/-- The rename that two sets in agreement off `f` and `t` go through. -/
private theorem mem_interp_rename_of_agreeOff {s s₁ s₂ : Finset PathBuf} {f t z : PathBuf}
    (h₁ : AgreeOff (· = f) s s₁) (h₂ : AgreeOff (· = t) s₁ s₂) (hft : ¬ f <+: t) (hz : z ≠ t) :
    z ∈ (JournalOp.rename t).interp f s ↔ z ∈ (JournalOp.rename t).interp f s₂ := by
  have hoff : ∀ w, w ≠ f → w ≠ t → (w ∈ s ↔ w ∈ s₂) := fun w hf ht => (h₁ w hf).trans (h₂ w ht)
  rw [mem_interp_rename, mem_interp_rename]
  refine or_congr (and_congr_left fun hfz => ?_) (exists_congr fun r => and_congr_right ?_)
  · exact hoff z (by rintro rfl; exact hfz (List.prefix_refl _)) hz
  · rintro rfl
    refine hoff _ (fun h => ?_) fun h => hft ⟨r, h⟩
    exact hz (by simp [List.append_right_eq_self.mp h])

/-- A safe upsert keeps the meaning of the pending entries. -/
theorem replay_upsert {tree s : Finset PathBuf} {es : List JournalEntry} {p : PathBuf} {n a : Nat}
    (hmean : replay tree es = s) (hsafe : DropsSafely tree es p JournalState.isUpsertOrDelete) :
    replay tree (es.filterMap (JournalState.afterAppend ⟨n, .upsert, p, a⟩) ++
      [⟨n, .upsert, p, a⟩]) = JournalOp.upsert.interp p s := by
  have hagree := agreeOff_dropExact (fun _ => rfl) hsafe
  rw [replay_append, replay_singleton, ← hmean]
  ext z
  rw [mem_interp_upsert, mem_interp_upsert]
  by_cases hz : z = p
  · simp [hz]
  · exact or_congr_right (hagree z hz).symm

/-- A safe delete keeps the meaning of the pending entries. -/
theorem replay_delete {tree s : Finset PathBuf} {es : List JournalEntry} {p : PathBuf} {n a : Nat}
    (hmean : replay tree es = s) (hsafe : DeletesSafely tree es p) :
    replay tree (es.filterMap (JournalState.afterAppend ⟨n, .delete, p, a⟩) ++
      [⟨n, .delete, p, a⟩]) = JournalOp.delete.interp p s := by
  have hagree := agreeOff_afterDelete hsafe
  rw [replay_append, replay_singleton, ← hmean]
  ext z
  rw [mem_interp_delete, mem_interp_delete]
  exact and_congr_left fun hz => (hagree z hz).symm

/-- A safe rename keeps the meaning of the pending entries. -/
theorem replay_rename {tree s : Finset PathBuf} {es : List JournalEntry} {f t : PathBuf}
    {n n' a : Nat} (hmean : replay tree es = s) (hf : f ∈ s) (hft : ¬ f <+: t)
    (hsafe₁ : DropsSafely tree es f JournalState.isUpsert)
    (hsafe₂ : DropsSafely tree (es.filterMap (dropExact f JournalState.isUpsert)) t
      JournalState.isUpsertOrDelete) :
    replay tree (ActionJournal.afterRename f t es ++ ⟨n, .rename t, f, a⟩ ::
        if ∃ e ∈ es, e.path = f ∧ e.op = .upsert then [⟨n', .upsert, t, a⟩] else []) =
      (JournalOp.rename t).interp f s := by
  have hagree₁ := agreeOff_dropExact (fun _ => rfl) hsafe₁
  have hagree₂ := agreeOff_dropExact (fun _ => rfl) hsafe₂
  rw [hmean] at hagree₁
  have htin : t ∈ (JournalOp.rename t).interp f s :=
    mem_interp_rename.mpr (.inr ⟨[], by simp, by simpa using hf⟩)
  rw [replay_append, replay_cons]
  ext z
  split
  · rw [replay_singleton, mem_interp_upsert]
    by_cases hz : z = t
    · subst hz
      exact ⟨fun _ => htin, fun _ => .inl rfl⟩
    · rw [or_iff_right hz]
      exact (mem_interp_rename_of_agreeOff hagree₁ hagree₂ hft hz).symm
  · next hnone =>
    -- Nothing unsent at the source: it is still read there.
    have hsame : es.filterMap (dropExact f JournalState.isUpsert) = es := by
      refine (List.filterMap_congr fun e he => ?_).trans List.filterMap_some
      have hnot : ¬ (e.path = f ∧ JournalState.isUpsert e.op = true) := by
        rintro ⟨hp, hop⟩
        refine hnone ⟨e, he, hp, ?_⟩
        cases h : e.op <;> simp_all [JournalState.isUpsert]
      simp [dropExact, hnot]
    rw [ActionJournal.afterRename, hsame]
    rw [hsame, hmean] at hagree₂
    by_cases hz : z = t
    · subst hz
      refine ⟨fun _ => htin, fun _ => mem_interp_rename.mpr (.inr ⟨[], by simp, ?_⟩)⟩
      rw [List.append_nil]
      exact (hagree₂ f (by rintro rfl; exact hft (List.prefix_refl _))).mp hf
    · exact (mem_interp_rename_of_agreeOff (fun _ _ => Iff.rfl) hagree₂ hft hz).symm

/-- The invariant of a run: the journal is in order and means what the actions did. -/
structure JournalRun.Meaningful (tree : Finset PathBuf) (s : JournalRun) : Prop where
  wellFormed : s.journal.state.WellFormed
  replay_eq : replay tree s.journal.snapshot = s.tree

/-- A safe step keeps the invariant. -/
theorem meaningful_step {h : Host} (hio : ∀ s, h.fails (.appendJournal s) = false)
    {tree : Finset PathBuf} {s s' : JournalRun} {c : JournalCall} (hs : s.Meaningful tree)
    (hsafe : c.CoalescesSafely tree s.journal.snapshot) (hstep : s.step h c = some s') :
    s'.Meaningful tree := by
  unfold JournalRun.step at hstep
  split at hstep
  · next happ =>
    obtain rfl := Option.some.inj hstep
    cases c with
    | upsert p a =>
      obtain ⟨hw, hsnap⟩ := ActionJournal.append_spec hio hs.wellFormed .upsert p a
      exact ⟨hw, (congrArg (replay tree) hsnap).trans (replay_upsert hs.replay_eq hsafe)⟩
    | delete p a =>
      obtain ⟨hw, hsnap⟩ := ActionJournal.append_spec hio hs.wellFormed .delete p a
      exact ⟨hw, (congrArg (replay tree) hsnap).trans (replay_delete hs.replay_eq hsafe)⟩
    | rename f t a =>
      obtain ⟨hf, -, -, hft, -⟩ := happ
      obtain ⟨hw, n, n', hsnap⟩ := ActionJournal.rename_spec hio hs.wellFormed f t a
      exact ⟨hw, (congrArg (replay tree) hsnap).trans
        (replay_rename hs.replay_eq hf hft hsafe.1 hsafe.2)⟩
  · cases hstep

/-- A fresh journal beside a tree. -/
def JournalRun.start (tree : Finset PathBuf) : JournalRun := ⟨⟨.init, []⟩, tree⟩

/-- In every run whose appends are all safe, reading the pending entries from the
    starting tree gives, in every state, the paths that exist. -/
theorem replay_snapshot_of_coalescesSafely (h : Host)
    (hio : ∀ s, h.fails (.appendJournal s) = false) (tree : Finset PathBuf)
    (calls : List JournalCall) (s : JournalRun)
    (hrun : Run.runFrom (JournalRun.step h) (.start tree) calls = some s)
    (hsafe : Run.StepsMeet (JournalRun.step h)
      (fun s c => c.CoalescesSafely tree s.journal.snapshot) (.start tree) calls) :
    Run.Always (JournalRun.step h) (fun s => replay tree s.journal.snapshot = s.tree)
      (.start tree) calls := by
  have hstart : (JournalRun.start tree).Meaningful tree := ⟨JournalState.wellFormed_init, rfl⟩
  have hall := Run.always_of_stepsMeet
    (fun s a s' hs hc hstep => meaningful_step hio hs hc hstep) hstart hsafe hrun
  exact fun bs s' hbs hs' => (hall bs s' hbs hs').replay_eq

/-- A new file and the delete of a directory: both appends are safe. -/
theorem replay_snapshot_create_delete :
    Run.Always (JournalRun.step (.reliable (fun _ => 0) 0))
      (fun s => replay {.ofNames ["d"], .ofNames ["d", "x"]} s.journal.snapshot = s.tree)
      (.start {.ofNames ["d"], .ofNames ["d", "x"]})
      [.upsert (.ofNames ["n"]) 1, .delete (.ofNames ["d"]) 2] := by
  refine replay_snapshot_of_coalescesSafely (.reliable (fun _ => 0) 0) (fun _ => rfl)
    {.ofNames ["d"], .ofNames ["d", "x"]} [.upsert (.ofNames ["n"]) 1, .delete (.ofNames ["d"]) 2]
    _ rfl ?_
  refine (Run.stepsMeet_cons rfl).mpr ⟨⟨.nil, ?_⟩, (Run.stepsMeet_cons rfl).mpr ⟨⟨?_, ?_⟩, ?_⟩⟩
  · intro pre e post h
    simp [JournalRun.start, ActionJournal.snapshot, JournalState.init, OrdMap.values,
      OrdMap.empty] at h
  · exact List.pairwise_singleton _ _
  · rintro pre e post t h hop
    have h' : [(⟨1, .upsert, .ofNames ["n"], 1⟩ : JournalEntry)] = pre ++ e :: post := h
    have hmem : e ∈ [(⟨1, .upsert, .ofNames ["n"], 1⟩ : JournalEntry)] :=
      h' ▸ List.mem_append_right pre List.mem_cons_self
    obtain rfl := List.mem_singleton.mp hmem
    cases hop
  · intro bs a s h
    simp at h

/-- A directory that is deleted and created again: the delete is dropped from the journal,
    and reading what is pending brings its old content back. -/
theorem replay_snapshot_recreated_directory :
    ¬ ∀ (h : Host) (tree : Finset PathBuf) (calls : List JournalCall) (s : JournalRun),
      (∀ s, h.fails (.appendJournal s) = false) →
      Run.runFrom (JournalRun.step h) (.start tree) calls = some s →
      replay tree s.journal.snapshot = s.tree := by
  intro hall
  have h := hall (.reliable (fun _ => 0) 0) {.ofNames ["d"], .ofNames ["d", "x"]}
    [.delete (.ofNames ["d"]) 1, .upsert (.ofNames ["d"]) 2] _ (fun _ => rfl) rfl
  exact absurd h (by decide)

end ByteHive
