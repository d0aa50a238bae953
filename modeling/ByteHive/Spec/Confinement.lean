import Mathlib.Algebra.Order.BigOperators.Group.List
import ByteHive.Native.Access
import ByteHive.Spec.EngineFrame
import ByteHive.Spec.LedgerOrder

/-!
# Messages and the sync root

Which messages make an engine touch only what lies strictly below its sync root. A path that
passes `safe_relative` and is not empty does (`Named.strictlyBelow`); the empty path passes and
is the root itself, and `handle_request_chunks` does not check at all.

`SyncEngine.Rooted` is what the engine keeps of the paths it has accepted: manifest keys and
transfers are named by safe paths. `touches_strictlyBelow_iff` is the exact condition.
-/

namespace ByteHive

/-- `q` lies below `root` and is not `root`. -/
def StrictlyBelow (root q : List String) : Prop := root <+: q ∧ q ≠ root

instance (root q : List String) : Decidable (StrictlyBelow root q) :=
  inferInstanceAs (Decidable (_ ∧ _))

/-- A path that leads strictly below the root: normal components only, and at least one. -/
structure Named (p : PathBuf) : Prop where
  safe : safeRelative p = true
  ne_nil : p ≠ []

/-! ## Safe paths -/

theorem safeRelative_ofNames (names : List String) : safeRelative (.ofNames names) = true := by
  rw [safeRelative_iff]
  intro c hc
  obtain ⟨name, -, rfl⟩ := List.mem_map.mp hc
  exact ⟨name, rfl⟩

theorem safeRelative_drop {p : PathBuf} (hp : safeRelative p = true) (n : Nat) :
    safeRelative (p.drop n) = true := by
  have hsplit : safeRelative (p.take n ++ p.drop n) = true := by rwa [List.take_append_drop]
  exact (safeRelative_append.mp hsplit).2

/-- A safe path leads to its own names below the root. -/
theorem resolve_of_safe (root : List String) {p : PathBuf} (hp : safeRelative p = true) :
    ∃ names, resolve root p = root ++ names ∧ names.length = p.length := by
  induction p generalizing root with
  | nil => exact ⟨[], by simp [resolve], rfl⟩
  | cons c p ih =>
    obtain ⟨name, rfl⟩ := safeRelative_iff.mp hp c (by simp)
    have hrest : safeRelative p = true := by
      rw [safeRelative_iff] at hp ⊢
      exact fun d hd => hp d (by simp [hd])
    obtain ⟨names, hnames, hlen⟩ := ih (root ++ [name]) hrest
    refine ⟨name :: names, ?_, by simp [hlen]⟩
    rw [← List.append_cons] at hnames
    exact hnames

theorem Named.strictlyBelow {p : PathBuf} (hp : Named p) (root : List String) :
    StrictlyBelow root (resolve root p) := by
  obtain ⟨names, hnames, hlen⟩ := resolve_of_safe root hp.safe
  rw [hnames]
  refine ⟨List.prefix_append root names, fun heq => hp.ne_nil ?_⟩
  obtain rfl : names = [] := by simpa using heq
  exact List.length_eq_zero_iff.mp hlen.symm

/-- The empty path is the root itself. -/
theorem not_strictlyBelow_nil (root : List String) : ¬ StrictlyBelow root (resolve root []) :=
  fun h => h.2 rfl

/-! ## Lists of paths -/

/-- All paths of the list lead strictly below the root. -/
def AllNamed (ps : List PathBuf) : Prop := ∀ p ∈ ps, Named p

@[simp] theorem allNamed_nil : AllNamed [] := fun _ h => nomatch h

@[simp] theorem allNamed_cons {p : PathBuf} {ps : List PathBuf} :
    AllNamed (p :: ps) ↔ Named p ∧ AllNamed ps := by
  simp [AllNamed]

@[simp] theorem allNamed_append {ps qs : List PathBuf} :
    AllNamed (ps ++ qs) ↔ AllNamed ps ∧ AllNamed qs := by
  simp only [AllNamed, List.mem_append]
  exact ⟨fun h => ⟨fun p hp => h p (.inl hp), fun p hp => h p (.inr hp)⟩,
    fun h p hp => hp.elim (h.1 p) (h.2 p)⟩

theorem named_ofNames {names : List String} (hne : names ≠ []) : Named (.ofNames names) :=
  ⟨safeRelative_ofNames names, by simpa [PathBuf.ofNames] using hne⟩

theorem allNamed_ancestors {p : PathBuf} (hp : safeRelative p = true) : AllNamed (ancestors p) := by
  intro q hq
  obtain ⟨hne, hpre⟩ := mem_ancestors.mp hq
  exact ⟨safeRelative_of_below hpre hp, hne⟩

theorem allNamed_dirsMade (t : Tree) {p : PathBuf} (hp : safeRelative p = true) :
    AllNamed (dirsMade t p) :=
  fun q hq => allNamed_ancestors hp q (List.mem_of_mem_filter hq)

theorem safeRelative_dropLast {p : PathBuf} (hp : safeRelative p = true) :
    safeRelative p.dropLast = true :=
  safeRelative_of_below (List.dropLast_prefix p) hp

theorem named_conflictCopyName {rel : PathBuf} (hrel : safeRelative rel = true) (nodeId : String)
    (unixSecs : Nat) : Named (conflictCopyName rel nodeId unixSecs) := by
  refine ⟨safeRelative_append.mpr ⟨safeRelative_dropLast hrel, ?_⟩, by simp [conflictCopyName]⟩
  rfl

theorem allNamed_trashTouches (id : String) (t : Tree) {rel : PathBuf} (hrel : Named rel) :
    AllNamed (trashTouches id t rel) := by
  unfold trashTouches
  split
  · have hdest : safeRelative (trashEntryDir id ++ rel) = true :=
      safeRelative_append.mpr ⟨safeRelative_ofNames _, hrel.safe⟩
    simp only [List.cons_append, allNamed_cons, allNamed_append]
    exact ⟨hrel, allNamed_ancestors hdest, named_ofNames (by simp), named_ofNames (by simp),
      allNamed_nil⟩
  · simpa using hrel

namespace SyncEngine

theorem allNamed_ledgerTouches (e : SyncEngine) : AllNamed e.ledgerTouches := by
  unfold ledgerTouches
  split
  · simp only [allNamed_cons]
    exact ⟨named_ofNames (by simp), named_ofNames (by simp), named_ofNames (by simp), allNamed_nil⟩
  · exact allNamed_nil

/-! ## Bundles -/

theorem allNamed_conflictReads (e : SyncEngine) (rel : PathBuf) {dst : PathBuf} (hdst : Named dst)
    (hash : Hash) : AllNamed (e.conflictReads rel dst hash) := by
  unfold conflictReads
  split
  · exact allNamed_nil
  · split
    · exact allNamed_nil
    · simpa using hdst

theorem allNamed_copyTouches (h : Host) (e : SyncEngine) {rel dst : PathBuf}
    (hrel : safeRelative rel = true) (hdst : Named dst) : AllNamed (e.copyTouches h rel dst) := by
  have hcopy := named_conflictCopyName hrel e.nodeId h.unixSecs
  simp only [copyTouches, allNamed_append, allNamed_cons]
  exact ⟨allNamed_dirsMade e.tree (safeRelative_dropLast hcopy.safe), hdst, hcopy, allNamed_nil⟩

theorem allNamed_entryTouches (h : Host) (t : Tree) {fd : FileData}
    (hrel : Named fd.metadata.relPath) : AllNamed (entryTouches h t fd) := by
  unfold entryTouches
  split
  · exact allNamed_dirsMade t hrel.safe
  · rw [allNamed_append]
    refine ⟨allNamed_dirsMade t (safeRelative_dropLast hrel.safe), ?_⟩
    split
    · simpa using hrel
    · exact allNamed_nil

theorem allNamed_fileTouches (h : Host) (e : SyncEngine) {fd : FileData}
    (hne : fd.metadata.relPath ≠ []) : AllNamed (fileTouches h e fd) := by
  unfold fileTouches
  dsimp only
  split
  · exact allNamed_nil
  · next hsafe =>
    have hrel : Named fd.metadata.relPath := ⟨by simpa using hsafe, hne⟩
    split
    · exact allNamed_nil
    · rw [allNamed_append, allNamed_append]
      refine ⟨⟨?_, ?_⟩, ?_⟩
      · split
        · exact allNamed_nil
        · exact allNamed_conflictReads _ _ hrel _
      · split
        · exact allNamed_copyTouches h _ hrel.safe hrel
        · exact allNamed_nil
      · split
        · exact allNamed_nil
        · exact allNamed_entryTouches h _ hrel

/-- The mtimes to set are those of directories that were in the bundle. -/
theorem dirMtimes_applyFile {h : Host} {s : BundleRun} {fd : FileData} {d : PathBuf × Nat}
    (hd : d ∈ (applyFile h s fd).2.dirMtimes) :
    d ∈ s.dirMtimes ∨ d.1 = fd.metadata.relPath ∧ safeRelative fd.metadata.relPath = true := by
  unfold applyFile at hd
  dsimp only at hd
  split at hd
  · exact .inl hd
  · next hsafe =>
    split at hd
    · exact .inl hd
    · split at hd
      · exact .inl hd
      · split at hd
        · exact .inl hd
        · dsimp only at hd
          split at hd
          · rcases List.mem_append.mp hd with hold | hnew
            · exact .inl hold
            · obtain rfl := List.mem_singleton.mp hnew
              exact .inr ⟨rfl, by simpa using hsafe⟩
          · exact .inl hd

theorem allNamed_filesTouches (h : Host) (s : BundleRun) {files : List FileData}
    (hne : ∀ fd ∈ files, fd.metadata.relPath ≠ []) : AllNamed (filesTouches h s files) := by
  induction files generalizing s with
  | nil => exact allNamed_nil
  | cons fd rest ih =>
    rw [filesTouches, allNamed_append]
    refine ⟨allNamed_fileTouches h s.engine (hne fd (by simp)), ?_⟩
    split
    · exact ih _ fun fd' hfd' => hne fd' (by simp [hfd'])
    · exact allNamed_nil

theorem named_dirMtimes_applyFiles {h : Host} {s s' : BundleRun} {files : List FileData} {ok : Bool}
    (hne : ∀ fd ∈ files, fd.metadata.relPath ≠ []) (hs : ∀ d ∈ s.dirMtimes, Named d.1)
    (hrun : applyFiles h s files = (ok, s')) : ∀ d ∈ s'.dirMtimes, Named d.1 := by
  induction files generalizing s with
  | nil =>
    obtain ⟨-, rfl⟩ := Prod.mk.inj hrun
    exact hs
  | cons fd rest ih =>
    have hstep : ∀ d ∈ (applyFile h s fd).2.dirMtimes, Named d.1 := by
      intro d hd
      rcases dirMtimes_applyFile hd with hold | ⟨heq, hsafe⟩
      · exact hs d hold
      · rw [heq]
        exact ⟨hsafe, hne fd (by simp)⟩
    rw [applyFiles] at hrun
    split at hrun
    · next s₁ heq =>
      rw [heq] at hstep
      exact ih (fun fd' hfd' => hne fd' (by simp [hfd'])) hstep hrun
    · next s₁ heq =>
      rw [heq] at hstep
      obtain ⟨-, rfl⟩ := Prod.mk.inj hrun
      exact hstep

theorem allNamed_bundleTouches (h : Host) (e : SyncEngine) {b : FileBundle}
    (hne : ∀ fd ∈ b.files, fd.metadata.relPath ≠ []) : AllNamed (e.bundleTouches h b) := by
  rw [bundleTouches, allNamed_append]
  refine ⟨allNamed_filesTouches h _ hne, ?_⟩
  split
  · exact allNamed_nil
  · next s hrun =>
    rw [allNamed_append]
    refine ⟨allNamed_ledgerTouches _, fun p hp => ?_⟩
    obtain ⟨d, hd, rfl⟩ := List.mem_map.mp hp
    exact named_dirMtimes_applyFiles hne (by simp) hrun d hd

/-! ## Deletes and renames -/

/-- Manifest keys are safe paths. -/
def SafeKeys (m : Manifest) : Prop := ∀ p, (m.files.get p).isSome = true → safeRelative p = true

theorem SafeKeys.filter {m : Manifest} (hm : SafeKeys m) (keep : PathBuf → FileMetadata → Bool) :
    SafeKeys { m with files := m.files.filter keep } := by
  intro p hp
  rw [FinMap.get_filter] at hp
  exact hm p (Option.isSome_of_isSome_filter _ _ hp)

theorem allNamed_manifestSubtree (h : Host) {m : Manifest} (hm : SafeKeys m) {rel : PathBuf}
    (hrel : Named rel) : AllNamed (manifestSubtree h m rel) := by
  rw [manifestSubtree, allNamed_cons]
  refine ⟨hrel, fun k hk => ?_⟩
  obtain ⟨hk, hbelow⟩ := List.mem_filter.mp hk
  rw [Bool.and_eq_true, decide_eq_true_eq, decide_eq_true_eq] at hbelow
  rw [h.order.mem_toList, FinMap.mem_keys] at hk
  refine ⟨hm k hk, ?_⟩
  rintro rfl
  exact hrel.ne_nil (List.prefix_nil.mp hbelow.2)

variable (trashId : PathBuf → String)

theorem allNamed_deleteTargetsTouches (h : Host) (guarded : List PathBuf) (s : DeleteRun)
    (gone : List PathBuf) {targets : List PathBuf} (ht : AllNamed targets) :
    AllNamed (deleteTargetsTouches trashId h guarded s gone targets) := by
  induction targets generalizing s gone with
  | nil => exact allNamed_nil
  | cons target rest ih =>
    obtain ⟨htarget, hrest⟩ := allNamed_cons.mp ht
    unfold deleteTargetsTouches
    split
    · exact ih _ _ hrest
    · split
      · exact allNamed_cons.mpr ⟨htarget, ih _ _ hrest⟩
      · exact allNamed_append.mpr ⟨allNamed_trashTouches _ _ htarget, ih _ _ hrest⟩

theorem allNamed_deletePathTouches (h : Host) (t : Nat) {s : DeleteRun}
    (hs : SafeKeys s.engine.manifest) {rel : PathBuf} (hne : rel ≠ []) :
    AllNamed (deletePathTouches trashId h t s rel) := by
  unfold deletePathTouches
  split
  · exact allNamed_nil
  · next hsafe =>
    have hrel : Named rel := ⟨by simpa using hsafe, hne⟩
    dsimp only
    split
    · exact allNamed_trashTouches _ _ hrel
    · refine allNamed_deleteTargetsTouches trashId h _ s [] fun p hp => ?_
      rw [List.mem_insertionSort] at hp
      exact allNamed_manifestSubtree h hs hrel p (List.mem_of_mem_filter hp)

theorem safeKeys_deleteTargets (h : Host) (guarded : List PathBuf) {s : DeleteRun}
    (hs : SafeKeys s.engine.manifest) (gone targets : List PathBuf) :
    SafeKeys (deleteTargets h guarded s gone targets).engine.manifest := by
  induction targets generalizing s gone with
  | nil => exact hs
  | cons target rest ih =>
    unfold deleteTargets
    split
    · exact ih hs _
    · split
      · exact ih hs _
      · exact ih (hs.filter _) _

/-- A delete only takes keys out of the manifest. -/
theorem safeKeys_deletePath (h : Host) (t : Nat) {s : DeleteRun} (hs : SafeKeys s.engine.manifest)
    (rel : PathBuf) : SafeKeys (deletePath h t s rel).engine.manifest := by
  unfold deletePath
  split
  · exact hs
  · dsimp only
    split
    · exact hs.filter _
    · exact safeKeys_deleteTargets h _ hs _ _

theorem allNamed_deletePathsTouches (h : Host) (t : Nat) {s : DeleteRun}
    (hs : SafeKeys s.engine.manifest) {paths : List PathBuf} (hne : [] ∉ paths) :
    AllNamed (deletePathsTouches trashId h t s paths) := by
  induction paths generalizing s with
  | nil => exact allNamed_nil
  | cons rel rest ih =>
    rw [List.mem_cons, not_or] at hne
    rw [deletePathsTouches, allNamed_append]
    exact ⟨allNamed_deletePathTouches trashId h t hs (Ne.symm hne.1),
      ih (safeKeys_deletePath h t hs rel) hne.2⟩

theorem allNamed_deletesTouches (h : Host) {e : SyncEngine} (he : SafeKeys e.manifest)
    {paths : List PathBuf} (hne : [] ∉ paths) (t : Nat) (d : String) :
    AllNamed (e.deletesTouches trashId h paths t d) := by
  rw [deletesTouches, allNamed_append]
  refine ⟨allNamed_deletePathsTouches trashId h t he hne, ?_⟩
  split
  · exact allNamed_nil
  · exact allNamed_ledgerTouches _

/-- The new names of the manifest entries that a rename moves. -/
theorem safe_remapPairs (h : Host) {m : Manifest} (hm : SafeKeys m) (f : PathBuf) {g : PathBuf}
    (hg : safeRelative g = true) : ∀ pr ∈ remapPairs h m f g, safeRelative pr.2 = true := by
  intro pr hpr
  obtain ⟨k, hk, hpr⟩ := List.mem_filterMap.mp hpr
  rw [h.order.mem_toList, FinMap.mem_keys] at hk
  split at hpr
  · obtain rfl := Option.some.inj hpr
    exact safeRelative_append.mpr ⟨hg, safeRelative_drop (hm k hk) _⟩
  · cases hpr

theorem named_remapPairs (h : Host) {m : Manifest} (hm : SafeKeys m) {source target : PathBuf}
    (htarget : Named target) {pr : PathBuf × PathBuf} (hpr : pr ∈ remapPairs h m source target) :
    Named pr.2 := by
  refine ⟨safe_remapPairs h hm source htarget.safe pr hpr, ?_⟩
  obtain ⟨k, -, hpr⟩ := List.mem_filterMap.mp hpr
  split at hpr
  · obtain rfl := Option.some.inj hpr
    simp [htarget.ne_nil]
  · cases hpr

theorem allNamed_moveTouches (h : Host) {e : SyncEngine} (he : SafeKeys e.manifest)
    {source target : PathBuf} (hsource : Named source) (htarget : Named target) :
    AllNamed (e.moveTouches h source target) := by
  have hpairs : AllNamed ((remapPairs h e.manifest source target).map (·.2)) := by
    intro p hp
    obtain ⟨pr, hpr, rfl⟩ := List.mem_map.mp hp
    exact named_remapPairs h he htarget hpr
  unfold moveTouches
  dsimp only
  split
  · simp only [allNamed_append, allNamed_cons]
    refine ⟨⟨hsource, htarget, allNamed_nil⟩, ?_⟩
    split
    · intro p hp
      obtain ⟨pr, hpr, rfl⟩ := List.mem_map.mp hp
      exact named_remapPairs h he htarget (List.mem_of_mem_filter hpr)
    · exact allNamed_nil
  · simp only [List.cons_append, allNamed_cons, allNamed_append]
    refine ⟨hsource, allNamed_dirsMade _ (safeRelative_dropLast htarget.safe), ?_⟩
    split
    · exact allNamed_nil
    · simp only [allNamed_cons, allNamed_append]
      refine ⟨hsource, htarget, allNamed_nil, ?_⟩
      split
      · exact allNamed_nil
      · exact hpairs

theorem allNamed_renameTouches (h : Host) {e : SyncEngine} (he : SafeKeys e.manifest)
    {source target : PathBuf} (hne : safeRelative source = true → safeRelative target = true →
      source ≠ [] ∧ target ≠ []) (a : Nat) (d : String) :
    AllNamed (e.renameTouches trashId h source target a d) := by
  unfold renameTouches
  split
  · exact allNamed_nil
  · next hsafe =>
    simp only [Bool.or_eq_true, Bool.not_eq_true', not_or, Bool.not_eq_false] at hsafe
    obtain ⟨hsource, htarget⟩ := hne hsafe.1 hsafe.2
    split
    · exact allNamed_deletesTouches trashId h he (by simpa using Ne.symm hsource) a d
    · rw [allNamed_append]
      refine ⟨allNamed_ledgerTouches _, allNamed_moveTouches h ?_ ⟨hsafe.1, hsource⟩
        ⟨hsafe.2, htarget⟩⟩
      simpa using he

/-! ## Large files -/

theorem allNamed_beginTouches (h : Host) (e : SyncEngine) (md : FileMetadata) (a : Option Nat) :
    AllNamed (e.beginTouches h md a) := by
  unfold beginTouches
  dsimp only
  split
  · exact allNamed_nil
  · next hsafe =>
    have hrel : safeRelative md.relPath = true := by simpa using hsafe
    split
    · exact allNamed_nil
    · rw [allNamed_append, allNamed_append]
      refine ⟨⟨allNamed_ledgerTouches _, allNamed_dirsMade _ (safeRelative_dropLast hrel)⟩, ?_⟩
      split
      · exact allNamed_ancestors (safeRelative_ofNames _)
      · exact allNamed_nil

theorem named_stagingPath (tmp : Hash) : Named (stagingPath tmp) := named_ofNames (by simp)

/-- A transfer is kept under a safe path and goes there. -/
def SafeTransfers (e : SyncEngine) : Prop :=
  ∀ p asm, e.inProgress.get p = some asm → safeRelative p = true ∧ asm.dst = p

theorem allNamed_commitTouches (h : Host) {e : SyncEngine} (he : e.SafeTransfers) {p : PathBuf}
    (hne : p ≠ []) (fh : Hash) : AllNamed (e.commitTouches h p fh) := by
  unfold commitTouches
  split
  · exact allNamed_nil
  · next asm hasm =>
    obtain ⟨hsafe, hdst⟩ := he p asm hasm
    have hp : Named p := ⟨hsafe, hne⟩
    dsimp only
    split
    · simpa using named_stagingPath asm.tmp
    · rw [allNamed_append, allNamed_append]
      refine ⟨⟨allNamed_ledgerTouches _, by simpa using named_stagingPath asm.tmp⟩, ?_⟩
      split
      · exact allNamed_nil
      · split
        · exact allNamed_nil
        · split
          · exact allNamed_nil
          · rw [installTouches, hdst, allNamed_append, allNamed_append]
            refine ⟨⟨allNamed_conflictReads _ _ hp _, ?_⟩, ?_⟩
            · split
              · exact allNamed_copyTouches h _ hp.safe hp
              · exact allNamed_nil
            · simpa using ⟨named_stagingPath asm.tmp, hp⟩

/-- A chunk keeps every transfer where it is. -/
theorem SafeTransfers.receiveLargeFileChunk {h : Host} {e : SyncEngine} (he : e.SafeTransfers)
    (p : PathBuf) (i : UInt32) (data : Content) :
    (e.receiveLargeFileChunk h p i data).2.SafeTransfers := by
  unfold SyncEngine.receiveLargeFileChunk
  split
  · exact he
  · next asm hasm =>
    have hinsert : ∀ received, ∀ q asm',
        (e.inProgress.insert p { asm with received := received }).get q = some asm' →
        safeRelative q = true ∧ asm'.dst = q := by
      intro received q asm' hq
      rw [FinMap.get_insert] at hq
      split at hq
      · next hqp =>
        obtain rfl := Option.some.inj hq
        rw [hqp]
        exact he p asm hasm
      · exact he q asm' hq
    split
    · exact he
    · split
      · exact he
      · dsimp only
        split
        · split <;> exact hinsert _
        · exact hinsert _

theorem allNamed_chunkTouches (h : Host) {e : SyncEngine} (he : e.SafeTransfers) {p : PathBuf}
    (hne : p ≠ []) (i : UInt32) (data : Content) : AllNamed (e.chunkTouches h p i data) := by
  unfold chunkTouches
  split
  · exact allNamed_nil
  · next asm hasm =>
    rw [allNamed_cons]
    refine ⟨named_stagingPath asm.tmp, ?_⟩
    have he' := he.receiveLargeFileChunk (h := h) p i data
    split
    · next hr =>
      rw [hr] at he'
      exact allNamed_commitTouches h he' hne _
    · exact allNamed_nil

theorem allNamed_endTouches (h : Host) {e : SyncEngine} (he : e.SafeTransfers) {p : PathBuf}
    (hne : p ≠ []) (fh : Hash) : AllNamed (e.endTouches h p fh) := by
  unfold endTouches
  split
  · exact allNamed_nil
  · split
    · exact allNamed_nil
    · exact allNamed_commitTouches h he hne fh

/-! ## The root is reached -/

/-- A bundle entry is vetoed when every tombstone is newer and its own path has one. -/
theorem vetoFor_isSome {e : SyncEngine} {rel : PathBuf} {a : Option Nat} {m : Nat} (hne : rel ≠ [])
    (hnewer : ∀ q t, q ≠ [] → e.ledger.entries.get q = some t → a.getD m < t.deletedAtMs)
    (htomb : (e.ledger.entries.get rel).isSome = true) (halive : e.ledger.alive.get rel = none) :
    (e.vetoFor rel a m).isSome = true := by
  have heffective : (e.ledger.effectiveTombstone rel rel).isSome = true := by
    obtain ⟨t, ht⟩ := Option.isSome_iff_exists.mp htomb
    simp [DeletionLedger.effectiveTombstone, ht, halive, Option.filter_some]
  have hcover : (e.ledger.coveringTombstone rel).isSome = true :=
    List.findSome?_isSome_iff.mpr ⟨rel, mem_ancestors.mpr ⟨hne, List.prefix_refl _⟩, heffective⟩
  obtain ⟨t, ht⟩ := Option.isSome_iff_exists.mp hcover
  obtain ⟨q, hq, hqt⟩ := List.exists_of_findSome?_eq_some ht
  have hlt := hnewer q t (mem_ancestors.mp hq).1 (Option.filter_eq_some_iff.mp hqt).1
  simp [vetoFor, ht, Option.filter_some, hlt]

/-- The root has no ancestor, so no tombstone covers it. -/
theorem vetoFor_nil (e : SyncEngine) (a : Option Nat) (m : Nat) : e.vetoFor [] a m = none := rfl

/-- The ledger has a tombstone for every path in `files` but the root, newer than all of them. -/
structure Vetoes (files : List FileData) (l : DeletionLedger) : Prop where
  newer : ∀ fd ∈ files, ∀ q t, q ≠ [] → l.entries.get q = some t →
    fd.actionMs.getD fd.metadata.modifiedMs < t.deletedAtMs
  tomb : ∀ fd ∈ files, fd.metadata.relPath ≠ [] →
    (l.entries.get fd.metadata.relPath).isSome = true ∧ l.alive.get fd.metadata.relPath = none

/-- Such a ledger. -/
theorem exists_vetoes (files : List FileData) : ∃ l, Vetoes files l := by
  let stamp := (files.map fun fd => fd.actionMs.getD fd.metadata.modifiedMs).sum + 1
  let paths := ((files.map fun fd => fd.metadata.relPath).toFinset)
  have hget : ∀ q, (FinMap.ofKeys paths fun p => some (⟨p, stamp, "", none, none⟩ : Tombstone)).get q =
      if q ∈ paths then some ⟨q, stamp, "", none, none⟩ else none := fun q => FinMap.get_ofKeys ..
  refine ⟨⟨FinMap.ofKeys paths fun p => some ⟨p, stamp, "", none, none⟩, .empty⟩, ?_, ?_⟩
  · intro fd hfd q t _ ht
    rw [hget] at ht
    split at ht
    · obtain rfl := Option.some.inj ht
      exact Nat.lt_succ_of_le (List.single_le_sum (by simp) _ (List.mem_map_of_mem hfd))
    · cases ht
  · intro fd hfd _
    refine ⟨?_, rfl⟩
    rw [hget, if_pos (List.mem_toFinset.mpr (List.mem_map_of_mem hfd))]
    rfl

/-- A live action at the root leaves the rest of the ledger alone. -/
theorem Vetoes.admitRecord_nil {files : List FileData} {e : SyncEngine} (he : Vetoes files e.ledger)
    (a : Option Nat) (m : Nat) : Vetoes files (e.admitRecord [] a m).ledger := by
  have hrecord : ∀ at', Vetoes files (e.ledger.recordAlive [] at').2 := by
    intro at'
    constructor
    · intro fd hfd q t hq ht
      rw [DeletionLedger.get_entries_recordAlive, if_neg (fun h => hq h.1)] at ht
      exact he.newer fd hfd q t hq ht
    · intro fd hfd hne
      rw [DeletionLedger.get_entries_recordAlive, DeletionLedger.get_alive_recordAlive,
        if_neg (fun h => hne h.1), if_neg (fun h => hne h.1)]
      exact he.tomb fd hfd hne
  unfold admitRecord
  split
  · split
    · exact hrecord _
    · exact he
  · split
    · split
      · exact hrecord _
      · exact he
    · exact he

theorem createDirAll_nil {h : Host} (hok : ∀ op, h.fails op = false) (t : Tree) :
    ∃ t', h.createDirAll t [] = some t' := by
  rw [← Option.isSome_iff_exists, Option.isSome_iff_ne_none]
  simp only [Host.createDirAll, hok, Bool.false_eq_true, if_false]
  intro hnone
  obtain ⟨q, hq, hfile⟩ := FileTree.createDirAll_eq_none_iff.mp hnone
  obtain rfl := List.prefix_nil.mp hq
  simp [FileTree.isFile] at hfile

/-- A directory entry for the root is taken, and its mtime will be set. -/
theorem applyFile_root_dir {h : Host} (hok : ∀ op, h.fails op = false) (s : BundleRun) {fd : FileData}
    (hrel : fd.metadata.relPath = []) (hdir : fd.metadata.isDir = true) :
    ∃ s', applyFile h s fd = (true, s') ∧
      s'.engine.ledger = (s.engine.admitRecord [] fd.actionMs fd.metadata.modifiedMs).ledger ∧
      s'.dirMtimes = s.dirMtimes ++ [([], fd.metadata.modifiedMs)] := by
  obtain ⟨t', ht'⟩ := createDirAll_nil hok
    (s.engine.admitRecord [] fd.actionMs fd.metadata.modifiedMs).tree
  simp only [applyFile, hrel, hdir, vetoFor_nil, writeEntry, ht', Bool.not_true, Bool.false_and,
    Bool.false_eq_true, if_false, if_true, Option.isSome_none]
  exact ⟨_, rfl, rfl, rfl⟩

/-- A file entry for the root is written, which fails. -/
theorem mem_fileTouches_root {h : Host} (hok : ∀ op, h.fails op = false) (e : SyncEngine)
    {fd : FileData} (hrel : fd.metadata.relPath = []) (hfile : fd.metadata.isDir = false) :
    [] ∈ fileTouches h e fd := by
  have hconflict : ∀ e : SyncEngine, e.detectConflict h [] fd.metadata.hash = none := by
    intro e
    unfold detectConflict
    split
    · rfl
    · split
      · rfl
      · have hread : h.hashFile e.tree [] = none := by
          simp [Host.hashFile, hok, FileTree.read]
        rw [hread]
  obtain ⟨t', ht'⟩ := createDirAll_nil hok e.tree
  simp [fileTouches, hrel, hfile, vetoFor_nil, hconflict, entryTouches, ht', safeRelative]

/-- In an engine whose ledger vetoes all the rest, a bundle that names the root touches it. -/
theorem mem_touches_of_root {h : Host} (hok : ∀ op, h.fails op = false) {files : List FileData}
    {s : BundleRun} (hs : Vetoes files s.engine.ledger)
    (hroot : (∃ fd ∈ files, fd.metadata.relPath = []) ∨ [] ∈ s.dirMtimes.map (·.1)) :
    [] ∈ filesTouches h s files ∨
      ∃ s', applyFiles h s files = (true, s') ∧ [] ∈ s'.dirMtimes.map (·.1) := by
  induction files generalizing s with
  | nil =>
    refine .inr ⟨s, rfl, hroot.resolve_left ?_⟩
    rintro ⟨fd, hfd, -⟩
    cases hfd
  | cons fd rest ih =>
    have hrest : ∀ {l}, Vetoes (fd :: rest) l → Vetoes rest l := fun hl =>
      ⟨fun fd' hfd' => hl.newer fd' (by simp [hfd']), fun fd' hfd' => hl.tomb fd' (by simp [hfd'])⟩
    -- What the loop does after a round that goes on in `s'`.
    have hgo : ∀ s', applyFile h s fd = (true, s') → Vetoes rest s'.engine.ledger →
        ((∃ fd' ∈ rest, fd'.metadata.relPath = []) ∨ [] ∈ s'.dirMtimes.map (·.1)) →
        [] ∈ filesTouches h s (fd :: rest) ∨
          ∃ s'', applyFiles h s (fd :: rest) = (true, s'') ∧ [] ∈ s''.dirMtimes.map (·.1) := by
      intro s' hstep hs' hroot'
      simp only [filesTouches, applyFiles, hstep, List.mem_append]
      exact (ih hs' hroot').imp_left .inr
    by_cases hrel : fd.metadata.relPath = []
    · cases hdir : fd.metadata.isDir with
      | false =>
        rw [filesTouches, List.mem_append]
        exact .inl (.inl (mem_fileTouches_root hok s.engine hrel hdir))
      | true =>
        obtain ⟨s', hstep, hledger, hmtimes⟩ := applyFile_root_dir hok s hrel hdir
        refine hgo s' hstep ?_ (.inr (by simp [hmtimes]))
        rw [hledger]
        exact hrest (hs.admitRecord_nil _ _)
    · have hskip : applyFile h s fd = (true, s) := by
        obtain ⟨htomb, halive⟩ := hs.tomb fd (by simp) hrel
        have hveto := vetoFor_isSome hrel (hs.newer fd (by simp)) htomb halive
        unfold applyFile
        dsimp only
        split
        · rfl
        · rfl
      refine hgo s hskip (hrest hs) (hroot.imp_left ?_)
      rintro ⟨fd', hfd', hnil⟩
      rcases List.mem_cons.mp hfd' with rfl | hmem
      · exact absurd hnil hrel
      · exact ⟨fd', hmem, hnil⟩

/-- A new engine that knows the ledger `l`. -/
def withLedger (l : DeletionLedger) : SyncEngine := .new "node" (fun _ => false) .empty l

theorem exists_bundleTouches_root {h : Host} (hok : ∀ op, h.fails op = false) {b : FileBundle}
    (hroot : ∃ fd ∈ b.files, fd.metadata.relPath = []) :
    ∃ l, [] ∈ (withLedger l).bundleTouches h b := by
  obtain ⟨l, hl⟩ := exists_vetoes b.files
  refine ⟨l, ?_⟩
  rw [bundleTouches, List.mem_append]
  have hs : Vetoes b.files (⟨withLedger l, [], ⟨0, []⟩, []⟩ : BundleRun).engine.ledger := hl
  rcases mem_touches_of_root hok hs (.inl hroot) with hmem | ⟨s', hrun, hmem⟩
  · exact .inl hmem
  · refine .inr ?_
    rw [hrun]
    exact List.mem_append_right _ hmem

/-- With no live records every path of a delete goes to the trash. -/
theorem mem_deletePathsTouches (trashId : PathBuf → String) (h : Host) (t : Nat) {s : DeleteRun}
    (hs : s.engine.ledger = .new) {paths : List PathBuf} {rel : PathBuf} (hrel : rel ∈ paths)
    (hsafe : safeRelative rel = true) : rel ∈ deletePathsTouches trashId h t s paths := by
  induction paths generalizing s with
  | nil => cases hrel
  | cons p rest ih =>
    rw [deletePathsTouches, List.mem_append]
    rcases List.mem_cons.mp hrel with rfl | hmem
    · left
      have hguarded : protectedPaths s.engine.ledger (manifestSubtree h s.engine.manifest rel) t =
          [] := by
        rw [hs, protectedPaths, List.filter_eq_nil_iff]
        intro q _
        simp [DeletionLedger.aliveSince, DeletionLedger.new]
      simp only [deletePathTouches, hsafe, hguarded, Bool.not_true, Bool.false_eq_true, if_false,
        if_true]
      unfold trashTouches
      split <;> simp
    · exact .inr (ih (by rw [ledger_deletePath]; exact hs) hmem)

/-- Without a tombstone a rename looks at its source, and at its target when the source is
    missing. -/
theorem mem_renameTouches (trashId : PathBuf → String) (h : Host) {f g : PathBuf} (a : Nat)
    (d : String) (hf : safeRelative f = true) (hg : safeRelative g = true)
    (hroot : f = [] ∨ g = []) :
    [] ∈ (withLedger .new).renameTouches trashId h f g a d := by
  have hveto : (withLedger .new).vetoFor g (some a) 0 = none := by
    have hcover : DeletionLedger.new.coveringTombstone g = none := by
      rw [DeletionLedger.coveringTombstone, List.findSome?_eq_none_iff]
      intro q _
      rfl
    simp [vetoFor, withLedger, new, hcover]
  have htree : (((withLedger .new).admitRecord g (some a) 0).flushLedger h).tree = .empty := by
    simp [withLedger, new]
  simp only [renameTouches, hf, hg, hveto, Bool.not_true, Bool.or_self, Bool.false_eq_true, if_false,
    Option.isSome_none, List.mem_append]
  right
  unfold moveTouches
  dsimp only
  rw [htree]
  by_cases hfnil : f = []
  · subst hfnil
    split <;> simp
  · obtain rfl := hroot.resolve_left hfnil
    have hmissing : (FileTree.empty : Tree).pathExists f = false := by
      simp [FileTree.pathExists, hfnil]
    simp [hmissing]

/-- A transfer to the root that an end, or the next chunk, completes. -/
def rootTransfer (totalChunks : UInt32) : SyncEngine :=
  { withLedger .new with
    staging := FinMap.empty.insert 0 []
    inProgress := FinMap.empty.insert []
      { tmp := 0, totalChunks, received := ∅, expectedHash := 0, dst := [], fileSize := 0
        modifiedMs := 0, actionMs := none, finalHashPending := some 0 } }

theorem mem_chunkTouches_root {h : Host} (hok : ∀ op, h.fails op = false)
    (hhash : ∀ c, h.blake3 c = 0) (i : UInt32) (data : Content) :
    [] ∈ (rootTransfer 1).chunkTouches h [] i data := by
  simp [chunkTouches, rootTransfer, receiveLargeFileChunk, hok, LargeFileAssembly.receivedCount,
    commitTouches, vetoFor_nil, admitRecord, withLedger, new, DeletionLedger.new, flushLedger, hhash,
    installTouches]

theorem mem_endTouches_root {h : Host} (hok : ∀ op, h.fails op = false) (fh : Hash)
    (hhash : ∀ c, h.blake3 c = fh) : [] ∈ (rootTransfer 0).endTouches h [] fh := by
  simp [endTouches, rootTransfer, hok, LargeFileAssembly.receivedCount,
    commitTouches, vetoFor_nil, admitRecord, withLedger, new, DeletionLedger.new, flushLedger, hhash,
    installTouches]

/-- What the engine has accepted is named by safe paths, on disk, in the manifest and in
    transfers. -/
structure Rooted (e : SyncEngine) : Prop where
  tree : PlainPaths e.tree
  manifest : SafeKeys e.manifest
  transfers : e.SafeTransfers

theorem rooted_withLedger (l : DeletionLedger) : (withLedger l).Rooted :=
  ⟨(fun _ _ h => nomatch h), (fun _ h => nomatch h), (fun _ _ h => nomatch h)⟩

theorem rooted_rootTransfer (n : UInt32) : (rootTransfer n).Rooted := by
  refine ⟨(fun _ _ h => nomatch h), (fun _ h => nomatch h), fun p asm hasm => ?_⟩
  simp only [rootTransfer, FinMap.get_insert] at hasm
  split at hasm
  · next hp =>
    obtain rfl := Option.some.inj hasm
    rw [hp]
    exact ⟨rfl, rfl⟩
  · cases hasm

end SyncEngine

/-! ## Messages -/

namespace Message

/-- No path of the message that a handler works on is the root. A start only makes the staging
    file; a rename is dropped when one of its paths is not safe. -/
def AvoidsRoot : Message → Prop
  | .bundle b => ∀ fd ∈ b.files, fd.metadata.relPath ≠ []
  | .delete paths _ _ => [] ∉ paths
  | .rename f g _ => safeRelative f = true → safeRelative g = true → f ≠ [] ∧ g ≠ []
  | .largeFileChunk p _ _ => p ≠ []
  | .largeFileEnd p _ => p ≠ []
  | .largeFileStart _ _ _ => True
  | .actionBatchEnd _ => True
  | .actionBatchAck _ => True

theorem avoidsRoot_clamp (h : Host) (m : Message) : (m.clamp h).AvoidsRoot ↔ m.AvoidsRoot := by
  cases m <;> simp [clamp, AvoidsRoot, clampBundle]

end Message

namespace SyncEngine

theorem allNamed_touches (trashId : PathBuf → String) (h : Host) {e : SyncEngine} (he : e.Rooted)
    (peer : String) {m : Message} (hm : m.AvoidsRoot) : AllNamed (e.touches trashId h peer m) := by
  cases m with
  | bundle b => exact allNamed_bundleTouches h e hm
  | delete paths t d => exact allNamed_deletesTouches trashId h he.manifest hm t d
  | largeFileStart md n a => exact allNamed_beginTouches h e md a
  | largeFileChunk p i data => exact allNamed_chunkTouches h he.transfers hm i data
  | largeFileEnd p fh => exact allNamed_endTouches h he.transfers hm fh
  | rename f g a => exact allNamed_renameTouches trashId h he.manifest hm a peer
  | actionBatchEnd n => exact allNamed_ledgerTouches e
  | actionBatchAck n => exact allNamed_nil

/-- A host on which no call fails and a transfer that the message ends has the right hash. -/
def rootHost : Message → Host
  | .largeFileEnd _ fh => .reliable (fun _ => fh) 0
  | _ => .reliable (fun _ => 0) 0

/-- A message that names the root makes some engine touch it. -/
theorem exists_touches_root {m : Message} (hm : ¬ m.AvoidsRoot) :
    ∃ e : SyncEngine, e.Rooted ∧ ∀ trashId peer, [] ∈ e.touches trashId (rootHost m) peer m := by
  cases m with
  | bundle b =>
    simp only [Message.AvoidsRoot, not_forall, Classical.not_not] at hm
    obtain ⟨fd, hfd, hnil⟩ := hm
    have hok : ∀ op, (rootHost (.bundle b)).fails op = false := fun _ => rfl
    obtain ⟨l, hl⟩ := exists_bundleTouches_root hok ⟨fd, hfd, hnil⟩
    exact ⟨withLedger l, rooted_withLedger l, fun _ _ => hl⟩
  | delete paths t d =>
    refine ⟨withLedger .new, rooted_withLedger _, fun trashId _ => List.mem_append_left _ ?_⟩
    exact mem_deletePathsTouches trashId _ t rfl (Classical.not_not.mp hm) rfl
  | rename f g a =>
    simp only [Message.AvoidsRoot, Classical.not_imp] at hm
    obtain ⟨hf, hg, hnil⟩ := hm
    have hnil : f = [] ∨ g = [] := by
      by_contra hboth
      rw [not_or] at hboth
      exact hnil hboth
    exact ⟨withLedger .new, rooted_withLedger _, fun trashId peer =>
      mem_renameTouches trashId _ a peer hf hg hnil⟩
  | largeFileChunk p i data =>
    obtain rfl := Classical.not_not.mp hm
    exact ⟨rootTransfer 1, rooted_rootTransfer 1, fun _ _ =>
      mem_chunkTouches_root (h := rootHost (.largeFileChunk [] i data)) (fun _ => rfl) (fun _ => rfl)
        i data⟩
  | largeFileEnd p fh =>
    obtain rfl := Classical.not_not.mp hm
    exact ⟨rootTransfer 0, rooted_rootTransfer 0, fun _ _ =>
      mem_endTouches_root (fun _ => rfl) fh fun _ => rfl⟩
  | largeFileStart md n a => exact absurd trivial hm
  | actionBatchEnd n => exact absurd trivial hm
  | actionBatchAck n => exact absurd trivial hm

end SyncEngine

/-! ## Sessions -/

namespace Receiver

/-- Where the phase works on the paths of a message, these are not the root; a path whose chunks
    are requested leads strictly below it. -/
def StaysBelow (root : List String) (side : Side) (phase : RecvPhase) (m : PathMessage) : Prop :=
  match side, phase, m with
  | .server _, .drain, .action m => m.AvoidsRoot
  | _, .initial _ _, .action (.rename _ _ _) => True
  | _, .initial _ _, .action m => m.AvoidsRoot
  | _, .live, .action m => m.AvoidsRoot
  | .server _, .live, .requestChunks path _ => StrictlyBelow root (resolve root path)
  | _, _, _ => True

/-- `take` is what a phase makes of the action `m`: the paths are the same. -/
structure Takes (m : Message) (take : Host → Message) : Prop where
  avoidsRoot : ∀ h, (take h).AvoidsRoot ↔ m.AvoidsRoot
  rootHost : ∀ h, SyncEngine.rootHost (take h) = SyncEngine.rootHost m

theorem takes_clamp (m : Message) : Takes m (m.clamp ·) := by
  refine ⟨fun h => m.avoidsRoot_clamp h, fun h => ?_⟩
  cases m <;> simp only [Message.clamp, SyncEngine.rootHost]

theorem action_strictlyBelow_iff (root : List String) {m : Message} {take : Host → Message}
    (htake : Takes m take) (peer : String) :
    (∀ (trashId : PathBuf → String) (h : Host) (e : SyncEngine), e.Rooted →
      ∀ p ∈ e.touches trashId h peer (take h), StrictlyBelow root (resolve root p)) ↔
    m.AvoidsRoot := by
  constructor
  · intro hall
    by_contra hm
    have hm' : ¬ (take (SyncEngine.rootHost m)).AvoidsRoot := fun h => hm ((htake.avoidsRoot _).mp h)
    obtain ⟨e, he, hmem⟩ := SyncEngine.exists_touches_root hm'
    rw [htake.rootHost] at hmem
    exact not_strictlyBelow_nil root (hall (fun _ => "") _ e he [] (hmem _ _))
  · intro hm trashId h e he p hp
    have hnamed := SyncEngine.allNamed_touches trashId h he peer ((htake.avoidsRoot h).mpr hm)
    exact (hnamed p hp).strictlyBelow root

/-- The initial sync. -/
theorem initial_strictlyBelow_iff (root : List String) (m : Message) :
    (∀ (trashId : PathBuf → String) (h : Host) (e : SyncEngine), e.Rooted →
      ∀ p ∈ initialTouches trashId h e m, StrictlyBelow root (resolve root p)) ↔
    ((∀ f g a, m ≠ .rename f g a) → m.AvoidsRoot) := by
  have hraw : Takes m fun _ => m := ⟨fun _ => Iff.rfl, fun _ => rfl⟩
  have hself := action_strictlyBelow_iff root hraw ""
  cases m with
  | rename f g a =>
    refine iff_of_true (fun _ _ _ _ p hp => nomatch hp) fun h => ?_
    exact absurd rfl (h f g a)
  | delete paths t d =>
    rw [forall_prop_of_true (by simp)]
    exact action_strictlyBelow_iff root (takes_clamp (.delete paths t d)) ""
  | actionBatchEnd n => exact iff_of_true (fun _ _ _ _ p hp => nomatch hp) fun _ => trivial
  | _ =>
    rw [forall_prop_of_true (by simp)]
    exact hself

/-- The exact condition on a message: whatever the state of the engine, it touches only what lies
    strictly below the sync root. -/
theorem touches_strictlyBelow_iff (root : List String) (side : Side) (phase : RecvPhase)
    (m : PathMessage) :
    (∀ (trashId : PathBuf → String) (h : Host) (e : SyncEngine), e.Rooted →
      ∀ p ∈ touches trashId h ⟨side, phase, e⟩ m, StrictlyBelow root (resolve root p)) ↔
    StaysBelow root side phase m := by
  have hnone : (∀ (trashId : PathBuf → String) (h : Host) (e : SyncEngine), e.Rooted →
      ∀ p ∈ ([] : List PathBuf), StrictlyBelow root (resolve root p)) ↔ True :=
    iff_of_true (fun _ _ _ _ p hp => nomatch hp) trivial
  cases phase with
  | ledger => cases side <;> cases m <;> exact hnone
  | closed => cases side <;> cases m <;> exact hnone
  | drain =>
    cases side with
    | client => cases m <;> exact hnone
    | server clientId =>
      cases m with
      | action m => exact action_strictlyBelow_iff root (takes_clamp m) clientId
      | requestChunks path is => exact hnone
  | initial locl remote =>
    cases m with
    | requestChunks path is => cases side <;> exact hnone
    | action m =>
      have hinitial := initial_strictlyBelow_iff root m
      cases m with
      | rename f g a => cases side <;> exact hnone
      | _ =>
        rw [forall_prop_of_true (by simp)] at hinitial
        cases side <;> exact hinitial
  | live =>
    cases m with
    | action m =>
      cases side with
      | server clientId => exact action_strictlyBelow_iff root (takes_clamp m) clientId
      | client =>
        have hclient := action_strictlyBelow_iff root (takes_clamp m) "server"
        cases m with
        | actionBatchEnd n => exact hnone
        | _ => exact hclient
    | requestChunks path is =>
      cases side with
      | client => exact hnone
      | server clientId =>
        constructor
        · intro hall
          exact hall (fun _ => "") (.reliable (fun _ => 0) 0) _ (SyncEngine.rooted_withLedger .new)
            path (List.mem_singleton.mpr rfl)
        · intro hpath _ _ _ _ p hp
          rw [List.mem_singleton.mp hp]
          exact hpath

/-- A server with one file, in the live phase. -/
def liveServer : Receiver :=
  ⟨.server "client", .live, .new "server" (fun _ => false)
    ((FileTree.empty.write (PathBuf.ofNames ["a"]) [1] 1).getD .empty) .new⟩

theorem rooted_liveServer : liveServer.engine.Rooted := by
  refine ⟨fun p n hp => ?_, (fun _ h => nomatch h), (fun _ _ h => nomatch h)⟩
  obtain ⟨t, ht⟩ := Option.isSome_iff_exists.mp (show ((FileTree.empty : Tree).write
    (PathBuf.ofNames ["a"]) [1] 1).isSome = true by decide +kernel)
  have htree : liveServer.engine.tree = t := by
    show ((FileTree.empty : Tree).write (PathBuf.ofNames ["a"]) [1] 1).getD .empty = t
    rw [ht, Option.getD_some]
  rw [htree, FileTree.get_write ht] at hp
  split at hp
  · next hpa =>
    rw [hpa]
    exact safeRelative_ofNames _
  · cases hp

/-- A delete of the empty path takes the whole root to the trash, and chunks can be requested of
    a file outside it. -/
theorem peer_reaches_root_and_beyond :
    let h := Host.reliable (fun _ => 0) 1000
    let delete : Message := .delete [[]] 5 "client"
    let outside : PathBuf := [.parentDir, .normal "x"]
    (liveServer.engine.Rooted ∧ [] ∈ liveServer.touches (fun _ => "1") h (.action delete) ∧
      ¬ StrictlyBelow ["srv", "sync"] (resolve ["srv", "sync"] []) ∧
      (liveServer.recv h (.action delete)).1.engine.tree.get (PathBuf.ofNames ["a"]) = none) ∧
    (outside ∈ liveServer.touches (fun _ => "1") h (.requestChunks outside [0]) ∧
      ¬ StrictlyBelow ["srv", "sync"] (resolve ["srv", "sync"] outside)) := by
  refine ⟨⟨rooted_liveServer, ?_, ?_, ?_⟩, ?_, ?_⟩
  all_goals decide +kernel

end Receiver

end ByteHive
