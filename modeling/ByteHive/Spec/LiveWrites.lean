import ByteHive.Native.Server
import ByteHive.Spec.EngineFrame
import ByteHive.Spec.LedgerJoin

/-!
# Live writes and deletes of one path

What decides over one path is small: its live record, its tombstone, and whether it is
there. `PathState` is this machine; a live write and a delete of the path on an engine
whose disk operations succeed do what its `write` and `delete` do.

Key results:
- `applyFile_live`: one live write
- `applyDeletes_path`: one delete
- `exists_iff_newest`: whether the path is there, after any writes and deletes
- `content_newest_iff`: whose content it has, after writes alone
-/

namespace ByteHive

/-! ## Paths that can be written -/

/-- Nothing is in the way of a file at `p`. -/
structure Writable (t : Tree) (p : PathBuf) : Prop where
  not_root : p ≠ []
  parents : ∀ q, q <+: p → q ≠ p → t.isFile q = false
  not_dir : t.isDir p = false

/-- Making the parent directories of a writable path. -/
theorem Writable.createDirAll {h : Host} (hok : ∀ op, h.fails op = false) {t : Tree} {p : PathBuf}
    (hp : Writable t p) :
    ∃ t', h.createDirAll t p.dropLast = some t' ∧ Writable t' p ∧ t'.isDir p.dropLast = true ∧
      t'.get p = t.get p := by
  have hnone : ¬ t.createDirAll h.nowMs p.dropLast = none := by
    rw [FileTree.createDirAll_eq_none_iff]
    rintro ⟨q, hq, hfile⟩
    have hne : q ≠ p := by
      rintro rfl
      exact FileTree.not_prefix_dropLast hp.not_root hq
    rw [hp.parents q (hq.trans (List.dropLast_prefix p)) hne] at hfile
    cases hfile
  obtain ⟨t', ht'⟩ := Option.ne_none_iff_exists'.mp hnone
  have hget := FileTree.get_createDirAll ht'
  have hself : t'.get p = t.get p := by
    rw [hget, if_neg]
    exact fun h => FileTree.not_prefix_dropLast hp.not_root h.2.1
  refine ⟨t', by simp [Host.createDirAll, hok, ht'], ⟨hp.not_root, ?_, ?_⟩, ?_, hself⟩
  · intro q hq hne
    have hold := hp.parents q hq hne
    unfold FileTree.isFile at hold ⊢
    rw [hget]
    split
    · rfl
    · exact hold
  · have hold := hp.not_dir
    unfold FileTree.isDir at hold ⊢
    rw [hself]
    exact hold
  · -- Every directory on the way is there now.
    by_cases hroot : p.dropLast = []
    · simp [FileTree.isDir, hroot]
    · have hne : p.dropLast ≠ p := fun he =>
        FileTree.not_prefix_dropLast hp.not_root (by rw [he])
      have hold := hp.parents p.dropLast (List.dropLast_prefix p) hne
      have hq := hget p.dropLast
      unfold FileTree.isDir
      cases hn : t.get p.dropLast with
      | none =>
        rw [if_pos ⟨hroot, List.prefix_refl _, hn⟩] at hq
        simp [hq, FileNode.isDir]
      | some n =>
        rw [if_neg (by simp [hn]), hn] at hq
        simp only [FileTree.isFile, hn, Option.any_some] at hold
        simpa [hq, hroot] using hold

/-- Writing a file that is no parent of `p`. -/
theorem Writable.write {t t' : Tree} {p q : PathBuf} {c : Content} {m : Nat} (hp : Writable t p)
    (hr : t.write q c m = some t') (hlen : p.length ≤ q.length) : Writable t' p := by
  have hget := FileTree.get_write hr
  refine ⟨hp.not_root, fun r hr' hne => ?_, ?_⟩
  · have hrq : r ≠ q := by
      rintro rfl
      exact hne (hr'.eq_of_length (le_antisymm hr'.length_le hlen))
    have hold := hp.parents r hr' hne
    unfold FileTree.isFile at hold ⊢
    rw [hget, if_neg hrq]
    exact hold
  · have hold := hp.not_dir
    unfold FileTree.isDir at hold ⊢
    rw [hget]
    split
    · simp [hp.not_root, FileNode.isDir]
    · exact hold

/-- A conflict copy of `p` is made beside it or not at all. -/
theorem Writable.saveConflictCopy {h : Host} (hok : ∀ op, h.fails op = false) {e : SyncEngine}
    {p : PathBuf} (hp : Writable e.tree p) :
    ∃ e' ci, e.saveConflictCopy h p = some (e', ci) ∧ Writable e'.tree p ∧
      e' = { e with tree := e'.tree } := by
  have hdrop : (conflictCopyName p e.nodeId h.unixSecs).dropLast = p.dropLast := by
    simp [conflictCopyName]
  have hlen : p.length ≤ (conflictCopyName p e.nodeId h.unixSecs).length := by
    have hpos := List.length_pos_of_ne_nil hp.not_root
    simp only [conflictCopyName, List.length_append, List.length_dropLast, List.length_singleton]
    omega
  obtain ⟨t, ht, hpt, -, -⟩ := hp.createDirAll hok
  unfold SyncEngine.saveConflictCopy
  simp only [hdrop, ht]
  cases hcopy : h.copy t p (conflictCopyName p e.nodeId h.unixSecs) with
  | none => exact ⟨_, _, rfl, hpt, rfl⟩
  | some t' =>
    refine ⟨_, _, rfl, ?_, rfl⟩
    simp only [Host.copy, hok, Bool.false_eq_true, if_false] at hcopy
    split at hcopy
    · exact hpt.write hcopy hlen
    · cases hcopy

/-! ## One live write -/

/-- The entry is a file at `p`, written by a live action. -/
structure IsLiveWrite (p : PathBuf) (w : Nat) (fd : FileData) : Prop where
  path : fd.metadata.relPath = p
  file : fd.metadata.isDir = false
  live : fd.actionMs = some w

/-- The disk writes succeed. -/
theorem writeEntry_file {h : Host} (hok : ∀ op, h.fails op = false) {t : Tree} {p : PathBuf}
    {w : Nat} {fd : FileData} (hfd : IsLiveWrite p w fd) (hp : Writable t p) :
    ∃ t', SyncEngine.writeEntry h t fd = (true, t') ∧ Writable t' p ∧
      t'.get p = some (.file fd.content fd.metadata.modifiedMs) := by
  obtain ⟨t₁, ht₁, hp₁, hdir, -⟩ := hp.createDirAll hok
  have hwrite : ¬ t₁.write p fd.content fd.metadata.modifiedMs = none := by
    rw [FileTree.write_eq_none_iff]
    rintro (hroot | hparent | hself)
    · exact hp.not_root hroot
    · rw [hdir] at hparent
      cases hparent
    · rw [hp₁.not_dir] at hself
      cases hself
  obtain ⟨t₂, ht₂⟩ := Option.ne_none_iff_exists'.mp hwrite
  refine ⟨t₂, ?_, hp₁.write ht₂ le_rfl, ?_⟩
  · simp [SyncEngine.writeEntry, hfd.path, hfd.file, ht₁, Host.write, hok, ht₂]
  · rw [FileTree.get_write ht₂, if_pos rfl]

/-- One live write of `p` in a bundle: skipped when a tombstone beats it, otherwise written. -/
theorem applyFile_live {h : Host} (hok : ∀ op, h.fails op = false) {s : SyncEngine.BundleRun}
    {p : PathBuf} {w : Nat} {fd : FileData} (hfd : IsLiveWrite p w fd)
    (hsafe : safeRelative p = true) (hp : Writable s.engine.tree p) :
    ∃ s', SyncEngine.applyFile h s fd = (true, s') ∧
      if (s.engine.vetoFor p (some w) fd.metadata.modifiedMs).isSome then s' = s
      else
        Writable s'.engine.tree p ∧
        s'.engine.tree.get p = some (.file fd.content fd.metadata.modifiedMs) ∧
        s'.engine.manifest.files.get p = some fd.metadata ∧
        s'.engine.ledger = (s.engine.admitRecord p (some w) fd.metadata.modifiedMs).ledger ∧
        s'.dirMtimes = s.dirMtimes := by
  unfold SyncEngine.applyFile
  simp only [hfd.path, hfd.live, hfd.file, hsafe, Bool.not_true, Bool.false_eq_true, if_false,
    Bool.not_false, Bool.true_and]
  split
  · exact ⟨s, rfl, rfl⟩
  · generalize he : s.engine.admitRecord p (some w) fd.metadata.modifiedMs = e
    have hpe : Writable e.tree p := by
      rw [← he, SyncEngine.admitRecord_tree]
      exact hp
    -- With or without a conflict copy the path can be written.
    obtain ⟨e₁, ci, hsaved, hp₁, heq⟩ : ∃ e₁ ci,
        (if (e.detectConflict h p fd.metadata.hash).isSome then e.saveConflictCopy h p
          else some (e, none)) = some (e₁, ci) ∧ Writable e₁.tree p ∧
          e₁ = { e with tree := e₁.tree } := by
      split
      · exact hpe.saveConflictCopy hok
      · exact ⟨e, none, rfl, hpe, rfl⟩
    obtain ⟨t, hw, hpt, hget⟩ := writeEntry_file hok hfd hp₁
    rw [hsaved]
    simp only [hw, Bool.not_true, Bool.false_eq_true, if_false]
    refine ⟨_, rfl, hpt, hget, by simp, ?_, rfl⟩
    rw [heq]

/-! ## One delete -/

/-- What the delete loops leave of a path. -/
def KeptAt (e e' : SyncEngine) (q : PathBuf) : Prop :=
  e'.tree.get q = e.tree.get q ∧ e'.manifest.files.get q = e.manifest.files.get q

theorem deleteTargets_keeps {h : Host} (hok : ∀ op, h.fails op = false) {guarded : List PathBuf}
    {q : PathBuf} (targets : List PathBuf) (s : SyncEngine.DeleteRun) (gone : List PathBuf)
    (hq : ∀ x ∈ targets, ¬ x <+: q) :
    KeptAt s.engine (SyncEngine.deleteTargets h guarded s gone targets).engine q := by
  induction targets generalizing s gone with
  | nil => exact ⟨rfl, rfl⟩
  | cons x targets ih =>
    have hrest : ∀ y ∈ targets, ¬ y <+: q := fun y hy => hq y (by simp [hy])
    have hx : ¬ x <+: q := hq x (by simp)
    unfold SyncEngine.deleteTargets
    split
    · exact ih s gone hrest
    · split
      · exact ih s gone hrest
      · obtain ⟨h₁, h₂⟩ := ih { s with
          engine := { s.engine with
            suppressedDeletes := insert x s.engine.suppressedDeletes
            tree := h.moveToTrash s.engine.tree x
            manifest := { s.engine.manifest with
              files := s.engine.manifest.files.filter fun k _ => !decide (x <+: k) } }
          removed := s.removed ++ [x] } (gone ++ [x]) hrest
        refine ⟨h₁.trans ?_, h₂.trans ?_⟩
        · simp [Host.moveToTrash, hok, hx]
        · cases hm : s.engine.manifest.files.get q <;> simp [hm, hx]

/-- Among targets at and below `p` a file at `p` goes. -/
theorem deleteTargets_removes {h : Host} (hok : ∀ op, h.fails op = false) {guarded : List PathBuf}
    {p : PathBuf} (targets : List PathBuf) (s : SyncEngine.DeleteRun) (gone : List PathBuf)
    (hbelow : ∀ x ∈ targets, p <+: x) (hgone : ∀ g ∈ gone, p <+: g)
    (hdir : s.engine.tree.isDir p = false)
    (hp : p ∈ targets ∨ (s.engine.tree.get p = none ∧ s.engine.manifest.files.get p = none))
    (hdone : p ∈ gone → s.engine.tree.get p = none ∧ s.engine.manifest.files.get p = none) :
    let e := (SyncEngine.deleteTargets h guarded s gone targets).engine
    e.tree.get p = none ∧ e.manifest.files.get p = none := by
  induction targets generalizing s gone with
  | nil => exact hp.resolve_left (by simp)
  | cons x targets ih =>
    have hbelow' : ∀ y ∈ targets, p <+: y := fun y hy => hbelow y (by simp [hy])
    have hx : p <+: x := hbelow x (by simp)
    unfold SyncEngine.deleteTargets
    split
    · next hany =>
      refine ih s gone hbelow' hgone hdir ?_ hdone
      rcases hp with hp | hp
      · rcases List.mem_cons.mp hp with rfl | hp
        · -- Only `p` itself can have taken `p` along.
          obtain ⟨g, hg, hgp⟩ := List.any_eq_true.mp hany
          have hgp : g <+: p := by simpa using hgp
          have heq : g = p := hgp.eq_of_length (le_antisymm hgp.length_le (hgone g hg).length_le)
          exact .inr (hdone (heq ▸ hg))
        · exact .inl hp
      · exact .inr hp
    · split
      · next hskip =>
        refine ih s gone hbelow' hgone hdir ?_ hdone
        rcases hp with hp | hp
        · rcases List.mem_cons.mp hp with rfl | hp
          · simp [hdir] at hskip
          · exact .inl hp
        · exact .inr hp
      · dsimp only
        have hgone' : ∀ g ∈ gone ++ [x], p <+: g := by
          intro g hg
          rcases List.mem_append.mp hg with hg | hg
          · exact hgone g hg
          · rw [List.mem_singleton.mp hg]
            exact hx
        by_cases hxp : x = p
        · subst hxp
          refine ih _ _ hbelow' hgone' ?_ (.inr ⟨?_, ?_⟩) fun _ => ⟨?_, ?_⟩
          · have hroot : x ≠ [] := by
              rintro rfl
              simp [FileTree.isDir] at hdir
            simp [FileTree.isDir, Host.moveToTrash, hok, hroot]
          all_goals simp [Host.moveToTrash, hok]
        · have hnot : ¬ x <+: p := fun hxp' =>
            hxp (hxp'.eq_of_length (le_antisymm hxp'.length_le hx.length_le))
          have hmanifest : (s.engine.manifest.files.filter fun k _ => !decide (x <+: k)).get p =
              s.engine.manifest.files.get p := by
            cases hm : s.engine.manifest.files.get p <;> simp [hm, hnot]
          have htree : (h.moveToTrash s.engine.tree x).get p = s.engine.tree.get p := by
            simp [Host.moveToTrash, hok, hnot]
          refine ih _ _ hbelow' hgone' ?_ ?_ ?_
          · simpa [FileTree.isDir, htree] using hdir
          · rcases hp with hp | hp
            · exact .inl ((List.mem_cons.mp hp).resolve_left (Ne.symm hxp))
            · exact .inr ⟨htree.trans hp.1, hmanifest.trans hp.2⟩
          · intro hmem
            have hold := hdone ((List.mem_append.mp hmem).resolve_right
              (by simpa using Ne.symm hxp))
            exact ⟨htree.trans hold.1, hmanifest.trans hold.2⟩

theorem mem_manifestSubtree_below {h : Host} {m : Manifest} {p x : PathBuf}
    (hx : x ∈ SyncEngine.manifestSubtree h m p) : p <+: x := by
  unfold SyncEngine.manifestSubtree at hx
  rcases List.mem_cons.mp hx with rfl | hx
  · exact List.prefix_refl _
  · simpa using (List.mem_filter.mp hx).2 |> fun h => by
      simp only [Bool.and_eq_true, decide_eq_true_eq] at h
      exact h.2

/-- The guard of `apply_deletes` for one path, by its live record. -/
theorem protects_iff {d : Nat} (o : Option Nat) (hpos : ∀ a, o = some a → 0 < a) :
    (0 < o.getD 0 ∧ d ≤ o.getD 0) ↔ o.any (fun a => decide (d ≤ a)) = true := by
  cases o with
  | none => simp
  | some a => simp [hpos a rfl]

/-- One delete of `p`. A live record that is not older protects the path; otherwise it goes, and
    the tombstone is offered to the ledger. What lies above stays. -/
theorem applyDeletes_path {h : Host} (hok : ∀ op, h.fails op = false) {e : SyncEngine} {p : PathBuf}
    (d : Nat) (deleter : String) (hsafe : safeRelative p = true) (hdir : e.tree.isDir p = false)
    (hpos : ∀ a, e.ledger.alive.get p = some a → 0 < a) :
    let e' := (e.applyDeletes h [p] d deleter).2
    (e'.ledger = e.ledger.record p d deleter (e.prevInfo p).1 (e.prevInfo p).2) ∧
    (∀ q, q <+: p → q ≠ p → e'.tree.get q = e.tree.get q) ∧
    if (e.ledger.alive.get p).any (fun a => decide (d ≤ a)) then KeptAt e e' p
    else e'.tree.get p = none ∧ e'.manifest.files.get p = none := by
  have hroot : p ≠ [] := by
    rintro rfl
    simp [FileTree.isDir] at hdir
  -- The one round of the loop.
  have hfold : [p].foldl (SyncEngine.deletePath h d) ⟨e, [], [], 0⟩ =
      SyncEngine.deletePath h d ⟨e, [], [], 0⟩ p := rfl
  have hledger := SyncEngine.ledger_deletePath h d ⟨e, [], [], 0⟩ p
  set s := SyncEngine.deletePath h d ⟨e, [], [], 0⟩ p with hs
  have htombs : s.tombstones = [(p, (e.prevInfo p).1, (e.prevInfo p).2)] := by
    simp only [hs, SyncEngine.deletePath, hsafe, Bool.not_true, Bool.false_eq_true, if_false]
    split
    · rfl
    · rw [SyncEngine.tombstones_deleteTargets]
      rfl
  have hfinal : (e.applyDeletes h [p] d deleter).2.tree = s.engine.tree ∧
      (e.applyDeletes h [p] d deleter).2.manifest = s.engine.manifest ∧
      (e.applyDeletes h [p] d deleter).2.ledger =
        e.ledger.record p d deleter (e.prevInfo p).1 (e.prevInfo p).2 := by
    unfold SyncEngine.applyDeletes
    simp only [hfold, htombs, List.cons_ne_nil, if_false]
    refine ⟨?_, ?_, ?_⟩
    · rw [SyncEngine.scheduleUnsuppressDeletes_tree, SyncEngine.flushLedger_tree]
      rfl
    · rw [SyncEngine.scheduleUnsuppressDeletes_manifest, SyncEngine.flushLedger_manifest]
      rfl
    · simp [hledger, SyncEngine.recordTombstones]
  obtain ⟨htree, hmanifest, hrecorded⟩ := hfinal
  set subtree := SyncEngine.manifestSubtree h e.manifest p with hsub
  have hmem : p ∈ subtree := by simp [hsub, SyncEngine.manifestSubtree]
  set guarded := SyncEngine.protectedPaths e.ledger subtree d with hguarded
  have hpguard : p ∈ guarded ↔ (e.ledger.alive.get p).any (fun a => decide (d ≤ a)) = true := by
    rw [← protects_iff _ hpos]
    simp only [hguarded, SyncEngine.protectedPaths, List.mem_filter, hmem, true_and,
      DeletionLedger.aliveSince, Bool.and_eq_true]
    exact and_congr decide_eq_true_iff decide_eq_true_iff
  have hengine : s.engine = (if guarded = [] then
      SyncEngine.deleteWhole h ⟨e, [], [], 0⟩ p subtree
      else SyncEngine.deleteTargets h guarded ⟨e, [], [], 0⟩ [] ((subtree.filter fun x =>
        !decide (x ∈ guarded)).insertionSort fun a b => a.length ≤ b.length)).engine := by
    simp only [hs, SyncEngine.deletePath, hsafe, Bool.not_true, Bool.false_eq_true, if_false]
    rfl
  have htargets : ∀ x ∈ ((subtree.filter fun x => !decide (x ∈ guarded)).insertionSort
      fun a b => a.length ≤ b.length), x ∈ subtree ∧ x ∉ guarded := by
    intro x hx
    have hx := (List.perm_insertionSort _ _).mem_iff.mp hx
    simpa using List.mem_filter.mp hx
  have hbelow : ∀ x ∈ subtree, p <+: x := fun x hx => mem_manifestSubtree_below hx
  refine ⟨hrecorded, ?_, ?_⟩
  · intro q hq hne
    rw [htree, hengine]
    have hnot : ¬ p <+: q := fun h' =>
      hne (hq.eq_of_length (le_antisymm hq.length_le h'.length_le))
    split
    · simp [SyncEngine.deleteWhole, Host.moveToTrash, hok, hnot]
    · refine (deleteTargets_keeps hok _ _ _ fun x hx hxq => hnot ?_).1
      exact (hbelow x (htargets x hx).1).trans hxq
  · split
    · next hprot =>
      have hp := hpguard.mpr hprot
      have hne : guarded ≠ [] := List.ne_nil_of_mem hp
      rw [if_neg hne] at hengine
      have hkept : KeptAt e s.engine p := by
        rw [hengine]
        refine deleteTargets_keeps hok _ ⟨e, [], [], 0⟩ [] ?_
        intro x hx hxp
        obtain ⟨hxs, hxg⟩ := htargets x hx
        have heq : x = p := hxp.eq_of_length
          (le_antisymm hxp.length_le (hbelow x hxs).length_le)
        exact hxg (heq ▸ hp)
      exact ⟨(congrArg (·.get p) htree).trans hkept.1,
        (congrArg (·.files.get p) hmanifest).trans hkept.2⟩
    · next hprot =>
      have hp : p ∉ guarded := fun hp => hprot (hpguard.mp hp)
      rw [htree, hmanifest, hengine]
      split
      · simp [SyncEngine.deleteWhole, Host.moveToTrash, hok, hdir]
      · refine deleteTargets_removes hok _ _ _ (fun x hx => hbelow x (htargets x hx).1) (by simp)
          hdir (.inl ?_) (by simp)
        refine (List.perm_insertionSort _ _).mem_iff.mpr (List.mem_filter.mpr ⟨hmem, ?_⟩)
        simpa using hp

/-! ## The stamps of the path -/

theorem SyncEngine.ledger_admitRecord_live (e : SyncEngine) (p : PathBuf) (w m : Nat) :
    (e.admitRecord p (some w) m).ledger = (e.ledger.recordAlive p w).2 := by
  simp only [SyncEngine.admitRecord]
  split
  · rfl
  · next hneed =>
    -- What is not needed changes nothing.
    simp only [DeletionLedger.aliveRecordNeeded, Bool.and_eq_true, Bool.or_eq_true,
      decide_eq_true_eq, not_and, not_or] at hneed
    unfold DeletionLedger.recordAlive
    by_cases hw : w = 0
    · simp [hw]
    · obtain ⟨hraised, hlifted⟩ := hneed (by omega)
      simp [hw, hraised, hlifted]

/-- Without tombstones above, only the one at the path covers it. -/
theorem coveringTombstone_of_above {l : DeletionLedger} {p : PathBuf} (hp : p ≠ [])
    (habove : ∀ q, q <+: p → q ≠ p → l.entries.get q = none) :
    l.coveringTombstone p = l.effectiveTombstone p p := by
  cases heff : l.effectiveTombstone p p with
  | some t =>
    obtain ⟨r, t', hcover, heff', hpr, hrp⟩ :=
      DeletionLedger.coveringTombstone_of_effective hp (List.prefix_refl p) heff
    have hr : r = p := hrp.eq_of_length (le_antisymm hrp.length_le hpr.length_le)
    rw [hcover, ← heff', ← heff, hr]
  | none =>
    refine List.findSome?_eq_none_iff.mpr fun q hq => ?_
    by_cases hqp : q = p
    · rw [hqp, heff]
    · simp [DeletionLedger.effectiveTombstone, habove q (mem_ancestors.mp hq).2 hqp]

open DeletionLedger in
/-- What vetoes a live write: the tombstone at the path, newer than the write and not
    superseded. -/
theorem vetoFor_live_iff {e : SyncEngine} {p : PathBuf} (hp : p ≠ [])
    (habove : ∀ q, q <+: p → q ≠ p → e.ledger.entries.get q = none) (w m : Nat) :
    (e.vetoFor p (some w) m).isSome = true ↔
      WithBot.some w < stampOf (e.ledger.deletedAt p) ∧
        stampOf (e.ledger.alive.get p) < stampOf (e.ledger.deletedAt p) := by
  simp only [SyncEngine.vetoFor, coveringTombstone_of_above hp habove, effectiveTombstone,
    deletedAt, Option.isSome_map, Option.getD_some]
  cases he : e.ledger.entries.get p with
  | none => simp
  | some t =>
    cases ha : e.ledger.alive.get p with
    | none => by_cases hw : w < t.deletedAtMs <;> simp [Option.filter_some, hw]
    | some a =>
      by_cases hw : w < t.deletedAtMs <;> by_cases hat : a < t.deletedAtMs <;>
        simp [Option.filter_some, hw, hat]

/-! ## Writes and deletes in any order -/

open DeletionLedger LwwPair

/-- The newest write `W` and the newest delete `D` delivered so far decide over `p`. -/
structure Decided (e : SyncEngine) (p : PathBuf) (W D : WithBot Nat) : Prop where
  writable : Writable e.tree p
  above : ∀ q, q <+: p → q ≠ p → e.ledger.entries.get q = none
  positive : ∀ a, e.ledger.alive.get p = some a → 0 < a
  listed : (e.manifest.files.get p).isSome = (e.tree.get p).isSome
  decides : Decides W D (stampOf (e.ledger.alive.get p)) (stampOf (e.ledger.deletedAt p))
    (e.tree.get p).isSome

/-- Only these parts of the engine matter. -/
theorem Decided.congr {e e' : SyncEngine} {p : PathBuf} {W D : WithBot Nat} (h : Decided e p W D)
    (ht : e'.tree = e.tree) (hm : e'.manifest = e.manifest) (hl : e'.ledger = e.ledger) :
    Decided e' p W D := by
  obtain ⟨h₁, h₂, h₃, h₄, h₅⟩ := h
  rw [← ht, ← hl] at h₅
  rw [← ht] at h₁
  rw [← hl] at h₂ h₃
  rw [← ht, ← hm] at h₄
  exact ⟨h₁, h₂, h₃, h₄, h₅⟩

theorem Decided.applyFile {h : Host} (hok : ∀ op, h.fails op = false) {s : SyncEngine.BundleRun}
    {p : PathBuf} {w : Nat} {fd : FileData} {W D : WithBot Nat} (hfd : IsLiveWrite p w fd)
    (hw : 0 < w) (hsafe : safeRelative p = true) (hs : Decided s.engine p W D) :
    ∃ s', SyncEngine.applyFile h s fd = (true, s') ∧ Decided s'.engine p (W ⊔ WithBot.some w) D ∧
      s'.dirMtimes = s.dirMtimes := by
  obtain ⟨s', hrun, hres⟩ := applyFile_live hok hfd hsafe hs.writable
  refine ⟨s', hrun, ?_⟩
  have hveto := vetoFor_live_iff hs.writable.not_root hs.above w fd.metadata.modifiedMs
  split at hres
  · next hv =>
    rw [hres]
    exact ⟨{ hs with decides := hs.decides.veto (hveto.mp hv).1 }, rfl⟩
  · next hv =>
    obtain ⟨hwr, htree, hmanifest, hledger, hdirs⟩ := hres
    rw [SyncEngine.ledger_admitRecord_live] at hledger
    refine ⟨⟨hwr, fun q hq hne => ?_, fun a ha => ?_, ?_, ?_⟩, hdirs⟩
    · rw [hledger, get_entries_recordAlive, if_neg (fun h => hne h.1)]
      exact hs.above q hq hne
    · rw [hledger, get_alive_recordAlive] at ha
      split at ha
      · exact Option.some.inj ha ▸ hw
      · exact hs.positive a ha
    · rw [hmanifest, htree]
      rfl
    · rw [hledger, stampOf_alive_recordAlive _ _ hw, stampOf_deletedAt_recordAlive _ _ hw, htree]
      exact hs.decides.admitted fun h => hv (hveto.mpr h)

/-- The stamps of the live writes of a bundle. -/
def FileBundle.writeStamps (b : FileBundle) : List Nat := b.files.filterMap (·.actionMs)

/-- Every entry of the bundle is a live write of `p`. -/
def FileBundle.Writes (b : FileBundle) (p : PathBuf) : Prop :=
  ∀ fd ∈ b.files, ∃ w, 0 < w ∧ IsLiveWrite p w fd

theorem Decided.applyFiles {h : Host} (hok : ∀ op, h.fails op = false) {p : PathBuf}
    (hsafe : safeRelative p = true) {D : WithBot Nat} (files : List FileData)
    (s : SyncEngine.BundleRun) {W : WithBot Nat} (hs : Decided s.engine p W D)
    (hfiles : ∀ fd ∈ files, ∃ w, 0 < w ∧ IsLiveWrite p w fd) :
    ∃ s', SyncEngine.applyFiles h s files = (true, s') ∧
      Decided s'.engine p (W ⊔ (files.filterMap (·.actionMs)).maximum) D ∧
      s'.dirMtimes = s.dirMtimes := by
  induction files generalizing s W with
  | nil => exact ⟨s, rfl, by simpa using hs, rfl⟩
  | cons fd files ih =>
    obtain ⟨w, hw, hfd⟩ := hfiles fd (by simp)
    obtain ⟨s₁, hrun, hs₁, hdirs⟩ := hs.applyFile hok hfd hw hsafe
    obtain ⟨s', hrest, hs', hdirs'⟩ := ih s₁ hs₁ fun fd' h' => hfiles fd' (by simp [h'])
    refine ⟨s', ?_, ?_, hdirs'.trans hdirs⟩
    · rw [SyncEngine.applyFiles, hrun]
      exact hrest
    · rw [List.filterMap_cons_some hfd.live, List.maximum_cons, ← sup_assoc]
      exact hs'

theorem Decided.applyBundle {h : Host} (hok : ∀ op, h.fails op = false) {e : SyncEngine}
    {p : PathBuf} (hsafe : safeRelative p = true) {W D : WithBot Nat} (he : Decided e p W D)
    {b : FileBundle} (hb : b.Writes p) :
    Decided (e.applyBundle h b).2 p (W ⊔ b.writeStamps.maximum) D := by
  obtain ⟨s, hrun, hs, hdirs⟩ := he.applyFiles hok hsafe b.files ⟨e, [], ⟨0, []⟩, []⟩ hb
  unfold SyncEngine.applyBundle
  rw [hrun]
  -- A bundle of files sets no directory mtimes.
  refine hs.congr ?_ ?_ ?_
  · simp [hdirs, SyncEngine.setDirMtimes]
  · simp
  · simp

theorem Decided.applyDeletes {h : Host} (hok : ∀ op, h.fails op = false) {e : SyncEngine}
    {p : PathBuf} (hsafe : safeRelative p = true) {W D : WithBot Nat} (he : Decided e p W D)
    (d : Nat) (deleter : String) :
    Decided (e.applyDeletes h [p] d deleter).2 p W (D ⊔ WithBot.some d) := by
  obtain ⟨hledger, habove, hres⟩ :=
    applyDeletes_path hok d deleter hsafe he.writable.not_dir he.positive
  have halive : (e.applyDeletes h [p] d deleter).2.ledger.alive = e.ledger.alive := by
    rw [hledger, record_alive]
  have hsuper := stampOf_deletedAt_record e.ledger p d deleter (e.prevInfo p).1 (e.prevInfo p).2
  rw [← hledger] at hsuper
  have hany : (e.ledger.alive.get p).any (fun a => decide (d ≤ a)) = true ↔
      WithBot.some d ≤ stampOf (e.ledger.alive.get p) := by
    cases e.ledger.alive.get p <;> simp
  -- Nothing above the path changes, so it can still be written.
  have hwritable : ∀ {t : Tree}, (∀ q, q <+: p → q ≠ p → t.get q = e.tree.get q) →
      (t.get p = e.tree.get p ∨ t.get p = none) → Writable t p := by
    intro t hq hp
    refine ⟨he.writable.not_root, fun q hqp hne => ?_, ?_⟩
    · have := he.writable.parents q hqp hne
      unfold FileTree.isFile at this ⊢
      rwa [hq q hqp hne]
    · have := he.writable.not_dir
      unfold FileTree.isDir at this ⊢
      rcases hp with hp | hp
      · rwa [hp]
      · simp [hp, he.writable.not_root]
  have habove' : ∀ q, q <+: p → q ≠ p →
      (e.applyDeletes h [p] d deleter).2.ledger.entries.get q = none := by
    intro q hq hne
    rw [hledger, get_record, if_neg hne]
    exact he.above q hq hne
  split at hres
  · next hkeep =>
    have hd := hany.mp hkeep
    rw [if_pos hd] at hsuper
    refine ⟨hwritable habove (.inl hres.1), habove', by rw [halive]; exact he.positive, ?_, ?_⟩
    · rw [hres.1, hres.2]
      exact he.listed
    · rw [halive, hsuper, hres.1]
      exact he.decides.keep hd
  · next hkeep =>
    have hd : ¬ WithBot.some d ≤ stampOf (e.ledger.alive.get p) := fun h => hkeep (hany.mpr h)
    rw [if_neg hd] at hsuper
    refine ⟨hwritable habove (.inr hres.1), habove', by rw [halive]; exact he.positive, ?_, ?_⟩
    · rw [hres.1, hres.2]
      rfl
    · rw [halive, hsuper, hres.1]
      exact he.decides.remove hd

/-- Something that is delivered for one path. -/
inductive PathDelivery where
  | write (h : Host) (b : FileBundle)
  | delete (h : Host) (deletedAtMs : Nat) (deleterNode : String)

namespace PathDelivery

def apply (p : PathBuf) (e : SyncEngine) : PathDelivery → SyncEngine
  | write h b => (e.applyBundle h b).2
  | delete h d node => (e.applyDeletes h [p] d node).2

/-- The delivery is one for `p`, and the disk operations succeed. -/
def Valid (p : PathBuf) : PathDelivery → Prop
  | write h b => (∀ op, h.fails op = false) ∧ b.Writes p
  | delete h _ _ => ∀ op, h.fails op = false

def writeStamps : PathDelivery → List Nat
  | write _ b => b.writeStamps
  | delete _ _ _ => []

def deleteStamps : PathDelivery → List Nat
  | write _ _ => []
  | delete _ d _ => [d]

end PathDelivery

theorem Decided.deliver {p : PathBuf} (hsafe : safeRelative p = true) (ds : List PathDelivery)
    (hds : ∀ d ∈ ds, d.Valid p) {e : SyncEngine} {W D : WithBot Nat} (he : Decided e p W D) :
    Decided (ds.foldl (PathDelivery.apply p) e) p (W ⊔ (ds.flatMap (·.writeStamps)).maximum)
      (D ⊔ (ds.flatMap (·.deleteStamps)).maximum) := by
  induction ds generalizing e W D with
  | nil => simpa using he
  | cons d ds ih =>
    have hd := hds d (by simp)
    rw [List.flatMap_cons, List.flatMap_cons, maximum_append, maximum_append, ← sup_assoc,
      ← sup_assoc]
    refine ih (fun d' h' => hds d' (by simp [h'])) ?_
    cases d with
    | write h b =>
      simp only [PathDelivery.deleteStamps, List.maximum_nil, sup_bot_eq]
      exact he.applyBundle hd.1 hsafe hd.2
    | delete h t node =>
      simp only [PathDelivery.writeStamps, PathDelivery.deleteStamps, List.maximum_nil,
        sup_bot_eq, List.maximum_singleton]
      exact he.applyDeletes hd hsafe t node

/-- Whether a path is there is decided by the stamps, in whatever order and however often they are
    delivered. -/
theorem exists_iff_newest {p : PathBuf} (hsafe : safeRelative p = true) (hroot : p ≠ [])
    (e : SyncEngine) (htree : e.tree.get p = none) (hmanifest : e.manifest.files.get p = none)
    (hparents : ∀ q, q <+: p → q ≠ p → e.tree.isFile q = false)
    (hledger : ∀ q, q <+: p → e.ledger.entries.get q = none ∧ e.ledger.alive.get q = none)
    (ds : List PathDelivery) (hds : ∀ d ∈ ds, d.Valid p) :
    let e' := ds.foldl (PathDelivery.apply p) e
    let writes := ds.flatMap (·.writeStamps)
    let deletes := ds.flatMap (·.deleteStamps)
    let wins := ∃ w ∈ writes, (∀ w' ∈ writes, w' ≤ w) ∧ ∀ d ∈ deletes, d ≤ w
    ((e'.tree.get p).isSome = true ↔ wins) ∧ ((e'.manifest.files.get p).isSome = true ↔ wins) := by
  intro e' writes deletes wins
  have hstart : Decided e p ⊥ ⊥ := by
    refine ⟨⟨hroot, hparents, by simp [FileTree.isDir, htree, hroot]⟩,
      fun q hq _ => (hledger q hq).1, fun a ha => ?_, by simp [htree, hmanifest], ?_⟩
    · rw [(hledger p (List.prefix_refl p)).2] at ha
      cases ha
    · have hp := hledger p (List.prefix_refl p)
      simpa [deletedAt, hp.1, hp.2, htree] using Decides.start
  have hend : Decided e' p writes.maximum deletes.maximum := by
    simpa using hstart.deliver hsafe ds hds
  -- The largest stamps decide.
  have hwins : (deletes.maximum ≤ writes.maximum ∧ writes.maximum ≠ ⊥) ↔ wins := by
    constructor
    · rintro ⟨hle, hne⟩
      obtain ⟨w, hw⟩ := WithBot.ne_bot_iff_exists.mp hne
      have hmax := List.maximum_eq_coe_iff.mp hw.symm
      refine ⟨w, hmax.1, hmax.2, fun d hd => ?_⟩
      have hd' := (List.le_maximum_of_mem' hd).trans hle
      rw [← hw] at hd'
      exact WithBot.coe_le_coe.mp hd'
    · rintro ⟨w, hw, hmax, hdel⟩
      have heq : writes.maximum = WithBot.some w := List.maximum_eq_coe_iff.mpr ⟨hw, hmax⟩
      rw [heq]
      exact ⟨List.maximum_le_of_forall_le fun d hd => WithBot.coe_le_coe.mpr (hdel d hd),
        WithBot.coe_ne_bot⟩
  have hthere := hend.decides.there_iff.trans hwins
  exact ⟨hthere, hend.listed ▸ hthere⟩

/-- A host without failures and one file to write. -/
private def steadyHost : Host := .reliable (fun _ => 0) 1000

private def freshServer : SyncEngine := .new "server" (fun _ => false) .empty .new

private def writeOf (w : Nat) (c : Content) : FileData :=
  ⟨⟨.ofNames ["a"], c.length, 0, w, 0, false⟩, c, some w⟩

private theorem writes_writeOf (w : Nat) (hw : 0 < w) (c : Content) (i : Nat) :
    FileBundle.Writes ⟨[writeOf w c], i⟩ (.ofNames ["a"]) := by
  intro fd hfd
  rw [List.mem_singleton.mp hfd]
  exact ⟨w, hw, rfl, rfl, rfl⟩

/-- A late delete and an early write around a newer write. -/
theorem exists_iff_newest_late_delete :
    let ds : List PathDelivery := [.delete steadyHost 5 "a", .write steadyHost ⟨[writeOf 7 [1]], 0⟩,
      .delete steadyHost 6 "b", .write steadyHost ⟨[writeOf 2 [2]], 1⟩]
    ((ds.foldl (PathDelivery.apply (.ofNames ["a"])) freshServer).tree.get
      (PathBuf.ofNames ["a"])).isSome = true := by
  intro ds
  have hds : ∀ d ∈ ds, d.Valid (.ofNames ["a"]) := by
    have hok : ∀ op, steadyHost.fails op = false := fun _ => rfl
    intro d hd
    simp only [ds, List.mem_cons, List.not_mem_nil, or_false] at hd
    rcases hd with rfl | rfl | rfl | rfl
    · exact hok
    · exact ⟨hok, writes_writeOf 7 (by decide) [1] 0⟩
    · exact hok
    · exact ⟨hok, writes_writeOf 2 (by decide) [2] 1⟩
  refine (exists_iff_newest (by decide +kernel) (by decide) freshServer rfl rfl
    (fun _ _ _ => rfl) (fun _ _ => ⟨rfl, rfl⟩) ds hds).1.mpr ⟨7, ?_, ?_, ?_⟩ <;> decide +kernel

/-! ## Writes alone -/

/-- Nothing vetoes a write of `p`, and nothing is in its way. -/
structure Unvetoed (e : SyncEngine) (p : PathBuf) : Prop where
  writable : Writable e.tree p
  no_tombstone : ∀ q, q <+: p → e.ledger.entries.get q = none

theorem Unvetoed.vetoFor_eq_none {e : SyncEngine} {p : PathBuf} (h : Unvetoed e p) (w m : Nat) :
    (e.vetoFor p (some w) m).isSome = false := by
  rw [Bool.eq_false_iff, Ne, vetoFor_live_iff h.writable.not_root fun q hq _ => h.no_tombstone q hq]
  simp [deletedAt, h.no_tombstone p (List.prefix_refl p)]

/-- What `p` holds after the writes of `files`: the last one, whatever the stamps. -/
def lastWritten (old : Option (FileNode Content)) (files : List FileData) : Option (FileNode Content) :=
  match files.getLast? with
  | some fd => some (.file fd.content fd.metadata.modifiedMs)
  | none => old

theorem lastWritten_cons (old : Option (FileNode Content)) (fd : FileData) (files : List FileData) :
    lastWritten old (fd :: files) =
      lastWritten (some (.file fd.content fd.metadata.modifiedMs)) files := by
  unfold lastWritten
  rw [List.getLast?_cons]
  cases files.getLast? <;> rfl

theorem lastWritten_append (old : Option (FileNode Content)) (files files' : List FileData) :
    lastWritten old (files ++ files') = lastWritten (lastWritten old files) files' := by
  induction files generalizing old with
  | nil => rfl
  | cons fd files ih => rw [List.cons_append, lastWritten_cons, lastWritten_cons, ih]

theorem Unvetoed.applyFiles {h : Host} (hok : ∀ op, h.fails op = false) {p : PathBuf}
    (hsafe : safeRelative p = true) (files : List FileData) (s : SyncEngine.BundleRun)
    (hs : Unvetoed s.engine p) (hfiles : ∀ fd ∈ files, ∃ w, IsLiveWrite p w fd) :
    ∃ s', SyncEngine.applyFiles h s files = (true, s') ∧ Unvetoed s'.engine p ∧
      s'.engine.tree.get p = lastWritten (s.engine.tree.get p) files ∧
      s'.dirMtimes = s.dirMtimes := by
  induction files generalizing s with
  | nil => exact ⟨s, rfl, hs, rfl, rfl⟩
  | cons fd files ih =>
    obtain ⟨w, hfd⟩ := hfiles fd (by simp)
    obtain ⟨s₁, hrun, hres⟩ := applyFile_live hok hfd hsafe hs.writable
    rw [if_neg (by simp [hs.vetoFor_eq_none])] at hres
    obtain ⟨hwr, htree, -, hledger, hdirs⟩ := hres
    have hs₁ : Unvetoed s₁.engine p := by
      refine ⟨hwr, fun q hq => ?_⟩
      rw [hledger, SyncEngine.ledger_admitRecord_live, get_entries_recordAlive]
      split
      · next hqp => simp [hs.no_tombstone p (List.prefix_refl p)]
      · exact hs.no_tombstone q hq
    obtain ⟨s', hrest, hs', htree', hdirs'⟩ := ih s₁ hs₁ fun fd' h' => hfiles fd' (by simp [h'])
    refine ⟨s', ?_, hs', ?_, hdirs'.trans hdirs⟩
    · rw [SyncEngine.applyFiles, hrun]
      exact hrest
    · rw [htree', htree, lastWritten_cons]

theorem Unvetoed.applyBundle {h : Host} (hok : ∀ op, h.fails op = false) {e : SyncEngine}
    {p : PathBuf} (hsafe : safeRelative p = true) (he : Unvetoed e p) {b : FileBundle}
    (hb : ∀ fd ∈ b.files, ∃ w, IsLiveWrite p w fd) :
    ∃ r, (e.applyBundle h b).1 = some r ∧ Unvetoed (e.applyBundle h b).2 p ∧
      (e.applyBundle h b).2.tree.get p = lastWritten (e.tree.get p) b.files := by
  obtain ⟨s, hrun, hs, htree, hdirs⟩ := he.applyFiles hok hsafe b.files ⟨e, [], ⟨0, []⟩, []⟩ hb
  unfold SyncEngine.applyBundle
  rw [hrun]
  have hsame : SyncEngine.setDirMtimes h s.engine.tree s.dirMtimes = s.engine.tree := by
    simp [hdirs, SyncEngine.setDirMtimes]
  refine ⟨_, rfl, ⟨?_, ?_⟩, ?_⟩
  · simpa [hsame] using hs.writable
  · simpa using hs.no_tombstone
  · simpa [hsame] using htree

/-- Clamping changes stamps, not what is written. -/
theorem lastWritten_clampBundle (h : Host) (old : Option (FileNode Content)) (b : FileBundle) :
    lastWritten old (clampBundle h b).files = lastWritten old b.files := by
  unfold lastWritten clampBundle
  rw [List.getLast?_map]
  cases b.files.getLast? <;> rfl

theorem isLiveWrite_clampBundle {h : Host} {b : FileBundle} {p : PathBuf}
    (hb : ∀ fd ∈ b.files, ∃ w, IsLiveWrite p w fd) :
    ∀ fd ∈ (clampBundle h b).files, ∃ w, IsLiveWrite p w fd := by
  intro fd hfd
  obtain ⟨fd', hfd', rfl⟩ := List.mem_map.mp hfd
  obtain ⟨w, hw⟩ := hb fd' hfd'
  refine ⟨clampFutureStamp h w, hw.path, hw.file, ?_⟩
  simp [hw.live, clampFutureStampOpt]

/-- A bundle that a client sends to the server. -/
structure ClientBundle where
  host : Host
  clientId : String
  bundle : FileBundle

/-- The server takes it, in the drain as in the live loop. -/
def ClientBundle.apply (e : SyncEngine) (m : ClientBundle) : SyncEngine :=
  (applyClientAction m.host e m.clientId (.bundle m.bundle)).engine

theorem Unvetoed.applyClientAction {m : ClientBundle} (hok : ∀ op, m.host.fails op = false)
    {e : SyncEngine} {p : PathBuf} (hsafe : safeRelative p = true) (he : Unvetoed e p)
    (hm : ∀ fd ∈ m.bundle.files, ∃ w, IsLiveWrite p w fd) :
    Unvetoed (m.apply e) p ∧ (m.apply e).tree.get p = lastWritten (e.tree.get p) m.bundle.files := by
  have hclamped := isLiveWrite_clampBundle (h := m.host) (isLiveWrite_clampBundle (h := m.host) hm)
  obtain ⟨r, hr, hend, htree⟩ := he.applyBundle hok hsafe hclamped
  have heq : m.apply e =
      (e.applyBundle m.host (clampBundle m.host (clampBundle m.host m.bundle))).2 := by
    unfold ClientBundle.apply
    simp only [ByteHive.applyClientAction, SyncEngine.handleRecvBundle]
    split <;> simp_all
  rw [heq]
  refine ⟨hend, htree.trans ?_⟩
  rw [lastWritten_clampBundle, lastWritten_clampBundle]

theorem Unvetoed.deliver {p : PathBuf} (hsafe : safeRelative p = true) (ms : List ClientBundle)
    (hms : ∀ m ∈ ms, (∀ op, m.host.fails op = false) ∧
      ∀ fd ∈ m.bundle.files, ∃ w, IsLiveWrite p w fd)
    {e : SyncEngine} (he : Unvetoed e p) :
    (ms.foldl ClientBundle.apply e).tree.get p =
      lastWritten (e.tree.get p) (ms.flatMap (·.bundle.files)) := by
  induction ms generalizing e with
  | nil => rfl
  | cons m ms ih =>
    obtain ⟨hok, hm⟩ := hms m (by simp)
    obtain ⟨he', htree⟩ := he.applyClientAction hok hsafe hm
    rw [List.flatMap_cons, lastWritten_append, ← htree]
    exact ih (fun m' h' => hms m' (by simp [h'])) he'

/-- Among writes the last one delivered has the path; it is the newest exactly when the newest is
    delivered last. -/
theorem content_last_delivered {p : PathBuf} (hsafe : safeRelative p = true) (e : SyncEngine)
    (hwritable : Writable e.tree p) (hledger : ∀ q, q <+: p → e.ledger.entries.get q = none)
    (ms : List ClientBundle)
    (hms : ∀ m ∈ ms, (∀ op, m.host.fails op = false) ∧
      ∀ fd ∈ m.bundle.files, ∃ w, IsLiveWrite p w fd)
    (hcontents : ((ms.flatMap (·.bundle.files)).map (·.content)).Nodup) :
    let writes := ms.flatMap (·.bundle.files)
    let node := (ms.foldl ClientBundle.apply e).tree.get p
    (∀ fd, writes.getLast? = some fd → node = some (.file fd.content fd.metadata.modifiedMs)) ∧
    ∀ newest ∈ writes, (∀ fd ∈ writes, ∀ w w', fd.actionMs = some w → newest.actionMs = some w' →
        w ≤ w') →
      ((∃ m, node = some (.file newest.content m)) ↔ writes.getLast? = some newest) := by
  intro writes node
  have hnode : node = lastWritten (e.tree.get p) writes :=
    Unvetoed.deliver hsafe ms hms ⟨hwritable, hledger⟩
  have hlast : ∀ fd, writes.getLast? = some fd →
      node = some (.file fd.content fd.metadata.modifiedMs) := by
    intro fd hfd
    rw [hnode, lastWritten, hfd]
  refine ⟨hlast, fun newest hnewest _ => ⟨?_, fun h => ⟨_, hlast newest h⟩⟩⟩
  rintro ⟨m, hm⟩
  obtain ⟨fd, hfd⟩ := Option.ne_none_iff_exists'.mp
    (mt List.getLast?_eq_none_iff.mp (List.ne_nil_of_mem hnewest))
  have hsame : fd.content = newest.content := by
    have h := (hlast fd hfd).symm.trans hm
    simp only [Option.some.injEq, FileNode.file.injEq] at h
    exact h.1
  -- Only one write has this content.
  rw [hfd, List.inj_on_of_nodup_map hcontents (List.mem_of_getLast? hfd) hnewest hsame]

/-- Two clients' edits of `a`; the client that was offline delivers the older one last. -/
private def newerThenOlder : List ClientBundle :=
  [⟨steadyHost, "online", ⟨[writeOf 2 [2]], 0⟩⟩, ⟨steadyHost, "offline", ⟨[writeOf 1 [1]], 0⟩⟩]

private theorem live_newerThenOlder : ∀ m ∈ newerThenOlder, (∀ op, m.host.fails op = false) ∧
    ∀ fd ∈ m.bundle.files, ∃ w, IsLiveWrite (.ofNames ["a"]) w fd := by
  intro m hm
  simp only [newerThenOlder, List.mem_cons, List.not_mem_nil, or_false] at hm
  rcases hm with rfl | rfl
  · refine ⟨(fun _ => rfl), fun fd hfd => ⟨2, ?_⟩⟩
    rw [List.mem_singleton.mp hfd]
    exact ⟨rfl, rfl, rfl⟩
  · refine ⟨(fun _ => rfl), fun fd hfd => ⟨1, ?_⟩⟩
    rw [List.mem_singleton.mp hfd]
    exact ⟨rfl, rfl, rfl⟩

theorem content_last_delivered_older :
    (newerThenOlder.foldl ClientBundle.apply freshServer).tree.get (PathBuf.ofNames ["a"]) =
      some (.file [1] 1) :=
  (content_last_delivered (p := .ofNames ["a"]) (by decide +kernel) freshServer
    ⟨by decide, (fun _ _ _ => rfl), rfl⟩ (fun _ _ => rfl) newerThenOlder live_newerThenOlder
    (by decide)).1 (writeOf 1 [1]) rfl

/-- The newest write is not the one whose content stays. -/
theorem newest_write_overwritten :
    ∃ (p : PathBuf) (e : SyncEngine) (ms : List ClientBundle) (newest : FileData),
      safeRelative p = true ∧ Writable e.tree p ∧
      (∀ q, q <+: p → e.ledger.entries.get q = none) ∧
      (∀ m ∈ ms, (∀ op, m.host.fails op = false) ∧
        ∀ fd ∈ m.bundle.files, ∃ w, IsLiveWrite p w fd) ∧
      ((ms.flatMap (·.bundle.files)).map (·.actionMs)).Nodup ∧
      ((ms.flatMap (·.bundle.files)).map (·.content)).Nodup ∧
      newest ∈ ms.flatMap (·.bundle.files) ∧
      (∀ fd ∈ ms.flatMap (·.bundle.files), ∀ w w', fd.actionMs = some w →
        newest.actionMs = some w' → w ≤ w') ∧
      ¬ ∃ m, (ms.foldl ClientBundle.apply e).tree.get p = some (.file newest.content m) := by
  have hend : (newerThenOlder.foldl ClientBundle.apply freshServer).tree.get
      (PathBuf.ofNames ["a"]) = some (.file [1] 1) := by decide +kernel
  refine ⟨.ofNames ["a"], freshServer, newerThenOlder, writeOf 2 [2], by decide +kernel,
    ⟨by decide, (fun _ _ _ => rfl), rfl⟩, (fun _ _ => rfl), live_newerThenOlder, by decide,
    by decide, ?_, ?_, ?_⟩
  · simp [newerThenOlder]
  · intro fd hfd w w' hw hw'
    simp only [newerThenOlder, List.flatMap_cons, List.flatMap_nil, List.append_nil,
      List.mem_append, List.mem_singleton] at hfd
    rcases hfd with rfl | rfl <;> simp_all [writeOf]
    omega
  · rintro ⟨m, hm⟩
    rw [hend] at hm
    simp [writeOf] at hm

end ByteHive
