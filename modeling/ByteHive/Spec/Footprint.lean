import ByteHive.Spec.Confinement
import ByteHive.Spec.StampClamp

/-!
# The touched paths and the tree

Two results tie `Receiver.touches` to the engine: a message leaves the tree alone except at the
paths it touches and below them (`Receiver.unchanged_recv`), and an engine whose names are safe
stays one (`Receiver.rooted_recv`).
-/

namespace ByteHive

/-- The trees agree except at the paths `ps` and below them. -/
def Unchanged (ps : List PathBuf) (t t' : Tree) : Prop :=
  ∀ q, (∀ p ∈ ps, ¬ p <+: q) → t'.get q = t.get q

namespace Unchanged

theorem refl (ps : List PathBuf) (t : Tree) : Unchanged ps t t := fun _ _ => rfl

theorem mono {ps qs : List PathBuf} {t t' : Tree} (h : Unchanged ps t t') (hsub : ps ⊆ qs) :
    Unchanged qs t t' := fun q hq => h q fun p hp => hq p (hsub hp)

theorem append {ps qs : List PathBuf} {t t' t'' : Tree} (h : Unchanged ps t t')
    (h' : Unchanged qs t' t'') : Unchanged (ps ++ qs) t t'' := by
  intro q hq
  rw [h' q fun p hp => hq p (List.mem_append_right _ hp),
    h q fun p hp => hq p (List.mem_append_left _ hp)]

end Unchanged

/-! ## File-system calls -/

theorem unchanged_createDirAll {h : Host} {t t' : Tree} {p : PathBuf}
    (hc : h.createDirAll t p = some t') : Unchanged (dirsMade t p) t t' := by
  intro q hq
  unfold Host.createDirAll at hc
  split at hc
  · cases hc
  · rw [FileTree.get_createDirAll hc, if_neg]
    rintro ⟨hne, hpre, hnone⟩
    -- A directory that is made is on the list itself.
    refine hq q (List.mem_filter.mpr ⟨mem_ancestors.mpr ⟨hne, hpre⟩, ?_⟩) (List.prefix_refl q)
    simp [FileTree.pathExists, hne, hnone]

theorem unchanged_treeWrite {t t' : Tree} {p : PathBuf} {c : Content} {m : Nat}
    (hw : t.write p c m = some t') : Unchanged [p] t t' := by
  intro q hq
  rw [FileTree.get_write hw, if_neg]
  rintro rfl
  exact hq q (by simp) (List.prefix_refl q)

theorem unchanged_write {h : Host} {t t' : Tree} {p : PathBuf} {c : Content} {m : Nat}
    (hw : h.write t p c m = some t') : Unchanged [p] t t' := by
  unfold Host.write at hw
  split at hw
  · cases hw
  · exact unchanged_treeWrite hw

theorem unchanged_copy {h : Host} {t t' : Tree} {f g : PathBuf} (hc : h.copy t f g = some t') :
    Unchanged [f, g] t t' := by
  unfold Host.copy at hc
  split at hc
  · cases hc
  · split at hc
    · exact (unchanged_treeWrite hc).mono (by simp)
    · cases hc

theorem unchanged_rename {h : Host} {t t' : Tree} {f g : PathBuf} (hr : h.rename t f g = some t') :
    Unchanged [f, g] t t' := by
  intro q hq
  unfold Host.rename at hr
  split at hr
  · cases hr
  · have hf : ¬ f <+: q := hq f (by simp)
    have hg : ¬ g <+: q := hq g (by simp)
    by_cases hfg : f = g
    · unfold FileTree.rename at hr
      rw [if_pos hfg] at hr
      split at hr
      · rw [Option.some.inj hr]
      · cases hr
    · rw [FileTree.get_rename hfg hr, FileTree.movedGet, if_neg hg, if_neg hf]

theorem unchanged_moveToTrash (h : Host) (id : String) (t : Tree) (p : PathBuf) :
    Unchanged (trashTouches id t p) t (h.moveToTrash t p) := by
  intro q hq
  have hp : ¬ p <+: q := by
    refine hq p ?_
    unfold trashTouches
    split <;> simp
  unfold Host.moveToTrash
  split
  · rfl
  · rw [FileTree.get_removeTree, if_neg hp]

theorem unchanged_setDirMtimes (h : Host) (t : Tree) (dirMtimes : List (PathBuf × Nat)) :
    Unchanged (dirMtimes.map (·.1)) t (SyncEngine.setDirMtimes h t dirMtimes) := by
  have hfold : ∀ (ds : List (PathBuf × Nat)) (t : Tree), Unchanged (ds.map (·.1)) t (ds.foldl
      (fun t d => if h.fails (.setMtime d.1) then t else t.setMtime d.1 d.2) t) := by
    intro ds
    induction ds with
    | nil => exact fun t => .refl _ t
    | cons d ds ih =>
      intro t
      have hone : Unchanged [d.1] t
          (if h.fails (.setMtime d.1) then t else t.setMtime d.1 d.2) := by
        split
        · exact .refl _ t
        · intro q hq
          rw [FileTree.get_setMtime, if_neg]
          rintro rfl
          exact hq d.1 (by simp) (List.prefix_refl _)
      exact hone.append (ih _)
  refine (hfold _ t).mono fun p hp => ?_
  obtain ⟨d, hd, rfl⟩ := List.mem_map.mp hp
  exact List.mem_map_of_mem ((List.mem_insertionSort _).mp hd)

namespace SyncEngine

/-! ## Bundles -/

theorem unchanged_saveConflictCopy {h : Host} {e e' : SyncEngine} {rel : PathBuf}
    {ci : Option ConflictInfo} (hs : e.saveConflictCopy h rel = some (e', ci)) :
    Unchanged (e.copyTouches h rel rel) e.tree e'.tree := by
  unfold saveConflictCopy at hs
  dsimp only at hs
  split at hs
  · cases hs
  · next t ht =>
    have hdirs := unchanged_createDirAll ht
    split at hs
    · next t' ht' =>
      obtain ⟨rfl, -⟩ := Prod.mk.inj (Option.some.inj hs)
      exact hdirs.append (unchanged_copy ht')
    · obtain ⟨rfl, -⟩ := Prod.mk.inj (Option.some.inj hs)
      exact hdirs.mono (List.subset_append_left _ _)

theorem unchanged_writeEntry (h : Host) (t : Tree) (fd : FileData) :
    Unchanged (entryTouches h t fd) t (writeEntry h t fd).2 := by
  unfold writeEntry entryTouches
  split
  · split
    · next t' ht' => exact unchanged_createDirAll ht'
    · exact .refl _ t
  · cases hc : h.createDirAll t fd.metadata.relPath.dropLast with
    | none => exact .refl _ t
    | some t' =>
      have hdirs := unchanged_createDirAll hc
      simp only [Option.isSome_some, if_true]
      cases hw : h.write t' fd.metadata.relPath fd.content fd.metadata.modifiedMs with
      | none => exact hdirs.mono (List.subset_append_left _ _)
      | some t'' => exact hdirs.append (unchanged_write hw)

/-- One file of a bundle. -/
theorem unchanged_applyFile (h : Host) (s : BundleRun) (fd : FileData) :
    Unchanged (fileTouches h s.engine fd) s.engine.tree (applyFile h s fd).2.engine.tree := by
  unfold applyFile fileTouches
  dsimp only
  split
  · exact .refl _ _
  · split
    · exact .refl _ _
    · generalize he₁ : s.engine.admitRecord fd.metadata.relPath fd.actionMs
        fd.metadata.modifiedMs = e₁
      have htree : e₁.tree = s.engine.tree := by rw [← he₁, admitRecord_tree]
      rw [← htree]
      -- Both ways end with the write of the entry on the tree that the conflict copy leaves.
      have hwrite : ∀ (e : SyncEngine) (b : Bool) (s₁ s₂ : BundleRun),
          s₁.engine.tree = (writeEntry h e.tree fd).2 → s₂.engine.tree = (writeEntry h e.tree fd).2 →
          Unchanged (entryTouches h e.tree fd) e.tree
            (if b = true then (false, s₁) else (true, s₂)).2.engine.tree := by
        intro e b s₁ s₂ h₁ h₂
        split
        · rw [h₁]
          exact unchanged_writeEntry h e.tree fd
        · rw [h₂]
          exact unchanged_writeEntry h e.tree fd
      cases (!fd.metadata.isDir &&
        (e₁.detectConflict h fd.metadata.relPath fd.metadata.hash).isSome) with
      | false => exact (hwrite e₁ _ _ _ rfl rfl).mono (List.subset_append_right _ _)
      | true =>
        rw [if_pos rfl, if_pos rfl]
        cases hcopy : e₁.saveConflictCopy h fd.metadata.relPath with
        | none => exact .refl _ _
        | some r =>
          have hcopied := unchanged_saveConflictCopy hcopy
          refine (hcopied.append (hwrite r.1 _ _ _ rfl rfl)).mono ?_
          rw [List.append_assoc]
          exact List.subset_append_right _ _

theorem unchanged_applyFiles (h : Host) (s : BundleRun) (files : List FileData) :
    Unchanged (filesTouches h s files) s.engine.tree (applyFiles h s files).2.engine.tree := by
  induction files generalizing s with
  | nil => exact .refl _ _
  | cons fd rest ih =>
    have hfile := unchanged_applyFile h s fd
    obtain ⟨ok, s', heq⟩ : ∃ ok s', applyFile h s fd = (ok, s') := ⟨_, _, rfl⟩
    simp only [filesTouches, applyFiles, heq] at hfile ⊢
    cases ok with
    | true => exact hfile.append (ih s')
    | false => exact hfile.mono (List.subset_append_left _ _)

theorem unchanged_applyBundle (h : Host) (e : SyncEngine) (b : FileBundle) :
    Unchanged (e.bundleTouches h b) e.tree (e.applyBundle h b).2.tree := by
  have hfiles := unchanged_applyFiles h ⟨e, [], ⟨0, []⟩, []⟩ b.files
  obtain ⟨ok, s, heq⟩ : ∃ ok s, applyFiles h ⟨e, [], ⟨0, []⟩, []⟩ b.files = (ok, s) := ⟨_, _, rfl⟩
  simp only [applyBundle, bundleTouches, heq] at hfiles ⊢
  cases ok with
  | false => exact hfiles.mono (List.subset_append_left _ _)
  | true =>
    refine hfiles.append ?_
    rw [scheduleUnsuppress_tree]
    have hmtimes := unchanged_setDirMtimes h (s.engine.flushLedger h).tree s.dirMtimes
    rw [flushLedger_tree] at hmtimes ⊢
    exact hmtimes.mono (List.subset_append_right _ _)

/-! ## Deletes and renames -/

section

variable (trashId : PathBuf → String)

theorem unchanged_deleteTargets (h : Host) (guarded : List PathBuf) (s : DeleteRun)
    (gone targets : List PathBuf) :
    Unchanged (deleteTargetsTouches trashId h guarded s gone targets) s.engine.tree
      (deleteTargets h guarded s gone targets).engine.tree := by
  induction targets generalizing s gone with
  | nil => exact .refl _ _
  | cons target rest ih =>
    unfold deleteTargetsTouches deleteTargets
    split
    · exact ih s gone
    · split
      · exact (ih s gone).mono (List.subset_cons_self _ _)
      · exact (unchanged_moveToTrash h (trashId target) s.engine.tree target).append (ih _ _)

theorem unchanged_deletePath (h : Host) (t : Nat) (s : DeleteRun) (rel : PathBuf) :
    Unchanged (deletePathTouches trashId h t s rel) s.engine.tree
      (deletePath h t s rel).engine.tree := by
  unfold deletePathTouches deletePath
  split
  · exact .refl _ _
  · dsimp only
    split
    · exact unchanged_moveToTrash h (trashId rel) s.engine.tree rel
    · exact unchanged_deleteTargets trashId h _ s _ _

theorem unchanged_deletePaths (h : Host) (t : Nat) (s : DeleteRun) (paths : List PathBuf) :
    Unchanged (deletePathsTouches trashId h t s paths) s.engine.tree
      (paths.foldl (deletePath h t) s).engine.tree := by
  induction paths generalizing s with
  | nil => exact .refl _ _
  | cons rel rest ih => exact (unchanged_deletePath trashId h t s rel).append (ih _)

theorem unchanged_applyDeletes (h : Host) (e : SyncEngine) (paths : List PathBuf) (t : Nat)
    (d : String) :
    Unchanged (e.deletesTouches trashId h paths t d) e.tree (e.applyDeletes h paths t d).2.tree := by
  have hpaths := unchanged_deletePaths trashId h t ⟨e, [], [], 0⟩ paths
  unfold applyDeletes
  rw [scheduleUnsuppressDeletes_tree]
  split
  · exact hpaths.mono (List.subset_append_left _ _)
  · rw [flushLedger_tree]
    exact hpaths.mono (List.subset_append_left _ _)

theorem unchanged_moveRename (h : Host) (e : SyncEngine) (f g : PathBuf) :
    Unchanged (dirsMade e.tree g.dropLast ++ [f, g]) e.tree (e.moveRename h f g).2.tree := by
  unfold moveRename
  dsimp only
  cases hc : h.createDirAll e.tree g.dropLast with
  | none => exact .refl _ _
  | some t =>
    have hdirs := unchanged_createDirAll hc
    dsimp only
    split
    · exact hdirs.mono (List.subset_append_left _ _)
    · rw [scheduleUnsuppress_tree]
      cases hr : h.rename t f g with
      | none => exact hdirs.mono (List.subset_append_left _ _)
      | some t' => exact hdirs.append (unchanged_rename hr)

theorem unchanged_applyRenameAt (h : Host) (e : SyncEngine) (f g : PathBuf) (a : Nat) (d : String) :
    Unchanged (e.renameTouches trashId h f g a d) e.tree (e.applyRenameAt h f g a d).2.tree := by
  unfold renameTouches applyRenameAt
  split
  · exact .refl _ _
  · split
    · exact unchanged_applyDeletes trashId h e [f] a d
    · have htree : ((e.admitRecord g (some a) 0).flushLedger h).tree = e.tree := by simp
      rw [← htree]
      refine Unchanged.mono ?_ (List.subset_append_right _ _)
      generalize (e.admitRecord g (some a) 0).flushLedger h = e₁
      unfold moveTouches
      dsimp only
      split
      · unfold convergeRename
        split
        · dsimp only
          split
          · exact .refl _ _
          · rw [scheduleUnsuppress_tree]
            exact .refl _ _
        · exact .refl _ _
      · have hmove := unchanged_moveRename h e₁ f g
        cases hc : h.createDirAll e₁.tree g.dropLast with
        | none =>
          have hsame : (e₁.moveRename h f g).2.tree = e₁.tree := by simp [moveRename, hc]
          rw [hsame]
          exact .refl _ _
        | some t =>
          refine hmove.mono (List.append_subset.mpr ⟨?_, ?_⟩)
          · intro p hp
            simp [hp]
          · intro p hp
            have hp' : p = f ∨ p = g := by simpa using hp
            rcases hp' with rfl | rfl <;> simp

end

/-! ## Large files -/

theorem unchanged_beginLargeFile (h : Host) (e : SyncEngine) (md : FileMetadata) (n : UInt32)
    (a : Option Nat) :
    Unchanged (e.beginTouches h md a) e.tree (e.beginLargeFileWithAction h md n a).2.tree := by
  unfold beginTouches beginLargeFileWithAction
  dsimp only
  split
  · exact .refl _ _
  · split
    · exact .refl _ _
    · have htree : ((e.admitRecord md.relPath a md.modifiedMs).flushLedger h).tree = e.tree := by simp
      rw [← htree]
      generalize (e.admitRecord md.relPath a md.modifiedMs).flushLedger h = e₁
      cases hc : h.createDirAll e₁.tree md.relPath.dropLast with
      | none => exact .refl _ _
      | some t =>
        have hdirs := unchanged_createDirAll hc
        rw [List.append_assoc]
        dsimp only
        refine Unchanged.mono ?_ (List.subset_append_right _ _)
        refine Unchanged.mono ?_ (List.subset_append_left _ _)
        split
        · exact hdirs
        · split
          · exact hdirs
          · exact hdirs

@[simp] theorem tree_receiveLargeFileChunk (h : Host) (e : SyncEngine) (p : PathBuf) (i : UInt32)
    (data : Content) : (e.receiveLargeFileChunk h p i data).2.tree = e.tree := by
  unfold receiveLargeFileChunk
  split
  · rfl
  · split
    · rfl
    · split
      · rfl
      · dsimp only
        split
        · split <;> rfl
        · rfl

theorem unchanged_saveCommitConflict (h : Host) (e : SyncEngine) (p dst : PathBuf) :
    Unchanged (e.copyTouches h p dst) e.tree (e.saveCommitConflict h p dst).2.tree := by
  have hdirs : Unchanged (dirsMade e.tree (conflictCopyName p e.nodeId h.unixSecs).dropLast) e.tree
      ((h.createDirAll e.tree (conflictCopyName p e.nodeId h.unixSecs).dropLast).getD e.tree) := by
    cases hc : h.createDirAll e.tree (conflictCopyName p e.nodeId h.unixSecs).dropLast with
    | none => exact .refl _ _
    | some t => exact unchanged_createDirAll hc
  unfold saveCommitConflict
  dsimp only
  split
  · next t' ht' => exact hdirs.append (unchanged_copy ht')
  · exact hdirs.mono (List.subset_append_left _ _)

theorem unchanged_installLargeFile (h : Host) (e : SyncEngine) (p : PathBuf)
    (asm : LargeFileAssembly) (fh : Hash) (c : Content) :
    Unchanged (e.installTouches h p asm fh) e.tree (e.installLargeFile h p asm fh c).2.tree := by
  have hsaved : Unchanged
      (if e.commitConflict h p asm.dst fh then e.copyTouches h p asm.dst else []) e.tree
      (if e.commitConflict h p asm.dst fh then e.saveCommitConflict h p asm.dst else (none, e)).2.tree := by
    split
    · exact unchanged_saveCommitConflict h e p asm.dst
    · exact .refl _ _
  unfold installLargeFile installTouches
  rw [List.append_assoc]
  refine Unchanged.mono ?_ (List.subset_append_right _ _)
  dsimp only
  generalize (if e.commitConflict h p asm.dst fh then e.copyTouches h p asm.dst else []) = ps
    at hsaved ⊢
  generalize (if e.commitConflict h p asm.dst fh then e.saveCommitConflict h p asm.dst
    else (none, e)) = r at hsaved ⊢
  cases hw : if h.fails (.install asm.dst) then none else r.2.tree.write asm.dst c
      (if h.fails (.setMtime asm.dst) then h.nowMs else asm.modifiedMs) with
  | none => exact hsaved.mono (List.subset_append_left _ _)
  | some t =>
    rw [scheduleUnsuppress_tree]
    split at hw
    · cases hw
    · exact hsaved.append ((unchanged_treeWrite hw).mono (by simp))

theorem unchanged_commitLargeFile (h : Host) (e : SyncEngine) (p : PathBuf) (fh : Hash) :
    Unchanged (e.commitTouches h p fh) e.tree (e.commitLargeFile h p fh).2.tree := by
  cases hasm : e.inProgress.get p with
  | none =>
    simp only [commitLargeFile, hasm]
    exact .refl _ _
  | some asm =>
    simp only [commitTouches, commitLargeFile, hasm]
    split
    · exact .refl _ _
    · have htree : ((({ e with inProgress := e.inProgress.erase p } : SyncEngine).admitRecord p
          asm.actionMs asm.modifiedMs).flushLedger h).tree = e.tree := by simp
      refine Unchanged.mono ?_ (List.subset_append_right _ _)
      generalize (({ e with inProgress := e.inProgress.erase p } : SyncEngine).admitRecord p
        asm.actionMs asm.modifiedMs).flushLedger h = e₁ at htree ⊢
      rw [← htree]
      cases e₁.staging.get asm.tmp with
      | none => exact .refl _ _
      | some c =>
        dsimp only
        split
        · exact .refl _ _
        · split
          · exact .refl _ _
          · exact unchanged_installLargeFile h e₁ p asm fh c

theorem unchanged_finishLargeFile (h : Host) (e : SyncEngine) (p : PathBuf) (fh : Hash) :
    Unchanged (e.endTouches h p fh) e.tree (e.finishLargeFile h p fh).2.tree := by
  cases hasm : e.inProgress.get p with
  | none =>
    simp only [finishLargeFile, hasm]
    exact .refl _ _
  | some asm =>
    simp only [endTouches, finishLargeFile, hasm]
    split
    · exact .refl _ _
    · exact unchanged_commitLargeFile h e p fh

/-- A chunk, and the commit when it completes the file. -/
theorem unchanged_commit_after_chunk {h : Host} {e e' : SyncEngine} {p : PathBuf} {i : UInt32}
    {data : Content} {hash : Hash}
    (hr : e.receiveLargeFileChunk h p i data = (some (.readyToCommit hash), e')) :
    Unchanged (e.chunkTouches h p i data) e.tree (e'.commitLargeFile h p hash).2.tree := by
  have htree : e'.tree = e.tree := by rw [← tree_receiveLargeFileChunk h e p i data, hr]
  have hcommit := unchanged_commitLargeFile h e' p hash
  rw [htree] at hcommit
  unfold chunkTouches
  split
  · next hnone => simp [receiveLargeFileChunk, hnone] at hr
  · rw [hr]
    exact hcommit.mono (List.subset_cons_self _ _)

theorem unchanged_chunk {h : Host} {e e' : SyncEngine} {p : PathBuf} {i : UInt32} {data : Content}
    {r : Option ChunkResult} (hr : e.receiveLargeFileChunk h p i data = (r, e')) :
    Unchanged (e.chunkTouches h p i data) e.tree e'.tree := by
  have htree : e'.tree = e.tree := by rw [← tree_receiveLargeFileChunk h e p i data, hr]
  rw [htree]
  exact .refl _ _

theorem unchanged_handleRecvLargeFileChunk (h : Host) (e : SyncEngine) (p : PathBuf) (i : UInt32)
    (data : Content) :
    Unchanged (e.chunkTouches h p i data) e.tree (e.handleRecvLargeFileChunk h p i data).2.tree := by
  unfold handleRecvLargeFileChunk
  split
  · next hr => exact unchanged_chunk hr
  · next hr => exact unchanged_chunk hr
  · next hash e' hr =>
    have hcommit := unchanged_commit_after_chunk hr
    split
    · next hc => rwa [hc] at hcommit
    · next hc => rwa [hc] at hcommit

end SyncEngine

/-! ## Sessions -/

namespace Receiver

open SyncEngine

theorem unchanged_applyClientAction (trashId : PathBuf → String) (h : Host) (e : SyncEngine)
    (clientId : String) (m : Message) :
    Unchanged (e.touches trashId h clientId (m.clamp h)) e.tree
      (applyClientAction h e clientId m).engine.tree := by
  cases m with
  | bundle b =>
    have hb := unchanged_applyBundle h e (clampBundle h b)
    simp only [applyClientAction, handleRecvBundle, clampBundle_idem]
    split
    · next hr => rwa [hr] at hb
    · next hr => rwa [hr] at hb
  | delete paths t d =>
    have hd := unchanged_applyDeletes trashId h e paths (clampFutureStamp h t) d
    simp only [applyClientAction, handleRecvDeleteWithMeta, clampFutureStamp_idem]
    exact hd
  | largeFileStart md n a =>
    have hs := unchanged_beginLargeFile h e md n (clampFutureStampOpt h a)
    simp only [applyClientAction, handleRecvLargeFileStart, clampFutureStampOpt_idem]
    split
    · next hr => rwa [hr] at hs
    · next hr => rwa [hr] at hs
  | largeFileChunk p i data =>
    have hp := unchanged_handleRecvLargeFileChunk h e p i data
    simp only [applyClientAction]
    split
    · next hr => rwa [hr] at hp
    · next hr => rwa [hr] at hp
  | largeFileEnd p fh =>
    have hp := unchanged_finishLargeFile h e p fh
    simp only [applyClientAction, handleRecvLargeFileEnd]
    split
    · next hr => rwa [hr] at hp
    · next hr => rwa [hr] at hp
    · next hr => rwa [hr] at hp
  | rename f g a =>
    have hr := unchanged_applyRenameAt trashId h e f g (clampFutureStamp h a) clientId
    simp only [applyClientAction, handleRecvRename, clampFutureStamp_idem]
    split
    · next heq => rwa [heq] at hr
    · next heq => rwa [heq] at hr
  | actionBatchEnd n => exact .refl _ _
  | actionBatchAck n => exact .refl _ _

theorem unchanged_applyInitialUpload (trashId : PathBuf → String) (h : Host) (e : SyncEngine)
    (m : Message) :
    Unchanged (initialTouches trashId h e m) e.tree (applyInitialUpload h e m).2.engine.tree := by
  cases m with
  | bundle b =>
    have hb := unchanged_applyBundle h e b
    simp only [applyInitialUpload]
    split
    · next hr => rwa [hr] at hb
    · next hr => rwa [hr] at hb
  | delete paths t d => exact unchanged_applyDeletes trashId h e paths (clampFutureStamp h t) d
  | largeFileStart md n a =>
    have hs := unchanged_beginLargeFile h e md n a
    simp only [applyInitialUpload]
    split
    · next hr => rwa [hr] at hs
    · next hr => rwa [hr] at hs
  | largeFileChunk p i data =>
    simp only [applyInitialUpload]
    split
    · next hr => exact unchanged_commit_after_chunk hr
    · next hr => exact unchanged_chunk hr
    · next hr => exact unchanged_chunk hr
  | largeFileEnd p fh =>
    have hp := unchanged_finishLargeFile h e p fh
    simp only [applyInitialUpload]
    split
    · next hr => rwa [hr] at hp
    · next hr => rwa [hr] at hp
    · next hr => rwa [hr] at hp
  | rename f g a => exact .refl _ _
  | actionBatchEnd n => exact .refl _ _
  | actionBatchAck n => exact .refl _ _

/-- The client does with a message of the initial sync what the server does. -/
theorem recvDownload_eq (h : Host) (e : SyncEngine) (m : Message) :
    (e.recvDownload h m).2 = (applyInitialUpload h e m).2.engine := by
  cases m <;> simp only [recvDownload, applyInitialUpload]
  all_goals (repeat' split) <;> simp_all

theorem recvLive_eq (h : Host) (e : SyncEngine) (m : Message) :
    e.recvLive h m = (applyClientAction h e "server" m).engine := by
  cases m <;>
    simp only [recvLive, applyClientAction, handleRecvBundle, handleRecvLargeFileStart,
      handleRecvDeleteWithMeta, handleRecvRename, clampBundle_idem, clampFutureStampOpt_idem,
      clampFutureStamp_idem]
  all_goals (repeat' split) <;> simp_all

theorem unchanged_recvAction (trashId : PathBuf → String) (h : Host) (r : Receiver)
    (clientId : String) (m : Message) :
    Unchanged (r.engine.touches trashId h clientId (m.clamp h)) r.engine.tree
      (r.recvAction h clientId m).1.engine.tree := by
  have haction := unchanged_applyClientAction trashId h r.engine clientId m
  cases m with
  | actionBatchEnd n =>
    simp only [recvAction, flushLedger_tree]
    exact .refl _ _
  | actionBatchAck n => exact .refl _ _
  | _ => exact haction

/-- A message leaves the tree alone except at what it touches. -/
theorem unchanged_recv (trashId : PathBuf → String) (h : Host) (r : Receiver) (m : PathMessage) :
    Unchanged (r.touches trashId h m) r.engine.tree
      (r.recv h m.toPeerMessage).1.engine.tree := by
  obtain ⟨side, phase, e⟩ := r
  cases m with
  | requestChunks path is => cases side <;> cases phase <;> exact .refl _ _
  | action m =>
    cases phase with
    | ledger => cases side <;> exact .refl _ _
    | closed => cases side <;> exact .refl _ _
    | drain =>
      cases side with
      | server clientId => exact unchanged_recvAction trashId h ⟨_, _, e⟩ clientId m
      | client => cases m <;> exact .refl _ _
    | initial locl remote =>
      cases side with
      | server clientId => exact unchanged_applyInitialUpload trashId h e m
      | client =>
        have hdown := unchanged_applyInitialUpload trashId h e m
        rw [← recvDownload_eq] at hdown
        exact hdown
    | live =>
      cases side with
      | server clientId => exact unchanged_recvAction trashId h ⟨_, _, e⟩ clientId m
      | client =>
        have hlive := unchanged_applyClientAction trashId h e "server" m
        rw [← recvLive_eq] at hlive
        cases m with
        | actionBatchEnd n => exact .refl _ _
        | _ => exact hlive

end Receiver

/-! ## Safe names -/

theorem PlainPaths.createDirAll {h : Host} {t t' : Tree} {p : PathBuf} (ht : PlainPaths t)
    (hp : safeRelative p = true) (hc : h.createDirAll t p = some t') : PlainPaths t' := by
  intro q n hq
  unfold Host.createDirAll at hc
  split at hc
  · cases hc
  · rw [FileTree.get_createDirAll hc] at hq
    split at hq
    · next hmade => exact safeRelative_of_below hmade.2.1 hp
    · exact ht q n hq

theorem PlainPaths.treeWrite {t t' : Tree} {p : PathBuf} {c : Content} {m : Nat} (ht : PlainPaths t)
    (hp : safeRelative p = true) (hw : t.write p c m = some t') : PlainPaths t' := by
  intro q n hq
  rw [FileTree.get_write hw] at hq
  split at hq
  · next hqp =>
    rw [hqp]
    exact hp
  · exact ht q n hq

theorem PlainPaths.write {h : Host} {t t' : Tree} {p : PathBuf} {c : Content} {m : Nat}
    (ht : PlainPaths t) (hp : safeRelative p = true) (hw : h.write t p c m = some t') :
    PlainPaths t' := by
  unfold Host.write at hw
  split at hw
  · cases hw
  · exact ht.treeWrite hp hw

theorem PlainPaths.copy {h : Host} {t t' : Tree} {f g : PathBuf} (ht : PlainPaths t)
    (hg : safeRelative g = true) (hc : h.copy t f g = some t') : PlainPaths t' := by
  unfold Host.copy at hc
  split at hc
  · cases hc
  · split at hc
    · exact ht.treeWrite hg hc
    · cases hc

theorem PlainPaths.rename {h : Host} {t t' : Tree} {f g : PathBuf} (ht : PlainPaths t)
    (hg : safeRelative g = true) (hr : h.rename t f g = some t') : PlainPaths t' := by
  unfold Host.rename at hr
  split at hr
  · cases hr
  · by_cases hfg : f = g
    · unfold FileTree.rename at hr
      rw [if_pos hfg] at hr
      split at hr
      · rw [← Option.some.inj hr]
        exact ht
      · cases hr
    · intro q n hq
      rw [FileTree.get_rename hfg hr, FileTree.movedGet] at hq
      split at hq
      · next hgq =>
        -- What moved keeps its names below the new one.
        obtain ⟨r, rfl⟩ := hgq
        rw [List.drop_left] at hq
        exact safeRelative_append.mpr ⟨hg, (safeRelative_append.mp (ht _ n hq)).2⟩
      · split at hq
        · cases hq
        · exact ht q n hq

theorem PlainPaths.moveToTrash {t : Tree} (ht : PlainPaths t) (h : Host) (p : PathBuf) :
    PlainPaths (h.moveToTrash t p) := by
  intro q n hq
  unfold Host.moveToTrash at hq
  split at hq
  · exact ht q n hq
  · rw [FileTree.get_removeTree] at hq
    split at hq
    · cases hq
    · exact ht q n hq

theorem PlainPaths.setDirMtimes {t : Tree} (ht : PlainPaths t) (h : Host)
    (dirMtimes : List (PathBuf × Nat)) : PlainPaths (SyncEngine.setDirMtimes h t dirMtimes) := by
  unfold SyncEngine.setDirMtimes
  generalize dirMtimes.insertionSort (fun a b => b.1.length ≤ a.1.length) = ds
  induction ds generalizing t with
  | nil => exact ht
  | cons d ds ih =>
    rw [List.foldl_cons]
    refine ih ?_
    split
    · exact ht
    · intro q n hq
      rw [FileTree.get_setMtime] at hq
      split at hq
      · next hqd =>
        obtain ⟨n₀, hn₀, -⟩ := Option.map_eq_some_iff.mp hq
        rw [hqd]
        exact ht _ n₀ hn₀
      · exact ht q n hq

theorem PlainPaths.writeEntry {t : Tree} (ht : PlainPaths t) (h : Host) {fd : FileData}
    (hrel : safeRelative fd.metadata.relPath = true) : PlainPaths (SyncEngine.writeEntry h t fd).2 := by
  unfold SyncEngine.writeEntry
  split
  · split
    · next t' ht' => exact ht.createDirAll hrel ht'
    · exact ht
  · split
    · exact ht
    · next t' ht' =>
      have hdirs := ht.createDirAll (safeRelative_dropLast hrel) ht'
      split
      · next t'' ht'' => exact hdirs.write hrel ht''
      · exact hdirs

namespace SyncEngine

theorem Rooted.congr {e e' : SyncEngine} (he : e.Rooted) (htree : e'.tree = e.tree)
    (hmanifest : e'.manifest = e.manifest) (htransfers : e'.inProgress = e.inProgress) :
    e'.Rooted := by
  refine ⟨?_, ?_, ?_⟩
  · rw [htree]
    exact he.tree
  · rw [hmanifest]
    exact he.manifest
  · intro p asm hasm
    rw [htransfers] at hasm
    exact he.transfers p asm hasm

theorem Rooted.admitRecord {e : SyncEngine} (he : e.Rooted) (p : PathBuf) (a : Option Nat)
    (m : Nat) : (e.admitRecord p a m).Rooted :=
  he.congr (admitRecord_tree e p a m) (admitRecord_manifest e p a m) (admitRecord_inProgress e p a m)

theorem Rooted.flushLedger {e : SyncEngine} (he : e.Rooted) (h : Host) : (e.flushLedger h).Rooted :=
  he.congr (flushLedger_tree h e) (flushLedger_manifest h e) (flushLedger_inProgress h e)

theorem Rooted.scheduleUnsuppress {e : SyncEngine} (he : e.Rooted) (ps : List PathBuf) :
    (e.scheduleUnsuppress ps).Rooted :=
  he.congr (scheduleUnsuppress_tree e ps) (scheduleUnsuppress_manifest e ps)
    (scheduleUnsuppress_inProgress e ps)

theorem SafeKeys.insert {m : Manifest} (hm : SafeKeys m) {p : PathBuf}
    (hp : safeRelative p = true) (fm : FileMetadata) :
    SafeKeys { m with files := m.files.insert p fm } := by
  intro q hq
  rw [FinMap.get_insert] at hq
  split at hq
  · next hqp =>
    rw [hqp]
    exact hp
  · exact hm q hq

theorem SafeKeys.erase {m : Manifest} (hm : SafeKeys m) (p : PathBuf) :
    SafeKeys { m with files := m.files.erase p } := by
  intro q hq
  rw [FinMap.get_erase] at hq
  split at hq
  · cases hq
  · exact hm q hq

/-! ### Bundles -/

theorem Rooted.saveConflictCopy {h : Host} {e e' : SyncEngine} {rel : PathBuf}
    {ci : Option ConflictInfo} (he : e.Rooted) (hrel : safeRelative rel = true)
    (hs : e.saveConflictCopy h rel = some (e', ci)) : e'.Rooted := by
  have hcopy := (named_conflictCopyName hrel e.nodeId h.unixSecs).safe
  unfold SyncEngine.saveConflictCopy at hs
  dsimp only at hs
  split at hs
  · cases hs
  · next t ht =>
    have hdirs := he.tree.createDirAll (safeRelative_dropLast hcopy) ht
    split at hs
    · next t' ht' =>
      obtain ⟨rfl, -⟩ := Prod.mk.inj (Option.some.inj hs)
      exact ⟨hdirs.copy hcopy ht', he.manifest, he.transfers⟩
    · obtain ⟨rfl, -⟩ := Prod.mk.inj (Option.some.inj hs)
      exact ⟨hdirs, he.manifest, he.transfers⟩

theorem Rooted.applyFile {s : BundleRun} (hs : s.engine.Rooted) (h : Host) (fd : FileData) :
    (applyFile h s fd).2.engine.Rooted := by
  unfold SyncEngine.applyFile
  dsimp only
  split
  · exact hs
  · next hsafe =>
    have hrel : safeRelative fd.metadata.relPath = true := by simpa using hsafe
    have hadm := hs.admitRecord fd.metadata.relPath fd.actionMs fd.metadata.modifiedMs
    split
    · exact hs
    · split
      · exact hadm
      · next e ci hc =>
        have he : e.Rooted := by
          split at hc
          · exact hadm.saveConflictCopy hrel hc
          · obtain ⟨rfl, -⟩ := Prod.mk.inj (Option.some.inj hc)
            exact hadm
        have htree := he.tree.writeEntry h hrel
        split
        · exact ⟨htree, he.manifest, he.transfers⟩
        · exact ⟨htree, he.manifest.insert hrel _, he.transfers⟩

theorem Rooted.applyFiles {s : BundleRun} (hs : s.engine.Rooted) (h : Host)
    (files : List FileData) : (applyFiles h s files).2.engine.Rooted := by
  induction files generalizing s with
  | nil => exact hs
  | cons fd rest ih =>
    have hstep := hs.applyFile h fd
    unfold SyncEngine.applyFiles
    split
    · next s' heq =>
      rw [heq] at hstep
      exact ih hstep
    · next s' heq =>
      rw [heq] at hstep
      exact hstep

theorem Rooted.applyBundle {e : SyncEngine} (he : e.Rooted) (h : Host) (b : FileBundle) :
    (e.applyBundle h b).2.Rooted := by
  have hstart : (⟨e, [], ⟨0, []⟩, []⟩ : BundleRun).engine.Rooted := he
  have hfiles := hstart.applyFiles h b.files
  unfold SyncEngine.applyBundle
  split
  · next s heq =>
    rw [heq] at hfiles
    exact hfiles
  · next s heq =>
    rw [heq] at hfiles
    have hflushed := hfiles.flushLedger h
    refine Rooted.scheduleUnsuppress ?_ _
    exact ⟨hflushed.tree.setDirMtimes h _, hflushed.manifest, hflushed.transfers⟩

/-! ### Deletes and renames -/

theorem Rooted.deleteTargets {s : DeleteRun} (hs : s.engine.Rooted) (h : Host)
    (guarded gone targets : List PathBuf) :
    (deleteTargets h guarded s gone targets).engine.Rooted := by
  induction targets generalizing s gone with
  | nil => exact hs
  | cons target rest ih =>
    unfold SyncEngine.deleteTargets
    split
    · exact ih hs _
    · split
      · exact ih hs _
      · refine ih ?_ _
        exact ⟨hs.tree.moveToTrash h target, hs.manifest.filter _, hs.transfers⟩

theorem Rooted.deletePath {s : DeleteRun} (hs : s.engine.Rooted) (h : Host) (t : Nat)
    (rel : PathBuf) : (deletePath h t s rel).engine.Rooted := by
  unfold SyncEngine.deletePath
  split
  · exact hs
  · dsimp only
    split
    · exact ⟨hs.tree.moveToTrash h rel, hs.manifest.filter _, hs.transfers⟩
    · exact hs.deleteTargets h _ _ _

theorem Rooted.applyDeletes {e : SyncEngine} (he : e.Rooted) (h : Host) (paths : List PathBuf)
    (t : Nat) (d : String) : (e.applyDeletes h paths t d).2.Rooted := by
  have hfold : ∀ (paths : List PathBuf) (s : DeleteRun), s.engine.Rooted →
      (paths.foldl (SyncEngine.deletePath h t) s).engine.Rooted := by
    intro paths
    induction paths with
    | nil => exact fun _ hs => hs
    | cons p rest ih => exact fun s hs => ih _ (hs.deletePath h t p)
  have hrun := hfold paths ⟨e, [], [], 0⟩ he
  have hschedule : ∀ (e : SyncEngine) ps, e.Rooted → (e.scheduleUnsuppressDeletes ps).Rooted := by
    intro e ps he
    refine he.congr (scheduleUnsuppressDeletes_tree e ps) (scheduleUnsuppressDeletes_manifest e ps) ?_
    unfold scheduleUnsuppressDeletes
    split <;> rfl
  unfold SyncEngine.applyDeletes
  refine hschedule _ _ ?_
  split
  · exact hrun
  · refine Rooted.flushLedger ?_ h
    exact hrun.congr rfl rfl rfl

theorem SafeKeys.remapEntry {m : Manifest} (hm : SafeKeys m) (refresh : FileMetadata → Bool)
    (t : Tree) {pair : PathBuf × PathBuf} (hpair : safeRelative pair.2 = true) :
    SafeKeys (remapEntry refresh t m pair) := by
  unfold SyncEngine.remapEntry
  split
  · exact hm
  · exact (hm.erase pair.1).insert hpair _

theorem SafeKeys.remapEntries {m : Manifest} (hm : SafeKeys m) (refresh : FileMetadata → Bool)
    (t : Tree) {pairs : List (PathBuf × PathBuf)}
    (hpairs : ∀ pr ∈ pairs, safeRelative pr.2 = true) :
    SafeKeys (pairs.foldl (SyncEngine.remapEntry refresh t) m) := by
  induction pairs generalizing m with
  | nil => exact hm
  | cons pr pairs ih =>
    exact ih (hm.remapEntry refresh t (hpairs pr (by simp))) fun pr' h => hpairs pr' (by simp [h])

theorem Rooted.applyRenameAt {e : SyncEngine} (he : e.Rooted) (h : Host) (f g : PathBuf) (a : Nat)
    (d : String) : (e.applyRenameAt h f g a d).2.Rooted := by
  unfold SyncEngine.applyRenameAt
  split
  · exact he
  · next hsafe =>
    simp only [Bool.or_eq_true, Bool.not_eq_true', not_or, Bool.not_eq_false] at hsafe
    split
    · exact he.applyDeletes h [f] a d
    · have he₁ := (he.admitRecord g (some a) 0).flushLedger h
      have hpairs := safe_remapPairs h he₁.manifest f hsafe.2
      generalize (e.admitRecord g (some a) 0).flushLedger h = e₁ at he₁ hpairs ⊢
      dsimp only
      split
      · unfold convergeRename
        split
        · dsimp only
          split
          · exact he₁
          · refine Rooted.scheduleUnsuppress ?_ _
            exact ⟨he₁.tree, he₁.manifest.remapEntries _ _ hpairs, he₁.transfers⟩
        · exact he₁
      · unfold moveRename
        dsimp only
        split
        · exact ⟨he₁.tree, he₁.manifest, he₁.transfers⟩
        · next t ht =>
          have hdirs := he₁.tree.createDirAll (safeRelative_dropLast hsafe.2) ht
          split
          · exact ⟨hdirs, he₁.manifest, he₁.transfers⟩
          · refine Rooted.scheduleUnsuppress ?_ _
            refine ⟨?_, he₁.manifest.remapEntries _ _ hpairs, he₁.transfers⟩
            cases hr : h.rename t f g with
            | none => exact hdirs
            | some t' => exact hdirs.rename hsafe.2 hr

/-! ### Large files -/

theorem Rooted.beginLargeFile {e : SyncEngine} (he : e.Rooted) (h : Host) (md : FileMetadata)
    (n : UInt32) (a : Option Nat) : (e.beginLargeFileWithAction h md n a).2.Rooted := by
  unfold beginLargeFileWithAction
  dsimp only
  split
  · exact he
  · next hsafe =>
    have hrel : safeRelative md.relPath = true := by simpa using hsafe
    split
    · exact he
    · have he₁ := (he.admitRecord md.relPath a md.modifiedMs).flushLedger h
      generalize (e.admitRecord md.relPath a md.modifiedMs).flushLedger h = e₁ at he₁ ⊢
      split
      · exact he₁
      · next t ht =>
        have hdirs := he₁.tree.createDirAll (safeRelative_dropLast hrel) ht
        split
        · exact ⟨hdirs, he₁.manifest, he₁.transfers⟩
        · split
          · exact ⟨hdirs, he₁.manifest, he₁.transfers⟩
          · refine ⟨hdirs, he₁.manifest, fun q asm hasm => ?_⟩
            dsimp only at hasm
            rw [FinMap.get_insert] at hasm
            split at hasm
            · next hq =>
              obtain rfl := Option.some.inj hasm
              rw [hq]
              exact ⟨hrel, rfl⟩
            · exact he₁.transfers q asm hasm

theorem Rooted.receiveLargeFileChunk {e : SyncEngine} (he : e.Rooted) (h : Host) (p : PathBuf)
    (i : UInt32) (data : Content) : (e.receiveLargeFileChunk h p i data).2.Rooted := by
  refine ⟨?_, ?_, he.transfers.receiveLargeFileChunk p i data⟩
  · rw [tree_receiveLargeFileChunk]
    exact he.tree
  · have hmanifest : (e.receiveLargeFileChunk h p i data).2.manifest = e.manifest := by
      unfold SyncEngine.receiveLargeFileChunk
      split
      · rfl
      · split
        · rfl
        · split
          · rfl
          · dsimp only
            split
            · split <;> rfl
            · rfl
    rw [hmanifest]
    exact he.manifest

theorem Rooted.saveCommitConflict {e : SyncEngine} (he : e.Rooted) (h : Host) {p : PathBuf}
    (hp : safeRelative p = true) (dst : PathBuf) : (e.saveCommitConflict h p dst).2.Rooted := by
  have hcopy := (named_conflictCopyName hp e.nodeId h.unixSecs).safe
  have hdirs : PlainPaths ((h.createDirAll e.tree
      (conflictCopyName p e.nodeId h.unixSecs).dropLast).getD e.tree) := by
    cases hc : h.createDirAll e.tree (conflictCopyName p e.nodeId h.unixSecs).dropLast with
    | none => exact he.tree
    | some t => exact he.tree.createDirAll (safeRelative_dropLast hcopy) hc
  unfold SyncEngine.saveCommitConflict
  dsimp only
  split
  · next t' ht' => exact ⟨hdirs.copy hcopy ht', he.manifest, he.transfers⟩
  · exact ⟨hdirs, he.manifest, he.transfers⟩

theorem Rooted.installLargeFile {e : SyncEngine} (he : e.Rooted) (h : Host) {p : PathBuf}
    (hp : safeRelative p = true) {asm : LargeFileAssembly} (hdst : asm.dst = p) (fh : Hash)
    (c : Content) : (e.installLargeFile h p asm fh c).2.Rooted := by
  have hsaved : (if e.commitConflict h p asm.dst fh then e.saveCommitConflict h p asm.dst
      else (none, e)).2.Rooted := by
    split
    · exact he.saveCommitConflict h hp asm.dst
    · exact he
  unfold SyncEngine.installLargeFile
  dsimp only
  generalize (if e.commitConflict h p asm.dst fh then e.saveCommitConflict h p asm.dst
    else (none, e)) = r at hsaved ⊢
  cases hw : if h.fails (.install asm.dst) then none else r.2.tree.write asm.dst c
      (if h.fails (.setMtime asm.dst) then h.nowMs else asm.modifiedMs) with
  | none => exact hsaved
  | some t =>
    dsimp only
    refine Rooted.scheduleUnsuppress ?_ _
    split at hw
    · cases hw
    · refine ⟨hsaved.tree.treeWrite ?_ hw, hsaved.manifest.insert hp _, hsaved.transfers⟩
      rw [hdst]
      exact hp

theorem Rooted.commitLargeFile {e : SyncEngine} (he : e.Rooted) (h : Host) (p : PathBuf)
    (fh : Hash) : (e.commitLargeFile h p fh).2.Rooted := by
  unfold SyncEngine.commitLargeFile
  split
  · exact he
  · next asm hasm =>
    obtain ⟨hp, hdst⟩ := he.transfers p asm hasm
    have herased : ({ e with inProgress := e.inProgress.erase p } : SyncEngine).Rooted := by
      refine ⟨he.tree, he.manifest, fun q asm' hq => ?_⟩
      dsimp only at hq
      rw [FinMap.get_erase] at hq
      split at hq
      · cases hq
      · exact he.transfers q asm' hq
    have he₁ := (herased.admitRecord p asm.actionMs asm.modifiedMs).flushLedger h
    dsimp only
    split
    · exact ⟨herased.tree, herased.manifest, herased.transfers⟩
    · split
      · exact he₁
      · split
        · exact he₁
        · split
          · exact ⟨he₁.tree, he₁.manifest, he₁.transfers⟩
          · exact he₁.installLargeFile h hp hdst fh _

theorem Rooted.finishLargeFile {e : SyncEngine} (he : e.Rooted) (h : Host) (p : PathBuf)
    (fh : Hash) : (e.finishLargeFile h p fh).2.Rooted := by
  unfold SyncEngine.finishLargeFile
  split
  · exact he
  · next asm hasm =>
    split
    · refine ⟨he.tree, he.manifest, fun q asm' hq => ?_⟩
      dsimp only at hq
      rw [FinMap.get_insert] at hq
      split at hq
      · next hqp =>
        obtain rfl := Option.some.inj hq
        rw [hqp]
        exact he.transfers p asm hasm
      · exact he.transfers q asm' hq
    · exact he.commitLargeFile h p fh

/-! ### Messages -/

theorem Rooted.applyClientAction {e : SyncEngine} (he : e.Rooted) (h : Host) (clientId : String)
    (m : Message) : (applyClientAction h e clientId m).engine.Rooted := by
  cases m with
  | bundle b =>
    have hb := he.applyBundle h (clampBundle h (clampBundle h b))
    simp only [ByteHive.applyClientAction, handleRecvBundle]
    split
    · next hr => rwa [hr] at hb
    · next hr => rwa [hr] at hb
  | delete paths t d => exact he.applyDeletes h paths _ d
  | largeFileStart md n a =>
    have hs := he.beginLargeFile h md n (clampFutureStampOpt h (clampFutureStampOpt h a))
    simp only [ByteHive.applyClientAction, handleRecvLargeFileStart]
    split
    · next hr => rwa [hr] at hs
    · next hr => rwa [hr] at hs
  | largeFileChunk p i data =>
    have hchunk := he.receiveLargeFileChunk h p i data
    simp only [ByteHive.applyClientAction, handleRecvLargeFileChunk]
    obtain ⟨r, e', hr⟩ : ∃ r e', e.receiveLargeFileChunk h p i data = (r, e') := ⟨_, _, rfl⟩
    rw [hr] at hchunk ⊢
    cases r with
    | none => exact hchunk
    | some outcome =>
      cases outcome with
      | pending => exact hchunk
      | readyToCommit hash =>
        have hcommit := hchunk.commitLargeFile h p hash
        dsimp only at hcommit ⊢
        obtain ⟨r', e'', hc⟩ : ∃ r' e'', e'.commitLargeFile h p hash = (r', e'') := ⟨_, _, rfl⟩
        rw [hc] at hcommit ⊢
        cases r' <;> exact hcommit
  | largeFileEnd p fh =>
    have hp := he.finishLargeFile h p fh
    simp only [ByteHive.applyClientAction, handleRecvLargeFileEnd]
    split
    · next hr => rwa [hr] at hp
    · next hr => rwa [hr] at hp
    · next hr => rwa [hr] at hp
  | rename f g a =>
    have hr := he.applyRenameAt h f g (clampFutureStamp h (clampFutureStamp h a)) clientId
    simp only [ByteHive.applyClientAction, handleRecvRename]
    split
    · next heq => rwa [heq] at hr
    · next heq => rwa [heq] at hr
  | actionBatchEnd n => exact he
  | actionBatchAck n => exact he

theorem Rooted.applyInitialUpload {e : SyncEngine} (he : e.Rooted) (h : Host) (m : Message) :
    (applyInitialUpload h e m).2.engine.Rooted := by
  cases m with
  | bundle b =>
    have hb := he.applyBundle h b
    simp only [ByteHive.applyInitialUpload]
    split
    · next hr => rwa [hr] at hb
    · next hr => rwa [hr] at hb
  | delete paths t d => exact he.applyDeletes h paths _ d
  | largeFileStart md n a =>
    have hs := he.beginLargeFile h md n a
    simp only [ByteHive.applyInitialUpload]
    split
    · next hr => rwa [hr] at hs
    · next hr => rwa [hr] at hs
  | largeFileChunk p i data =>
    have hchunk := he.receiveLargeFileChunk h p i data
    simp only [ByteHive.applyInitialUpload]
    split
    · next hash e' hr =>
      rw [hr] at hchunk
      exact hchunk.commitLargeFile h p hash
    · next hr => rwa [hr] at hchunk
    · next hr => rwa [hr] at hchunk
  | largeFileEnd p fh =>
    have hp := he.finishLargeFile h p fh
    simp only [ByteHive.applyInitialUpload]
    split
    · next hr => rwa [hr] at hp
    · next hr => rwa [hr] at hp
    · next hr => rwa [hr] at hp
  | rename f g a => exact he
  | actionBatchEnd n => exact he
  | actionBatchAck n => exact he

/-! ### Ledgers, scans and plans -/

theorem Rooted.clearTombstones {e : SyncEngine} (he : e.Rooted) (h : Host) (ps : List PathBuf) :
    (e.clearTombstones h ps).Rooted := by
  unfold SyncEngine.clearTombstones
  split
  · exact he
  · refine Rooted.flushLedger ?_ h
    exact he.congr rfl rfl rfl

theorem Rooted.mergeLedger {e : SyncEngine} (he : e.Rooted) (h : Host) (dtos : List TombstoneDto) :
    (e.mergeLedger h dtos).2.Rooted := by
  unfold SyncEngine.mergeLedger
  split
  · exact he
  · refine Rooted.flushLedger ?_ h
    exact he.congr rfl rfl rfl

/-- A scan lists what is on disk. -/
theorem Rooted.scan {e : SyncEngine} (he : e.Rooted) (h : Host) : (e.scan h).Rooted := by
  have hlisted : SafeKeys (buildManifest h e.tree e.nodeId e.isExcluded) := by
    intro p hp
    simp only [buildManifest, FinMap.get_ofKeys] at hp
    split at hp
    · next hmem =>
      obtain ⟨n, hn⟩ := Option.isSome_iff_exists.mp ((FinMap.mem_keys _ _).mp hmem)
      exact he.tree p n hn
    · cases hp
  unfold SyncEngine.scan pruneLedger
  dsimp only
  split
  · exact ⟨he.tree, hlisted, he.transfers⟩
  · refine Rooted.flushLedger ?_ h
    exact ⟨he.tree, hlisted, he.transfers⟩

theorem Rooted.deleteVetoed {e : SyncEngine} (he : e.Rooted) (h : Host) (snap : DeletionLedger)
    (paths : List PathBuf) : (deleteVetoed h e snap paths).Rooted := by
  unfold ByteHive.deleteVetoed
  induction paths generalizing e with
  | nil => exact he
  | cons p rest ih =>
    rw [List.foldl_cons]
    refine ih ?_
    split
    · exact he.applyDeletes h [p] _ _
    · exact he

end SyncEngine

/-- Whatever a peer sends, the names that the engine keeps stay safe. -/
theorem Receiver.rooted_recv (h : Host) {r : Receiver} (hr : r.engine.Rooted) (m : PeerMessage) :
    (r.recv h m).1.engine.Rooted := by
  obtain ⟨side, phase, e⟩ := r
  have hsession : (sessionManifest h e).2.Rooted := by
    unfold sessionManifest
    split
    · exact SyncEngine.Rooted.scan hr h
    · exact hr
  have haction : ∀ (phase : RecvPhase) (side : Side) (clientId : String) (m : Message),
      ((⟨side, phase, e⟩ : Receiver).recvAction h clientId m).1.engine.Rooted := by
    intro phase side clientId m
    have happly := SyncEngine.Rooted.applyClientAction hr h clientId m
    cases m with
    | actionBatchEnd n => exact SyncEngine.Rooted.flushLedger hr h
    | actionBatchAck n => exact hr
    | _ => exact happly
  cases side with
  | server clientId =>
    cases phase with
    | ledger =>
      cases m with
      | ledgerExchange entries => exact SyncEngine.Rooted.mergeLedger hr h entries
      | _ => exact hr
    | drain =>
      cases m with
      | manifestExchange remote =>
        exact (hsession.deleteVetoed h _ _).clearTombstones h _
      | action m => exact haction _ _ clientId m
      | _ => exact hr
    | initial locl remote =>
      cases m with
      | action m => exact SyncEngine.Rooted.applyInitialUpload hr h m
      | _ => exact hr
    | live =>
      cases m with
      | action m => exact haction _ _ clientId m
      | _ => exact hr
    | closed => exact hr
  | client =>
    cases phase with
    | ledger =>
      cases m with
      | ledgerExchange entries => exact SyncEngine.Rooted.mergeLedger hr h entries
      | _ => exact hr
    | drain =>
      cases m with
      | manifestExchange remote => exact SyncEngine.Rooted.scan hr h
      | action m => cases m <;> exact hr
      | _ => exact hr
    | initial locl remote =>
      cases m with
      | action m =>
        have hdown := SyncEngine.Rooted.applyInitialUpload hr h m
        rw [← Receiver.recvDownload_eq] at hdown
        exact hdown
      | syncComplete => exact (SyncEngine.Rooted.deleteVetoed hr h _ _).clearTombstones h _
      | _ => exact hr
    | live =>
      cases m with
      | action m =>
        have hlive := SyncEngine.Rooted.applyClientAction hr h "server" m
        rw [← Receiver.recvLive_eq] at hlive
        exact hlive
      | _ => exact hr
    | closed => exact hr

end ByteHive
