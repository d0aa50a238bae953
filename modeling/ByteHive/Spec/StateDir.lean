import ByteHive.Spec.Footprint

/-!
# Peers and the state directory

`.bh_filesync` holds the engine's own files. Scans and outgoing events leave it out, but the
handlers of incoming messages only ask whether a path is safe, so a peer that names a path in
there reaches it (`Receiver.peer_overwrites_state`).

A message that names nothing in the state directory leaves it alone, in every state that any
messages lead to (`Receiver.state_kept`). The engine writes its own files through `staging`,
`ledgerFile` and the trash, so what the tree has below `.bh_filesync` only changes because a
path leads there.
-/

namespace ByteHive

/-- `BH_DIR`. -/
def stateDir : PathBuf := .ofNames [".bh_filesync"]

/-- The path is neither the state directory nor in it. -/
def OutsideState (p : PathBuf) : Prop := ¬ stateDir <+: p

/-- The path does not lead through the state directory in either direction: it is outside, and
    it is not the root. -/
def ApartFromState (p : PathBuf) : Prop := p ≠ [] ∧ OutsideState p

instance (p : PathBuf) : Decidable (OutsideState p) := inferInstanceAs (Decidable (¬ _))

instance (p : PathBuf) : Decidable (ApartFromState p) := inferInstanceAs (Decidable (_ ∧ _))

/-- What the tree holds in the state directory is the same. -/
abbrev StateKept (t t' : Tree) : Prop := FileTree.SameBelow stateDir t t'

/-! ## Paths -/

theorem OutsideState.of_prefix {p q : PathBuf} (hp : OutsideState p) (hq : q <+: p) :
    OutsideState q := fun h => hp (h.trans hq)

/-- Only the root and the state directory itself lie above it. -/
theorem OutsideState.not_above {p : PathBuf} (hp : OutsideState p) : p = [] ∨ ¬ p <+: stateDir := by
  by_cases hnil : p = []
  · exact .inl hnil
  · refine .inr fun hpre => hp ?_
    have hlen : stateDir.length ≤ p.length := List.length_pos_of_ne_nil hnil
    rw [hpre.eq_of_length_le hlen]

theorem ApartFromState.not_above {p : PathBuf} (hp : ApartFromState p) : ¬ p <+: stateDir :=
  hp.2.not_above.resolve_left hp.1

/-- What lies below such a path is one too. -/
theorem ApartFromState.of_below {p q : PathBuf} (hp : ApartFromState p) (hpq : p <+: q) :
    ApartFromState q := by
  constructor
  · rintro rfl
    exact hp.1 (List.prefix_nil.mp hpq)
  · intro hq
    rcases List.prefix_or_prefix_of_prefix hpq hq with habove | hbelow
    · exact hp.not_above habove
    · exact hp.2 hbelow

/-- The name of a conflict copy has a space in it. -/
theorem exists_conflictCopyName (rel : PathBuf) (nodeId : String) (unixSecs : Nat) :
    ∃ name, conflictCopyName rel nodeId unixSecs = rel.dropLast ++ [.normal name] ∧
      ' ' ∈ name.toList := by
  refine ⟨_, rfl, ?_⟩
  have hspace : ∀ stem : String,
      ' ' ∈ (stem ++ " (conflict " ++ toString unixSecs ++ " " ++ nodeId ++ ")").toList := by
    intro stem
    simp
  split
  · rw [String.toList_append, String.toList_append, List.mem_append, List.mem_append]
    exact .inl (.inl (hspace _))
  · exact hspace _

theorem outsideState_conflictCopyName {rel : PathBuf} (hrel : OutsideState rel) (nodeId : String)
    (unixSecs : Nat) : OutsideState (conflictCopyName rel nodeId unixSecs) := by
  intro hstate
  obtain ⟨name, hname, hspace⟩ := exists_conflictCopyName rel nodeId unixSecs
  rw [hname] at hstate
  cases hparent : rel.dropLast with
  | nil =>
    rw [hparent] at hstate
    have heq : Component.normal ".bh_filesync" = .normal name :=
      (List.cons_prefix_cons.mp hstate).1
    rw [← Component.normal.inj heq] at hspace
    exact absurd hspace (by decide)
  | cons c rest =>
    rw [hparent] at hstate
    have heq : Component.normal ".bh_filesync" = c := (List.cons_prefix_cons.mp hstate).1
    have habove : stateDir <+: rel.dropLast := by
      rw [hparent, ← heq]
      exact List.cons_prefix_cons.mpr ⟨rfl, List.nil_prefix⟩
    exact hrel (habove.trans (List.dropLast_prefix rel))

/-! ## File-system calls -/

namespace StateKept

variable {h : Host} {t t' : Tree} {p f g : PathBuf}

theorem createDirAll (hp : OutsideState p) (hc : h.createDirAll t p = some t') : StateKept t t' := by
  unfold Host.createDirAll at hc
  split at hc
  · cases hc
  · exact FileTree.SameBelow.createDirAll hp hc

theorem write {c : Content} {m : Nat} (hp : OutsideState p) (hw : h.write t p c m = some t') :
    StateKept t t' := by
  unfold Host.write at hw
  split at hw
  · cases hw
  · exact FileTree.SameBelow.write hp hw

theorem copy (hg : OutsideState g) (hc : h.copy t f g = some t') : StateKept t t' := by
  unfold Host.copy at hc
  split at hc
  · cases hc
  · split at hc
    · exact FileTree.SameBelow.write hg hc
    · cases hc

theorem rename (hf : ApartFromState f) (hg : OutsideState g) (hr : h.rename t f g = some t') :
    StateKept t t' := by
  unfold Host.rename at hr
  split at hr
  · cases hr
  · exact FileTree.SameBelow.rename hf.not_above hf.2 hg hg.not_above hr

theorem moveToTrash (h : Host) (t : Tree) (hp : ApartFromState p) :
    StateKept t (h.moveToTrash t p) := by
  unfold Host.moveToTrash
  split
  · exact .refl _ _
  · exact FileTree.SameBelow.removeTree t hp.not_above hp.2

theorem setDirMtimes (h : Host) (t : Tree) {dirMtimes : List (PathBuf × Nat)}
    (hd : ∀ d ∈ dirMtimes, OutsideState d.1) :
    StateKept t (SyncEngine.setDirMtimes h t dirMtimes) := by
  unfold SyncEngine.setDirMtimes
  have hsorted : ∀ d ∈ dirMtimes.insertionSort (fun a b => b.1.length ≤ a.1.length),
      OutsideState d.1 := fun d hmem => hd d ((List.mem_insertionSort _).mp hmem)
  generalize dirMtimes.insertionSort (fun a b => b.1.length ≤ a.1.length) = ds at hsorted
  induction ds generalizing t with
  | nil => exact .refl _ _
  | cons d ds ih =>
    have hone : StateKept t (if h.fails (.setMtime d.1) then t else t.setMtime d.1 d.2) := by
      split
      · exact .refl _ _
      · exact FileTree.SameBelow.setMtime t d.2 (hsorted d (by simp))
    exact hone.trans (ih _ fun d' hd' => hsorted d' (by simp [hd']))

end StateKept

namespace SyncEngine

/-! ## Bundles -/

theorem stateKept_saveConflictCopy {h : Host} {e e' : SyncEngine} {rel : PathBuf}
    {ci : Option ConflictInfo} (hrel : OutsideState rel)
    (hs : e.saveConflictCopy h rel = some (e', ci)) : StateKept e.tree e'.tree := by
  have hcopy := outsideState_conflictCopyName hrel e.nodeId h.unixSecs
  have hparent := hcopy.of_prefix (List.dropLast_prefix _)
  unfold saveConflictCopy at hs
  dsimp only at hs
  split at hs
  · cases hs
  · next t ht =>
    have hdirs := StateKept.createDirAll hparent ht
    split at hs
    · next t' ht' =>
      obtain ⟨rfl, -⟩ := Prod.mk.inj (Option.some.inj hs)
      exact hdirs.trans (StateKept.copy hcopy ht')
    · obtain ⟨rfl, -⟩ := Prod.mk.inj (Option.some.inj hs)
      exact hdirs

theorem stateKept_writeEntry (h : Host) (t : Tree) {fd : FileData}
    (hrel : OutsideState fd.metadata.relPath) : StateKept t (writeEntry h t fd).2 := by
  have hparent := hrel.of_prefix (List.dropLast_prefix _)
  unfold writeEntry
  split
  · split
    · next t' ht' => exact StateKept.createDirAll hrel ht'
    · exact .refl _ _
  · split
    · exact .refl _ _
    · next t' ht' =>
      have hdirs := StateKept.createDirAll hparent ht'
      split
      · next t'' ht'' => exact hdirs.trans (StateKept.write hrel ht'')
      · exact hdirs

/-- What one file of a bundle may do: the state directory is kept, and a directory whose mtime
    will be set lies outside it. -/
structure FileKept (s s' : BundleRun) : Prop where
  tree : StateKept s.engine.tree s'.engine.tree
  dirs : (∀ d ∈ s.dirMtimes, OutsideState d.1) → ∀ d ∈ s'.dirMtimes, OutsideState d.1

theorem fileKept_applyFile (h : Host) (s : BundleRun) {fd : FileData}
    (hrel : OutsideState fd.metadata.relPath) : FileKept s (applyFile h s fd).2 := by
  constructor
  · unfold applyFile
    dsimp only
    split
    · exact .refl _ _
    · split
      · exact .refl _ _
      · have htree := admitRecord_tree s.engine fd.metadata.relPath fd.actionMs fd.metadata.modifiedMs
        generalize s.engine.admitRecord fd.metadata.relPath fd.actionMs fd.metadata.modifiedMs = e₁
          at htree ⊢
        rw [← htree]
        split
        · exact .refl _ _
        · next e₂ conflict hcopied =>
          have hcopy : StateKept e₁.tree e₂.tree := by
            split at hcopied
            · exact stateKept_saveConflictCopy hrel hcopied
            · obtain ⟨rfl, -⟩ := Prod.mk.inj (Option.some.inj hcopied)
              exact .refl _ _
          have hwrite := hcopy.trans (stateKept_writeEntry h e₂.tree hrel)
          split <;> exact hwrite
  · intro hs d hd
    rcases dirMtimes_applyFile hd with hold | ⟨heq, -⟩
    · exact hs d hold
    · rw [heq]
      exact hrel

theorem fileKept_applyFiles (h : Host) (s : BundleRun) {files : List FileData}
    (hrel : ∀ fd ∈ files, OutsideState fd.metadata.relPath) :
    FileKept s (applyFiles h s files).2 := by
  induction files generalizing s with
  | nil => exact ⟨.refl _ _, fun hs => hs⟩
  | cons fd rest ih =>
    have hfile := fileKept_applyFile h s (hrel fd (by simp))
    unfold applyFiles
    split
    · next s' heq =>
      rw [heq] at hfile
      have hrest := ih s' fun fd' hfd' => hrel fd' (by simp [hfd'])
      exact ⟨hfile.tree.trans hrest.tree, fun hs => hrest.dirs (hfile.dirs hs)⟩
    · next s' heq =>
      rw [heq] at hfile
      exact hfile

theorem stateKept_applyBundle (h : Host) (e : SyncEngine) {b : FileBundle}
    (hb : ∀ fd ∈ b.files, OutsideState fd.metadata.relPath) :
    StateKept e.tree (e.applyBundle h b).2.tree := by
  have hfiles := fileKept_applyFiles h ⟨e, [], ⟨0, []⟩, []⟩ hb
  unfold applyBundle
  split
  · next s heq =>
    rw [heq] at hfiles
    exact hfiles.tree
  · next s heq =>
    rw [heq] at hfiles
    dsimp only
    rw [scheduleUnsuppress_tree]
    have hmtimes := StateKept.setDirMtimes h (s.engine.flushLedger h).tree
      (hfiles.dirs fun d hd => absurd hd List.not_mem_nil)
    rw [flushLedger_tree] at hmtimes ⊢
    exact hfiles.tree.trans hmtimes

/-! ## Deletes and renames -/

theorem stateKept_deleteTargets (h : Host) (guarded : List PathBuf) (s : DeleteRun)
    (gone : List PathBuf) {targets : List PathBuf} (ht : ∀ p ∈ targets, ApartFromState p) :
    StateKept s.engine.tree (deleteTargets h guarded s gone targets).engine.tree := by
  induction targets generalizing s gone with
  | nil => exact .refl _ _
  | cons target rest ih =>
    have hrest : ∀ p ∈ rest, ApartFromState p := fun p hp => ht p (by simp [hp])
    unfold deleteTargets
    split
    · exact ih s gone hrest
    · split
      · exact ih s gone hrest
      · have htrash := StateKept.moveToTrash h s.engine.tree (ht target (by simp))
        exact htrash.trans (ih _ _ hrest)

/-- The keys below a path lie apart from the state directory when the path does. -/
theorem stateKept_deletePath (h : Host) (deletedAtMs : Nat) (s : DeleteRun) {rel : PathBuf}
    (hrel : ApartFromState rel) :
    StateKept s.engine.tree (deletePath h deletedAtMs s rel).engine.tree := by
  have hsubtree : ∀ p ∈ manifestSubtree h s.engine.manifest rel, ApartFromState p := by
    intro p hp
    rw [manifestSubtree, List.mem_cons] at hp
    rcases hp with rfl | hp
    · exact hrel
    · obtain ⟨-, hbelow⟩ := List.mem_filter.mp hp
      rw [Bool.and_eq_true, decide_eq_true_eq, decide_eq_true_eq] at hbelow
      exact hrel.of_below hbelow.2
  unfold deletePath
  split
  · exact .refl _ _
  · dsimp only
    split
    · exact StateKept.moveToTrash h s.engine.tree hrel
    · refine stateKept_deleteTargets h _ s [] fun p hp => ?_
      rw [List.mem_insertionSort] at hp
      exact hsubtree p (List.mem_of_mem_filter hp)

theorem stateKept_applyDeletes (h : Host) (e : SyncEngine) {paths : List PathBuf}
    (hpaths : ∀ p ∈ paths, ApartFromState p) (deletedAtMs : Nat) (deleter : String) :
    StateKept e.tree (e.applyDeletes h paths deletedAtMs deleter).2.tree := by
  have hfold : ∀ (s : DeleteRun), (∀ p ∈ paths, ApartFromState p) →
      StateKept s.engine.tree (paths.foldl (deletePath h deletedAtMs) s).engine.tree := by
    clear hpaths
    induction paths with
    | nil => exact fun _ _ => .refl _ _
    | cons p rest ih =>
      intro s hs
      have hone := stateKept_deletePath h deletedAtMs s (hs p (by simp))
      exact hone.trans (ih _ fun q hq => hs q (by simp [hq]))
  have hrun := hfold ⟨e, [], [], 0⟩ hpaths
  unfold applyDeletes
  rw [scheduleUnsuppressDeletes_tree]
  split
  · exact hrun
  · rw [flushLedger_tree]
    exact hrun

theorem stateKept_moveRename (h : Host) (e : SyncEngine) {f g : PathBuf} (hf : ApartFromState f)
    (hg : OutsideState g) : StateKept e.tree (e.moveRename h f g).2.tree := by
  unfold moveRename
  dsimp only
  split
  · exact .refl _ _
  · next t ht =>
    have hdirs := StateKept.createDirAll (hg.of_prefix (List.dropLast_prefix g)) ht
    split
    · exact hdirs
    · rw [scheduleUnsuppress_tree]
      cases hr : h.rename t f g with
      | none => exact hdirs
      | some t' => exact hdirs.trans (StateKept.rename hf hg hr)

/-- A vetoed rename deletes its source. -/
theorem stateKept_applyRenameAt (h : Host) (e : SyncEngine) {f g : PathBuf} (hf : ApartFromState f)
    (hg : OutsideState g) (a : Nat) (d : String) :
    StateKept e.tree (e.applyRenameAt h f g a d).2.tree := by
  unfold applyRenameAt
  split
  · exact .refl _ _
  · split
    · exact stateKept_applyDeletes h e (by simpa using hf) a d
    · have htree : ((e.admitRecord g (some a) 0).flushLedger h).tree = e.tree := by simp
      rw [← htree]
      generalize (e.admitRecord g (some a) 0).flushLedger h = e₁
      dsimp only
      split
      · unfold convergeRename
        split
        · dsimp only
          split
          · exact .refl _ _
          · rw [scheduleUnsuppress_tree]
            exact .refl _ _
        · exact .refl _ _
      · exact stateKept_moveRename h e₁ hf hg

/-! ## Large files -/

theorem stateKept_beginLargeFile (h : Host) (e : SyncEngine) {md : FileMetadata} (n : UInt32)
    (a : Option Nat) (hrel : OutsideState md.relPath) :
    StateKept e.tree (e.beginLargeFileWithAction h md n a).2.tree := by
  unfold beginLargeFileWithAction
  dsimp only
  split
  · exact .refl _ _
  · split
    · exact .refl _ _
    · have htree : ((e.admitRecord md.relPath a md.modifiedMs).flushLedger h).tree = e.tree := by simp
      rw [← htree]
      generalize (e.admitRecord md.relPath a md.modifiedMs).flushLedger h = e₁
      split
      · exact .refl _ _
      · next t ht =>
        have hdirs := StateKept.createDirAll (hrel.of_prefix (List.dropLast_prefix _)) ht
        split
        · exact hdirs
        · split
          · exact hdirs
          · exact hdirs

theorem stateKept_saveCommitConflict (h : Host) (e : SyncEngine) {p : PathBuf} (dst : PathBuf)
    (hp : OutsideState p) : StateKept e.tree (e.saveCommitConflict h p dst).2.tree := by
  have hcopy := outsideState_conflictCopyName hp e.nodeId h.unixSecs
  have hdirs : StateKept e.tree
      ((h.createDirAll e.tree (conflictCopyName p e.nodeId h.unixSecs).dropLast).getD e.tree) := by
    cases hc : h.createDirAll e.tree (conflictCopyName p e.nodeId h.unixSecs).dropLast with
    | none => exact .refl _ _
    | some t => exact StateKept.createDirAll (hcopy.of_prefix (List.dropLast_prefix _)) hc
  unfold saveCommitConflict
  dsimp only
  split
  · next t' ht' => exact hdirs.trans (StateKept.copy hcopy ht')
  · exact hdirs

theorem stateKept_installLargeFile (h : Host) (e : SyncEngine) {p : PathBuf}
    {asm : LargeFileAssembly} (fh : Hash) (c : Content) (hp : OutsideState p) (hdst : asm.dst = p) :
    StateKept e.tree (e.installLargeFile h p asm fh c).2.tree := by
  have hsaved : StateKept e.tree (if e.commitConflict h p asm.dst fh then
      e.saveCommitConflict h p asm.dst else (none, e)).2.tree := by
    split
    · exact stateKept_saveCommitConflict h e asm.dst hp
    · exact .refl _ _
  unfold installLargeFile
  dsimp only
  generalize (if e.commitConflict h p asm.dst fh then e.saveCommitConflict h p asm.dst
    else (none, e)) = r at hsaved ⊢
  split
  · exact hsaved
  · next t ht =>
    rw [scheduleUnsuppress_tree]
    split at ht
    · cases ht
    · have hout : OutsideState asm.dst := by rwa [hdst]
      exact hsaved.trans (FileTree.SameBelow.write hout ht)

theorem stateKept_commitLargeFile (h : Host) {e : SyncEngine} (he : e.SafeTransfers) {p : PathBuf}
    (hp : OutsideState p) (fh : Hash) : StateKept e.tree (e.commitLargeFile h p fh).2.tree := by
  cases hasm : e.inProgress.get p with
  | none =>
    simp only [commitLargeFile, hasm]
    exact .refl _ _
  | some asm =>
    have hdst : asm.dst = p := (he p asm hasm).2
    simp only [commitLargeFile, hasm]
    split
    · exact .refl _ _
    · have htree : ((({ e with inProgress := e.inProgress.erase p } : SyncEngine).admitRecord p
          asm.actionMs asm.modifiedMs).flushLedger h).tree = e.tree := by simp
      generalize (({ e with inProgress := e.inProgress.erase p } : SyncEngine).admitRecord p
        asm.actionMs asm.modifiedMs).flushLedger h = e₁ at htree ⊢
      rw [← htree]
      split
      · exact .refl _ _
      · split
        · exact .refl _ _
        · split
          · exact .refl _ _
          · exact stateKept_installLargeFile h e₁ fh _ hp hdst

theorem stateKept_finishLargeFile (h : Host) {e : SyncEngine} (he : e.SafeTransfers) {p : PathBuf}
    (hp : OutsideState p) (fh : Hash) : StateKept e.tree (e.finishLargeFile h p fh).2.tree := by
  unfold finishLargeFile
  split
  · exact .refl _ _
  · split
    · exact .refl _ _
    · exact stateKept_commitLargeFile h he hp fh

/-- A chunk writes to the staging file only; one that completes the file commits it. -/
theorem stateKept_commit_after_chunk {h : Host} {e e' : SyncEngine} (he : e.SafeTransfers)
    {p : PathBuf} {i : UInt32} {data : Content} {hash : Hash} (hp : OutsideState p)
    (hr : e.receiveLargeFileChunk h p i data = (some (.readyToCommit hash), e')) :
    StateKept e.tree (e'.commitLargeFile h p hash).2.tree := by
  have htree := tree_receiveLargeFileChunk h e p i data
  have he' := he.receiveLargeFileChunk (h := h) p i data
  rw [hr] at htree he'
  rw [← htree]
  exact stateKept_commitLargeFile h he' hp hash

theorem stateKept_chunk {h : Host} {e e' : SyncEngine} {p : PathBuf} {i : UInt32} {data : Content}
    {r : Option ChunkResult} (hr : e.receiveLargeFileChunk h p i data = (r, e')) :
    StateKept e.tree e'.tree := by
  have htree := tree_receiveLargeFileChunk h e p i data
  rw [hr] at htree
  rw [← htree]
  exact .refl _ _

end SyncEngine

/-! ## Messages -/

namespace Message

/-- No path of the message leads into the state directory. What a delete or a rename takes away
    goes with all that lies below it, so there the root is no such path either. -/
def SparesState : Message → Prop
  | .bundle b => ∀ fd ∈ b.files, OutsideState fd.metadata.relPath
  | .delete paths _ _ => ∀ p ∈ paths, ApartFromState p
  | .largeFileStart md _ _ => OutsideState md.relPath
  | .largeFileChunk p _ _ => OutsideState p
  | .largeFileEnd p _ => OutsideState p
  | .rename f g _ => ApartFromState f ∧ OutsideState g
  | .actionBatchEnd _ => True
  | .actionBatchAck _ => True

theorem sparesState_clampBundle (h : Host) {b : FileBundle} (hb : (bundle b).SparesState) :
    (bundle (clampBundle h b)).SparesState := by
  intro fd hfd
  obtain ⟨fd', hfd', rfl⟩ := List.mem_map.mp hfd
  exact hb fd' hfd'

end Message

open SyncEngine

theorem stateKept_applyClientAction (h : Host) {e : SyncEngine} (he : e.SafeTransfers)
    (clientId : String) {m : Message} (hm : m.SparesState) :
    StateKept e.tree (applyClientAction h e clientId m).engine.tree := by
  cases m with
  | bundle b =>
    have hclamped := Message.sparesState_clampBundle h (Message.sparesState_clampBundle h hm)
    have hb := stateKept_applyBundle h e hclamped
    simp only [applyClientAction, handleRecvBundle]
    split
    · next hr => rwa [hr] at hb
    · next hr => rwa [hr] at hb
  | delete paths t d => exact stateKept_applyDeletes h e hm _ d
  | largeFileStart md n a =>
    have hs := stateKept_beginLargeFile h e n (clampFutureStampOpt h (clampFutureStampOpt h a)) hm
    simp only [applyClientAction, handleRecvLargeFileStart]
    split
    · next hr => rwa [hr] at hs
    · next hr => rwa [hr] at hs
  | largeFileChunk p i data =>
    simp only [applyClientAction, handleRecvLargeFileChunk]
    obtain ⟨r, e', hr⟩ : ∃ r e', e.receiveLargeFileChunk h p i data = (r, e') := ⟨_, _, rfl⟩
    have hchunk := stateKept_chunk hr
    rw [hr]
    cases r with
    | none => exact hchunk
    | some outcome =>
      cases outcome with
      | pending => exact hchunk
      | readyToCommit hash =>
        have hcommit := stateKept_commit_after_chunk he hm hr
        dsimp only at hcommit ⊢
        obtain ⟨r', e'', hc⟩ : ∃ r' e'', e'.commitLargeFile h p hash = (r', e'') := ⟨_, _, rfl⟩
        rw [hc] at hcommit ⊢
        cases r' <;> exact hcommit
  | largeFileEnd p fh =>
    have hp := stateKept_finishLargeFile h he hm fh
    simp only [applyClientAction, handleRecvLargeFileEnd]
    split
    · next hr => rwa [hr] at hp
    · next hr => rwa [hr] at hp
    · next hr => rwa [hr] at hp
  | rename f g a =>
    have hr := stateKept_applyRenameAt h e hm.1 hm.2
      (clampFutureStamp h (clampFutureStamp h a)) clientId
    simp only [applyClientAction, handleRecvRename]
    split
    · next heq => rwa [heq] at hr
    · next heq => rwa [heq] at hr
  | actionBatchEnd n => exact .refl _ _
  | actionBatchAck n => exact .refl _ _

theorem stateKept_applyInitialUpload (h : Host) {e : SyncEngine} (he : e.SafeTransfers)
    {m : Message} (hm : m.SparesState) :
    StateKept e.tree (applyInitialUpload h e m).2.engine.tree := by
  cases m with
  | bundle b =>
    have hb := stateKept_applyBundle h e hm
    simp only [applyInitialUpload]
    split
    · next hr => rwa [hr] at hb
    · next hr => rwa [hr] at hb
  | delete paths t d => exact stateKept_applyDeletes h e hm _ d
  | largeFileStart md n a =>
    have hs := stateKept_beginLargeFile h e n a hm
    simp only [applyInitialUpload]
    split
    · next hr => rwa [hr] at hs
    · next hr => rwa [hr] at hs
  | largeFileChunk p i data =>
    simp only [applyInitialUpload]
    split
    · next hr => exact stateKept_commit_after_chunk he hm hr
    · next hr => exact stateKept_chunk hr
    · next hr => exact stateKept_chunk hr
  | largeFileEnd p fh =>
    have hp := stateKept_finishLargeFile h he hm fh
    simp only [applyInitialUpload]
    split
    · next hr => rwa [hr] at hp
    · next hr => rwa [hr] at hp
    · next hr => rwa [hr] at hp
  | rename f g a => exact .refl _ _
  | actionBatchEnd n => exact .refl _ _
  | actionBatchAck n => exact .refl _ _

/-! ## Sessions -/

namespace Receiver

/-- One message, in whatever phase it comes. -/
theorem stateKept_recv (h : Host) {r : Receiver} (hr : r.engine.SafeTransfers) {m : Message}
    (hm : m.SparesState) : StateKept r.engine.tree (r.recv h (.action m)).1.engine.tree := by
  obtain ⟨side, phase, e⟩ := r
  have haction : ∀ (phase : RecvPhase) (side : Side) (clientId : String),
      StateKept e.tree ((⟨side, phase, e⟩ : Receiver).recvAction h clientId m).1.engine.tree := by
    intro phase side clientId
    have happly := stateKept_applyClientAction h hr clientId hm
    cases m with
    | actionBatchEnd n =>
      simp only [recvAction, flushLedger_tree]
      exact .refl _ _
    | actionBatchAck n => exact .refl _ _
    | _ => exact happly
  have hupload := stateKept_applyInitialUpload h hr hm
  cases side with
  | server clientId =>
    cases phase with
    | ledger => exact .refl _ _
    | drain => exact haction _ _ clientId
    | initial locl remote => exact hupload
    | live => exact haction _ _ clientId
    | closed => exact .refl _ _
  | client =>
    cases phase with
    | ledger => exact .refl _ _
    | drain => cases m <;> exact .refl _ _
    | initial locl remote =>
      rw [← recvDownload_eq] at hupload
      exact hupload
    | live =>
      have hlive := stateKept_applyClientAction h hr "server" hm
      rw [← recvLive_eq] at hlive
      exact hlive
    | closed => exact .refl _ _

/-- What a run of messages makes of a receiver. -/
def recvMessages (r : Receiver) (ms : List (Host × PeerMessage)) : Receiver :=
  ms.foldl (fun r m => (r.recv m.1 m.2).1) r

theorem rooted_recvMessages {r : Receiver} (hr : r.engine.Rooted) (ms : List (Host × PeerMessage)) :
    (r.recvMessages ms).engine.Rooted := by
  unfold recvMessages
  induction ms generalizing r with
  | nil => exact hr
  | cons m ms ih => exact ih (rooted_recv m.1 hr m.2)

/-- In every run of messages, one that names nothing in the state directory keeps what is in
    there, whatever came before it. -/
theorem state_kept {r : Receiver} (hr : r.engine.Rooted) (before : List (Host × PeerMessage))
    (h : Host) {m : Message} (hm : m.SparesState) :
    StateKept (r.recvMessages before).engine.tree
      (r.recvMessages (before ++ [(h, .action m)])).engine.tree := by
  have hlast : r.recvMessages (before ++ [(h, .action m)]) =
      ((r.recvMessages before).recv h (.action m)).1 := by
    simp only [recvMessages, List.foldl_append, List.foldl_cons, List.foldl_nil]
  rw [hlast]
  exact stateKept_recv h (rooted_recvMessages hr before).transfers hm

/-- A live server with a saved ledger, which its exclusions cover. -/
def serverWithLedger : Receiver :=
  ⟨.server "client", .live, .new "server" (fun p => Decidable.decide (stateDir <+: p))
    ((((FileTree.empty : Tree).createDirAll 1 stateDir).bind fun t =>
      t.write (stateDir ++ [.normal "deletion-ledger.json"]) [1] 1).getD .empty) .new⟩

theorem rooted_serverWithLedger : serverWithLedger.engine.Rooted := by
  refine ⟨fun p n hp => ?_, (fun _ h => by cases h), (fun _ _ h => by cases h)⟩
  have hkeys : ∀ q ∈ serverWithLedger.engine.tree.nodes.keys, safeRelative q = true := by
    decide +kernel
  exact hkeys p (FinMap.mem_keys_of_get hp)

theorem state_kept_serverWithLedger :
    let h := Host.reliable (fun _ => 0) 1000
    let m : Message := .delete [.ofNames ["a"]] 5 "client"
    StateKept (serverWithLedger.recvMessages [(h, .syncComplete)]).engine.tree
      (serverWithLedger.recvMessages ([(h, .syncComplete)] ++ [(h, .action m)])).engine.tree :=
  state_kept rooted_serverWithLedger [(.reliable (fun _ => 0) 1000, .syncComplete)]
    (.reliable (fun _ => 0) 1000) (m := .delete [.ofNames ["a"]] 5 "client")
    (show ∀ p ∈ [PathBuf.ofNames ["a"]], ApartFromState p by decide)

/-- A bundle with a safe path overwrites the ledger file, and a delete of the root takes the
    whole state directory. -/
theorem peer_overwrites_state :
    let h := Host.reliable (fun _ => 0) 1000
    let file := stateDir ++ [.normal "deletion-ledger.json"]
    let bundle : Message := .bundle ⟨[⟨⟨file, 1, 0, 2, 0, false⟩, [7], none⟩], 0⟩
    let delete : Message := .delete [[]] 5 "client"
    serverWithLedger.engine.Rooted ∧ safeRelative file = true ∧
      serverWithLedger.engine.isExcluded file = true ∧
      serverWithLedger.engine.tree.read file = some [1] ∧
      (serverWithLedger.recvMessages [(h, .action bundle)]).engine.tree.read file = some [7] ∧
      (serverWithLedger.recvMessages [(h, .action delete)]).engine.tree.read file = none := by
  refine ⟨rooted_serverWithLedger, ?_⟩
  decide +kernel

end Receiver

end ByteHive
