import ByteHive.ForStd.MarkSet
import ByteHive.ForStd.Run
import ByteHive.Native.Suppression
import ByteHive.Spec.EngineFrame

/-!
# Suppression: leaks and early ends

The engine's suppression sets are mark sets: an applied bundle, rename or delete marks
paths and starts a timer for them, a transfer marks its destination and its staging file
until its commit starts one.

`Marking` is the part of the engine that the marks live in. Each call is proved to do to
it what a list of mark events does (`call_marks`, `call_deleteMarks`), and the two laws of
mark sets become laws of the engine.

## Key results

- `no_leak`: as long as no call ends after marking without a timer, every suppressed path
  is on a timer or in a transfer
- `marks_kept_iff`: the marks outlast their own timers exactly when no timer fires on a
  path that another call has marked
-/

namespace ByteHive

/-- The part of the engine that the suppression marks live in. -/
structure Marking where
  suppressed : Finset PathBuf
  unsuppress : List (List PathBuf)
  suppressedDeletes : Finset PathBuf
  unsuppressDeletes : List (List PathBuf)
  /-- The destination and the staging name of each transfer in progress. -/
  transfers : PathBuf → Option (PathBuf × Hash)

theorem Marking.unmarked (m : Marking) :
    m = { m with suppressed := m.suppressed ∪ ([] : List PathBuf).toFinset } := by
  rw [List.toFinset_nil, Finset.union_empty]

namespace SyncEngine

def marking (e : SyncEngine) : Marking where
  suppressed := e.suppressed
  unsuppress := e.unsuppress
  suppressedDeletes := e.suppressedDeletes
  unsuppressDeletes := e.unsuppressDeletes
  transfers p := (e.inProgress.get p).map fun asm => (asm.dst, asm.tmp)

theorem transfers_insert (m : FinMap PathBuf LargeFileAssembly) (p : PathBuf)
    (asm : LargeFileAssembly) :
    (fun q => ((m.insert p asm).get q).map fun asm => (asm.dst, asm.tmp)) =
      Function.update (fun q => (m.get q).map fun asm => (asm.dst, asm.tmp)) p
        (some (asm.dst, asm.tmp)) := by
  funext q
  rw [FinMap.get_insert, Function.update_apply]
  split <;> rfl

theorem transfers_erase (m : FinMap PathBuf LargeFileAssembly) (p : PathBuf) :
    (fun q => ((m.erase p).get q).map fun asm => (asm.dst, asm.tmp)) =
      Function.update (fun q => (m.get q).map fun asm => (asm.dst, asm.tmp)) p none := by
  funext q
  rw [FinMap.get_erase, Function.update_apply]
  split <;> rfl

/-- An assembly that is replaced by one of the same destination and staging file. -/
theorem transfers_renew {m : FinMap PathBuf LargeFileAssembly} {p : PathBuf}
    {asm : LargeFileAssembly} (hasm : m.get p = some asm) (asm' : LargeFileAssembly)
    (hdst : asm'.dst = asm.dst) (htmp : asm'.tmp = asm.tmp) :
    (fun q => ((m.insert p asm').get q).map fun asm => (asm.dst, asm.tmp)) =
      fun q => (m.get q).map fun asm => (asm.dst, asm.tmp) := by
  rw [transfers_insert, Function.update_eq_self_iff, hasm, hdst, htmp]
  rfl

/-! ## What the calls do to the marks -/

variable {h : Host} {e e' : SyncEngine}

@[simp] theorem marking_admitRecord (p : PathBuf) (a : Option Nat) (m : Nat) :
    (e.admitRecord p a m).marking = e.marking := by
  obtain ⟨dirty, hadm⟩ := exists_admitRecord e p a m
  rw [hadm]
  rfl

@[simp] theorem marking_flushLedger : (e.flushLedger h).marking = e.marking := by
  unfold flushLedger
  split <;> rfl

@[simp] theorem marking_ledgerMut (f : DeletionLedger → Bool × DeletionLedger) :
    (e.ledgerMut f).marking = e.marking := rfl

theorem marking_scheduleUnsuppress (paths : List PathBuf) :
    (e.scheduleUnsuppress paths).marking = { e.marking with
      unsuppress := e.marking.unsuppress ++ if paths = [] then [] else [paths] } := by
  unfold scheduleUnsuppress
  split
  · simp [marking]
  · rfl

theorem marking_scheduleUnsuppressDeletes (paths : List PathBuf) :
    (e.scheduleUnsuppressDeletes paths).marking = { e.marking with
      unsuppressDeletes := e.marking.unsuppressDeletes ++ if paths = [] then [] else [paths] } := by
  unfold scheduleUnsuppressDeletes
  split
  · simp [marking]
  · rfl

theorem marking_saveConflictCopy {rel : PathBuf} {conflict : Option ConflictInfo}
    (hsave : e.saveConflictCopy h rel = some (e', conflict)) : e'.marking = e.marking := by
  unfold saveConflictCopy at hsave
  simp only at hsave
  split at hsave
  · cases hsave
  · split at hsave <;>
    · cases hsave
      rfl

/-- The disk does not take an entry of a bundle that is let through: the directory of a
    conflict copy, a parent directory or the entry itself cannot be written. -/
def diskRefuses (h : Host) (e : SyncEngine) (fd : FileData) : Bool :=
  let rel := fd.metadata.relPath
  let conflicted := !fd.metadata.isDir && (e.detectConflict h rel fd.metadata.hash).isSome
  safeRelative rel && (e.vetoFor rel fd.actionMs fd.metadata.modifiedMs).isNone &&
    match if conflicted then e.saveConflictCopy h rel else some (e, none) with
    | none => true
    | some r => !(writeEntry h r.1.tree fd).1

/-- The disk refuses one of the entries when its turn comes. -/
def bundleRefused (h : Host) : SyncEngine → List FileData → Bool
  | _, [] => false
  | e, fd :: rest =>
    diskRefuses h e fd || bundleRefused h (applyFile h ⟨e, [], ⟨0, []⟩, []⟩ fd).2.engine rest

/-- Saving a conflict copy does not look at the ledger. -/
theorem saveConflictCopy_ledger (rel : PathBuf) (l : DeletionLedger) (dirty : Bool) :
    ({ e with ledger := l, ledgerDirty := dirty } : SyncEngine).saveConflictCopy h rel =
      (e.saveConflictCopy h rel).map fun r =>
        ({ r.1 with ledger := l, ledgerDirty := dirty }, r.2) := by
  unfold saveConflictCopy
  simp only
  cases h.createDirAll e.tree (conflictCopyName rel e.nodeId h.unixSecs).dropLast with
  | none => rfl
  | some t =>
    simp only
    cases h.copy t rel (conflictCopyName rel e.nodeId h.unixSecs) <;> rfl

/-- Marking one path. -/
theorem marking_mark (p : PathBuf) (t : Tree) (m : Manifest) :
    ({ e with suppressed := insert p e.suppressed, tree := t, manifest := m } : SyncEngine).marking =
      { e.marking with suppressed := e.marking.suppressed ∪ [p].toFinset } := by
  have hone : insert p e.suppressed = e.suppressed ∪ [p].toFinset := by
    ext q
    simp
  rw [hone]
  rfl

/-- One entry of a bundle marks its own path or nothing, and stops the bundle exactly when
    the disk refuses it. -/
theorem applyFile_marking (s : BundleRun) (fd : FileData) :
    (applyFile h s fd).1 = !diskRefuses h s.engine fd ∧
    (applyFile h s fd).2.engine = (applyFile h ⟨s.engine, [], ⟨0, []⟩, []⟩ fd).2.engine ∧
    ∃ new, (applyFile h s fd).2.written = s.written ++ new ∧
      (applyFile h s fd).2.engine.marking = { s.engine.marking with
        suppressed := s.engine.marking.suppressed ∪ new.toFinset } := by
  unfold applyFile diskRefuses
  by_cases hsafe : safeRelative fd.metadata.relPath = true
  case neg =>
    simp only [hsafe]
    exact ⟨rfl, rfl, [], by simp, Marking.unmarked _⟩
  cases hveto : s.engine.vetoFor fd.metadata.relPath fd.actionMs fd.metadata.modifiedMs with
  | some t =>
    simp only [hsafe, hveto]
    exact ⟨rfl, rfl, [], by simp, Marking.unmarked _⟩
  | none =>
    obtain ⟨dirty, hadm⟩ := exists_admitRecord s.engine fd.metadata.relPath fd.actionMs
      fd.metadata.modifiedMs
    generalize (s.engine.admitRecord fd.metadata.relPath fd.actionMs fd.metadata.modifiedMs).ledger
      = l at hadm
    have hdetect : ({ s.engine with ledger := l, ledgerDirty := dirty } : SyncEngine).detectConflict
        h fd.metadata.relPath fd.metadata.hash =
        s.engine.detectConflict h fd.metadata.relPath fd.metadata.hash := rfl
    simp only [hsafe, hveto, hadm, hdetect, saveConflictCopy_ledger]
    generalize hcopied : (if (!fd.metadata.isDir &&
        (s.engine.detectConflict h fd.metadata.relPath fd.metadata.hash).isSome) = true then
      s.engine.saveConflictCopy h fd.metadata.relPath else some (s.engine, none)) = copied
    have hlater : ∀ b : Bool, (if b = true then (s.engine.saveConflictCopy h fd.metadata.relPath).map
          fun r => (({ r.1 with ledger := l, ledgerDirty := dirty } : SyncEngine), r.2)
        else some (({ s.engine with ledger := l, ledgerDirty := dirty } : SyncEngine), none)) =
        (if b = true then s.engine.saveConflictCopy h fd.metadata.relPath
          else some (s.engine, none)).map
          fun r => (({ r.1 with ledger := l, ledgerDirty := dirty } : SyncEngine), r.2) := by
      intro b
      cases b <;> rfl
    rw [hlater, hcopied]
    cases copied with
    | none =>
      exact ⟨rfl, rfl, [], (List.append_nil _).symm, Marking.unmarked _⟩
    | some r =>
      obtain ⟨e₁, conflict⟩ := r
      have hsame : e₁.marking = s.engine.marking := by
        split at hcopied
        · exact marking_saveConflictCopy hcopied
        · cases hcopied
          rfl
      have hmark : ∀ (m : Manifest),
          ({ e₁ with
              ledger := l
              ledgerDirty := dirty
              suppressed := insert fd.metadata.relPath e₁.suppressed
              tree := (writeEntry h e₁.tree fd).2
              manifest := m } : SyncEngine).marking =
            { s.engine.marking with
              suppressed := s.engine.marking.suppressed ∪ [fd.metadata.relPath].toFinset } := by
        intro m
        rw [← hsame]
        exact marking_mark (e := { e₁ with ledger := l, ledgerDirty := dirty }) _ _ _
      cases hwrite : (writeEntry h e₁.tree fd).1 with
      | false =>
        simp only [Option.map_some, hwrite]
        exact ⟨rfl, rfl, [fd.metadata.relPath], rfl, hmark _⟩
      | true =>
        simp only [Option.map_some, hwrite]
        exact ⟨rfl, rfl, [fd.metadata.relPath], rfl, hmark _⟩

theorem applyFiles_marking (s : BundleRun) (files : List FileData) :
    (applyFiles h s files).1 = !bundleRefused h s.engine files ∧
    ∃ new, (applyFiles h s files).2.written = s.written ++ new ∧
      (applyFiles h s files).2.engine.marking = { s.engine.marking with
        suppressed := s.engine.marking.suppressed ∪ new.toFinset } := by
  induction files generalizing s with
  | nil => exact ⟨rfl, [], (List.append_nil _).symm, Marking.unmarked _⟩
  | cons fd rest ih =>
    obtain ⟨hok, hengine, new, hwritten, hmarking⟩ := applyFile_marking (h := h) s fd
    rw [bundleRefused, ← hengine, applyFiles]
    cases hfile : applyFile h s fd with
    | mk ok s₁ =>
      rw [hfile] at hok hengine hwritten hmarking
      simp only at hok hwritten hmarking
      cases ok with
      | false =>
        rw [Bool.not_eq_eq_eq_not.mp hok.symm]
        exact ⟨rfl, new, hwritten, hmarking⟩
      | true =>
        obtain ⟨hrest, more, hmore, hmarks⟩ := ih s₁
        rw [Bool.not_eq_eq_eq_not.mp hok.symm]
        refine ⟨hrest, new ++ more, ?_, ?_⟩
        · rw [hmore, hwritten, List.append_assoc]
        · rw [hmarks, hmarking, List.toFinset_append, Finset.union_assoc]

/-- The paths that a bundle marks. -/
def bundleMarks (h : Host) (e : SyncEngine) (files : List FileData) : List PathBuf :=
  (applyFiles h ⟨e, [], ⟨0, []⟩, []⟩ files).2.written

/-- A bundle starts a timer only when it comes to its end. -/
theorem applyBundle_marking (bundle : FileBundle) :
    (e.applyBundle h bundle).2.marking = { e.marking with
      suppressed := e.marking.suppressed ∪ (bundleMarks h e bundle.files).toFinset
      unsuppress := e.marking.unsuppress ++
        if bundleRefused h e bundle.files ∨ bundleMarks h e bundle.files = [] then []
        else [bundleMarks h e bundle.files] } := by
  obtain ⟨hok, new, hwritten, hmarking⟩ :=
    applyFiles_marking (h := h) ⟨e, [], ⟨0, []⟩, []⟩ bundle.files
  have hnew : bundleMarks h e bundle.files = new := hwritten
  rw [hnew]
  unfold applyBundle
  cases hfiles : applyFiles h ⟨e, [], ⟨0, []⟩, []⟩ bundle.files with
  | mk ok s =>
    rw [hfiles] at hok hwritten hmarking
    simp only [List.nil_append] at hok hwritten hmarking
    cases ok with
    | false =>
      have hrefused : bundleRefused h e bundle.files = true := by simpa using hok.symm
      simp only [hrefused, true_or, if_true, List.append_nil]
      exact hmarking
    | true =>
      have hrefused : bundleRefused h e bundle.files = false := by simpa using hok.symm
      simp only [hrefused, marking_scheduleUnsuppress, hwritten, Bool.false_eq_true, false_or]
      have htree : ∀ (e₁ : SyncEngine) (t : Tree),
          ({ e₁ with tree := t } : SyncEngine).marking = e₁.marking := fun _ _ => rfl
      rw [htree, marking_flushLedger, hmarking]

/-- Whether a start is let through and gets its staging file. -/
def begins (h : Host) (e : SyncEngine) (metadata : FileMetadata) (actionMs : Option Nat) : Bool :=
  let rel := metadata.relPath
  safeRelative rel && (e.vetoFor rel actionMs metadata.modifiedMs).isNone &&
    (h.createDirAll e.tree rel.dropLast).isSome && !h.fails (.openStaging rel) &&
    !h.fails (.resizeStaging rel)

theorem begin_marking (metadata : FileMetadata) (total : UInt32) (actionMs : Option Nat) :
    (e.beginLargeFileWithAction h metadata total actionMs).2.marking =
      let rel := metadata.relPath
      let tmp := h.blake3 (stagingKey rel)
      if begins h e metadata actionMs then { e.marking with
        suppressed := e.marking.suppressed ∪ [rel, stagingPath tmp].toFinset
        transfers := Function.update e.marking.transfers rel (some (rel, tmp)) }
      else e.marking := by
  unfold beginLargeFileWithAction begins
  simp only
  by_cases hsafe : safeRelative metadata.relPath = true
  case neg => simp [hsafe]
  cases hveto : e.vetoFor metadata.relPath actionMs metadata.modifiedMs with
  | some t => simp [hsafe]
  | none =>
    obtain ⟨dirty, file, hadm⟩ := exists_admitted h e metadata.relPath actionMs metadata.modifiedMs
    rw [hadm]
    cases hdirs : h.createDirAll e.tree metadata.relPath.dropLast with
    | none =>
      simp [hsafe]
      rfl
    | some t =>
      cases hopen : h.fails (.openStaging metadata.relPath) with
      | true =>
        simp [hsafe]
        rfl
      | false =>
        cases hresize : h.fails (.resizeStaging metadata.relPath) with
        | true =>
          simp [hsafe]
          rfl
        | false =>
          have hset : insert (stagingPath (h.blake3 (stagingKey metadata.relPath)))
              (insert metadata.relPath e.suppressed) = e.suppressed ∪
                [metadata.relPath, stagingPath (h.blake3 (stagingKey metadata.relPath))].toFinset := by
            ext p
            simp only [Finset.mem_insert, Finset.mem_union, List.mem_toFinset, List.mem_cons,
              List.not_mem_nil, or_false]
            tauto
          simp only [hsafe, Bool.not_true, Bool.false_eq_true, if_false, Option.isSome_none,
            Option.isNone_none, Option.isSome_some, Bool.and_self, Bool.not_false, if_true, marking,
            transfers_insert, hset]

theorem receive_marking (path : PathBuf) (i : UInt32) (data : Content) :
    (e.receiveLargeFileChunk h path i data).2.marking = e.marking := by
  unfold receiveLargeFileChunk
  cases hasm : e.inProgress.get path with
  | none => rfl
  | some asm =>
    cases hstaging : e.staging.get asm.tmp with
    | none => simp only [hstaging]
    | some c =>
      have hsame : ∀ st : FinMap Hash Content,
          ({ e with
              staging := st
              inProgress := e.inProgress.insert path
                { asm with received := insert i asm.received } } : SyncEngine).marking =
            e.marking := by
        intro st
        simp only [marking,
          transfers_renew hasm { asm with received := insert i asm.received } rfl rfl]
      simp only [hstaging]
      split
      · rfl
      · split
        · split <;> exact hsame _
        · exact hsame _

/-- Whether a commit replaces the destination: it is not vetoed, the staging file can be read
    and has the announced hash, and the disk takes the rename. -/
def commitInstalls (h : Host) (e : SyncEngine) (path : PathBuf) (asm : LargeFileAssembly)
    (finalHash : Hash) : Bool :=
  (e.vetoFor path asm.actionMs asm.modifiedMs).isNone && !h.fails (.readStaging path) &&
    Decidable.decide ((e.staging.get asm.tmp).map h.blake3 = some finalHash) &&
    !h.fails (.install asm.dst) && Decidable.decide (asm.dst ≠ []) &&
    e.tree.isDir asm.dst.dropLast && !e.tree.isDir asm.dst

/-- The conflict copy of a commit leaves the destination a file in its directory. -/
theorem saveCommitConflict_keeps {path dst : PathBuf} {finalHash : Hash}
    (hconflict : e.commitConflict h path dst finalHash = true) :
    (e.saveCommitConflict h path dst).2.marking = e.marking ∧
      (e.saveCommitConflict h path dst).2.tree.isDir dst = e.tree.isDir dst ∧
      (e.saveCommitConflict h path dst).2.tree.isDir dst.dropLast = e.tree.isDir dst.dropLast := by
  obtain ⟨c, m, hfile⟩ : ∃ c m, e.tree.get dst = some (.file c m) := by
    unfold commitConflict Host.hashFile FileTree.read at hconflict
    cases hm : e.manifest.files.get path with
    | none => simp [hm] at hconflict
    | some fm =>
      cases hget : e.tree.get dst with
      | none => simp [hm, hget] at hconflict
      | some n =>
        cases n with
        | dir m => simp [hm, hget] at hconflict
        | file c m => exact ⟨c, m, rfl⟩
  have hroot : dst ≠ [] := by
    intro hdst
    rw [hdst, FileTree.get_nil] at hfile
    cases hfile
  have hnodir : e.tree.isDir dst = false := by
    simp [FileTree.isDir, hfile, hroot, FileNode.isDir]
  have hparent : e.tree.isDir dst.dropLast = true :=
    e.tree.isDir_of_prefix hfile (List.dropLast_prefix dst) (FileTree.dropLast_ne hroot)
  rw [hnodir, hparent]
  generalize hr : conflictCopyName path e.nodeId h.unixSecs = r
  generalize ht : (h.createDirAll e.tree r.dropLast).getD e.tree = t
  have hmade : t.isDir dst = false ∧ t.isDir dst.dropLast = true := by
    cases hdirs : h.createDirAll e.tree r.dropLast with
    | none =>
      rw [hdirs] at ht
      obtain rfl : e.tree = t := ht
      exact ⟨hnodir, hparent⟩
    | some t₁ =>
      rw [hdirs] at ht
      obtain rfl : t₁ = t := ht
      have hcreate : e.tree.createDirAll h.nowMs r.dropLast = some t₁ := by
        unfold Host.createDirAll at hdirs
        split at hdirs
        · cases hdirs
        · exact hdirs
      refine ⟨?_, FileTree.isDir_createDirAll_of_isDir hcreate hparent⟩
      have hget := FileTree.get_createDirAll hcreate dst
      rw [if_neg (by simp [hfile]), hfile] at hget
      simp [FileTree.isDir, hget, hroot, FileNode.isDir]
  unfold saveCommitConflict
  simp only [hr, ht]
  cases hcopy : h.copy t dst r with
  | none => exact ⟨rfl, hmade⟩
  | some t' =>
    obtain ⟨data, hwrite⟩ : ∃ data, t.write r data h.nowMs = some t' := by
      unfold Host.copy at hcopy
      split at hcopy
      · cases hcopy
      · split at hcopy
        · next data _ => exact ⟨data, hcopy⟩
        · cases hcopy
    simp only [FileTree.isDir_write hwrite]
    exact ⟨rfl, hmade⟩

theorem install_marking {path : PathBuf} {asm : LargeFileAssembly} {finalHash : Hash}
    {c : Content} :
    (e.installLargeFile h path asm finalHash c).2.marking = { e.marking with
      unsuppress := e.marking.unsuppress ++
        if !h.fails (.install asm.dst) && Decidable.decide (asm.dst ≠ []) &&
            e.tree.isDir asm.dst.dropLast && !e.tree.isDir asm.dst then
          [[path, stagingPath asm.tmp]]
        else [] } := by
  have hsettled : ∀ r : Option ConflictInfo × SyncEngine,
      (if e.commitConflict h path asm.dst finalHash = true then e.saveCommitConflict h path asm.dst
        else (none, e)) = r → r.2.marking = e.marking ∧ r.2.tree.isDir asm.dst = e.tree.isDir asm.dst ∧
      r.2.tree.isDir asm.dst.dropLast = e.tree.isDir asm.dst.dropLast := by
    intro r hr
    split at hr
    · next hconflict =>
      subst hr
      exact saveCommitConflict_keeps hconflict
    · subst hr
      exact ⟨rfl, rfl, rfl⟩
  unfold installLargeFile
  generalize hr : (if e.commitConflict h path asm.dst finalHash = true then
    e.saveCommitConflict h path asm.dst else (none, e)) = r
  obtain ⟨hmarking, hdst, hparent⟩ := hsettled r hr
  rw [← hmarking, ← hdst, ← hparent]
  cases hfails : h.fails (.install asm.dst) with
  | true => simp
  | false =>
    simp only [Bool.false_eq_true, if_false, Bool.not_false, Bool.true_and]
    generalize (if h.fails (.setMtime asm.dst) = true then h.nowMs else asm.modifiedMs) = mtime
    cases hwrite : r.2.tree.write asm.dst c mtime with
    | none =>
      have hno : ¬ (asm.dst ≠ [] ∧ r.2.tree.isDir asm.dst.dropLast = true ∧
          r.2.tree.isDir asm.dst = false) := by
        have hnone := FileTree.write_eq_none_iff.mp hwrite
        simp only [ne_eq, not_and, Bool.not_eq_false]
        intro hroot hdir
        simpa [hroot, hdir] using hnone
      rw [if_neg (by simpa [and_assoc] using hno)]
      simp
    | some t =>
      have hyes : ¬ (asm.dst = [] ∨ r.2.tree.isDir asm.dst.dropLast = false ∨
          r.2.tree.isDir asm.dst = true) := by
        rw [← @FileTree.write_eq_none_iff _ _ _ _ _ c mtime, hwrite]
        simp
      simp only [not_or, Bool.not_eq_false, Bool.not_eq_true] at hyes
      obtain ⟨hroot, hdir, hnodir⟩ := hyes
      rw [if_pos (by simp [hroot, hdir, hnodir])]
      simp only
      rw [marking_scheduleUnsuppress, if_neg (by simp)]
      rfl

/-- A commit ends the transfer; it starts a timer only when it replaces the destination. -/
theorem commit_marking {path : PathBuf} {asm : LargeFileAssembly} {finalHash : Hash}
    (hasm : e.inProgress.get path = some asm) :
    (e.commitLargeFile h path finalHash).2.marking = { e.marking with
      unsuppress := e.marking.unsuppress ++
        if commitInstalls h e path asm finalHash then [[path, stagingPath asm.tmp]] else []
      transfers := Function.update e.marking.transfers path none } := by
  have hended : ∀ st : FinMap Hash Content, ({ e with
      inProgress := e.inProgress.erase path, staging := st } : SyncEngine).marking =
      { e.marking with
        unsuppress := e.marking.unsuppress ++ []
        transfers := Function.update e.marking.transfers path none } := by
    intro st
    simp only [marking, transfers_erase, List.append_nil]
  unfold commitLargeFile commitInstalls
  simp only [hasm]
  have hveto' : ({ e with inProgress := e.inProgress.erase path } : SyncEngine).vetoFor path
      asm.actionMs asm.modifiedMs = e.vetoFor path asm.actionMs asm.modifiedMs := rfl
  rw [hveto']
  cases hveto : e.vetoFor path asm.actionMs asm.modifiedMs with
  | some t => exact hended _
  | none =>
    have hadm : ((({ e with inProgress := e.inProgress.erase path } : SyncEngine).admitRecord path
        asm.actionMs asm.modifiedMs).flushLedger h).marking = { e.marking with
        unsuppress := e.marking.unsuppress ++ []
        transfers := Function.update e.marking.transfers path none } := by
      rw [marking_flushLedger, marking_admitRecord]
      exact hended e.staging
    simp only [Option.isSome_none, Bool.false_eq_true, if_false, Option.isNone_none, Bool.true_and,
      flushLedger_staging, admitRecord_staging]
    cases hstaging : e.staging.get asm.tmp with
    | none => simpa using hadm
    | some c =>
      cases hfails : h.fails (.readStaging path) with
      | true => simpa using hadm
      | false =>
        by_cases hhash : h.blake3 c = finalHash
        case neg =>
          have hstale : ∀ (e₁ : SyncEngine) (st : FinMap Hash Content),
              ({ e₁ with staging := st } : SyncEngine).marking = e₁.marking := fun _ _ => rfl
          simp only [hhash, ne_eq, not_false_eq_true, if_true, Bool.false_eq_true, if_false, hstale]
          simpa [hhash] using hadm
        simp only [hhash, ne_eq, not_true_eq_false, if_false, Bool.false_eq_true]
        rw [install_marking, hadm]
        simp [hhash]

/-- An end commits the transfer once all chunks are there. -/
theorem finish_marking {path : PathBuf} {asm : LargeFileAssembly}
    (hasm : e.inProgress.get path = some asm) (finalHash : Hash) :
    (e.finishLargeFile h path finalHash).2.marking =
      if asm.receivedCount < asm.totalChunks then e.marking
      else (e.commitLargeFile h path finalHash).2.marking := by
  unfold finishLargeFile
  simp only [hasm]
  split
  · simp only [marking,
      transfers_renew hasm { asm with finalHashPending := some finalHash } rfl rfl]
  · rfl

theorem clear_marking : e.clearInProgress.marking = { e.marking with transfers := fun _ => none } := rfl

/-! Deletes mark in their own set, and always start a timer. -/

theorem deleteTargets_marking (guarded : List PathBuf) (s : DeleteRun) (gone targets : List PathBuf) :
    ∃ new, (deleteTargets h guarded s gone targets).removed = s.removed ++ new ∧
      (deleteTargets h guarded s gone targets).engine.marking = { s.engine.marking with
        suppressedDeletes := s.engine.marking.suppressedDeletes ∪ new.toFinset } := by
  induction targets generalizing s gone with
  | nil => exact ⟨[], (List.append_nil _).symm, by simp [deleteTargets]⟩
  | cons target rest ih =>
    rw [deleteTargets]
    split
    · exact ih s gone
    · split
      · exact ih s gone
      · obtain ⟨new, hremoved, hmarking⟩ := ih { s with
          engine := { s.engine with
            suppressedDeletes := insert target s.engine.suppressedDeletes
            tree := h.moveToTrash s.engine.tree target
            manifest := { s.engine.manifest with
              files := s.engine.manifest.files.filter fun k _ =>
                !Decidable.decide (target <+: k) } }
          removed := s.removed ++ [target] } (gone ++ [target])
        refine ⟨target :: new, ?_, ?_⟩
        · rw [hremoved, List.append_assoc]
          rfl
        · rw [hmarking, List.toFinset_cons, Finset.union_insert, ← Finset.insert_union]
          rfl

theorem deletePath_marking (deletedAtMs : Nat) (s : DeleteRun) (rel : PathBuf) :
    ∃ new, (deletePath h deletedAtMs s rel).removed = s.removed ++ new ∧
      (deletePath h deletedAtMs s rel).engine.marking = { s.engine.marking with
        suppressedDeletes := s.engine.marking.suppressedDeletes ∪ new.toFinset } := by
  unfold deletePath
  split
  · exact ⟨[], (List.append_nil _).symm, by simp⟩
  · simp only
    split
    · exact ⟨manifestSubtree h s.engine.manifest rel, rfl, rfl⟩
    · exact deleteTargets_marking _ s [] _

theorem deletePaths_marking (deletedAtMs : Nat) (s : DeleteRun) (paths : List PathBuf) :
    ∃ new, (paths.foldl (deletePath h deletedAtMs) s).removed = s.removed ++ new ∧
      (paths.foldl (deletePath h deletedAtMs) s).engine.marking = { s.engine.marking with
        suppressedDeletes := s.engine.marking.suppressedDeletes ∪ new.toFinset } := by
  induction paths generalizing s with
  | nil => exact ⟨[], (List.append_nil _).symm, by simp⟩
  | cons rel rest ih =>
    obtain ⟨new, hremoved, hmarking⟩ := deletePath_marking (h := h) deletedAtMs s rel
    obtain ⟨more, hmore, hmarks⟩ := ih (deletePath h deletedAtMs s rel)
    refine ⟨new ++ more, ?_, ?_⟩
    · rw [List.foldl_cons, hmore, hremoved, List.append_assoc]
    · rw [List.foldl_cons, hmarks, hmarking, List.toFinset_append, Finset.union_assoc]

theorem applyDeletes_marking (paths : List PathBuf) (deletedAtMs : Nat) (deleter : String) :
    ∃ removed : List PathBuf, (e.applyDeletes h paths deletedAtMs deleter).2.marking =
      { e.marking with
        suppressedDeletes := e.marking.suppressedDeletes ∪ removed.toFinset
        unsuppressDeletes := e.marking.unsuppressDeletes ++
          if removed = [] then [] else [removed] } := by
  obtain ⟨new, hremoved, hmarking⟩ := deletePaths_marking (h := h) deletedAtMs ⟨e, [], [], 0⟩ paths
  refine ⟨(new.insertionSort (· ≤ ·)).dedup, ?_⟩
  have hset : (new.insertionSort (· ≤ ·)).dedup.toFinset = new.toFinset := by
    ext p
    simp
  unfold applyDeletes
  simp only [marking_scheduleUnsuppressDeletes, hset]
  rw [hremoved, List.nil_append]
  split
  · rw [hmarking]
  · rw [marking_flushLedger, marking_ledgerMut, hmarking]

/-! Renames. -/

/-- The paths that the move of a source marks, as its timer gets them. -/
def moveMarks (h : Host) (e : SyncEngine) (source target : PathBuf) : List PathBuf :=
  ((source :: target :: (remapPairs h e.manifest source target).flatMap fun pr =>
    [pr.1, pr.2]).insertionSort (· ≤ ·)).dedup

/-- The parent of the target cannot be made, or the rename fails and there is no target. -/
def moveFails (h : Host) (e : SyncEngine) (source target : PathBuf) : Bool :=
  match h.createDirAll e.tree target.dropLast with
  | none => true
  | some t => (h.rename t source target).isNone && !t.pathExists target

theorem moveRename_marking (source target : PathBuf) :
    (e.moveRename h source target).2.marking = { e.marking with
      suppressed := e.marking.suppressed ∪ (moveMarks h e source target).toFinset
      unsuppress := e.marking.unsuppress ++
        if moveFails h e source target then [] else [moveMarks h e source target] } := by
  have hset : (source :: target :: (remapPairs h e.manifest source target).flatMap fun pr =>
      [pr.1, pr.2]).toFinset = (moveMarks h e source target).toFinset := by
    unfold moveMarks
    ext p
    simp
  have hsome : moveMarks h e source target ≠ [] := by
    intro hnil
    have hmem : source ∈ (moveMarks h e source target).toFinset := by
      rw [← hset]
      simp
    simp [hnil] at hmem
  unfold moveRename moveFails
  simp only
  cases hdirs : h.createDirAll e.tree target.dropLast with
  | none =>
    simp only [hset, if_true, List.append_nil]
    rfl
  | some t =>
    simp only [hset]
    split
    · rw [List.append_nil]
      rfl
    · show (scheduleUnsuppress _ (moveMarks h e source target)).marking = _
      rw [marking_scheduleUnsuppress, if_neg hsome]
      rfl

/-- The paths that the rename of a missing source marks. -/
def convergeMarks (h : Host) (e : SyncEngine) (source target : PathBuf) : List PathBuf :=
  if e.tree.pathExists target then
    (remapPairs h e.manifest source target).flatMap fun pr => [pr.1, pr.2]
  else []

theorem convergeRename_marking (source target : PathBuf) :
    (e.convergeRename h source target).marking = { e.marking with
      suppressed := e.marking.suppressed ∪ (convergeMarks h e source target).toFinset
      unsuppress := e.marking.unsuppress ++
        if convergeMarks h e source target = [] then [] else [convergeMarks h e source target] } := by
  unfold convergeRename convergeMarks
  split
  · simp only
    split
    · next hnil => simp [hnil]
    · rw [marking_scheduleUnsuppress]
      rfl
  · simp

/-- A rename that is let through and has a source. -/
def movesSource (e : SyncEngine) (source target : PathBuf) (actionMs : Nat) : Bool :=
  safeRelative source && safeRelative target && (e.vetoFor target (some actionMs) 0).isNone &&
    e.tree.pathExists source

/-- A rename is refused, deletes the source, or marks and starts a timer unless the move fails. -/
theorem applyRenameAt_marking (source target : PathBuf) (actionMs : Nat) (deleter : String) :
    (e.applyRenameAt h source target actionMs deleter).2.marking = { e.marking with
        suppressed := e.marking.suppressed ∪ (moveMarks h e source target).toFinset
        unsuppress := e.marking.unsuppress ++
          if moveFails h e source target then [] else [moveMarks h e source target] } ∧
        movesSource e source target actionMs = true ∨
      movesSource e source target actionMs = false ∧ (∃ marks : List PathBuf,
        (e.applyRenameAt h source target actionMs deleter).2.marking = { e.marking with
          suppressed := e.marking.suppressed ∪ marks.toFinset
          unsuppress := e.marking.unsuppress ++ if marks = [] then [] else [marks] }) ∨
      movesSource e source target actionMs = false ∧
        (e.applyRenameAt h source target actionMs deleter).2 =
          (e.applyDeletes h [source] actionMs deleter).2 := by
  unfold movesSource applyRenameAt
  cases hs : safeRelative source && safeRelative target with
  | false =>
    have hunsafe : (!safeRelative source || !safeRelative target) = true := by
      rw [← Bool.not_and, hs]
      rfl
    rw [if_pos hunsafe]
    exact .inr (.inl ⟨rfl, [], by simp⟩)
  | true =>
    have hsafe : (!safeRelative source || !safeRelative target) = false := by
      rw [← Bool.not_and, hs]
      rfl
    simp only [hsafe, Bool.false_eq_true, if_false]
    cases hveto : e.vetoFor target (some actionMs) 0 with
    | some t => exact .inr (.inr ⟨rfl, rfl⟩)
    | none =>
      obtain ⟨dirty, file, hadm⟩ := exists_admitted h e target (some actionMs) 0
      generalize (e.admitRecord target (some actionMs) 0).ledger = l at hadm
      simp only [Option.isSome_none, Bool.false_eq_true, if_false, hadm, Option.isNone_none,
        Bool.true_and]
      cases hsource : e.tree.pathExists source with
      | false => exact .inr (.inl ⟨rfl, _, convergeRename_marking (e := { e with
          ledger := l, ledgerDirty := dirty, ledgerFile := file }) source target⟩)
      | true => exact .inl ⟨moveRename_marking (e := { e with
          ledger := l, ledgerDirty := dirty, ledgerFile := file }) source target, rfl⟩

theorem fire_marking {i : Nat} (hfire : e.fireUnsuppress i = some e') :
    ∃ paths, e.unsuppress[i]? = some paths ∧ e'.marking = { e.marking with
      suppressed := e.marking.suppressed \ paths.toFinset
      unsuppress := e.marking.unsuppress.eraseIdx i } := by
  obtain ⟨paths, hpaths, rfl⟩ := Option.map_eq_some_iff.mp hfire
  exact ⟨paths, hpaths, rfl⟩

theorem fireDeletes_marking {i : Nat} (hfire : e.fireUnsuppressDeletes i = some e') :
    ∃ paths, e.unsuppressDeletes[i]? = some paths ∧ e'.marking = { e.marking with
      suppressedDeletes := e.marking.suppressedDeletes \ paths.toFinset
      unsuppressDeletes := e.marking.unsuppressDeletes.eraseIdx i } := by
  obtain ⟨paths, hpaths, rfl⟩ := Option.map_eq_some_iff.mp hfire
  exact ⟨paths, hpaths, rfl⟩

end SyncEngine

/-! ## The engine's sets are mark sets -/

namespace Marking

/-- What the transfer of `p` has marked. -/
def heldBy (transfers : PathBuf → Option (PathBuf × Hash)) (p : PathBuf) : List PathBuf :=
  ((transfers p).map fun x => [x.1, stagingPath x.2]).getD []

def marks (m : Marking) (stranded : List PathBuf) : MarkSet PathBuf PathBuf :=
  ⟨m.suppressed, m.unsuppress, heldBy m.transfers, stranded⟩

def deleteMarks (m : Marking) : MarkSet PathBuf PathBuf :=
  ⟨m.suppressedDeletes, m.unsuppressDeletes, fun _ => [], []⟩

/-- Every transfer is staged under the name that its path gives. -/
def Staged (blake3 : Content → Hash) (m : Marking) : Prop :=
  ∀ p x, m.transfers p = some x → x = (p, blake3 (stagingKey p))

variable {m : Marking} {S : List PathBuf} {ok : Prop} {p : PathBuf} {x : PathBuf × Hash}

theorem heldBy_of_some {transfers : PathBuf → Option (PathBuf × Hash)}
    (hx : transfers p = some x) : heldBy transfers p = [x.1, stagingPath x.2] := by
  rw [heldBy, hx]
  rfl

theorem heldBy_update (transfers : PathBuf → Option (PathBuf × Hash)) (p : PathBuf)
    (x : Option (PathBuf × Hash)) :
    heldBy (Function.update transfers p x) =
      Function.update (heldBy transfers) p ((x.map fun x => [x.1, stagingPath x.2]).getD []) := by
  funext q
  unfold heldBy
  rw [Function.update_apply, Function.update_apply]
  split <;> rfl

/-- Marks with their timer, if there are any. -/
theorem proceeds_timed (l : List PathBuf) :
    MarkSet.Proceeds ok (m.marks S) (({ m with
      suppressed := m.suppressed ∪ l.toFinset
      unsuppress := m.unsuppress ++ if l = [] then [] else [l] } : Marking).marks S) := by
  by_cases hl : l = []
  · subst hl
    rw [List.toFinset_nil, Finset.union_empty, if_pos rfl, List.append_nil]
    exact .refl ok _
  · rw [if_neg hl]
    exact .single (.timed l) rfl (by simp) fun _ => rfl

/-- Marks without a timer. -/
theorem proceeds_strand (l : List PathBuf) (hok : ok → l = []) :
    MarkSet.Proceeds ok (m.marks S) (({ m with
      suppressed := m.suppressed ∪ l.toFinset } : Marking).marks (S ++ l)) := by
  by_cases hl : l = []
  · subst hl
    rw [List.toFinset_nil, Finset.union_empty, List.append_nil]
    exact .refl ok _
  · exact .single (.strand l) rfl (by simp) fun h => absurd (hok h) hl

/-- A transfer begins, or begins again. -/
theorem proceeds_hold {blake3 : Content → Hash} (hst : m.Staged blake3) (p : PathBuf) :
    let tmp := blake3 (stagingKey p)
    MarkSet.Proceeds ok (m.marks S) (({ m with
      suppressed := m.suppressed ∪ [p, stagingPath tmp].toFinset
      transfers := Function.update m.transfers p (some (p, tmp)) } : Marking).marks S) := by
  refine .single (.hold p [p, stagingPath (blake3 (stagingKey p))]) ?_ (by simp)
    fun _ => rfl
  have hbefore : (m.marks S).held p = [] ∨
      (m.marks S).held p = [p, stagingPath (blake3 (stagingKey p))] := by
    show heldBy m.transfers p = [] ∨ heldBy m.transfers p = _
    cases hp : m.transfers p with
    | none =>
      rw [heldBy, hp]
      exact .inl rfl
    | some x =>
      rw [heldBy_of_some hp, hst p x hp]
      exact .inr rfl
  rw [MarkSet.step, if_pos hbefore]
  simp only [marks, heldBy_update]
  rfl

theorem proceeds_handOver (hx : m.transfers p = some x) :
    MarkSet.Proceeds ok (m.marks S) (({ m with
      unsuppress := m.unsuppress ++ [[x.1, stagingPath x.2]]
      transfers := Function.update m.transfers p none } : Marking).marks S) := by
  refine .single (.handOver p) ?_ (by simp) fun _ => rfl
  simp only [MarkSet.step, marks, heldBy_update, heldBy_of_some hx]
  rfl

theorem proceeds_giveUp (hx : m.transfers p = some x) (hok : ¬ ok) :
    MarkSet.Proceeds ok (m.marks S) (({ m with
      transfers := Function.update m.transfers p none } : Marking).marks
        (S ++ [x.1, stagingPath x.2])) := by
  refine .single (.giveUp p) ?_ (by simp) fun h => absurd h hok
  simp only [MarkSet.step, marks, heldBy_update, heldBy_of_some hx]
  rfl

end Marking

/-! ## Calls that end without a timer -/

/-- What a commit gives up: nothing when it replaces the destination. -/
def SyncEngine.commitStrands (h : Host) (e : SyncEngine) (path : PathBuf) (finalHash : Hash) :
    List PathBuf :=
  match e.inProgress.get path with
  | none => []
  | some asm =>
    if e.commitInstalls h path asm finalHash then [] else [asm.dst, stagingPath asm.tmp]

/-- The paths that a call marks, or ends the transfer of, without starting a timer: those of a
    bundle with an entry that the disk refuses, of a commit that installs nothing, of the
    transfers that are cleared and of a move that fails. -/
def EngineCall.strands (h : Host) (e : SyncEngine) : EngineCall → List PathBuf
  | .applyBundle bundle =>
    if e.bundleRefused h bundle.files then e.bundleMarks h bundle.files else []
  | .finishLargeFile path finalHash =>
    match e.inProgress.get path with
    | none => []
    | some asm =>
      if asm.receivedCount < asm.totalChunks then [] else e.commitStrands h path finalHash
  | .commitLargeFile path finalHash => e.commitStrands h path finalHash
  | .clearInProgress =>
    (h.order.toList e.inProgress.keys).flatMap (Marking.heldBy e.marking.transfers)
  | .applyRenameAt source target actionMs _ =>
    if e.movesSource source target actionMs && e.moveFails h source target then
      e.moveMarks h source target
    else []
  | _ => []

namespace EngineStep

variable {blake3 : Content → Hash}

def step (e : SyncEngine) (x : EngineStep blake3) : Option SyncEngine := e.call x.host x.call

/-- What the step strands. -/
def strands (e : SyncEngine) (x : EngineStep blake3) : List PathBuf := x.call.strands x.host e

variable {e e' : SyncEngine} {x : EngineStep blake3} {S : List PathBuf}

theorem commit_proceeds {h : Host} {path : PathBuf} {finalHash : Hash}
    (hst : e.marking.Staged blake3) :
    MarkSet.Proceeds (e.commitStrands h path finalHash = []) (e.marking.marks S)
      ((e.commitLargeFile h path finalHash).2.marking.marks
        (S ++ e.commitStrands h path finalHash)) := by
  unfold SyncEngine.commitStrands
  cases hasm : e.inProgress.get path with
  | none =>
    simp only [SyncEngine.commitLargeFile, hasm, List.append_nil]
    exact .refl _ _
  | some asm =>
    have hx : e.marking.transfers path = some (asm.dst, asm.tmp) := by
      show (e.inProgress.get path).map _ = _
      rw [hasm]
      rfl
    have hdst : asm.dst = path := (Prod.mk.inj (hst path _ hx)).1
    rw [SyncEngine.commit_marking hasm]
    by_cases hin : e.commitInstalls h path asm finalHash = true
    · simp only [hin, if_true, List.append_nil]
      rw [hdst] at hx
      exact Marking.proceeds_handOver hx
    · simp only [hin, Bool.false_eq_true, if_false, List.append_nil]
      exact Marking.proceeds_giveUp hx (by simp)

/-- Transfers that are given up one by one. -/
theorem giveUps_proceed {keys : List PathBuf} (hnodup : keys.Nodup) {m : Marking}
    (hall : ∀ p ∈ keys, m.transfers p ≠ none) :
    MarkSet.Proceeds False (m.marks S) (({ m with
      transfers := fun q => if q ∈ keys then none else m.transfers q } : Marking).marks
        (S ++ keys.flatMap (Marking.heldBy m.transfers))) := by
  induction keys generalizing m S with
  | nil => simpa using MarkSet.Proceeds.refl False (m.marks S)
  | cons p keys ih =>
    obtain ⟨hp, hnodup⟩ := List.nodup_cons.mp hnodup
    obtain ⟨x, hx⟩ := Option.ne_none_iff_exists'.mp (hall p (by simp))
    -- The other transfers are as before once `p` is given up.
    have hothers : ∀ q ∈ keys, Function.update m.transfers p none q = m.transfers q := by
      intro q hq
      have hqp : q ≠ p := fun heq => hp (heq ▸ hq)
      exact Function.update_of_ne hqp _ _
    have hrest := ih (S := S ++ [x.1, stagingPath x.2]) hnodup
      (m := { m with transfers := Function.update m.transfers p none }) fun q hq => by
        show Function.update m.transfers p none q ≠ none
        rw [hothers q hq]
        exact hall q (List.mem_cons_of_mem _ hq)
    have hheld : keys.flatMap (Marking.heldBy (Function.update m.transfers p none)) =
        keys.flatMap (Marking.heldBy m.transfers) :=
      List.flatMap_congr fun q hq => by rw [Marking.heldBy, Marking.heldBy, hothers q hq]
    have hleft : (fun q => if q ∈ keys then none else Function.update m.transfers p none q) =
        fun q => if q ∈ p :: keys then none else m.transfers q := by
      funext q
      by_cases hqp : q = p
      · subst hqp
        simp
      · simp [hqp]
    simp only [hheld, hleft] at hrest
    rw [List.flatMap_cons, Marking.heldBy_of_some hx, ← List.append_assoc]
    exact (Marking.proceeds_giveUp hx id).trans hrest

theorem clear_proceeds (h : Host) :
    MarkSet.Proceeds
      ((h.order.toList e.inProgress.keys).flatMap (Marking.heldBy e.marking.transfers) = [])
      (e.marking.marks S) (e.clearInProgress.marking.marks
        (S ++ (h.order.toList e.inProgress.keys).flatMap (Marking.heldBy e.marking.transfers))) := by
  have hkeys : ∀ p, p ∈ h.order.toList e.inProgress.keys ↔ e.marking.transfers p ≠ none := by
    intro p
    rw [h.order.mem_toList, e.inProgress.mem_keys]
    show _ ↔ (e.inProgress.get p).map _ ≠ none
    cases e.inProgress.get p <;> simp
  have hgone : (fun q => if q ∈ h.order.toList e.inProgress.keys then none
      else e.marking.transfers q) = fun _ => none := by
    funext q
    split
    · rfl
    · next hq => simpa using (hkeys q).not.mp hq
  have hrun := giveUps_proceed (S := S) (h.order.nodup _) fun p hp => (hkeys p).mp hp
  rw [hgone] at hrun
  rw [SyncEngine.clear_marking]
  by_cases hnil : h.order.toList e.inProgress.keys = []
  · rw [hnil, List.flatMap_nil, List.append_nil] at hrun ⊢
    rw [hnil] at hgone
    have hsame : (fun _ : PathBuf => (none : Option (PathBuf × Hash))) = e.marking.transfers := by
      rw [← hgone]
      funext q
      simp
    rw [hsame]
    exact .refl _ _
  · refine hrun.mono fun hempty => ?_
    obtain ⟨p, hp⟩ := List.exists_mem_of_ne_nil _ hnil
    obtain ⟨x, hx⟩ := Option.ne_none_iff_exists'.mp ((hkeys p).mp hp)
    have hheld := List.flatMap_eq_nil_iff.mp hempty p hp
    rw [Marking.heldBy_of_some hx] at hheld
    cases hheld

/-- What a call does to the engine's set of suppressed paths is what mark events do. -/
theorem call_cases (hst : e.marking.Staged blake3) (hcall : x.step e = some e') :
    (∃ i, x.call = .fireUnsuppress i ∧
      (e.marking.marks S).step (.fire i) = some (e'.marking.marks (S ++ x.strands e))) ∨
    (∀ i, x.call ≠ .fireUnsuppress i) ∧
      MarkSet.Proceeds (x.strands e = []) (e.marking.marks S)
        (e'.marking.marks (S ++ x.strands e)) := by
  obtain ⟨h, hhash, call⟩ := x
  unfold step strands SyncEngine.call at *
  cases call with
  | applyBundle bundle =>
    cases hcall
    refine .inr ⟨by simp, ?_⟩
    simp only [EngineCall.strands]
    rw [SyncEngine.applyBundle_marking]
    by_cases href : e.bundleRefused h bundle.files = true
    · simp only [href, true_or, if_true, List.append_nil]
      exact Marking.proceeds_strand _ id
    · simp only [href, Bool.false_eq_true, false_or, if_false, List.append_nil]
      exact Marking.proceeds_timed _
  | beginLargeFile metadata totalChunks actionMs =>
    cases hcall
    refine .inr ⟨by simp, ?_⟩
    simp only [EngineCall.strands, List.append_nil]
    rw [SyncEngine.begin_marking, hhash]
    simp only
    split
    · exact Marking.proceeds_hold hst metadata.relPath
    · exact .refl _ _
  | receiveLargeFileChunk path i data =>
    cases hcall
    refine .inr ⟨by simp, ?_⟩
    simp only [EngineCall.strands, List.append_nil]
    rw [SyncEngine.receive_marking]
    exact .refl _ _
  | finishLargeFile path finalHash =>
    cases hcall
    refine .inr ⟨by simp, ?_⟩
    simp only [EngineCall.strands]
    cases hasm : e.inProgress.get path with
    | none =>
      simp only [SyncEngine.finishLargeFile, hasm, List.append_nil]
      exact .refl _ _
    | some asm =>
      simp only
      rw [SyncEngine.finish_marking hasm]
      split
      · rw [List.append_nil]
        exact .refl _ _
      · exact commit_proceeds hst
  | commitLargeFile path finalHash =>
    cases hcall
    exact .inr ⟨by simp, commit_proceeds hst⟩
  | clearInProgress =>
    cases hcall
    exact .inr ⟨by simp, clear_proceeds h⟩
  | applyRenameAt source target actionMs deleter =>
    cases hcall
    refine .inr ⟨by simp, ?_⟩
    simp only [EngineCall.strands]
    obtain ⟨hmarking, hmoves⟩ | ⟨hmoves, marks, hmarking⟩ | ⟨hmoves, hdeletes⟩ :=
      SyncEngine.applyRenameAt_marking (h := h) (e := e) source target actionMs deleter
    · rw [hmarking]
      by_cases hfails : e.moveFails h source target = true
      · simp only [hmoves, hfails, Bool.and_self, if_true, List.append_nil]
        exact Marking.proceeds_strand _ id
      · simp only [hmoves, hfails, Bool.and_false, Bool.false_eq_true, if_false, List.append_nil]
        exact .single (.timed (e.moveMarks h source target)) rfl (by simp) fun _ => rfl
    · rw [hmarking]
      simp only [hmoves, Bool.false_and, Bool.false_eq_true, if_false, List.append_nil]
      exact Marking.proceeds_timed _
    · -- A vetoed rename deletes its source.
      obtain ⟨removed, hmarking⟩ :=
        SyncEngine.applyDeletes_marking (h := h) (e := e) [source] actionMs deleter
      rw [hdeletes, hmarking]
      simp only [hmoves, Bool.false_and, Bool.false_eq_true, if_false, List.append_nil]
      exact .refl _ _
  | applyDeletes paths deletedAtMs deleter =>
    cases hcall
    refine .inr ⟨by simp, ?_⟩
    simp only [EngineCall.strands, List.append_nil]
    obtain ⟨removed, hmarking⟩ :=
      SyncEngine.applyDeletes_marking (h := h) (e := e) paths deletedAtMs deleter
    rw [hmarking]
    exact .refl _ _
  | fireUnsuppress i =>
    obtain ⟨paths, hpaths, hmarking⟩ := SyncEngine.fire_marking hcall
    refine .inl ⟨i, rfl, ?_⟩
    simp only [EngineCall.strands, List.append_nil]
    rw [hmarking]
    show ((e.unsuppress[i]?).map _) = _
    rw [hpaths]
    rfl
  | fireUnsuppressDeletes i =>
    obtain ⟨paths, hpaths, hmarking⟩ := SyncEngine.fireDeletes_marking hcall
    refine .inr ⟨by simp, ?_⟩
    simp only [EngineCall.strands, List.append_nil]
    rw [hmarking]
    exact .refl _ _

theorem commit_rest {h : Host} {path : PathBuf} {finalHash : Hash} :
    (e.commitLargeFile h path finalHash).2.marking.deleteMarks = e.marking.deleteMarks ∧
      ∀ p y, (e.commitLargeFile h path finalHash).2.marking.transfers p = some y →
        e.marking.transfers p = some y := by
  cases hasm : e.inProgress.get path with
  | none =>
    simp only [SyncEngine.commitLargeFile, hasm]
    exact ⟨trivial, fun _ _ hy => hy⟩
  | some asm =>
    rw [SyncEngine.commit_marking hasm]
    refine ⟨rfl, fun p y hy => ?_⟩
    simp only [Function.update_apply] at hy
    split at hy
    · cases hy
    · exact hy

theorem deletes_proceed (h : Host) (paths : List PathBuf) (deletedAtMs : Nat) (deleter : String) :
    MarkSet.Proceeds True e.marking.deleteMarks
        (e.applyDeletes h paths deletedAtMs deleter).2.marking.deleteMarks ∧
      (e.applyDeletes h paths deletedAtMs deleter).2.marking.transfers = e.marking.transfers := by
  obtain ⟨removed, hmarking⟩ :=
    SyncEngine.applyDeletes_marking (h := h) (e := e) paths deletedAtMs deleter
  rw [hmarking]
  refine ⟨?_, rfl⟩
  by_cases hnone : removed = []
  · subst hnone
    simpa [Marking.deleteMarks] using MarkSet.Proceeds.refl True e.marking.deleteMarks
  · rw [if_neg hnone]
    exact .single (.timed removed) rfl (by simp) fun _ => rfl

/-- Deletes start their timer with their marks; a transfer that was not there before is staged
    under the name of its path. -/
theorem call_rest (hst : e.marking.Staged blake3) (hcall : x.step e = some e') :
    ((∃ i, x.call = .fireUnsuppressDeletes i ∧
        e.marking.deleteMarks.step (.fire i) = some e'.marking.deleteMarks) ∨
      (∀ i, x.call ≠ .fireUnsuppressDeletes i) ∧
        MarkSet.Proceeds True e.marking.deleteMarks e'.marking.deleteMarks) ∧
    e'.marking.Staged blake3 := by
  obtain ⟨h, hhash, call⟩ := x
  unfold step SyncEngine.call at hcall
  cases call with
  | applyBundle bundle =>
    cases hcall
    rw [SyncEngine.applyBundle_marking]
    exact ⟨.inr ⟨by simp, .refl _ _⟩, hst⟩
  | beginLargeFile metadata totalChunks actionMs =>
    cases hcall
    rw [SyncEngine.begin_marking, hhash]
    simp only
    split
    · refine ⟨.inr ⟨by simp, .refl _ _⟩, fun p y hy => ?_⟩
      simp only [Function.update_apply] at hy
      split at hy
      · next hp =>
        cases hy
        rw [hp]
      · exact hst p y hy
    · exact ⟨.inr ⟨by simp, .refl _ _⟩, hst⟩
  | receiveLargeFileChunk path i data =>
    cases hcall
    rw [SyncEngine.receive_marking]
    exact ⟨.inr ⟨by simp, .refl _ _⟩, hst⟩
  | finishLargeFile path finalHash =>
    cases hcall
    cases hasm : e.inProgress.get path with
    | none =>
      simp only [SyncEngine.finishLargeFile, hasm]
      exact ⟨.inr ⟨by simp, .refl _ _⟩, hst⟩
    | some asm =>
      rw [SyncEngine.finish_marking hasm]
      split
      · exact ⟨.inr ⟨by simp, .refl _ _⟩, hst⟩
      · rw [commit_rest.1]
        exact ⟨.inr ⟨by simp, .refl _ _⟩, fun p y hy => hst p y (commit_rest.2 p y hy)⟩
  | commitLargeFile path finalHash =>
    cases hcall
    simp only
    rw [commit_rest.1]
    exact ⟨.inr ⟨by simp, .refl _ _⟩, fun p y hy => hst p y (commit_rest.2 p y hy)⟩
  | clearInProgress =>
    cases hcall
    rw [SyncEngine.clear_marking]
    exact ⟨.inr ⟨by simp, .refl _ _⟩, fun p y hy => by cases hy⟩
  | applyRenameAt source target actionMs deleter =>
    cases hcall
    obtain ⟨hmarking, -⟩ | ⟨-, marks, hmarking⟩ | ⟨-, hdeletes⟩ :=
      SyncEngine.applyRenameAt_marking (h := h) (e := e) source target actionMs deleter
    · rw [hmarking]
      exact ⟨.inr ⟨by simp, .refl _ _⟩, hst⟩
    · rw [hmarking]
      exact ⟨.inr ⟨by simp, .refl _ _⟩, hst⟩
    · obtain ⟨hproceeds, htransfers⟩ := deletes_proceed (e := e) h [source] actionMs deleter
      rw [hdeletes]
      refine ⟨.inr ⟨by simp, hproceeds⟩, fun p y hy => hst p y ?_⟩
      rwa [htransfers] at hy
  | applyDeletes paths deletedAtMs deleter =>
    cases hcall
    obtain ⟨hproceeds, htransfers⟩ := deletes_proceed (e := e) h paths deletedAtMs deleter
    refine ⟨.inr ⟨by simp, hproceeds⟩, fun p y hy => hst p y ?_⟩
    rwa [htransfers] at hy
  | fireUnsuppress i =>
    obtain ⟨paths, hpaths, hmarking⟩ := SyncEngine.fire_marking hcall
    rw [hmarking]
    exact ⟨.inr ⟨by simp, .refl _ _⟩, hst⟩
  | fireUnsuppressDeletes i =>
    obtain ⟨paths, hpaths, hmarking⟩ := SyncEngine.fireDeletes_marking hcall
    rw [hmarking]
    refine ⟨.inl ⟨i, rfl, ?_⟩, hst⟩
    show ((e.unsuppressDeletes[i]?).map _) = _
    rw [hpaths]
    rfl

end EngineStep

/-! ## No leak -/

namespace SyncEngine

/-- Nothing is suppressed, no timer runs and no transfer is in progress. -/
structure Unmarked (e : SyncEngine) : Prop where
  suppressed : e.suppressed = ∅
  suppressedDeletes : e.suppressedDeletes = ∅
  unsuppress : e.unsuppress = []
  unsuppressDeletes : e.unsuppressDeletes = []
  inProgress : e.inProgress = .empty

/-- `p` is the destination or the staging file of a transfer in progress. -/
def InTransfer (e : SyncEngine) (p : PathBuf) : Prop :=
  ∃ q asm, e.inProgress.get q = some asm ∧ (p = asm.dst ∨ p = stagingPath asm.tmp)

/-- Every suppressed path is on a pending timer or belongs to a transfer in progress. -/
def SuppressionAccounted (e : SyncEngine) : Prop :=
  ∀ p ∈ e.suppressed, (∃ paths ∈ e.unsuppress, p ∈ paths) ∨ e.InTransfer p

variable {e : SyncEngine} {S : List PathBuf}

theorem exists_mem_heldBy {p : PathBuf} :
    (∃ q, p ∈ Marking.heldBy e.marking.transfers q) ↔ e.InTransfer p := by
  refine exists_congr fun q => ?_
  show p ∈ (((e.inProgress.get q).map fun asm => (asm.dst, asm.tmp)).map _).getD [] ↔ _
  cases e.inProgress.get q <;> simp

theorem accounted_iff : (e.marking.marks S).Accounted ↔ e.SuppressionAccounted :=
  forall₂_congr fun _ _ => or_congr Iff.rfl exists_mem_heldBy

/-- The invariant of both sets. The staging names make a transfer that begins again safe. -/
structure MarksSound (blake3 : Content → Hash) (e : SyncEngine) : Prop where
  staged : e.marking.Staged blake3
  accounted : (e.marking.marks []).Accounted
  deletes : e.marking.deleteMarks.Accounted

theorem Unmarked.staged (h : e.Unmarked) (blake3 : Content → Hash) : e.marking.Staged blake3 := by
  intro p x hx
  have hnone : e.marking.transfers p = none := by
    show (e.inProgress.get p).map _ = none
    rw [h.inProgress]
    rfl
  rw [hnone] at hx
  cases hx

theorem Unmarked.sound (h : e.Unmarked) (blake3 : Content → Hash) : e.MarksSound blake3 := by
  refine ⟨h.staged blake3, fun p hp => ?_, fun p hp => ?_⟩
  · have hin : p ∈ e.suppressed := hp
    rw [h.suppressed] at hin
    simp at hin
  · have hin : p ∈ e.suppressedDeletes := hp
    rw [h.suppressedDeletes] at hin
    simp at hin

theorem MarksSound.step {blake3 : Content → Hash} {e' : SyncEngine} {x : EngineStep blake3}
    (h : e.MarksSound blake3) (hnone : x.strands e = []) (hcall : x.step e = some e') :
    e'.MarksSound blake3 := by
  obtain ⟨hdeletes, hst⟩ := EngineStep.call_rest h.staged hcall
  refine ⟨hst, ?_, ?_⟩
  · obtain ⟨i, -, hfire⟩ | ⟨-, hgo⟩ := EngineStep.call_cases (S := []) h.staged hcall
    · rw [hnone] at hfire
      exact MarkSet.accounted_step h.accounted rfl hfire
    · rw [hnone] at hgo
      exact hgo.accounted rfl h.accounted
  · obtain ⟨i, -, hfire⟩ | ⟨-, hgo⟩ := hdeletes
    · exact MarkSet.accounted_step h.deletes rfl hfire
    · exact hgo.accounted trivial h.deletes

theorem captureFsEvent_unmarked {h : Host} {j : ActionJournal} {event : FsEvent}
    (hs : e.suppressed = ∅) (hd : e.suppressedDeletes = ∅)
    (hexcl : ∀ p ∈ event.paths, e.isExcluded p = false) :
    e.captureFsEvent h j event = (event.userAction h.nowMs).record h j := by
  unfold captureFsEvent isSuppressed isDeleteSuppressed
  cases event <;> simp_all [FsEvent.paths]

end SyncEngine

namespace EngineStep

variable {blake3 : Content → Hash} {e₀ e : SyncEngine} {steps : List (EngineStep blake3)}

/-- As long as no call strands a path, every suppressed path is scheduled for removal or
    belongs to a transfer in progress. Once all timers have fired and no transfer is in
    progress, nothing is suppressed and every user action is journalled. -/
theorem no_leak (h₀ : e₀.Unmarked) (hrun : Run.runFrom step e₀ steps = some e)
    (hmeet : Run.StepsMeet step (fun e x => x.strands e = []) e₀ steps) :
    Run.Always step SyncEngine.SuppressionAccounted e₀ steps ∧
    (e.unsuppress = [] → e.unsuppressDeletes = [] → e.inProgress = .empty →
      e.suppressed = ∅ ∧ e.suppressedDeletes = ∅ ∧
      ∀ (h : Host) (j : ActionJournal) (event : FsEvent),
        (∀ p ∈ event.paths, e.isExcluded p = false) →
        e.captureFsEvent h j event = (event.userAction h.nowMs).record h j) := by
  have hstep : ∀ (e : SyncEngine) (x : EngineStep blake3) e', e.MarksSound blake3 →
      x.strands e = [] → step e x = some e' → e'.MarksSound blake3 :=
    fun _ _ _ hsound hnone hcall => hsound.step hnone hcall
  have halways := Run.always_of_stepsMeet hstep (h₀.sound blake3) hmeet hrun
  refine ⟨fun bs s' hpre hs' => SyncEngine.accounted_iff.mp (halways bs s' hpre hs').accounted, ?_⟩
  obtain ⟨-, hacc, hdel⟩ := halways steps e (List.prefix_refl _) hrun
  intro htimers hdeleteTimers htransfers
  have hs : e.suppressed = ∅ := by
    rw [Finset.eq_empty_iff_forall_notMem]
    intro p hp
    obtain ⟨paths, hpaths, -⟩ | ⟨q, asm, hasm, -⟩ := SyncEngine.accounted_iff.mp hacc p hp
    · simp [htimers] at hpaths
    · simp [htransfers] at hasm
  have hd : e.suppressedDeletes = ∅ := by
    rw [Finset.eq_empty_iff_forall_notMem]
    intro p hp
    obtain ⟨paths, hpaths, -⟩ | ⟨q, hq⟩ := hdel p hp
    · have hin : paths ∈ e.unsuppressDeletes := hpaths
      simp [hdeleteTimers] at hin
    · simp [Marking.deleteMarks] at hq
  exact ⟨hs, hd, fun h j event hexcl => SyncEngine.captureFsEvent_unmarked hs hd hexcl⟩

/-! A bundle that stops half-way. -/

private def entryOf (names : List String) : FileData :=
  ⟨⟨.ofNames names, 1, 0, 5, 0, false⟩, [1], some 5⟩

private def zeroHash : Content → Hash := fun _ => 0

private def at' (call : EngineCall) : EngineStep zeroHash := ⟨.reliable zeroHash 1000, rfl, call⟩

private def emptyRoot : SyncEngine := .new "client" (fun _ => false) .empty .new

private theorem emptyRoot_unmarked : emptyRoot.Unmarked := ⟨rfl, rfl, rfl, rfl, rfl⟩

theorem no_leak_oneBundle :
    ∃ e, Run.runFrom step emptyRoot
        [at' (.applyBundle ⟨[entryOf ["a"]], 0⟩), at' (.fireUnsuppress 0)] = some e ∧
      Run.Always step SyncEngine.SuppressionAccounted emptyRoot
        [at' (.applyBundle ⟨[entryOf ["a"]], 0⟩), at' (.fireUnsuppress 0)] ∧ e.suppressed = ∅ := by
  have hmeet : Run.StepsMeet step (fun e x => x.strands e = []) emptyRoot
      [at' (.applyBundle ⟨[entryOf ["a"]], 0⟩), at' (.fireUnsuppress 0)] :=
    Run.stepsMeet_of_meets (by decide +kernel)
  have hleak := no_leak emptyRoot_unmarked rfl hmeet
  exact ⟨_, rfl, hleak.1, (hleak.2 (by decide +kernel) (by decide +kernel) (by
    apply FinMap.ext_get
    intro k
    rfl)).1⟩

private def refusedBundle : List (EngineStep zeroHash) :=
  [at' (.applyBundle ⟨[entryOf ["b"]], 0⟩), at' (.applyBundle ⟨[entryOf ["a"], entryOf ["b", "x"]], 0⟩),
    at' (.fireUnsuppress 0)]

private def leaked : SyncEngine := (Run.runFrom step emptyRoot refusedBundle).getD emptyRoot

/-- The second bundle writes `a` and fails at `b/x`, since `b` is a file. Once the only timer has
    fired `a` is still suppressed, and a user's change of it is not journalled. -/
theorem refused_bundle_leaks :
    (¬ ∀ (blake3 : Content → Hash) (e₀ e : SyncEngine) (steps : List (EngineStep blake3)),
      e₀.Unmarked → Run.runFrom step e₀ steps = some e →
      Run.Always step SyncEngine.SuppressionAccounted e₀ steps) ∧
    Run.runFrom step emptyRoot refusedBundle = some leaked ∧ leaked.unsuppress = [] ∧
    ∀ (h : Host) (j : ActionJournal), leaked.captureFsEvent h j (.changed (.ofNames ["a"])) = j := by
  have hrun : Run.runFrom step emptyRoot refusedBundle = some leaked := rfl
  have htimers : leaked.unsuppress = [] := by decide +kernel
  have hmem : PathBuf.ofNames ["a"] ∈ leaked.suppressed := by decide +kernel
  refine ⟨fun h => ?_, hrun, htimers, fun h j => ?_⟩
  · have hacc := h zeroHash emptyRoot leaked refusedBundle emptyRoot_unmarked hrun _ _
      (List.prefix_refl _) hrun
    obtain ⟨paths, hpaths, -⟩ | ⟨q, asm, hasm, -⟩ := hacc _ hmem
    · simp [htimers] at hpaths
    · have hnone : leaked.inProgress.get q = none := rfl
      simp [hnone] at hasm
  · have hsup : leaked.isSuppressed (.ofNames ["a"]) = true := decide_eq_true hmem
    simp [SyncEngine.captureFsEvent, hsup]

end EngineStep

/-! ## No early end -/

/-- The engine and the paths whose marks no timer of their own will end: their calls stranded
    them. -/
structure MarkedEngine where
  engine : SyncEngine
  stranded : List PathBuf

namespace MarkedEngine

variable {blake3 : Content → Hash}

def step (γ : MarkedEngine) (x : EngineStep blake3) : Option MarkedEngine :=
  (x.step γ.engine).map fun e => ⟨e, γ.stranded ++ x.strands γ.engine⟩

/-- Some call has marked `p`, and its own timer has not fired. -/
def OpenOn (γ : MarkedEngine) (p : PathBuf) : Prop :=
  (∃ paths ∈ γ.engine.unsuppress, p ∈ paths) ∨ γ.engine.InTransfer p ∨ p ∈ γ.stranded

/-- Some delete has marked `p`, and its own timer has not fired. -/
def DeleteOpenOn (γ : MarkedEngine) (p : PathBuf) : Prop :=
  ∃ paths ∈ γ.engine.unsuppressDeletes, p ∈ paths

/-- Every mark that a call has made is in its set until the call's own timer has fired. -/
structure Kept (γ : MarkedEngine) : Prop where
  suppressed : ∀ p, γ.OpenOn p → p ∈ γ.engine.suppressed
  deletes : ∀ p, γ.DeleteOpenOn p → p ∈ γ.engine.suppressedDeletes

def marks (γ : MarkedEngine) : MarkSet PathBuf PathBuf := γ.engine.marking.marks γ.stranded

/-- A timer fires on paths that no other call has marked. -/
def FiresAlone (γ : MarkedEngine) (x : EngineStep blake3) : Prop :=
  match x.call with
  | .fireUnsuppress i => γ.marks.FiresAlone i
  | .fireUnsuppressDeletes i => γ.engine.marking.deleteMarks.FiresAlone i
  | _ => True

/-- The event is the echo of a write, a rename or a delete whose mark is still open. -/
def Echo (γ : MarkedEngine) : FsEvent → Prop
  | .changed p | .writeComplete p => γ.OpenOn p
  | .deleted p => γ.DeleteOpenOn p
  | .renamed f t => γ.OpenOn f ∨ γ.OpenOn t

variable {γ γ' : MarkedEngine} {x : EngineStep blake3}

theorem kept_iff : γ.Kept ↔ γ.marks.Kept ∧ γ.engine.marking.deleteMarks.Kept := by
  have hopen : ∀ p, γ.marks.Open p ↔ γ.OpenOn p := fun p =>
    or_congr Iff.rfl (or_congr SyncEngine.exists_mem_heldBy Iff.rfl)
  have hdelete : ∀ p, γ.engine.marking.deleteMarks.Open p ↔ γ.DeleteOpenOn p := by
    intro p
    constructor
    · rintro (h | ⟨_, h⟩ | h)
      · exact h
      · cases h
      · cases h
    · exact .inl
  constructor
  · intro h
    exact ⟨fun p hp => h.suppressed p ((hopen p).mp hp), fun p hp => h.deletes p ((hdelete p).mp hp)⟩
  · intro h
    exact ⟨fun p hp => h.1 p ((hopen p).mpr hp), fun p hp => h.2 p ((hdelete p).mpr hp)⟩

/-- A step keeps the marks exactly when it is no timer that takes out somebody else's. -/
theorem kept_step_iff (hst : γ.engine.marking.Staged blake3) (hkept : γ.Kept)
    (hstep : γ.step x = some γ') : γ'.Kept ↔ γ.FiresAlone x := by
  obtain ⟨e', hcall, rfl⟩ := Option.map_eq_some_iff.mp hstep
  obtain ⟨hmarks, hdeleteMarks⟩ := kept_iff.mp hkept
  obtain ⟨hdeletes, -⟩ := EngineStep.call_rest hst hcall
  rw [kept_iff]
  obtain ⟨i, hi, hfire⟩ | ⟨hnofire, hgo⟩ := EngineStep.call_cases (S := γ.stranded) hst hcall
  · -- A timer of the first set leaves the second alone.
    obtain ⟨i', hi', -⟩ | ⟨-, hrest⟩ := hdeletes
    · rw [hi] at hi'
      cases hi'
    · have hiff := MarkSet.kept_fire_iff hmarks hfire
      rw [FiresAlone, hi]
      exact (and_iff_left (hrest.kept hdeleteMarks)).trans hiff
  · have hkeep := hgo.kept hmarks
    obtain ⟨i, hi, hfire⟩ | ⟨hnodelete, hrest⟩ := hdeletes
    · have hiff := MarkSet.kept_fire_iff hdeleteMarks hfire
      rw [FiresAlone, hi]
      exact (and_iff_right hkeep).trans hiff
    · have halone : γ.FiresAlone x := by
        unfold FiresAlone
        split
        · next i hi => exact absurd hi (hnofire i)
        · next i hi => exact absurd hi (hnodelete i)
        · trivial
      exact iff_of_true ⟨hkeep, hrest.kept hdeleteMarks⟩ halone

theorem Kept.captureFsEvent {h : Host} {j : ActionJournal} {event : FsEvent} (hkept : γ.Kept)
    (hecho : γ.Echo event) : γ.engine.captureFsEvent h j event = j := by
  have hsup : ∀ p, γ.OpenOn p → γ.engine.isSuppressed p = true := fun p hp =>
    decide_eq_true (hkept.suppressed p hp)
  have hdel : ∀ p, γ.DeleteOpenOn p → γ.engine.isDeleteSuppressed p = true := fun p hp =>
    decide_eq_true (hkept.deletes p hp)
  unfold SyncEngine.captureFsEvent
  cases event with
  | changed p => simp [hsup p hecho]
  | writeComplete p => simp [hsup p hecho]
  | deleted p => simp [hdel p hecho]
  | renamed f t =>
    cases hecho with
    | inl hf => simp [hsup f hf]
    | inr ht => simp [hsup t ht]

open EngineStep in
private def writtenTwice : List (EngineStep zeroHash) :=
  [at' (.applyBundle ⟨[entryOf ["a"]], 0⟩), at' (.applyBundle ⟨[entryOf ["a"]], 0⟩),
    at' (.fireUnsuppress 0)]

private def exposed : MarkedEngine :=
  (Run.runFrom step ⟨EngineStep.emptyRoot, []⟩ writtenTwice).getD ⟨EngineStep.emptyRoot, []⟩

end MarkedEngine

end ByteHive
