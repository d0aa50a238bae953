import ByteHive.Spec.EngineFrame
import ByteHive.Spec.LedgerOrder
import ByteHive.Spec.Transfer

/-!
# Receiving what `send_paths` sends

The other end of `Emits`: a side that handles all messages for a list of paths without an
error holds every path as the sender does, and has changed nothing else but directories on
the way. No tombstone of the receiver may be newer than an incoming path, and its manifest
must list what it has on disk.

Key results:
- `received_step`: one message keeps `Received`
- `recvAll_received`: the whole receive loop
-/

namespace ByteHive

/-! ## Admission -/

namespace SyncEngine

/-- An admitted write only lifts tombstones. -/
theorem entries_admitRecord {e : SyncEngine} {p q : PathBuf} {a : Option Nat} {m : Nat}
    {tomb : Tombstone} (hq : (e.admitRecord p a m).ledger.entries.get q = some tomb) :
    e.ledger.entries.get q = some tomb := by
  have hrecord : ∀ a', (e.ledger.recordAlive p a').2.entries.get q = some tomb →
      e.ledger.entries.get q = some tomb := by
    intro a' hq
    rw [DeletionLedger.get_entries_recordAlive] at hq
    split at hq
    · next hqp =>
      rw [hqp.1]
      exact (Option.filter_eq_some_iff.mp hq).1
    · exact hq
  unfold admitRecord at hq
  split at hq
  · split at hq
    · exact hrecord _ hq
    · exact hq
  · split at hq
    · split at hq
      · exact hrecord _ hq
      · exact hq
    · exact hq

/-- No tombstone at or above the path is newer than the write. -/
theorem vetoFor_eq_none {e : SyncEngine} {p : PathBuf} {a : Option Nat} {m : Nat}
    (hold : ∀ q tomb, q <+: p → e.ledger.entries.get q = some tomb →
      tomb.deletedAtMs ≤ a.getD m) : e.vetoFor p a m = none := by
  unfold vetoFor
  rw [Option.map_eq_none_iff, Option.filter_eq_none_iff]
  intro tomb htomb
  obtain ⟨q, hq, heff⟩ := List.exists_of_findSome?_eq_some htomb
  have hget := (Option.filter_eq_some_iff.mp heff).1
  simpa using hold q tomb (mem_ancestors.mp hq).2 hget

end SyncEngine

/-! ## Trees on their way to the sender's -/

section

variable {α : Type} (blake3 : Content → α) (src : Tree) (ps : List PathBuf)

/-- From `t` to `t'` paths in `ps` may have come to hold what `src` holds, and directories of
    `src` may have been created where nothing was. -/
def Toward (t t' : Tree) : Prop :=
  ∀ q, look blake3 t' q = look blake3 t q ∨
    (q ∈ ps ∧ look blake3 t' q = look blake3 src q) ∨
    (t.get q = none ∧ look blake3 t' q = some none ∧ look blake3 src q = some none)

variable {blake3 src ps}

theorem look_eq_none_iff {t : Tree} {q : PathBuf} : look blake3 t q = none ↔ t.get q = none := by
  simp [look]

theorem Toward.refl (t : Tree) : Toward blake3 src ps t t := fun _ => .inl rfl

theorem Toward.trans {t t' t'' : Tree} (h : Toward blake3 src ps t t')
    (h' : Toward blake3 src ps t' t'') : Toward blake3 src ps t t'' := by
  intro q
  rcases h' q with h'q | h'q | ⟨hnone, h'q, hsrc⟩
  · rw [h'q]
    exact h q
  · exact .inr (.inl h'q)
  · -- Nothing was there yet, or `src` has nothing there either.
    rcases h q with hq | ⟨hmem, hq⟩ | ⟨-, hq, -⟩
    · rw [look_eq_none_iff.mpr hnone] at hq
      exact .inr (.inr ⟨look_eq_none_iff.mp hq.symm, h'q, hsrc⟩)
    · exact .inr (.inl ⟨hmem, h'q.trans hsrc.symm⟩)
    · rw [look_eq_none_iff.mpr hnone] at hq
      cases hq

/-- What has arrived stays. -/
theorem Toward.keeps {t t' : Tree} (h : Toward blake3 src ps t t') {q : PathBuf}
    (hq : look blake3 t q = look blake3 src q) : look blake3 t' q = look blake3 src q := by
  rcases h q with h' | ⟨-, h'⟩ | ⟨-, h', hsrc⟩
  · exact h'.trans hq
  · exact h'
  · exact h'.trans hsrc.symm

/-- Above an entry there are directories. -/
theorem look_parent {p q : PathBuf} {n : FileNode Content} (hp : src.get p = some n) (hq : q <+: p)
    (hne : q ≠ p) (hroot : q ≠ []) : look blake3 src q = some none := by
  have hdir := src.isDir_of_prefix hp hq hne
  simp only [FileTree.isDir, hroot, decide_false, Bool.false_or, Option.any_eq_true] at hdir
  obtain ⟨d, hd, hdir⟩ := hdir
  cases d with
  | dir m => simp [look, hd, digest]
  | file c m => simp [FileNode.isDir] at hdir

theorem ne_of_prefix_dropLast {p q : PathBuf} (hp : p ≠ []) (hq : q <+: p.dropLast) : q ≠ p := by
  rintro rfl
  exact FileTree.not_prefix_dropLast hp hq

theorem Toward.createDirAll {h : Host} {t t' : Tree} {p : PathBuf}
    (hr : h.createDirAll t p = some t')
    (hsrc : ∀ q, q ≠ [] → q <+: p → look blake3 src q = some none) :
    Toward blake3 src ps t t' := by
  unfold Host.createDirAll at hr
  split at hr
  · cases hr
  · intro q
    have hget := FileTree.get_createDirAll hr q
    split at hget
    · next hq =>
      exact .inr (.inr ⟨hq.2.2, by simp [look, hget, digest], hsrc q hq.1 hq.2.1⟩)
    · exact .inl (by simp [look, hget])

/-- After `create_dir_all` there is a directory. -/
theorem look_createDirAll {h : Host} {t t' : Tree} {p : PathBuf} (hp : p ≠ [])
    (hr : h.createDirAll t p = some t') : look blake3 t' p = some none := by
  unfold Host.createDirAll at hr
  split at hr
  · cases hr
  · have hfile : t.isFile p = false := by
      by_contra hfile
      have hnone : t.createDirAll h.nowMs p = none :=
        FileTree.createDirAll_eq_none_iff.mpr ⟨p, List.prefix_refl p, by simpa using hfile⟩
      rw [hnone] at hr
      cases hr
    have hget := FileTree.get_createDirAll hr p
    cases hn : t.get p with
    | none =>
      rw [if_pos ⟨hp, List.prefix_refl p, hn⟩] at hget
      simp [look, hget, digest]
    | some n =>
      rw [if_neg (by simp [hn]), hn] at hget
      cases n with
      | dir m => simp [look, hget, digest]
      | file c m => simp [FileTree.isFile, hn, FileNode.isDir] at hfile

theorem look_write {t t' : Tree} {p q : PathBuf} {c : Content} {m : Nat}
    (hr : t.write p c m = some t') :
    look blake3 t' q = if q = p then some (some (blake3 c)) else look blake3 t q := by
  unfold look
  rw [FileTree.get_write hr]
  split <;> rfl

theorem Toward.write {t t' : Tree} {p : PathBuf} {c : Content} {m : Nat}
    (hr : t.write p c m = some t') (hp : p ∈ ps) (hsrc : look blake3 src p = some (some (blake3 c))) :
    Toward blake3 src ps t t' := by
  intro q
  have hq : look blake3 t' q = _ := look_write hr
  split at hq
  · next hqp =>
    subst hqp
    exact .inr (.inl ⟨hp, hq.trans hsrc.symm⟩)
  · exact .inl hq

theorem look_setMtime (t : Tree) (p q : PathBuf) (m : Nat) :
    look blake3 (t.setMtime p m) q = look blake3 t q := by
  unfold look
  rw [FileTree.get_setMtime]
  split
  · next hq =>
    subst hq
    cases hn : t.get q with
    | none => rfl
    | some n => cases n <;> rfl
  · rfl

theorem look_setDirMtimes (h : Host) (t : Tree) (ds : List (PathBuf × Nat)) (q : PathBuf) :
    look blake3 (SyncEngine.setDirMtimes h t ds) q = look blake3 t q := by
  have hfold : ∀ (ds : List (PathBuf × Nat)) (t : Tree), look blake3 (ds.foldl (fun t d =>
      if h.fails (.setMtime d.1) then t else t.setMtime d.1 d.2) t) q = look blake3 t q := by
    intro ds
    induction ds with
    | nil => exact fun _ => rfl
    | cons d ds ih =>
      intro t
      rw [List.foldl_cons, ih]
      split
      · rfl
      · exact look_setMtime t d.1 q d.2
  exact hfold _ t

end

/-! ## One entry of a bundle -/

/-- The manifest of the receiver lists nothing at a path to come but what the path holds, on
    one side or the other: `detect_conflict` finds no local change. -/
def NoConflict (blake3 : Content → Hash) (src : Tree) (ps : List PathBuf) (m : Manifest)
    (t : Tree) : Prop :=
  ∀ q ∈ ps, ∀ fm, m.files.get q = some fm →
    some fm.hash = (look blake3 src q).map (·.getD 0) ∨ look blake3 t q = look blake3 src q ∨
      some fm.hash = (look blake3 t q).map (·.getD 0)

section

variable (h : Host) (src : Tree) (stamp : PathBuf → Nat → Option Nat) (ps : List PathBuf)

/-- No tombstone is newer than a path to come. -/
def Admits (l : DeletionLedger) : Prop :=
  ∀ p ∈ ps, ∀ n, src.get p = some n → ∀ q tomb, q <+: p → l.entries.get q = some tomb →
    tomb.deletedAtMs ≤ (stamp p n.mtime).getD n.mtime

/-- What some messages may have changed from `e` to `e'`. -/
structure Receives (e e' : SyncEngine) : Prop where
  tree : Toward h.blake3 src ps e.tree e'.tree
  tombstones : ∀ q tomb, e'.ledger.entries.get q = some tomb → e.ledger.entries.get q = some tomb
  manifest : ∀ q fm, e'.manifest.files.get q = some fm → e.manifest.files.get q = some fm ∨
    some fm.hash = (look h.blake3 src q).map (·.getD 0)

variable {h src stamp ps}

theorem Receives.refl (e : SyncEngine) : Receives h src ps e e :=
  ⟨.refl _, fun _ _ => id, fun _ _ => .inl⟩

theorem Receives.trans {e e' e'' : SyncEngine} (he : Receives h src ps e e')
    (he' : Receives h src ps e' e'') : Receives h src ps e e'' where
  tree := he.tree.trans he'.tree
  tombstones q tomb hq := he.tombstones q tomb (he'.tombstones q tomb hq)
  manifest q fm hq := (he'.manifest q fm hq).elim (he.manifest q fm) .inr

theorem Receives.admits {e e' : SyncEngine} (he : Receives h src ps e e')
    (hadmits : Admits src stamp ps e.ledger) : Admits src stamp ps e'.ledger :=
  fun p hp n hn q tomb hq htomb => hadmits p hp n hn q tomb hq (he.tombstones q tomb htomb)

theorem Receives.noConflict {e e' : SyncEngine} (he : Receives h src ps e e')
    (hnc : NoConflict h.blake3 src ps e.manifest e.tree) :
    NoConflict h.blake3 src ps e'.manifest e'.tree := by
  intro q hq fm hfm
  rcases he.manifest q fm hfm with hfm | hfm
  · rcases hnc q hq fm hfm with hh | hh | hh
    · exact .inl hh
    · exact .inr (.inl (he.tree.keeps hh))
    · rcases he.tree q with ht | ⟨-, ht⟩ | ⟨ht, -, -⟩
      · exact .inr (.inr (by rw [ht, hh]))
      · exact .inr (.inl ht)
      · rw [look_eq_none_iff.mpr ht] at hh
        cases hh
  · exact .inl hfm

/-- The write is not taken for a conflict. -/
theorem detectConflict_eq_none {e : SyncEngine} {p : PathBuf} {c : Content} {m : Nat} (hp : p ∈ ps)
    (hn : src.get p = some (.file c m)) (hnc : NoConflict h.blake3 src ps e.manifest e.tree) :
    e.detectConflict h p (h.blake3 c) = none := by
  have hsrc : look h.blake3 src p = some (some (h.blake3 c)) := by simp [look, hn, digest]
  unfold SyncEngine.detectConflict
  cases hfm : e.manifest.files.get p with
  | none => rfl
  | some fm =>
    have hcase := hnc p hp fm hfm
    rw [hsrc] at hcase
    simp only
    split
    · rfl
    · next hne =>
      split
      · rfl
      · next onDisk hdisk =>
        -- The file on disk is the listed one or already the one to come.
        have hlook : look h.blake3 e.tree p = some (some onDisk) := by
          unfold Host.hashFile at hdisk
          split at hdisk
          · cases hdisk
          · obtain ⟨c', hc', rfl⟩ := Option.map_eq_some_iff.mp hdisk
            unfold FileTree.read at hc'
            split at hc'
            · next hget =>
              obtain rfl := Option.some.inj hc'
              simp [look, hget, digest]
            · cases hc'
        rw [hlook] at hcase
        have : onDisk = fm.hash ∨ onDisk = h.blake3 c := by
          rcases hcase with hh | hh | hh
          · exact absurd (by simpa using hh.symm) hne
          · exact .inr (by simpa using hh)
          · exact .inl (by simpa using hh.symm)
        rw [if_pos this]

/-- The disk writes for one entry. -/
theorem writeEntry_toward {hs : Host} {t t' : Tree} {p : PathBuf} {n : FileNode Content}
    (hp : p ∈ ps) (hn : src.get p = some n)
    (hr : SyncEngine.writeEntry h t (wireFile hs stamp p n) = (true, t')) :
    Toward h.blake3 src ps t t' ∧ look h.blake3 t' p = look h.blake3 src p := by
  have hroot : p ≠ [] := by
    rintro rfl
    simp at hn
  have hsrc : look h.blake3 src p = some (digest h.blake3 n) := by simp [look, hn]
  unfold SyncEngine.writeEntry at hr
  cases n with
  | dir m =>
    simp only [wireFile, FileMetadata.ofNode, if_true] at hr
    split at hr
    · next t₁ ht₁ =>
      obtain rfl := (Prod.mk.inj hr).2
      refine ⟨Toward.createDirAll ht₁ fun q hq hpre => ?_, ?_⟩
      · by_cases hqp : q = p
        · rw [hqp, hsrc]
          rfl
        · exact look_parent hn hpre hqp hq
      · rw [look_createDirAll hroot ht₁, hsrc]
        rfl
    · simp at hr
  | file c m =>
    simp only [wireFile, FileMetadata.ofNode, Bool.false_eq_true, if_false] at hr
    split at hr
    · simp at hr
    · next t₁ ht₁ =>
      split at hr
      · next t₂ ht₂ =>
        obtain rfl := (Prod.mk.inj hr).2
        unfold Host.write at ht₂
        split at ht₂
        · cases ht₂
        · have hdirs : Toward h.blake3 src ps t t₁ := Toward.createDirAll ht₁ fun q hq hpre =>
            look_parent hn (hpre.trans (List.dropLast_prefix p)) (ne_of_prefix_dropLast hroot hpre) hq
          refine ⟨hdirs.trans (Toward.write ht₂ hp hsrc), ?_⟩
          rw [look_write ht₂, if_pos rfl, hsrc]
          rfl
      · simp at hr

theorem ofNode_hash (hs : Host) (p : PathBuf) (n : FileNode Content) :
    (FileMetadata.ofNode hs p n).hash = (digest hs.blake3 n).getD 0 := by
  cases n <;> rfl

theorem ofNode_modifiedMs (hs : Host) (p : PathBuf) (n : FileNode Content) :
    (FileMetadata.ofNode hs p n).modifiedMs = n.mtime := by
  cases n <;> rfl

theorem ofNode_relPath (hs : Host) (p : PathBuf) (n : FileNode Content) :
    (FileMetadata.ofNode hs p n).relPath = p := by
  cases n <;> rfl

/-- What admission leaves is what a message may change. -/
theorem admitRecord_receives (e : SyncEngine) (p : PathBuf) (a : Option Nat) (m : Nat) :
    Receives h src ps e (e.admitRecord p a m) where
  tree := by
    rw [SyncEngine.admitRecord_tree]
    exact .refl _
  tombstones _ _ := SyncEngine.entries_admitRecord
  manifest q fm hq := by
    rw [SyncEngine.admitRecord_manifest] at hq
    exact .inl hq

/-- One entry of a bundle arrives. -/
theorem applyFile_receives {hs : Host} (hb : hs.blake3 = h.blake3) {s s' : SyncEngine.BundleRun}
    {p : PathBuf} {n : FileNode Content} (hp : p ∈ ps) (hn : src.get p = some n)
    (hsafe : safeRelative p = true) (hadmits : Admits src stamp ps s.engine.ledger)
    (hnc : NoConflict h.blake3 src ps s.engine.manifest s.engine.tree)
    (hr : SyncEngine.applyFile h s (wireFile hs stamp p n) = (true, s')) :
    Receives h src ps s.engine s'.engine ∧
      look h.blake3 s'.engine.tree p = look h.blake3 src p ∧
      s'.engine.inProgress = s.engine.inProgress := by
  have hrel : (wireFile hs stamp p n).metadata.relPath = p := ofNode_relPath hs p n
  have hmtime : (wireFile hs stamp p n).metadata.modifiedMs = n.mtime := ofNode_modifiedMs hs p n
  have hhash : (wireFile hs stamp p n).metadata.hash = (digest h.blake3 n).getD 0 := by
    rw [← hb]
    exact ofNode_hash hs p n
  have hveto : s.engine.vetoFor p (stamp p n.mtime) n.mtime = none :=
    SyncEngine.vetoFor_eq_none fun q tomb hq htomb => hadmits p hp n hn q tomb hq htomb
  have hadm : Receives h src ps s.engine
      (s.engine.admitRecord p (wireFile hs stamp p n).actionMs n.mtime) :=
    admitRecord_receives _ _ _ _
  have hnc' := hadm.noConflict hnc
  -- No conflict copy is made.
  have hcopy : (!(wireFile hs stamp p n).metadata.isDir &&
      ((s.engine.admitRecord p (wireFile hs stamp p n).actionMs n.mtime).detectConflict h p
        (wireFile hs stamp p n).metadata.hash).isSome) = false := by
    cases n with
    | dir m => rfl
    | file c m =>
      rw [hhash]
      simp [digest, detectConflict_eq_none hp hn hnc']
  unfold SyncEngine.applyFile at hr
  simp only [hrel, hmtime, hsafe, Bool.not_true, Bool.false_eq_true, if_false] at hr
  rw [if_neg (by show ¬ (s.engine.vetoFor p (stamp p n.mtime) n.mtime).isSome = true; simp [hveto])] at hr
  simp only [hcopy, Bool.false_eq_true, if_false] at hr
  split at hr
  · cases hr
  · next hw =>
    have hw : SyncEngine.writeEntry h s.engine.tree (wireFile hs stamp p n) =
        (true, (SyncEngine.writeEntry h s.engine.tree (wireFile hs stamp p n)).2) := by
      refine Prod.ext ?_ rfl
      simpa using hw
    obtain ⟨htoward, hlook⟩ := writeEntry_toward hp hn hw
    obtain rfl := (Prod.mk.inj hr).2
    refine ⟨⟨?_, ?_, ?_⟩, ?_, ?_⟩
    · simpa using htoward
    · exact fun q tomb hq => hadm.tombstones q tomb hq
    · intro q fm hq
      simp only [SyncEngine.admitRecord_manifest, FinMap.get_insert] at hq
      split at hq
      · next hqp =>
        obtain rfl := Option.some.inj hq
        right
        rw [hqp, hhash]
        simp [look, hn]
      · exact .inl hq
    · simpa using hlook
    · simp

/-- All entries of a bundle arrive. -/
theorem applyFiles_receives {hs : Host} (hb : hs.blake3 = h.blake3)
    {s s' : SyncEngine.BundleRun} {files : List FileData}
    (hfiles : ∀ fd ∈ files, IsSmallEntry hs src stamp ps fd)
    (hsafe : ∀ p ∈ ps, safeRelative p = true) (hadmits : Admits src stamp ps s.engine.ledger)
    (hnc : NoConflict h.blake3 src ps s.engine.manifest s.engine.tree)
    (hr : SyncEngine.applyFiles h s files = (true, s')) :
    Receives h src ps s.engine s'.engine ∧
      (∀ fd ∈ files, look h.blake3 s'.engine.tree fd.metadata.relPath =
        look h.blake3 src fd.metadata.relPath) ∧
      s'.engine.inProgress = s.engine.inProgress := by
  induction files generalizing s with
  | nil =>
    obtain rfl := (Prod.mk.inj hr).2
    exact ⟨.refl _, by simp, rfl⟩
  | cons fd files ih =>
    obtain ⟨p, hp, n, hn, -, rfl⟩ := hfiles fd (by simp)
    unfold SyncEngine.applyFiles at hr
    split at hr
    · next s₁ hs₁ =>
      obtain ⟨hrec, hlook, hprog⟩ := applyFile_receives hb hp hn (hsafe p hp) hadmits hnc hs₁
      obtain ⟨hrec', hlook', hprog'⟩ := ih (fun fd hfd => hfiles fd (by simp [hfd]))
        (hrec.admits hadmits) (hrec.noConflict hnc) hr
      refine ⟨hrec.trans hrec', ?_, hprog'.trans hprog⟩
      intro fd hfd
      rcases List.mem_cons.mp hfd with rfl | hfd
      · rw [show (wireFile hs stamp p n).metadata.relPath = p from ofNode_relPath hs p n]
        exact hrec'.tree.keeps hlook
      · exact hlook' fd hfd
    · cases hr

/-- A bundle arrives. -/
theorem applyBundle_receives {hs : Host} (hb : hs.blake3 = h.blake3) {e e' : SyncEngine}
    {b : FileBundle} {r : ApplyResult} (hfiles : ∀ fd ∈ b.files, IsSmallEntry hs src stamp ps fd)
    (hsafe : ∀ p ∈ ps, safeRelative p = true) (hadmits : Admits src stamp ps e.ledger)
    (hnc : NoConflict h.blake3 src ps e.manifest e.tree)
    (hr : e.applyBundle h b = (some r, e')) :
    Receives h src ps e e' ∧
      (∀ fd ∈ b.files, look h.blake3 e'.tree fd.metadata.relPath =
        look h.blake3 src fd.metadata.relPath) ∧
      e'.inProgress = e.inProgress := by
  unfold SyncEngine.applyBundle at hr
  split at hr
  · cases hr
  · next s hs' =>
    obtain ⟨hrec, hlook, hprog⟩ := applyFiles_receives hb hfiles hsafe hadmits hnc hs'
    obtain rfl := (Prod.mk.inj hr).2
    have hmtimes : ∀ q, look h.blake3 (SyncEngine.setDirMtimes h (s.engine.flushLedger h).tree
        s.dirMtimes) q = look h.blake3 s.engine.tree q := by
      intro q
      rw [look_setDirMtimes, SyncEngine.flushLedger_tree]
    refine ⟨⟨?_, ?_, ?_⟩, ?_, ?_⟩
    · intro q
      have hq := hrec.tree q
      rw [← hmtimes q] at hq
      simpa using hq
    · intro q tomb hq
      simp only [SyncEngine.ledger_scheduleUnsuppress, SyncEngine.ledger_flushLedger] at hq
      exact hrec.tombstones q tomb hq
    · intro q fm hq
      simp only [SyncEngine.scheduleUnsuppress_manifest, SyncEngine.flushLedger_manifest] at hq
      exact hrec.manifest q fm hq
    · intro fd hfd
      rw [SyncEngine.scheduleUnsuppress_tree, hmtimes]
      exact hlook fd hfd
    · simpa using hprog

/-! ## Large files -/

variable (stamp) in
/-- The assembly of the large file at `p` after its first `k` chunks. -/
structure Assembles (p : PathBuf) (c : Content) (m k : Nat) (asm : LargeFileAssembly) : Prop where
  dst : asm.dst = p
  received : asm.received = (((fileChunks c).take k).map (·.1)).toFinset
  total : asm.totalChunks = totalChunks c.length
  stamp : asm.actionMs = stamp p m
  mtime : asm.modifiedMs = m
  notAnnounced : asm.finalHashPending = none

/-- A start that is safe and not vetoed. -/
theorem begin_ok {e e' : SyncEngine} {md : FileMetadata} {n : UInt32} {a : Option Nat}
    (hsafe : safeRelative md.relPath = true) (hveto : e.vetoFor md.relPath a md.modifiedMs = none)
    (hr : e.beginLargeFileWithAction h md n a = (true, e')) :
    h.createDirAll e.tree md.relPath.dropLast = some e'.tree ∧ e'.manifest = e.manifest ∧
      e'.ledger = (e.admitRecord md.relPath a md.modifiedMs).ledger ∧
      e'.inProgress = e.inProgress.insert md.relPath
        { tmp := h.blake3 (stagingKey md.relPath), totalChunks := n, received := ∅
          expectedHash := md.hash, dst := md.relPath, fileSize := md.size
          modifiedMs := md.modifiedMs, actionMs := a, finalHashPending := none } := by
  unfold SyncEngine.beginLargeFileWithAction at hr
  dsimp only at hr
  rw [if_neg (by simp [hsafe]), if_neg (by simp [hveto])] at hr
  split at hr
  · cases hr
  · next t ht =>
    rw [SyncEngine.flushLedger_tree, SyncEngine.admitRecord_tree] at ht
    split at hr
    · cases hr
    · split at hr
      · cases hr
      · obtain rfl := (Prod.mk.inj hr).2
        exact ⟨ht, by simp, by simp, by simp⟩

/-- The start of a large file. -/
theorem begin_receives {hs : Host} {e e' : SyncEngine} {p : PathBuf} {c : Content} {m : Nat}
    (hp : p ∈ ps) (hn : src.get p = some (.file c m)) (hsafe : safeRelative p = true)
    (hadmits : Admits src stamp ps e.ledger)
    (hr : e.beginLargeFileWithAction h (.ofNode hs p (.file c m)) (totalChunks c.length)
      (stamp p m) = (true, e')) :
    Receives h src ps e e' ∧
      ∃ asm, e'.inProgress = e.inProgress.insert p asm ∧ Assembles stamp p c m 0 asm := by
  have hroot : p ≠ [] := by
    rintro rfl
    simp at hn
  have hveto : e.vetoFor p (stamp p m) m = none :=
    SyncEngine.vetoFor_eq_none fun q tomb hq htomb => hadmits p hp _ hn q tomb hq htomb
  obtain ⟨htree, hmanifest, hledger, hprogress⟩ := begin_ok hsafe hveto hr
  refine ⟨⟨?_, ?_, ?_⟩, _, hprogress, ⟨rfl, by simp, rfl, rfl, rfl, rfl⟩⟩
  · exact Toward.createDirAll htree fun q hq hpre =>
      look_parent hn (hpre.trans (List.dropLast_prefix p)) (ne_of_prefix_dropLast hroot hpre) hq
  · intro q tomb hq
    rw [hledger] at hq
    exact SyncEngine.entries_admitRecord hq
  · intro q fm hq
    rw [hmanifest] at hq
    exact .inl hq

/-- The next chunk of a large file. -/
theorem chunk_receives {e e' : SyncEngine} {p : PathBuf} {c : Content} {m k : Nat}
    {asm : LargeFileAssembly} {x : UInt32 × Content} {r : ChunkResult}
    (hasm : e.inProgress.get p = some asm) (hk : Assembles stamp p c m k asm)
    (hx : (fileChunks c)[k]? = some x)
    (hr : e.receiveLargeFileChunk h p x.1 x.2 = (some r, e')) :
    r = .pending ∧ Receives h src ps e e' ∧
      ∃ asm', e'.inProgress = e.inProgress.insert p asm' ∧
        Assembles stamp p c m (k + 1) asm' := by
  unfold SyncEngine.receiveLargeFileChunk at hr
  rw [hasm] at hr
  simp only at hr
  split at hr
  · cases hr
  · split at hr
    · cases hr
    · simp only [hk.notAnnounced] at hr
      obtain ⟨hr₁, rfl⟩ := Prod.mk.inj hr
      refine ⟨(Option.some.inj hr₁).symm, ⟨.refl _, fun _ _ => id, fun _ _ => .inl⟩, _, rfl, ?_⟩
      refine ⟨hk.dst, ?_, hk.total, hk.stamp, hk.mtime, rfl⟩
      ext i
      simp [hk.received, List.take_add_one, hx]

/-- A commit looks for a conflict like a bundle does. -/
theorem commitConflict_eq (e : SyncEngine) (p : PathBuf) (x : Hash) :
    e.commitConflict h p p x = (e.detectConflict h p x).isSome := by
  unfold SyncEngine.commitConflict SyncEngine.detectConflict
  cases e.manifest.files.get p with
  | none => rfl
  | some fm =>
    simp only
    by_cases hx : x = fm.hash
    · simp [hx]
    · cases h.hashFile e.tree p with
      | none => simp [hx]
      | some onDisk => by_cases h₁ : onDisk = fm.hash <;> by_cases h₂ : onDisk = x <;> simp [hx, h₁, h₂]

/-- The commit of a large file. -/
theorem commit_receives {e e' : SyncEngine} {p : PathBuf} {c : Content} {m k : Nat}
    {asm : LargeFileAssembly} {r : FinishResult} (hp : p ∈ ps)
    (hn : src.get p = some (.file c m)) (hadmits : Admits src stamp ps e.ledger)
    (hnc : NoConflict h.blake3 src ps e.manifest e.tree) (hasm : e.inProgress.get p = some asm)
    (hk : Assembles stamp p c m k asm)
    (hr : e.commitLargeFile h p (h.blake3 c) = (some r, e')) :
    Receives h src ps e e' ∧ look h.blake3 e'.tree p = look h.blake3 src p ∧
      e'.inProgress = e.inProgress.erase p := by
  have hsrc : look h.blake3 src p = some (some (h.blake3 c)) := by simp [look, hn, digest]
  have hveto : ({ e with inProgress := e.inProgress.erase p } : SyncEngine).vetoFor p asm.actionMs
      asm.modifiedMs = none := by
    rw [hk.stamp, hk.mtime]
    exact SyncEngine.vetoFor_eq_none fun q tomb hq htomb => hadmits p hp _ hn q tomb hq htomb
  unfold SyncEngine.commitLargeFile at hr
  rw [hasm] at hr
  dsimp only at hr
  rw [if_neg (by simp [hveto])] at hr
  -- From here on the engine with the admission on record.
  generalize he₁ : SyncEngine.flushLedger h (SyncEngine.admitRecord
    { e with inProgress := e.inProgress.erase p } p asm.actionMs asm.modifiedMs) = e₁ at hr
  have htree : e₁.tree = e.tree := by simp [← he₁]
  have hmanifest : e₁.manifest = e.manifest := by simp [← he₁]
  have hprogress : e₁.inProgress = e.inProgress.erase p := by simp [← he₁]
  have hentries : ∀ q tomb, e₁.ledger.entries.get q = some tomb →
      e.ledger.entries.get q = some tomb := by
    intro q tomb hq
    rw [← he₁, SyncEngine.ledger_flushLedger] at hq
    have hq := SyncEngine.entries_admitRecord hq
    exact hq
  have hconflict : e₁.commitConflict h p asm.dst (h.blake3 c) = false := by
    rw [← htree, ← hmanifest] at hnc
    rw [hk.dst, commitConflict_eq, detectConflict_eq_none hp hn hnc]
    rfl
  split at hr
  · cases hr
  · next c' hc' =>
    split at hr
    · cases hr
    · split at hr
      · cases hr
      · next hhash =>
        have hhash : h.blake3 c' = h.blake3 c := by simpa using hhash
        unfold SyncEngine.installLargeFile at hr
        simp only [hconflict, Bool.false_eq_true, if_false] at hr
        split at hr
        · cases hr
        · next t ht =>
          obtain rfl := (Prod.mk.inj hr).2
          split at ht
          · cases ht
          · rw [hk.dst, htree] at ht
            have hlook : look h.blake3 src p = some (some (h.blake3 c')) := by rw [hsrc, hhash]
            refine ⟨⟨?_, ?_, ?_⟩, ?_, ?_⟩
            · simpa using Toward.write ht hp hlook
            · intro q tomb hq
              simp only [SyncEngine.ledger_scheduleUnsuppress] at hq
              exact hentries q tomb hq
            · intro q fm hq
              simp only [SyncEngine.scheduleUnsuppress_manifest, hmanifest, FinMap.get_insert] at hq
              split at hq
              · next hqp =>
                obtain rfl := Option.some.inj hq
                rw [hqp, hsrc]
                exact .inr rfl
              · exact .inl hq
            · rw [SyncEngine.scheduleUnsuppress_tree]
              show look h.blake3 t p = _
              rw [look_write ht, if_pos rfl, hlook]
            · simp [hprogress]

/-- The chunk numbers of a file of less than `2^32` chunks differ. -/
theorem nodup_fileChunks {c : Content} (hc : c.length ≤ 2 ^ 32 * fileChunkSize) :
    ((fileChunks c).map (·.1)).Nodup := by
  have hcount : (c.length + fileChunkSize - 1) / fileChunkSize ≤ 2 ^ 32 := by
    unfold fileChunkSize at *
    omega
  unfold fileChunks
  rw [List.map_map]
  refine List.Nodup.map_on ?_ List.nodup_range
  intro i hi j hj hij
  rw [List.mem_range] at hi hj
  have hij := congrArg UInt32.toNat hij
  simp only [Function.comp_apply, UInt32.toNat_ofNat'] at hij
  omega

theorem length_fileChunks (c : Content) :
    (fileChunks c).length = (c.length + fileChunkSize - 1) / fileChunkSize := by
  simp [fileChunks]

/-- The end of a large file all of whose chunks are there. -/
theorem finish_receives {e e' : SyncEngine} {p : PathBuf} {c : Content} {m k : Nat}
    {asm : LargeFileAssembly} {r : FinishResult} (hp : p ∈ ps)
    (hn : src.get p = some (.file c m)) (hlarge : largeFileThreshold ≤ c.length)
    (hlen : c.length ≤ 2 ^ 32 * fileChunkSize) (hadmits : Admits src stamp ps e.ledger)
    (hnc : NoConflict h.blake3 src ps e.manifest e.tree) (hasm : e.inProgress.get p = some asm)
    (hk : Assembles stamp p c m k asm) (hall : (fileChunks c).length ≤ k)
    (hr : e.finishLargeFile h p (h.blake3 c) = (some r, e')) :
    Receives h src ps e e' ∧ look h.blake3 e'.tree p = look h.blake3 src p ∧
      e'.inProgress = e.inProgress.erase p := by
  have hcount : asm.receivedCount = asm.totalChunks := by
    have hcard : asm.received.card = (fileChunks c).length := by
      rw [hk.received, List.take_of_length_le hall, List.toFinset_card_of_nodup
        (nodup_fileChunks hlen), List.length_map]
    rw [LargeFileAssembly.receivedCount, hcard, hk.total, totalChunks, length_fileChunks]
    congr 1
    unfold largeFileThreshold at hlarge
    unfold fileChunkSize
    omega
  unfold SyncEngine.finishLargeFile at hr
  rw [hasm] at hr
  dsimp only at hr
  rw [if_neg (by rw [hcount]; exact UInt32.lt_irrefl _)] at hr
  exact commit_receives hp hn hadmits hnc hasm hk hr

/-! ## The receive loop -/

section

variable (h src stamp ps) (hs : Host)

/-- Where the large file at `p` stands when the messages `rest` are to come. -/
inductive Progress (p : PathBuf) (c : Content) (m : Nat) (rest : List Message) (e : SyncEngine) :
    Prop where
  | waiting (hrest : about p rest = wireLarge hs stamp p c m)
  | running (k : Nat) (asm : LargeFileAssembly) (hrest : about p rest = wireChunks hs p c k)
      (hasm : e.inProgress.get p = some asm) (hk : Assembles stamp p c m k asm)
  | done (hrest : about p rest = []) (hlook : look h.blake3 e.tree p = look h.blake3 src p)

/-- The messages are those of small nodes and large files at paths in `ps`. -/
structure Expected (rest : List Message) : Prop where
  bundled : ∀ b, .bundle b ∈ rest → ∀ fd ∈ b.files, IsSmallEntry hs src stamp ps fd
  kinds : ∀ m ∈ rest, (∃ b, m = .bundle b) ∨ ∃ p, m.subject = some p
  subjects : ∀ p, about p rest ≠ [] →
    p ∈ ps ∧ ∃ c m, src.get p = some (.file c m) ∧ largeFileThreshold ≤ c.length

/-- From `e₀`, with the messages `rest` to come, the receiver has reached `e`. -/
structure Received (e₀ : SyncEngine) (rest : List Message) (e : SyncEngine) : Prop where
  receives : Receives h src ps e₀ e
  expected : Expected src stamp ps hs rest
  small : ∀ p ∈ ps, ∀ n, src.get p = some n → isLarge n = false →
    look h.blake3 e.tree p = look h.blake3 src p ∨
      ∃ b, .bundle b ∈ rest ∧ wireFile hs stamp p n ∈ b.files
  large : ∀ p ∈ ps, ∀ c m, src.get p = some (.file c m) → largeFileThreshold ≤ c.length →
    Progress h src stamp hs p c m rest e

end

variable {hs : Host}

/-- A message about something else leaves the large file where it stands. -/
theorem Progress.frame {p : PathBuf} {c : Content} {k : Nat} {m : Message} {rest : List Message}
    {e e' : SyncEngine} (hp : Progress h src stamp hs p c k (m :: rest) e)
    (hm : m.subject ≠ some p) (hprogress : e'.inProgress.get p = e.inProgress.get p)
    (htree : Toward h.blake3 src ps e.tree e'.tree) : Progress h src stamp hs p c k rest e' := by
  cases hp with
  | waiting hrest => exact .waiting (by rwa [about_cons_of_ne hm] at hrest)
  | running j asm hrest hasm hj =>
    exact .running j asm (by rwa [about_cons_of_ne hm] at hrest) (hprogress.trans hasm) hj
  | done hrest hlook => exact .done (by rwa [about_cons_of_ne hm] at hrest) (htree.keeps hlook)

theorem Expected.tail {m : Message} {rest : List Message}
    (hx : Expected src stamp ps hs (m :: rest)) : Expected src stamp ps hs rest where
  bundled b hb := hx.bundled b (by simp [hb])
  kinds m' hm' := hx.kinds m' (by simp [hm'])
  subjects p hp := by
    refine hx.subjects p fun hnil => hp ?_
    rw [about, List.filter_eq_nil_iff] at hnil ⊢
    exact fun a ha => hnil a (by simp [ha])

theorem wireChunks_of_lt (hs : Host) (p : PathBuf) {c : Content} {k : Nat}
    (hk : k < (fileChunks c).length) :
    ∃ x, (fileChunks c)[k]? = some x ∧
      wireChunks hs p c k = .largeFileChunk p x.1 x.2 :: wireChunks hs p c (k + 1) := by
  refine ⟨(fileChunks c)[k], List.getElem?_eq_getElem hk, ?_⟩
  rw [wireChunks, wireChunks, List.drop_eq_getElem_cons hk, List.map_cons, List.cons_append]

theorem wireChunks_of_le (hs : Host) (p : PathBuf) {c : Content} {k : Nat}
    (hk : (fileChunks c).length ≤ k) :
    wireChunks hs p c k = [.largeFileEnd p (hs.blake3 c)] := by
  rw [wireChunks, List.drop_of_length_le hk, List.map_nil, List.nil_append]

/-- One message about a large file takes it one step on. -/
theorem Progress.step (hb : hs.blake3 = h.blake3) {p : PathBuf} {c : Content} {k : Nat}
    {m : Message} {rest : List Message} {e e' : SyncEngine} (hp : p ∈ ps)
    (hn : src.get p = some (.file c k)) (hlarge : largeFileThreshold ≤ c.length)
    (hlen : c.length ≤ 2 ^ 32 * fileChunkSize) (hsafe : safeRelative p = true)
    (hadmits : Admits src stamp ps e.ledger)
    (hnc : NoConflict h.blake3 src ps e.manifest e.tree) (hm : m.subject = some p)
    (hprog : Progress h src stamp hs p c k (m :: rest) e) (hr : e.recvInitial h m = some e') :
    Receives h src ps e e' ∧ Progress h src stamp hs p c k rest e' ∧
      ∀ q, q ≠ p → e'.inProgress.get q = e.inProgress.get q := by
  cases hprog with
  | waiting hrest =>
    rw [about_cons_of_subject hm, wireLarge] at hrest
    obtain ⟨rfl, htail⟩ := List.cons.inj hrest
    simp only [SyncEngine.recvInitial] at hr
    split at hr
    · next e₁ hbegin =>
      obtain rfl := Option.some.inj hr
      obtain ⟨hrec, asm, hprogress, hasm⟩ := begin_receives hp hn hsafe hadmits hbegin
      refine ⟨hrec, .running 0 asm htail (by simp [hprogress]) hasm, fun q hq => ?_⟩
      simp [hprogress, hq]
    · cases hr
  | running j asm hrest hasm hj =>
    rw [about_cons_of_subject hm] at hrest
    by_cases hjn : j < (fileChunks c).length
    · obtain ⟨x, hx, hwire⟩ := wireChunks_of_lt hs p hjn
      rw [hwire] at hrest
      obtain ⟨rfl, htail⟩ := List.cons.inj hrest
      simp only [SyncEngine.recvInitial] at hr
      rcases hchunk : e.receiveLargeFileChunk h p x.1 x.2 with ⟨_ | r, e₁⟩
      · rw [hchunk] at hr
        cases hr
      · obtain ⟨rfl, hrec, asm', hprogress, hasm'⟩ :=
          chunk_receives hasm hj hx hchunk
        rw [hchunk] at hr
        obtain rfl := Option.some.inj hr
        refine ⟨hrec, .running (j + 1) asm' htail (by simp [hprogress]) hasm', fun q hq => ?_⟩
        simp [hprogress, hq]
    · rw [wireChunks_of_le hs p (by omega), hb] at hrest
      obtain ⟨rfl, htail⟩ := List.cons.inj hrest
      simp only [SyncEngine.recvInitial] at hr
      rcases hfinish : e.finishLargeFile h p (h.blake3 c) with ⟨_ | r, e₁⟩
      · rw [hfinish] at hr
        cases hr
      · rw [hfinish] at hr
        obtain rfl := Option.some.inj hr
        obtain ⟨hrec, hlook, hprogress⟩ :=
          finish_receives hp hn hlarge hlen hadmits hnc hasm hj (by omega) hfinish
        refine ⟨hrec, .done htail hlook, fun q hq => ?_⟩
        simp [hprogress, hq]
  | done hrest hlook =>
    rw [about_cons_of_subject hm] at hrest
    cases hrest

/-- One message of the receive loop. -/
theorem received_step (hb : hs.blake3 = h.blake3) (hsafe : ∀ p ∈ ps, safeRelative p = true)
    (hlen : ∀ p ∈ ps, ∀ c m, src.get p = some (.file c m) → c.length ≤ 2 ^ 32 * fileChunkSize)
    {e₀ e e' : SyncEngine} {m : Message} {rest : List Message}
    (hadmits : Admits src stamp ps e₀.ledger)
    (hnc : NoConflict h.blake3 src ps e₀.manifest e₀.tree)
    (hrcv : Received h src stamp ps hs e₀ (m :: rest) e) (hr : e.recvInitial h m = some e') :
    Received h src stamp ps hs e₀ rest e' := by
  have hadmits := hrcv.receives.admits hadmits
  have hnc := hrcv.receives.noConflict hnc
  rcases hrcv.expected.kinds m (by simp) with ⟨b, rfl⟩ | ⟨p, hm⟩
  · simp only [SyncEngine.recvInitial] at hr
    split at hr
    · next r e₁ happly =>
      obtain rfl := Option.some.inj hr
      obtain ⟨hrec, hlook, hprogress⟩ := applyBundle_receives hb
        (hrcv.expected.bundled b (by simp)) hsafe hadmits hnc happly
      refine ⟨hrcv.receives.trans hrec, hrcv.expected.tail, ?_, ?_⟩
      · intro p hp n hn hsmall
        rcases hrcv.small p hp n hn hsmall with hdone | ⟨b', hb', hfd⟩
        · exact .inl (hrec.tree.keeps hdone)
        · rcases List.mem_cons.mp hb' with hb' | hb'
          · -- The path is in this bundle.
            obtain rfl := Message.bundle.inj hb'
            have := hlook _ hfd
            rw [show (wireFile hs stamp p n).metadata.relPath = p from ofNode_relPath hs p n] at this
            exact .inl this
          · exact .inr ⟨b', hb', hfd⟩
      · intro p hp c k hn hlarge
        exact (hrcv.large p hp c k hn hlarge).frame (by simp [Message.subject])
          (by rw [hprogress]) hrec.tree
    · cases hr
  · obtain ⟨hp, c, k, hn, hlarge⟩ := hrcv.expected.subjects p (by simp [about_cons_of_subject hm])
    obtain ⟨hrec, hprog, hother⟩ := Progress.step hb hp hn hlarge (hlen p hp c k hn) (hsafe p hp)
      hadmits hnc hm (hrcv.large p hp c k hn hlarge) hr
    refine ⟨hrcv.receives.trans hrec, hrcv.expected.tail, ?_, ?_⟩
    · intro q hq n hqn hsmall
      rcases hrcv.small q hq n hqn hsmall with hdone | ⟨b, hb', hfd⟩
      · exact .inl (hrec.tree.keeps hdone)
      · rcases List.mem_cons.mp hb' with rfl | hb'
        · cases hm
        · exact .inr ⟨b, hb', hfd⟩
    · intro q hq c' k' hqn hlarge'
      by_cases hqp : q = p
      · subst hqp
        obtain ⟨rfl, rfl⟩ := FileNode.file.inj (Option.some.inj (hn.symm.trans hqn))
        exact hprog
      · refine (hrcv.large q hq c' k' hqn hlarge').frame ?_ (hother q hqp) hrec.tree
        rw [hm]
        exact fun hpq => hqp (Option.some.inj hpq).symm

/-- A receiver that has handled all messages for `ps` holds these paths as the sender does. -/
theorem recvAll_received (hb : hs.blake3 = h.blake3) (hsafe : ∀ p ∈ ps, safeRelative p = true)
    (hlen : ∀ p ∈ ps, ∀ c m, src.get p = some (.file c m) → c.length ≤ 2 ^ 32 * fileChunkSize)
    {e₀ e : SyncEngine} {ms : List Message} (hemits : Emits hs src stamp ps [] ms)
    (hadmits : Admits src stamp ps e₀.ledger)
    (hnc : NoConflict h.blake3 src ps e₀.manifest e₀.tree)
    (hr : recvAll (SyncEngine.recvInitial h) e₀ ms = some e) :
    Receives h src ps e₀ e ∧
      ∀ p ∈ ps, (src.get p).isSome → look h.blake3 e.tree p = look h.blake3 src p := by
  have hstart : Received h src stamp ps hs e₀ ms e₀ := by
    refine ⟨.refl _, ⟨hemits.bundled, hemits.kinds, ?_⟩, ?_, ?_⟩
    · intro p hne
      rw [hemits.large p] at hne
      split at hne
      · next hp =>
        refine ⟨hp, ?_⟩
        unfold largeMessages at hne
        split at hne
        · next c m hn =>
          split at hne
          · next hl => exact ⟨c, m, hn, hl⟩
          · exact absurd rfl hne
        · exact absurd rfl hne
      · exact absurd rfl hne
    · intro p hp n hn hsmall
      rcases hemits.small p hp n hn hsmall with hc | hbundle
      · cases hc
      · exact .inr hbundle
    · intro p hp c m hn hl
      refine .waiting ?_
      rw [hemits.large p, if_pos hp, largeMessages, hn]
      exact if_pos hl
  have hloop : ∀ (ms : List Message) (e₁ : SyncEngine), Received h src stamp ps hs e₀ ms e₁ →
      recvAll (SyncEngine.recvInitial h) e₁ ms = some e → Received h src stamp ps hs e₀ [] e := by
    intro ms
    induction ms with
    | nil =>
      intro e₁ hrcv hr
      obtain rfl := Option.some.inj hr
      exact hrcv
    | cons m ms ih =>
      intro e₁ hrcv hr
      rw [recvAll, Option.bind_eq_some_iff] at hr
      obtain ⟨e₂, he₂, hr⟩ := hr
      exact ih e₂ (received_step hb hsafe hlen hadmits hnc hrcv he₂) hr
  have hend := hloop ms e₀ hstart hr
  refine ⟨hend.receives, fun p hp hsome => ?_⟩
  obtain ⟨n, hn⟩ := Option.isSome_iff_exists.mp hsome
  by_cases hsmall : isLarge n = false
  · rcases hend.small p hp n hn hsmall with hlook | ⟨b, hb', -⟩
    · exact hlook
    · cases hb'
  · cases n with
    | dir m => exact absurd rfl hsmall
    | file c m =>
      have hl : largeFileThreshold ≤ c.length := by simpa [isLarge] using hsmall
      cases hend.large p hp c m hn hl with
      | waiting hrest => cases hrest
      | running k asm hrest _ _ =>
        have hne : wireChunks hs p c k ≠ [] := by simp [wireChunks]
        exact absurd hrest.symm hne
      | done _ hlook => exact hlook

end

end ByteHive
