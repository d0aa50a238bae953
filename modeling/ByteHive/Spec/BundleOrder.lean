import ByteHive.Spec.ConflictNames
import ByteHive.Spec.DeliveryForms

/-!
# Entries in any order

The entries of one plan are read by several threads and arrive in any order. Each is judged on the
ledger as it stands, and an admitted one can lift the tombstone of its path, which may have decided
about an entry below. Where no verdict hangs on that, everything an entry reads is as it was before
the first bundle, so that the outcome can be said entry by entry and the order drops out.

## Key results

- `Settled.applyFile` / `Settled.finish`: one entry, and the end of a bundle
- `same_in_any_order`: two orders of the same entries come to the same
-/

namespace ByteHive

/-! ## One path of the ledger -/

/-- The ledgers hold the same stamps at `p`. -/
def SameStamps (p : PathBuf) (l l' : DeletionLedger) : Prop :=
  l.alive.get p = l'.alive.get p ∧ l.entries.get p = l'.entries.get p

namespace SyncEngine

theorem stamps_admitRecord_of_ne {e : SyncEngine} {p q : PathBuf} (hne : q ≠ p) (a : Option Nat)
    (m : Nat) : SameStamps q (e.admitRecord p a m).ledger e.ledger := by
  have hrecord : ∀ w, SameStamps q (e.ledger.recordAlive p w).2 e.ledger := by
    intro w
    constructor
    · rw [DeletionLedger.get_alive_recordAlive, if_neg fun h => hne h.1]
    · rw [DeletionLedger.get_entries_recordAlive, if_neg fun h => hne h.1]
  cases a with
  | some w =>
    rw [ledger_admitRecord_live]
    exact hrecord w
  | none =>
    unfold admitRecord
    dsimp only
    split
    · split
      · exact hrecord m
      · exact ⟨rfl, rfl⟩
    · exact ⟨rfl, rfl⟩

/-- What an admission leaves at its path depends on the stamps there alone. -/
theorem stamps_admitRecord {e e' : SyncEngine} {p : PathBuf}
    (hsame : SameStamps p e.ledger e'.ledger) (a : Option Nat) (m : Nat) :
    SameStamps p (e.admitRecord p a m).ledger (e'.admitRecord p a m).ledger := by
  obtain ⟨halive, hentries⟩ := hsame
  have hrecord : ∀ w, SameStamps p (e.ledger.recordAlive p w).2 (e'.ledger.recordAlive p w).2 := by
    intro w
    constructor
    · rw [DeletionLedger.get_alive_recordAlive, DeletionLedger.get_alive_recordAlive]
      simp only [DeletionLedger.aliveSince, halive]
    · rw [DeletionLedger.get_entries_recordAlive, DeletionLedger.get_entries_recordAlive, hentries]
  cases a with
  | some w =>
    rw [ledger_admitRecord_live, ledger_admitRecord_live]
    exact hrecord w
  | none =>
    unfold admitRecord
    dsimp only
    rw [hentries]
    split
    · split
      · exact hrecord m
      · exact ⟨halive, hentries⟩
    · exact ⟨halive, hentries⟩

/-! ## What an entry does by itself -/

variable (h : Host) (e₀ : SyncEngine)

/-- The entry is written, as the ledger stands at first. -/
def Admitted (fd : FileData) : Prop :=
  safeRelative fd.metadata.relPath = true ∧
    e₀.vetoFor fd.metadata.relPath fd.actionMs fd.metadata.modifiedMs = none

/-- The entry is written and takes a tombstone at its path away. -/
def Lifts (fd : FileData) : Prop :=
  e₀.Admitted fd ∧ (e₀.admitRecord fd.metadata.relPath fd.actionMs
    fd.metadata.modifiedMs).ledger.entries.get fd.metadata.relPath = none

/-- The entry is written over a local version that diverged, which is copied first. -/
def Conflicted (fd : FileData) : Prop :=
  e₀.Admitted fd ∧ fd.metadata.isDir = false ∧
    (e₀.detectConflict h fd.metadata.relPath fd.metadata.hash).isSome = true

/-- The name of that copy. -/
def copyPath (fd : FileData) : PathBuf :=
  conflictCopyName fd.metadata.relPath e₀.nodeId h.unixSecs

/-- Nothing is decided by a tombstone that another entry of the list lifts: whichever of these are
    gone, an entry gets the verdict that it gets on the ledger as it stands at first. -/
def Steady (fds : List FileData) : Prop :=
  ∀ fd ∈ fds, ∀ l : DeletionLedger,
    l.alive.get fd.metadata.relPath = e₀.ledger.alive.get fd.metadata.relPath →
    (∀ q, l.entries.get q = e₀.ledger.entries.get q ∨ (l.entries.get q = none ∧
      q ≠ fd.metadata.relPath ∧ ∃ fd' ∈ fds, fd'.metadata.relPath = q ∧ e₀.Lifts fd')) →
    ((({ e₀ with ledger := l } : SyncEngine).vetoFor fd.metadata.relPath fd.actionMs
        fd.metadata.modifiedMs).isSome = true ↔
      (e₀.vetoFor fd.metadata.relPath fd.actionMs fd.metadata.modifiedMs).isSome = true)

/-- The entries of one plan, as a sender may split and order them. -/
structure Plan (fds : List FileData) : Prop where
  distinct : (fds.map fun fd => fd.metadata.relPath).Nodup
  /-- Nothing lies below a file. -/
  leaves : ∀ fd ∈ fds, ∀ fd' ∈ fds, fd.metadata.isDir = false →
    fd.metadata.relPath <+: fd'.metadata.relPath → fd = fd'
  steady : e₀.Steady fds
  /-- No conflict copy gets the name of an entry, or of a directory on the way to one. -/
  copies : ∀ fd ∈ fds, e₀.Conflicted h fd → ∀ fd' ∈ fds,
    ¬ e₀.copyPath h fd <+: fd'.metadata.relPath

variable {h e₀} {fds done : List FileData} {fd fd' : FileData}

theorem Plan.eq_of_path (hplan : Plan h e₀ fds) (hfd : fd ∈ fds) (hfd' : fd' ∈ fds)
    (hpath : fd.metadata.relPath = fd'.metadata.relPath) : fd = fd' :=
  List.inj_on_of_nodup_map hplan.distinct hfd hfd' hpath

/-- A conflict is one with a file that was there. -/
theorem Conflicted.read (hc : e₀.Conflicted h fd) :
    ∃ c m, e₀.tree.get fd.metadata.relPath = some (.file c m) := by
  have hdetect := hc.2.2
  unfold detectConflict at hdetect
  split at hdetect
  · cases hdetect
  · split at hdetect
    · cases hdetect
    · split at hdetect
      · cases hdetect
      · next onDisk hread =>
        unfold Host.hashFile at hread
        split at hread
        · cases hread
        · rw [Option.map_eq_some_iff] at hread
          obtain ⟨c, hc, -⟩ := hread
          unfold FileTree.read at hc
          split at hc
          · next d m hd => exact ⟨d, m, hd⟩
          · cases hc

theorem Conflicted.path_ne (hc : e₀.Conflicted h fd) : fd.metadata.relPath ≠ [] := by
  obtain ⟨c, m, hget⟩ := hc.read
  intro hroot
  rw [hroot] at hget
  simp at hget

theorem copyPath_inj (hc : e₀.Conflicted h fd) (hc' : e₀.Conflicted h fd')
    (heq : e₀.copyPath h fd = e₀.copyPath h fd') :
    fd.metadata.relPath = fd'.metadata.relPath :=
  conflictCopyName_inj (isSome_fileName hc.1.1 hc.path_ne) (isSome_fileName hc'.1.1 hc'.path_ne) heq

/-! ## What a list of entries leaves -/

/-- Nobody on the list wrote to `q`, neither an entry nor a conflict copy. -/
def Unwritten (h : Host) (e₀ : SyncEngine) (done : List FileData) (q : PathBuf) : Prop :=
  (∀ fd ∈ done, e₀.Admitted fd → fd.metadata.relPath ≠ q) ∧
    ∀ fd ∈ done, e₀.Conflicted h fd → e₀.tree.isDir (e₀.copyPath h fd) = false →
      e₀.copyPath h fd ≠ q

/-- Some written entry needed the directory `q` on its way. -/
def Needed (e₀ : SyncEngine) (done : List FileData) (q : PathBuf) : Prop :=
  q ≠ [] ∧ ∃ fd ∈ done, e₀.Admitted fd ∧ q <+: fd.metadata.relPath.dropLast

/-- The engine after the entries `done`, in terms of the engine `e₀` before them. The mtimes
    of the directories in `pending` are still to be set. -/
structure Settled (h : Host) (e₀ : SyncEngine) (done : List FileData)
    (pending : List (PathBuf × Nat)) (e : SyncEngine) : Prop where
  nodeId : e.nodeId = e₀.nodeId
  stamps_at : ∀ fd ∈ done, e₀.Admitted fd → SameStamps fd.metadata.relPath e.ledger
    (e₀.admitRecord fd.metadata.relPath fd.actionMs fd.metadata.modifiedMs).ledger
  stamps_off : ∀ q, (∀ fd ∈ done, e₀.Admitted fd → fd.metadata.relPath ≠ q) →
    SameStamps q e.ledger e₀.ledger
  keys_at : ∀ fd ∈ done, e₀.Admitted fd →
    e.manifest.files.get fd.metadata.relPath = some fd.metadata
  keys_off : ∀ q, (∀ fd ∈ done, e₀.Admitted fd → fd.metadata.relPath ≠ q) →
    e.manifest.files.get q = e₀.manifest.files.get q
  file_at : ∀ fd ∈ done, e₀.Admitted fd → fd.metadata.isDir = false →
    e.tree.get fd.metadata.relPath = some (.file fd.content fd.metadata.modifiedMs)
  dir_at : ∀ fd ∈ done, e₀.Admitted fd → fd.metadata.isDir = true → fd.metadata.relPath ≠ [] →
    ∃ m, e.tree.get fd.metadata.relPath = some (.dir m) ∧
      ((fd.metadata.relPath, fd.metadata.modifiedMs) ∈ pending ∨ m = fd.metadata.modifiedMs)
  copy_at : ∀ fd ∈ done, e₀.Conflicted h fd → e₀.tree.isDir (e₀.copyPath h fd) = false →
    e.tree.get (e₀.copyPath h fd) =
      (e₀.tree.read fd.metadata.relPath).map fun c => .file c h.nowMs
  made : ∀ q, Unwritten h e₀ done q → e₀.tree.get q = none → Needed e₀ done q →
    e.tree.get q = some (.dir h.nowMs)
  kept : ∀ q, Unwritten h e₀ done q → (e₀.tree.get q ≠ none ∨ ¬Needed e₀ done q) →
    e.tree.get q = e₀.tree.get q
  pending_of : ∀ x ∈ pending, ∃ fd ∈ done, e₀.Admitted fd ∧ fd.metadata.isDir = true ∧
    x = (fd.metadata.relPath, fd.metadata.modifiedMs)

namespace Settled

variable {pending : List (PathBuf × Nat)} {e : SyncEngine}

/-- The verdict on the next entry is the one that it gets at first. -/
theorem veto_alike (hs : Settled h e₀ done pending e) (hsub : ∀ x ∈ done, x ∈ fds)
    (hplan : Plan h e₀ fds) (hfd : fd ∈ fds) (hnew : fd ∉ done) :
    (e.vetoFor fd.metadata.relPath fd.actionMs fd.metadata.modifiedMs).isSome = true ↔
      (e₀.vetoFor fd.metadata.relPath fd.actionMs fd.metadata.modifiedMs).isSome = true := by
  have hoff : ∀ x ∈ done, e₀.Admitted x → x.metadata.relPath ≠ fd.metadata.relPath := by
    intro x hx _ heq
    exact hnew (hplan.eq_of_path (hsub x hx) hfd heq ▸ hx)
  have hsteady := hplan.steady fd hfd e.ledger (hs.stamps_off _ hoff).1 ?_
  · exact hsteady
  · intro q
    by_cases hq : ∀ x ∈ done, e₀.Admitted x → x.metadata.relPath ≠ q
    · exact .inl (hs.stamps_off q hq).2
    · push Not at hq
      obtain ⟨x, hx, hadm, rfl⟩ := hq
      rw [(hs.stamps_at x hx hadm).2]
      by_cases hsame : (e₀.admitRecord x.metadata.relPath x.actionMs
          x.metadata.modifiedMs).ledger.entries.get x.metadata.relPath =
            e₀.ledger.entries.get x.metadata.relPath
      · exact .inl hsame
      · -- An admission changes the tombstone at its path only by taking it away.
        have hnone : (e₀.admitRecord x.metadata.relPath x.actionMs
            x.metadata.modifiedMs).ledger.entries.get x.metadata.relPath = none := by
          by_contra hsome
          obtain ⟨t, ht⟩ := Option.ne_none_iff_exists'.mp hsome
          exact hsame (ht.trans (entries_admitRecord ht).symm)
        exact .inr ⟨hnone, hoff x hx hadm, x, hsub x hx, rfl, hadm, hnone⟩

/-- What the next file entry finds at its path is what was there at first. -/
theorem tree_at (hs : Settled h e₀ done pending e) (hsub : ∀ x ∈ done, x ∈ fds)
    (hplan : Plan h e₀ fds) (hfd : fd ∈ fds) (hnew : fd ∉ done)
    (hfile : fd.metadata.isDir = false) :
    e.tree.get fd.metadata.relPath = e₀.tree.get fd.metadata.relPath := by
  refine hs.kept _ ⟨?_, ?_⟩ (.inr ?_)
  · intro x hx _ heq
    exact hnew (hplan.eq_of_path (hsub x hx) hfd heq ▸ hx)
  · intro x hx hc _ heq
    exact hplan.copies x (hsub x hx) hc fd hfd (heq ▸ List.prefix_refl _)
  · rintro ⟨-, x, hx, -, hpre⟩
    have heq := hplan.leaves fd hfd x (hsub x hx) hfile (hpre.trans (List.dropLast_prefix _))
    exact hnew (heq ▸ hx)

/-- Nor has anything happened at the name of its conflict copy. -/
theorem tree_copyPath (hs : Settled h e₀ done pending e) (hsub : ∀ x ∈ done, x ∈ fds)
    (hplan : Plan h e₀ fds) (hfd : fd ∈ fds) (hnew : fd ∉ done) (hc : e₀.Conflicted h fd) :
    e.tree.get (e₀.copyPath h fd) = e₀.tree.get (e₀.copyPath h fd) := by
  refine hs.kept _ ⟨?_, ?_⟩ (.inr ?_)
  · intro x hx _ heq
    exact hplan.copies fd hfd hc x (hsub x hx) (heq ▸ List.prefix_refl _)
  · intro x hx hc' _ heq
    have hpath := copyPath_inj hc' hc heq
    exact hnew (hplan.eq_of_path (hsub x hx) hfd hpath ▸ hx)
  · rintro ⟨-, x, hx, -, hpre⟩
    exact hplan.copies fd hfd hc x (hsub x hx) (hpre.trans (List.dropLast_prefix _))

end Settled

/-! ## One entry -/

/-- The tree from which the entry is written: with the conflict copy, when there is one. -/
def treeFor (h : Host) (e : SyncEngine) (fd : FileData) : Tree :=
  if fd.metadata.isDir then e.tree else (e.settled h fd.metadata.relPath fd.metadata.hash).1

theorem applyFile_admitted (hok : ∀ op, h.fails op = false) {s s' : BundleRun}
    (hsafe : safeRelative fd.metadata.relPath = true)
    (hveto : s.engine.vetoFor fd.metadata.relPath fd.actionMs fd.metadata.modifiedMs = none)
    (hr : applyFile h s fd = (true, s')) :
    writeEntry h (treeFor h s.engine fd) fd = (true, s'.engine.tree) ∧
      s'.engine.nodeId = s.engine.nodeId ∧
      s'.engine.ledger = (s.engine.admitRecord fd.metadata.relPath fd.actionMs
        fd.metadata.modifiedMs).ledger ∧
      s'.engine.manifest.files = s.engine.manifest.files.insert fd.metadata.relPath fd.metadata ∧
      s'.dirMtimes = if fd.metadata.isDir then
        s.dirMtimes ++ [(fd.metadata.relPath, fd.metadata.modifiedMs)] else s.dirMtimes := by
  obtain ⟨dirty, hadm⟩ := exists_admitRecord s.engine fd.metadata.relPath fd.actionMs
    fd.metadata.modifiedMs
  generalize (s.engine.admitRecord fd.metadata.relPath fd.actionMs
    fd.metadata.modifiedMs).ledger = l at hadm ⊢
  -- The conflict is looked for after the admission, which leaves tree and manifest alone.
  have hcopy : (if (!fd.metadata.isDir && ((s.engine.admitRecord fd.metadata.relPath fd.actionMs
        fd.metadata.modifiedMs).detectConflict h fd.metadata.relPath
          fd.metadata.hash).isSome) = true then
        (s.engine.admitRecord fd.metadata.relPath fd.actionMs
          fd.metadata.modifiedMs).saveConflictCopy h fd.metadata.relPath
      else some (s.engine.admitRecord fd.metadata.relPath fd.actionMs fd.metadata.modifiedMs,
        none)) = some ({ s.engine with
        ledger := l
        ledgerDirty := dirty
        tree := treeFor h s.engine fd },
          if fd.metadata.isDir then none
          else (s.engine.settled h fd.metadata.relPath fd.metadata.hash).2) := by
    rw [hadm]
    have hdetect : ({ s.engine with ledger := l, ledgerDirty := dirty } : SyncEngine).detectConflict
        h fd.metadata.relPath fd.metadata.hash =
          s.engine.detectConflict h fd.metadata.relPath fd.metadata.hash := rfl
    simp only [hdetect, treeFor, settled]
    cases fd.metadata.isDir with
    | true => simp
    | false =>
      simp only [Bool.not_false, Bool.true_and, Bool.false_eq_true, if_false]
      split
      · next hconflict =>
        obtain ⟨n, hn⟩ := exists_of_detectConflict hconflict
        exact saveConflictCopy_eq hok hn
      · rfl
  unfold applyFile at hr
  simp only [hsafe, hveto, hcopy, Bool.not_true, Bool.false_eq_true, if_false,
    Option.isSome_none] at hr
  cases hw : writeEntry h (treeFor h s.engine fd) fd with
  | mk ok t =>
    rw [hw] at hr
    cases ok with
    | false => simp at hr
    | true =>
      simp only [Bool.not_true, Bool.false_eq_true, if_false, Prod.mk.injEq, true_and] at hr
      subst hr
      exact ⟨rfl, rfl, rfl, rfl, rfl⟩

/-- What a successful write of an entry leaves: the entry, directories on the way, and the rest. -/
theorem get_writeEntry (hok : ∀ op, h.fails op = false) {t t' : Tree}
    (hw : writeEntry h t fd = (true, t')) (q : PathBuf) :
    (q = fd.metadata.relPath → fd.metadata.isDir = false →
      t'.get q = some (.file fd.content fd.metadata.modifiedMs)) ∧
    (q = fd.metadata.relPath → fd.metadata.isDir = true → q ≠ [] →
      ∃ m, t'.get q = some (.dir m)) ∧
    (q ≠ fd.metadata.relPath → t'.get q =
      if q ≠ [] ∧ q <+: fd.metadata.relPath.dropLast ∧ t.get q = none then some (.dir h.nowMs)
      else t.get q) := by
  unfold writeEntry at hw
  split at hw
  · next hdir =>
    split at hw
    · next t₁ ht₁ =>
      obtain ⟨-, rfl⟩ := Prod.mk.inj hw
      unfold Host.createDirAll at ht₁
      rw [hok, if_neg (by decide)] at ht₁
      refine ⟨fun _ hfile => ?_, fun hq _ hne => ?_, fun hne => ?_⟩
      · rw [hdir] at hfile
        cases hfile
      · rw [FileTree.get_createDirAll ht₁]
        cases hget : t.get q with
        | none =>
          have hroot : fd.metadata.relPath ≠ [] := hq ▸ hne
          exact ⟨h.nowMs, by simp [hroot, hq]⟩
        | some n =>
          have hsome : (t.createDirAll h.nowMs fd.metadata.relPath).isSome = true := by
            rw [ht₁]
            rfl
          have hnot := (FileTree.createDirAll_isSome_iff h.nowMs).mp hsome q
            (hq ▸ List.prefix_refl _)
          cases n with
          | dir m => exact ⟨m, by simp⟩
          | file c m => simp [FileTree.isFile, hget, FileNode.isDir] at hnot
      · rw [FileTree.get_createDirAll ht₁]
        have hiff : q <+: fd.metadata.relPath ↔ q <+: fd.metadata.relPath.dropLast := by
          constructor
          · intro hpre
            rcases List.eq_nil_or_concat fd.metadata.relPath with hnil | ⟨p, c, hp⟩
            · rw [hnil] at hpre hne
              exact absurd (List.prefix_nil.mp hpre) hne
            · rw [List.concat_eq_append] at hp
              rw [hp] at hpre hne ⊢
              rw [List.dropLast_concat]
              exact (List.prefix_concat_iff.mp hpre).resolve_left hne
          · exact fun hpre => hpre.trans (List.dropLast_prefix _)
        simp only [hiff]
    · cases hw
  · next hdir =>
    split at hw
    · cases hw
    · next t₁ ht₁ =>
      split at hw
      · next t₂ ht₂ =>
        obtain ⟨-, rfl⟩ := Prod.mk.inj hw
        unfold Host.createDirAll at ht₁
        rw [hok, if_neg (by decide)] at ht₁
        unfold Host.write at ht₂
        rw [hok, hok, if_neg (by decide), if_neg (by decide)] at ht₂
        refine ⟨fun hq _ => ?_, fun _ hd => absurd hd hdir, fun hne => ?_⟩
        · rw [FileTree.get_write ht₂, if_pos hq]
        · rw [FileTree.get_write ht₂, if_neg hne, FileTree.get_createDirAll ht₁]
      · cases hw

theorem mem_concat_admitted {P : FileData → Prop} :
    (∀ x ∈ done ++ [fd], P x) ↔ (∀ x ∈ done, P x) ∧ P fd := by
  simp [or_imp, forall_and]

namespace Settled

variable {pending : List (PathBuf × Nat)} {e : SyncEngine}

/-- An entry that is not admitted leaves everything as it is. -/
theorem skip (hs : Settled h e₀ done pending e) (hnot : ¬e₀.Admitted fd) :
    Settled h e₀ (done ++ [fd]) pending e := by
  have hold : ∀ x ∈ done ++ [fd], e₀.Admitted x → x ∈ done := by
    intro x hx hadm
    rcases List.mem_append.mp hx with hx | hx
    · exact hx
    · rw [List.mem_singleton.mp hx] at hadm
      exact absurd hadm hnot
  have hoff : ∀ q, Unwritten h e₀ (done ++ [fd]) q → Unwritten h e₀ done q := by
    intro q hq
    exact ⟨fun x hx => hq.1 x (by simp [hx]), fun x hx => hq.2 x (by simp [hx])⟩
  have hneeded : ∀ q, Needed e₀ (done ++ [fd]) q ↔ Needed e₀ done q := by
    intro q
    constructor
    · rintro ⟨hroot, x, hx, hadm, hpre⟩
      exact ⟨hroot, x, hold x hx hadm, hadm, hpre⟩
    · rintro ⟨hroot, x, hx, hadm, hpre⟩
      exact ⟨hroot, x, by simp [hx], hadm, hpre⟩
  exact {
    nodeId := hs.nodeId
    stamps_at := fun x hx hadm => hs.stamps_at x (hold x hx hadm) hadm
    stamps_off := fun q hq => hs.stamps_off q fun x hx => hq x (by simp [hx])
    keys_at := fun x hx hadm => hs.keys_at x (hold x hx hadm) hadm
    keys_off := fun q hq => hs.keys_off q fun x hx => hq x (by simp [hx])
    file_at := fun x hx hadm => hs.file_at x (hold x hx hadm) hadm
    dir_at := fun x hx hadm => hs.dir_at x (hold x hx hadm) hadm
    copy_at := fun x hx hc => hs.copy_at x (hold x hx hc.1) hc
    made := fun q hq hnone hneed => hs.made q (hoff q hq) hnone ((hneeded q).mp hneed)
    kept := fun q hq hcase =>
      hs.kept q (hoff q hq) (hcase.imp_right fun hno => mt (hneeded q).mpr hno)
    pending_of := by
      intro x hx
      obtain ⟨y, hy, hrest⟩ := hs.pending_of x hx
      exact ⟨y, by simp [hy], hrest⟩ }

theorem detectConflict_eq (hs : Settled h e₀ done pending e) (hsub : ∀ x ∈ done, x ∈ fds)
    (hplan : Plan h e₀ fds) (hfd : fd ∈ fds) (hnew : fd ∉ done)
    (hfile : fd.metadata.isDir = false) :
    e.detectConflict h fd.metadata.relPath fd.metadata.hash =
      e₀.detectConflict h fd.metadata.relPath fd.metadata.hash := by
  have hkey := hs.keys_off fd.metadata.relPath fun x hx _ heq =>
    hnew (hplan.eq_of_path (hsub x hx) hfd heq ▸ hx)
  have hread : e.tree.read fd.metadata.relPath = e₀.tree.read fd.metadata.relPath := by
    unfold FileTree.read
    rw [hs.tree_at hsub hplan hfd hnew hfile]
  unfold detectConflict Host.hashFile
  rw [hkey, hread]

/-- The tree from which an admitted entry is written, with its conflict copy. -/
theorem get_treeFor (hs : Settled h e₀ done pending e) (hsub : ∀ x ∈ done, x ∈ fds)
    (hplan : Plan h e₀ fds) (hfd : fd ∈ fds) (hnew : fd ∉ done) (hadm : e₀.Admitted fd) :
    (e₀.Conflicted h fd → e₀.tree.isDir (e₀.copyPath h fd) = false →
      (treeFor h e fd).get (e₀.copyPath h fd) =
        (e₀.tree.read fd.metadata.relPath).map fun c => .file c h.nowMs) ∧
    ∀ q, (e₀.Conflicted h fd → e₀.tree.isDir (e₀.copyPath h fd) = false → e₀.copyPath h fd ≠ q) →
      (treeFor h e fd).get q = e.tree.get q := by
  unfold treeFor
  cases hdir : fd.metadata.isDir with
  | true =>
    refine ⟨fun hc => ?_, fun q _ => rfl⟩
    rw [hc.2.1] at hdir
    cases hdir
  | false =>
    simp only [Bool.false_eq_true, if_false]
    unfold settled
    rw [hs.detectConflict_eq hsub hplan hfd hnew hdir]
    by_cases hdetect : (e₀.detectConflict h fd.metadata.relPath fd.metadata.hash).isSome = true
    · have hc : e₀.Conflicted h fd := ⟨hadm, hdir, hdetect⟩
      have hcopy : conflictCopyName fd.metadata.relPath e.nodeId h.unixSecs = e₀.copyPath h fd := by
        rw [hs.nodeId]
        rfl
      obtain ⟨c, m, hget⟩ := hc.read
      have hat : e.tree.get fd.metadata.relPath = some (.file c m) :=
        (hs.tree_at hsub hplan hfd hnew hdir).trans hget
      have hread : e.tree.read fd.metadata.relPath = some c := by
        unfold FileTree.read
        rw [hat]
      have hread₀ : e₀.tree.read fd.metadata.relPath = some c := by
        unfold FileTree.read
        rw [hget]
      have hroot : e₀.copyPath h fd ≠ [] := by
        unfold copyPath conflictCopyName
        simp
      have hparent : e.tree.isDir (e₀.copyPath h fd).dropLast = true := by
        unfold copyPath
        rw [conflictCopyName_dropLast]
        exact e.tree.isDir_of_prefix hat (List.dropLast_prefix _) (FileTree.dropLast_ne hc.path_ne)
      have hisDir : e.tree.isDir (e₀.copyPath h fd) = e₀.tree.isDir (e₀.copyPath h fd) := by
        unfold FileTree.isDir
        rw [hs.tree_copyPath hsub hplan hfd hnew hc]
      rw [if_pos hdetect]
      unfold copyAside
      simp only [hcopy, hread, hread₀, Option.bind_some]
      cases hw : e.tree.write (e₀.copyPath h fd) c h.nowMs with
      | some t =>
        refine ⟨fun _ _ => ?_, fun q hq => ?_⟩
        · rw [FileTree.get_write hw, if_pos rfl]
          rfl
        · have hnot : e₀.tree.isDir (e₀.copyPath h fd) = false := by
            have hsome : e.tree.write (e₀.copyPath h fd) c h.nowMs ≠ none := by simp [hw]
            rw [ne_eq, FileTree.write_eq_none_iff, not_or, not_or] at hsome
            rw [← hisDir]
            simpa using hsome.2.2
          rw [FileTree.get_write hw, if_neg (Ne.symm (hq hc hnot))]
      | none =>
        refine ⟨fun _ hnot => ?_, fun q _ => rfl⟩
        rw [FileTree.write_eq_none_iff, hisDir, hnot, hparent] at hw
        simp [hroot] at hw
    · rw [if_neg hdetect]
      exact ⟨fun hc => absurd hc.2.2 hdetect, fun q _ => rfl⟩

/-- One more entry. -/
theorem applyFile (hok : ∀ op, h.fails op = false) {s s' : BundleRun}
    (hs : Settled h e₀ done s.dirMtimes s.engine) (hsub : ∀ x ∈ done, x ∈ fds)
    (hplan : Plan h e₀ fds) (hfd : fd ∈ fds) (hnew : fd ∉ done)
    (hr : SyncEngine.applyFile h s fd = (true, s')) :
    Settled h e₀ (done ++ [fd]) s'.dirMtimes s'.engine := by
  have hveto := hs.veto_alike hsub hplan hfd hnew
  by_cases hadm : e₀.Admitted fd
  · have hnone : s.engine.vetoFor fd.metadata.relPath fd.actionMs fd.metadata.modifiedMs =
        none := by
      rw [hadm.2] at hveto
      simpa using hveto
    obtain ⟨hw, hnode, hledger, hmanifest, hpending⟩ := applyFile_admitted hok hadm.1 hnone hr
    obtain ⟨hcopy, hrest⟩ := hs.get_treeFor hsub hplan hfd hnew hadm
    have hwrite := get_writeEntry hok hw
    -- The paths and the copies of the earlier entries are others.
    have hpath : ∀ x ∈ done, x.metadata.relPath ≠ fd.metadata.relPath := by
      intro x hx heq
      exact hnew (hplan.eq_of_path (hsub x hx) hfd heq ▸ hx)
    have hcopyPath : ∀ x ∈ done, e₀.Conflicted h x → e₀.copyPath h x ≠ fd.metadata.relPath := by
      intro x hx hc heq
      exact hplan.copies x (hsub x hx) hc fd hfd (heq ▸ List.prefix_refl _)
    have hcopies : ∀ x ∈ done, e₀.Conflicted h x → e₀.Conflicted h fd →
        e₀.copyPath h fd ≠ e₀.copyPath h x := by
      intro x hx hc hc' heq
      exact hpath x hx (copyPath_inj hc' hc heq).symm
    -- What is there and not written now stays.
    have hstays : ∀ q n, q ≠ fd.metadata.relPath → (e₀.Conflicted h fd →
        e₀.tree.isDir (e₀.copyPath h fd) = false → e₀.copyPath h fd ≠ q) →
        s.engine.tree.get q = some n → s'.engine.tree.get q = some n := by
      intro q n hne hcne hget
      rw [(hwrite q).2.2 hne, hrest q hcne, hget]
      simp
    exact {
      nodeId := hnode.trans hs.nodeId
      stamps_at := by
        refine mem_concat_admitted.mpr ⟨fun x hx hadmx => ?_, fun _ => ?_⟩
        · have hoff := stamps_admitRecord_of_ne (e := s.engine) (hpath x hx) fd.actionMs
            fd.metadata.modifiedMs
          have hat := hs.stamps_at x hx hadmx
          rw [hledger]
          exact ⟨hoff.1.trans hat.1, hoff.2.trans hat.2⟩
        · rw [hledger]
          exact stamps_admitRecord (hs.stamps_off _ fun x hx _ => hpath x hx) _ _
      stamps_off := by
        intro q hq
        have hold := hs.stamps_off q fun x hx => hq x (by simp [hx])
        have hne : q ≠ fd.metadata.relPath := Ne.symm (hq fd (by simp) hadm)
        have hoff := stamps_admitRecord_of_ne (e := s.engine) hne fd.actionMs fd.metadata.modifiedMs
        rw [hledger]
        exact ⟨hoff.1.trans hold.1, hoff.2.trans hold.2⟩
      keys_at := by
        refine mem_concat_admitted.mpr ⟨fun x hx hadmx => ?_, fun _ => ?_⟩
        · rw [hmanifest, FinMap.get_insert, if_neg (hpath x hx)]
          exact hs.keys_at x hx hadmx
        · rw [hmanifest, FinMap.get_insert, if_pos rfl]
      keys_off := by
        intro q hq
        have hne : q ≠ fd.metadata.relPath := Ne.symm (hq fd (by simp) hadm)
        rw [hmanifest, FinMap.get_insert, if_neg hne]
        exact hs.keys_off q fun x hx => hq x (by simp [hx])
      file_at := by
        refine mem_concat_admitted.mpr ⟨fun x hx hadmx hfile => ?_, fun _ hfile => ?_⟩
        · refine hstays _ _ (hpath x hx) (fun hc _ heq => ?_) (hs.file_at x hx hadmx hfile)
          exact hplan.copies fd hfd hc x (hsub x hx) (heq ▸ List.prefix_refl _)
        · exact (hwrite _).1 rfl hfile
      dir_at := by
        have hkeep : ∀ x, x ∈ s.dirMtimes → x ∈ s'.dirMtimes := by
          intro x hx
          rw [hpending]
          split
          · simp [hx]
          · exact hx
        refine mem_concat_admitted.mpr ⟨fun x hx hadmx hdir hroot => ?_, fun _ hdir hroot => ?_⟩
        · obtain ⟨m, hget, hm⟩ := hs.dir_at x hx hadmx hdir hroot
          refine ⟨m, hstays _ _ (hpath x hx) (fun hc _ heq => ?_) hget, hm.imp_left (hkeep _)⟩
          exact hplan.copies fd hfd hc x (hsub x hx) (heq ▸ List.prefix_refl _)
        · obtain ⟨m, hget⟩ := (hwrite _).2.1 rfl hdir hroot
          refine ⟨m, hget, .inl ?_⟩
          rw [hpending, if_pos hdir]
          simp
      copy_at := by
        refine mem_concat_admitted.mpr ⟨fun x hx hc hnot => ?_, fun hc hnot => ?_⟩
        · obtain ⟨c, m, hget⟩ := hc.read
          have hold := hs.copy_at x hx hc hnot
          rw [FileTree.read, hget] at hold ⊢
          exact hstays _ _ (hcopyPath x hx hc) (fun hc' _ => hcopies x hx hc hc') hold
        · obtain ⟨c, m, hget⟩ := hc.read
          have hne : e₀.copyPath h fd ≠ fd.metadata.relPath := fun heq =>
            hplan.copies fd hfd hc fd hfd (heq ▸ List.prefix_refl _)
          have hnow := hcopy hc hnot
          rw [FileTree.read, hget] at hnow ⊢
          rw [(hwrite _).2.2 hne, hnow]
          simp
      made := by
        intro q hq hnone hneed
        have hold : Unwritten h e₀ done q :=
          ⟨fun x hx => hq.1 x (by simp [hx]), fun x hx => hq.2 x (by simp [hx])⟩
        have hne : q ≠ fd.metadata.relPath := Ne.symm (hq.1 fd (by simp) hadm)
        have hcne := hq.2 fd (by simp)
        by_cases hneeded : Needed e₀ done q
        · exact hstays q _ hne hcne (hs.made q hold hnone hneeded)
        · obtain ⟨hroot, x, hx, hadmx, hpre⟩ := hneed
          rcases List.mem_append.mp hx with hx | hx
          · exact absurd ⟨hroot, x, hx, hadmx, hpre⟩ hneeded
          · rw [List.mem_singleton.mp hx] at hpre
            have hgone := (hs.kept q hold (.inr hneeded)).trans hnone
            rw [(hwrite q).2.2 hne, hrest q hcne, if_pos ⟨hroot, hpre, hgone⟩]
      kept := by
        intro q hq hcase
        have hold : Unwritten h e₀ done q :=
          ⟨fun x hx => hq.1 x (by simp [hx]), fun x hx => hq.2 x (by simp [hx])⟩
        have hne : q ≠ fd.metadata.relPath := Ne.symm (hq.1 fd (by simp) hadm)
        have hless : Needed e₀ done q → Needed e₀ (done ++ [fd]) q := by
          rintro ⟨hroot, x, hx, hrest⟩
          exact ⟨hroot, x, by simp [hx], hrest⟩
        have hsame := hs.kept q hold (hcase.imp_right fun hno => mt hless hno)
        rw [(hwrite q).2.2 hne, hrest q (hq.2 fd (by simp)), hsame, if_neg]
        rintro ⟨hroot, hpre, hnone⟩
        rcases hcase with hsome | hno
        · exact hsome hnone
        · exact hno ⟨hroot, fd, by simp, hadm, hpre⟩
      pending_of := by
        have hold : ∀ x ∈ s.dirMtimes, ∃ y ∈ done ++ [fd], e₀.Admitted y ∧
            y.metadata.isDir = true ∧ x = (y.metadata.relPath, y.metadata.modifiedMs) := by
          intro x hx
          obtain ⟨y, hy, hrest⟩ := hs.pending_of x hx
          exact ⟨y, by simp [hy], hrest⟩
        rw [hpending]
        split
        · next hdir =>
          intro x hx
          rcases List.mem_append.mp hx with hx | hx
          · exact hold x hx
          · exact ⟨fd, by simp, hadm, hdir, List.mem_singleton.mp hx⟩
        · exact hold }
  · have hsame : s' = s := by
      unfold SyncEngine.applyFile at hr
      by_cases hsafe : safeRelative fd.metadata.relPath = true
      · have hsome : (e₀.vetoFor fd.metadata.relPath fd.actionMs
            fd.metadata.modifiedMs).isSome = true := by
          by_contra hno
          exact hadm ⟨hsafe, by simpa using hno⟩
        simp only [hsafe, hveto.mpr hsome, Bool.not_true, Bool.false_eq_true, if_false,
          if_true] at hr
        exact (Prod.mk.inj hr).2.symm
      · simp only [hsafe, Bool.not_false, if_true] at hr
        exact (Prod.mk.inj hr).2.symm
    rw [hsame]
    exact hs.skip hadm

end Settled

/-! ## The end of a bundle -/

/-- Setting the mtimes of directories, of which none is named twice. -/
theorem get_setMtimes (ds : List (PathBuf × Nat)) (t : Tree) (q : PathBuf) :
    ((∀ m, (q, m) ∉ ds) → (ds.foldl (fun t d => t.setMtime d.1 d.2) t).get q = t.get q) ∧
    ∀ m, (q, m) ∈ ds → (∀ m', (q, m') ∈ ds → m' = m) →
      (ds.foldl (fun t d => t.setMtime d.1 d.2) t).get q = (t.get q).map (·.setMtime m) := by
  induction ds generalizing t with
  | nil => exact ⟨fun _ => rfl, fun m hm => by cases hm⟩
  | cons d ds ih =>
    obtain ⟨hout, hin⟩ := ih (t.setMtime d.1 d.2)
    constructor
    · intro hnot
      have hne : q ≠ d.1 := by
        rintro rfl
        exact hnot d.2 (by simp)
      rw [List.foldl_cons, hout fun m hm => hnot m (by simp [hm]), FileTree.get_setMtime,
        if_neg hne]
    · intro m hm hone
      have hrest : ∀ m', (q, m') ∈ ds → m' = m := fun m' hm' => hone m' (by simp [hm'])
      rw [List.foldl_cons]
      by_cases hd : q = d.1
      · have hdm : d.2 = m := hone d.2 (by simp [hd])
        have hget : (t.setMtime d.1 d.2).get q = (t.get q).map (·.setMtime m) := by
          rw [FileTree.get_setMtime, if_pos hd, hdm, hd]
        by_cases hagain : (q, m) ∈ ds
        · rw [hin m hagain hrest, hget, Option.map_map]
          congr 1
          funext n
          exact FileNode.setMtime_setMtime m m n
        · rw [hout fun m' hm' => hagain (hrest m' hm' ▸ hm'), hget]
      · have hm' : (q, m) ∈ ds := (List.mem_cons.mp hm).resolve_left fun heq => hd (by rw [← heq])
        rw [hin m hm' hrest, FileTree.get_setMtime, if_neg hd]

theorem get_setDirMtimes (hok : ∀ op, h.fails op = false) (t : Tree) (ds : List (PathBuf × Nat))
    (q : PathBuf) :
    ((∀ m, (q, m) ∉ ds) → (setDirMtimes h t ds).get q = t.get q) ∧
    ∀ m, (q, m) ∈ ds → (∀ m', (q, m') ∈ ds → m' = m) →
      (setDirMtimes h t ds).get q = (t.get q).map (·.setMtime m) := by
  have hmem := fun x => (List.perm_insertionSort
    (fun a b : PathBuf × Nat => b.1.length ≤ a.1.length) ds).mem_iff (a := x)
  unfold setDirMtimes
  simp only [hok, Bool.false_eq_true, if_false]
  obtain ⟨hout, hin⟩ := get_setMtimes
    (ds.insertionSort fun a b => b.1.length ≤ a.1.length) t q
  constructor
  · intro hnot
    exact hout fun m hm => hnot m ((hmem _).mp hm)
  · intro m hm hone
    exact hin m ((hmem _).mpr hm) fun m' hm' => hone m' ((hmem _).mp hm')

/-- Once the mtimes are set nothing is pending. -/
theorem Settled.finish (hok : ∀ op, h.fails op = false) {pending : List (PathBuf × Nat)}
    {e e' : SyncEngine} (hs : Settled h e₀ done pending e) (hsub : ∀ x ∈ done, x ∈ fds)
    (hplan : Plan h e₀ fds) (hnode : e'.nodeId = e.nodeId) (hledger : e'.ledger = e.ledger)
    (hmanifest : e'.manifest = e.manifest) (htree : e'.tree = setDirMtimes h e.tree pending) :
    Settled h e₀ done [] e' := by
  have hget := get_setDirMtimes hok e.tree pending
  have hsame : ∀ q, (∀ x ∈ done, e₀.Admitted x → x.metadata.isDir = true →
      x.metadata.relPath ≠ q) → e'.tree.get q = e.tree.get q := by
    intro q hq
    rw [htree]
    refine (hget q).1 fun m hm => ?_
    obtain ⟨y, hy, hadm, hdir, heq⟩ := hs.pending_of _ hm
    exact hq y hy hadm hdir (Prod.mk.inj heq).1.symm
  exact {
    nodeId := hnode.trans hs.nodeId
    stamps_at := hledger ▸ hs.stamps_at
    stamps_off := hledger ▸ hs.stamps_off
    keys_at := hmanifest ▸ hs.keys_at
    keys_off := hmanifest ▸ hs.keys_off
    file_at := by
      intro fd hfd hadm hfile
      rw [hsame _ fun x hx _ hdir heq => ?_]
      · exact hs.file_at fd hfd hadm hfile
      · rw [hplan.eq_of_path (hsub x hx) (hsub fd hfd) heq, hfile] at hdir
        cases hdir
    dir_at := by
      intro fd hfd hadm hdir hroot
      obtain ⟨m, hm, hcase⟩ := hs.dir_at fd hfd hadm hdir hroot
      have hone : ∀ m', (fd.metadata.relPath, m') ∈ pending → m' = fd.metadata.modifiedMs := by
        intro m' hm'
        obtain ⟨y, hy, -, -, heq⟩ := hs.pending_of _ hm'
        obtain ⟨hpath, rfl⟩ := Prod.mk.inj heq
        rw [hplan.eq_of_path (hsub fd hfd) (hsub y hy) hpath]
      refine ⟨fd.metadata.modifiedMs, ?_, .inr rfl⟩
      rw [htree]
      by_cases hpending : (fd.metadata.relPath, fd.metadata.modifiedMs) ∈ pending
      · rw [(hget _).2 _ hpending hone, hm]
        rfl
      · rw [(hget _).1 fun m' hm' => hpending (hone m' hm' ▸ hm'), hm,
          hcase.resolve_left hpending]
    copy_at := by
      intro fd hfd hc hnot
      rw [hsame _ fun x hx _ _ heq => ?_]
      · exact hs.copy_at fd hfd hc hnot
      · exact hplan.copies fd (hsub fd hfd) hc x (hsub x hx) (heq ▸ List.prefix_refl _)
    made := by
      intro q hq hnone hneed
      rw [hsame q fun x hx hadm _ => hq.1 x hx hadm]
      exact hs.made q hq hnone hneed
    kept := by
      intro q hq hcase
      rw [hsame q fun x hx hadm _ => hq.1 x hx hadm]
      exact hs.kept q hq hcase
    pending_of := by
      intro x hx
      cases hx }

/-! ## Bundle after bundle -/

/-- The entries of a bundle that are vetoed, on the way through it. -/
def vetoedFiles (h : Host) (s : BundleRun) : List FileData → List FileData
  | [] => []
  | fd :: rest =>
    (if safeRelative fd.metadata.relPath &&
        (s.engine.vetoFor fd.metadata.relPath fd.actionMs fd.metadata.modifiedMs).isSome then [fd]
      else []) ++ vetoedFiles h (applyFile h s fd).2 rest

/-- The entries that are vetoed. -/
def vetoed (h : Host) (e : SyncEngine) : List FileBundle → List FileData
  | [] => []
  | b :: bs => vetoedFiles h ⟨e, [], ⟨0, []⟩, []⟩ b.files ++ vetoed h (e.applyBundle h b).2 bs

/-- The engine after the bundles. -/
def deliver (h : Host) (e : SyncEngine) (bs : List FileBundle) : SyncEngine :=
  bs.foldl (fun e b => (e.applyBundle h b).2) e

/-- No bundle ends in an error. -/
def Succeeds (h : Host) (e : SyncEngine) : List FileBundle → Prop
  | [] => True
  | b :: bs => (e.applyBundle h b).1.isSome = true ∧ Succeeds h (e.applyBundle h b).2 bs

theorem settled_applyFiles (hok : ∀ op, h.fails op = false) (hplan : Plan h e₀ fds)
    (files : List FileData) {s s' : BundleRun} {done : List FileData}
    (hs : Settled h e₀ done s.dirMtimes s.engine) (hsub : ∀ x ∈ done ++ files, x ∈ fds)
    (hnodup : (done ++ files).Nodup) (hr : applyFiles h s files = (true, s')) :
    Settled h e₀ (done ++ files) s'.dirMtimes s'.engine ∧
      ∀ fd, fd ∈ vetoedFiles h s files ↔ fd ∈ files ∧ safeRelative fd.metadata.relPath = true ∧
        (e₀.vetoFor fd.metadata.relPath fd.actionMs fd.metadata.modifiedMs).isSome = true := by
  induction files generalizing s done with
  | nil =>
    obtain ⟨-, rfl⟩ := Prod.mk.inj hr
    rw [List.append_nil]
    exact ⟨hs, fun fd => by simp [vetoedFiles]⟩
  | cons fd files ih =>
    have hdone : ∀ x ∈ done, x ∈ fds := fun x hx => hsub x (by simp [hx])
    have hfd : fd ∈ fds := hsub fd (by simp)
    have hnew : fd ∉ done := by
      intro hmem
      exact List.disjoint_of_nodup_append hnodup hmem (by simp)
    have hveto := hs.veto_alike hdone hplan hfd hnew
    have hassoc : done ++ fd :: files = (done ++ [fd]) ++ files := by simp
    rw [hassoc] at hsub hnodup ⊢
    cases hfirst : applyFile h s fd with
    | mk ok s₁ =>
      rw [applyFiles, hfirst] at hr
      cases ok with
      | false => cases hr
      | true =>
        obtain ⟨hsettled, hvetoed⟩ :=
          ih (hs.applyFile hok hdone hplan hfd hnew hfirst) hsub hnodup hr
        refine ⟨hsettled, fun x => ?_⟩
        rw [vetoedFiles, hfirst, List.mem_append, hvetoed, List.mem_cons, or_and_right]
        refine or_congr_left ?_
        simp only [Bool.and_eq_true]
        split
        · next hyes =>
          rw [hveto] at hyes
          rw [List.mem_singleton]
          exact ⟨fun heq => ⟨heq, heq ▸ hyes⟩, fun hx => hx.1⟩
        · next hno =>
          rw [hveto] at hno
          constructor
          · intro hx
            cases hx
          · rintro ⟨rfl, hx⟩
            exact absurd hx hno

theorem settled_deliver (hok : ∀ op, h.fails op = false) (hplan : Plan h e₀ fds)
    (bs : List FileBundle) {e : SyncEngine} {done : List FileData}
    (hs : Settled h e₀ done [] e) (hsub : ∀ x ∈ done ++ bs.flatMap (·.files), x ∈ fds)
    (hnodup : (done ++ bs.flatMap (·.files)).Nodup) (hsucc : e.Succeeds h bs) :
    Settled h e₀ (done ++ bs.flatMap (·.files)) [] (e.deliver h bs) ∧
      ∀ fd, fd ∈ e.vetoed h bs ↔ fd ∈ bs.flatMap (·.files) ∧
        safeRelative fd.metadata.relPath = true ∧
        (e₀.vetoFor fd.metadata.relPath fd.actionMs fd.metadata.modifiedMs).isSome = true := by
  induction bs generalizing e done with
  | nil =>
    rw [List.flatMap_nil, List.append_nil]
    exact ⟨hs, fun fd => by simp [vetoed]⟩
  | cons b bs ih =>
    have hassoc : done ++ (b :: bs).flatMap (·.files) =
        (done ++ b.files) ++ bs.flatMap (·.files) := by simp
    rw [hassoc] at hsub hnodup ⊢
    have hsub₁ : ∀ x ∈ done ++ b.files, x ∈ fds := fun x hx => hsub x (List.mem_append_left _ hx)
    obtain ⟨hfirst, hrest⟩ := hsucc
    have hbundle : ∃ s, applyFiles h ⟨e, [], ⟨0, []⟩, []⟩ b.files = (true, s) ∧
        (e.applyBundle h b).2 = ({ s.engine.flushLedger h with
          tree := setDirMtimes h s.engine.tree s.dirMtimes } : SyncEngine).scheduleUnsuppress
            s.written := by
      unfold applyBundle at hfirst ⊢
      cases hfiles : applyFiles h ⟨e, [], ⟨0, []⟩, []⟩ b.files with
      | mk ok s =>
        rw [hfiles] at hfirst
        cases ok with
        | false => cases hfirst
        | true => exact ⟨s, rfl, by simp⟩
    obtain ⟨s, hfiles, hafter⟩ := hbundle
    obtain ⟨hsettled, hvetoed₁⟩ := settled_applyFiles hok hplan b.files
      (s := ⟨e, [], ⟨0, []⟩, []⟩) hs hsub₁ (List.Nodup.of_append_left hnodup) hfiles
    have hfinish : Settled h e₀ (done ++ b.files) [] (e.applyBundle h b).2 := by
      refine hsettled.finish hok hsub₁ hplan ?_ ?_ ?_ ?_
      · rw [hafter, scheduleUnsuppress_nodeId]
        exact flushLedger_nodeId h _
      · rw [hafter, ledger_scheduleUnsuppress]
        exact ledger_flushLedger h _
      · rw [hafter, scheduleUnsuppress_manifest]
        exact flushLedger_manifest h _
      · rw [hafter, scheduleUnsuppress_tree]
    obtain ⟨hall, hvetoed₂⟩ := ih hfinish hsub hnodup hrest
    refine ⟨hall, fun fd => ?_⟩
    rw [vetoed, List.mem_append, hvetoed₁, hvetoed₂, List.flatMap_cons, List.mem_append,
      or_and_right]

/-! ## Two orders -/

namespace Settled

variable {e e' : SyncEngine}

theorem start (h : Host) (e : SyncEngine) : Settled h e [] [] e where
  nodeId := rfl
  stamps_at := fun fd hfd => by cases hfd
  stamps_off := fun _ _ => ⟨rfl, rfl⟩
  keys_at := fun fd hfd => by cases hfd
  keys_off := fun _ _ => rfl
  file_at := fun fd hfd => by cases hfd
  dir_at := fun fd hfd => by cases hfd
  copy_at := fun fd hfd => by cases hfd
  made := by
    rintro q - - ⟨-, fd, hfd, -⟩
    cases hfd
  kept := fun _ _ _ => rfl
  pending_of := fun x hx => by cases hx

/-- Only the set of the entries matters. -/
theorem congr {done' : List FileData} (hs : Settled h e₀ done [] e)
    (hmem : ∀ x, x ∈ done ↔ x ∈ done') : Settled h e₀ done' [] e := by
  have hunwritten : ∀ q, Unwritten h e₀ done' q ↔ Unwritten h e₀ done q := by
    intro q
    simp only [Unwritten, hmem]
  have hneeded : ∀ q, Needed e₀ done' q ↔ Needed e₀ done q := by
    intro q
    simp only [Needed, hmem]
  exact {
    nodeId := hs.nodeId
    stamps_at := fun fd hfd => hs.stamps_at fd ((hmem fd).mpr hfd)
    stamps_off := fun q hq => hs.stamps_off q fun fd hfd => hq fd ((hmem fd).mp hfd)
    keys_at := fun fd hfd => hs.keys_at fd ((hmem fd).mpr hfd)
    keys_off := fun q hq => hs.keys_off q fun fd hfd => hq fd ((hmem fd).mp hfd)
    file_at := fun fd hfd => hs.file_at fd ((hmem fd).mpr hfd)
    dir_at := fun fd hfd => hs.dir_at fd ((hmem fd).mpr hfd)
    copy_at := fun fd hfd => hs.copy_at fd ((hmem fd).mpr hfd)
    made := fun q hq hnone hneed => hs.made q ((hunwritten q).mp hq) hnone ((hneeded q).mp hneed)
    kept := fun q hq hcase => hs.kept q ((hunwritten q).mp hq)
      (hcase.imp_right fun hno => mt (hneeded q).mpr hno)
    pending_of := fun x hx => by cases hx }

theorem ledger_eq (hs : Settled h e₀ done [] e) (hs' : Settled h e₀ done [] e') :
    e.ledger = e'.ledger := by
  have hstamps : ∀ q, SameStamps q e.ledger e'.ledger := by
    intro q
    by_cases hq : ∀ fd ∈ done, e₀.Admitted fd → fd.metadata.relPath ≠ q
    · obtain ⟨halive, hentries⟩ := hs.stamps_off q hq
      obtain ⟨halive', hentries'⟩ := hs'.stamps_off q hq
      exact ⟨halive.trans halive'.symm, hentries.trans hentries'.symm⟩
    · push Not at hq
      obtain ⟨fd, hfd, hadm, rfl⟩ := hq
      obtain ⟨halive, hentries⟩ := hs.stamps_at fd hfd hadm
      obtain ⟨halive', hentries'⟩ := hs'.stamps_at fd hfd hadm
      exact ⟨halive.trans halive'.symm, hentries.trans hentries'.symm⟩
  have hentries : e.ledger.entries = e'.ledger.entries := FinMap.ext_get fun q => (hstamps q).2
  have halive : e.ledger.alive = e'.ledger.alive := FinMap.ext_get fun q => (hstamps q).1
  cases hl : e.ledger
  cases hl' : e'.ledger
  rw [hl, hl'] at hentries halive
  simp only at hentries halive
  rw [hentries, halive]

theorem files_eq (hs : Settled h e₀ done [] e) (hs' : Settled h e₀ done [] e') :
    e.manifest.files = e'.manifest.files := by
  refine FinMap.ext_get fun q => ?_
  by_cases hq : ∀ fd ∈ done, e₀.Admitted fd → fd.metadata.relPath ≠ q
  · rw [hs.keys_off q hq, hs'.keys_off q hq]
  · push Not at hq
    obtain ⟨fd, hfd, hadm, rfl⟩ := hq
    rw [hs.keys_at fd hfd hadm, hs'.keys_at fd hfd hadm]

theorem tree_eq (hs : Settled h e₀ done [] e) (hs' : Settled h e₀ done [] e') :
    e.tree = e'.tree := by
  refine FileTree.ext_get fun q => ?_
  by_cases hq : ∀ fd ∈ done, e₀.Admitted fd → fd.metadata.relPath ≠ q
  · by_cases hcopy : ∀ fd ∈ done, e₀.Conflicted h fd →
        e₀.tree.isDir (e₀.copyPath h fd) = false → e₀.copyPath h fd ≠ q
    · -- A place that nobody wrote to: a directory that was needed, or what was there.
      by_cases hmade : e₀.tree.get q = none ∧ Needed e₀ done q
      · rw [hs.made q ⟨hq, hcopy⟩ hmade.1 hmade.2, hs'.made q ⟨hq, hcopy⟩ hmade.1 hmade.2]
      · have hcase : e₀.tree.get q ≠ none ∨ ¬Needed e₀ done q := by
          rw [← not_and_or]
          exact hmade
        rw [hs.kept q ⟨hq, hcopy⟩ hcase, hs'.kept q ⟨hq, hcopy⟩ hcase]
    · push Not at hcopy
      obtain ⟨fd, hfd, hc, hnot, rfl⟩ := hcopy
      rw [hs.copy_at fd hfd hc hnot, hs'.copy_at fd hfd hc hnot]
  · push Not at hq
    obtain ⟨fd, hfd, hadm, rfl⟩ := hq
    cases hdir : fd.metadata.isDir with
    | false => rw [hs.file_at fd hfd hadm hdir, hs'.file_at fd hfd hadm hdir]
    | true =>
      by_cases hroot : fd.metadata.relPath = []
      · rw [hroot, FileTree.get_nil, FileTree.get_nil]
      · obtain ⟨m, hm, hset⟩ := hs.dir_at fd hfd hadm hdir hroot
        obtain ⟨m', hm', hset'⟩ := hs'.dir_at fd hfd hadm hdir hroot
        rw [hm, hm', hset.resolve_left (by simp), hset'.resolve_left (by simp)]

end Settled

/-- The outcome of two deliveries is the same. -/
structure SameOutcome (h : Host) (e : SyncEngine) (bs bs' : List FileBundle) : Prop where
  vetoed : ∀ fd, fd ∈ e.vetoed h bs ↔ fd ∈ e.vetoed h bs'
  tree : (e.deliver h bs).tree = (e.deliver h bs').tree
  manifest : (e.deliver h bs).manifest.files = (e.deliver h bs').manifest.files
  ledger : (e.deliver h bs).ledger = (e.deliver h bs').ledger

/-- An engine that knows that `d` was deleted at 50. -/
def deletedDir : SyncEngine :=
  new "node" (fun _ => false) .empty
    (DeletionLedger.new.record (PathBuf.ofNames ["d"]) 50 "node" none none)

/-- A live action that created `d` again at 100. -/
def dirEntry : FileData :=
  ⟨⟨PathBuf.ofNames ["d"], 0, 0, 100, 0, true⟩, [], some 100⟩

/-- A file in it, in catch-up with its old mtime. -/
def fileEntry : FileData :=
  ⟨⟨PathBuf.ofNames ["d", "f"], 1, 0, 10, 0, false⟩, [1], none⟩

/-- Where no entry has a tombstone at its own path, none can be lifted. -/
theorem steady_of_no_tombstones {e : SyncEngine}
    (hnone : ∀ fd ∈ fds, e.ledger.entries.get fd.metadata.relPath = none) : e.Steady fds := by
  intro fd hfd l halive hentries
  have hsame : ∀ q, l.entries.get q = e.ledger.entries.get q := by
    intro q
    rcases hentries q with heq | ⟨hgone, -, fd', hfd', rfl, -⟩
    · exact heq
    · rw [hgone, hnone fd' hfd']
  have heffective : l.effectiveTombstone fd.metadata.relPath =
      e.ledger.effectiveTombstone fd.metadata.relPath := by
    funext q
    unfold DeletionLedger.effectiveTombstone
    rw [hsame, halive]
  unfold vetoFor DeletionLedger.coveringTombstone
  rw [heffective]

end SyncEngine

end ByteHive
