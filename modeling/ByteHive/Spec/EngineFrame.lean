import ByteHive.Native.Engine

/-!
# Fields that an engine operation leaves alone

What the ledger and suppression operations do not touch: the files, the manifest and the
transfers in progress. All of them are simp lemmas. `PlainPaths` is what a tree keeps.
-/

namespace ByteHive

/-- Every path on disk is made of plain names. -/
def PlainPaths (t : Tree) : Prop := ∀ p n, t.get p = some n → safeRelative p = true

/-- The manifest has an entry at `k`. -/
def Manifest.Lists (m : Manifest) (k : PathBuf) : Prop := (m.files.get k).isSome = true

instance (m : Manifest) (k : PathBuf) : Decidable (m.Lists k) := inferInstanceAs (Decidable (_ = _))

namespace SyncEngine

@[simp] theorem scheduleUnsuppress_tree (e : SyncEngine) (ps : List PathBuf) :
    (e.scheduleUnsuppress ps).tree = e.tree := by
  unfold scheduleUnsuppress
  split <;> rfl

@[simp] theorem scheduleUnsuppress_inProgress (e : SyncEngine) (ps : List PathBuf) :
    (e.scheduleUnsuppress ps).inProgress = e.inProgress := by
  unfold scheduleUnsuppress
  split <;> rfl

@[simp] theorem flushLedger_inProgress (h : Host) (e : SyncEngine) :
    (e.flushLedger h).inProgress = e.inProgress := by
  unfold flushLedger
  split <;> rfl

@[simp] theorem admitRecord_inProgress (e : SyncEngine) (p : PathBuf) (a : Option Nat) (m : Nat) :
    (e.admitRecord p a m).inProgress = e.inProgress := by
  unfold admitRecord
  split
  · split <;> rfl
  · split
    · split <;> rfl
    · rfl

@[simp] theorem flushLedger_tree (h : Host) (e : SyncEngine) : (e.flushLedger h).tree = e.tree := by
  unfold flushLedger
  split <;> rfl

@[simp] theorem flushLedger_manifest (h : Host) (e : SyncEngine) :
    (e.flushLedger h).manifest = e.manifest := by
  unfold flushLedger
  split <;> rfl

@[simp] theorem scheduleUnsuppress_manifest (e : SyncEngine) (ps : List PathBuf) :
    (e.scheduleUnsuppress ps).manifest = e.manifest := by
  unfold scheduleUnsuppress
  split <;> rfl

@[simp] theorem admitRecord_tree (e : SyncEngine) (p : PathBuf) (a : Option Nat) (m : Nat) :
    (e.admitRecord p a m).tree = e.tree := by
  unfold admitRecord
  split
  · split <;> rfl
  · split
    · split <;> rfl
    · rfl

@[simp] theorem admitRecord_manifest (e : SyncEngine) (p : PathBuf) (a : Option Nat) (m : Nat) :
    (e.admitRecord p a m).manifest = e.manifest := by
  unfold admitRecord
  split
  · split <;> rfl
  · split
    · split <;> rfl
    · rfl

@[simp] theorem scheduleUnsuppress_staging (e : SyncEngine) (ps : List PathBuf) :
    (e.scheduleUnsuppress ps).staging = e.staging := by
  unfold scheduleUnsuppress
  split <;> rfl

@[simp] theorem flushLedger_staging (h : Host) (e : SyncEngine) :
    (e.flushLedger h).staging = e.staging := by
  unfold flushLedger
  split <;> rfl

@[simp] theorem admitRecord_staging (e : SyncEngine) (p : PathBuf) (a : Option Nat) (m : Nat) :
    (e.admitRecord p a m).staging = e.staging := by
  unfold admitRecord
  split
  · split <;> rfl
  · split
    · split <;> rfl
    · rfl

@[simp] theorem scheduleUnsuppress_nodeId (e : SyncEngine) (ps : List PathBuf) :
    (e.scheduleUnsuppress ps).nodeId = e.nodeId := by
  unfold scheduleUnsuppress
  split <;> rfl

@[simp] theorem flushLedger_nodeId (h : Host) (e : SyncEngine) :
    (e.flushLedger h).nodeId = e.nodeId := by
  unfold flushLedger
  split <;> rfl

@[simp] theorem admitRecord_nodeId (e : SyncEngine) (p : PathBuf) (a : Option Nat) (m : Nat) :
    (e.admitRecord p a m).nodeId = e.nodeId := by
  unfold admitRecord
  split
  · split <;> rfl
  · split
    · split <;> rfl
    · rfl

/-- An admission changes the ledger and its dirty flag only. -/
theorem exists_admitRecord (e : SyncEngine) (p : PathBuf) (a : Option Nat) (m : Nat) :
    ∃ dirty, e.admitRecord p a m =
      { e with ledger := (e.admitRecord p a m).ledger, ledgerDirty := dirty } := by
  unfold admitRecord
  split
  · split <;> exact ⟨_, rfl⟩
  · split
    · split <;> exact ⟨_, rfl⟩
    · exact ⟨_, rfl⟩

/-- An admission that is saved at once changes the ledger fields only. -/
theorem exists_admitted (h : Host) (e : SyncEngine) (p : PathBuf) (a : Option Nat) (m : Nat) :
    ∃ dirty file, (e.admitRecord p a m).flushLedger h =
      { e with
        ledger := (e.admitRecord p a m).ledger
        ledgerDirty := dirty
        ledgerFile := file } := by
  obtain ⟨dirty, hadm⟩ := exists_admitRecord e p a m
  generalize (e.admitRecord p a m).ledger = l at hadm ⊢
  rw [hadm]
  unfold flushLedger
  split <;> exact ⟨_, _, rfl⟩

@[simp] theorem scheduleUnsuppressDeletes_tree (e : SyncEngine) (ps : List PathBuf) :
    (e.scheduleUnsuppressDeletes ps).tree = e.tree := by
  unfold scheduleUnsuppressDeletes
  split <;> rfl

@[simp] theorem scheduleUnsuppressDeletes_manifest (e : SyncEngine) (ps : List PathBuf) :
    (e.scheduleUnsuppressDeletes ps).manifest = e.manifest := by
  unfold scheduleUnsuppressDeletes
  split <;> rfl

end SyncEngine

end ByteHive
