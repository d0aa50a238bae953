import ByteHive.Spec.LedgerOrder

/-!
# Deletes stay in force over whole runs

A directory delete leaves one tombstone at the top path. It holds back catch-up
writes below that path until a live action at least as new is on record for the
path itself or for the written path.

Key results:
- `ledger_le_runOps`: no operation of a run takes the ledger down.
- `catchUp_vetoed_after_applyDeletes`: what a delete holds back, in every later state.
-/

namespace ByteHive

namespace SyncEngine

/-- The operations that peers and users can bring about on an engine. -/
inductive EngineOp where
  | bundle (b : FileBundle)
  | largeFileStart (metadata : FileMetadata) (totalChunks : UInt32) (actionMs : Option Nat)
  | largeFileChunk (path : PathBuf) (chunkIndex : UInt32) (data : Content)
  | largeFileEnd (path : PathBuf) (finalHash : Hash)
  | largeFileCommit (path : PathBuf) (finalHash : Hash)
  | rename (source target : PathBuf) (actionMs : Nat) (deleter : String)
  | deletes (paths : List PathBuf) (deletedAtMs : Nat) (deleter : String)
  | mergeLedger (dtos : List TombstoneDto)
  | recordLiveActions (actions : List (PathBuf × Nat))

/-- One operation, on a host of its own. -/
def runOp (e : SyncEngine) : Host × EngineOp → SyncEngine
  | (h, .bundle b) => (e.applyBundle h b).2
  | (h, .largeFileStart md n a) => (e.beginLargeFileWithAction h md n a).2
  | (h, .largeFileChunk p i data) => (e.receiveLargeFileChunk h p i data).2
  | (h, .largeFileEnd p fh) => (e.finishLargeFile h p fh).2
  | (h, .largeFileCommit p fh) => (e.commitLargeFile h p fh).2
  | (h, .rename f g a d) => (e.applyRenameAt h f g a d).2
  | (h, .deletes ps t d) => (e.applyDeletes h ps t d).2
  | (h, .mergeLedger dtos) => (e.mergeLedger h dtos).2
  | (h, .recordLiveActions actions) => e.recordLiveActions h actions

/-- A run of operations. -/
def runOps (e : SyncEngine) (ops : List (Host × EngineOp)) : SyncEngine := ops.foldl runOp e

/-- One operation never takes the ledger down. -/
theorem ledger_le_runOp (e : SyncEngine) (op : Host × EngineOp) :
    e.ledger ≤ (e.runOp op).ledger := by
  have hcalled : DeletionLedger.Called (fun _ => True) e.ledger (e.runOp op).ledger := by
    obtain ⟨h, op⟩ := op
    cases op with
    | bundle b => exact called_applyBundle h e fun _ _ _ => trivial
    | largeFileStart md n a => exact called_beginLargeFileWithAction h e n fun _ => trivial
    | largeFileChunk p i data =>
      simpa [runOp] using DeletionLedger.Called.refl (S := fun _ => True) e.ledger
    | largeFileEnd p fh => exact called_finishLargeFile h e fh fun _ _ _ => trivial
    | largeFileCommit p fh => exact called_commitLargeFile h e fh fun _ _ _ => trivial
    | rename f g a d => exact called_applyRenameAt h e f trivial fun _ _ => trivial
    | deletes ps t d => exact called_applyDeletes h e ps fun _ _ _ _ => trivial
    | mergeLedger dtos => exact called_mergeLedger h e (fun _ _ => trivial) trivial
    | recordLiveActions actions => exact called_recordLiveActions h e fun _ _ => trivial
  exact hcalled.le

/-- A run never takes the ledger down. -/
theorem ledger_le_runOps (e : SyncEngine) (ops : List (Host × EngineOp)) :
    e.ledger ≤ (e.runOps ops).ledger := by
  induction ops generalizing e with
  | nil => exact le_rfl
  | cons op ops ih => exact (ledger_le_runOp e op).trans (ih _)

/-! ## Vetoed catch-up writes -/

/-- Every way a catch-up write of `q` with mtime `m` can reach the disk is closed:
    a bundle skips it, a large-file start opens no assembly, and the commit of an
    assembly that is already open leaves the files alone. -/
structure CatchUpVetoed (e : SyncEngine) (q : PathBuf) (m : Nat) : Prop where
  bundle : ∀ (h : Host) (s : BundleRun) (fd : FileData), s.engine = e →
    fd.metadata.relPath = q → fd.metadata.modifiedMs = m → fd.actionMs = none →
    applyFile h s fd = (true, s)
  start : ∀ (h : Host) (md : FileMetadata) (n : UInt32), md.relPath = q → md.modifiedMs = m →
    e.beginLargeFileWithAction h md n none = (true, e)
  commit : ∀ (h : Host) (asm : LargeFileAssembly) (fh : Hash), e.inProgress.get q = some asm →
    asm.modifiedMs = m → asm.actionMs = none → (e.commitLargeFile h q fh).2.tree = e.tree

/-- The veto of the admission check is what closes them all. -/
theorem catchUpVetoed_of_vetoFor {e : SyncEngine} {q : PathBuf} {m : Nat}
    (hv : (e.vetoFor q none m).isSome = true) : e.CatchUpVetoed q m where
  bundle := by
    rintro h s fd rfl rfl rfl ha
    simp [applyFile, ha, hv]
  start := by
    rintro h md n rfl rfl
    simp [beginLargeFileWithAction, hv]
  commit := by
    rintro h asm fh hasm rfl ha
    have hv' : (({ e with inProgress := e.inProgress.erase q } : SyncEngine).vetoFor q none
        asm.modifiedMs).isSome = true := hv
    simp [commitLargeFile, hasm, ha, hv']

/-- The veto, in terms of the ledger: the path above knows an action stamped `t` but
    no live one that new, nor does the written path, and every nearer tombstone that
    applies is newer than the write. -/
theorem vetoFor_of_lastStamp {e : SyncEngine} {p q : PathBuf} {t m : Nat} (hp : p ≠ [])
    (hpq : p <+: q) (hm : m < t) (ht : t ≤ e.ledger.lastStamp p)
    (hap : e.ledger.aliveSince p < t) (haq : e.ledger.aliveSince q < t)
    (hnear : ∀ r tomb, p <+: r → r ≠ p → r <+: q →
      e.ledger.effectiveTombstone q r = some tomb → m < tomb.deletedAtMs) :
    (e.vetoFor q none m).isSome = true := by
  obtain ⟨tomb, htomb, hstamp⟩ := DeletionLedger.exists_tombstone_of_lastStamp ht hap
  have heff : e.ledger.effectiveTombstone q p = some tomb := by
    rw [DeletionLedger.effectiveTombstone, htomb, Option.filter_some]
    cases ha : e.ledger.alive.get q with
    | none => rfl
    | some a =>
      have : a < t := by simpa [DeletionLedger.aliveSince, ha] using haq
      simp
      omega
  obtain ⟨r, tomb', hcover, heff', hpr, hrq⟩ :=
    DeletionLedger.coveringTombstone_of_effective hp hpq heff
  have hnewer : m < tomb'.deletedAtMs := by
    by_cases hr : r = p
    · subst hr
      obtain rfl : tomb = tomb' := Option.some.inj (heff.symm.trans heff')
      omega
    · exact hnear r tomb' hpr hr hrq heff'
  simp [vetoFor, hcover, Option.filter_some, hnewer]

/-- Once `apply_deletes` has run for `p`, a catch-up write at or below `p` that is
    older than the delete is vetoed in every later state, at every point of a bundle,
    unless a live action as new as the delete is on record for the written path or for
    `p`, or a nearer tombstone no newer than the write applies. -/
theorem catchUp_vetoed_after_applyDeletes (h₀ : Host) (e : SyncEngine) (p : PathBuf) (t : Nat)
    (deleter : String) (ops : List (Host × EngineOp)) (h : Host) (before : List FileData)
    (q : PathBuf) (m : Nat) (hp : safeRelative p = true) (hne : p ≠ []) (hpq : p <+: q)
    (hm : m < t) :
    let e' := (e.applyDeletes h₀ [p] t deleter).2.runOps ops
    let now := (applyFiles h ⟨e', [], ⟨0, []⟩, []⟩ before).2.engine
    now.ledger.aliveSince q < t → now.ledger.aliveSince p < t →
    (∀ r tomb, p <+: r → r ≠ p → r <+: q →
      now.ledger.effectiveTombstone q r = some tomb → m < tomb.deletedAtMs) →
    now.CatchUpVetoed q m := by
  intro e' now haq hap hnear
  -- The delete leaves its stamp on record, and the record only grows.
  have hstamp := lastStamp_applyDeletes h₀ e t deleter hp
  have hrun : (e.applyDeletes h₀ [p] t deleter).2.ledger ≤ now.ledger :=
    (ledger_le_runOps _ ops).trans (called_applyFiles (S := fun _ => True) h ⟨e', [], ⟨0, []⟩, []⟩ fun _ _ _ => trivial).le
  have hlast : t ≤ now.ledger.lastStamp p := hstamp.trans (DeletionLedger.le_iff.mp hrun p).2
  exact catchUpVetoed_of_vetoFor (vetoFor_of_lastStamp hne hpq hm hlast hap haq hnear)

/-- A delete of `d` at 100 with nothing after it holds back `d/x` with mtime 50. -/
theorem catchUp_vetoed_below_deleted_dir :
    ((new "server" (fun _ => false) .empty .new).applyDeletes (.reliable (fun _ => 0) 1000)
      [PathBuf.ofNames ["d"]] 100 "client").2.CatchUpVetoed (PathBuf.ofNames ["d", "x"]) 50 :=
  catchUp_vetoed_after_applyDeletes (.reliable (fun _ => 0) 1000)
    (new "server" (fun _ => false) .empty .new) (PathBuf.ofNames ["d"]) 100 "client" []
    (.reliable (fun _ => 0) 1000) [] (PathBuf.ofNames ["d", "x"]) 50 (by decide) (by decide)
    (by decide) (by decide) (by decide) (by decide) (by
      -- The only path in between is `d/x` itself, and it has no tombstone.
      have hnone : ∀ r ∈ (PathBuf.ofNames ["d", "x"]).inits, PathBuf.ofNames ["d"] <+: r →
          r ≠ PathBuf.ofNames ["d"] →
          ((new "server" (fun _ => false) .empty .new).applyDeletes (.reliable (fun _ => 0) 1000)
            [PathBuf.ofNames ["d"]] 100 "client").2.ledger.effectiveTombstone
              (PathBuf.ofNames ["d", "x"]) r = none := by decide
      intro r tomb hpr hr hrq htomb
      exact nomatch (hnone r ((List.mem_inits r _).mpr hrq) hpr hr).symm.trans htomb)

/-- A live write of the directory itself lifts its tombstone, and with it the hold on
    everything below: after `d` is deleted at 100 and recreated at 200, `d/x` with
    mtime 50 is written, though no live action was ever recorded for it. -/
theorem catchUp_not_vetoed_after_live_directory :
    ¬ ∀ (h₀ : Host) (e : SyncEngine) (p : PathBuf) (t : Nat) (deleter : String)
        (ops : List (Host × EngineOp)) (q : PathBuf) (m : Nat),
      safeRelative p = true → p ≠ [] → p <+: q → q ≠ p → m < t →
      ((e.applyDeletes h₀ [p] t deleter).2.runOps ops).ledger.aliveSince q < t →
      ((e.applyDeletes h₀ [p] t deleter).2.runOps ops).CatchUpVetoed q m := by
  intro hall
  let host : Host := .reliable (fun _ => 0) 1000
  let dir : FileData := ⟨⟨PathBuf.ofNames ["d"], 0, 0, 40, 0, true⟩, [], some 200⟩
  let file : FileData := ⟨⟨PathBuf.ofNames ["d", "x"], 0, 0, 50, 0, false⟩, [], none⟩
  have hveto := hall host (new "server" (fun _ => false) .empty .new) (PathBuf.ofNames ["d"]) 100
    "client" [(host, .bundle ⟨[dir], 0⟩)] (PathBuf.ofNames ["d", "x"]) 50 (by decide) (by decide)
    (by decide) (by decide) (by decide) (by decide)
  have hskip := hveto.bundle host ⟨_, [], ⟨0, []⟩, []⟩ file rfl rfl rfl rfl
  exact absurd (congrArg (fun r => r.2.result.written) hskip) (by decide)

end SyncEngine

end ByteHive
