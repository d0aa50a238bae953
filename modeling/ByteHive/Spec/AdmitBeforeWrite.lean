import ByteHive.Spec.BundleOrder
import ByteHive.Spec.LargeFileCommit

/-!
# Admitted and not written

Every incoming write is put on record before a byte of it reaches the disk: the live record of its
path is raised and a tombstone there is lifted. What happens afterwards, an error, a transfer that
stops or a rename without its source, takes nothing back. So the stamps of a path that is not
written stay as they were exactly when the admission had nothing to record.

## Key results

- `sameStamps_admit_iff`: what an admission changes, once it has passed the veto
- `stamps_kept_iff`: the stamps of a path throughout a run that does not write it
- `rename_lifts_unwritten`: a rename without its source lifts a tombstone
-/

namespace ByteHive

/-! ## One admission -/

theorem SameStamps.congr_right {p : PathBuf} {l l' : DeletionLedger} (h : SameStamps p l l')
    (l'' : DeletionLedger) : SameStamps p l'' l' ↔ SameStamps p l'' l := by
  unfold SameStamps
  rw [h.1, h.2]

namespace DeletionLedger

/-- A delete of `p` stamped `t` tells the ledger nothing new. -/
def Known (l : DeletionLedger) (p : PathBuf) (t : Nat) : Prop :=
  l.isSuperseded p t = true ∨ ∃ tomb, l.entries.get p = some tomb ∧ t ≤ tomb.deletedAtMs

theorem sameStamps_recordAlive_iff {l : DeletionLedger} {p : PathBuf} {w : Nat} (hw : 0 < w) :
    SameStamps p (l.recordAlive p w).2 l ↔ ¬ l.aliveRecordNeeded p w = true := by
  have halive : (l.recordAlive p w).2.alive.get p = l.alive.get p ↔ ¬ l.aliveSince p < w := by
    rw [get_alive_recordAlive]
    unfold aliveSince
    cases l.alive.get p with
    | none => simp [hw]
    | some v => simp; omega
  have hentries : (l.recordAlive p w).2.entries.get p = l.entries.get p ↔
      ¬ ∃ t, l.entries.get p = some t ∧ t.deletedAtMs ≤ w := by
    rw [get_entries_recordAlive, if_pos ⟨rfl, hw⟩]
    cases l.entries.get p with
    | none => simp
    | some t => simp [Option.filter_eq_some_iff]
  have hneeded : l.aliveRecordNeeded p w = true ↔
      l.aliveSince p < w ∨ ∃ t, l.entries.get p = some t ∧ t.deletedAtMs ≤ w := by
    unfold aliveRecordNeeded
    cases l.entries.get p with
    | none => simp [hw]
    | some t => simp [hw]
  rw [SameStamps, halive, hentries, hneeded, not_or]

theorem sameStamps_record_iff (l : DeletionLedger) (p : PathBuf) (t : Nat) (d : String)
    (ph : Option String) (pm : Option Nat) :
    SameStamps p (l.record p t d ph pm) l ↔ l.Known p t := by
  unfold SameStamps Known
  rw [record_alive, get_record, if_pos rfl]
  simp only [true_and, offered]
  by_cases hsup : l.isSuperseded p t = true
  · simp [hsup]
  · simp only [hsup, Bool.false_eq_true, if_false, false_or]
    cases l.entries.get p with
    | none => simp
    | some existing =>
      simp only [ge_iff_le, Option.some.injEq, exists_eq_left']
      by_cases hle : t ≤ existing.deletedAtMs
      · simp [hle]
      · rw [if_neg hle]
        have hne : (⟨p, t, d, ph, pm⟩ : Tombstone) ≠ existing := by
          rintro rfl
          exact hle (Nat.le_refl t)
        simp [hne, hle]

end DeletionLedger

namespace SyncEngine

/-- The ledger after a write has come to the admission. -/
def admitted (e : SyncEngine) (rel : PathBuf) (a : Option Nat) (m : Nat) : DeletionLedger :=
  if (e.vetoFor rel a m).isSome then e.ledger else (e.admitRecord rel a m).ledger

/-- The admission has nothing to record: the write is vetoed, or known already. -/
def Idle (e : SyncEngine) (rel : PathBuf) (a : Option Nat) (m : Nat) : Prop :=
  (e.vetoFor rel a m).isSome = true ∨ ¬ e.ledger.Records rel a m

theorem sameStamps_admitRecord_iff {e : SyncEngine} {p : PathBuf} {a : Option Nat} {m : Nat} :
    SameStamps p (e.admitRecord p a m).ledger e.ledger ↔ ¬ e.ledger.Records p a m := by
  by_cases hrec : e.ledger.Records p a m
  · rw [ledger_admitRecord_of_records hrec,
      DeletionLedger.sameStamps_recordAlive_iff hrec.stamp_pos]
    simp only [hrec, not_true_eq_false, iff_false, not_not]
    cases a with
    | some w => exact hrec
    | none =>
      obtain ⟨t, ht, hlt⟩ := hrec
      have hpos : 0 < m := by omega
      simp [DeletionLedger.aliveRecordNeeded, ht, hpos, hlt.le]
  · rw [ledger_admitRecord_of_not_records hrec]
    exact iff_of_true ⟨rfl, rfl⟩ hrec

/-- An admission changes the stamps of its own path, and only when it has something to record. -/
theorem sameStamps_admit_iff {e : SyncEngine} {p rel : PathBuf} {a : Option Nat} {m : Nat} :
    SameStamps p (e.admitted rel a m) e.ledger ↔ (rel = p → e.Idle p a m) := by
  unfold admitted Idle
  by_cases hrel : rel = p
  · subst hrel
    simp only [true_implies]
    split
    · next hveto => exact iff_of_true ⟨rfl, rfl⟩ (.inl hveto)
    · next hveto => rw [sameStamps_admitRecord_iff, or_iff_right hveto]
  · refine iff_of_true ?_ fun heq => absurd heq hrel
    split
    · exact ⟨rfl, rfl⟩
    · exact stamps_admitRecord_of_ne (fun heq => hrel heq.symm) a m

theorem admit_congr {e e' : SyncEngine} (hl : e'.ledger = e.ledger) (rel : PathBuf) (a : Option Nat)
    (m : Nat) : e'.admitted rel a m = e.admitted rel a m := by
  unfold admitted
  rw [vetoFor_congr hl, ledger_admitRecord_congr hl, hl]

/-! ## The ledger after each message -/

theorem ledger_applyFile (h : Host) (s : BundleRun) (fd : FileData) :
    (applyFile h s fd).2.engine.ledger = if safeRelative fd.metadata.relPath then
      s.engine.admitted fd.metadata.relPath fd.actionMs fd.metadata.modifiedMs
    else s.engine.ledger := by
  unfold applyFile admitted
  dsimp only
  by_cases hsafe : safeRelative fd.metadata.relPath = true
  · simp only [hsafe, Bool.not_true, Bool.false_eq_true, if_false, if_true]
    split
    · rfl
    · split
      · rfl
      · next e ci hc =>
        have he : e.ledger = (s.engine.admitRecord fd.metadata.relPath fd.actionMs
            fd.metadata.modifiedMs).ledger := by
          split at hc
          · exact ledger_saveConflictCopy hc
          · simp only [Option.some.injEq, Prod.mk.injEq] at hc
            rw [← hc.1]
        split
        · exact he
        · exact he
  · simp [hsafe]

theorem ledger_applyBundle (h : Host) (e : SyncEngine) (b : FileBundle) :
    (e.applyBundle h b).2.ledger = (applyFiles h ⟨e, [], ⟨0, []⟩, []⟩ b.files).2.engine.ledger := by
  unfold applyBundle
  split
  · next s heq => rw [heq]
  · next s heq => simp [heq]

theorem ledger_beginLargeFile (h : Host) (e : SyncEngine) (md : FileMetadata) (n : UInt32)
    (a : Option Nat) :
    (e.beginLargeFileWithAction h md n a).2.ledger = if safeRelative md.relPath then
      e.admitted md.relPath a md.modifiedMs else e.ledger := by
  unfold beginLargeFileWithAction admitted
  dsimp only
  by_cases hsafe : safeRelative md.relPath = true
  · simp only [hsafe, Bool.not_true, Bool.false_eq_true, if_false, if_true]
    split
    · rfl
    · split
      · simp
      · split
        · simp
        · split <;> simp
  · simp [hsafe]

theorem ledger_commitLargeFile (h : Host) {e : SyncEngine} {p : PathBuf} (x : Hash)
    {asm : LargeFileAssembly} (hasm : e.inProgress.get p = some asm) :
    (e.commitLargeFile h p x).2.ledger = e.admitted p asm.actionMs asm.modifiedMs := by
  -- The assembly is taken out first, which the admission does not look at.
  have herase : ({ e with inProgress := e.inProgress.erase p } : SyncEngine).ledger = e.ledger :=
    rfl
  rw [← admit_congr herase]
  unfold commitLargeFile admitted
  simp only [hasm]
  split
  · rfl
  · split
    · simp
    · split
      · simp
      · split <;> simp

theorem ledger_applyRenameAt_vetoed {h : Host} {e : SyncEngine} {f g : PathBuf} {w : Nat}
    {peer : String} (hf : safeRelative f = true) (hg : safeRelative g = true)
    (hveto : (e.vetoFor g (some w) 0).isSome = true) :
    (e.applyRenameAt h f g w peer).2.ledger =
      e.ledger.record f w peer (e.prevInfo f).1 (e.prevInfo f).2 := by
  unfold applyRenameAt
  simp only [hf, hg, hveto, Bool.not_true, Bool.or_self, Bool.false_eq_true, if_false, if_true]
  exact ledger_applyDeletes_one h e w peer hf

theorem ledger_applyRenameAt_admitted {h : Host} {e : SyncEngine} {f g : PathBuf} {w : Nat}
    {peer : String} (hf : safeRelative f = true) (hg : safeRelative g = true)
    (hveto : ¬ (e.vetoFor g (some w) 0).isSome = true) :
    (e.applyRenameAt h f g w peer).2.ledger = e.admitted g (some w) 0 := by
  unfold applyRenameAt admitted
  simp only [hf, hg, hveto, Bool.not_true, Bool.or_self, Bool.false_eq_true, if_false]
  split
  · simp
  · simp

/-! ## Messages -/

/-- The messages that bring a write. -/
inductive WriteMessage where
  | bundle (b : FileBundle)
  | largeFileStart (metadata : FileMetadata) (totalChunks : UInt32) (actionMs : Option Nat)
  | largeFileChunk (path : PathBuf) (chunkIndex : UInt32) (data : Content)
  | largeFileEnd (path : PathBuf) (finalHash : Hash)
  | rename (source target : PathBuf) (actionMs : Nat) (peer : String)

/-- One message, handled on a host of its own. -/
def receive (e : SyncEngine) : Host × WriteMessage → SyncEngine
  | (h, .bundle b) => (e.handleRecvBundle h b).2
  | (h, .largeFileStart md n a) => (e.handleRecvLargeFileStart h md n a).2
  | (h, .largeFileChunk p i data) => (e.handleRecvLargeFileChunk h p i data).2
  | (h, .largeFileEnd p x) => (e.handleRecvLargeFileEnd h p x).2
  | (h, .rename f g a peer) => (e.handleRecvRename h f g a peer).2

/-- The same as a step, which is always possible. -/
def receiveStep (e : SyncEngine) (m : Host × WriteMessage) : Option SyncEngine := some (e.receive m)

/-- The loop over `files` from `s` comes to the entry `fd` in the state `s'`. -/
inductive ComesTo (h : Host) : BundleRun → List FileData → BundleRun → FileData → Prop where
  | here (s : BundleRun) (fd : FileData) (rest : List FileData) : ComesTo h s (fd :: rest) s fd
  | later {s s' s'' : BundleRun} {fd fd' : FileData} {rest : List FileData}
      (happly : applyFile h s fd = (true, s')) (hrest : ComesTo h s' rest s'' fd') :
      ComesTo h s (fd :: rest) s'' fd'

/-- The chunk completes a transfer whose end has come already. -/
def Completes (h : Host) (e : SyncEngine) (p : PathBuf) (i : UInt32) (asm : LargeFileAssembly) :
    Prop :=
  asm.finalHashPending.isSome = true ∧ (e.staging.get asm.tmp).isSome = true ∧
    h.fails (.writeStaging p) = false ∧
    ({ asm with received := insert i asm.received } : LargeFileAssembly).receivedCount =
      asm.totalChunks

/-- The message writes its destination `p`. -/
def Writes (p : PathBuf) (e : SyncEngine) : Host × WriteMessage → Prop
  | (h, .bundle b) => ∃ s fd, ComesTo h ⟨e, [], ⟨0, []⟩, []⟩ (clampBundle h b).files s fd ∧
      fd.metadata.relPath = p ∧ safeRelative p = true ∧
      s.engine.vetoFor p fd.actionMs fd.metadata.modifiedMs = none ∧ (applyFile h s fd).1 = true
  | (_, .largeFileStart _ _ _) => False
  | (h, .largeFileChunk path i data) => path = p ∧ ∃ asm, e.inProgress.get p = some asm ∧
      Completes h e p i asm ∧ e.vetoFor p asm.actionMs asm.modifiedMs = none ∧
      (e.handleRecvLargeFileChunk h p i data).1 = true
  | (h, .largeFileEnd path x) => path = p ∧ ∃ asm, e.inProgress.get p = some asm ∧
      ¬ asm.receivedCount < asm.totalChunks ∧ e.vetoFor p asm.actionMs asm.modifiedMs = none ∧
      (e.handleRecvLargeFileEnd h p x).1.isSome = true
  | (h, .rename f g a _) => g = p ∧ safeRelative f = true ∧ safeRelative g = true ∧
      e.vetoFor g (some (clampFutureStamp h a)) 0 = none ∧ e.tree.pathExists f = true ∧
      ∃ t t', h.createDirAll e.tree g.dropLast = some t ∧ h.rename t f g = some t'

/-- The message has nothing to record at `p`. -/
def Harmless (p : PathBuf) (e : SyncEngine) : Host × WriteMessage → Prop
  | (h, .bundle b) => ∀ s fd, ComesTo h ⟨e, [], ⟨0, []⟩, []⟩ (clampBundle h b).files s fd →
      fd.metadata.relPath = p → safeRelative p = true →
      s.engine.Idle p fd.actionMs fd.metadata.modifiedMs
  | (h, .largeFileStart md _ a) => md.relPath = p → safeRelative p = true →
      e.Idle p (clampFutureStampOpt h a) md.modifiedMs
  | (h, .largeFileChunk path i _) => path = p → ∀ asm, e.inProgress.get p = some asm →
      Completes h e path i asm → e.Idle p asm.actionMs asm.modifiedMs
  | (_, .largeFileEnd path _) => path = p → ∀ asm, e.inProgress.get p = some asm →
      ¬ asm.receivedCount < asm.totalChunks → e.Idle p asm.actionMs asm.modifiedMs
  | (h, .rename f g a _) => safeRelative f = true → safeRelative g = true →
      if (e.vetoFor g (some (clampFutureStamp h a)) 0).isSome then
        f = p → e.ledger.Known p (clampFutureStamp h a)
      else g = p → e.Idle p (some (clampFutureStamp h a)) 0

variable {h : Host} {e : SyncEngine} {p : PathBuf}

/-- The admission behind the check of the path. -/
theorem sameStamps_admit_safe_iff {rel : PathBuf} {a : Option Nat} {m : Nat} :
    SameStamps p (if safeRelative rel then e.admitted rel a m else e.ledger) e.ledger ↔
      (rel = p → safeRelative p = true → e.Idle p a m) := by
  by_cases hsafe : safeRelative rel = true
  · rw [if_pos hsafe, sameStamps_admit_iff]
    constructor
    · intro hidle hpath _
      exact hidle hpath
    · intro hidle hpath
      exact hidle hpath (hpath ▸ hsafe)
  · rw [if_neg hsafe]
    exact iff_of_true ⟨rfl, rfl⟩ fun hpath hp => absurd (hpath ▸ hp) hsafe

/-- A list of entries of which none writes `p`. -/
theorem sameStamps_applyFiles_iff {files : List FileData} {s : BundleRun}
    (hunwritten : ∀ s' fd, ComesTo h s files s' fd → fd.metadata.relPath = p →
      safeRelative p = true → s'.engine.vetoFor p fd.actionMs fd.metadata.modifiedMs = none →
      (applyFile h s' fd).1 = false) :
    SameStamps p (applyFiles h s files).2.engine.ledger s.engine.ledger ↔
      ∀ s' fd, ComesTo h s files s' fd → fd.metadata.relPath = p → safeRelative p = true →
        s'.engine.Idle p fd.actionMs fd.metadata.modifiedMs := by
  induction files generalizing s with
  | nil =>
    refine iff_of_true ⟨rfl, rfl⟩ ?_
    intro s' fd hcomes
    cases hcomes
  | cons fd rest ih =>
    have hhere : SameStamps p (applyFile h s fd).2.engine.ledger s.engine.ledger ↔
        (fd.metadata.relPath = p → safeRelative p = true →
          s.engine.Idle p fd.actionMs fd.metadata.modifiedMs) := by
      rw [ledger_applyFile, sameStamps_admit_safe_iff]
    unfold applyFiles
    cases happly : applyFile h s fd with
    | mk ok s' =>
      rw [happly] at hhere
      cases ok with
      | false =>
        -- The bundle ends with an error here: nobody is reached after this entry.
        show SameStamps p s'.engine.ledger s.engine.ledger ↔ _
        rw [hhere]
        constructor
        · intro hidle s'' fd' hcomes
          cases hcomes with
          | here => exact hidle
          | later happly' _ =>
            rw [happly] at happly'
            cases happly'
        · intro hall
          exact hall s fd (.here s fd rest)
      | true =>
        -- This entry got through, so it was no write of `p` and left the stamps there alone.
        have hidle : fd.metadata.relPath = p → safeRelative p = true →
            s.engine.Idle p fd.actionMs fd.metadata.modifiedMs := by
          intro hpath hsafe
          by_contra hnot
          rw [Idle, not_or] at hnot
          have hfalse := hunwritten s fd (.here s fd rest) hpath hsafe (by simpa using hnot.1)
          rw [happly] at hfalse
          cases hfalse
        show SameStamps p (applyFiles h s' rest).2.engine.ledger s.engine.ledger ↔ _
        rw [(hhere.mpr hidle).congr_right,
          ih fun s'' fd' hcomes => hunwritten s'' fd' (.later happly hcomes)]
        constructor
        · intro hall s'' fd' hcomes
          cases hcomes with
          | here => exact hidle
          | later happly' hrest =>
            rw [happly] at happly'
            obtain rfl := (Prod.mk.inj happly').2
            exact hall s'' fd' hrest
        · intro hall s'' fd' hcomes
          exact hall s'' fd' (.later happly hcomes)

/-- A chunk that completes a transfer asks for the commit, and only such a chunk does. -/
theorem receiveLargeFileChunk_cases (i : UInt32) (data : Content) {asm : LargeFileAssembly}
    (hasm : e.inProgress.get p = some asm) :
    (Completes h e p i asm ∧ ∃ x s, asm.finalHashPending = some x ∧
      e.receiveLargeFileChunk h p i data = (some (.readyToCommit x), s) ∧
      s.inProgress.get p = some { asm with received := insert i asm.received }) ∨
    (¬ Completes h e p i asm ∧ ∀ x s,
      e.receiveLargeFileChunk h p i data ≠ (some (.readyToCommit x), s)) := by
  unfold receiveLargeFileChunk Completes
  simp only [hasm]
  cases hstaging : e.staging.get asm.tmp with
  | none => simp
  | some c =>
    cases hfails : h.fails (.writeStaging p) with
    | true => simp
    | false =>
      cases hpending : asm.finalHashPending with
      | none => simp
      | some x =>
        by_cases hall : UInt32.ofNat (insert i asm.received).card = asm.totalChunks
        · simp [LargeFileAssembly.receivedCount, hall]
        · simp [LargeFileAssembly.receivedCount, hall]

/-- A chunk reaches the ledger only by the commit that it completes. -/
theorem ledger_handleRecvLargeFileChunk (i : UInt32) (data : Content) {asm : LargeFileAssembly}
    (hasm : e.inProgress.get p = some asm) :
    (Completes h e p i asm →
      (e.handleRecvLargeFileChunk h p i data).2.ledger = e.admitted p asm.actionMs asm.modifiedMs) ∧
    (¬ Completes h e p i asm → (e.handleRecvLargeFileChunk h p i data).2.ledger = e.ledger) := by
  have hledger := ledger_receiveLargeFileChunk h e p i data
  obtain ⟨hc, x, s, -, hr, hget⟩ | ⟨hc, hr⟩ := receiveLargeFileChunk_cases (h := h) i data hasm
  · refine ⟨fun _ => ?_, fun hnot => absurd hc hnot⟩
    rw [hr] at hledger
    rw [← admit_congr hledger, handleRecvLargeFileChunk, hr, ← ledger_commitLargeFile h x hget]
    dsimp only
    cases s.commitLargeFile h p x with
    | mk o s' => cases o <;> rfl
  · refine ⟨fun hyes => absurd hyes hc, fun _ => ?_⟩
    rw [← hledger, handleRecvLargeFileChunk]
    split
    · next heq => rw [heq]
    · next heq => rw [heq]
    · next x s heq => exact absurd heq (hr x s)

/-- A message about the transfer of `rel` that comes to the commit when the assembly meets `T`. -/
theorem sameStamps_commit_iff {rel : PathBuf} {T : LargeFileAssembly → Prop} {l : DeletionLedger}
    (hnone : e.inProgress.get rel = none → l = e.ledger)
    (hyes : ∀ asm, e.inProgress.get rel = some asm → T asm →
      l = e.admitted rel asm.actionMs asm.modifiedMs)
    (hno : ∀ asm, e.inProgress.get rel = some asm → ¬ T asm → l = e.ledger) :
    SameStamps p l e.ledger ↔ (rel = p → ∀ asm, e.inProgress.get p = some asm → T asm →
      e.Idle p asm.actionMs asm.modifiedMs) := by
  cases hasm : e.inProgress.get rel with
  | none =>
    rw [hnone hasm]
    refine iff_of_true ⟨rfl, rfl⟩ ?_
    rintro rfl asm hget
    rw [hasm] at hget
    cases hget
  | some asm =>
    by_cases hT : T asm
    · rw [hyes asm hasm hT, sameStamps_admit_iff]
      constructor
      · rintro hidle rfl asm' hget _
        rw [hasm] at hget
        obtain rfl := Option.some.inj hget
        exact hidle rfl
      · rintro hidle rfl
        exact hidle rfl asm hasm hT
    · rw [hno asm hasm hT]
      refine iff_of_true ⟨rfl, rfl⟩ ?_
      rintro rfl asm' hget hT'
      rw [hasm] at hget
      obtain rfl := Option.some.inj hget
      exact absurd hT' hT

/-- One message that does not write `p`. -/
theorem sameStamps_receive_iff {m : Host × WriteMessage} (hunwritten : ¬ Writes p e m) :
    SameStamps p (e.receive m).ledger e.ledger ↔ Harmless p e m := by
  obtain ⟨h, m⟩ := m
  cases m with
  | bundle b =>
    show SameStamps p (e.applyBundle h (clampBundle h b)).2.ledger e.ledger ↔ _
    rw [ledger_applyBundle]
    refine sameStamps_applyFiles_iff (s := ⟨e, [], ⟨0, []⟩, []⟩) ?_
    intro s fd hcomes hpath hsafe hveto
    by_contra hok
    exact hunwritten ⟨s, fd, hcomes, hpath, hsafe, hveto, by simpa using hok⟩
  | largeFileStart md n a =>
    show SameStamps p (e.beginLargeFileWithAction h md n (clampFutureStampOpt h a)).2.ledger
      e.ledger ↔ (md.relPath = p → safeRelative p = true →
        e.Idle p (clampFutureStampOpt h a) md.modifiedMs)
    rw [ledger_beginLargeFile, sameStamps_admit_safe_iff]
  | largeFileChunk path i data =>
    show SameStamps p (e.handleRecvLargeFileChunk h path i data).2.ledger e.ledger ↔
      (path = p → ∀ asm, e.inProgress.get p = some asm → Completes h e path i asm →
        e.Idle p asm.actionMs asm.modifiedMs)
    refine sameStamps_commit_iff ?_ ?_ ?_
    · intro hasm
      simp [handleRecvLargeFileChunk, receiveLargeFileChunk, hasm]
    · intro asm hasm
      exact (ledger_handleRecvLargeFileChunk i data hasm).1
    · intro asm hasm
      exact (ledger_handleRecvLargeFileChunk i data hasm).2
  | largeFileEnd path x =>
    show SameStamps p (e.finishLargeFile h path x).2.ledger e.ledger ↔
      (path = p → ∀ asm, e.inProgress.get p = some asm →
        ¬ asm.receivedCount < asm.totalChunks → e.Idle p asm.actionMs asm.modifiedMs)
    refine sameStamps_commit_iff ?_ ?_ ?_
    · intro hasm
      simp [finishLargeFile, hasm]
    · intro asm hasm hall
      rw [← ledger_commitLargeFile h x hasm]
      simp only [finishLargeFile, hasm, if_neg hall]
    · intro asm hasm hsome
      simp only [finishLargeFile, hasm, if_pos (not_not.mp hsome)]
  | rename f g a peer =>
    show SameStamps p (e.applyRenameAt h f g (clampFutureStamp h a) peer).2.ledger e.ledger ↔
      (safeRelative f = true → safeRelative g = true →
        if (e.vetoFor g (some (clampFutureStamp h a)) 0).isSome then
          f = p → e.ledger.Known p (clampFutureStamp h a)
        else g = p → e.Idle p (some (clampFutureStamp h a)) 0)
    generalize clampFutureStamp h a = w
    by_cases hsafe : safeRelative f = true ∧ safeRelative g = true
    · simp only [hsafe, true_implies]
      by_cases hveto : (e.vetoFor g (some w) 0).isSome = true
      · -- The rename turns into a delete of its source.
        rw [if_pos hveto, ledger_applyRenameAt_vetoed hsafe.1 hsafe.2 hveto]
        by_cases hp : f = p
        · subst hp
          rw [DeletionLedger.sameStamps_record_iff]
          exact ⟨fun hknown _ => hknown, fun hknown => hknown rfl⟩
        · refine iff_of_true ⟨?_, ?_⟩ fun heq => absurd heq hp
          · rw [DeletionLedger.record_alive]
          · rw [DeletionLedger.get_record, if_neg fun heq => hp heq.symm]
      · rw [if_neg hveto, ledger_applyRenameAt_admitted hsafe.1 hsafe.2 hveto]
        exact sameStamps_admit_iff
    · have hsame : (e.applyRenameAt h f g w peer).2 = e := by
        unfold applyRenameAt
        rw [if_pos (by simpa [imp_iff_not_or] using hsafe)]
      rw [hsame]
      exact iff_of_true ⟨rfl, rfl⟩ fun hf hg => absurd ⟨hf, hg⟩ hsafe

/-- Throughout a run of messages that do not write `p`, its tombstones and live records stay as
    they were exactly if no message has anything to record there. -/
theorem stamps_kept_iff (p : PathBuf) (e : SyncEngine) (ms : List (Host × WriteMessage))
    (hunwritten : Run.StepsMeet receiveStep (fun e' m => ¬ Writes p e' m) e ms) :
    Run.Always receiveStep (fun e' => SameStamps p e'.ledger e.ledger) e ms ↔
      Run.StepsMeet receiveStep (Harmless p) e ms := by
  have hstep : ∀ s m, ∃ s', receiveStep s m = some s' := fun _ _ => ⟨_, rfl⟩
  obtain ⟨e', hrun⟩ := Run.exists_runFrom hstep e ms
  refine Run.always_iff_stepsMeet_given (I := fun _ => True)
    (fun _ _ _ _ _ _ _ _ => trivial) ?_ trivial ⟨rfl, rfl⟩ hunwritten hrun
  intro s m s' _ hm hsame hstep
  obtain rfl := Option.some.inj hstep
  rw [← sameStamps_receive_iff hm, hsame.congr_right]

/-! ### A rename without its source -/

/-- The file `g` was deleted, as its tombstone says. -/
def deletedTarget : SyncEngine :=
  new "peer" (fun _ => false) .empty
    (DeletionLedger.new.record (PathBuf.ofNames ["g"]) 50 "laptop" none none)

/-- A rename to `g` at 100 of a file that is not there. -/
def renameOfNothing : Host × WriteMessage :=
  (.reliable (fun _ => 0) 1000,
    .rename (PathBuf.ofNames ["f"]) (PathBuf.ofNames ["g"]) 100 "laptop")

private theorem not_writes_renameOfNothing {e : SyncEngine} (hempty : e.tree = .empty) :
    ¬ Writes (PathBuf.ofNames ["g"]) e renameOfNothing := by
  rintro ⟨-, -, -, -, hsource, -⟩
  rw [hempty] at hsource
  revert hsource
  decide +kernel

/-- The rename of a file that is not there lifts the tombstone of its target. -/
theorem rename_lifts_unwritten :
    ¬ ∀ (p : PathBuf) (e : SyncEngine) (m : Host × WriteMessage), ¬ Writes p e m →
      SameStamps p (e.receive m).ledger e.ledger := by
  intro hall
  have hsame := hall (PathBuf.ofNames ["g"]) deletedTarget renameOfNothing
    (not_writes_renameOfNothing rfl)
  have hentries := hsame.2
  revert hentries
  decide +kernel

/-- When the same message comes again, it has nothing to record. -/
theorem stamps_kept_second_time :
    Run.Always receiveStep
      (fun e => SameStamps (PathBuf.ofNames ["g"]) e.ledger
        (deletedTarget.receive renameOfNothing).ledger)
      (deletedTarget.receive renameOfNothing) [renameOfNothing] := by
  have hempty : (deletedTarget.receive renameOfNothing).tree = .empty := by rfl
  refine (stamps_kept_iff (PathBuf.ofNames ["g"]) (deletedTarget.receive renameOfNothing)
    [renameOfNothing] ?_).mpr ?_
  · rw [Run.stepsMeet_cons rfl]
    exact ⟨not_writes_renameOfNothing hempty, fun bs a s hpre => by simp at hpre⟩
  · rw [Run.stepsMeet_cons rfl]
    refine ⟨?_, fun bs a s hpre => by simp at hpre⟩
    intro _ _
    rw [if_neg (by decide +kernel)]
    intro _
    refine .inr ?_
    -- The live record of `g` is at 100 already, and no tombstone is left there.
    show ¬ (deletedTarget.receive renameOfNothing).ledger.aliveRecordNeeded
      (PathBuf.ofNames ["g"]) (clampFutureStamp (.reliable (fun _ => 0) 1000) 100) = true
    decide +kernel

end SyncEngine

end ByteHive
