import ByteHive.ForStd.Run
import ByteHive.Native.Receiver
import ByteHive.Spec.LedgerJoin

/-!
# Peer stamps and the local clock

A stamp from a peer is to be clamped to the local clock before it is applied or relayed, so
that a stamp from the far future cannot beat every later action. `Receiver.Clamped` says so for
one message: what the ledger newly holds, and what is broadcast, lies at most
`MAX_FUTURE_SKEW_MS` ahead of the clock.

The handlers of the drain and of the live phase clamp. The exchange of the ledgers and the loops
of the initial sync do not, and an mtime that becomes a live stamp never is: `Receiver.Bounded`
names what must not come in there.
-/

namespace ByteHive

/-- The newest stamp that may enter. -/
def skewLimit (h : Host) : Nat := h.nowMs + maxFutureSkewMs

theorem clampFutureStamp_le (h : Host) (rawMs : Nat) : clampFutureStamp h rawMs ≤ skewLimit h := by
  unfold clampFutureStamp skewLimit
  split
  · omega
  · next hle =>
    simp only [stampLimit] at hle
    omega

theorem clampFutureStampOpt_le (h : Host) (rawMs : Option Nat) :
    ∀ s ∈ clampFutureStampOpt h rawMs, s ≤ skewLimit h := by
  intro s hs
  obtain ⟨raw, -, rfl⟩ := Option.map_eq_some_iff.mp hs
  exact clampFutureStamp_le h raw

/-! ## New stamps in a ledger -/

namespace DeletionLedger

/-- Every stamp of `l'` is at most `lim` or was in the same place in `l`. -/
structure NewStampsLe (lim : Nat) (l l' : DeletionLedger) : Prop where
  alive : ∀ p a, l'.alive.get p = some a → a ≤ lim ∨ l.alive.get p = some a
  tombs : ∀ p t, l'.entries.get p = some t →
    t.deletedAtMs ≤ lim ∨ ∃ t₀, l.entries.get p = some t₀ ∧ t₀.deletedAtMs = t.deletedAtMs

theorem NewStampsLe.refl (lim : Nat) (l : DeletionLedger) : NewStampsLe lim l l :=
  ⟨fun _ _ h => .inr h, fun _ t h => .inr ⟨t, h, rfl⟩⟩

theorem NewStampsLe.trans {lim : Nat} {l l' l'' : DeletionLedger} (h : NewStampsLe lim l l')
    (h' : NewStampsLe lim l' l'') : NewStampsLe lim l l'' := by
  constructor
  · intro p a ha
    rcases h'.alive p a ha with hle | ha'
    · exact .inl hle
    · exact h.alive p a ha'
  · intro p t ht
    rcases h'.tombs p t ht with hle | ⟨t₀, ht₀, heq⟩
    · exact .inl hle
    · rw [← heq]
      exact h.tombs p t₀ ht₀

/-- A call brings no stamp beyond `lim` into a ledger that holds at least what `l` holds. -/
def LedgerCall.Within (lim : Nat) (l : DeletionLedger) : LedgerCall → Prop
  | .record p t _ _ _ => t ≤ lim ∨ t ≤ l.lastStamp p
  | .recordAlive p a => a ≤ lim ∨ a ≤ l.aliveSince p
  | .mergeRemote remote => ∀ p t, remote.get p = some t →
      t.deletedAtMs ≤ lim ∨ t.deletedAtMs ≤ l.lastStamp p

/-- A tombstone that gets in is newer than all that is known for its path. -/
theorem offered_cases {l : DeletionLedger} {p : PathBuf} {tomb t : Tombstone}
    (h : l.offered p tomb = some t) :
    l.entries.get p = some t ∨
      t = tomb ∧ (tomb.deletedAtMs = 0 ∨ l.lastStamp p < tomb.deletedAtMs) := by
  unfold offered at h
  split at h
  · exact .inl h
  · next hsup =>
    have hnewer : 0 < tomb.deletedAtMs → l.aliveSince p < tomb.deletedAtMs := by
      intro hpos
      rw [isSuperseded_iff hpos] at hsup
      omega
    split at h
    · next existing he =>
      split at h
      · rw [he]
        exact .inl h
      · refine .inr ⟨(Option.some.inj h).symm, ?_⟩
        simp only [lastStamp, tombStamp, he, Option.map_some, Option.getD_some]
        omega
    · next he =>
      refine .inr ⟨(Option.some.inj h).symm, ?_⟩
      simp only [lastStamp, tombStamp, he, Option.map_none, Option.getD_none]
      omega

/-- What is offered without a stamp beyond `lim` leaves none that was not there. -/
theorem NewStampsLe.offered {lim : Nat} {l₀ l : DeletionLedger} {p : PathBuf} {tomb t : Tombstone}
    (hl : NewStampsLe lim l₀ l) (hle : l₀ ≤ l)
    (htomb : tomb.deletedAtMs ≤ lim ∨ tomb.deletedAtMs ≤ l₀.lastStamp p)
    (h : l.offered p tomb = some t) :
    t.deletedAtMs ≤ lim ∨ ∃ t₀, l₀.entries.get p = some t₀ ∧ t₀.deletedAtMs = t.deletedAtMs := by
  rcases offered_cases h with hold | ⟨rfl, hnew⟩
  · exact hl.tombs p t hold
  · have hmono := ((le_iff.mp hle) p).2
    left
    omega

theorem NewStampsLe.runCall {lim : Nat} {l₀ l : DeletionLedger} (hl : NewStampsLe lim l₀ l)
    (hle : l₀ ≤ l) (c : LedgerCall) (hc : c.Within lim l₀) : NewStampsLe lim l₀ (l.runCall c) := by
  cases c with
  | record q t d ph pm =>
    refine ⟨fun p a ha => hl.alive p a ?_, fun p x hx => ?_⟩
    · rwa [DeletionLedger.runCall, record_alive] at ha
    · rw [DeletionLedger.runCall, get_record] at hx
      split at hx
      · next hpq =>
        have htomb : (⟨q, t, d, ph, pm⟩ : Tombstone).deletedAtMs ≤ lim ∨
            (⟨q, t, d, ph, pm⟩ : Tombstone).deletedAtMs ≤ l₀.lastStamp q := hc
        rw [hpq]
        exact hl.offered hle htomb hx
      · exact hl.tombs p x hx
  | recordAlive q a =>
    refine ⟨fun p b hb => ?_, fun p x hx => ?_⟩
    · rw [DeletionLedger.runCall, get_alive_recordAlive] at hb
      split at hb
      · next hraised =>
        -- The record is raised, so the stamp is newer than the one that `l₀` holds.
        have hmono := ((le_iff.mp hle) q).1
        obtain rfl := Option.some.inj hb
        have hnew := hraised.2
        rcases hc with hlim | hold
        · exact .inl hlim
        · omega
      · exact hl.alive p b hb
    · rw [DeletionLedger.runCall, get_entries_recordAlive] at hx
      split at hx
      · next hpq =>
        rw [hpq.1]
        exact hl.tombs q x (Option.filter_eq_some_iff.mp hx).1
      · exact hl.tombs p x hx
  | mergeRemote remote =>
    refine ⟨hl.alive, fun p x hx => ?_⟩
    rw [DeletionLedger.runCall, get_mergeRemote] at hx
    split at hx
    · exact hl.tombs p x hx
    · next tomb htomb => exact hl.offered hle (hc p tomb htomb) hx

theorem Called.newStampsLe {lim : Nat} {l l' : DeletionLedger}
    (h : Called (LedgerCall.Within lim l) l l') : NewStampsLe lim l l' := by
  have hboth : l ≤ l' ∧ NewStampsLe lim l l' :=
    h.induct (P := fun l' => l ≤ l' ∧ NewStampsLe lim l l')
      (fun l₁ c hc h₁ => ⟨h₁.1.trans (l₁.le_runCall c), h₁.2.runCall h₁.1 c hc⟩)
      ⟨le_rfl, .refl lim l⟩
  exact hboth.2

/-- A ledger of which every stamp was there before. -/
theorem newStampsLe_of_subset {l l' : DeletionLedger} (lim : Nat)
    (halive : ∀ p a, l'.alive.get p = some a → l.alive.get p = some a)
    (htombs : ∀ p t, l'.entries.get p = some t → l.entries.get p = some t) :
    NewStampsLe lim l l' :=
  ⟨fun p a ha => .inr (halive p a ha), fun p t ht => .inr ⟨t, htombs p t ht, rfl⟩⟩

theorem newStampsLe_prune (lim : Nat) (l : DeletionLedger) (nowMs ttlMs : Nat) :
    NewStampsLe lim l (l.prune nowMs ttlMs) := by
  refine newStampsLe_of_subset lim (fun p a ha => ?_) fun p t ht => ?_
  · rw [prune, FinMap.get_filter] at ha
    exact (Option.filter_eq_some_iff.mp ha).1
  · rw [prune, FinMap.get_filter] at ht
    exact (Option.filter_eq_some_iff.mp ht).1

theorem newStampsLe_remove (lim : Nat) (l : DeletionLedger) (p : PathBuf) :
    NewStampsLe lim l (l.remove p).2 := by
  refine newStampsLe_of_subset lim (fun _ _ ha => ha) fun q t ht => ?_
  rw [remove, FinMap.get_erase] at ht
  split at ht
  · cases ht
  · exact ht

end DeletionLedger

/-! ## The handlers -/

namespace SyncEngine

open DeletionLedger

variable {lim : Nat}

/-- A write brings no stamp beyond `lim` into the ledger `l`. Without an action stamp its mtime
    counts, but only over a tombstone at its own path. -/
def WriteWithin (lim : Nat) (l : DeletionLedger) (rel : PathBuf) (a : Option Nat) (m : Nat) : Prop :=
  match a with
  | some a => a ≤ lim ∨ a ≤ l.aliveSince rel
  | none => (l.entries.get rel).isSome = true → m ≤ lim ∨ m ≤ l.aliveSince rel

theorem WriteWithin.admits {l : DeletionLedger} {rel : PathBuf} {a : Option Nat} {m : Nat}
    (h : WriteWithin lim l rel a m) : Admits (LedgerCall.Within lim l) l rel a m := by
  intro hnone
  cases a with
  | some a => exact h
  | none => exact h (hnone rfl)

/-- The writes of a message bring no stamp beyond `lim`; for a chunk or an end these are the
    ones of the transfer it may complete. -/
def WritesWithin (lim : Nat) (e : SyncEngine) : Message → Prop
  | .bundle b =>
    ∀ fd ∈ b.files, WriteWithin lim e.ledger fd.metadata.relPath fd.actionMs fd.metadata.modifiedMs
  | .largeFileStart md _ a => WriteWithin lim e.ledger md.relPath a md.modifiedMs
  | .largeFileChunk p _ _ =>
    ∀ asm ∈ e.inProgress.get p, WriteWithin lim e.ledger p asm.actionMs asm.modifiedMs
  | .largeFileEnd p _ =>
    ∀ asm ∈ e.inProgress.get p, WriteWithin lim e.ledger p asm.actionMs asm.modifiedMs
  | _ => True

theorem newStampsLe_applyBundle (h : Host) {e : SyncEngine} {b : FileBundle}
    (hb : e.WritesWithin lim (.bundle b)) :
    NewStampsLe lim e.ledger (e.applyBundle h b).2.ledger :=
  (called_applyBundle h e fun fd hfd => (hb fd hfd).admits).newStampsLe

theorem newStampsLe_beginLargeFile (h : Host) {e : SyncEngine} {md : FileMetadata} {n : UInt32}
    {a : Option Nat} (hw : WriteWithin lim e.ledger md.relPath a md.modifiedMs) :
    NewStampsLe lim e.ledger (e.beginLargeFileWithAction h md n a).2.ledger :=
  (called_beginLargeFileWithAction h e n hw.admits).newStampsLe

theorem newStampsLe_finishLargeFile (h : Host) {e : SyncEngine} {p : PathBuf} (fh : Hash)
    (hp : ∀ asm ∈ e.inProgress.get p, WriteWithin lim e.ledger p asm.actionMs asm.modifiedMs) :
    NewStampsLe lim e.ledger (e.finishLargeFile h p fh).2.ledger :=
  (called_finishLargeFile h e fh fun asm hasm => (hp asm hasm).admits).newStampsLe

/-- A chunk leaves the stamps of the transfer as they are. -/
theorem inProgress_of_receiveLargeFileChunk {h : Host} {e e' : SyncEngine} {p : PathBuf}
    {i : UInt32} {data : Content} {r : Option ChunkResult} {asm : LargeFileAssembly}
    (hr : e.receiveLargeFileChunk h p i data = (r, e')) (hasm : e'.inProgress.get p = some asm) :
    ∃ asm₀, e.inProgress.get p = some asm₀ ∧ asm₀.actionMs = asm.actionMs ∧
      asm₀.modifiedMs = asm.modifiedMs := by
  obtain rfl : (e.receiveLargeFileChunk h p i data).2 = e' := by rw [hr]
  unfold receiveLargeFileChunk at hasm
  split at hasm
  · exact ⟨asm, hasm, rfl, rfl⟩
  · next asm₀ hasm₀ =>
    refine ⟨asm₀, hasm₀, ?_⟩
    split at hasm
    · simp_all
    · split at hasm
      · simp_all
      · dsimp only at hasm
        split at hasm
        · split at hasm <;>
          · rw [FinMap.get_insert, if_pos rfl] at hasm
            obtain rfl := Option.some.inj hasm
            exact ⟨rfl, rfl⟩
        · rw [FinMap.get_insert, if_pos rfl] at hasm
          obtain rfl := Option.some.inj hasm
          exact ⟨rfl, rfl⟩

/-- The commit of a transfer that a chunk has completed. -/
theorem newStampsLe_commit_after_chunk {h : Host} {e e' : SyncEngine} {p : PathBuf} {i : UInt32}
    {data : Content} {r : Option ChunkResult}
    (hp : ∀ asm ∈ e.inProgress.get p, WriteWithin lim e.ledger p asm.actionMs asm.modifiedMs)
    (hr : e.receiveLargeFileChunk h p i data = (r, e')) (fh : Hash) :
    NewStampsLe lim e.ledger (e'.commitLargeFile h p fh).2.ledger := by
  have hledger : e'.ledger = e.ledger := by
    rw [← ledger_receiveLargeFileChunk h e p i data, hr]
  rw [← hledger]
  refine (called_commitLargeFile h e' fh fun asm hasm => ?_).newStampsLe
  obtain ⟨asm₀, hasm₀, ha, hm⟩ := inProgress_of_receiveLargeFileChunk hr hasm
  rw [hledger, ← ha, ← hm]
  exact (hp asm₀ hasm₀).admits

theorem newStampsLe_handleRecvDelete (h : Host) (e : SyncEngine) (paths : List PathBuf) (t : Nat)
    (d : String) :
    NewStampsLe (skewLimit h) e.ledger (e.handleRecvDeleteWithMeta h paths t d).2.ledger :=
  (called_applyDeletes h e paths fun _ _ _ _ => .inl (clampFutureStamp_le h t)).newStampsLe

theorem newStampsLe_handleRecvRename (h : Host) (e : SyncEngine) (f g : PathBuf) (a : Nat)
    (peer : String) :
    NewStampsLe (skewLimit h) e.ledger (e.handleRecvRename h f g a peer).2.ledger :=
  (called_applyRenameAt h e f (.inl (clampFutureStamp_le h a)) fun _ _ =>
    .inl (clampFutureStamp_le h a)).newStampsLe

/-- A chunk that completes no transfer. -/
theorem newStampsLe_chunk {h : Host} {e e' : SyncEngine} {p : PathBuf} {i : UInt32}
    {data : Content} {r : Option ChunkResult}
    (hr : e.receiveLargeFileChunk h p i data = (r, e')) : NewStampsLe lim e.ledger e'.ledger := by
  have hledger : e'.ledger = e.ledger := by
    rw [← ledger_receiveLargeFileChunk h e p i data, hr]
  rw [hledger]
  exact .refl _ _

/-! ### Plans -/

/-- A copy that a tombstone beats is deleted at the stamp of that tombstone. -/
theorem called_deleteVetoed (h : Host) (e : SyncEngine) (snap : DeletionLedger)
    (paths : List PathBuf) :
    Called (LedgerCall.Within lim snap) e.ledger (deleteVetoed h e snap paths).ledger := by
  unfold deleteVetoed
  induction paths generalizing e with
  | nil => exact .refl _
  | cons p rest ih =>
    rw [List.foldl_cons]
    refine Called.trans ?_ (ih _)
    split
    · next tomb htomb =>
      refine called_applyDeletes h e [p] fun q hq _ _ => .inr ?_
      rw [List.mem_singleton] at hq
      rw [hq]
      refine le_max_of_le_right ?_
      rw [tombStamp, htomb]
      exact le_rfl
    · exact .refl _

theorem newStampsLe_clearTombstones (h : Host) (e : SyncEngine) (ps : List PathBuf) :
    NewStampsLe lim e.ledger (e.clearTombstones h ps).ledger := by
  have hall : ∀ (ps : List PathBuf) (l : DeletionLedger), NewStampsLe lim l (removeAll l ps).2 := by
    intro ps
    induction ps with
    | nil => exact fun l => .refl lim l
    | cons p ps ih => exact fun l => (newStampsLe_remove lim l p).trans (ih _)
  unfold clearTombstones
  split
  · exact .refl _ _
  · rw [ledger_flushLedger, ledger_ledgerMut]
    exact hall ps e.ledger

theorem newStampsLe_scan (h : Host) (e : SyncEngine) :
    NewStampsLe lim e.ledger (e.scan h).ledger := by
  unfold scan pruneLedger
  dsimp only
  split
  · exact .refl _ _
  · rw [ledger_flushLedger]
    exact newStampsLe_prune lim e.ledger _ _

/-- A plan, and the tombstones it lifts, bring in no stamp at all. -/
theorem newStampsLe_syncPlan (isServer : Bool) (h : Host) (e : SyncEngine) (locl remote : Manifest) :
    NewStampsLe lim e.ledger ((syncPlan isServer h e locl remote).2.clearTombstones h
      (syncPlan isServer h e locl remote).1.recreated).ledger :=
  (called_deleteVetoed h e e.ledger _).newStampsLe.trans (newStampsLe_clearTombstones h _ _)

theorem newStampsLe_sessionManifest (h : Host) (e : SyncEngine) :
    NewStampsLe lim e.ledger (sessionManifest h e).2.ledger := by
  unfold sessionManifest
  split
  · exact newStampsLe_scan h e
  · exact .refl _ _

end SyncEngine

/-! ## Messages -/

namespace Message

/-- The `action_ms` and `deleted_at_ms` that a message carries. -/
def stamps : Message → List Nat
  | .bundle b => b.files.filterMap (·.actionMs)
  | .delete _ t _ => [t]
  | .largeFileStart _ _ a => a.toList
  | .rename _ _ a => [a]
  | _ => []

theorem stamps_clamp_le (h : Host) (m : Message) : ∀ s ∈ (m.clamp h).stamps, s ≤ skewLimit h := by
  intro s hs
  cases m with
  | bundle b =>
    obtain ⟨fd, hfd, hs⟩ := List.mem_filterMap.mp hs
    obtain ⟨fd₀, -, rfl⟩ := List.mem_map.mp hfd
    exact clampFutureStampOpt_le h fd₀.actionMs s hs
  | delete paths t d =>
    obtain rfl := List.mem_singleton.mp hs
    exact clampFutureStamp_le h t
  | largeFileStart md n a => exact clampFutureStampOpt_le h a s (Option.mem_toList.mp hs)
  | rename f g a =>
    obtain rfl := List.mem_singleton.mp hs
    exact clampFutureStamp_le h a
  | largeFileChunk p i data => cases hs
  | largeFileEnd p fh => cases hs
  | actionBatchEnd n => cases hs
  | actionBatchAck n => cases hs

end Message

theorem clampFutureStamp_idem (h : Host) (rawMs : Nat) :
    clampFutureStamp h (clampFutureStamp h rawMs) = clampFutureStamp h rawMs := by
  by_cases hlt : stampLimit h < rawMs
  · simp [clampFutureStamp, hlt]
  · simp [clampFutureStamp, hlt]

theorem clampFutureStampOpt_idem (h : Host) (rawMs : Option Nat) :
    clampFutureStampOpt h (clampFutureStampOpt h rawMs) = clampFutureStampOpt h rawMs := by
  cases rawMs with
  | none => rfl
  | some raw => exact congrArg some (clampFutureStamp_idem h raw)

theorem clampBundle_idem (h : Host) (b : FileBundle) :
    clampBundle h (clampBundle h b) = clampBundle h b := by
  simp only [clampBundle, List.map_map, Function.comp_def, clampFutureStampOpt_idem]

namespace SyncEngine

open DeletionLedger

theorem newStampsLe_handleRecvBundle {h : Host} {e : SyncEngine} {b : FileBundle}
    (hb : e.WritesWithin (skewLimit h) (.bundle (clampBundle h b))) :
    NewStampsLe (skewLimit h) e.ledger (e.handleRecvBundle h b).2.ledger :=
  newStampsLe_applyBundle h hb

theorem newStampsLe_handleRecvLargeFileChunk {h : Host} {e : SyncEngine} {p : PathBuf} {i : UInt32}
    {data : Content} {lim : Nat} (hp : e.WritesWithin lim (.largeFileChunk p i data)) :
    NewStampsLe lim e.ledger (e.handleRecvLargeFileChunk h p i data).2.ledger := by
  unfold handleRecvLargeFileChunk
  split
  · next hr => exact newStampsLe_chunk hr
  · next hr => exact newStampsLe_chunk hr
  · next hash e' hr =>
    have hcommit := newStampsLe_commit_after_chunk hp hr hash
    split
    · next hc => rwa [hc] at hcommit
    · next hc => rwa [hc] at hcommit

/-- The server in the drain and in the live phase. -/
theorem newStampsLe_applyClientAction {h : Host} {e : SyncEngine} (clientId : String) {m : Message}
    (hm : e.WritesWithin (skewLimit h) (m.clamp h)) :
    NewStampsLe (skewLimit h) e.ledger (applyClientAction h e clientId m).engine.ledger := by
  cases m with
  | bundle b =>
    have hb := newStampsLe_applyBundle h hm
    simp only [applyClientAction, handleRecvBundle, clampBundle_idem]
    split
    · next hr => rwa [hr] at hb
    · next hr => rwa [hr] at hb
  | delete paths t d => exact newStampsLe_handleRecvDelete h e paths _ d
  | largeFileStart md n a =>
    have hs := newStampsLe_beginLargeFile (n := n) h hm
    simp only [applyClientAction, handleRecvLargeFileStart, clampFutureStampOpt_idem]
    split
    · next hr => rwa [hr] at hs
    · next hr => rwa [hr] at hs
  | largeFileChunk p i data =>
    have hp := newStampsLe_handleRecvLargeFileChunk (h := h) hm
    simp only [applyClientAction]
    split
    · next hr => rwa [hr] at hp
    · next hr => rwa [hr] at hp
  | largeFileEnd p fh =>
    have hp := newStampsLe_finishLargeFile h fh hm
    simp only [applyClientAction, handleRecvLargeFileEnd]
    split
    · next hr => rwa [hr] at hp
    · next hr => rwa [hr] at hp
    · next hr => rwa [hr] at hp
  | rename f g a =>
    have hr := newStampsLe_handleRecvRename h e f g (clampFutureStamp h a) clientId
    simp only [applyClientAction]
    split
    · next heq => rwa [heq] at hr
    · next heq => rwa [heq] at hr
  | actionBatchEnd n => exact .refl _ _
  | actionBatchAck n => exact .refl _ _

/-- What the server relays of a client action is the clamped message. -/
theorem relay_applyClientAction {h : Host} {e : SyncEngine} {clientId : String} {m m' : Message}
    (hm' : (applyClientAction h e clientId m).relay = some m') : m' = m.clamp h := by
  cases m with
  | delete paths t d => exact (Option.some.inj hm').symm
  | actionBatchEnd n => cases hm'
  | actionBatchAck n => cases hm'
  | _ =>
    simp only [applyClientAction] at hm'
    split at hm' <;> first | exact (Option.some.inj hm').symm | cases hm'

/-- The server in the initial sync. -/
theorem newStampsLe_applyInitialUpload {h : Host} {e : SyncEngine} {m : Message}
    (hm : e.WritesWithin (skewLimit h) m) :
    NewStampsLe (skewLimit h) e.ledger (applyInitialUpload h e m).2.engine.ledger := by
  cases m with
  | bundle b =>
    have hb := newStampsLe_applyBundle h hm
    simp only [applyInitialUpload]
    split
    · next hr => rwa [hr] at hb
    · next hr => rwa [hr] at hb
  | delete paths t d => exact newStampsLe_handleRecvDelete h e paths t d
  | largeFileStart md n a =>
    have hs := newStampsLe_beginLargeFile (n := n) h hm
    simp only [applyInitialUpload]
    split
    · next hr => rwa [hr] at hs
    · next hr => rwa [hr] at hs
  | largeFileChunk p i data =>
    simp only [applyInitialUpload]
    split
    · next hash e' hr => exact newStampsLe_commit_after_chunk hm hr hash
    · next hr => exact newStampsLe_chunk hr
    · next hr => exact newStampsLe_chunk hr
  | largeFileEnd p fh =>
    have hp := newStampsLe_finishLargeFile h fh hm
    simp only [applyInitialUpload]
    split
    · next hr => rwa [hr] at hp
    · next hr => rwa [hr] at hp
    · next hr => rwa [hr] at hp
  | rename f g a => exact .refl _ _
  | actionBatchEnd n => exact .refl _ _
  | actionBatchAck n => exact .refl _ _

/-- What the initial sync relays is the message as it came, and never a rename. -/
theorem relay_applyInitialUpload {h : Host} {e : SyncEngine} {m m' : Message}
    (hm' : (applyInitialUpload h e m).2.relay = some m') :
    m' = m ∧ ∀ f g a, m ≠ .rename f g a := by
  cases m with
  | delete paths t d => exact ⟨(Option.some.inj hm').symm, fun _ _ _ h => nomatch h⟩
  | rename f g a => cases hm'
  | actionBatchEnd n => cases hm'
  | actionBatchAck n => cases hm'
  | _ =>
    simp only [applyInitialUpload] at hm'
    split at hm' <;>
      first
        | exact ⟨(Option.some.inj hm').symm, fun _ _ _ h => nomatch h⟩
        | cases hm'

/-- The client in the initial sync. -/
theorem newStampsLe_recvDownload {h : Host} {e : SyncEngine} {m : Message}
    (hm : e.WritesWithin (skewLimit h) m) :
    NewStampsLe (skewLimit h) e.ledger (e.recvDownload h m).2.ledger := by
  cases m with
  | bundle b =>
    have hb := newStampsLe_applyBundle h hm
    simp only [recvDownload]
    split
    · next hr => rwa [hr] at hb
    · next hr => rwa [hr] at hb
  | delete paths t d => exact newStampsLe_handleRecvDelete h e paths t d
  | largeFileStart md n a => exact newStampsLe_beginLargeFile h hm
  | largeFileChunk p i data =>
    simp only [recvDownload]
    split
    · next hash e' hr =>
      have hcommit := newStampsLe_commit_after_chunk hm hr hash
      split
      · next hc => rwa [hc] at hcommit
      · next hc => rwa [hc] at hcommit
    · next hr => exact newStampsLe_chunk hr
    · next hr => exact newStampsLe_chunk hr
  | largeFileEnd p fh =>
    have hp := newStampsLe_finishLargeFile h fh hm
    simp only [recvDownload]
    split
    · next hr => rwa [hr] at hp
    · next hr => rwa [hr] at hp
  | rename f g a => exact .refl _ _
  | actionBatchEnd n => exact .refl _ _
  | actionBatchAck n => exact .refl _ _

/-- The client in the live phase. -/
theorem newStampsLe_recvLive {h : Host} {e : SyncEngine} {m : Message}
    (hm : e.WritesWithin (skewLimit h) (m.clamp h)) :
    NewStampsLe (skewLimit h) e.ledger (e.recvLive h m).ledger := by
  cases m with
  | bundle b => exact newStampsLe_handleRecvBundle hm
  | delete paths t d => exact newStampsLe_handleRecvDelete h e paths t d
  | largeFileStart md n a => exact newStampsLe_beginLargeFile h hm
  | largeFileChunk p i data => exact newStampsLe_handleRecvLargeFileChunk hm
  | largeFileEnd p fh => exact newStampsLe_finishLargeFile h fh hm
  | rename f g a => exact newStampsLe_handleRecvRename h e f g a "server"
  | actionBatchEnd n => exact .refl _ _
  | actionBatchAck n => exact .refl _ _

end SyncEngine

/-! ## Sessions -/

namespace Receiver

open DeletionLedger

/-- Because of the message no stamp beyond the limit enters the ledger or is broadcast. -/
structure Clamped (h : Host) (r : Receiver) (m : PeerMessage) : Prop where
  ledger : NewStampsLe (skewLimit h) r.engine.ledger (r.recv h m).1.engine.ledger
  relayed : ∀ m' ∈ (r.recv h m).2, ∀ s ∈ m'.stamps, s ≤ skewLimit h

/-- No stamp beyond the limit comes in where nothing clamps it: in the ledger of the peer, as a
    stamp in the initial sync, or as the mtime of a write without a stamp. Stamps that the ledger
    already knows do not count. -/
def Bounded (h : Host) (r : Receiver) (m : PeerMessage) : Prop :=
  match r.side, r.phase, m with
  | _, .ledger, .ledgerExchange entries => ∀ d ∈ entries,
    d.deletedAtMs ≤ skewLimit h ∨ d.deletedAtMs ≤
      if d.alive then r.engine.ledger.aliveSince d.path else r.engine.ledger.lastStamp d.path
  | .server _, .drain, .action m => r.engine.WritesWithin (skewLimit h) (m.clamp h)
  | .server _, .initial _ _, .action m =>
    r.engine.WritesWithin (skewLimit h) m ∧
      ((∀ f g a, m ≠ .rename f g a) → ∀ s ∈ m.stamps, s ≤ skewLimit h)
  | .client, .initial _ _, .action m => r.engine.WritesWithin (skewLimit h) m
  | _, .live, .action m => r.engine.WritesWithin (skewLimit h) (m.clamp h)
  | _, _, _ => True

theorem newStampsLe_mergeLedger {h : Host} {e : SyncEngine} {entries : List TombstoneDto} {lim : Nat}
    (hd : ∀ d ∈ entries, d.deletedAtMs ≤ lim ∨ d.deletedAtMs ≤
      if d.alive then e.ledger.aliveSince d.path else e.ledger.lastStamp d.path) :
    NewStampsLe lim e.ledger (e.mergeLedger h entries).2.ledger := by
  refine (SyncEngine.called_mergeLedger h e (fun x hx => ?_) fun p t ht => ?_).newStampsLe
  · obtain ⟨d, hmem, rfl⟩ := List.mem_map.mp hx
    obtain ⟨hmem, halive⟩ := List.mem_filter.mp hmem
    have hle := hd d hmem
    rwa [if_pos halive] at hle
  · obtain ⟨d, hmem, hdead, rfl, rfl⟩ := SyncEngine.mem_of_get_remoteTombstones ht
    have hle := hd d hmem
    rwa [if_neg (by simp [hdead])] at hle

/-- The server in the drain and in the live phase. -/
theorem clamped_recvAction {h : Host} {r : Receiver} (clientId : String) {m : Message}
    (hm : r.engine.WritesWithin (skewLimit h) (m.clamp h)) :
    NewStampsLe (skewLimit h) r.engine.ledger (r.recvAction h clientId m).1.engine.ledger ∧
      ∀ m' ∈ (r.recvAction h clientId m).2, ∀ s ∈ m'.stamps, s ≤ skewLimit h := by
  have hledger := SyncEngine.newStampsLe_applyClientAction clientId hm
  have hrelay : ∀ m' ∈ (applyClientAction h r.engine clientId m).relay,
      ∀ s ∈ m'.stamps, s ≤ skewLimit h := by
    intro m' hm'
    rw [SyncEngine.relay_applyClientAction hm']
    exact m.stamps_clamp_le h
  cases m with
  | actionBatchEnd n =>
    refine ⟨?_, fun m' hm' => nomatch hm'⟩
    simp only [recvAction, SyncEngine.ledger_flushLedger]
    exact .refl _ _
  | actionBatchAck n => exact ⟨.refl _ _, fun m' hm' => nomatch hm'⟩
  | _ => exact ⟨hledger, hrelay⟩

theorem clamped_recvServer {h : Host} {clientId : String} {r : Receiver} {m : PeerMessage}
    (hside : r.side = .server clientId) (hm : r.Bounded h m) :
    NewStampsLe (skewLimit h) r.engine.ledger (r.recvServer h clientId m).1.engine.ledger ∧
      ∀ m' ∈ (r.recvServer h clientId m).2, ∀ s ∈ m'.stamps, s ≤ skewLimit h := by
  obtain ⟨side, phase, e⟩ := r
  dsimp only at hside
  subst hside
  have hnone : ∀ m' ∈ (none : Option Message), ∀ s ∈ m'.stamps, s ≤ skewLimit h :=
    fun _ h => nomatch h
  cases phase with
  | ledger =>
    cases m with
    | ledgerExchange entries => exact ⟨newStampsLe_mergeLedger hm, hnone⟩
    | _ => exact ⟨.refl _ _, hnone⟩
  | drain =>
    cases m with
    | manifestExchange remote =>
      exact ⟨(SyncEngine.newStampsLe_sessionManifest h e).trans
        (SyncEngine.newStampsLe_syncPlan true h _ _ remote), hnone⟩
    | action m => exact clamped_recvAction clientId hm
    | _ => exact ⟨.refl _ _, hnone⟩
  | initial locl remote =>
    cases m with
    | action m =>
      refine ⟨SyncEngine.newStampsLe_applyInitialUpload hm.1, fun m' hm' => ?_⟩
      obtain ⟨rfl, hkind⟩ := SyncEngine.relay_applyInitialUpload hm'
      exact hm.2 hkind
    | _ => exact ⟨.refl _ _, hnone⟩
  | live =>
    cases m with
    | action m => exact clamped_recvAction clientId hm
    | _ => exact ⟨.refl _ _, hnone⟩
  | closed => exact ⟨.refl _ _, hnone⟩

theorem newStampsLe_recvClient {h : Host} {r : Receiver} {m : PeerMessage}
    (hside : r.side = .client) (hm : r.Bounded h m) :
    NewStampsLe (skewLimit h) r.engine.ledger (r.recvClient h m).engine.ledger := by
  obtain ⟨side, phase, e⟩ := r
  dsimp only at hside
  subst hside
  cases phase with
  | ledger =>
    cases m with
    | ledgerExchange entries => exact newStampsLe_mergeLedger hm
    | _ => exact .refl _ _
  | drain =>
    cases m with
    | manifestExchange remote => exact SyncEngine.newStampsLe_scan h e
    | action m => cases m <;> exact .refl _ _
    | _ => exact .refl _ _
  | initial locl remote =>
    cases m with
    | action m => exact SyncEngine.newStampsLe_recvDownload hm
    | syncComplete => exact SyncEngine.newStampsLe_syncPlan false h e locl remote
    | _ => exact .refl _ _
  | live =>
    cases m with
    | action m => exact SyncEngine.newStampsLe_recvLive hm
    | _ => exact .refl _ _
  | closed => exact .refl _ _

/-- One message in any phase, on either side. -/
theorem clamped_recv {h : Host} {r : Receiver} {m : PeerMessage} (hm : r.Bounded h m) :
    r.Clamped h m := by
  cases hside : r.side with
  | server clientId =>
    obtain ⟨hledger, hrelay⟩ := clamped_recvServer hside hm
    exact ⟨by simpa only [recv, hside] using hledger, by simpa only [recv, hside] using hrelay⟩
  | client =>
    have hledger := newStampsLe_recvClient hside hm
    exact ⟨by simpa only [recv, hside] using hledger, by simp [recv, hside]⟩

/-- What happens at one end of a session. -/
inductive Event where
  | recv (h : Host) (m : PeerMessage)
  /-- Other threads and other connections change the engine. -/
  | other (e : SyncEngine)

def step (r : Receiver) : Event → Option Receiver
  | .recv h m => some (r.recv h m).1
  | .other e => some { r with engine := e }

/-- A property of every message that is received. -/
def OnRecv (P : Host → Receiver → PeerMessage → Prop) (r : Receiver) : Event → Prop
  | .recv h m => P h r m
  | .other _ => True

/-- In every session in which no message brings an unclamped stamp beyond the limit to a place
    that does not clamp, no message makes such a stamp enter the ledger or go to another peer. -/
theorem stepsMeet_clamped (r : Receiver) (events : List Event)
    (hbounded : Run.StepsMeet step (OnRecv Bounded) r events) :
    Run.StepsMeet step (OnRecv Clamped) r events := by
  intro before event r' hbefore hrun
  have hthis := hbounded before event r' hbefore hrun
  cases event with
  | recv h m => exact clamped_recv hthis
  | other e => exact trivial

/-- The server's end of a new session, at clock 1000. -/
def atHello : Receiver :=
  ⟨.server "client", .ledger, .new "server" (fun _ => false) .empty .new⟩

def noonHost : Host := .reliable (fun _ => 0) 1000

/-- A bundle with one empty file. -/
def stampedBundle (actionMs : Nat) : FileBundle :=
  ⟨[⟨⟨.ofNames ["a"], 0, 0, 1, 0, false⟩, [], some actionMs⟩], 0⟩

/-- The client exchanges ledgers and manifests, then uploads. -/
def uploadSession (actionMs : Nat) : List Event :=
  [.recv noonHost (.ledgerExchange []), .recv noonHost (.manifestExchange ⟨.empty, "client"⟩),
    .recv noonHost (.action (.bundle (stampedBundle actionMs)))]

theorem stepsMeet_clamped_upload :
    Run.StepsMeet step (OnRecv Clamped) atHello (uploadSession 7) := by
  refine stepsMeet_clamped atHello (uploadSession 7) ?_
  have hnil : ∀ r, Run.StepsMeet step (OnRecv Bounded) r [] := by
    intro r bs a s' hb
    simp at hb
  have hupload : ∀ e locl remote,
      Bounded noonHost ⟨.server "client", .initial locl remote, e⟩
        (.action (.bundle (stampedBundle 7))) := by
    intro e locl remote
    refine ⟨fun fd hfd => ?_, fun _ s hs => ?_⟩
    · obtain rfl := List.mem_singleton.mp hfd
      exact .inl (by decide)
    · obtain rfl : s = 7 := by simpa [Message.stamps, stampedBundle] using hs
      decide
  have hempty : Bounded noonHost atHello (.ledgerExchange []) := by
    intro d hd
    cases hd
  refine (Run.stepsMeet_cons rfl).mpr ⟨hempty, ?_⟩
  refine (Run.stepsMeet_cons (c := OnRecv Bounded) rfl).mpr ⟨trivial, ?_⟩
  exact (Run.stepsMeet_cons rfl).mpr ⟨hupload _ _ _, hnil _⟩

/-- A bundle in the initial sync, stamped far in the future: the server relays it as it is. -/
theorem initial_upload_relays_far_stamp :
    ¬ Run.StepsMeet step (OnRecv Clamped) atHello (uploadSession (2 ^ 63)) := by
  intro hclamped
  have hlast := hclamped [.recv noonHost (.ledgerExchange []),
    .recv noonHost (.manifestExchange ⟨.empty, "client"⟩)]
    (.recv noonHost (.action (.bundle (stampedBundle (2 ^ 63))))) _ List.prefix_rfl rfl
  have hrelay := hlast.relayed (.bundle (stampedBundle (2 ^ 63))) (by decide +kernel) (2 ^ 63)
    (by decide +kernel)
  exact absurd hrelay (by decide)

end Receiver

end ByteHive
