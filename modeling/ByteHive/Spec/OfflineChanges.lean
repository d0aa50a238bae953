import ByteHive.ForStd.Run
import ByteHive.Spec.Reception

/-!
# Changes on the server while a client is away

A client that was in sync is away; files change in the server's root, the watcher reports
it and the server flushes. None of this touches the cached manifest, from which the next
session plans. So the client gets all of it when the cache is empty, and nothing of it
otherwise.

Key results:
- `localRun_keeps`: no local run changes the cached manifest
- `runSession_idle`, `runSession_empty`: the two kinds of session
- `reaches_client_iff`: when a client that comes back holds what the server holds
-/

namespace ByteHive

/-! ## Local runs -/

/-- A change in the sync root made by anyone but the engine. -/
inductive LocalChange where
  | write (p : PathBuf) (c : Content) (modifiedMs : Nat)
  | makeDir (p : PathBuf) (modifiedMs : Nat)
  | remove (p : PathBuf)
  | rename (source target : PathBuf)
deriving DecidableEq, Repr

namespace LocalChange

/-- The paths it names. -/
def paths : LocalChange → List PathBuf
  | .write p _ _ => [p]
  | .makeDir p _ => [p]
  | .remove p => [p]
  | .rename f g => [f, g]

def apply (t : Tree) : LocalChange → Option Tree
  | .write p c m => t.write p c m
  | .makeDir p m => t.createDirAll m p
  | .remove p => some (t.removeTree p)
  | .rename f g => t.rename f g

end LocalChange

/-- The engine of the server and what its watcher has collected. -/
structure LocalState where
  engine : SyncEngine
  pending : PendingChanges

inductive LocalEvent where
  | change (c : LocalChange)
  /-- The watcher reports an event. -/
  | observe (h : Host) (ev : FsEvent)
  /-- `flush_local_changes`. -/
  | flush (h h' : Host) (nextBundleId : Nat)
  /-- Suppressions are lifted. -/
  | unsuppress (ps : List PathBuf)

def LocalState.step (σ : LocalState) : LocalEvent → Option LocalState
  | .change c =>
    if c.paths.all safeRelative then
      (c.apply σ.engine.tree).map fun t => { σ with engine := { σ.engine with tree := t } }
    else none
  | .observe h ev => some { σ with pending := σ.pending.collectEvent h σ.engine ev }
  | .flush h h' nextBundleId =>
    let r := flushLocalChanges h h' σ.engine σ.pending nextBundleId
    some ⟨r.2.2, r.2.1⟩
  | .unsuppress ps =>
    some { σ with engine := { σ.engine with
      suppressed := σ.engine.suppressed \ ps.toFinset
      suppressedDeletes := σ.engine.suppressedDeletes \ ps.toFinset } }

theorem LocalChange.plainPaths {c : LocalChange} {t t' : Tree} (ht : PlainPaths t)
    (hc : c.paths.all safeRelative = true) (hr : c.apply t = some t') : PlainPaths t' := by
  intro q n hq
  cases c with
  | write p data m =>
    rw [FileTree.get_write hr] at hq
    split at hq
    · next hqp => simpa [LocalChange.paths, hqp] using hc
    · exact ht q n hq
  | makeDir p m =>
    rw [FileTree.get_createDirAll hr] at hq
    split at hq
    · next hqp =>
      exact safeRelative_of_below hqp.2.1 (by simpa [LocalChange.paths] using hc)
    · exact ht q n hq
  | remove p =>
    obtain rfl := Option.some.inj hr
    rw [FileTree.get_removeTree] at hq
    split at hq
    · cases hq
    · exact ht q n hq
  | rename f g =>
    simp only [LocalChange.paths, List.all_cons, List.all_nil, Bool.and_true, Bool.and_eq_true] at hc
    by_cases hfg : f = g
    · simp only [LocalChange.apply, FileTree.rename, if_pos hfg] at hr
      split at hr
      · obtain rfl := Option.some.inj hr
        exact ht q n hq
      · cases hr
    · rw [FileTree.get_rename hfg hr, FileTree.movedGet] at hq
      split at hq
      · next hgq =>
        obtain ⟨r, rfl⟩ := hgq
        rw [List.drop_left] at hq
        exact safeRelative_append.mpr ⟨hc.2, (safeRelative_append.mp (ht _ _ hq)).2⟩
      · split at hq
        · cases hq
        · exact ht q n hq

/-! ### What a flush leaves alone -/

/-- The files, the manifest and the exclusions are the same. -/
structure SameFiles (e e' : SyncEngine) : Prop where
  tree : e'.tree = e.tree
  manifest : e'.manifest = e.manifest
  isExcluded : e'.isExcluded = e.isExcluded

theorem SameFiles.refl (e : SyncEngine) : SameFiles e e := ⟨rfl, rfl, rfl⟩

theorem SameFiles.trans {e e' e'' : SyncEngine} (h : SameFiles e e') (h' : SameFiles e' e'') :
    SameFiles e e'' :=
  ⟨h'.tree.trans h.tree, h'.manifest.trans h.manifest, h'.isExcluded.trans h.isExcluded⟩

theorem sameFiles_foldl {α : Type} {f : SyncEngine → α → SyncEngine}
    (hf : ∀ e a, SameFiles e (f e a)) (e : SyncEngine) (l : List α) : SameFiles e (l.foldl f e) := by
  induction l generalizing e with
  | nil => exact .refl e
  | cons a l ih => exact (hf e a).trans (ih (f e a))

theorem sameFiles_flushLedger (h : Host) (e : SyncEngine) : SameFiles e (e.flushLedger h) := by
  unfold SyncEngine.flushLedger
  split
  · exact .refl e
  · exact ⟨rfl, rfl, rfl⟩

theorem sameFiles_ledgerMut (h : Host) (e : SyncEngine)
    (f : DeletionLedger → Bool × DeletionLedger) : SameFiles e ((e.ledgerMut f).flushLedger h) := by
  have hmut : SameFiles e (e.ledgerMut f) := ⟨rfl, rfl, rfl⟩
  exact hmut.trans (sameFiles_flushLedger h _)

theorem sameFiles_recordLiveActions (h : Host) (e : SyncEngine) (actions : List (PathBuf × Nat)) :
    SameFiles e (e.recordLiveActions h actions) := by
  unfold SyncEngine.recordLiveActions
  split
  · exact .refl e
  · exact sameFiles_ledgerMut h e _

theorem sameFiles_mergeLedger (h : Host) (e : SyncEngine) (dtos : List TombstoneDto) :
    SameFiles e (e.mergeLedger h dtos).2 := by
  unfold SyncEngine.mergeLedger
  split
  · exact .refl e
  · exact sameFiles_ledgerMut h e _

theorem sameFiles_clearTombstones (h : Host) (e : SyncEngine) (ps : List PathBuf) :
    SameFiles e (e.clearTombstones h ps) := by
  unfold SyncEngine.clearTombstones
  split
  · exact .refl e
  · exact sameFiles_ledgerMut h e _

theorem sameFiles_takeStableChanges (h : Host) (e : SyncEngine) (s : PendingChanges) :
    SameFiles e (s.takeStableChanges h e).2.2 := by
  have hclear : ∀ (e : SyncEngine) (p : PathBuf), SameFiles e (e.clearChangeHistory p) :=
    fun _ _ => ⟨rfl, rfl, rfl⟩
  exact sameFiles_foldl hclear e _

theorem sameFiles_takeDeletesWithEngine (h : Host) (e : SyncEngine) (s : PendingChanges) :
    SameFiles e (s.takeDeletesWithEngine h e).2.2 :=
  sameFiles_foldl (fun e' _ => sameFiles_ledgerMut h e' _) e _

theorem sameFiles_streamPath {h : Host} {t : Tree} {stamp : PathBuf → Nat → Option Nat}
    {e : SyncEngine} {s : BundlerRun} (p : PathBuf)
    (hs : ∀ e', s.engine = some e' → SameFiles e e') :
    ∀ e', (s.streamPath h t stamp p).engine = some e' → SameFiles e e' := by
  have hseq : ∀ s' : BundlerRun, (∀ e', s'.engine = some e' → SameFiles e e') →
      ∀ e', (s'.changeSequence p).2.engine = some e' → SameFiles e e' := by
    intro s' hs' e' he'
    unfold BundlerRun.changeSequence at he'
    split at he'
    · exact hs' e' he'
    · next e₁ he₁ =>
      obtain rfl := Option.some.inj he'
      exact (hs' e₁ he₁).trans ⟨rfl, rfl, rfl⟩
  have hflush : ∀ e', s.flushBundle.engine = some e' → SameFiles e e' := by
    rw [flushBundle_engine]
    exact hs
  unfold BundlerRun.streamPath
  split
  · exact hs
  · exact hseq s hs
  · split
    · unfold BundlerRun.streamLargeFile
      split
      · exact hflush
      · exact hseq _ hflush
    · split
      · exact hs
      · split
        · exact hseq _ hflush
        · exact hseq s hs

theorem sameFiles_streamMessagesWith (h : Host) (e : SyncEngine) (ps : List PathBuf)
    (stamp : PathBuf → Nat → Option Nat) (id : Nat) :
    SameFiles e (streamMessagesWith h e ps stamp id).2 := by
  have hloop : ∀ (ps : List PathBuf) (s : BundlerRun),
      (∀ e', s.engine = some e' → SameFiles e e') →
      ∀ e', (ps.foldl (BundlerRun.streamPath h e.tree stamp) s).engine = some e' →
        SameFiles e e' := by
    intro ps
    induction ps with
    | nil => exact fun _ hs => hs
    | cons p ps ih => exact fun s hs => ih _ (sameFiles_streamPath p hs)
  have hall := hloop ps ⟨[], 0, [], id, some e⟩ fun e' he' => by
    obtain rfl := Option.some.inj he'
    exact .refl e
  unfold streamMessagesWith
  simp only [flushBundle_engine]
  cases he : (ps.foldl (BundlerRun.streamPath h e.tree stamp) ⟨[], 0, [], id, some e⟩).engine with
  | none => exact .refl e
  | some e' => exact hall e' he

/-- `flush_local_changes` keeps the manifest as it is. -/
theorem sameFiles_flushLocalChanges (h h' : Host) (e : SyncEngine) (s : PendingChanges) (id : Nat) :
    SameFiles e (flushLocalChanges h h' e s id).2.2 := by
  unfold flushLocalChanges
  dsimp only
  split
  · exact ((sameFiles_recordLiveActions h e _).trans (sameFiles_streamMessagesWith h _ _ _ _)).trans
      ((sameFiles_takeStableChanges h _ _).trans (sameFiles_streamMessagesWith h _ _ _ _))
  · exact (((sameFiles_recordLiveActions h e _).trans (sameFiles_streamMessagesWith h _ _ _ _)).trans
      ((sameFiles_takeStableChanges h _ _).trans (sameFiles_streamMessagesWith h _ _ _ _))).trans
        (sameFiles_takeDeletesWithEngine h' _ _)

/-- A local run changes the files and the ledger, but not the cached manifest. -/
theorem localRun_keeps {σ σ' : LocalState} {evs : List LocalEvent} (ht : PlainPaths σ.engine.tree)
    (hr : Run.runFrom LocalState.step σ evs = some σ') :
    σ'.engine.manifest = σ.engine.manifest ∧ σ'.engine.isExcluded = σ.engine.isExcluded ∧
      PlainPaths σ'.engine.tree := by
  refine Run.runFrom_invariant (P := fun τ => τ.engine.manifest = σ.engine.manifest ∧
    τ.engine.isExcluded = σ.engine.isExcluded ∧ PlainPaths τ.engine.tree) ?_ ⟨rfl, rfl, ht⟩ hr
  rintro τ ev τ' ⟨hm, hx, hplain⟩ hstep
  cases ev with
  | change c =>
    simp only [LocalState.step] at hstep
    split at hstep
    · next hc =>
      obtain ⟨t, ht', rfl⟩ := Option.map_eq_some_iff.mp hstep
      exact ⟨hm, hx, LocalChange.plainPaths hplain hc ht'⟩
    · cases hstep
  | observe h ev =>
    obtain rfl := Option.some.inj hstep
    exact ⟨hm, hx, hplain⟩
  | flush h h' id =>
    obtain rfl := Option.some.inj hstep
    have hsame := sameFiles_flushLocalChanges h h' τ.engine τ.pending id
    refine ⟨hsame.manifest.trans hm, hsame.isExcluded.trans hx, ?_⟩
    rw [hsame.tree]
    exact hplain
  | unsuppress ps =>
    obtain rfl := Option.some.inj hstep
    exact ⟨hm, hx, hplain⟩

/-! ## Scans and plans -/

theorem get_buildManifest {h : Host} (hread : ∀ p, h.fails (.read p) = false) (t : Tree)
    (nodeId : String) (isExcluded : PathBuf → Bool) (p : PathBuf) :
    (buildManifest h t nodeId isExcluded).files.get p =
      if isExcluded p then none else (t.get p).map (FileMetadata.ofNode h p) := by
  unfold buildManifest
  rw [FinMap.get_ofKeys]
  by_cases hp : p ∈ t.nodes.keys
  · rw [if_pos hp]
    cases t.get p with
    | none => rfl
    | some n => simp [hread]
  · have hnone : t.get p = none := FinMap.get_eq_none_iff.mpr hp
    rw [if_neg hp, hnone]
    simp

theorem sameFiles_pruneLedger (h : Host) (e : SyncEngine) : SameFiles e (e.pruneLedger h) := by
  unfold SyncEngine.pruneLedger
  dsimp only
  split
  · exact .refl e
  · have hprune : SameFiles e { e with
        ledger := e.ledger.prune h.nowMs deletionLedgerTtlMs, ledgerDirty := true } :=
      ⟨rfl, rfl, rfl⟩
    exact hprune.trans (sameFiles_flushLedger h _)

theorem entries_pruneLedger {h : Host} {e : SyncEngine} {p : PathBuf} {tomb : Tombstone}
    (hp : (e.pruneLedger h).ledger.entries.get p = some tomb) :
    e.ledger.entries.get p = some tomb := by
  unfold SyncEngine.pruneLedger at hp
  dsimp only at hp
  split at hp
  · exact hp
  · rw [SyncEngine.ledger_flushLedger] at hp
    exact (Option.filter_eq_some_iff.mp hp).1

theorem scan_manifest (h : Host) (e : SyncEngine) :
    (e.scan h).manifest = buildManifest h e.tree e.nodeId e.isExcluded :=
  (sameFiles_pruneLedger h _).manifest

theorem scan_tree (h : Host) (e : SyncEngine) : (e.scan h).tree = e.tree :=
  (sameFiles_pruneLedger h _).tree

theorem entries_scan {h : Host} {e : SyncEngine} {p : PathBuf} {tomb : Tombstone}
    (hp : (e.scan h).ledger.entries.get p = some tomb) : e.ledger.entries.get p = some tomb := by
  have hp := entries_pruneLedger hp
  exact hp

theorem sameFiles_exchangeLedgers (hs hc : Host) (server client : SyncEngine) :
    SameFiles server (exchangeLedgers hs hc server client).1 ∧
      SameFiles client (exchangeLedgers hs hc server client).2 :=
  ⟨sameFiles_mergeLedger hs server _, sameFiles_mergeLedger hc client _⟩

theorem computeDeletesToPush_eq_nil {h : Host} {locl remote : Manifest} {l : DeletionLedger}
    (hnone : ∀ p tomb fm, locl.files.get p = none → l.entries.get p = some tomb →
      remote.files.get p = some fm → tomb.deletedAtMs ≤ fm.modifiedMs) :
    computeDeletesToPush h locl remote l = [] := by
  unfold computeDeletesToPush
  rw [List.filterMap_eq_nil_iff.mpr]
  · rfl
  · intro p _
    split
    · rfl
    · next hl =>
      split
      · next tomb fm htomb hfm =>
        have hle := hnone p tomb fm (by simpa using hl) htomb hfm
        rw [if_neg (by omega)]
      · rfl

/-- A plan that holds nothing back deletes nothing of its own. -/
theorem syncPlan_of_admitted {isServer : Bool} {h : Host} {e : SyncEngine} {locl remote : Manifest}
    (hsend : ∀ p ∈ computeSendList h locl remote isServer,
      (resurrectionVerdict locl e.ledger p).1 = true) :
    (syncPlan isServer h e locl remote).2 = e ∧
      (syncPlan isServer h e locl remote).1.toClient = computeSendList h locl remote isServer ∧
      (syncPlan isServer h e locl remote).1.deletes =
        computeDeletesToPush h e.manifest remote e.ledger := by
  have hall : (filterResurrected (computeSendList h locl remote isServer) locl (some e.ledger)).1 =
      computeSendList h locl remote isServer := List.filter_eq_self.mpr hsend
  have hvetoed : ((computeSendList h locl remote isServer).filter fun p =>
      !decide (p ∈ computeSendList h locl remote isServer)) = [] := by
    rw [List.filter_eq_nil_iff]
    intro p hp
    simp [hp]
  have hkept : (syncPlan isServer h e locl remote).2 = e := by
    simp only [syncPlan, hall, hvetoed]
    rfl
  refine ⟨hkept, hall, ?_⟩
  simp only [syncPlan, hall, hvetoed]
  rfl

theorem sendPaths_nil (h : Host) (e : SyncEngine) (schedule : List Nat) :
    e.sendPaths h [] schedule = [] := by
  have hnil : ∀ schedule : List Nat, interleave ([] : List (List Message)) schedule = [] := by
    intro schedule
    induction schedule with
    | nil => rfl
    | cons i schedule ih => exact ih
  exact hnil schedule

/-- A side that has nothing to send sends nothing. -/
theorem planMessages_eq_nil {isServer : Bool} {h : Host} {e : SyncEngine} {locl remote : Manifest}
    (schedule : List Nat) (hsend : computeSendList h locl remote isServer = [])
    (hdel : computeDeletesToPush h e.manifest remote e.ledger = []) :
    (syncPlan isServer h e locl remote).2 = e ∧
      planMessages h (syncPlan isServer h e locl remote).1 (syncPlan isServer h e locl remote).2
        schedule = [] := by
  obtain ⟨he, hto, hpush⟩ : (syncPlan isServer h e locl remote).2 = e ∧ _ ∧ _ :=
    syncPlan_of_admitted (by simp [hsend])
  refine ⟨he, ?_⟩
  rw [planMessages, hto, hpush, hsend, hdel, sendPaths_nil]
  rfl

/-! ## Sessions -/

/-- The manifests list the same paths with the same hashes. -/
def SameHashes (m m' : Manifest) : Prop :=
  ∀ p, (m.files.get p).map FileMetadata.hash = (m'.files.get p).map FileMetadata.hash

theorem SameHashes.symm {m m' : Manifest} (h : SameHashes m m') : SameHashes m' m :=
  fun p => (h p).symm

theorem SameHashes.sendList {m m' : Manifest} (hm : SameHashes m m') (h : Host) (isServer : Bool) :
    computeSendList h m m' isServer = [] := by
  rw [List.eq_nil_iff_forall_not_mem]
  intro p hp
  obtain ⟨lm, hlm, hsend⟩ := mem_computeSendList.mp hp
  have hp := hm p
  rw [hlm] at hp
  obtain ⟨rm, hrm, hhash⟩ := Option.map_eq_some_iff.mp hp.symm
  simp [sendsOver, hrm, hhash] at hsend

theorem SameHashes.deletes {m m' : Manifest} (hm : SameHashes m m') (h : Host)
    (l : DeletionLedger) : computeDeletesToPush h m m' l = [] := by
  refine computeDeletesToPush_eq_nil fun p tomb fm hnone _ hfm => ?_
  have hp := hm p
  rw [hnone, hfm] at hp
  cases hp

/-- With equal manifests nothing is exchanged. -/
theorem initialSync_idle {hs hc : Host} {schedule schedule' : List Nat}
    {server client server' client' : SyncEngine} (hne : server.manifest.files.isEmpty = false)
    (hsame : SameHashes server.manifest (client.scan hc).manifest)
    (hr : initialSync hs hc schedule schedule' server client = some (server', client')) :
    server'.tree = server.tree ∧ client'.tree = client.tree := by
  have hsession : sessionManifest hs server = (server.manifest, server) := by
    simp [sessionManifest, hne]
  obtain ⟨hs₁, hs₂⟩ := planMessages_eq_nil schedule (hsame.sendList hs true)
    (hsame.deletes hs server.ledger)
  obtain ⟨hc₁, hc₂⟩ := planMessages_eq_nil schedule' (hsame.symm.sendList hc false)
    (hsame.symm.deletes hc (client.scan hc).ledger)
  simp only [initialSync, hsession, initialPlan, hs₂, recvAll, Option.bind_some, hc₂,
    Option.map_some, Option.some.injEq, Prod.mk.injEq] at hr
  obtain ⟨rfl, rfl⟩ := hr
  rw [(sameFiles_clearTombstones hs _ _).tree, (sameFiles_clearTombstones hc _ _).tree, hs₁, hc₁,
    scan_tree]
  exact ⟨rfl, rfl⟩

/-- What the server can send to a client that has nothing: no file has more than `2^32` chunks
    and no tombstone on either side is newer than a path that it deletes. -/
structure Sendable (server client : SyncEngine) : Prop where
  length : ∀ p c m, server.isExcluded p = false → server.tree.get p = some (.file c m) →
    c.length ≤ 2 ^ 32 * fileChunkSize
  older : ∀ p n q tomb, server.isExcluded p = false → server.tree.get p = some n → q <+: p →
    (server.ledger.entries.get q = some tomb ∨ client.ledger.entries.get q = some tomb) →
    tomb.deletedAtMs ≤ n.mtime

/-- No tombstone holds back a path of the scan. -/
theorem resurrectionVerdict_of_older {m : Manifest} {l : DeletionLedger} {p : PathBuf}
    (hold : ∀ fm q tomb, m.files.get p = some fm → q <+: p → l.entries.get q = some tomb →
      tomb.deletedAtMs ≤ fm.modifiedMs) : (resurrectionVerdict m l p).1 = true := by
  unfold resurrectionVerdict
  cases hfm : m.files.get p with
  | none => rfl
  | some fm =>
    dsimp only
    cases htomb : l.entries.get p with
    | some tomb =>
      have hle := hold fm p tomb hfm (List.prefix_refl p) htomb
      simp only
      split
      · rfl
      · rw [if_neg]
        simp only [DeletionLedger.hasNewerThan, htomb, decide_eq_true_eq]
        omega
    | none =>
      cases hcover : l.coveringTombstone p with
      | none => rfl
      | some cover =>
        obtain ⟨q, hq, heff⟩ := List.exists_of_findSome?_eq_some hcover
        have hle := hold fm q cover hfm (mem_ancestors.mp hq).2 (Option.filter_eq_some_iff.mp heff).1
        simp only
        split
        · rfl
        · simpa using hle

/-- A client with nothing gets everything from a server that has to scan. -/
theorem initialSync_empty {hs hc : Host} (hb : hs.blake3 = hc.blake3)
    (hread : ∀ p, hs.fails (.read p) = false) {schedule schedule' : List Nat}
    {server client server' client' : SyncEngine} (hempty : server.manifest.files.isEmpty = true)
    (hplain : PlainPaths server.tree) (hrules : client.isExcluded = server.isExcluded)
    (hnothing : ∀ p, server.isExcluded p = false → client.tree.get p = none)
    (hsend : Sendable server client)
    (hr : initialSync hs hc schedule schedule' server client = some (server', client')) :
    ∀ p, server.isExcluded p = false →
      look hc.blake3 client'.tree p = look hc.blake3 server'.tree p := by
  have hsession : sessionManifest hs server = ((server.scan hs).manifest, server.scan hs) := by
    simp [sessionManifest, hempty]
  -- The two manifests: everything on the server, nothing on the client.
  have hlocl : ∀ p, (server.scan hs).manifest.files.get p =
      if server.isExcluded p then none else (server.tree.get p).map (FileMetadata.ofNode hs p) := by
    intro p
    rw [scan_manifest, get_buildManifest hread]
  have hremote : ∀ p, (client.scan hc).manifest.files.get p = none := by
    intro p
    rw [scan_manifest, buildManifest, FinMap.get_ofKeys]
    split
    · rw [hrules]
      cases hx : server.isExcluded p with
      | true => rfl
      | false => simp [hnothing p hx]
    · rfl
  have hlisted : ∀ p fm, (server.scan hs).manifest.files.get p = some fm →
      server.isExcluded p = false ∧ ∃ n, server.tree.get p = some n ∧ fm.modifiedMs = n.mtime := by
    intro p fm hfm
    rw [hlocl] at hfm
    split at hfm
    · cases hfm
    · next hx =>
      obtain ⟨n, hn, rfl⟩ := Option.map_eq_some_iff.mp hfm
      exact ⟨by simpa using hx, n, hn, ofNode_modifiedMs hs p n⟩
  have hverdict : ∀ p ∈ computeSendList hs (server.scan hs).manifest (client.scan hc).manifest true,
      (resurrectionVerdict (server.scan hs).manifest (server.scan hs).ledger p).1 = true := by
    intro p _
    refine resurrectionVerdict_of_older fun fm q tomb hfm hq htomb => ?_
    obtain ⟨hx, n, hn, hm⟩ := hlisted p fm hfm
    rw [hm]
    exact hsend.older p n q tomb hx hn hq (.inl (entries_scan htomb))
  obtain ⟨hs₁, hto, hpush⟩ : (syncPlan true hs (server.scan hs) (server.scan hs).manifest
      (client.scan hc).manifest).2 = server.scan hs ∧ _ ∧ _ := syncPlan_of_admitted hverdict
  have hnopush : computeDeletesToPush hs (server.scan hs).manifest (client.scan hc).manifest
      (server.scan hs).ledger = [] := by
    refine computeDeletesToPush_eq_nil fun p tomb fm _ _ hfm => ?_
    rw [hremote p] at hfm
    cases hfm
  set ps := computeSendList hs (server.scan hs).manifest (client.scan hc).manifest true with hps
  have hmem : ∀ p, p ∈ ps ↔ server.isExcluded p = false ∧ ∃ n, server.tree.get p = some n := by
    intro p
    rw [hps, mem_computeSendList, hremote p]
    constructor
    · rintro ⟨lm, hlm, -⟩
      obtain ⟨hx, n, hn, -⟩ := hlisted p lm hlm
      exact ⟨hx, n, hn⟩
    · rintro ⟨hx, n, hn⟩
      exact ⟨_, by rw [hlocl p, if_neg (by simp [hx]), hn]; rfl, rfl⟩
  have hnodup : ps.Nodup := (hs.order.nodup _).filter _
  -- The client receives all of it.
  simp only [initialSync, hsession, initialPlan] at hr
  obtain ⟨client₁, hrecv, hr⟩ := Option.bind_eq_some_iff.mp hr
  rw [planMessages, hto, hpush, hnopush, List.map_nil, List.nil_append, hs₁] at hrecv
  have hemits := emits_sendPaths hread (server.scan hs) hnodup schedule
  rw [scan_tree] at hemits
  have hstamp : ∀ p m, m ≤ ((server.scan hs).wireActionStamp p m).getD m := by
    intro p m
    unfold SyncEngine.wireActionStamp
    split
    · exact le_max_right _ _
    · exact le_rfl
  have hadmits : Admits server.tree (server.scan hs).wireActionStamp ps (client.scan hc).ledger := by
    intro p hp n hn q tomb hq htomb
    have hx := ((hmem p).mp hp).1
    exact (hsend.older p n q tomb hx hn hq (.inr (entries_scan htomb))).trans (hstamp p n.mtime)
  have hnc : NoConflict hc.blake3 server.tree ps (client.scan hc).manifest (client.scan hc).tree := by
    intro q _ fm hfm
    rw [hremote q] at hfm
    cases hfm
  have hsafe : ∀ p ∈ ps, safeRelative p = true := by
    intro p hp
    obtain ⟨-, n, hn⟩ := (hmem p).mp hp
    exact hplain p n hn
  have hlen : ∀ p ∈ ps, ∀ c m, server.tree.get p = some (.file c m) →
      c.length ≤ 2 ^ 32 * fileChunkSize :=
    fun p hp c m hn => hsend.length p c m ((hmem p).mp hp).1 hn
  obtain ⟨hrec, harrived⟩ := recvAll_received hb hsafe hlen hemits hadmits hnc hrecv
  -- It has nothing to send in return.
  have hback : computeSendList hc (client.scan hc).manifest (server.scan hs).manifest false = [] := by
    rw [List.eq_nil_iff_forall_not_mem]
    intro p hp
    obtain ⟨lm, hlm, -⟩ := mem_computeSendList.mp hp
    rw [hremote p] at hlm
    cases hlm
  have hnoback : computeDeletesToPush hc client₁.manifest (server.scan hs).manifest
      client₁.ledger = [] := by
    refine computeDeletesToPush_eq_nil fun p tomb fm _ htomb hfm => ?_
    obtain ⟨hx, n, hn, hm⟩ := hlisted p fm hfm
    rw [hm]
    exact hsend.older p n p tomb hx hn (List.prefix_refl p)
      (.inr (entries_scan (hrec.tombstones p tomb htomb)))
  obtain ⟨hc₁, hc₂⟩ := planMessages_eq_nil schedule' hback hnoback
  rw [hc₂] at hr
  obtain ⟨hserver, hclient⟩ := Prod.mk.inj (Option.some.inj hr)
  have htree : server'.tree = server.tree := by
    rw [← hserver, (sameFiles_clearTombstones hs _ _).tree, hs₁, scan_tree]
  have htree' : client'.tree = client₁.tree := by
    rw [← hclient, (sameFiles_clearTombstones hc _ _).tree, hc₁]
  intro p hx
  rw [htree, htree']
  cases hn : server.tree.get p with
  | some n => exact harrived p ((hmem p).mpr ⟨hx, n, hn⟩) (by simp [hn])
  | none =>
    have hnone : look hc.blake3 server.tree p = none := look_eq_none_iff.mpr hn
    rcases hrec.tree p with ht | ⟨-, ht⟩ | ⟨-, -, hsrc⟩
    · rw [ht, scan_tree, hnone]
      exact look_eq_none_iff.mpr (hnothing p hx)
    · exact ht
    · rw [hnone] at hsrc
      cases hsrc

/-! ## A client that comes back -/

/-- The trees hold the same, outside what is excluded. -/
def AgreeOn (blake3 : Content → Hash) (isExcluded : PathBuf → Bool) (t t' : Tree) : Prop :=
  ∀ p, isExcluded p = false → look blake3 t p = look blake3 t' p

/-- The client is in sync with the server, and the manifest of the server with its files. -/
structure InSync (blake3 : Content → Hash) (server client : SyncEngine) : Prop where
  rules : client.isExcluded = server.isExcluded
  listed : ∀ p, (server.manifest.files.get p).map FileMetadata.hash =
    if server.isExcluded p then none else (look blake3 server.tree p).map (·.getD 0)
  agree : AgreeOn blake3 server.isExcluded client.tree server.tree
  plain : PlainPaths server.tree

/-- A client that was in sync is away during any local run of the server and has changed
    nothing itself when its next session completes.

    When the cached manifest is not empty the client holds what the server holds exactly if
    the run has left the files as they were. When it is empty, the client holds what the
    server holds if it can be sent at all. -/
theorem offline_changes_reach (blake3 : Content → Hash) (hs hc : Host) (hsb : hs.blake3 = blake3)
    (hcb : hc.blake3 = blake3) (hsread : ∀ p, hs.fails (.read p) = false)
    (hcread : ∀ p, hc.fails (.read p) = false) (schedule schedule' : List Nat)
    (server client : SyncEngine) (hsync : InSync blake3 server client) (pending : PendingChanges)
    (evs : List LocalEvent) (σ : LocalState)
    (hrun : Run.runFrom LocalState.step ⟨server, pending⟩ evs = some σ)
    (server' client' : SyncEngine)
    (hsession : runSession hs hc schedule schedule' σ.engine client = some (server', client')) :
    (server.manifest.files.isEmpty = false →
      (AgreeOn blake3 server.isExcluded client'.tree server'.tree ↔
        AgreeOn blake3 server.isExcluded server.tree σ.engine.tree)) ∧
    (server.manifest.files.isEmpty = true →
      Sendable (exchangeLedgers hs hc σ.engine client).1 (exchangeLedgers hs hc σ.engine client).2 →
        AgreeOn blake3 server.isExcluded client'.tree server'.tree) := by
  obtain ⟨hmanifest, hrules, hplain⟩ := localRun_keeps hsync.plain hrun
  obtain ⟨hserver, hclient⟩ := sameFiles_exchangeLedgers hs hc σ.engine client
  dsimp only at hmanifest hrules
  unfold runSession at hsession
  dsimp only at hsession
  generalize (exchangeLedgers hs hc σ.engine client).1 = server₁ at *
  generalize (exchangeLedgers hs hc σ.engine client).2 = client₁ at *
  have hcached : server₁.manifest = server.manifest := hserver.manifest.trans hmanifest
  constructor
  · intro hne
    -- The scan of the client gives what the server has cached.
    have hsame : SameHashes server₁.manifest (client₁.scan hc).manifest := by
      intro p
      rw [hcached, hsync.listed p, scan_manifest, get_buildManifest hcread, hclient.isExcluded,
        hclient.tree, hsync.rules]
      cases hx : server.isExcluded p with
      | true => rfl
      | false =>
        have hp := hsync.agree p hx
        rw [if_neg (by simp), if_neg (by simp), ← hp, look]
        cases client.tree.get p with
        | none => rfl
        | some n => simp [ofNode_hash, hcb]
    obtain ⟨ht, ht'⟩ := initialSync_idle (by rw [hcached]; exact hne) hsame hsession
    rw [ht, ht', hserver.tree, hclient.tree]
    constructor
    · exact fun hag p hx => (hsync.agree p hx).symm.trans (hag p hx)
    · exact fun hag p hx => (hsync.agree p hx).trans (hag p hx)
  · intro hempty hsend p hx
    have hx₁ : server₁.isExcluded p = false := by
      rw [hserver.isExcluded, hrules]
      exact hx
    -- Nothing was listed, so the client had nothing.
    have hnothing : ∀ p, server₁.isExcluded p = false → client₁.tree.get p = none := by
      intro p hx
      rw [hserver.isExcluded, hrules] at hx
      have hlisted := hsync.listed p
      have hget : server.manifest.files.get p = none :=
        FinMap.keys_eq_empty_iff.mp (of_decide_eq_true hempty) p
      rw [hget, hx, if_neg (by simp), ← hsync.agree p hx] at hlisted
      have hlook : look blake3 client.tree p = none := by simpa using hlisted.symm
      rw [hclient.tree]
      exact look_eq_none_iff.mp hlook
    have hplain₁ : PlainPaths server₁.tree := by
      rw [hserver.tree]
      exact hplain
    have hrules₁ : client₁.isExcluded = server₁.isExcluded := by
      rw [hclient.isExcluded, hserver.isExcluded, hrules, hsync.rules]
    rw [← hcb]
    exact initialSync_empty (hsb.trans hcb.symm) hsread (by rw [hcached]; exact hempty) hplain₁
      hrules₁ hnothing hsend hsession p hx₁

/-- A server that has just scanned is in sync with a client that holds the same. -/
theorem inSync_scan {h : Host} (hread : ∀ p, h.fails (.read p) = false) {server client : SyncEngine}
    (hrules : client.isExcluded = server.isExcluded)
    (hagree : AgreeOn h.blake3 server.isExcluded client.tree server.tree)
    (hplain : PlainPaths server.tree) : InSync h.blake3 (server.scan h) client := by
  have hsame : (server.scan h).isExcluded = server.isExcluded :=
    (sameFiles_pruneLedger h _).isExcluded
  refine ⟨hrules.trans hsame.symm, ?_, ?_, ?_⟩
  · intro p
    rw [scan_manifest, get_buildManifest hread, hsame, scan_tree]
    cases server.isExcluded p with
    | true => rfl
    | false =>
      rw [if_neg (by simp), if_neg (by simp), look]
      cases server.tree.get p with
      | none => rfl
      | some n => simp [ofNode_hash]
  · rw [hsame, scan_tree]
    exact hagree
  · rw [scan_tree]
    exact hplain

private def lengthHost : Host := .reliable (fun c => BitVec.ofNat 256 (c.length + 1)) 1000

/-- A root with the file `a`. -/
private def rootWithA : Tree := ((FileTree.empty : Tree).write (PathBuf.ofNames ["a"]) [1] 10).getD .empty

private theorem plain_rootWithA : PlainPaths rootWithA := by
  intro p n hp
  have hget : rootWithA.get p = if p = PathBuf.ofNames ["a"] then some (.file [1] 10) else none := rfl
  rw [hget] at hp
  split at hp
  · next hpa =>
    rw [hpa]
    rfl
  · cases hp

private def scannedServer : SyncEngine :=
  (SyncEngine.new "server" (fun _ => false) rootWithA .new).scan lengthHost

private def awayClient : SyncEngine := .new "client" (fun _ => false) rootWithA .new

private theorem inSync_scannedServer : InSync lengthHost.blake3 scannedServer awayClient :=
  inSync_scan (fun _ => rfl) rfl (fun _ _ => rfl) plain_rootWithA

/-- The file `b` is created on the server, seen by its watcher and flushed. -/
private def createsB : List LocalEvent :=
  [.change (.write (.ofNames ["b"]) [2] 20), .observe lengthHost (.writeComplete (.ofNames ["b"])),
    .flush lengthHost lengthHost 0]

theorem offline_changes_reach_create :
    ∃ σ server' client', Run.runFrom LocalState.step ⟨scannedServer, .new⟩ createsB = some σ ∧
      runSession lengthHost lengthHost [] [] σ.engine awayClient = some (server', client') ∧
      (AgreeOn lengthHost.blake3 (fun _ => false) client'.tree server'.tree ↔
        AgreeOn lengthHost.blake3 (fun _ => false) rootWithA σ.engine.tree) := by
  have hobs : (Run.runFrom LocalState.step ⟨scannedServer, .new⟩ createsB).any fun σ =>
      (runSession lengthHost lengthHost [] [] σ.engine awayClient).any fun _ =>
        scannedServer.manifest.files.isEmpty = false := by decide +kernel
  simp only [Option.any_eq_true, decide_eq_true_eq] at hobs
  obtain ⟨σ, hσ, r, hr, hne⟩ := hobs
  exact ⟨σ, r.1, r.2, hσ, hr, (offline_changes_reach lengthHost.blake3 lengthHost lengthHost rfl rfl
    (fun _ => rfl) (fun _ => rfl) [] [] scannedServer awayClient inSync_scannedServer .new createsB σ
    hσ r.1 r.2 hr).1 hne⟩

/-- After the session the server still has `b`, and the client has not got it. -/
theorem offline_create_lost :
    ∃ σ server' client', InSync lengthHost.blake3 scannedServer awayClient ∧
      Run.runFrom LocalState.step ⟨scannedServer, .new⟩ createsB = some σ ∧
      σ.pending.ready = ∅ ∧ σ.pending.changes = ∅ ∧
      runSession lengthHost lengthHost [] [] σ.engine awayClient = some (server', client') ∧
      ¬ AgreeOn lengthHost.blake3 (fun _ => false) client'.tree server'.tree := by
  have hobs : (Run.runFrom LocalState.step ⟨scannedServer, .new⟩ createsB).any fun σ =>
      (runSession lengthHost lengthHost [] [] σ.engine awayClient).any fun r =>
        σ.pending.ready = ∅ ∧ σ.pending.changes = ∅ ∧
          look lengthHost.blake3 r.1.tree (.ofNames ["b"]) = some (some 2) ∧
          look lengthHost.blake3 r.2.tree (.ofNames ["b"]) = none := by decide +kernel
  simp only [Option.any_eq_true, decide_eq_true_eq] at hobs
  obtain ⟨σ, hσ, r, hr, hready, hchanges, hserver, hclient⟩ := hobs
  refine ⟨σ, r.1, r.2, inSync_scannedServer, hσ, hready, hchanges, hr, fun hagree => ?_⟩
  have hb := hagree (.ofNames ["b"]) rfl
  rw [hserver, hclient] at hb
  cases hb

end ByteHive
