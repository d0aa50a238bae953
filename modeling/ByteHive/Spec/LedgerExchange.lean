import ByteHive.Native.Session
import ByteHive.Spec.LedgerJoin
import ByteHive.Spec.Resurrection

/-!
# The exchange of ledgers

Both sides merge what the other holds. Afterwards they agree on the live records and on
the stamps of the tombstones. What a tombstone remembers of the deleted content travels
with it; where both sides hold a tombstone with the same stamp, each keeps its own.

Key results:
- `Reached.wellKept`: the form of every ledger that engine operations lead to
- `exchangeLedgers_agree`: what the two sides share after the exchange
-/

namespace ByteHive

namespace DeletionLedger

/-- A ledger in normal form whose tombstones lie under their own paths. -/
structure WellKept (l : DeletionLedger) : Prop where
  normal : l.Normal
  keyed : ∀ p tomb, l.entries.get p = some tomb → tomb.path = p

/-- A merge brings tombstones under their own paths. -/
def LedgerCall.Keyed : LedgerCall → Prop
  | .mergeRemote remote => ∀ p tomb, remote.get p = some tomb → tomb.path = p
  | _ => True

theorem offered_eq_some {l : DeletionLedger} {p : PathBuf} {tomb t : Tombstone}
    (h : l.offered p tomb = some t) : l.entries.get p = some t ∨ t = tomb := by
  unfold offered at h
  split at h
  · exact .inl h
  · split at h
    · next he =>
      split at h
      · exact .inl (he.trans h)
      · exact .inr (Option.some.inj h).symm
    · exact .inr (Option.some.inj h).symm

theorem mergeRemote_eq_some {l : DeletionLedger} {remote : FinMap PathBuf Tombstone} {p : PathBuf}
    {t : Tombstone} (h : (l.mergeRemote remote).entries.get p = some t) :
    l.entries.get p = some t ∨ remote.get p = some t := by
  rw [get_mergeRemote] at h
  cases hr : remote.get p with
  | none =>
    rw [hr] at h
    exact .inl h
  | some tomb =>
    rw [hr] at h
    rcases offered_eq_some h with h | rfl
    · exact .inl h
    · exact .inr rfl

theorem WellKept.runCall {l : DeletionLedger} (hl : l.WellKept) {c : LedgerCall} (hc : c.Keyed) :
    (l.runCall c).WellKept := by
  refine ⟨hl.normal.runCall c, fun p t ht => ?_⟩
  cases c with
  | record q d n ph pm =>
    rw [DeletionLedger.runCall, get_record] at ht
    split at ht
    · next hpq =>
      rcases offered_eq_some ht with ht | rfl
      · exact (hl.keyed q t ht).trans hpq.symm
      · exact hpq.symm
    · exact hl.keyed p t ht
  | recordAlive q a =>
    rw [DeletionLedger.runCall, get_entries_recordAlive] at ht
    split at ht
    · next hpq => exact (hl.keyed q t (Option.filter_eq_some_iff.mp ht).1).trans hpq.1.symm
    · exact hl.keyed p t ht
  | mergeRemote remote =>
    rcases mergeRemote_eq_some ht with ht | ht
    · exact hl.keyed p t ht
    · exact hc p t ht

theorem Called.wellKept {l l' : DeletionLedger} (h : Called LedgerCall.Keyed l l')
    (hl : l.WellKept) : l'.WellKept :=
  h.induct (fun _ _ hc hl => hl.runCall hc) hl

theorem wellKept_new : new.WellKept := ⟨normal_new, (fun _ _ ht => nomatch ht)⟩

theorem WellKept.prune {l : DeletionLedger} (hl : l.WellKept) (nowMs ttlMs : Nat) :
    (l.prune nowMs ttlMs).WellKept :=
  ⟨hl.normal.prune nowMs ttlMs, fun p t ht => hl.keyed p t (Option.filter_eq_some_iff.mp ht).1⟩

theorem WellKept.remove {l : DeletionLedger} (hl : l.WellKept) (q : PathBuf) :
    (l.remove q).2.WellKept := by
  have hget : ∀ p t, (l.remove q).2.entries.get p = some t → l.entries.get p = some t := by
    intro p t ht
    simp only [DeletionLedger.remove, FinMap.get_erase] at ht
    split at ht
    · cases ht
    · exact ht
  exact ⟨⟨fun p t a ht ha => hl.normal.newer p t a (hget p t ht) ha, hl.normal.positive⟩,
    fun p t ht => hl.keyed p t (hget p t ht)⟩

end DeletionLedger

/-! ## Engines that can occur -/

namespace SyncEngine

open DeletionLedger

/-- The engines that operations lead to from a new one with an empty ledger. -/
inductive Reached : SyncEngine → Prop where
  | new (nodeId : String) (isExcluded : PathBuf → Bool) (tree : Tree) :
    Reached (.new nodeId isExcluded tree .new)
  | op {e : SyncEngine} (op : Host × EngineOp) : Reached e → Reached (e.runOp op)
  | recordDelete {e : SyncEngine} (h : Host) (p : PathBuf) (t : Nat) (d : String)
    (ph : Option String) (pm : Option Nat) : Reached e → Reached (e.recordDelete h p t d ph pm)
  | stageDelete {e : SyncEngine} (p : PathBuf) (t : Nat) : Reached e → Reached (e.stageDelete p t)
  | stageLiveAction {e : SyncEngine} (p : PathBuf) (a : Nat) :
    Reached e → Reached (e.stageLiveAction p a)
  | clearTombstones {e : SyncEngine} (h : Host) (ps : List PathBuf) :
    Reached e → Reached (e.clearTombstones h ps)
  | pruneLedger {e : SyncEngine} (h : Host) : Reached e → Reached (e.pruneLedger h)
  /-- Whatever leaves the ledger alone. -/
  | other {e e' : SyncEngine} : e'.ledger = e.ledger → Reached e → Reached e'

/-- What `merge_ledger` takes for tombstones lies under its own paths. -/
theorem keyed_remoteTombstones (dtos : List TombstoneDto) :
    ∀ p tomb, (remoteTombstones dtos).get p = some tomb → tomb.path = p := by
  intro p tomb hp
  obtain ⟨d, -, -, hpath, rfl⟩ := mem_of_get_remoteTombstones hp
  exact hpath

theorem called_runOp_keyed (e : SyncEngine) (op : Host × EngineOp) :
    Called LedgerCall.Keyed e.ledger (e.runOp op).ledger := by
  obtain ⟨h, op⟩ := op
  cases op with
  | bundle b => exact called_applyBundle h e fun _ _ _ => trivial
  | largeFileStart md n a => exact called_beginLargeFileWithAction h e n fun _ => trivial
  | largeFileChunk p i data => simpa [runOp] using Called.refl e.ledger
  | largeFileEnd p fh => exact called_finishLargeFile h e fh fun _ _ _ => trivial
  | largeFileCommit p fh => exact called_commitLargeFile h e fh fun _ _ _ => trivial
  | rename f g a d => exact called_applyRenameAt h e f trivial fun _ _ => trivial
  | deletes ps t d => exact called_applyDeletes h e ps fun _ _ _ _ => trivial
  | mergeLedger dtos =>
    exact called_mergeLedger h e (fun _ _ => trivial) (keyed_remoteTombstones dtos)
  | recordLiveActions actions => exact called_recordLiveActions h e fun _ _ => trivial

/-- The form of every ledger. -/
theorem Reached.wellKept {e : SyncEngine} (he : Reached e) : e.ledger.WellKept := by
  induction he with
  | new nodeId isExcluded tree => exact wellKept_new
  | op op _ ih => exact (called_runOp_keyed _ op).wellKept ih
  | recordDelete h p t d ph pm _ ih =>
    rw [SyncEngine.recordDelete, ledger_flushLedger]
    exact ih.runCall (c := .record p t d ph pm) trivial
  | stageDelete p t _ ih => exact ih.runCall (c := .record p t _ _ _) trivial
  | stageLiveAction p a _ ih =>
    unfold SyncEngine.stageLiveAction
    split
    · exact ih.runCall (c := .recordAlive p a) trivial
    · exact ih
  | clearTombstones h ps _ ih =>
    unfold SyncEngine.clearTombstones
    split
    · exact ih
    · rw [ledger_flushLedger, ledger_ledgerMut]
      have hall : ∀ (ps : List PathBuf) (l : DeletionLedger), l.WellKept →
          (removeAll l ps).2.WellKept := by
        intro ps
        induction ps with
        | nil => exact fun _ hl => hl
        | cons q ps ih => exact fun l hl => ih _ (hl.remove q)
      exact hall ps _ ih
  | pruneLedger h _ ih =>
    unfold SyncEngine.pruneLedger
    dsimp only
    split
    · exact ih
    · rw [ledger_flushLedger]
      exact ih.prune _ _
  | other hledger _ ih =>
    rw [hledger]
    exact ih

/-! ## One merge -/

theorem remoteAlive_ledgerEntries (h : Host) (e : SyncEngine) :
    remoteAlive (e.ledgerEntries h) = (h.order.toList e.ledger.alive.keys).filterMap fun p =>
      (e.ledger.alive.get p).map fun a => (p, a) := by
  unfold remoteAlive ledgerEntries
  rw [List.filter_append, List.filter_eq_nil_iff.mpr, List.nil_append, List.filter_eq_self.mpr,
    List.map_filterMap]
  · simp [Option.map_map, Function.comp_def]
  · intro d hd
    obtain ⟨p, -, hp⟩ := List.mem_filterMap.mp hd
    obtain ⟨a, -, rfl⟩ := Option.map_eq_some_iff.mp hp
    rfl
  · intro d hd
    obtain ⟨p, -, hp⟩ := List.mem_filterMap.mp hd
    obtain ⟨t, -, rfl⟩ := Option.map_eq_some_iff.mp hp
    simp

/-- A ledger sends exactly its tombstones. -/
theorem remoteTombstones_ledgerEntries (h : Host) {e : SyncEngine} (he : e.ledger.WellKept) :
    remoteTombstones (e.ledgerEntries h) = e.ledger.entries := by
  -- Each of the tombstones sent is the one stored under its path.
  have hfold : ∀ (ds : List TombstoneDto) (m : FinMap PathBuf Tombstone) (p : PathBuf),
      (∀ d ∈ ds, e.ledger.entries.get d.path =
        some ⟨d.path, d.deletedAtMs, d.deleterNode, d.prevHash, d.prevMtimeMs⟩) →
      (ds.foldl (fun m d => m.insert d.path
        ⟨d.path, d.deletedAtMs, d.deleterNode, d.prevHash, d.prevMtimeMs⟩) m).get p =
        if ∃ d ∈ ds, d.path = p then e.ledger.entries.get p else m.get p := by
    intro ds
    induction ds with
    | nil => simp
    | cons d ds ih =>
      intro m p hds
      rw [List.foldl_cons, ih _ p fun d' hd' => hds d' (by simp [hd']), FinMap.get_insert]
      by_cases hin : ∃ d' ∈ ds, d'.path = p
      · obtain ⟨d', hd', hp⟩ := hin
        rw [if_pos ⟨d', hd', hp⟩, if_pos ⟨d', by simp [hd'], hp⟩]
      · rw [if_neg hin]
        by_cases hdp : d.path = p
        · rw [if_pos hdp.symm, if_pos ⟨d, by simp, hdp⟩, ← hdp, hds d (by simp)]
        · rw [if_neg (Ne.symm hdp), if_neg]
          rintro ⟨d', hd', hp⟩
          rcases List.mem_cons.mp hd' with rfl | hd'
          · exact hdp hp
          · exact hin ⟨d', hd', hp⟩
  have htombs : ((e.ledgerEntries h).filter fun d => !d.alive) =
      (h.order.toList e.ledger.entries.keys).filterMap fun p => (e.ledger.entries.get p).map fun t =>
        ⟨t.path, t.deletedAtMs, t.deleterNode, t.prevHash, t.prevMtimeMs, false⟩ := by
    unfold ledgerEntries
    rw [List.filter_append, List.filter_eq_self.mpr, List.filter_eq_nil_iff.mpr, List.append_nil]
    · intro d hd
      obtain ⟨p, -, hp⟩ := List.mem_filterMap.mp hd
      obtain ⟨a, -, rfl⟩ := Option.map_eq_some_iff.mp hp
      simp
    · intro d hd
      obtain ⟨p, -, hp⟩ := List.mem_filterMap.mp hd
      obtain ⟨t, -, rfl⟩ := Option.map_eq_some_iff.mp hp
      rfl
  refine FinMap.ext_get fun p => ?_
  rw [remoteTombstones, htombs, hfold]
  · split
    · rfl
    · next hnone =>
      rw [FinMap.get_empty]
      cases hp : e.ledger.entries.get p with
      | none => rfl
      | some t =>
        refine absurd ⟨⟨t.path, t.deletedAtMs, t.deleterNode, t.prevHash, t.prevMtimeMs, false⟩, ?_,
          he.keyed p t hp⟩ hnone
        exact List.mem_filterMap.mpr ⟨p, (h.order.mem_toList _ _).mpr (FinMap.mem_keys_of_get hp),
          by rw [hp]; rfl⟩
  · intro d hd
    obtain ⟨q, -, hq⟩ := List.mem_filterMap.mp hd
    obtain ⟨t, ht, rfl⟩ := Option.map_eq_some_iff.mp hq
    dsimp only
    rw [he.keyed q t ht, ht, ← he.keyed q t ht]

theorem mergeRemote_empty (l : DeletionLedger) {remote : FinMap PathBuf Tombstone}
    (h : ∀ p, remote.get p = none) : l.mergeRemote remote = l := by
  have hentries : (l.mergeRemote remote).entries = l.entries := by
    refine FinMap.ext_get fun p => ?_
    rw [get_mergeRemote, h p]
  rw [show l.mergeRemote remote = ⟨(l.mergeRemote remote).entries, l.alive⟩ from rfl, hentries]

/-- `merge_ledger` on the entries of another engine is a merge of the two ledgers. -/
theorem ledger_mergeLedger (h h' : Host) (e : SyncEngine) {e' : SyncEngine}
    (he' : e'.ledger.WellKept) :
    (e.mergeLedger h (e'.ledgerEntries h')).2.ledger = merge h'.order e.ledger e'.ledger := by
  unfold mergeLedger merge
  rw [← remoteAlive_ledgerEntries, ← remoteTombstones_ledgerEntries h' he']
  split
  · next hnil =>
    rw [hnil, mergeRemote_empty]
    · rfl
    · exact fun p => rfl
  · rw [ledger_flushLedger, ledger_ledgerMut]

end SyncEngine

namespace DeletionLedger

theorem get_entries_recordAll (l : DeletionLedger) (actions : List (PathBuf × Nat)) (p : PathBuf) :
    (SyncEngine.recordAll l actions).2.entries.get p =
      (l.entries.get p).filter fun t => (stampsIn actions p).all fun a => decide (a < t.deletedAtMs) := by
  induction actions generalizing l with
  | nil =>
    show l.entries.get p = _
    cases l.entries.get p <;> rfl
  | cons x actions ih =>
    obtain ⟨q, a⟩ := x
    show (SyncEngine.recordAll (l.recordAlive q a).2 actions).2.entries.get p = _
    rw [ih, get_entries_recordAlive]
    by_cases hqp : p = q ∧ 0 < a
    · obtain ⟨rfl, ha⟩ := hqp
      have hcons : stampsIn ((p, a) :: actions) p = a :: stampsIn actions p := by
        simp [stampsIn, ha]
      rw [if_pos ⟨rfl, ha⟩, hcons]
      cases l.entries.get p with
      | none => rfl
      | some t =>
        by_cases hlt : a < t.deletedAtMs <;> simp [List.all_cons, hlt, Option.filter_some]
    · rw [if_neg hqp]
      have hskip : stampsIn ((q, a) :: actions) p = stampsIn actions p := by
        unfold stampsIn
        rw [List.filterMap_cons_none]
        rw [if_neg]
        rintro ⟨rfl, ha⟩
        exact hqp ⟨rfl, ha⟩
      rw [hskip]

/-- A tombstone of a merge comes from one of the two sides. -/
theorem merge_eq_some {order : HashOrder} {l r : DeletionLedger} {p : PathBuf} {t : Tombstone}
    (h : (merge order l r).entries.get p = some t) :
    l.entries.get p = some t ∨ r.entries.get p = some t := by
  rcases mergeRemote_eq_some h with h | h
  · rw [get_entries_recordAll] at h
    exact .inl (Option.filter_eq_some_iff.mp h).1
  · exact .inr h

/-- In a tie a side keeps its own tombstone. -/
theorem merge_keeps {order : HashOrder} {l r : DeletionLedger} (hr : r.Normal)
    {p : PathBuf} {t t' : Tombstone} (ht : l.entries.get p = some t)
    (ht' : r.entries.get p = some t') (htie : t'.deletedAtMs = t.deletedAtMs) :
    (merge order l r).entries.get p = some t := by
  have hkept : (SyncEngine.recordAll l ((order.toList r.alive.keys).filterMap fun q =>
      (r.alive.get q).map fun a => (q, a))).2.entries.get p = some t := by
    rw [get_entries_recordAll, ht, Option.filter_some, if_pos]
    rw [List.all_eq_true]
    intro a ha
    have hmax := List.le_maximum_of_mem' ha
    rw [maximum_stampsIn order hr] at hmax
    cases halive : r.alive.get p with
    | none =>
      rw [halive, stampOf_none] at hmax
      exact absurd hmax (by simp)
    | some b =>
      rw [halive, stampOf_some] at hmax
      have hab : a ≤ b := WithBot.coe_le_coe.mp hmax
      have hb := hr.newer p t' b ht' halive
      simp only [decide_eq_true_eq]
      omega
  rw [merge, get_mergeRemote, ht']
  simp only [hkept]
  split
  · rfl
  · rw [if_pos (by omega)]

end DeletionLedger

/-! ## The exchange -/

/-- What `filter_resurrected` reads of a tombstone. -/
def Tombstone.prev (t : Tombstone) : Option String × Option Nat := (t.prevHash, t.prevMtimeMs)

open SyncEngine DeletionLedger in
/-- After the exchange both sides hold the same live records and the same stamps of tombstones.
    A tombstone is the same in all its fields, unless both sides held one with this stamp before
    the exchange; then each side has kept its own. -/
theorem exchangeLedgers_agree (hs hc : Host) (server client : SyncEngine) (hserver : Reached server)
    (hclient : Reached client) (p : PathBuf) :
    let x := exchangeLedgers hs hc server client
    x.1.ledger.alive.get p = x.2.ledger.alive.get p ∧
    x.1.ledger.deletedAt p = x.2.ledger.deletedAt p ∧
    (server.ledger.deletedAt p ≠ client.ledger.deletedAt p →
      x.1.ledger.entries.get p = x.2.ledger.entries.get p) ∧
    (server.ledger.deletedAt p = client.ledger.deletedAt p →
      ∀ t, x.1.ledger.entries.get p = some t → server.ledger.entries.get p = some t ∧
        x.2.ledger.entries.get p = client.ledger.entries.get p) := by
  intro x
  have hs₁ := hserver.wellKept
  have hc₁ := hclient.wellKept
  have hx₂ : x.2.ledger = merge hs.order client.ledger server.ledger :=
    ledger_mergeLedger hc hs client hs₁
  have hx₂' : x.2.ledger.WellKept :=
    (called_mergeLedger hc client (fun _ _ => trivial) (keyed_remoteTombstones _)).wellKept hc₁
  have hx₁ : x.1.ledger = merge hc.order server.ledger x.2.ledger :=
    ledger_mergeLedger hs hc server hx₂'
  have hstamps : x.1.ledger.stamps p = x.2.ledger.stamps p := by
    rw [hx₁, stamps_merge hc.order hs₁.normal hx₂'.normal, hx₂,
      stamps_merge hs.order hc₁.normal hs₁.normal, LwwPair.visible_sup_visible_right, sup_comm,
      sup_assoc, sup_idem]
  obtain ⟨halive, hdeleted⟩ := stamps_eq_iff.mp hstamps
  have hfrom₂ : ∀ t, x.2.ledger.entries.get p = some t →
      client.ledger.entries.get p = some t ∨ server.ledger.entries.get p = some t := by
    intro t ht
    rw [hx₂] at ht
    exact merge_eq_some ht
  have hfrom₁ : ∀ t, x.1.ledger.entries.get p = some t →
      server.ledger.entries.get p = some t ∨ client.ledger.entries.get p = some t := by
    intro t ht
    rw [hx₁] at ht
    rcases merge_eq_some ht with ht | ht
    · exact .inl ht
    · exact (hfrom₂ t ht).symm
  refine ⟨halive, hdeleted, fun hne => ?_, fun htie t ht => ?_⟩
  · -- Two different tombstones would come from the two sides and have one stamp.
    unfold deletedAt at hdeleted hne
    cases h₁ : x.1.ledger.entries.get p with
    | none =>
      rw [h₁] at hdeleted
      exact (Option.map_eq_none_iff.mp hdeleted.symm).symm
    | some t₁ =>
      rw [h₁, Option.map_some] at hdeleted
      obtain ⟨t₂, h₂, hstamp⟩ := Option.map_eq_some_iff.mp hdeleted.symm
      rw [h₂]
      rcases hfrom₁ t₁ h₁ with hb₁ | hb₁
      · rcases hfrom₂ t₂ h₂ with hb₂ | hb₂
        · exact absurd (by rw [hb₁, hb₂, Option.map_some, Option.map_some, hstamp]) hne
        · exact hb₁.symm.trans hb₂
      · rcases hfrom₂ t₂ h₂ with hb₂ | hb₂
        · exact hb₁.symm.trans hb₂
        · exact absurd (by rw [hb₁, hb₂, Option.map_some, Option.map_some, hstamp]) hne
  · -- Both sides hold a tombstone with the stamp, and no live record is as new.
    unfold deletedAt at hdeleted htie
    rw [ht, Option.map_some] at hdeleted
    obtain ⟨t₂, h₂, hstamp⟩ := Option.map_eq_some_iff.mp hdeleted.symm
    obtain ⟨ts, tc, hts, htc, hsame⟩ : ∃ ts tc, server.ledger.entries.get p = some ts ∧
        client.ledger.entries.get p = some tc ∧ ts.deletedAtMs = tc.deletedAtMs := by
      rcases hfrom₁ t ht with hb | hb
      · rw [hb, Option.map_some] at htie
        obtain ⟨tc, htc, he⟩ := Option.map_eq_some_iff.mp htie.symm
        exact ⟨t, tc, hb, htc, he.symm⟩
      · rw [hb, Option.map_some] at htie
        obtain ⟨ts, hts, he⟩ := Option.map_eq_some_iff.mp htie
        exact ⟨ts, t, hts, hb, he⟩
    have hkeep₂ : x.2.ledger.entries.get p = some tc := by
      rw [hx₂]
      exact merge_keeps hs₁.normal htc hts hsame
    have hkeep₁ : x.1.ledger.entries.get p = some ts := by
      rw [hx₁]
      exact merge_keeps hx₂'.normal hts hkeep₂ hsame.symm
    rw [hkeep₁] at ht
    exact ⟨hts.trans ht, hkeep₂.trans htc.symm⟩

private def plainHost : Host := .reliable (fun _ => 0) 1000

private def newEngine (nodeId : String) : SyncEngine := .new nodeId (fun _ => false) .empty .new

private def deletesA : Host × SyncEngine.EngineOp :=
  (plainHost, .deletes [.ofNames ["a"]] 5 "client")

/-- A server that had `a` when the delete came. -/
private def serverHadA : SyncEngine :=
  ((newEngine "server").runOp
    (plainHost, .bundle ⟨[⟨⟨.ofNames ["a"], 1, 0, 3, 0, false⟩, [1], none⟩], 0⟩)).runOp deletesA

private theorem reached_serverHadA : SyncEngine.Reached serverHadA :=
  .op _ (.op _ (.new "server" (fun _ => false) .empty))

theorem exchangeLedgers_agree_after_delete :
    let x := exchangeLedgers plainHost plainHost serverHadA (newEngine "client")
    x.1.ledger.entries.get (.ofNames ["a"]) = x.2.ledger.entries.get (.ofNames ["a"]) := by
  intro x
  have hne : serverHadA.ledger.deletedAt (.ofNames ["a"]) ≠
      (newEngine "client").ledger.deletedAt (.ofNames ["a"]) := by decide +kernel
  exact (exchangeLedgers_agree plainHost plainHost serverHadA (newEngine "client") reached_serverHadA
    (.new "client" (fun _ => false) .empty) (.ofNames ["a"])).2.2.1 hne

/-- The client has deleted `a` with the same stamp, but its manifest did not list it: after the
    exchange the two tombstones remember different content. -/
theorem exchangeLedgers_tie :
    ∃ server client, SyncEngine.Reached server ∧ SyncEngine.Reached client ∧
      let x := exchangeLedgers plainHost plainHost server client
      (x.1.ledger.entries.get (.ofNames ["a"])).map Tombstone.prev ≠
        (x.2.ledger.entries.get (.ofNames ["a"])).map Tombstone.prev := by
  refine ⟨serverHadA, (newEngine "client").runOp deletesA, reached_serverHadA,
    .op _ (.new "client" (fun _ => false) .empty), ?_⟩
  decide +kernel

end ByteHive
