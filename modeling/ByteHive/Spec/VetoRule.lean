import ByteHive.Native.Manifest
import ByteHive.Spec.LedgerJoin

/-!
# When a write is vetoed

A write of `p` is meant to be vetoed when a tombstone at `p` or above it is newer than the
write and than the live record of `p`. The ledger looks at one tombstone only, the nearest
one that is newer than the live record. Where deletes are nested, an old one near `p` can
hide a newer one above.

The sender decides on its own, before it offers a file. It looks at the same tombstone but
lets a file pass whose content and time tell that it is not the version that was deleted;
the receiver knows no such exception.

## Key results

- `veto_iff`: when the nearest tombstone decides as all of them would
- `filterResurrected_agrees_iff`: when sender and receiver decide alike
-/

namespace ByteHive

namespace DeletionLedger

/-- A tombstone that applies to `p` is newer than `s`. -/
def CoveredAfter (l : DeletionLedger) (p : PathBuf) (s : Nat) : Prop :=
  ∃ q t, l.Applies p q t ∧ s < t.deletedAtMs

/-- When the nearest of the tombstones that apply to `p` is not newer than `s`, none of them
    is. -/
def NearestDecides (l : DeletionLedger) (p : PathBuf) (s : Nat) : Prop :=
  ∀ q t, l.Applies p q t → (∀ r u, l.Applies p r u → r <+: q) → t.deletedAtMs ≤ s →
    ∀ r u, l.Applies p r u → u.deletedAtMs ≤ s

theorem hasNewerThanPrefix_iff {l : DeletionLedger} {p : PathBuf} {s : Nat} :
    l.hasNewerThanPrefix p s = true ↔
      ∃ q t, l.Applies p q t ∧ (∀ r u, l.Applies p r u → r <+: q) ∧ s < t.deletedAtMs := by
  unfold hasNewerThanPrefix
  constructor
  · intro h
    cases hc : l.coveringTombstone p with
    | none => simp [hc] at h
    | some t =>
      obtain ⟨q, hq, hall⟩ := coveringTombstone_eq_some_iff.mp hc
      rw [hc] at h
      exact ⟨q, t, hq, hall, of_decide_eq_true h⟩
  · rintro ⟨q, t, hq, hall, hlt⟩
    rw [coveringTombstone_eq_some_iff.mpr ⟨q, hq, hall⟩]
    exact decide_eq_true hlt

/-- The nearest tombstone of those that apply. -/
theorem exists_nearest {l : DeletionLedger} {p q : PathBuf} {t : Tombstone}
    (h : l.Applies p q t) : ∃ r u, l.Applies p r u ∧ ∀ r' u', l.Applies p r' u' → r' <+: r := by
  obtain ⟨hmem, heffective⟩ := applies_iff.mp h
  cases hc : l.coveringTombstone p with
  | none =>
    have hnone := List.findSome?_eq_none_iff.mp hc q hmem
    rw [heffective] at hnone
    cases hnone
  | some u =>
    obtain ⟨r, hr, hall⟩ := coveringTombstone_eq_some_iff.mp hc
    exact ⟨r, u, hr, hall⟩

theorem hasNewerThanPrefix_agrees_iff {l : DeletionLedger} {p : PathBuf} {s : Nat} :
    (l.hasNewerThanPrefix p s = true ↔ l.CoveredAfter p s) ↔ l.NearestDecides p s := by
  rw [hasNewerThanPrefix_iff]
  constructor
  · intro hagrees q t hq hall hle r u hr
    by_contra hnot
    obtain ⟨q', t', hq', hall', hlt⟩ := hagrees.mpr ⟨r, u, hr, by omega⟩
    -- there is one nearest tombstone
    have hqq' : q = q' := (hall' q t hq).eq_of_length
      (le_antisymm (hall' q t hq).length_le (hall q' t' hq').length_le)
    rw [← hqq'] at hq'
    have htt' : t = t' := Option.some.inj (hq.stored.symm.trans hq'.stored)
    rw [← htt'] at hlt
    omega
  · intro hdecides
    constructor
    · rintro ⟨q, t, hq, -, hlt⟩
      exact ⟨q, t, hq, hlt⟩
    · rintro ⟨q, t, hq, hlt⟩
      obtain ⟨r, u, hr, hall⟩ := exists_nearest hq
      refine ⟨r, u, hr, hall, ?_⟩
      by_contra hnot
      have hle := hdecides r u hr hall (by omega) q t hq
      omega

end DeletionLedger

namespace SyncEngine

theorem vetoFor_isSome_iff {e : SyncEngine} {p : PathBuf} {actionMs : Option Nat}
    {modifiedMs : Nat} :
    (e.vetoFor p actionMs modifiedMs).isSome = true ↔
      e.ledger.hasNewerThanPrefix p (actionMs.getD modifiedMs) = true := by
  unfold vetoFor DeletionLedger.hasNewerThanPrefix
  rw [Option.isSome_map]
  cases e.ledger.coveringTombstone p with
  | none => simp
  | some t =>
    by_cases hlt : actionMs.getD modifiedMs < t.deletedAtMs <;> simp [Option.filter_some, hlt]

/-- Both checks report a veto as the rule of all covering tombstones does, exactly if the nearest
    tombstone decides. -/
theorem veto_iff (e : SyncEngine) (p : PathBuf) (actionMs : Option Nat) (modifiedMs : Nat) :
    ((e.ledger.hasNewerThanPrefix p (actionMs.getD modifiedMs) = true ↔
        e.ledger.CoveredAfter p (actionMs.getD modifiedMs)) ∧
      ((e.vetoFor p actionMs modifiedMs).isSome = true ↔
        e.ledger.CoveredAfter p (actionMs.getD modifiedMs))) ↔
    e.ledger.NearestDecides p (actionMs.getD modifiedMs) := by
  rw [vetoFor_isSome_iff, and_self]
  exact DeletionLedger.hasNewerThanPrefix_agrees_iff

/-- `d/x` was deleted at 50 and the directory `d` at 100. -/
def nestedDeletes : DeletionLedger :=
  ((DeletionLedger.new.record (.ofNames ["d", "x"]) 50 "n" none none).record (.ofNames ["d"]) 100 "n"
    none none)

/-- The old delete hides the newer one of the directory. -/
theorem nested_delete_not_vetoed :
    nestedDeletes.CoveredAfter (.ofNames ["d", "x"]) 70 ∧
      nestedDeletes.hasNewerThanPrefix (.ofNames ["d", "x"]) 70 = false ∧
      (SyncEngine.new "node" (fun _ => false) .empty nestedDeletes).vetoFor (.ofNames ["d", "x"])
        none 70 = none := by
  refine ⟨⟨.ofNames ["d"], ⟨.ofNames ["d"], 100, "n", none, none⟩, ?_, by decide⟩,
    by decide +kernel, by decide +kernel⟩
  exact ⟨by decide, by decide, by decide +kernel, fun a ha => by cases ha⟩

end SyncEngine

/-! ## What the sender holds back -/

/-- The local copy may be the version that the tombstone is about: it has the content that was
    deleted or is no newer than it, as far as the tombstone says. -/
def LooksDeleted (tomb : Tombstone) (m : FileMetadata) : Prop :=
  (∀ prev, tomb.prevHash = some prev → hex m.hash = prev) ∨
    ∀ prevMtime, tomb.prevMtimeMs = some prevMtime → m.modifiedMs ≤ prevMtime

/-- A newer tombstone at `p` itself is about a version that the local copy looks like. At the root,
    which no scan lists, the receiver vetoes nothing, so there it is the other way round. -/
def TombstoneFits (l : DeletionLedger) (p : PathBuf) (m : FileMetadata) : Prop :=
  ∀ tomb, l.entries.get p = some tomb → m.modifiedMs < tomb.deletedAtMs →
    (LooksDeleted tomb m ↔ p ≠ [])

theorem mem_filterResurrected {sendList : List PathBuf} {locl : Manifest} {l : DeletionLedger}
    {p : PathBuf} (hp : p ∈ sendList) :
    p ∈ (filterResurrected sendList locl (some l)).1 ↔ (resurrectionVerdict locl l p).1 = true := by
  unfold filterResurrected
  rw [List.mem_filter]
  exact ⟨fun h => h.2, fun h => ⟨hp, h⟩⟩

/-- With a tombstone at the path, the sender holds back what looks deleted. -/
theorem verdict_of_tombstone {locl : Manifest} {l : DeletionLedger} {p : PathBuf}
    {m : FileMetadata} {tomb : Tombstone} (hm : locl.files.get p = some m)
    (htomb : l.entries.get p = some tomb) :
    (resurrectionVerdict locl l p).1 = true ↔
      tomb.deletedAtMs ≤ m.modifiedMs ∨ ¬ LooksDeleted tomb m := by
  unfold resurrectionVerdict DeletionLedger.hasNewerThan LooksDeleted
  simp only [hm, htomb]
  split
  · next hlt =>
    -- a recreate
    exact ⟨fun _ => .inl hlt.le, fun _ => rfl⟩
  · next hle =>
    by_cases hnewer : m.modifiedMs < tomb.deletedAtMs
    · have hnot : ¬ tomb.deletedAtMs ≤ m.modifiedMs := by omega
      simp only [hnewer, decide_true, if_true, hnot, false_or]
      cases tomb.prevHash <;> cases tomb.prevMtimeMs <;> simp
    · have heq : tomb.deletedAtMs ≤ m.modifiedMs := by omega
      simp [hnewer, heq]

/-- Without one, it holds back what a tombstone above is newer than. -/
theorem verdict_of_none {locl : Manifest} {l : DeletionLedger} {p : PathBuf}
    {m : FileMetadata} (hm : locl.files.get p = some m) (htomb : l.entries.get p = none) :
    (resurrectionVerdict locl l p).1 = true ↔ l.hasNewerThanPrefix p m.modifiedMs = false := by
  unfold resurrectionVerdict DeletionLedger.hasNewerThanPrefix
  simp only [hm, htomb]
  cases l.coveringTombstone p with
  | none => simp
  | some cover =>
    simp only
    split
    · next hlt => simp only [true_iff, decide_eq_false_iff_not]; omega
    · simp

namespace SyncEngine

/-- The stamp that the sender puts on a file makes no difference to the tombstones that apply:
    they are newer than the live record. -/
theorem veto_wireActionStamp_iff {e : SyncEngine} {p : PathBuf} {modifiedMs : Nat} :
    (e.vetoFor p (e.wireActionStamp p modifiedMs) modifiedMs).isSome = true ↔
      e.ledger.hasNewerThanPrefix p modifiedMs = true := by
  rw [vetoFor_isSome_iff, DeletionLedger.hasNewerThanPrefix_iff,
    DeletionLedger.hasNewerThanPrefix_iff]
  refine exists_congr fun q => exists_congr fun t => and_congr_right fun happlies =>
    and_congr_right fun _ => ?_
  have hnewer := happlies.newer
  unfold wireActionStamp DeletionLedger.aliveSince
  cases halive : e.ledger.alive.get p with
  | none => simp
  | some a =>
    have hlt := hnewer a halive
    rw [Option.getD_some]
    split
    · rw [Option.getD_some]
      omega
    · rw [Option.getD_none]

/-- With a tombstone at the path it is this one that decides. -/
theorem hasNewerThanPrefix_of_tombstone {l : DeletionLedger} (hl : l.Normal) {p : PathBuf}
    (hp : p ≠ []) {tomb : Tombstone} (htomb : l.entries.get p = some tomb) (s : Nat) :
    l.hasNewerThanPrefix p s = true ↔ s < tomb.deletedAtMs := by
  have happlies : l.Applies p p tomb :=
    ⟨List.prefix_refl p, hp, htomb, fun a ha => hl.newer p tomb a htomb ha⟩
  have hcover : l.coveringTombstone p = some tomb :=
    DeletionLedger.coveringTombstone_eq_some_iff.mpr ⟨p, happlies, fun r u hr => hr.covers⟩
  unfold DeletionLedger.hasNewerThanPrefix
  simp [hcover]

/-- Sender and receiver with one ledger agree on a path of the local manifest exactly if a newer
    tombstone at the path is about a version that the local copy looks like. -/
theorem filterResurrected_agrees_iff {e : SyncEngine} (hl : e.ledger.Normal) {locl : Manifest}
    {p : PathBuf} {m : FileMetadata} (hm : locl.files.get p = some m) {sendList : List PathBuf}
    (hp : p ∈ sendList) :
    (p ∈ (filterResurrected sendList locl (some e.ledger)).1 ↔
      e.vetoFor p (e.wireActionStamp p m.modifiedMs) m.modifiedMs = none) ↔
    TombstoneFits e.ledger p m := by
  rw [mem_filterResurrected hp, ← Option.not_isSome_iff_eq_none, veto_wireActionStamp_iff]
  cases htomb : e.ledger.entries.get p with
  | none =>
    have hfits : TombstoneFits e.ledger p m := by
      intro tomb hsome
      rw [htomb] at hsome
      cases hsome
    rw [verdict_of_none hm htomb, Bool.not_eq_true]
    exact ⟨fun _ => hfits, fun _ => Iff.rfl⟩
  | some tomb =>
    have hfits : TombstoneFits e.ledger p m ↔
        (m.modifiedMs < tomb.deletedAtMs → (LooksDeleted tomb m ↔ p ≠ [])) := by
      unfold TombstoneFits
      rw [htomb]
      exact ⟨fun h => h tomb rfl, fun h t ht => by cases ht; exact h⟩
    rw [verdict_of_tombstone hm htomb, hfits]
    by_cases hroot : p = []
    · -- nothing covers the root
      have hnone : e.ledger.hasNewerThanPrefix p m.modifiedMs = false := by rw [hroot]; rfl
      rw [hnone]
      by_cases hlt : m.modifiedMs < tomb.deletedAtMs
      · have hnot : ¬ tomb.deletedAtMs ≤ m.modifiedMs := by omega
        simp [hlt, hnot, hroot]
      · have hle : tomb.deletedAtMs ≤ m.modifiedMs := by omega
        simp [hlt, hle]
    · rw [hasNewerThanPrefix_of_tombstone hl hroot htomb]
      by_cases hlt : m.modifiedMs < tomb.deletedAtMs
      · have hnot : ¬ tomb.deletedAtMs ≤ m.modifiedMs := by omega
        simp [hlt, hnot, hroot]
      · have hle : tomb.deletedAtMs ≤ m.modifiedMs := by omega
        simp [hlt, hle]

/-- `a` was deleted at 200; the version that was deleted was of 50. -/
def deletedA : SyncEngine :=
  .new "node" (fun _ => false) .empty
    (DeletionLedger.new.record (.ofNames ["a"]) 200 "n" (some "0") (some 50))

/-- The local copy of `a`. -/
def copyOfA (modifiedMs : Nat) : FileMetadata :=
  { relPath := .ofNames ["a"], size := 1, hash := 1, modifiedMs, changeSequence := 0
    isDir := false }

/-- A manifest with `a` alone. -/
def listsA (modifiedMs : Nat) : Manifest :=
  ⟨FinMap.empty.insert (.ofNames ["a"]) (copyOfA modifiedMs), "node"⟩

theorem deletedA_normal : deletedA.ledger.Normal where
  newer p tomb a _ ha := by cases ha
  positive p a ha := by cases ha

theorem filterResurrected_agrees_unchanged :
    (.ofNames ["a"] ∈ (filterResurrected [.ofNames ["a"]] (listsA 50) (some deletedA.ledger)).1 ↔
      deletedA.vetoFor (.ofNames ["a"])
        (deletedA.wireActionStamp (.ofNames ["a"]) (copyOfA 50).modifiedMs) (copyOfA 50).modifiedMs =
          none) ↔
    TombstoneFits deletedA.ledger (.ofNames ["a"]) (copyOfA 50) :=
  filterResurrected_agrees_iff deletedA_normal rfl (List.mem_singleton.mpr rfl)

/-- A version changed after the one that was deleted, but before the delete: it is offered and
    vetoed. -/
theorem changed_copy_offered_and_vetoed :
    deletedA.ledger.Normal ∧
      .ofNames ["a"] ∈ (filterResurrected [.ofNames ["a"]] (listsA 100) (some deletedA.ledger)).1 ∧
      deletedA.vetoFor (.ofNames ["a"]) (deletedA.wireActionStamp (.ofNames ["a"]) 100) 100 =
        some (.ofNames ["a"]) :=
  ⟨deletedA_normal, by decide +kernel, by decide +kernel⟩

end SyncEngine

end ByteHive
