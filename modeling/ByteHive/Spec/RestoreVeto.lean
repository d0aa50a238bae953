import ByteHive.Spec.TrashData
import ByteHive.Spec.VetoRule

/-!
# Whether a restored file is vetoed

A restore lifts the tombstones at and below the path that the entry was deleted from, so that what
comes back is not taken for a file that should be gone. The veto looks elsewhere: at the
destination and at everything above it. A directory that was deleted after one of its children
vetoes the restored child, and a destination of the caller's choice may have a tombstone of its
own.
-/

namespace ByteHive

/-! ## Lifting tombstones -/

namespace DeletionLedger

theorem ext_get {l l' : DeletionLedger} (hentries : ∀ q, l.entries.get q = l'.entries.get q)
    (halive : l.alive = l'.alive) : l = l' :=
  congrArg₂ mk (FinMap.ext_get hentries) halive

/-- The ledger without the tombstones at or below one of the paths. -/
def withoutBelow (l : DeletionLedger) (pres : List PathBuf) : DeletionLedger :=
  { l with entries := l.entries.filter fun k _ => !pres.any (decide <| · <+: k) }

theorem get_withoutBelow (l : DeletionLedger) (pres : List PathBuf) (q : PathBuf) :
    (l.withoutBelow pres).entries.get q =
      if ∃ pre ∈ pres, pre <+: q then none else l.entries.get q := by
  have hany : (pres.any fun pre => decide (pre <+: q)) = decide (∃ pre ∈ pres, pre <+: q) := by
    rw [Bool.eq_iff_iff]
    simp
  rw [withoutBelow, FinMap.get_filter]
  simp only [hany]
  by_cases h : ∃ pre ∈ pres, pre <+: q
  · cases l.entries.get q <;> simp [h, Option.filter_some]
  · cases l.entries.get q <;> simp only [h] <;> simp [Option.filter_some]

end DeletionLedger

namespace SyncEngine

theorem get_removeAll (l : DeletionLedger) (ps : List PathBuf) (q : PathBuf) :
    (removeAll l ps).2.entries.get q = if q ∈ ps then none else l.entries.get q := by
  induction ps generalizing l with
  | nil => simp [removeAll]
  | cons p ps ih =>
    rw [removeAll, ih, DeletionLedger.remove]
    simp only [FinMap.get_erase, List.mem_cons]
    by_cases hp : q = p
    · simp [hp]
    · simp [hp]

theorem alive_removeAll (l : DeletionLedger) (ps : List PathBuf) :
    (removeAll l ps).2.alive = l.alive := by
  induction ps generalizing l with
  | nil => rfl
  | cons p ps ih => rw [removeAll, ih, DeletionLedger.remove]

theorem ledger_clearTombstones (h : Host) (e : SyncEngine) (ps : List PathBuf) :
    (e.clearTombstones h ps).ledger = (removeAll e.ledger ps).2 := by
  unfold clearTombstones
  split
  · next hnil => rw [hnil, removeAll]
  · rw [ledger_flushLedger, ledgerMut]

theorem ledger_clearLedgerPrefix (h : Host) (e : SyncEngine) (pre : PathBuf) :
    (e.clearLedgerPrefix h pre).ledger = e.ledger.withoutBelow [pre] := by
  apply DeletionLedger.ext_get
  · intro q
    rw [clearLedgerPrefix, ledger_clearTombstones, get_removeAll, DeletionLedger.get_withoutBelow]
    by_cases hpre : pre <+: q
    · cases hq : e.ledger.entries.get q with
      | none => simp
      | some t =>
        have hmem : q ∈ e.ledger.entries.keys := FinMap.mem_keys_of_get hq
        simp [hpre, h.order.mem_toList, hmem]
    · simp [hpre]
  · rw [clearLedgerPrefix, ledger_clearTombstones, alive_removeAll]
    rfl

/-- `clear_ledger_prefix` for several paths in turn. -/
theorem ledger_clearLedgerPrefixes (h : Host) (e : SyncEngine) (pres : List PathBuf) :
    (pres.foldl (clearLedgerPrefix h) e).ledger = e.ledger.withoutBelow pres := by
  induction pres generalizing e with
  | nil =>
    apply DeletionLedger.ext_get
    · intro q
      rw [DeletionLedger.get_withoutBelow]
      simp
    · rfl
  | cons pre pres ih =>
    rw [List.foldl_cons, ih, ledger_clearLedgerPrefix]
    apply DeletionLedger.ext_get
    · intro q
      simp only [DeletionLedger.get_withoutBelow, List.mem_cons, exists_eq_or_imp]
      by_cases hpre : pre <+: q
      · simp [hpre]
      · simp [hpre]
    · rfl

end SyncEngine

/-! ## What the veto and the sender's filter let through -/

/-- The bytes of a file; `json` is what `serde_json` writes for an index. -/
def TrashFile.content (json : List TrashEntry → Content) : TrashFile → Content
  | .bytes c => c
  | .index entries => json entries

/-- A node of the root as a scan lists it. -/
def scanned (h : Host) (json : List TrashEntry → Content) (q : PathBuf) :
    FileNode TrashFile → FileMetadata
  | .dir m => .ofNode h q (.dir m)
  | .file f m => .ofNode h q (.file (f.content json) m)

@[simp] theorem modifiedMs_scanned (h : Host) (json : List TrashEntry → Content) (q : PathBuf)
    (n : FileNode TrashFile) : (scanned h json q n).modifiedMs = n.mtime := by
  cases n with
  | dir m => rfl
  | file f m => rfl

/-- The receiver's veto and the sender's filter both let a file or directory `m` at `q` pass; the
    sender whenever its manifest lists what is there. -/
structure Passes (e : SyncEngine) (q : PathBuf) (m : FileMetadata) : Prop where
  veto : e.vetoFor q none m.modifiedMs = none
  sent : ∀ (locl : Manifest) (sendList : List PathBuf) (m' : FileMetadata),
    locl.files.get q = some m' → m'.hash = m.hash → m'.modifiedMs = m.modifiedMs →
      q ∈ sendList → q ∈ (filterResurrected sendList locl (some e.ledger)).1

theorem LooksDeleted.congr {tomb : Tombstone} {m m' : FileMetadata} (hhash : m'.hash = m.hash)
    (hmtime : m'.modifiedMs = m.modifiedMs) : LooksDeleted tomb m' ↔ LooksDeleted tomb m := by
  rw [LooksDeleted, LooksDeleted, hhash, hmtime]

theorem passes_iff {e : SyncEngine} {q : PathBuf} {m : FileMetadata} :
    Passes e q m ↔ e.ledger.hasNewerThanPrefix q m.modifiedMs = false ∧
      ∀ tomb, e.ledger.entries.get q = some tomb →
        tomb.deletedAtMs ≤ m.modifiedMs ∨ ¬ LooksDeleted tomb m := by
  have hveto : e.vetoFor q none m.modifiedMs = none ↔
      e.ledger.hasNewerThanPrefix q m.modifiedMs = false := by
    rw [← Option.not_isSome_iff_eq_none, SyncEngine.vetoFor_isSome_iff, Option.getD_none,
      Bool.not_eq_true]
  constructor
  · intro h
    refine ⟨hveto.mp h.veto, fun tomb htomb => ?_⟩
    -- The manifest with this entry alone.
    have hlists : (FinMap.empty.insert q m).get q = some m := by simp
    have hsent := h.sent ⟨_, e.nodeId⟩ [q] m hlists rfl rfl (List.mem_singleton.mpr rfl)
    rw [mem_filterResurrected (List.mem_singleton.mpr rfl)] at hsent
    exact (verdict_of_tombstone hlists htomb).mp hsent
  · intro ⟨hnearest, hown⟩
    refine ⟨hveto.mpr hnearest, fun locl sendList m' hm' hhash hmtime hq => ?_⟩
    rw [mem_filterResurrected hq]
    cases htomb : e.ledger.entries.get q with
    | none => rwa [verdict_of_none hm' htomb, hmtime]
    | some tomb =>
      rw [verdict_of_tombstone hm' htomb, LooksDeleted.congr hhash hmtime, hmtime]
      exact hown tomb htomb

/-! ## After a restore -/

/-- The tombstones that do not lie at or below `original` let `m` at `q` pass: the nearest of those
    that apply is not newer, and one at `q` itself is not newer or about another version. -/
structure LetsPass (l : DeletionLedger) (original q : PathBuf) (m : FileMetadata) : Prop where
  nearest : ∀ a t, l.Applies q a t → ¬ original <+: a →
    (∀ b u, l.Applies q b u → ¬ original <+: b → b <+: a) → t.deletedAtMs ≤ m.modifiedMs
  own : ∀ t, l.entries.get q = some t → ¬ original <+: q →
    t.deletedAtMs ≤ m.modifiedMs ∨ ¬ LooksDeleted t m

theorem applies_withoutBelow_iff {l : DeletionLedger} {pre q a : PathBuf} {t : Tombstone} :
    (l.withoutBelow [pre]).Applies q a t ↔ l.Applies q a t ∧ ¬ pre <+: a := by
  have hstored : (l.withoutBelow [pre]).entries.get a = some t ↔
      l.entries.get a = some t ∧ ¬ pre <+: a := by
    rw [DeletionLedger.get_withoutBelow]
    by_cases hpre : pre <+: a
    · simp [hpre]
    · simp [hpre]
  constructor
  · intro h
    obtain ⟨hget, hout⟩ := hstored.mp h.stored
    exact ⟨⟨h.covers, h.ne_nil, hget, h.newer⟩, hout⟩
  · intro ⟨h, hout⟩
    exact ⟨h.covers, h.ne_nil, hstored.mpr ⟨h.stored, hout⟩, h.newer⟩

theorem passes_withoutBelow_iff {e : SyncEngine} {l : DeletionLedger} {pre q : PathBuf}
    {m : FileMetadata} (he : e.ledger = l.withoutBelow [pre]) :
    Passes e q m ↔ LetsPass l pre q m := by
  have hnewer : e.ledger.hasNewerThanPrefix q m.modifiedMs = false ↔
      ∀ a t, l.Applies q a t → ¬ pre <+: a →
        (∀ b u, l.Applies q b u → ¬ pre <+: b → b <+: a) → t.deletedAtMs ≤ m.modifiedMs := by
    rw [← Bool.not_eq_true, DeletionLedger.hasNewerThanPrefix_iff, he]
    simp only [applies_withoutBelow_iff]
    constructor
    · intro hnot a t happlies hout hall
      by_contra hlt
      exact hnot ⟨a, t, ⟨happlies, hout⟩, fun b u hb => hall b u hb.1 hb.2, by omega⟩
    · intro hle ⟨a, t, happlies, hall, hlt⟩
      have hat := hle a t happlies.1 happlies.2 fun b u hb hbout => hall b u ⟨hb, hbout⟩
      omega
  have hown : (∀ tomb, e.ledger.entries.get q = some tomb →
        tomb.deletedAtMs ≤ m.modifiedMs ∨ ¬ LooksDeleted tomb m) ↔
      ∀ t, l.entries.get q = some t → ¬ pre <+: q →
        t.deletedAtMs ≤ m.modifiedMs ∨ ¬ LooksDeleted t m := by
    rw [he, DeletionLedger.get_withoutBelow]
    by_cases hpre : pre <+: q
    · simp [hpre]
    · simp [hpre]
  rw [passes_iff, hnewer, hown]
  exact ⟨fun h => ⟨h.1, h.2⟩, fun h => ⟨h.nearest, h.own⟩⟩

namespace TrashedEngine

open TrashManager

variable {h : Host} {s s' : TrashedEngine} {id : String} {dest : Option PathBuf}
  {destRel : PathBuf} {e : TrashEntry}

/-- The data is restored, and the tombstones at and below the original path go. -/
theorem restore_ok (he : s.listTrash.find? (·.id = id) = some e)
    (hok : s.restoreTrashEntryWithDest h id dest = some (.ok destRel, s')) :
    restoreEntryWithDest s.root h.nowMs id dest = some (.ok destRel, s'.root) ∧
      s'.engine.ledger = s.engine.ledger.withoutBelow [e.originalPath] := by
  rw [restoreTrashEntryWithDest] at hok
  split at hok
  · cases hok
  · cases hok
  · next dest' root hres =>
    simp only [Option.some.injEq, Prod.mk.injEq, Except.ok.injEq] at hok
    obtain ⟨rfl, rfl⟩ := hok
    refine ⟨hres, ?_⟩
    rw [clearLedgerPrefixes, originalPath?, he]
    exact SyncEngine.ledger_clearLedgerPrefixes h s.engine [e.originalPath]

theorem destRel_eq (he : s.listTrash.find? (·.id = id) = some e)
    (hok : restoreEntryWithDest s.root h.nowMs id dest = some (.ok destRel, s'.root)) :
    destRel = dest.getD e.originalPath := by
  obtain ⟨t, hdata, -⟩ := restoreEntry_ok hok
  obtain ⟨e', he', -, -, hdest, -⟩ := restoreData_ok hdata
  obtain rfl : e = e' := Option.some.inj (he.symm.trans he')
  exact hdest

/-- Everything that a restore put at and below the destination passes, exactly if the restore left
    nothing there or the tombstones that are not lifted let all of it pass. -/
theorem restored_passes_iff (json : List TrashEntry → Content)
    (he : s.listTrash.find? (·.id = id) = some e) (hmade : Made e)
    (hok : s.restoreTrashEntryWithDest h id dest = some (.ok destRel, s')) :
    (∀ q n, skipCurDir destRel <+: q → s'.root.get q = some n →
      Passes s'.engine q (scanned h json q n)) ↔
    trashIdDir id <+: skipCurDir (dest.getD e.originalPath) ∨
      skipCurDir (dest.getD e.originalPath) = trashIndexTmp ∨
      ∀ r n, s.root.get (dataPath e ++ r) = some n →
        LetsPass s.engine.ledger e.originalPath (skipCurDir (dest.getD e.originalPath) ++ r)
          (scanned h json (skipCurDir (dest.getD e.originalPath) ++ r) n) := by
  obtain ⟨hroot, hledger⟩ := restore_ok he hok
  have hget := get_restoreEntry hroot he hmade
  rw [← destRel_eq he hroot]
  by_cases hgone : trashIdDir id <+: skipCurDir destRel ∨ skipCurDir destRel = trashIndexTmp
  · -- Nothing is left at the destination.
    have hnone : ∀ q n, skipCurDir destRel <+: q → s'.root.get q = some n → False := by
      intro q n hpre hn
      obtain ⟨r, rfl⟩ := hpre
      rw [hget, if_pos hgone] at hn
      cases hn
    constructor
    · intro _
      exact hgone.imp_right .inl
    · intro _ q n hpre hn
      exact (hnone q n hpre hn).elim
  · simp only [if_neg hgone] at hget
    rw [not_or] at hgone
    simp only [hgone.1, hgone.2, false_or]
    constructor
    · intro hall r n hn
      rw [← hget] at hn
      exact (passes_withoutBelow_iff hledger).mp (hall _ n (List.prefix_append _ r) hn)
    · intro hall q n hpre hn
      obtain ⟨r, rfl⟩ := hpre
      rw [hget] at hn
      exact (passes_withoutBelow_iff hledger).mpr (hall r n hn)

/-! ## A child of a directory that was deleted later -/

/-- The root after `d/a`, last changed at 10, was moved to the trash at 50. -/
def childTrashed : Option TrashTree := do
  let t ← (FileTree.empty : TrashTree).createDirAll 5 (PathBuf.ofNames ["d"])
  let t ← t.write (PathBuf.ofNames ["d", "a"]) (.bytes [1]) 10
  moveToTrash t 50 (trashId 50000000 0) (.ofNames ["d", "a"]) "n"

/-- The same after the directory `d` followed at 100. -/
def bothTrashed : Option TrashTree := do
  let t ← childTrashed
  moveToTrash t 100 (trashId 100000000 1) (.ofNames ["d"]) "n"

def childDeleted : DeletionLedger :=
  DeletionLedger.new.record (.ofNames ["d", "a"]) 50 "n" none none

def bothDeleted : DeletionLedger := childDeleted.record (.ofNames ["d"]) 100 "n" none none

/-- An engine with this root and this ledger. -/
def trashed (root : Option TrashTree) (ledger : DeletionLedger) : TrashedEngine :=
  ⟨.new "n" (fun _ => false) .empty ledger, root.getD .empty, none⟩

private theorem toOption_eq_some {ε α : Type} {r : Except ε α} {a : α} (h : r.toOption = some a) :
    r = .ok a := by
  cases r with
  | error err => cases h
  | ok b => cases h; rfl

/-- The restored child is vetoed for the later delete of its directory, and not sent. -/
theorem restored_child_vetoed :
    ∃ s' n, (trashed bothTrashed bothDeleted).restoreTrashEntryWithDest
        (.reliable (fun _ => 0) 1000) (trashId 50000000 0) none =
          some (.ok (.ofNames ["d", "a"]), s') ∧
      s'.root.get (PathBuf.ofNames ["d", "a"]) = some n ∧
      s'.engine.vetoFor (.ofNames ["d", "a"]) none n.mtime = some (.ofNames ["d"]) ∧
      ∀ (locl : Manifest) (m : FileMetadata),
        locl.files.get (PathBuf.ofNames ["d", "a"]) = some m → m.modifiedMs = n.mtime →
          PathBuf.ofNames ["d", "a"] ∉ (filterResurrected [PathBuf.ofNames ["d", "a"]] locl
            (some s'.engine.ledger)).1 := by
  have hrun : ((trashed bothTrashed bothDeleted).restoreTrashEntryWithDest
      (.reliable (fun _ => 0) 1000) (trashId 50000000 0) none).map (fun r =>
        (r.1.toOption, r.2.root.get (PathBuf.ofNames ["d", "a"]),
          r.2.engine.vetoFor (.ofNames ["d", "a"]) none 10,
          (r.2.engine.ledger.entries.get (PathBuf.ofNames ["d", "a"])).isNone &&
            r.2.engine.ledger.hasNewerThanPrefix (.ofNames ["d", "a"]) 10)) =
      some (some (.ofNames ["d", "a"]), some (.file (.bytes [1]) 10), some (.ofNames ["d"]),
        true) := by decide +kernel
  obtain ⟨⟨res, s'⟩, hok, heq⟩ := Option.map_eq_some_iff.mp hrun
  simp only [Prod.mk.injEq] at heq
  obtain ⟨hres, hnode, hveto, hledger⟩ := heq
  rw [Bool.and_eq_true, Option.isNone_iff_eq_none] at hledger
  refine ⟨s', _, toOption_eq_some hres ▸ hok, hnode, hveto, fun locl m hm hmtime => ?_⟩
  rw [mem_filterResurrected (List.mem_singleton.mpr rfl), verdict_of_none hm hledger.1, hmtime]
  exact fun hnot => absurd (hledger.2.symm.trans hnot) (by decide)

/-- With the child's own tombstone alone the restored child passes. -/
theorem restored_child_passes :
    let h : Host := .reliable (fun _ => 0) 1000
    ∃ s', (trashed childTrashed childDeleted).restoreTrashEntryWithDest h (trashId 50000000 0)
        none = some (.ok (.ofNames ["d", "a"]), s') ∧
      ∀ q n, PathBuf.ofNames ["d", "a"] <+: q → s'.root.get q = some n →
        Passes s'.engine q (scanned h (fun _ => []) q n) := by
  intro h
  have hrun : ((trashed childTrashed childDeleted).restoreTrashEntryWithDest h
      (trashId 50000000 0) none).map (·.1.toOption) = some (some (PathBuf.ofNames ["d", "a"])) := by
    decide +kernel
  have hlist : (trashed childTrashed childDeleted).listTrash.find? (·.id = trashId 50000000 0) =
      some ⟨trashId 50000000 0, .ofNames ["d", "a"],
        .normal (trashId 50000000 0) :: PathBuf.ofNames ["d", "a"], 50, false, "n"⟩ := by
    decide +kernel
  obtain ⟨⟨res, s'⟩, hok, hres⟩ := Option.map_eq_some_iff.mp hrun
  obtain rfl := toOption_eq_some hres
  refine ⟨s', hok, (restored_passes_iff _ hlist ⟨rfl, _, _, rfl⟩ hok).mpr (.inr (.inr ?_))⟩
  -- The only tombstone is at the original path.
  have honly : ∀ a t, childDeleted.entries.get a = some t → PathBuf.ofNames ["d", "a"] <+: a := by
    intro a t ha
    by_cases heq : a = PathBuf.ofNames ["d", "a"]
    · rw [heq]
    · simp [childDeleted, DeletionLedger.record, DeletionLedger.isSuperseded, DeletionLedger.new,
        heq] at ha
  intro r n _
  exact ⟨fun a t happlies hout _ => absurd (honly a t happlies.stored) hout,
    fun t ht hout => absurd (honly _ t ht) hout⟩

end TrashedEngine

end ByteHive
