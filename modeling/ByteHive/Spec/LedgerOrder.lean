import Mathlib.Order.Basic
import ByteHive.Native.LargeFile

/-!
# The ledger only grows

Ledgers are preordered by what they know of each path: the newest live action and
the newest action of any kind. Every ledger operation but `prune` and `remove`
goes up in this order, hence so does every engine operation built from them.

What an engine operation does to the ledger is a list of calls: `Called S` says that all
of them are of the kind `S`, so that a fact about one call becomes one about the operation.

Key results:
- `record_lastStamp`: after a delete is recorded the path knows an action at least
  as new.
- `coveringTombstone_of_effective`: a tombstone that applies to a path is the
  covering one unless a nearer one applies.
-/

namespace ByteHive

namespace DeletionLedger

/-! ## The order -/

/-- The stamp of the tombstone at `path` (0 when there is none). -/
def tombStamp (l : DeletionLedger) (path : PathBuf) : Nat :=
  ((l.entries.get path).map (·.deletedAtMs)).getD 0

/-- The stamp of the newest action known for `path`, delete or live. -/
def lastStamp (l : DeletionLedger) (path : PathBuf) : Nat :=
  max (l.aliveSince path) (l.tombStamp path)

instance : Preorder DeletionLedger :=
  Preorder.lift fun l (q : PathBuf) => (l.aliveSince q, l.lastStamp q)

theorem le_iff {l l' : DeletionLedger} :
    l ≤ l' ↔ ∀ q, l.aliveSince q ≤ l'.aliveSince q ∧ l.lastStamp q ≤ l'.lastStamp q :=
  Iff.rfl

/-- A path that knows an action stamped `t` and no live action that new has a
    tombstone that new. -/
theorem exists_tombstone_of_lastStamp {l : DeletionLedger} {p : PathBuf} {t : Nat}
    (ht : t ≤ l.lastStamp p) (ha : l.aliveSince p < t) :
    ∃ tomb, l.entries.get p = some tomb ∧ t ≤ tomb.deletedAtMs := by
  have htomb : t ≤ l.tombStamp p := by
    simp only [lastStamp] at ht
    omega
  cases he : l.entries.get p with
  | none =>
    simp only [tombStamp, he, Option.map_none, Option.getD_none] at htomb
    omega
  | some tomb => exact ⟨tomb, rfl, by simpa [tombStamp, he] using htomb⟩

/-! ## The operations -/

theorem isSuperseded_iff {l : DeletionLedger} {p : PathBuf} {t : Nat} (ht : 0 < t) :
    l.isSuperseded p t = true ↔ t ≤ l.aliveSince p := by
  unfold isSuperseded aliveSince
  cases l.alive.get p with
  | none => simp; omega
  | some a => simp

/-- The live records after `record_alive`. -/
theorem get_alive_recordAlive (l : DeletionLedger) (p q : PathBuf) (a : Nat) :
    (l.recordAlive p a).2.alive.get q =
      if q = p ∧ l.aliveSince p < a then some a else l.alive.get q := by
  unfold recordAlive
  by_cases ha : a = 0
  · simp [ha]
  · by_cases hr : l.aliveSince p < a
    · simp only [ha, hr, decide_true, if_true, if_false, and_true]
      split <;> split <;> simp
    · simp only [ha, hr, decide_false, Bool.false_eq_true, if_false, and_false]
      split <;> split <;> simp

/-- The tombstones after `record_alive`: the one at the path stays only when it is
    newer than the action. -/
theorem get_entries_recordAlive (l : DeletionLedger) (p q : PathBuf) (a : Nat) :
    (l.recordAlive p a).2.entries.get q =
      if q = p ∧ 0 < a then (l.entries.get p).filter (fun t => decide (a < t.deletedAtMs))
      else l.entries.get q := by
  by_cases ha : a = 0
  · simp [recordAlive, ha]
  · have hpos : 0 < a := by omega
    -- Raising the live record leaves the tombstones alone.
    obtain ⟨l', hl', hentries⟩ : ∃ l', (if decide (l.aliveSince p < a) = true then
        { l with alive := l.alive.insert p a } else l) = l' ∧ l'.entries = l.entries :=
      ⟨_, rfl, by split <;> rfl⟩
    simp only [recordAlive, ha, if_false, hl', hentries, hpos, and_true]
    by_cases hq : q = p
    · subst hq
      cases he : l.entries.get q with
      | none => simp [hentries, he]
      | some t =>
        by_cases ht : t.deletedAtMs ≤ a
        · simp [ht, Option.filter_some, Nat.not_lt.mpr ht]
        · simp [ht, hentries, he, Option.filter_some, Nat.lt_of_not_le ht]
    · simp only [hq, if_false]
      split <;> split <;> simp [hentries, hq]

theorem aliveSince_recordAlive (l : DeletionLedger) (p q : PathBuf) (a : Nat) :
    (l.recordAlive p a).2.aliveSince q =
      if q = p then max (l.aliveSince p) a else l.aliveSince q := by
  rw [aliveSince, get_alive_recordAlive]
  by_cases hq : q = p
  · subst hq
    by_cases hr : l.aliveSince q < a
    · simp only [true_and, hr, if_true, Option.getD_some]; omega
    · simp only [true_and, hr, if_false, if_true]
      show l.aliveSince q = _
      omega
  · simp [hq, aliveSince]

theorem le_recordAlive (l : DeletionLedger) (p : PathBuf) (a : Nat) :
    l ≤ (l.recordAlive p a).2 := by
  rw [le_iff]
  intro q
  simp only [lastStamp, tombStamp, aliveSince_recordAlive, get_entries_recordAlive]
  by_cases hq : q = p
  · subst hq
    simp only [if_true, true_and]
    refine ⟨le_max_left _ _, ?_⟩
    -- A lifted tombstone is not newer than the live record that lifts it.
    split
    · cases l.entries.get q with
      | none => simp
      | some t => by_cases ht : a < t.deletedAtMs <;> simp [ht, Option.filter_some] <;> omega
    · omega
  · simp [hq]

/-- `record` and `merge_remote` at one path: the entry is kept or replaced by a
    newer one, and live records stay. -/
private theorem le_of_entries {l l' : DeletionLedger} (halive : l'.alive = l.alive)
    (h : ∀ q, l.tombStamp q ≤ l'.tombStamp q) : l ≤ l' := by
  rw [le_iff]
  intro q
  have hq := h q
  simp only [aliveSince, lastStamp, halive]
  exact ⟨le_rfl, by omega⟩

theorem record_alive (l : DeletionLedger) (p : PathBuf) (t : Nat) (d : String)
    (ph : Option String) (pm : Option Nat) : (l.record p t d ph pm).alive = l.alive := by
  unfold record
  split
  · rfl
  · dsimp only
    split
    · split <;> rfl
    · rfl

theorem le_record (l : DeletionLedger) (p : PathBuf) (t : Nat) (d : String)
    (ph : Option String) (pm : Option Nat) : l ≤ l.record p t d ph pm := by
  refine le_of_entries (record_alive l p t d ph pm) fun q => ?_
  unfold record
  split
  · exact le_rfl
  · dsimp only
    split
    · next existing he =>
      split
      · exact le_rfl
      · by_cases hq : q = p
        · subst hq; simp [tombStamp, he]; omega
        · simp [tombStamp, hq]
    · next he =>
      by_cases hq : q = p
      · subst hq; simp [tombStamp, he]
      · simp [tombStamp, hq]

/-- After a delete is recorded, the path knows an action at least as new. -/
theorem record_lastStamp (l : DeletionLedger) (p : PathBuf) (t : Nat) (d : String)
    (ph : Option String) (pm : Option Nat) : t ≤ (l.record p t d ph pm).lastStamp p := by
  unfold record
  split
  · next h =>
    by_cases ht : 0 < t
    · exact le_max_of_le_left ((isSuperseded_iff ht).mp h)
    · omega
  · dsimp only
    split
    · next existing he =>
      split
      · next hge => exact le_max_of_le_right (by simpa [tombStamp, he] using hge)
      · exact le_max_of_le_right (by simp [tombStamp])
    · exact le_max_of_le_right (by simp [tombStamp])

theorem get_mergeRemote (l : DeletionLedger) (remote : FinMap PathBuf Tombstone) (p : PathBuf) :
    (l.mergeRemote remote).entries.get p =
      match remote.get p with
      | none => l.entries.get p
      | some tomb =>
        if l.isSuperseded p tomb.deletedAtMs then l.entries.get p
        else
          match l.entries.get p with
          | some existing =>
            if existing.deletedAtMs ≥ tomb.deletedAtMs then some existing else some tomb
          | none => some tomb := by
  refine FinMap.get_ofKeys_of_support (fun q hq => ?_) p
  rw [Finset.mem_union, FinMap.mem_keys, FinMap.mem_keys]
  cases hr : remote.get q with
  | none => simp_all
  | some tomb => simp

theorem le_mergeRemote (l : DeletionLedger) (remote : FinMap PathBuf Tombstone) :
    l ≤ l.mergeRemote remote := by
  refine le_of_entries rfl fun q => ?_
  simp only [tombStamp, get_mergeRemote]
  split
  · exact le_rfl
  · split
    · exact le_rfl
    · split
      · next he =>
        split
        · simp [he]
        · simp [he]; omega
      · next he => simp [he]

/-! ## Calls -/

/-- The calls that record or merge. -/
inductive LedgerCall where
  | record (path : PathBuf) (deletedAtMs : Nat) (deleterNode : String) (prevHash : Option String)
      (prevMtimeMs : Option Nat)
  | recordAlive (path : PathBuf) (actionMs : Nat)
  | mergeRemote (remote : FinMap PathBuf Tombstone)

def runCall (l : DeletionLedger) : LedgerCall → DeletionLedger
  | .record p t d ph pm => l.record p t d ph pm
  | .recordAlive p a => (l.recordAlive p a).2
  | .mergeRemote remote => l.mergeRemote remote

/-- From `l` the calls that were made, all of the kind `S`, lead to `l'`. -/
def Called (S : LedgerCall → Prop) (l l' : DeletionLedger) : Prop :=
  ∃ calls : List LedgerCall, (∀ c ∈ calls, S c) ∧ l' = calls.foldl runCall l

theorem Called.refl {S : LedgerCall → Prop} (l : DeletionLedger) : Called S l l :=
  ⟨[], by simp, rfl⟩

theorem Called.trans {S : LedgerCall → Prop} {l l' l'' : DeletionLedger} (h : Called S l l')
    (h' : Called S l' l'') : Called S l l'' := by
  obtain ⟨calls, hcalls, rfl⟩ := h
  obtain ⟨calls', hcalls', rfl⟩ := h'
  refine ⟨calls ++ calls', ?_, by rw [List.foldl_append]⟩
  intro c hc
  exact (List.mem_append.mp hc).elim (hcalls c) (hcalls' c)

theorem Called.single {S : LedgerCall → Prop} {c : LedgerCall} (hc : S c) (l : DeletionLedger) :
    Called S l (l.runCall c) := ⟨[c], by simpa using hc, rfl⟩

/-- What every call of the kind `S` keeps holds at the end. -/
theorem Called.induct {S : LedgerCall → Prop} {P : DeletionLedger → Prop} {l l' : DeletionLedger}
    (h : Called S l l') (hstep : ∀ l c, S c → P l → P (l.runCall c)) (hl : P l) : P l' := by
  obtain ⟨calls, hcalls, rfl⟩ := h
  induction calls generalizing l with
  | nil => exact hl
  | cons c calls ih =>
    exact ih (hstep l c (hcalls c (by simp)) hl) fun c' hc' => hcalls c' (by simp [hc'])

theorem le_runCall (l : DeletionLedger) (c : LedgerCall) : l ≤ l.runCall c := by
  cases c with
  | record p t d ph pm => exact l.le_record p t d ph pm
  | recordAlive p a => exact l.le_recordAlive p a
  | mergeRemote remote => exact l.le_mergeRemote remote

/-- No call takes the ledger down. -/
theorem Called.le {S : LedgerCall → Prop} {l l' : DeletionLedger} (h : Called S l l') : l ≤ l' :=
  h.induct (fun l₁ c _ h₁ => h₁.trans (l₁.le_runCall c)) le_rfl

/-! ## The covering tombstone -/

/-- The ancestors of a path are listed nearest first. -/
theorem pairwise_ancestors (p : PathBuf) : (ancestors p).Pairwise fun a b => b <+: a := by
  have hinits : p.inits.Pairwise fun a b => a <+: b := by
    induction p with
    | nil => simp
    | cons c p ih =>
      rw [List.inits_cons, List.pairwise_cons]
      exact ⟨fun a _ => List.nil_prefix, ih.map _ fun a b h => by simpa using h⟩
  unfold ancestors
  rw [List.pairwise_reverse]
  exact hinits.sublist (List.tail_sublist _)

/-- A tombstone at `q` applies to `p`: it is stored at `p` or above and the live record of `p` is
    older. -/
structure Applies (l : DeletionLedger) (p q : PathBuf) (t : Tombstone) : Prop where
  covers : q <+: p
  ne_nil : q ≠ []
  stored : l.entries.get q = some t
  newer : ∀ a, l.alive.get p = some a → a < t.deletedAtMs

theorem applies_iff {l : DeletionLedger} {p q : PathBuf} {t : Tombstone} :
    l.Applies p q t ↔ q ∈ ancestors p ∧ l.effectiveTombstone p q = some t := by
  unfold effectiveTombstone
  rw [mem_ancestors, Option.filter_eq_some_iff]
  constructor
  · intro h
    refine ⟨⟨h.ne_nil, h.covers⟩, h.stored, ?_⟩
    have hnewer := h.newer
    cases ha : l.alive.get p with
    | none => rfl
    | some a =>
      have hlt := hnewer a ha
      simp only [Bool.not_eq_true', decide_eq_false_iff_not]
      omega
  · intro h
    obtain ⟨⟨hne, hcovers⟩, hstored, hlive⟩ := h
    refine ⟨hcovers, hne, hstored, fun a ha => ?_⟩
    simp only [ha, Bool.not_eq_true', decide_eq_false_iff_not] at hlive
    omega

/-- The covering tombstone is the nearest one that applies. -/
theorem coveringTombstone_eq_some_iff {l : DeletionLedger} {p : PathBuf} {t : Tombstone} :
    l.coveringTombstone p = some t ↔
      ∃ q, l.Applies p q t ∧ ∀ r u, l.Applies p r u → r <+: q := by
  have hnearest : ∀ {t}, l.coveringTombstone p = some t →
      ∃ q, l.Applies p q t ∧ ∀ r u, l.Applies p r u → r <+: q := by
    intro t hc
    obtain ⟨near, q, far, heq, hq, hnone⟩ := List.findSome?_eq_some_iff.mp hc
    refine ⟨q, applies_iff.mpr ⟨heq ▸ by simp, hq⟩, fun r u hr => ?_⟩
    obtain ⟨hmem, hru⟩ := applies_iff.mp hr
    rw [heq, List.mem_append, List.mem_cons] at hmem
    rcases hmem with hnear | rfl | hfar
    · exact absurd hru (by simp [hnone r hnear])
    · exact List.prefix_refl _
    · have hpw := pairwise_ancestors p
      rw [heq, List.pairwise_append] at hpw
      exact (List.pairwise_cons.mp hpw.2.1).1 r hfar
  refine ⟨hnearest, fun h => ?_⟩
  obtain ⟨q, hq, hall⟩ := h
  cases hc : l.coveringTombstone p with
  | none =>
    have hnone := List.findSome?_eq_none_iff.mp hc q (applies_iff.mp hq).1
    rw [(applies_iff.mp hq).2] at hnone
    cases hnone
  | some u =>
    obtain ⟨r, hr, hall'⟩ := hnearest hc
    -- each of the two is at or above the other
    have hrq : r = q := (hall r u hr).eq_of_length
      (le_antisymm (hall r u hr).length_le (hall' q t hq).length_le)
    rw [hrq] at hr
    rw [← hr.stored, hq.stored]

/-- Where a tombstone at `p` applies to `q` below it, the covering tombstone of `q`
    is stored at `p` or nearer. -/
theorem coveringTombstone_of_effective {l : DeletionLedger} {p q : PathBuf} {tomb : Tombstone}
    (hp : p ≠ []) (hpq : p <+: q) (htomb : l.effectiveTombstone q p = some tomb) :
    ∃ r t, l.coveringTombstone q = some t ∧ l.effectiveTombstone q r = some t ∧
      p <+: r ∧ r <+: q := by
  have hmem : p ∈ ancestors q := mem_ancestors.mpr ⟨hp, hpq⟩
  cases hc : l.coveringTombstone q with
  | none =>
    have hnone := List.findSome?_eq_none_iff.mp hc p hmem
    rw [htomb] at hnone
    cases hnone
  | some t =>
    obtain ⟨r, hr, hall⟩ := coveringTombstone_eq_some_iff.mp hc
    exact ⟨r, t, rfl, (applies_iff.mp hr).2, hall p tomb (applies_iff.mpr ⟨hmem, htomb⟩),
      hr.covers⟩

end DeletionLedger

namespace SyncEngine

/-! ## Engine operations -/

@[simp] theorem ledger_ledgerMut (e : SyncEngine) (f : DeletionLedger → Bool × DeletionLedger) :
    (e.ledgerMut f).ledger = (f e.ledger).2 := rfl

@[simp] theorem ledger_flushLedger (h : Host) (e : SyncEngine) :
    (e.flushLedger h).ledger = e.ledger := by
  unfold flushLedger
  split <;> rfl

@[simp] theorem ledger_scheduleUnsuppress (e : SyncEngine) (ps : List PathBuf) :
    (e.scheduleUnsuppress ps).ledger = e.ledger := by
  unfold scheduleUnsuppress
  split <;> rfl

@[simp] theorem ledger_scheduleUnsuppressDeletes (e : SyncEngine) (ps : List PathBuf) :
    (e.scheduleUnsuppressDeletes ps).ledger = e.ledger := by
  unfold scheduleUnsuppressDeletes
  split <;> rfl

section

variable {S : DeletionLedger.LedgerCall → Prop}

theorem called_recordAll (l : DeletionLedger) {actions : List (PathBuf × Nat)}
    (hS : ∀ x ∈ actions, S (.recordAlive x.1 x.2)) :
    DeletionLedger.Called S l (recordAll l actions).2 := by
  induction actions generalizing l with
  | nil => exact .refl l
  | cons x rest ih =>
    have hhead : DeletionLedger.Called S l (l.recordAlive x.1 x.2).2 := .single (hS x (by simp)) l
    exact hhead.trans (ih _ fun y hy => hS y (by simp [hy]))

theorem called_recordLiveActions (h : Host) (e : SyncEngine) {actions : List (PathBuf × Nat)}
    (hS : ∀ x ∈ actions, S (.recordAlive x.1 x.2)) :
    DeletionLedger.Called S e.ledger (e.recordLiveActions h actions).ledger := by
  unfold recordLiveActions
  split
  · exact .refl _
  · simpa using called_recordAll e.ledger hS

/-- A received tombstone is one of the entries. -/
theorem mem_of_get_remoteTombstones {dtos : List TombstoneDto} {p : PathBuf} {tomb : Tombstone}
    (hp : (remoteTombstones dtos).get p = some tomb) :
    ∃ d ∈ dtos, d.alive = false ∧ d.path = p ∧
      tomb = ⟨d.path, d.deletedAtMs, d.deleterNode, d.prevHash, d.prevMtimeMs⟩ := by
  have hfold : ∀ (ds : List TombstoneDto) (m : FinMap PathBuf Tombstone),
      (ds.foldl (fun m d => m.insert d.path
        ⟨d.path, d.deletedAtMs, d.deleterNode, d.prevHash, d.prevMtimeMs⟩) m).get p = some tomb →
      m.get p = some tomb ∨ ∃ d ∈ ds, d.path = p ∧
        tomb = ⟨d.path, d.deletedAtMs, d.deleterNode, d.prevHash, d.prevMtimeMs⟩ := by
    intro ds
    induction ds with
    | nil => exact fun m hm => .inl hm
    | cons d ds ih =>
      intro m hm
      rcases ih _ hm with hins | ⟨d', hd', hrest⟩
      · rw [FinMap.get_insert] at hins
        split at hins
        · next hpd => exact .inr ⟨d, by simp, hpd.symm, (Option.some.inj hins).symm⟩
        · exact .inl hins
      · exact .inr ⟨d', by simp [hd'], hrest⟩
  obtain hempty | ⟨d, hd, hpath, htomb⟩ := hfold _ _ hp
  · simp at hempty
  · obtain ⟨hd, hdead⟩ := List.mem_filter.mp hd
    exact ⟨d, hd, by simpa using hdead, hpath, htomb⟩

theorem called_mergeLedger (h : Host) (e : SyncEngine) {dtos : List TombstoneDto}
    (hS : ∀ x ∈ remoteAlive dtos, S (.recordAlive x.1 x.2))
    (hS' : S (.mergeRemote (remoteTombstones dtos))) :
    DeletionLedger.Called S e.ledger (e.mergeLedger h dtos).2.ledger := by
  unfold mergeLedger
  split
  · exact .refl _
  · rw [ledger_flushLedger, ledger_ledgerMut]
    exact (called_recordAll e.ledger hS).trans (.single hS' _)

/-- What `admit_record` may put on record is of the kind `S`. A write without an action stamp
    only counts over a tombstone at its own path. -/
def Admits (S : DeletionLedger.LedgerCall → Prop) (l : DeletionLedger) (rel : PathBuf) (a : Option Nat)
    (m : Nat) : Prop :=
  (a = none → (l.entries.get rel).isSome = true) → S (.recordAlive rel (a.getD m))

theorem called_admitRecord (e : SyncEngine) {rel : PathBuf} {a : Option Nat} {m : Nat}
    (hS : Admits S e.ledger rel a m) :
    DeletionLedger.Called S e.ledger (e.admitRecord rel a m).ledger := by
  unfold admitRecord
  split
  · split
    · exact .single (hS (fun h => nomatch h)) e.ledger
    · exact .refl _
  · split
    · next t ht =>
      split
      · exact .single (hS fun _ => by simp [ht]) e.ledger
      · exact .refl _
    · exact .refl _

theorem ledger_saveConflictCopy {h : Host} {e e' : SyncEngine} {rel : PathBuf}
    {ci : Option ConflictInfo} (hs : e.saveConflictCopy h rel = some (e', ci)) :
    e'.ledger = e.ledger := by
  unfold saveConflictCopy at hs
  dsimp only at hs
  split at hs
  · cases hs
  · split at hs <;> (simp only [Option.some.injEq, Prod.mk.injEq] at hs; rw [← hs.1])

/-- One file of a bundle. -/
theorem called_applyFile (h : Host) (s : BundleRun) (fd : FileData)
    (hS : Admits S s.engine.ledger fd.metadata.relPath fd.actionMs fd.metadata.modifiedMs) :
    DeletionLedger.Called S s.engine.ledger (applyFile h s fd).2.engine.ledger := by
  unfold applyFile
  dsimp only
  split
  · exact .refl _
  · split
    · exact .refl _
    · have hadm := called_admitRecord s.engine hS
      split
      · exact hadm
      · next e ci hc =>
        have he : e.ledger = (s.engine.admitRecord fd.metadata.relPath fd.actionMs
            fd.metadata.modifiedMs).ledger := by
          split at hc
          · exact ledger_saveConflictCopy hc
          · simp only [Option.some.injEq, Prod.mk.injEq] at hc
            rw [← hc.1]
        rw [← he] at hadm
        split
        · exact hadm
        · exact hadm

/-- A file puts no tombstone in. -/
theorem isSome_entries_of_applyFile (h : Host) {s : BundleRun} (fd : FileData) {q : PathBuf}
    (hq : ((applyFile h s fd).2.engine.ledger.entries.get q).isSome = true) :
    (s.engine.ledger.entries.get q).isSome = true := by
  have hcalled := called_applyFile (S := fun c => ∃ p a, c = .recordAlive p a) h s fd
    fun _ => ⟨_, _, rfl⟩
  refine hcalled.induct (P := fun l => (l.entries.get q).isSome = true →
    (s.engine.ledger.entries.get q).isSome = true) ?_ id hq
  rintro l _ ⟨p, a, rfl⟩ ih hl
  refine ih ?_
  simp only [DeletionLedger.runCall, DeletionLedger.get_entries_recordAlive] at hl
  split at hl
  · next hqp =>
    rw [hqp.1]
    obtain ⟨t, ht⟩ := Option.isSome_iff_exists.mp hl
    exact Option.isSome_iff_exists.mpr ⟨t, (Option.filter_eq_some_iff.mp ht).1⟩
  · exact hl

theorem called_applyFiles (h : Host) (s : BundleRun) {files : List FileData}
    (hS : ∀ fd ∈ files,
      Admits S s.engine.ledger fd.metadata.relPath fd.actionMs fd.metadata.modifiedMs) :
    DeletionLedger.Called S s.engine.ledger (applyFiles h s files).2.engine.ledger := by
  induction files generalizing s with
  | nil => exact .refl _
  | cons fd rest ih =>
    have hstep := called_applyFile h s fd (hS fd (by simp))
    unfold applyFiles
    split
    · next s' heq =>
      rw [heq] at hstep
      refine hstep.trans (ih s' fun fd' hfd' hnone => hS fd' (by simp [hfd']) fun h' => ?_)
      exact isSome_entries_of_applyFile h fd (by rw [heq]; exact hnone h')
    · next s' heq => rw [heq] at hstep; exact hstep

theorem called_applyBundle (h : Host) (e : SyncEngine) {b : FileBundle}
    (hS : ∀ fd ∈ b.files,
      Admits S e.ledger fd.metadata.relPath fd.actionMs fd.metadata.modifiedMs) :
    DeletionLedger.Called S e.ledger (e.applyBundle h b).2.ledger := by
  have hfiles := called_applyFiles h ⟨e, [], ⟨0, []⟩, []⟩ hS
  unfold applyBundle
  split
  · next s heq => rw [heq] at hfiles; exact hfiles
  · next s heq => rw [heq] at hfiles; simpa using hfiles

/-! ### Deletes -/

@[simp] theorem tombstones_deleteTargets (h : Host) (guarded : List PathBuf) (s : DeleteRun)
    (gone targets : List PathBuf) :
    (deleteTargets h guarded s gone targets).tombstones = s.tombstones := by
  induction targets generalizing s gone with
  | nil => rfl
  | cons target rest ih =>
    unfold deleteTargets
    split
    · exact ih s gone
    · split
      · exact ih s gone
      · rw [ih]

@[simp] theorem ledger_deleteWhole (h : Host) (s : DeleteRun) (rel : PathBuf)
    (subtree : List PathBuf) : (deleteWhole h s rel subtree).engine.ledger = s.engine.ledger := rfl

@[simp] theorem ledger_deleteTargets (h : Host) (guarded : List PathBuf) (s : DeleteRun)
    (gone targets : List PathBuf) :
    (deleteTargets h guarded s gone targets).engine.ledger = s.engine.ledger := by
  induction targets generalizing s gone with
  | nil => rfl
  | cons target rest ih =>
    unfold deleteTargets
    split
    · exact ih s gone
    · split
      · exact ih s gone
      · rw [ih]

@[simp] theorem ledger_deletePath (h : Host) (t : Nat) (s : DeleteRun) (rel : PathBuf) :
    (deletePath h t s rel).engine.ledger = s.engine.ledger := by
  unfold deletePath
  split
  · rfl
  · dsimp only
    split <;> simp

theorem ledger_foldl_deletePath (h : Host) (t : Nat) (s : DeleteRun) (paths : List PathBuf) :
    (paths.foldl (deletePath h t) s).engine.ledger = s.engine.ledger := by
  induction paths generalizing s with
  | nil => rfl
  | cons p rest ih => rw [List.foldl_cons, ih, ledger_deletePath]

/-- Only the paths of the call are staged. -/
theorem mem_of_mem_tombstones (h : Host) (t : Nat) {s : DeleteRun} {paths : List PathBuf}
    {x : PathBuf × Option String × Option Nat}
    (hx : x ∈ (paths.foldl (deletePath h t) s).tombstones) : x ∈ s.tombstones ∨ x.1 ∈ paths := by
  induction paths generalizing s with
  | nil => exact .inl hx
  | cons p rest ih =>
    rcases ih hx with hstep | hrest
    · unfold deletePath at hstep
      split at hstep
      · exact .inl hstep
      · dsimp only at hstep
        rw [List.mem_append, List.mem_singleton] at hstep
        rcases hstep with hold | rfl
        · refine .inl ?_
          split at hold
          · exact hold
          · simpa using hold
        · exact .inr (by simp)
    · exact .inr (by simp [hrest])

theorem called_recordTombstones {t : Nat} {d : String} (l : DeletionLedger)
    {tombs : List (PathBuf × Option String × Option Nat)}
    (hS : ∀ x ∈ tombs, ∀ ph pm, S (.record x.1 t d ph pm)) :
    DeletionLedger.Called S l (recordTombstones t d l tombs) := by
  unfold recordTombstones
  induction tombs generalizing l with
  | nil => exact .refl _
  | cons x rest ih =>
    have hhead : DeletionLedger.Called S l (l.record x.1 t d x.2.1 x.2.2) :=
      .single (hS x (by simp) _ _) l
    exact hhead.trans (ih _ fun y hy => hS y (by simp [hy]))

theorem called_applyDeletes (h : Host) (e : SyncEngine) (paths : List PathBuf) {t : Nat}
    {d : String} (hS : ∀ p ∈ paths, ∀ ph pm, S (.record p t d ph pm)) :
    DeletionLedger.Called S e.ledger (e.applyDeletes h paths t d).2.ledger := by
  unfold applyDeletes
  have hl := ledger_foldl_deletePath h t ⟨e, [], [], 0⟩ paths
  have htombs : ∀ x ∈ (paths.foldl (deletePath h t) ⟨e, [], [], 0⟩).tombstones, x.1 ∈ paths :=
    fun x hx => (mem_of_mem_tombstones h t hx).resolve_left (by simp)
  dsimp only at hl ⊢
  split
  · simpa [hl] using DeletionLedger.Called.refl e.ledger
  · simpa [hl] using called_recordTombstones e.ledger fun x hx => hS x.1 (htombs x hx)

/-- A delete of one safe path records its tombstone. -/
theorem ledger_applyDeletes_one (h : Host) (e : SyncEngine) {p : PathBuf} (t : Nat) (d : String)
    (hp : safeRelative p = true) : (e.applyDeletes h [p] t d).2.ledger =
      e.ledger.record p t d (e.prevInfo p).1 (e.prevInfo p).2 := by
  have htombs : ([p].foldl (deletePath h t) ⟨e, [], [], 0⟩).tombstones =
      [(p, (e.prevInfo p).1, (e.prevInfo p).2)] := by
    simp only [List.foldl_cons, List.foldl_nil, deletePath, hp, Bool.not_true, Bool.false_eq_true,
      if_false]
    split
    · rfl
    · rw [tombstones_deleteTargets]; rfl
  unfold applyDeletes
  dsimp only
  rw [htombs]
  simp [recordTombstones]

/-- It leaves an action at least as new on record. -/
theorem lastStamp_applyDeletes (h : Host) (e : SyncEngine) {p : PathBuf} (t : Nat) (d : String)
    (hp : safeRelative p = true) : t ≤ (e.applyDeletes h [p] t d).2.ledger.lastStamp p := by
  rw [ledger_applyDeletes_one h e t d hp]
  exact DeletionLedger.record_lastStamp e.ledger p t d _ _

/-! ### Renames -/

@[simp] theorem ledger_convergeRename (h : Host) (e : SyncEngine) (f g : PathBuf) :
    (e.convergeRename h f g).ledger = e.ledger := by
  unfold convergeRename
  split
  · dsimp only
    split <;> simp
  · rfl

@[simp] theorem ledger_moveRename (h : Host) (e : SyncEngine) (f g : PathBuf) :
    (e.moveRename h f g).2.ledger = e.ledger := by
  unfold moveRename
  dsimp only
  split
  · rfl
  · split <;> simp

theorem called_applyRenameAt (h : Host) (e : SyncEngine) (f : PathBuf) {g : PathBuf} {a : Nat}
    {d : String} (hS : S (.recordAlive g a)) (hS' : ∀ ph pm, S (.record f a d ph pm)) :
    DeletionLedger.Called S e.ledger (e.applyRenameAt h f g a d).2.ledger := by
  unfold applyRenameAt
  split
  · exact .refl _
  · split
    · exact called_applyDeletes h e [f] (by simpa using hS')
    · have hadm : DeletionLedger.Called S e.ledger (e.admitRecord g (some a) 0).ledger :=
        called_admitRecord e fun _ => hS
      dsimp only
      split <;> simpa using hadm

/-! ### Large files -/

theorem called_beginLargeFileWithAction (h : Host) (e : SyncEngine) {md : FileMetadata} (n : UInt32)
    {a : Option Nat} (hS : Admits S e.ledger md.relPath a md.modifiedMs) :
    DeletionLedger.Called S e.ledger (e.beginLargeFileWithAction h md n a).2.ledger := by
  have hadm := called_admitRecord e hS
  unfold beginLargeFileWithAction
  dsimp only
  split
  · exact .refl _
  · split
    · exact .refl _
    · split
      · simpa using hadm
      · split
        · simpa using hadm
        · split <;> simpa using hadm

@[simp] theorem ledger_receiveLargeFileChunk (h : Host) (e : SyncEngine) (p : PathBuf) (i : UInt32)
    (data : Content) : (e.receiveLargeFileChunk h p i data).2.ledger = e.ledger := by
  unfold receiveLargeFileChunk
  split
  · rfl
  · split
    · rfl
    · split
      · rfl
      · dsimp only
        split
        · split <;> rfl
        · rfl

@[simp] theorem ledger_saveCommitConflict (h : Host) (e : SyncEngine) (p dst : PathBuf) :
    (e.saveCommitConflict h p dst).2.ledger = e.ledger := by
  unfold saveCommitConflict
  dsimp only
  split <;> rfl

@[simp] theorem ledger_installLargeFile (h : Host) (e : SyncEngine) (p : PathBuf)
    (asm : LargeFileAssembly) (fh : Hash) (c : Content) :
    (e.installLargeFile h p asm fh c).2.ledger = e.ledger := by
  unfold installLargeFile
  dsimp only
  split
  · split <;> simp
  · simp only [ledger_scheduleUnsuppress]
    split <;> simp

theorem called_commitLargeFile (h : Host) (e : SyncEngine) {p : PathBuf} (fh : Hash)
    (hS : ∀ asm, e.inProgress.get p = some asm →
      Admits S e.ledger p asm.actionMs asm.modifiedMs) :
    DeletionLedger.Called S e.ledger (e.commitLargeFile h p fh).2.ledger := by
  unfold commitLargeFile
  split
  · exact .refl _
  · next asm hasm =>
    dsimp only
    have hadm := called_admitRecord { e with inProgress := e.inProgress.erase p } (hS asm hasm)
    split
    · exact .refl _
    · split
      · simpa using hadm
      · split
        · simpa using hadm
        · split <;> simpa using hadm

theorem called_finishLargeFile (h : Host) (e : SyncEngine) {p : PathBuf} (fh : Hash)
    (hS : ∀ asm, e.inProgress.get p = some asm →
      Admits S e.ledger p asm.actionMs asm.modifiedMs) :
    DeletionLedger.Called S e.ledger (e.finishLargeFile h p fh).2.ledger := by
  unfold finishLargeFile
  split
  · exact .refl _
  · split
    · exact .refl _
    · exact called_commitLargeFile h e fh hS

end

end SyncEngine

end ByteHive
