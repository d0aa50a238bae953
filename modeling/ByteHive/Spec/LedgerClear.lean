import ByteHive.ForStd.Run
import ByteHive.Native.LedgerFile
import ByteHive.Spec.LedgerExchange

/-!
# Tombstones that are lifted from the file

The file browser lifts tombstones from the ledger file while the engine has its own ledger in
memory. They stay lifted as long as the engine holds none of them either, no merge brings one
back, and no two writers of the file overlap.

## Key results

- `entries_apply`: an operation of the engine adds a tombstone only where it reports a change
- `inv_step`: one undisturbed step keeps what is lifted lifted
- `lifted_stays_lifted`: the same for whole runs
-/

namespace ByteHive

namespace DeletionLedger

/-- The tombstone stored at `q` is the one that vetoes a write at `rel` of that time. -/
def Vetoes (l : DeletionLedger) (q rel : PathBuf) (writeMs : Nat) : Prop :=
  ∃ t, l.coveringTombstone rel = some t ∧ l.Applies rel q t ∧ writeMs < t.deletedAtMs

theorem not_vetoes_of_get_eq_none {l : DeletionLedger} {q : PathBuf}
    (h : l.entries.get q = none) (rel : PathBuf) (writeMs : Nat) : ¬l.Vetoes q rel writeMs := by
  intro hveto
  obtain ⟨t, -, happlies, -⟩ := hveto
  rw [happlies.stored] at h
  cases h

theorem get_record_of_ne {l : DeletionLedger} {p q : PathBuf} {t : Nat} {d : String}
    {ph : Option String} {pm : Option Nat} (hne : q ≠ p) :
    (l.record p t d ph pm).entries.get q = l.entries.get q := by
  unfold record
  split
  · rfl
  · dsimp only
    split
    · split
      · rfl
      · rw [FinMap.get_insert, if_neg hne]
    · rw [FinMap.get_insert, if_neg hne]

theorem get_removeAll {l : DeletionLedger} (paths : List PathBuf) {p : PathBuf} {t : Tombstone}
    (h : (SyncEngine.removeAll l paths).2.entries.get p = some t) : l.entries.get p = some t := by
  induction paths generalizing l with
  | nil => exact h
  | cons path paths ih =>
    have hrest := ih h
    rw [remove, FinMap.get_erase] at hrest
    split at hrest
    · cases hrest
    · exact hrest

theorem get_recordAll {l : DeletionLedger} (actions : List (PathBuf × Nat)) {p : PathBuf}
    (h : l.entries.get p = none) :
    (SyncEngine.recordAll l actions).2.entries.get p = none := by
  rw [get_entries_recordAll, h]
  rfl

/-- `record_alive` reports a change where it takes a tombstone away. -/
theorem get_recordAlive_of_unchanged {l : DeletionLedger} {path : PathBuf} {actionMs : Nat}
    (h : (l.recordAlive path actionMs).1 = false) (p : PathBuf) :
    (l.recordAlive path actionMs).2.entries.get p = l.entries.get p := by
  rw [get_entries_recordAlive]
  split
  · next hp =>
    obtain ⟨rfl, hpos⟩ := hp
    cases ht : l.entries.get p with
    | none => rfl
    | some t =>
      rw [Option.filter_some, if_pos]
      by_contra hle
      unfold recordAlive at h
      rw [if_neg (by omega)] at h
      simp only [Bool.or_eq_false_iff, decide_eq_false_iff_not] at h
      obtain ⟨hraised, hlifted⟩ := h
      rw [if_neg (by simpa using hraised), ht] at hlifted
      simp at hlifted hle
      omega
  · rfl

theorem get_removeAll_of_unchanged {l : DeletionLedger} {paths : List PathBuf}
    (h : (SyncEngine.removeAll l paths).1 = false) (p : PathBuf) :
    (SyncEngine.removeAll l paths).2.entries.get p = l.entries.get p := by
  induction paths generalizing l with
  | nil => rfl
  | cons path paths ih =>
    obtain ⟨hfirst, hrest⟩ := Bool.or_eq_false_iff.mp h
    have hnone : l.entries.get path = none := Option.isSome_eq_false_iff.mp hfirst |> Option.isNone_iff_eq_none.mp
    refine (ih hrest).trans ?_
    rw [remove, FinMap.get_erase]
    split
    · next heq => rw [heq, hnone]
    · rfl

/-- Where all keys stay, a filter takes nothing away. -/
theorem get_filter_of_keys_eq {m : FinMap PathBuf Tombstone} {f : PathBuf → Tombstone → Bool}
    (h : (m.filter f).keys = m.keys) (p : PathBuf) : (m.filter f).get p = m.get p := by
  rw [FinMap.get_filter]
  cases ht : m.get p with
  | none => rfl
  | some t =>
    have hmem : p ∈ (m.filter f).keys := h ▸ FinMap.mem_keys_of_get ht
    rw [FinMap.mem_keys, FinMap.get_filter, ht, Option.filter_some] at hmem
    rw [Option.filter_some]
    split
    · rfl
    · next hne =>
      rw [if_neg hne] at hmem
      cases hmem

end DeletionLedger

namespace LedgerOp

open DeletionLedger

/-- An operation that reports no change leaves the tombstones as they were. -/
theorem get_of_unchanged {l : DeletionLedger} {op : LedgerOp} (h : (op.apply l).1 = false)
    (p : PathBuf) : (op.apply l).2.entries.get p = l.entries.get p := by
  cases op with
  | record | merge => cases h
  | recordAlive path actionMs => exact get_recordAlive_of_unchanged h p
  | remove paths => exact get_removeAll_of_unchanged h p
  | prune nowMs =>
    have hkeys : (l.prune nowMs deletionLedgerTtlMs).entries.keys = l.entries.keys := by
      by_contra hne
      simp [apply, hne] at h
    exact get_filter_of_keys_eq hkeys p

/-- The operation brings no old tombstone of a path that is lifted. -/
def BringsNone (l : DeletionLedger) (lifted : FinMap PathBuf Tombstone) : LedgerOp → Prop
  | .merge alive remote => ∀ p t, lifted.get p = some t → ∀ tomb, remote.get p = some tomb →
      tomb.deletedAtMs ≤ t.deletedAtMs →
        (SyncEngine.recordAll l alive).2.isSuperseded p tomb.deletedAtMs = true
  | _ => True

/-- A tombstone that stays lifted is not brought back by such an operation. -/
theorem get_of_bringsNone {l : DeletionLedger} {lifted : FinMap PathBuf Tombstone} {op : LedgerOp}
    (h : op.BringsNone l lifted) {p : PathBuf} {t : Tombstone}
    (hlifted : (LedgerStore.liftedAfter lifted op).get p = some t)
    (hnone : l.entries.get p = none) :
    lifted.get p = some t ∧ (op.apply l).2.entries.get p = none := by
  cases op with
  | record path deletedAtMs deleterNode prevHash prevMtimeMs =>
    have hget : (lifted.erase path).get p = some t := hlifted
    rw [FinMap.get_erase] at hget
    split at hget
    · cases hget
    · next hne =>
      refine ⟨hget, ?_⟩
      rw [← hnone]
      exact get_record_of_ne hne
  | merge alive remote =>
    have hget := hlifted
    rw [LedgerStore.liftedAfter, FinMap.get_filter, Option.filter_eq_some_iff] at hget
    obtain ⟨hold, hall⟩ := hget
    refine ⟨hold, ?_⟩
    show ((SyncEngine.recordAll l alive).2.mergeRemote remote).entries.get p = none
    rw [get_mergeRemote]
    cases hremote : remote.get p with
    | none => exact get_recordAll alive hnone
    | some tomb =>
      rw [hremote, Option.all_some, decide_eq_true_eq] at hall
      simp only
      rw [if_pos (h p t hold tomb hremote hall)]
      exact get_recordAll alive hnone
  | recordAlive path actionMs =>
    refine ⟨hlifted, ?_⟩
    show (l.recordAlive path actionMs).2.entries.get p = none
    rw [get_entries_recordAlive]
    split
    · next hp => rw [← hp.1, hnone]; rfl
    · exact hnone
  | remove paths =>
    refine ⟨hlifted, ?_⟩
    by_contra hne
    obtain ⟨t', ht'⟩ := Option.ne_none_iff_exists'.mp hne
    rw [get_removeAll paths ht'] at hnone
    cases hnone
  | prune nowMs =>
    refine ⟨hlifted, ?_⟩
    show (l.entries.filter _).get p = none
    rw [FinMap.get_filter, hnone]
    rfl

end LedgerOp

namespace LedgerStore

/-- A save that nobody disturbs is the engine's `flushLedger`. -/
theorem flush_eq_flushLedger {h : Host} {e : SyncEngine} {s : LedgerStore}
    (hledger : s.ledger = e.ledger) (hdirty : s.dirty = e.ledgerDirty)
    (hsaving : s.saving = false)
    (hok : h.fails .saveLedger = false) (hneeds : e.ledgerDirty = true) :
    ∃ s', Run.runFrom step s [.flushWrite, .flushRename] = some s' ∧
      s'.ledger = (e.flushLedger h).ledger ∧ s'.dirty = (e.flushLedger h).ledgerDirty ∧
      s'.file = some (.canonical (e.flushLedger h).ledgerFile) := by
  have hflush : e.flushLedger h = { e with ledgerDirty := false, ledgerFile := e.ledger } := by
    rw [SyncEngine.flushLedger, hneeds, hok]
    rfl
  have hwrite : s.step .flushWrite = some { s with
      dirty := false, saving := true, tmp := some (.canonical s.ledger) } := by
    rw [step, if_neg (by simp [hsaving]), if_pos (hdirty.trans hneeds)]
  refine ⟨_, Run.runFrom_cons.mpr ⟨_, hwrite, Run.runFrom_cons.mpr ⟨_, rfl, rfl⟩⟩, ?_⟩
  rw [hflush, ← hledger]
  exact ⟨rfl, rfl, rfl⟩

/-- What is lifted is neither in the file nor a reason to veto a write, and where there is nothing
    to save the file has the tombstones of the ledger. -/
structure Safe (s : LedgerStore) : Prop where
  file : ∀ p t, s.lifted.get p = some t → (LedgerText.entries s.file).get p = none
  veto : ∀ p t, s.lifted.get p = some t → ∀ rel writeMs, ¬s.ledger.Vetoes p rel writeMs
  saved : s.dirty = false → s.saving = false →
    ∀ p, (LedgerText.entries s.file).get p = s.ledger.entries.get p

/-- No merge brings a lifted tombstone back; a file is renamed that its writer has written; and a
    call that replaces the ledger file finds it as it has read it, and the engine without the
    tombstones that it lifts. -/
def Undisturbed (s : LedgerStore) : LedgerEvent → Prop
  | .op op => op.BringsNone s.ledger s.lifted
  | .flushRename => s.tmp = none ∨ s.tmp = some (.canonical s.ledger)
  | .clearRename id => ∀ c, s.clears.get id = some c →
      s.tmp = none ∨ s.tmp = some c.out ∧ s.file = c.read ∧
        ∀ p ∈ c.removed.keys, s.ledger.entries.get p = none
  | _ => True

/-- What is lifted is in neither of the two, and the calls under way write what they have read
    less what they remove. -/
structure Inv (s : LedgerStore) : Prop where
  file : ∀ p t, s.lifted.get p = some t → (LedgerText.entries s.file).get p = none
  ledger : ∀ p t, s.lifted.get p = some t → s.ledger.entries.get p = none
  saved : s.dirty = false → s.saving = false →
    ∀ p, (LedgerText.entries s.file).get p = s.ledger.entries.get p
  clears : ∀ id c, s.clears.get id = some c → ∃ prefixes,
    clearLedgerCovering prefixes c.read = some (c.out, c.removed)

theorem Inv.safe {s : LedgerStore} (h : Inv s) : Safe s where
  file := h.file
  veto p t hp := DeletionLedger.not_vetoes_of_get_eq_none (h.ledger p t hp)
  saved := h.saved

/-- What `clear_ledger_covering` writes back has the tombstones that it does not remove. -/
theorem entries_clearLedgerCovering {prefixes : List PathBuf} {file : Option LedgerText}
    {out : LedgerText} {removed : FinMap PathBuf Tombstone}
    (h : clearLedgerCovering prefixes file = some (out, removed)) (p : PathBuf) :
    (LedgerText.entries (some out)).get p =
      if p ∈ removed.keys then none else (LedgerText.entries file).get p := by
  have hsplit : ∀ entries : FinMap PathBuf Tombstone,
      (entries.filter fun p _ => !covered prefixes p).get p =
        if p ∈ (entries.filter fun p _ => covered prefixes p).keys then none
        else entries.get p := by
    intro entries
    have hkeys : p ∈ (entries.filter fun p _ => covered prefixes p).keys ↔
        ∃ t, entries.get p = some t ∧ covered prefixes p = true := by
      rw [FinMap.mem_keys, FinMap.get_filter, Option.isSome_iff_exists]
      simp only [Option.filter_eq_some_iff]
    rw [FinMap.get_filter]
    split
    · next hmem =>
      obtain ⟨t, ht, hcovered⟩ := hkeys.mp hmem
      rw [ht, Option.filter_some, hcovered]
      rfl
    · next hmem =>
      cases ht : entries.get p with
      | none => rfl
      | some t =>
        have hcovered : covered prefixes p = false := by
          by_contra hne
          exact hmem (hkeys.mpr ⟨t, ht, by simpa using hne⟩)
        rw [Option.filter_some, hcovered]
        rfl
  unfold clearLedgerCovering at h
  simp only at h
  split at h
  · cases h
  · split at h
    · cases h
      exact hsplit _
    · cases h
      exact hsplit _
    · cases h

theorem inv_start {file : Option LedgerText}
    (h : ∀ p, (LedgerText.entries file).get p = (LedgerText.load file).entries.get p) :
    Inv (start file) := by
  refine ⟨?_, ?_, fun _ _ p => h p, ?_⟩
  · intro p t hp
    cases hp
  · intro p t hp
    cases hp
  · intro id c hc
    cases hc

/-- A change of the clears under way that keeps what they read, write and remove. -/
theorem Inv.of_clears {s : LedgerStore} {clears : FinMap Nat LedgerClear}
    {tmp : Option LedgerText} (hs : Inv s)
    (hclears : ∀ id c, clears.get id = some c → ∃ prefixes,
      clearLedgerCovering prefixes c.read = some (c.out, c.removed)) :
    Inv { s with clears, tmp } :=
  ⟨hs.file, hs.ledger, hs.saved, hclears⟩

theorem inv_flushRename {s : LedgerStore} (hs : Inv s)
    (hown : s.tmp = none ∨ s.tmp = some (.canonical s.ledger)) {s' : LedgerStore}
    (h : s.step .flushRename = some s') : Inv s' := by
  simp only [step] at h
  split at h
  · cases hown with
    | inl hnone =>
      rw [hnone] at h
      cases h
      exact ⟨hs.file, hs.ledger, fun hdirty => (by cases hdirty), hs.clears⟩
    | inr htmp =>
      rw [htmp] at h
      cases h
      -- the file has the tombstones of the ledger, and no lifted one is among them
      exact ⟨hs.ledger, hs.ledger, fun _ _ p => rfl, hs.clears⟩
  · cases h

theorem inv_clearRename {s : LedgerStore} (hs : Inv s) {id : Nat}
    (hown : Undisturbed s (.clearRename id)) {s' : LedgerStore}
    (h : s.step (.clearRename id) = some s') : Inv s' := by
  simp only [step] at h
  split at h
  · next c hc =>
    have hrest : ∀ i d, (s.clears.erase id).get i = some d → ∃ prefixes,
        clearLedgerCovering prefixes d.read = some (d.out, d.removed) := by
      intro i d hd
      rw [FinMap.get_erase] at hd
      split at hd
      · cases hd
      · exact hs.clears i d hd
    split at h
    · cases hown c hc with
      | inl hnone =>
        rw [hnone] at h
        cases h
        exact hs.of_clears hrest
      | inr hquiet =>
        obtain ⟨htmp, hfile, hledger⟩ := hquiet
        rw [htmp] at h
        cases h
        obtain ⟨prefixes, hclear⟩ := hs.clears id c hc
        have hout := entries_clearLedgerCovering hclear
        have hlifted : ∀ p t, (FinMap.ofKeys (c.removed.keys ∪ s.lifted.keys) fun p =>
            (c.removed.get p).or (s.lifted.get p)).get p = some t →
            p ∈ c.removed.keys ∨ s.lifted.get p = some t := by
          intro p t hp
          rw [FinMap.get_ofKeys] at hp
          split at hp
          · cases hremoved : c.removed.get p with
            | none =>
              rw [hremoved] at hp
              exact .inr hp
            | some t' => exact .inl (FinMap.mem_keys_of_get hremoved)
          · cases hp
        refine ⟨?_, ?_, ?_, hrest⟩
        · intro p t hp
          rw [hout]
          split
          · rfl
          · next hnot =>
            rw [← hfile]
            exact hs.file p t ((hlifted p t hp).resolve_left hnot)
        · intro p t hp
          cases hlifted p t hp with
          | inl hremoved => exact hledger p hremoved
          | inr hold => exact hs.ledger p t hold
        · intro hdirty hsaving p
          rw [hout]
          split
          · next hremoved => exact (hledger p hremoved).symm
          · rw [← hfile]
            exact hs.saved hdirty hsaving p
    · cases h
  · cases h

/-- One undisturbed step keeps what is lifted lifted. -/
theorem inv_step (s : LedgerStore) (ev : LedgerEvent) (s' : LedgerStore) (hs : Inv s)
    (hquiet : Undisturbed s ev) (h : s.step ev = some s') : Inv s' := by
  cases ev with
  | op op =>
    simp only [step] at h
    split at h
    · cases h
      have hstays : ∀ p t, (liftedAfter s.lifted op).get p = some t →
          ∃ t, s.lifted.get p = some t := by
        intro p t hp
        cases op with
        | record path =>
          have hget : (s.lifted.erase path).get p = some t := hp
          rw [FinMap.get_erase] at hget
          split at hget
          · cases hget
          · exact ⟨t, hget⟩
        | merge alive remote =>
          rw [liftedAfter, FinMap.get_filter, Option.filter_eq_some_iff] at hp
          exact ⟨t, hp.1⟩
        | recordAlive | remove | prune => exact ⟨t, hp⟩
      refine ⟨?_, ?_, ?_, hs.clears⟩
      · intro p t hp
        obtain ⟨t', ht'⟩ := hstays p t hp
        exact hs.file p t' ht'
      · intro p t hp
        obtain ⟨t', ht'⟩ := hstays p t hp
        exact (LedgerOp.get_of_bringsNone hquiet hp (hs.ledger p t' ht')).2
      · intro hdirty hsaving p
        obtain ⟨hclean, hsame⟩ := Bool.or_eq_false_iff.mp hdirty
        rw [LedgerOp.get_of_unchanged hsame p]
        exact hs.saved hclean hsaving p
    · cases h
  | flushWrite =>
    simp only [step] at h
    split at h
    · cases h
    · split at h
      · cases h
        exact ⟨hs.file, hs.ledger, fun _ hsaving => (by cases hsaving), hs.clears⟩
      · cases h
        exact hs
  | flushRename => exact inv_flushRename hs hquiet h
  | flushFail =>
    simp only [step] at h
    split at h
    · cases h
      exact ⟨hs.file, hs.ledger, fun hdirty => (by cases hdirty), hs.clears⟩
    · cases h
  | clearRead id prefixes =>
    simp only [step] at h
    split at h
    · split at h
      · next out removed hclear =>
        cases h
        apply hs.of_clears
        intro i c hc
        rw [FinMap.get_insert] at hc
        split at hc
        · cases hc
          exact ⟨prefixes, hclear⟩
        · exact hs.clears i c hc
      · cases h
        exact hs
    · cases h
  | clearWrite id =>
    simp only [step] at h
    split at h
    · next c hc =>
      split at h
      · cases h
        apply hs.of_clears
        intro i d hd
        rw [FinMap.get_insert] at hd
        split at hd
        · cases hd
          exact hs.clears id c hc
        · exact hs.clears i d hd
      · cases h
    · cases h
  | clearRename id => exact inv_clearRename hs hquiet h

/-- Tombstones that are lifted from the file stay lifted, and no other is lost, in every run whose
    steps are undisturbed. -/
theorem lifted_stays_lifted {file : Option LedgerText} {events : List LedgerEvent}
    {s' : LedgerStore}
    (hfile : ∀ p, (LedgerText.entries file).get p = (LedgerText.load file).entries.get p)
    (hrun : Run.runFrom step (start file) events = some s')
    (hquiet : Run.StepsMeet step Undisturbed (start file) events) :
    Run.Always step Safe (start file) events := by
  have hinv := Run.always_of_stepsMeet (P := Inv) inv_step (inv_start hfile) hquiet hrun
  intro bs s hpre hbs
  exact (hinv bs s hpre hbs).safe

/-- The tombstone of a deleted file. -/
def deletedFile : Tombstone := ⟨[.normal "a"], 100, "laptop", none, none⟩

def deletedFileLedger : Option LedgerText :=
  some (.canonical ⟨FinMap.empty.insert [.normal "a"] deletedFile, .empty⟩)

/-- The file browser restores a file while the engine has its tombstone in memory; then the engine
    records the delete of another file and saves its ledger. -/
def restoreThenFlush : List LedgerEvent :=
  [.clearRead 0 [[.normal "a"]], .clearWrite 0, .clearRename 0, .op (.record [.normal "b"] 200 "laptop" none none),
    .flushWrite, .flushRename]

/-- The tombstone is in the file again, and it has vetoed a write of the restored file all the
    time. -/
theorem lifted_comes_back :
    ∃ s', Run.runFrom step (start deletedFileLedger) restoreThenFlush = some s' ∧
      s'.lifted.get [.normal "a"] = some deletedFile ∧
      (LedgerText.entries s'.file).get [.normal "a"] = some deletedFile ∧
      s'.ledger.Vetoes [.normal "a"] [.normal "a"] 50 := by
  refine ⟨_, rfl, rfl, rfl, deletedFile, rfl, ⟨List.prefix_refl _, by decide, rfl, ?_⟩, by decide⟩
  intro a ha
  cases ha

/-- The engine has seen the file again before it is restored. -/
def seenThenRestored : List LedgerEvent :=
  [.op (.recordAlive [.normal "a"] 200), .clearRead 0 [[.normal "a"]], .clearWrite 0,
    .clearRename 0, .flushWrite, .flushRename]

theorem lifted_stays_lifted_once_seen :
    ∃ s', Run.runFrom step (start deletedFileLedger) seenThenRestored = some s' ∧
      Run.Always step Safe (start deletedFileLedger) seenThenRestored := by
  refine ⟨_, rfl, lifted_stays_lifted (fun _ => rfl) rfl ?_⟩
  have hnil : ∀ s, Run.StepsMeet step Undisturbed s [] := by
    intro s bs ev t hb
    simp at hb
  refine (Run.stepsMeet_cons rfl).mpr ⟨trivial, (Run.stepsMeet_cons rfl).mpr ⟨trivial,
    (Run.stepsMeet_cons rfl).mpr ⟨trivial, (Run.stepsMeet_cons rfl).mpr ⟨?_,
      (Run.stepsMeet_cons rfl).mpr ⟨trivial, (Run.stepsMeet_cons rfl).mpr ⟨.inr rfl, hnil _⟩⟩⟩⟩⟩⟩
  -- the engine's ledger is without the tombstone when the file is replaced
  intro c hc
  cases hc
  refine .inr ⟨rfl, rfl, fun p _ => ?_⟩
  show (if p = [.normal "a"] then none else
    if p = [.normal "a"] then some deletedFile else none) = none
  split <;> rfl

end LedgerStore

end ByteHive
