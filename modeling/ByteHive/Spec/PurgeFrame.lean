import ByteHive.Spec.RestoreVeto

/-!
# Which tombstones a purge lifts

A purge lifts the tombstones at and below the original paths of the entries it takes. Tombstones
are kept by path and entries by id, so one tombstone may stand for several deletions: that of the
purged entry, a later one of the same path, or one of a directory above. The purge does not look
for entries that stay.
-/

namespace ByteHive

/-! ## One purge -/

inductive PurgeCall where
  | purgeTrashEntry (id : String)
  | purgeExpiredTrash (checks : Bool) (clock : Nat → Nat) (managerNowMs : Nat)
  | emptyTrash

namespace PurgeCall

open TrashManager

variable {h : Host} {f : PurgeFaults} {s s' : TrashedEngine}

/-- The engine after the call. -/
def run (h : Host) (f : PurgeFaults) (s : TrashedEngine) : PurgeCall → Option TrashedEngine
  | .purgeTrashEntry id => some (s.purgeTrashEntry h f id).2
  | .purgeExpiredTrash checks clock managerNowMs =>
    (s.purgeExpiredTrash checks h f clock managerNowMs).map (·.2)
  | .emptyTrash => some (s.emptyTrash h f).2

/-- The cut-off of the `TrashManager`, where it purges at all. -/
def cutoffMs (checks : Bool) (managerNowMs : Nat) (s : TrashedEngine) : Option Nat :=
  match s.expiryDays with
  | none => none
  | some days => if days = 0 then none else expiryCutoffMs checks days managerNowMs

/-- The entries that the call purges. -/
def purged (f : PurgeFaults) (s : TrashedEngine) : PurgeCall → List TrashEntry
  | .purgeTrashEntry id =>
    if (removeDir f s.root id).isSome then (s.listTrash.find? (·.id = id)).toList else []
  | .purgeExpiredTrash checks _ managerNowMs =>
    match cutoffMs checks managerNowMs s with
    | none => []
    | some cutoff => expired cutoff s.listTrash
  | .emptyTrash => s.listTrash

/-- The entries that are listed after the call: the others, or all of them when the index cannot
    be written. -/
def remaining (f : PurgeFaults) (s : TrashedEngine) (call : PurgeCall) : List TrashEntry :=
  if call.purged f s = [] ∨ f.saves s.root = false then s.listTrash
  else
    match call with
    | .purgeTrashEntry id => s.listTrash.eraseP (·.id = id)
    | .purgeExpiredTrash checks _ managerNowMs =>
      match cutoffMs checks managerNowMs s with
      | none => s.listTrash
      | some cutoff => s.listTrash.filter (cutoff ≤ ·.deletedAtMs)
    | .emptyTrash => []

/-- The paths whose tombstones the call lifts. -/
def lifted (f : PurgeFaults) (s : TrashedEngine) (call : PurgeCall) : List PathBuf :=
  if call.purged f s = [] then []
  else
    match call with
    | .purgeExpiredTrash checks clock _ =>
      ((s.expiredEntries checks clock).getD []).map (·.originalPath)
    | _ => (call.purged f s).map (·.originalPath)

end PurgeCall

namespace TrashedEngine

open TrashManager

variable {h : Host} {f : PurgeFaults} {s s' : TrashedEngine}

/-- Every entry of the index is one that `move_to_trash` made. -/
def AllMade (s : TrashedEngine) : Prop := ∀ e ∈ s.listTrash, Made e

theorem ledger_clearLedgerPrefixes (h : Host) (s : TrashedEngine) (pres : List PathBuf) :
    (s.clearLedgerPrefixes h pres).engine.ledger = s.engine.ledger.withoutBelow pres :=
  SyncEngine.ledger_clearLedgerPrefixes h s.engine pres

theorem AllMade.ids (hs : s.AllMade) (entries : List TrashEntry)
    (hsub : ∀ e ∈ entries, e ∈ s.listTrash) :
    ∀ id ∈ entries.map (·.id), ∃ e, Made e ∧ e.id = id := by
  intro id hid
  obtain ⟨e, he, rfl⟩ := List.mem_map.mp hid
  exact ⟨e, hs e (hsub e he), rfl⟩

end TrashedEngine

namespace DeletionLedger

@[simp] theorem withoutBelow_nil (l : DeletionLedger) : l.withoutBelow [] = l := by
  apply ext_get
  · intro q
    rw [get_withoutBelow]
    simp
  · rfl

end DeletionLedger

namespace PurgeCall

open TrashManager

variable {h : Host} {f : PurgeFaults} {s s' : TrashedEngine}

theorem run_purgeTrashEntry (hs : s.AllMade) (id : String) :
    (s.purgeTrashEntry h f id).2.engine.ledger =
        s.engine.ledger.withoutBelow ((purgeTrashEntry id).lifted f s) ∧
      (s.purgeTrashEntry h f id).2.listTrash = (purgeTrashEntry id).remaining f s := by
  have hany : (loadIndex s.root).any (·.id = id) = (s.listTrash.find? (·.id = id)).isSome := by
    rw [Bool.eq_iff_iff, List.any_eq_true, List.find?_isSome]
    rfl
  rw [TrashedEngine.purgeTrashEntry, purgeEntry, hany]
  cases hfind : s.listTrash.find? (·.id = id) with
  | none =>
    have hnone : (purgeTrashEntry id).purged f s = [] := by simp [purged, hfind]
    simp [lifted, remaining, hnone, TrashedEngine.listTrash]
  | some e =>
    cases hremove : removeDir f s.root id with
    | none =>
      have hnone : (purgeTrashEntry id).purged f s = [] := by simp [purged, hremove]
      simp [lifted, remaining, hnone, TrashedEngine.listTrash]
    | some t =>
      have hpurged : (purgeTrashEntry id).purged f s = [e] := by simp [purged, hremove, hfind]
      have hid : e.id = id := by simpa using List.find?_some hfind
      have hdirs : removeDirs f s.root [id] = t := by simp [removeDirs, hremove]
      obtain ⟨hload, hsaves⟩ := removeDirs_index (f := f) (t := s.root) [id]
        fun id' hid' => ⟨e, hs e (List.mem_of_find?_eq_some hfind),
          hid.trans (List.mem_singleton.mp hid').symm⟩
      rw [hdirs] at hload hsaves
      have hlifted : (purgeTrashEntry id).lifted f s = [e.originalPath] := by
        simp [lifted, hpurged]
      have hremaining : (purgeTrashEntry id).remaining f s =
          if f.saves t then s.listTrash.eraseP (·.id = id) else s.listTrash := by
        rw [hsaves]
        cases hf : f.saves s.root <;> simp [remaining, hpurged, hf]
      simp only [Option.isSome_some, if_true]
      constructor
      · rw [TrashedEngine.ledger_clearLedgerPrefixes, TrashedEngine.originalPath?, hfind, hlifted]
        rfl
      · rw [hremaining]
        exact (loadIndex_saveIndexOr _ _).trans (by rw [hload]; rfl)

theorem purgeExpired_spec (hs : s.AllMade) {checks : Bool} (clock : Nat → Nat)
    {managerNowMs count : Nat} {root : TrashTree}
    (hrun : purgeExpired checks f s.root managerNowMs s.expiryDays = some (count, root)) :
    count = ((purgeExpiredTrash checks clock managerNowMs).purged f s).length ∧
      loadIndex root = (purgeExpiredTrash checks clock managerNowMs).remaining f s := by
  -- Where nothing is purged, nothing changes.
  have hidle : ((purgeExpiredTrash checks clock managerNowMs).purged f s) = [] →
      (0, s.root) = (count, root) → count = ((purgeExpiredTrash checks clock managerNowMs).purged f
        s).length ∧ loadIndex root = (purgeExpiredTrash checks clock managerNowMs).remaining f s := by
    intro hnone heq
    cases heq
    rw [remaining, hnone, if_pos (.inl rfl)]
    exact ⟨rfl, rfl⟩
  unfold purgeExpired at hrun
  cases hdays : s.expiryDays with
  | none =>
    rw [hdays] at hrun
    exact hidle (by simp [purged, cutoffMs, hdays]) (Option.some.inj hrun)
  | some days =>
    simp only [hdays] at hrun
    by_cases hzero : days = 0
    · rw [if_pos hzero] at hrun
      exact hidle (by simp [purged, cutoffMs, hdays, hzero]) (Option.some.inj hrun)
    · rw [if_neg hzero] at hrun
      obtain ⟨cutoff, hcutoff, hrun⟩ := Option.bind_eq_some_iff.mp hrun
      have hpurged : (purgeExpiredTrash checks clock managerNowMs).purged f s =
          expired cutoff s.listTrash := by simp [purged, cutoffMs, hdays, hzero, hcutoff]
      by_cases hnone : expired cutoff s.listTrash = []
      · have hnone' : expired cutoff (loadIndex s.root) = [] := hnone
        rw [if_pos hnone'] at hrun
        exact hidle (hpurged.trans hnone) (Option.some.inj hrun)
      · have hnone' : expired cutoff (loadIndex s.root) ≠ [] := hnone
        rw [if_neg hnone'] at hrun
        cases hrun
        obtain ⟨hload, hsaves⟩ := removeDirs_index (f := f) (t := s.root) _
          (hs.ids (expired cutoff s.listTrash) fun e he => (List.mem_filter.mp he).1)
        refine ⟨by rw [hpurged]; rfl, (loadIndex_saveIndexOr _ _).trans ?_⟩
        rw [show removeDirs f s.root ((expired cutoff (loadIndex s.root)).map (·.id)) =
          removeDirs f s.root ((expired cutoff s.listTrash).map (·.id)) from rfl, hload, hsaves]
        cases hf : f.saves s.root with
        | false => simp [remaining, hf, TrashedEngine.listTrash]
        | true =>
          simp [remaining, hpurged, hnone', hf, cutoffMs, hdays, hzero, hcutoff, IndexChange.apply,
            TrashedEngine.listTrash]

theorem run_emptyTrash (hs : s.AllMade) :
    (s.emptyTrash h f).2.engine.ledger = s.engine.ledger.withoutBelow (emptyTrash.lifted f s) ∧
      (s.emptyTrash h f).2.listTrash = emptyTrash.remaining f s := by
  obtain ⟨hload, hsaves⟩ := removeDirs_index (f := f) (t := s.root) _
    (hs.ids s.listTrash fun e he => he)
  have hroot : loadIndex (TrashManager.empty f s.root h.nowMs).2 = emptyTrash.remaining f s := by
    refine (loadIndex_saveIndexOr _ _).trans ?_
    rw [show removeDirs f s.root ((loadIndex s.root).map (·.id)) =
      removeDirs f s.root (s.listTrash.map (·.id)) from rfl, hload, hsaves]
    cases hf : f.saves s.root with
    | false => simp [remaining, hf, TrashedEngine.listTrash]
    | true =>
      by_cases hnil : s.listTrash = [] <;> simp [remaining, purged, hnil, hf]
  have hresult : (s.emptyTrash h f).2 =
      if 0 < s.listTrash.length then
        { s with root := (TrashManager.empty f s.root h.nowMs).2 }.clearLedgerPrefixes h
          (s.listTrash.map TrashEntry.originalPath)
      else { s with root := (TrashManager.empty f s.root h.nowMs).2 } := by
    unfold TrashedEngine.emptyTrash
    exact apply_ite Prod.snd _ _ _
  rw [hresult]
  by_cases hnil : s.listTrash = []
  · have hlifted : emptyTrash.lifted f s = [] := by simp [lifted, purged, hnil]
    rw [hlifted, DeletionLedger.withoutBelow_nil, hnil, if_neg (by simp)]
    exact ⟨rfl, hroot⟩
  · have hlifted : emptyTrash.lifted f s = s.listTrash.map (·.originalPath) := by
      simp [lifted, purged, hnil]
    rw [hlifted, if_pos (List.length_pos_of_ne_nil hnil)]
    exact ⟨TrashedEngine.ledger_clearLedgerPrefixes h _ _, hroot⟩

/-- What a call does to the ledger and to the index. -/
theorem run_spec (hs : s.AllMade) {call : PurgeCall} (hrun : call.run h f s = some s') :
    s'.engine.ledger = s.engine.ledger.withoutBelow (call.lifted f s) ∧
      s'.listTrash = call.remaining f s := by
  cases call with
  | purgeTrashEntry id =>
    obtain rfl := Option.some.inj hrun
    exact run_purgeTrashEntry hs id
  | emptyTrash =>
    obtain rfl := Option.some.inj hrun
    exact run_emptyTrash hs
  | purgeExpiredTrash checks clock managerNowMs =>
    have hmap : (s.purgeExpiredTrash checks h f clock managerNowMs).map (·.2) = some s' := hrun
    obtain ⟨⟨count, s''⟩, hcall, rfl⟩ := Option.map_eq_some_iff.mp hmap
    unfold TrashedEngine.purgeExpiredTrash at hcall
    obtain ⟨entries, hentries, hcall⟩ := Option.bind_eq_some_iff.mp hcall
    obtain ⟨⟨count', root⟩, hpurge, hcall⟩ := Option.bind_eq_some_iff.mp hcall
    obtain ⟨hcount, hroot⟩ := purgeExpired_spec hs clock hpurge
    simp only at hcall
    by_cases hpos : count' > 0
    · rw [if_pos hpos] at hcall
      cases hcall
      have hne : (PurgeCall.purgeExpiredTrash checks clock managerNowMs).purged f s ≠ [] := by
        intro hnil
        rw [hnil] at hcount
        simp [hcount] at hpos
      refine ⟨?_, hroot⟩
      rw [TrashedEngine.ledger_clearLedgerPrefixes, lifted, if_neg hne]
      simp [hentries]
    · rw [if_neg hpos] at hcall
      cases hcall
      have hnil : (PurgeCall.purgeExpiredTrash checks clock managerNowMs).purged f s = [] := by
        rw [← List.length_eq_zero_iff]
        omega
      refine ⟨?_, hroot⟩
      simp [lifted, hnil]

/-- A tombstone that the call lifts lies at or below the original path of an entry that is purged,
    and no entry that is listed afterwards covers it. -/
def LiftsOwn (h : Host) (f : PurgeFaults) (s : TrashedEngine) (call : PurgeCall) : Prop :=
  ∀ s' q, call.run h f s = some s' → (s.engine.ledger.entries.get q).isSome = true →
    s'.engine.ledger.entries.get q = none →
      (∃ e ∈ call.purged f s, e.originalPath <+: q) ∧ ∀ e ∈ s'.listTrash, ¬ e.originalPath <+: q

/-- Every tombstone at or below a path to be lifted lies at or below the original path of an entry
    that goes, and of none that stays. -/
def NoOverlap (f : PurgeFaults) (s : TrashedEngine) (call : PurgeCall) : Prop :=
  ∀ q, (s.engine.ledger.entries.get q).isSome = true → (∃ pre ∈ call.lifted f s, pre <+: q) →
    (∃ e ∈ call.purged f s, e.originalPath <+: q) ∧
      ∀ e ∈ call.remaining f s, ¬ e.originalPath <+: q

/-- Where the index can be written, emptying the trash leaves no entry to meet. -/
theorem noOverlap_emptyTrash (hsaves : f.saves s.root = true) : emptyTrash.NoOverlap f s := by
  intro q _ hlifted
  have hpurged : emptyTrash.purged f s = s.listTrash := rfl
  by_cases hnil : s.listTrash = []
  · simp [lifted, hpurged, hnil] at hlifted
  · have hremaining : emptyTrash.remaining f s = [] := by simp [remaining, hpurged, hnil, hsaves]
    rw [hremaining]
    simp [lifted, hpurged, hnil] at hlifted
    exact ⟨hlifted, fun e he => by cases he⟩

/-- A call that panics would not have lifted anything. -/
theorem run_isSome_of_lifted {call : PurgeCall} (hlifted : call.lifted f s ≠ []) :
    (call.run h f s).isSome = true := by
  cases call with
  | purgeTrashEntry id => rfl
  | emptyTrash => rfl
  | purgeExpiredTrash checks clock managerNowMs =>
    have hpurged : (purgeExpiredTrash checks clock managerNowMs).purged f s ≠ [] := by
      intro hnil
      simp [lifted, hnil] at hlifted
    cases hentries : s.expiredEntries checks clock with
    | none => simp [lifted, hentries] at hlifted
    | some entries =>
      cases hdays : s.expiryDays with
      | none => simp [purged, cutoffMs, hdays] at hpurged
      | some days =>
        by_cases hzero : days = 0
        · simp [purged, cutoffMs, hdays, hzero] at hpurged
        · cases hcutoff : expiryCutoffMs checks days managerNowMs with
          | none => simp [purged, cutoffMs, hdays, hzero, hcutoff] at hpurged
          | some cutoff =>
            have hexpired : expired cutoff (loadIndex s.root) ≠ [] := by
              intro hnil
              simp [purged, cutoffMs, hdays, hzero, hcutoff, TrashedEngine.listTrash, hnil]
                at hpurged
            have hlen := List.length_pos_of_ne_nil hexpired
            simp [run, TrashedEngine.purgeExpiredTrash, hentries, purgeExpired, hdays, hzero,
              hcutoff, hexpired, hlen]

theorem liftsOwn_iff (hs : s.AllMade) (call : PurgeCall) :
    call.LiftsOwn h f s ↔ call.NoOverlap f s := by
  constructor
  · intro hown q hq hlifted
    have hne : call.lifted f s ≠ [] := by
      obtain ⟨pre, hpre, -⟩ := hlifted
      exact List.ne_nil_of_mem hpre
    obtain ⟨s', hrun⟩ := Option.isSome_iff_exists.mp (run_isSome_of_lifted (h := h) hne)
    obtain ⟨hledger, hlist⟩ := run_spec hs hrun
    rw [← hlist]
    refine hown s' q hrun hq ?_
    rw [hledger, DeletionLedger.get_withoutBelow, if_pos hlifted]
  · intro hno s' q hrun hq hgone
    obtain ⟨hledger, hlist⟩ := run_spec hs hrun
    rw [hlist]
    refine hno q hq ?_
    -- A tombstone that is gone was lifted.
    by_contra hnot
    rw [hledger, DeletionLedger.get_withoutBelow, if_neg hnot] at hgone
    rw [hgone] at hq
    cases hq

end PurgeCall

/-! ## Runs -/

/-- What happens to the trash and the ledger. -/
inductive TrashedEvent where
  | moveToTrash (now ns seq : Nat) (rel : PathBuf) (deletedBy : String)
  | restore (h : Host) (id : String) (dest : Option PathBuf)
  | purge (h : Host) (f : TrashManager.PurgeFaults) (call : PurgeCall)
  /-- Anything that leaves the index alone: a tombstone is recorded or merged, a live action is
      recorded, files change. -/
  | other (s : TrashedEngine)

namespace TrashedEngine

open TrashManager

variable {s s' : TrashedEngine}

def step (s : TrashedEngine) : TrashedEvent → Option TrashedEngine
  | .moveToTrash now ns seq rel deletedBy =>
    (moveToTrash s.root now (trashId ns seq) rel deletedBy).map fun root => { s with root }
  | .restore h id dest => (s.restoreTrashEntryWithDest h id dest).map (·.2)
  | .purge h f call => call.run h f s
  | .other s' => if s'.listTrash = s.listTrash then some s' else none

/-- The purges of a run lift no tombstone of an entry that stays. -/
def PurgesLiftOwn (s : TrashedEngine) : TrashedEvent → Prop
  | .purge h f call => call.LiftsOwn h f s
  | _ => True

/-- The purges of a run meet no entry that stays. -/
def PurgesApart (s : TrashedEngine) : TrashedEvent → Prop
  | .purge _ f call => call.NoOverlap f s
  | _ => True

theorem AllMade.of_subset (hs : s.AllMade) (hsub : ∀ e ∈ s'.listTrash, e ∈ s.listTrash) :
    s'.AllMade := fun e he => hs e (hsub e he)

theorem PurgeCall.mem_of_remaining {f : PurgeFaults} {call : PurgeCall} {e : TrashEntry}
    (he : e ∈ call.remaining f s) : e ∈ s.listTrash := by
  unfold PurgeCall.remaining at he
  split at he
  · exact he
  · split at he
    · exact List.mem_of_mem_eraseP he
    · split at he
      · exact he
      · exact (List.mem_filter.mp he).1
    · cases he

theorem AllMade.moveToTrash (hs : s.AllMade) {now ns seq : Nat} {rel : PathBuf}
    {deletedBy : String} {root : TrashTree}
    (h : TrashManager.moveToTrash s.root now (trashId ns seq) rel deletedBy = some root) :
    AllMade { s with root } := by
  unfold TrashManager.moveToTrash at h
  split at h
  · cases h
    exact hs
  · obtain ⟨⟨t, entry⟩, hmove, hsave⟩ := Option.bind_eq_some_iff.mp h
    have hmade := made_moveData hmove
    intro e he
    have hload : loadIndex root = loadIndex t ++ [entry] := (saveIndex_spec hsave).1
    have he' : e ∈ loadIndex t ++ [entry] := hload ▸ he
    rcases List.mem_append.mp he' with hold | hnew
    · exact hs e (mem_of_moveData hmove hmade hold)
    · rw [List.mem_singleton.mp hnew]
      exact hmade

theorem AllMade.restore (hs : s.AllMade) {h : Host} {id : String} {dest : Option PathBuf}
    {res : Except TrashRestoreError PathBuf}
    (hrun : s.restoreTrashEntryWithDest h id dest = some (res, s')) : s'.AllMade := by
  unfold restoreTrashEntryWithDest at hrun
  split at hrun
  · cases hrun
  · next err root hres =>
    cases hrun
    obtain rfl := restoreEntry_error hres
    exact hs
  · next destRel root hres =>
    cases hrun
    obtain ⟨t, -, hsave⟩ := restoreEntry_ok hres
    have hload : loadIndex root = (loadIndex s.root).eraseP (·.id = id) := (saveIndex_spec hsave).1
    apply hs.of_subset
    intro e he
    have he' : e ∈ loadIndex root := he
    rw [hload] at he'
    exact List.mem_of_mem_eraseP he'

theorem AllMade.step (hs : s.AllMade) {ev : TrashedEvent} (h : s.step ev = some s') :
    s'.AllMade := by
  cases ev with
  | moveToTrash now ns seq rel deletedBy =>
    obtain ⟨root, hmove, rfl⟩ := Option.map_eq_some_iff.mp h
    exact hs.moveToTrash hmove
  | restore host id dest =>
    have hmap : (s.restoreTrashEntryWithDest host id dest).map (·.2) = some s' := h
    obtain ⟨⟨res, s''⟩, hrun, rfl⟩ := Option.map_eq_some_iff.mp hmap
    exact hs.restore hrun
  | purge host f call =>
    obtain ⟨-, hlist⟩ := PurgeCall.run_spec hs h
    exact hs.of_subset fun e he => PurgeCall.mem_of_remaining (hlist ▸ he)
  | other t =>
    have hif : (if t.listTrash = s.listTrash then some t else none) = some s' := h
    split at hif
    · next hsame =>
      cases hif
      exact hs.of_subset fun e he => hsame ▸ he
    · cases hif

/-- In every run, every purge lifts only what belongs to the entries it takes, exactly if no purge
    meets an entry that stays. -/
theorem purges_lift_own_iff (hs : s.AllMade) (evs : List TrashedEvent) :
    Run.StepsMeet step PurgesLiftOwn s evs ↔ Run.StepsMeet step PurgesApart s evs := by
  refine Run.stepsMeet_congr (I := AllMade) (fun _ _ _ hs hstep => hs.step hstep) ?_ hs evs
  intro s ev hs
  cases ev with
  | purge h f call => exact PurgeCall.liftsOwn_iff hs call
  | moveToTrash now ns seq rel deletedBy => exact Iff.rfl
  | restore h id dest => exact Iff.rfl
  | other t => exact Iff.rfl

/-! ## A path that was deleted twice -/

/-- A root with the file `a`, nothing in the trash, and one day until entries expire. -/
def withA : TrashedEngine :=
  ⟨.new "n" (fun _ => false) .empty .new,
    ((FileTree.empty : TrashTree).write (PathBuf.ofNames ["a"]) (.bytes [1]) 10).getD .empty, some 1⟩

def moveA (ms : Nat) : TrashedEvent :=
  .moveToTrash ms (ms * 1000000) ms (.ofNames ["a"]) "n"

/-- After `a` was moved to the trash and its tombstone was recorded. -/
def deletedA (ms : Nat) (s : TrashedEngine) : TrashedEngine :=
  let s := (s.step (moveA ms)).getD s
  { s with
    engine := s.engine.recordDelete (.reliable (fun _ => 0) ms) (.ofNames ["a"]) ms "n" none none }

/-- After `a` was written anew. -/
def recreatedA (ms : Nat) (s : TrashedEngine) : TrashedEngine :=
  { s with
    engine := s.engine.recordLiveActions (.reliable (fun _ => 0) ms) [(.ofNames ["a"], ms)]
    root := (s.root.write (PathBuf.ofNames ["a"]) (.bytes [2]) ms).getD s.root }

/-- Deleted at 50, written anew at 60, deleted at 100. -/
def twiceDeleted : List TrashedEvent :=
  [moveA 50, .other (recreatedA 60 (deletedA 50 withA)), moveA 100,
    .other (deletedA 100 (recreatedA 60 (deletedA 50 withA)))]

/-- Expired is what was deleted before 80. -/
def purgeAt80 : TrashedEvent :=
  .purge (.reliable (fun _ => 0) 86400080) .none
    (.purgeExpiredTrash false (fun _ => 86400080) 86400080)

theorem withA_allMade : withA.AllMade := by
  have hnil : withA.listTrash = [] := by decide +kernel
  intro e he
  rw [hnil] at he
  cases he

/-- The expiry of the first entry lifts the tombstone of the second delete, whose entry stays. -/
theorem later_tombstone_lifted :
    withA.AllMade ∧ ∃ s s', Run.runFrom step withA twiceDeleted = some s ∧
      s.step purgeAt80 = some s' ∧
      (s.engine.ledger.entries.get (PathBuf.ofNames ["a"])).map (·.deletedAtMs) = some 100 ∧
      s'.engine.ledger.entries.get (PathBuf.ofNames ["a"]) = none ∧
      s'.listTrash.map (fun e => (e.originalPath, e.deletedAtMs)) = [(.ofNames ["a"], 100)] ∧
      ¬ s.PurgesLiftOwn purgeAt80 := by
  have hrun : ((Run.runFrom step withA twiceDeleted).bind fun s => (s.step purgeAt80).map fun s' =>
      ((s.engine.ledger.entries.get (PathBuf.ofNames ["a"])).map (·.deletedAtMs),
        (s'.engine.ledger.entries.get (PathBuf.ofNames ["a"])).isNone,
        s'.listTrash.map fun e => (e.originalPath, e.deletedAtMs))) =
      some (some 100, true, [(.ofNames ["a"], 100)]) := by decide +kernel
  obtain ⟨s, hs, hmap⟩ := Option.bind_eq_some_iff.mp hrun
  obtain ⟨s', hs', heq⟩ := Option.map_eq_some_iff.mp hmap
  simp only [Prod.mk.injEq, Option.isNone_iff_eq_none] at heq
  obtain ⟨hbefore, hafter, hlist⟩ := heq
  refine ⟨withA_allMade, s, s', hs, hs', hbefore, hafter, hlist, fun hown => ?_⟩
  have hsome : (s.engine.ledger.entries.get (PathBuf.ofNames ["a"])).isSome = true := by
    cases hget : s.engine.ledger.entries.get (PathBuf.ofNames ["a"]) with
    | none => rw [hget] at hbefore; cases hbefore
    | some tomb => rfl
  obtain ⟨-, hstays⟩ := hown s' _ hs' hsome hafter
  have hmem : (PathBuf.ofNames ["a"], 100) ∈
      s'.listTrash.map fun e => (e.originalPath, e.deletedAtMs) := by rw [hlist]; simp
  obtain ⟨e, he, heq⟩ := List.mem_map.mp hmem
  have hpath : e.originalPath = PathBuf.ofNames ["a"] := congrArg Prod.fst heq
  exact hstays e he (hpath ▸ List.prefix_refl _)

/-- Emptying the trash after one delete. -/
theorem purges_lift_own_once :
    Run.StepsMeet step PurgesLiftOwn (deletedA 50 withA)
      [.purge (.reliable (fun _ => 0) 1000) .none .emptyTrash] := by
  have hentries : (deletedA 50 withA).listTrash = [⟨trashId 50000000 50, .ofNames ["a"],
      .normal (trashId 50000000 50) :: PathBuf.ofNames ["a"], 50, false, "n"⟩] := by
    decide +kernel
  have hmade : (deletedA 50 withA).AllMade := by
    intro e he
    rw [hentries] at he
    rw [List.mem_singleton.mp he]
    exact ⟨rfl, _, _, rfl⟩
  refine (purges_lift_own_iff hmade _).mpr fun evs ev s hpre hrun => ?_
  have hnil : evs = [] := by
    have hlen := hpre.length_le
    rw [List.length_append, List.length_singleton, List.length_singleton] at hlen
    exact List.eq_nil_of_length_eq_zero (by omega)
  subst hnil
  obtain rfl : deletedA 50 withA = s := Option.some.inj hrun
  obtain ⟨rfl, -⟩ := List.cons_prefix_cons.mp hpre
  exact PurgeCall.noOverlap_emptyTrash (by decide +kernel)

end TrashedEngine

end ByteHive
