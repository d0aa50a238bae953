import ByteHive.ForStd.Since
import ByteHive.Native.Rescan

/-!
# What rescans record

A rescan compares two manifests and records what differs. Over many of them the records about a
path tell how it has come to be as it is: the last one says whether it is there, and without one it
is as it was. Only what is suppressed or excluded when it is seen is lost, and for good, since the
manifest has it from then on.
-/

namespace ByteHive

open Run

/-- The hash of an entry. -/
def hashAt (m : Manifest) (p : PathBuf) : Option Hash := (m.files.get p).map (·.hash)

/-- The action is about the path. -/
def JournalCall.names (p : PathBuf) : JournalCall → Bool
  | .upsert q _ => decide (q = p)
  | .delete q _ => decide (q = p)
  | .rename f t _ => decide (f = p) || decide (t = p)

/-- The time of the action. -/
def JournalCall.stamp : JournalCall → Nat
  | .upsert _ a => a
  | .delete _ a => a
  | .rename _ _ a => a

/-! ## The difference of two manifests -/

theorem mem_changed {h : Host} {old new : Manifest} {p : PathBuf} :
    p ∈ (diffManifests h old new).1 ↔
      (hashAt new p).isSome = true ∧ hashAt new p ≠ hashAt old p := by
  rw [diffManifests, List.mem_filter, h.order.mem_toList, new.files.mem_keys, hashAt, hashAt]
  cases new.files.get p with
  | none => simp
  | some nm =>
    cases old.files.get p with
    | none => simp
    | some om =>
      have hne : om.hash ≠ nm.hash ↔ nm.hash ≠ om.hash := ne_comm
      simpa using hne

theorem mem_deleted {h : Host} {old new : Manifest} {p : PathBuf} :
    p ∈ (diffManifests h old new).2 ↔ hashAt new p = none ∧ hashAt new p ≠ hashAt old p := by
  rw [diffManifests, List.mem_filter, h.order.mem_toList, old.files.mem_keys, hashAt, hashAt]
  cases new.files.get p with
  | some nm => simp
  | none => cases old.files.get p <;> simp

namespace PendingChanges

variable {h : Host} {e : SyncEngine} {s : PendingChanges} {p : PathBuf}

/-- Nothing is waiting to be recorded. -/
structure Drained (s : PendingChanges) : Prop where
  changes : s.changes = ∅
  ready : s.ready = ∅
  deletes : s.deletes = ∅

theorem mem_foldl_addChanged (paths : List PathBuf) (s : PendingChanges) :
    (p ∈ (paths.foldl addChanged s).ready ↔ p ∈ paths ∨ p ∈ s.ready) ∧
      (p ∈ (paths.foldl addChanged s).changes ↔ p ∉ paths ∧ p ∈ s.changes) ∧
      (p ∈ (paths.foldl addChanged s).deletes ↔ p ∉ paths ∧ p ∈ s.deletes) := by
  induction paths generalizing s with
  | nil => simp
  | cons q paths ih =>
    obtain ⟨hready, hchanges, hdeletes⟩ := ih (s.addChanged q)
    rw [List.foldl_cons, hready, hchanges, hdeletes]
    simp only [addChanged, Finset.mem_insert, Finset.mem_erase, List.mem_cons]
    by_cases hq : p = q <;> by_cases hp : p ∈ paths <;> simp [hq, hp]

theorem mem_foldl_addDeleted (paths : List PathBuf) (s : PendingChanges) :
    (p ∈ (paths.foldl addDeleted s).deletes ↔ p ∈ paths ∨ p ∈ s.deletes) ∧
      (p ∈ (paths.foldl addDeleted s).changes ↔ p ∉ paths ∧ p ∈ s.changes) ∧
      (p ∈ (paths.foldl addDeleted s).ready ↔ p ∉ paths ∧ p ∈ s.ready) := by
  induction paths generalizing s with
  | nil => simp
  | cons q paths ih =>
    obtain ⟨hdeletes, hchanges, hready⟩ := ih (s.addDeleted q)
    rw [List.foldl_cons, hdeletes, hchanges, hready]
    simp only [addDeleted, Finset.mem_insert, Finset.mem_erase, List.mem_cons]
    by_cases hq : p = q <;> by_cases hp : p ∈ paths <;> simp [hq, hp]

/-- After a rescan the changed paths are ready and the others of the difference are deletes. -/
theorem periodicRescan_spec (hs : s.Drained) :
    (s.periodicRescan h e true).1.changes = ∅ ∧
      (p ∈ (s.periodicRescan h e true).1.ready ↔
        (hashAt (e.scan h).manifest p).isSome = true ∧
          hashAt (e.scan h).manifest p ≠ hashAt e.manifest p) ∧
      (p ∈ (s.periodicRescan h e true).1.deletes ↔
        hashAt (e.scan h).manifest p = none ∧
          hashAt (e.scan h).manifest p ≠ hashAt e.manifest p) := by
  obtain ⟨hchanges, hready, hdeletes⟩ := hs
  rw [periodicRescan, if_pos rfl]
  dsimp only
  generalize hdiff : diffManifests h e.manifest (e.scan h).manifest = diff
  have hchanged : ∀ q, q ∈ diff.1 ↔ (hashAt (e.scan h).manifest q).isSome = true ∧
      hashAt (e.scan h).manifest q ≠ hashAt e.manifest q := by
    intro q
    rw [← hdiff]
    exact mem_changed
  have hdeleted : ∀ q, q ∈ diff.2 ↔ hashAt (e.scan h).manifest q = none ∧
      hashAt (e.scan h).manifest q ≠ hashAt e.manifest q := by
    intro q
    rw [← hdiff]
    exact mem_deleted
  refine ⟨?_, ?_, ?_⟩
  · apply Finset.eq_empty_of_forall_notMem
    intro q hq
    have hq := ((mem_foldl_addDeleted _ _).2.1.mp hq).2
    have hq := ((mem_foldl_addChanged _ _).2.1.mp hq).2
    simp [hchanges] at hq
  · rw [(mem_foldl_addDeleted _ _).2.2, (mem_foldl_addChanged _ _).1, hchanged, hdeleted, hready]
    constructor
    · rintro ⟨-, hp | hp⟩
      · exact hp
      · simp at hp
    · intro hp
      -- What is there has not been deleted, so the second loop leaves it.
      refine ⟨?_, .inl hp⟩
      rintro ⟨hnone, -⟩
      simp [hnone] at hp
  · rw [(mem_foldl_addDeleted _ _).1, (mem_foldl_addChanged _ _).2.2, hdeleted, hdeletes]
    simp

/-- Of a list without repetition at most one element is `p`. -/
theorem filter_eq_of_nodup {l : List PathBuf} (hl : l.Nodup) :
    l.filter (fun q => decide (q = p)) = if p ∈ l then [p] else [] := by
  induction l with
  | nil => rfl
  | cons q l ih =>
    rw [List.nodup_cons] at hl
    rw [List.filter_cons, ih hl.2]
    by_cases hq : q = p
    · subst hq
      simp [hl.1]
    · have hpq : ¬p = q := fun heq => hq heq.symm
      simp [hq, hpq]

/-- The actions about one path among those that are made of a list. -/
theorem filter_names_map {l : List PathBuf} (hl : l.Nodup) (q : PathBuf → Bool)
    (f : PathBuf → JournalCall) (hf : ∀ x, (f x).names p = decide (x = p)) :
    (((l.filter q).map f).filter (JournalCall.names p)) =
      if p ∈ l ∧ q p = true then [f p] else [] := by
  have hcomp : JournalCall.names p ∘ f = fun x => decide (x = p) := funext hf
  rw [List.filter_map, hcomp, filter_eq_of_nodup (hl.filter q)]
  simp only [List.mem_filter]
  split <;> rfl

/-- What is recorded about one path. -/
theorem rescanCalls_names (hchanges : s.changes = ∅) :
    (s.rescanCalls h e).filter (JournalCall.names p) =
      (if p ∈ s.ready ∧ (!(e.isSuppressed p || e.isExcluded p)) = true then
        [JournalCall.upsert p h.nowMs] else []) ++
      (if p ∈ s.deletes ∧ (!(e.isDeleteSuppressed p || e.isExcluded p)) = true then
        [JournalCall.delete p h.nowMs] else []) := by
  have hnil : h.order.toList s.changes = [] := by
    apply List.eq_nil_iff_forall_not_mem.mpr
    intro q hq
    rw [h.order.mem_toList, hchanges] at hq
    simp at hq
  rw [rescanCalls, hnil, List.nil_append, List.filter_append,
    filter_names_map (h.order.nodup _) _ _ fun _ => rfl,
    filter_names_map (h.order.nodup _) _ _ fun _ => rfl]
  simp only [h.order.mem_toList]

end PendingChanges

namespace RescanState

variable {σ σ' : RescanState} {r : RescanRound} {p : PathBuf}

/-! ## One round -/

/-- The round finds the path changed. -/
def Finds (σ : RescanState) (r : RescanRound) (p : PathBuf) : Prop :=
  hashAt (rescanIntoJournal r.host (σ.before r) r.scans).engine.manifest p ≠
    hashAt σ.engine.manifest p

/-- It finds the path changed while changes to it are not looked at. -/
def Overlooks (σ : RescanState) (r : RescanRound) (p : PathBuf) : Prop :=
  Finds σ r p ∧
    if (hashAt (rescanIntoJournal r.host (σ.before r) r.scans).engine.manifest p).isSome then
      p ∈ r.suppressed
    else p ∈ r.suppressedDeletes ∨ σ.engine.isExcluded p = true

/-- What a round records of a path that it finds to be as it is now. -/
def recordOf (m : Manifest) (p : PathBuf) (nowMs : Nat) : JournalCall :=
  if (hashAt m p).isSome then .upsert p nowMs else .delete p nowMs

theorem stamp_recordOf (m : Manifest) (p : PathBuf) (nowMs : Nat) :
    (recordOf m p nowMs).stamp = nowMs := by
  rw [recordOf]
  split <;> rfl

theorem scan_frame (h : Host) (e : SyncEngine) :
    (e.scan h).manifest = buildManifest h e.tree e.nodeId e.isExcluded ∧
      (e.scan h).isExcluded = e.isExcluded ∧ (e.scan h).suppressed = e.suppressed ∧
      (e.scan h).suppressedDeletes = e.suppressedDeletes := by
  unfold SyncEngine.scan SyncEngine.pruneLedger SyncEngine.flushLedger
  dsimp only
  split
  · exact ⟨rfl, rfl, rfl, rfl⟩
  · split <;> exact ⟨rfl, rfl, rfl, rfl⟩

/-- A scan leaves out what is excluded. -/
theorem not_excluded_of_scanned {h : Host} {e : SyncEngine}
    (hp : (hashAt (e.scan h).manifest p).isSome = true) : e.isExcluded p = false := by
  rw [(scan_frame h e).1, hashAt, buildManifest, FinMap.get_ofKeys] at hp
  by_contra hexcl
  rw [Bool.not_eq_false] at hexcl
  simp [hexcl] at hp

instance : Decidable (Finds σ r p) :=
  inferInstanceAs (Decidable (hashAt _ p ≠ hashAt _ p))

instance : Decidable (Overlooks σ r p) := by
  unfold Overlooks
  infer_instance

theorem drained_step (r : RescanRound) :
    (rescanIntoJournal r.host (σ.before r) r.scans).pending.Drained := ⟨rfl, rfl, rfl⟩

/-- A round records one action about a path that it finds changed and does not overlook, and none
    about another. -/
theorem calls_names (hσ : σ.pending.Drained) :
    (σ.calls r).filter (JournalCall.names p) =
      if Finds σ r p ∧ ¬Overlooks σ r p then
        [recordOf (rescanIntoJournal r.host (σ.before r) r.scans).engine.manifest p r.host.nowMs]
      else [] := by
  cases hscans : r.scans with
  | false =>
    have hnot : ¬Finds σ r p := by
      intro hfinds
      rw [Finds, hscans] at hfinds
      exact hfinds rfl
    have hcalls : σ.calls r = σ.pending.rescanCalls r.host (σ.before r).engine := by
      rw [calls, hscans]
      rfl
    rw [if_neg fun hboth => hnot hboth.1, hcalls,
      PendingChanges.rescanCalls_names hσ.changes]
    simp [hσ.ready, hσ.deletes]
  | true =>
    obtain ⟨hmanifest, hexcl, hsup, hsupd⟩ := scan_frame r.host (σ.before r).engine
    obtain ⟨hchanges, hready, hdeletes⟩ :=
      PendingChanges.periodicRescan_spec (h := r.host) (e := (σ.before r).engine) (p := p) hσ
    have hafter : (rescanIntoJournal r.host (σ.before r) true).engine =
      (σ.before r).engine.scan r.host := rfl
    have hcalls : σ.calls r =
        (σ.pending.periodicRescan r.host (σ.before r).engine true).1.rescanCalls r.host
          ((σ.before r).engine.scan r.host) := by
      rw [calls, hscans]
      rfl
    have hold : (σ.before r).engine.manifest = σ.engine.manifest := rfl
    rw [hcalls, PendingChanges.rescanCalls_names hchanges]
    simp only [hready, hdeletes, hold, Finds, Overlooks, recordOf, hscans, hafter]
    have hlive : ((σ.before r).engine.scan r.host).isSuppressed p = decide (p ∈ r.suppressed) := by
      rw [SyncEngine.isSuppressed, hsup]
      rfl
    have hgone : ((σ.before r).engine.scan r.host).isDeleteSuppressed p =
        decide (p ∈ r.suppressedDeletes) := by
      rw [SyncEngine.isDeleteSuppressed, hsupd]
      rfl
    have hrule : ((σ.before r).engine.scan r.host).isExcluded p = σ.engine.isExcluded p := by
      rw [hexcl]
      rfl
    rw [hlive, hgone, hrule]
    cases hhash : hashAt ((σ.before r).engine.scan r.host).manifest p with
    | none =>
      by_cases hsame : none = hashAt σ.engine.manifest p
      · simp [← hsame]
      · simp [hsame]
    | some x =>
      -- What is scanned is not excluded.
      have hnot : σ.engine.isExcluded p = false :=
        not_excluded_of_scanned (e := (σ.before r).engine) (h := r.host) (by rw [hhash]; rfl)
      by_cases hsame : some x = hashAt σ.engine.manifest p
      · simp [← hsame]
      · simp [hnot, hsame]

/-! ## Runs -/

section

variable {e : SyncEngine} {j : ActionJournal} {rounds : List RescanRound}

/-- What is recorded about a path. -/
def recordsOf (e : SyncEngine) (j : ActionJournal) (rounds : List RescanRound) (p : PathBuf) :
    List JournalCall :=
  given step (fun σ r => (σ.calls r).filter (JournalCall.names p)) (start e j) rounds

/-- The last record agrees with the manifest. -/
def Accounts (old new : Manifest) (p : PathBuf) : Option JournalCall → Prop
  | none => hashAt new p = hashAt old p
  | some (.upsert _ _) => (hashAt new p).isSome = true
  | some (.delete _ _) => hashAt new p = none
  | some (.rename _ _ _) => False

theorem accounts_recordOf (old new : Manifest) (p : PathBuf) (nowMs : Nat) :
    Accounts old new p (some (recordOf new p nowMs)) := by
  rw [recordOf]
  split
  · next hsome => exact hsome
  · next hnone => exact Option.not_isSome_iff_eq_none.mp hnone

theorem drained_run (hrun : runFrom step (start e j) rounds = some σ) : σ.pending.Drained := by
  rcases List.eq_nil_or_concat' rounds with rfl | ⟨rounds, r, rfl⟩
  · cases hrun
    exact ⟨rfl, rfl, rfl⟩
  · obtain ⟨σ₁, -, hstep⟩ := runFrom_concat.mp hrun
    cases hstep
    exact drained_step r

theorem Accounts.congr {old new new' : Manifest} {c : Option JournalCall}
    (h : Accounts old new p c) (hsame : hashAt new' p = hashAt new p) : Accounts old new' p c := by
  cases c with
  | none => exact hsame.trans h
  | some c =>
    cases c with
    | upsert q a =>
      show (hashAt new' p).isSome = true
      rw [hsame]
      exact h
    | delete q a => exact hsame.trans h
    | rename f t a => exact h

/-- Over a run of rescans, and whatever happens to the disk between them, a path has one record for
    each time that it is found changed, if it is never found so while it is suppressed or excluded.
    The last record says whether it is there at the end; without a record it is as it was. -/
theorem rescans_account (e : SyncEngine) (j : ActionJournal) (rounds : List RescanRound)
    {σ : RescanState} (hrun : runFrom step (start e j) rounds = some σ) (p : PathBuf)
    (hseen : StepsMeet step (fun τ r => ¬Overlooks τ r p) (start e j) rounds) :
    Accounts e.manifest σ.engine.manifest p (recordsOf e j rounds p).getLast? ∧
      (recordsOf e j rounds p).map JournalCall.stamp =
        given step (fun τ r => if Finds τ r p then [r.host.nowMs] else []) (start e j) rounds := by
  induction rounds using List.reverseRecOn generalizing σ with
  | nil =>
    cases hrun
    exact ⟨rfl, rfl⟩
  | append_singleton rounds r ih =>
    obtain ⟨σ₁, hrun₁, hstep⟩ := runFrom_concat.mp hrun
    have hlooks : ¬Overlooks σ₁ r p := hseen rounds r σ₁ List.prefix_rfl hrun₁
    have hseen₁ : StepsMeet step (fun τ r => ¬Overlooks τ r p) (start e j) rounds :=
      fun bs a τ hbs => hseen bs a τ (hbs.trans (List.prefix_append _ _))
    obtain ⟨hacc, htimes⟩ := ih hrun₁ hseen₁
    have hcalls := calls_names (r := r) (p := p) (drained_run hrun₁)
    have hrecords : recordsOf e j (rounds ++ [r]) p =
        recordsOf e j rounds p ++ (σ₁.calls r).filter (JournalCall.names p) :=
      given_concat hrun₁
    rw [hrecords, hcalls, given_concat hrun₁, ← htimes]
    obtain rfl := Option.some.inj hstep
    by_cases hfinds : Finds σ₁ r p
    · rw [if_pos ⟨hfinds, hlooks⟩, if_pos hfinds, List.map_append, List.getLast?_concat]
      exact ⟨accounts_recordOf _ _ p _, by rw [List.map_singleton, stamp_recordOf]⟩
    · rw [if_neg fun hboth => hfinds hboth.1, if_neg hfinds, List.append_nil, List.append_nil]
      exact ⟨hacc.congr (not_not.mp hfinds), rfl⟩

end

/-- A root that was empty when it was scanned last. -/
def emptyClient : SyncEngine := .new "client" (fun _ => false) .empty .new

/-- A file that the watcher has missed. -/
def missedFile : RescanRound where
  host := Host.reliable (fun _ => 5) 1000
  tree := (FileTree.empty.write (PathBuf.ofNames ["f"]) [7] 10).getD .empty
  suppressed := ∅
  suppressedDeletes := ∅
  scans := true

theorem rescans_account_missedFile :
    ∃ σ, runFrom step (start emptyClient ⟨.init, []⟩) [missedFile] = some σ ∧
      (recordsOf emptyClient ⟨.init, []⟩ [missedFile] (PathBuf.ofNames ["f"])).map
        JournalCall.stamp = [1000] ∧
      Accounts emptyClient.manifest σ.engine.manifest (PathBuf.ofNames ["f"])
        (recordsOf emptyClient ⟨.init, []⟩ [missedFile] (PathBuf.ofNames ["f"])).getLast? := by
  have hlooks : ¬Overlooks (start emptyClient ⟨.init, []⟩) missedFile (PathBuf.ofNames ["f"]) := by
    decide +kernel
  have hseen : StepsMeet step (fun τ r => ¬Overlooks τ r (PathBuf.ofNames ["f"]))
      (start emptyClient ⟨.init, []⟩) [missedFile] := by
    intro bs r τ hbs hrun
    have hlen := hbs.length_le
    rw [List.length_append, List.length_singleton, List.length_singleton] at hlen
    obtain rfl : bs = [] := List.length_eq_zero_iff.mp (by omega)
    obtain rfl : r = missedFile := by simpa using hbs
    cases hrun
    exact hlooks
  obtain ⟨hacc, -⟩ := rescans_account emptyClient ⟨.init, []⟩ [missedFile] rfl _ hseen
  exact ⟨_, rfl, by decide +kernel, hacc⟩

end RescanState

end ByteHive
