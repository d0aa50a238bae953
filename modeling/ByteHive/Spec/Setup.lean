import ByteHive.ForStd.Run
import ByteHive.ForStd.Separated
import ByteHive.Native.AccountCalls
import Mathlib.Data.Finset.Dedup

/-!
# First-run setup

`complete_setup` looks whether there are accounts under one lock and adds the administrator
under another, with nothing in between that would keep other calls out. It keeps its promise
exactly where every account that came in between has gone again by then.

## Key results

- `usernames_firstBlock` / `usernames_nextBlock`: what the blocks do to the user names
- `setup_step_iff`: one block keeps the promise exactly if no setup comes too late
- `setup_only_when_empty_iff`: the same for whole runs
-/

namespace ByteHive

/-! ## What a block does to the user names -/

inductive NamesChange where
  | kept
  | added (name : String)
  | removed (name : String)
deriving DecidableEq, Repr

namespace NamesChange

def onList : NamesChange → List String → List String
  | .kept, names => names
  | .added name, names => names ++ [name]
  | .removed name, names => names.filter fun n => decide (n ≠ name)

def onSet : NamesChange → Finset String → Finset String
  | .kept, names => names
  | .added name, names => insert name names
  | .removed name, names => names.erase name

theorem toFinset_onList (c : NamesChange) (names : List String) :
    (c.onList names).toFinset = c.onSet names.toFinset := by
  cases c with
  | kept => rfl
  | added name =>
    ext n
    simp [onList, onSet]
  | removed name =>
    ext n
    simp [onList, onSet, and_comm]

end NamesChange

namespace AccountCall

def namesChange : AccountCall → BlockEnd → NamesChange
  | .addUser entry, .persist => .added entry.username
  | .removeUser username, .next _ => .removed username
  | _, _ => .kept

end AccountCall

namespace AccountBlock

def namesChange : AccountBlock → NamesChange
  | .insertAdmin _ => .added "admin"
  | _ => .kept

def isInsertAdmin : AccountBlock → Bool
  | .insertAdmin _ => true
  | _ => false

end AccountBlock

namespace UserStore

def usernames (s : UserStore) : List String := s.users.map (·.username)

theorem usernames_eq_nil_iff (s : UserStore) : s.usernames = [] ↔ s.users = [] :=
  List.map_eq_nil_iff

/-- A change of the first match that keeps a field keeps the list of that field. -/
theorem map_updateFirst {α β : Type} {p : α → Bool} {f : α → α} (g : α → β)
    (hf : ∀ a, g (f a) = g a) {as bs : List α} (h : updateFirst p f as = some bs) :
    bs.map g = as.map g := by
  induction as generalizing bs with
  | nil => cases h
  | cons a as ih =>
    unfold updateFirst at h
    split at h
    · cases h
      rw [List.map_cons, List.map_cons, hf]
    · obtain ⟨cs, hcs, rfl⟩ := Option.map_eq_some_iff.mp h
      rw [List.map_cons, List.map_cons, ih hcs]

variable {s s' : UserStore}

theorem usernames_addUser {entry : UserEntry} (h : s.addUser entry = .ok s') :
    entry.username ∉ s.usernames ∧ s'.usernames = s.usernames ++ [entry.username] := by
  unfold addUser at h
  split at h
  · cases h
  · next hnew =>
    cases h
    constructor
    · simpa [usernames] using hnew
    · simp [usernames]

theorem usernames_retainUsers {username : String} (h : s.retainUsers username = .ok s') :
    s'.usernames = s.usernames.filter fun name => decide (name ≠ username) := by
  unfold retainUsers at h
  simp only at h
  split at h
  · cases h
  · cases h
    rw [usernames, usernames, List.filter_map]
    rfl

theorem usernames_updateUser {username : String} {newDisplayName newPasswordHash : Option String}
    (h : s.updateUser username newDisplayName newPasswordHash = .ok s') :
    s'.usernames = s.usernames := by
  unfold updateUser at h
  split at h
  · next users hupdate =>
    cases h
    apply map_updateFirst UserEntry.username _ hupdate
    intro u
    rfl
  · cases h

theorem users_updateGroup {groupName : String} {f : List String → List String}
    (h : s.updateGroup groupName f = .ok s') : s'.users = s.users := by
  unfold updateGroup at h
  split at h <;> cases h
  rfl

/-- A block whose result leaves the user names alone. -/
theorem usernames_blockOf {done : BlockEnd} {result : Except String UserStore}
    (h : ∀ s', result = .ok s' → s'.usernames = s.usernames) :
    (s.blockOf done result).2.usernames = s.usernames := by
  cases result with
  | ok s' => exact h s' rfl
  | error e => rfl

theorem usernames_firstBlock (argon2 : Argon2) (s : UserStore) (draw : Draw) (call : AccountCall) :
    (s.firstBlock argon2 draw call).2.usernames =
      (call.namesChange (s.firstBlock argon2 draw call).1).onList s.usernames := by
  have hother : ∀ result : Except String UserStore,
      (∀ s', result = .ok s' → s'.users = s.users) →
      (s.blockOf .persist result).2.usernames = s.usernames := by
    intro result h
    apply usernames_blockOf
    intro s' hs'
    rw [usernames, h s' hs', usernames]
  cases call with
  | completeSetup password =>
    apply usernames_blockOf
    intro s' hs'
    cases hcheck : s.checkSetup password with
    | ok u =>
      rw [hcheck] at hs'
      cases hs'
      rfl
    | error e =>
      rw [hcheck] at hs'
      cases hs'
  | addUser entry =>
    simp only [firstBlock]
    cases hadd : s.addUser entry with
    | ok s' => exact (usernames_addUser hadd).2
    | error e => rfl
  | removeUser username =>
    simp only [firstBlock]
    cases hretain : s.retainUsers username with
    | ok s' => exact usernames_retainUsers hretain
    | error e => rfl
  | updateUser username newDisplayName newPassword =>
    exact usernames_blockOf fun s' hs' => usernames_updateUser hs'
  | addGroup group =>
    apply hother
    intro s' hs'
    unfold addGroup at hs'
    split at hs' <;> cases hs'
    rfl
  | removeGroup name =>
    apply hother
    intro s' hs'
    unfold removeGroup at hs'
    split at hs'
    · cases hs'
    · simp only at hs'
      split at hs' <;> cases hs'
      rfl
  | addMemberToGroup groupName username => exact hother _ fun s' hs' => users_updateGroup hs'
  | removeMemberFromGroup groupName username => exact hother _ fun s' hs' => users_updateGroup hs'
  | createApiKey name asUser expiresMs =>
    apply hother
    intro s' hs'
    unfold createApiKey at hs'
    split at hs' <;> cases hs'
    rfl
  | revokeApiKey name =>
    apply hother
    intro s' hs'
    unfold revokeApiKey at hs'
    simp only at hs'
    split at hs' <;> cases hs'
    rfl
  | gc => rfl

theorem usernames_nextBlock (argon2 : Argon2) (s : UserStore) (draw : Draw)
    (block : AccountBlock) :
    (s.nextBlock argon2 draw block).2.usernames = block.namesChange.onList s.usernames := by
  cases block with
  | insertAdmin password => simp [nextBlock, insertAdmin, usernames, AccountBlock.namesChange,
      NamesChange.onList]
  | dropSessions username => rfl
  | dropMember username => rfl
  | gcApiKeys =>
    simp only [nextBlock]
    split <;> rfl

/-- Only `complete_setup` goes on to the insertion of the administrator, and from an empty list. -/
theorem users_of_firstBlock {argon2 : Argon2} {draw : Draw} {call : AccountCall}
    {password : String}
    (h : (s.firstBlock argon2 draw call).1 = .next (.insertAdmin password)) :
    s.users = [] ∧ ∃ p, call = .completeSetup p := by
  have hblock : ∀ (done : BlockEnd) (result : Except String UserStore),
      done ≠ .next (.insertAdmin password) →
      (s.blockOf done result).1 ≠ .next (.insertAdmin password) := by
    intro done result hdone
    cases result with
    | ok s' => exact hdone
    | error e =>
      show BlockEnd.failed e ≠ _
      simp
  cases call with
  | completeSetup password =>
    simp only [firstBlock] at h
    unfold checkSetup needsSetup at h
    by_cases hempty : s.users.isEmpty = true
    · exact ⟨List.isEmpty_iff.mp hempty, password, rfl⟩
    · rw [if_pos (by simpa using hempty)] at h
      cases h
  | gc => cases h
  | addUser | removeUser | updateUser | addGroup | removeGroup | addMemberToGroup
  | removeMemberFromGroup | createApiKey | revokeApiKey =>
    exact absurd h (hblock _ _ (by simp))

/-- An account that a first block adds is new. -/
theorem notMem_of_firstBlock {argon2 : Argon2} {draw : Draw} {call : AccountCall} {name : String}
    (h : call.namesChange (s.firstBlock argon2 draw call).1 = .added name) :
    name ∉ s.usernames := by
  cases call with
  | addUser entry =>
    simp only [firstBlock] at h
    cases hadd : s.addUser entry with
    | ok s' =>
      rw [hadd] at h
      cases h
      exact (usernames_addUser hadd).1
    | error e =>
      rw [hadd] at h
      cases h
  | removeUser username =>
    simp only [firstBlock] at h
    cases hretain : s.retainUsers username <;> rw [hretain] at h <;> cases h
  | completeSetup | updateUser | addGroup | removeGroup | addMemberToGroup
  | removeMemberFromGroup | createApiKey | revokeApiKey | gc => cases h

end UserStore

/-! ## Runs of blocks -/

/-- What the property is about: setups, with the list they found, and the moments at which
    `remove_user` has emptied the list. -/
inductive SetupNote where
  | setup (found : List UserEntry)
  | emptied
deriving DecidableEq, Repr

def SetupNote.IsSetup (note : SetupNote) : Prop := ∃ found, note = .setup found

/-- The store with the calls that are between two of their blocks. -/
structure SetupRun where
  store : UserStore
  pending : FinMap Nat AccountBlock
  /-- For a setup that is past its checks the user names that have come since and not gone. -/
  since : Nat → Finset String
  /-- The last one first. -/
  notes : List SetupNote

/-- A call, under a number that tells it from the others, or the next block of one. -/
inductive BlockEvent where
  | call (id : Nat) (call : AccountCall) (draw : Draw)
  | next (id : Nat) (draw : Draw)
deriving DecidableEq, Repr

namespace SetupRun

/-- The call goes on with its next block, or it has none left. -/
def settle (id : Nat) (pending : FinMap Nat AccountBlock) : BlockEnd → FinMap Nat AccountBlock
  | .next block => pending.insert id block
  | _ => pending.erase id

/-- `remove_user` has taken the last account. -/
def noteRemoval (s' : UserStore) : NamesChange → List SetupNote
  | .removed _ => if s'.users = [] then [.emptied] else []
  | _ => []

def noteSetup (s : UserStore) : AccountBlock → List SetupNote
  | .insertAdmin _ => [.setup s.users]
  | _ => []

def step (argon2 : Argon2) (s : SetupRun) : BlockEvent → Option SetupRun
  | .call id call draw =>
    if s.pending.get id = none then
      let r := s.store.firstBlock argon2 draw call
      let change := call.namesChange r.1
      some
        { store := r.2
          pending := settle id s.pending r.1
          since := fun i => if i = id then ∅ else change.onSet (s.since i)
          notes := noteRemoval r.2 change ++ s.notes }
    else none
  | .next id draw =>
    match s.pending.get id with
    | some block =>
      let r := s.store.nextBlock argon2 draw block
      some
        { store := r.2
          pending := settle id s.pending r.1
          since := fun i => block.namesChange.onSet (s.since i)
          notes := noteSetup s.store block ++ s.notes }
    | none => none

/-- Every setup found an empty list, between two of them the list was emptied, and no two
    accounts have one name. -/
structure Safe (s : SetupRun) : Prop where
  found_empty : ∀ found, .setup found ∈ s.notes → found = []
  emptied_between : List.Separated SetupNote.IsSetup (· = .emptied) s.notes
  nodup : s.store.usernames.Nodup

/-- When a setup inserts its account, all that came after its checks are gone. -/
def InTime (s : SetupRun) : BlockEvent → Prop
  | .call _ _ _ => True
  | .next id _ => (s.pending.get id).any AccountBlock.isInsertAdmin = true → s.since id = ∅

instance (s : SetupRun) : ∀ ev : BlockEvent, Decidable (InTime s ev)
  | .call _ _ _ => isTrue trivial
  | .next id _ => inferInstanceAs
    (Decidable ((s.pending.get id).any AccountBlock.isInsertAdmin = true → s.since id = ∅))

/-- The list was empty when a setup was checked, and if it is empty it was emptied since the
    last setup. -/
structure Inv (s : SetupRun) : Prop where
  since_eq : ∀ id password, s.pending.get id = some (.insertAdmin password) →
    s.since id = s.store.usernames.toFinset
  emptied_after : s.store.users = [] → List.Cleared SetupNote.IsSetup (· = .emptied) s.notes

variable {argon2 : Argon2} {s s' : SetupRun} {ev : BlockEvent}

theorem settle_eq_insertAdmin {id i : Nat} {pending : FinMap Nat AccountBlock} {e : BlockEnd}
    {password : String} (h : (settle id pending e).get i = some (.insertAdmin password)) :
    i = id ∧ e = .next (.insertAdmin password) ∨
      i ≠ id ∧ pending.get i = some (.insertAdmin password) := by
  by_cases heq : i = id
  · cases e with
    | next block =>
      have hblock : (pending.insert id block).get i = some (.insertAdmin password) := h
      rw [FinMap.get_insert, if_pos heq] at hblock
      exact .inl ⟨heq, congrArg BlockEnd.next (Option.some.inj hblock)⟩
    | failed | persist | returned =>
      have hnone : (pending.erase id).get i = some (.insertAdmin password) := h
      rw [FinMap.get_erase, if_pos heq] at hnone
      cases hnone
  · right
    cases e with
    | next block =>
      have hblock : (pending.insert id block).get i = some (.insertAdmin password) := h
      rw [FinMap.get_insert, if_neg heq] at hblock
      exact ⟨heq, hblock⟩
    | failed | persist | returned =>
      have hold : (pending.erase id).get i = some (.insertAdmin password) := h
      rw [FinMap.get_erase, if_neg heq] at hold
      exact ⟨heq, hold⟩

/-- A list that a first block empties, or that stays empty, was emptied by `remove_user`. -/
theorem emptied_of_firstBlock {st : UserStore} {draw : Draw} {call : AccountCall}
    (hne : st.users ≠ []) (hempty : (st.firstBlock argon2 draw call).2.users = []) :
    .emptied ∈ noteRemoval (st.firstBlock argon2 draw call).2
      (call.namesChange (st.firstBlock argon2 draw call).1) := by
  have hnames := UserStore.usernames_firstBlock argon2 st draw call
  rw [(UserStore.usernames_eq_nil_iff _).mpr hempty] at hnames
  cases hchange : call.namesChange (st.firstBlock argon2 draw call).1 with
  | kept =>
    rw [hchange] at hnames
    exact absurd ((UserStore.usernames_eq_nil_iff _).mp hnames.symm) hne
  | added name =>
    rw [hchange] at hnames
    exact absurd hnames.symm (List.append_ne_nil_of_right_ne_nil _ (List.cons_ne_nil _ _))
  | removed name =>
    rw [noteRemoval, if_pos hempty]
    exact List.mem_singleton.mpr rfl

theorem noteRemoval_eq {st : UserStore} {change : NamesChange} {note : SetupNote}
    (h : note ∈ noteRemoval st change) : note = .emptied := by
  unfold noteRemoval at h
  split at h
  · split at h
    · exact List.mem_singleton.mp h
    · cases h
  · cases h

/-- No setup is among the notes of a removal. -/
theorem not_isSetup_of_mem_noteRemoval {st : UserStore} {change : NamesChange} :
    ∀ note ∈ noteRemoval st change, ¬note.IsSetup := by
  intro note hnote hsetup
  obtain ⟨found, rfl⟩ := hsetup
  cases noteRemoval_eq hnote

theorem step_call {id : Nat} {call : AccountCall} {draw : Draw}
    (h : step argon2 s (.call id call draw) = some s') :
    s.pending.get id = none ∧
      s'.store = (s.store.firstBlock argon2 draw call).2 ∧
      s'.pending = settle id s.pending (s.store.firstBlock argon2 draw call).1 ∧
      (∀ i, s'.since i = if i = id then ∅ else
        (call.namesChange (s.store.firstBlock argon2 draw call).1).onSet (s.since i)) ∧
      s'.notes = noteRemoval (s.store.firstBlock argon2 draw call).2
        (call.namesChange (s.store.firstBlock argon2 draw call).1) ++ s.notes := by
  simp only [step] at h
  split at h
  · next hnone =>
    cases h
    exact ⟨hnone, rfl, rfl, fun _ => rfl, rfl⟩
  · cases h

theorem step_next {id : Nat} {draw : Draw} (h : step argon2 s (.next id draw) = some s') :
    ∃ block, s.pending.get id = some block ∧
      s'.store = (s.store.nextBlock argon2 draw block).2 ∧
      s'.pending = settle id s.pending (s.store.nextBlock argon2 draw block).1 ∧
      (∀ i, s'.since i = block.namesChange.onSet (s.since i)) ∧
      s'.notes = noteSetup s.store block ++ s.notes := by
  simp only [step] at h
  split at h
  · next block hblock =>
    cases h
    exact ⟨block, hblock, rfl, rfl, fun _ => rfl, rfl⟩
  · cases h

/-- A later block does not lead to an insertion. -/
theorem nextBlock_ne_insertAdmin (st : UserStore) (draw : Draw) (block : AccountBlock)
    (password : String) : (st.nextBlock argon2 draw block).1 ≠ .next (.insertAdmin password) := by
  cases block with
  | gcApiKeys =>
    simp only [UserStore.nextBlock]
    split <;> simp
  | insertAdmin | dropSessions | dropMember => simp [UserStore.nextBlock]

theorem inv_step (h : step argon2 s ev = some s') (hs : Inv s) : Inv s' := by
  cases ev with
  | call id call draw =>
    obtain ⟨-, hstore, hpending, hsince, hnotes⟩ := step_call h
    constructor
    · intro i password hi
      rw [hpending] at hi
      rw [hsince, hstore, UserStore.usernames_firstBlock, NamesChange.toFinset_onList]
      obtain ⟨rfl, hend⟩ | ⟨hne, hold⟩ := settle_eq_insertAdmin hi
      · -- the check has just found the list empty, and left it so
        obtain ⟨hempty, p, rfl⟩ := UserStore.users_of_firstBlock hend
        rw [if_pos rfl]
        show ∅ = s.store.usernames.toFinset
        rw [(UserStore.usernames_eq_nil_iff _).mpr hempty]
        rfl
      · rw [if_neg hne, hs.since_eq i password hold]
    · intro hempty
      rw [hnotes, List.cleared_append not_isSetup_of_mem_noteRemoval]
      by_cases hbefore : s.store.users = []
      · exact .inr (hs.emptied_after hbefore)
      · rw [hstore] at hempty
        exact .inl ⟨_, emptied_of_firstBlock hbefore hempty, rfl⟩
  | next id draw =>
    obtain ⟨block, hblock, hstore, hpending, hsince, hnotes⟩ := step_next h
    have hnames : s'.store.usernames = block.namesChange.onList s.store.usernames := by
      rw [hstore, UserStore.usernames_nextBlock]
    constructor
    · intro i password hi
      rw [hpending] at hi
      obtain ⟨-, hend⟩ | ⟨-, hold⟩ := settle_eq_insertAdmin hi
      · exact absurd hend (nextBlock_ne_insertAdmin s.store draw block password)
      · rw [hsince, hs.since_eq i password hold, hnames, NamesChange.toFinset_onList]
    · intro hempty
      rw [(UserStore.usernames_eq_nil_iff _).mpr hempty] at hnames
      cases block with
      | insertAdmin password =>
        exact absurd hnames.symm (List.append_ne_nil_of_right_ne_nil _ (List.cons_ne_nil _ _))
      | dropSessions | dropMember | gcApiKeys =>
        rw [hnotes]
        exact hs.emptied_after ((UserStore.usernames_eq_nil_iff _).mp hnames.symm)

/-- One block keeps the promise exactly if no setup comes too late. -/
theorem safe_step_iff (hinv : Inv s) (hsafe : Safe s) (h : step argon2 s ev = some s') :
    Safe s' ↔ InTime s ev := by
  cases ev with
  | call id call draw =>
    obtain ⟨-, hstore, -, -, hnotes⟩ := step_call h
    refine ⟨fun _ => trivial, fun _ => ⟨?_, ?_, ?_⟩⟩
    · intro found hmem
      rw [hnotes] at hmem
      cases List.mem_append.mp hmem with
      | inl hnew => cases noteRemoval_eq hnew
      | inr hold => exact hsafe.found_empty found hold
    · rw [hnotes, List.separated_append not_isSetup_of_mem_noteRemoval]
      exact hsafe.emptied_between
    · rw [hstore, UserStore.usernames_firstBlock]
      cases hchange : call.namesChange (s.store.firstBlock argon2 draw call).1 with
      | kept => exact hsafe.nodup
      | added name =>
        have hnew := UserStore.notMem_of_firstBlock hchange
        exact List.nodup_append.mpr ⟨hsafe.nodup, List.nodup_singleton name, fun a ha b hb =>
          fun heq => hnew (by rwa [← List.mem_singleton.mp hb, ← heq])⟩
      | removed name => exact hsafe.nodup.filter _
  | next id draw =>
    obtain ⟨block, hblock, hstore, -, -, hnotes⟩ := step_next h
    have hnames : s'.store.usernames = block.namesChange.onList s.store.usernames := by
      rw [hstore, UserStore.usernames_nextBlock]
    cases block with
    | insertAdmin password =>
      have hsince := hinv.since_eq id password hblock
      constructor
      · intro hsafe' _
        have hempty : s.store.users = [] := by
          apply hsafe'.found_empty
          rw [hnotes]
          exact List.mem_cons_self
        rw [hsince, (UserStore.usernames_eq_nil_iff _).mpr hempty]
        rfl
      · intro hintime
        have hempty : s.store.usernames = [] := by
          rw [← List.toFinset_eq_empty_iff, ← hsince]
          exact hintime (by rw [hblock]; rfl)
        have husers := (UserStore.usernames_eq_nil_iff _).mp hempty
        refine ⟨?_, ?_, ?_⟩
        · intro found hmem
          rw [hnotes] at hmem
          cases List.mem_cons.mp hmem with
          | inl hnew => rw [SetupNote.setup.inj hnew, husers]
          | inr hold => exact hsafe.found_empty found hold
        · rw [hnotes]
          exact List.separated_cons.mpr
            ⟨hsafe.emptied_between, fun _ => hinv.emptied_after husers⟩
        · rw [hnames, hempty]
          exact List.nodup_singleton "admin"
    | dropSessions | dropMember | gcApiKeys =>
      constructor
      · intro _ hinsert
        rw [hblock] at hinsert
        cases hinsert
      · intro _
        exact ⟨by rw [hnotes]; exact hsafe.found_empty,
          by rw [hnotes]; exact hsafe.emptied_between, by rw [hnames]; exact hsafe.nodup⟩

/-! ## Whole runs -/

/-- A store with no call under way. -/
def start (store : UserStore) : SetupRun := ⟨store, .empty, fun _ => ∅, []⟩

/-- First-run setup succeeds only while there are no accounts, and no name is there twice,
    exactly if no name is at the start and no setup comes too late. -/
theorem setup_only_when_empty_iff {store : UserStore} {events : List BlockEvent} {s' : SetupRun}
    (h : Run.runFrom (step argon2) (start store) events = some s') :
    Run.Always (step argon2) Safe (start store) events ↔
      store.usernames.Nodup ∧ Run.StepsMeet (step argon2) InTime (start store) events := by
  have hinv : Inv (start store) := by
    constructor
    · intro id password hpending
      cases hpending
    · intro _
      exact List.cleared_nil
  have hiff := fun hsafe : Safe (start store) =>
    Run.always_iff_stepsMeet (fun _ _ _ hs hstep => inv_step hstep hs)
      (fun _ _ _ hs hsafe hstep => safe_step_iff hs hsafe hstep) hinv hsafe h
  constructor
  · intro halways
    have hsafe : Safe (start store) := halways [] (start store) List.nil_prefix rfl
    exact ⟨hsafe.nodup, (hiff hsafe).mp halways⟩
  · intro hmeet
    obtain ⟨hnodup, hmeet⟩ := hmeet
    have hsafe : Safe (start store) := by
      refine ⟨?_, List.separated_nil, hnodup⟩
      intro found hmem
      cases hmem
    exact (hiff hsafe).mpr hmeet

/-- Password hashes that are all the same. -/
def oneHash : Argon2 where
  hash _ _ := "$argon2id$v=19$m=19456,t=2,p=1$c2FsdA$aGFzaA"
  verify stored _ := if stored = "$argon2id$v=19$m=19456,t=2,p=1$c2FsdA$aGFzaA" then some true else none

/-- Two requests set the password at the same time. -/
def twoSetups : List BlockEvent :=
  [.call 0 (.completeSetup "owner's password") ⟨0, 0, ""⟩,
    .call 1 (.completeSetup "stranger's password") ⟨0, 1, ""⟩, .next 0 ⟨1, 0, ""⟩, .next 1 ⟨1, 1, ""⟩]

/-- Both find no account, and each adds an administrator. -/
theorem two_setups_succeed :
    ∃ s', Run.runFrom (step oneHash) (start (.new [] [] [] "")) twoSetups = some s' ∧
      s'.store.usernames = ["admin", "admin"] ∧
      ∃ found, .setup found ∈ s'.notes ∧ found ≠ [] := by
  have hrun : (Run.runFrom (step oneHash) (start (.new [] [] [] "")) twoSetups).any (fun s =>
      decide (s.store.usernames = ["admin", "admin"]) &&
        s.notes.any fun note => decide (∃ u ∈ s.store.users, note = .setup [u])) = true := by
    decide +kernel
  obtain ⟨s', hs', hboth⟩ := (Option.any_eq_true _ _).mp hrun
  simp only [Bool.and_eq_true, decide_eq_true_eq, List.any_eq_true] at hboth
  obtain ⟨hnames, note, hnote, u, -, rfl⟩ := hboth
  exact ⟨s', hs', hnames, [u], hnote, List.cons_ne_nil u []⟩

/-- With one of the two all is well. -/
theorem one_setup_succeeds :
    ∃ s', Run.runFrom (step oneHash) (start (.new [] [] [] "")) (twoSetups.take 3) = some s' ∧
      Run.Always (step oneHash) Safe (start (.new [] [] [] "")) (twoSetups.take 3) := by
  have hrun : (Run.runFrom (step oneHash) (start (.new [] [] [] ""))
      (twoSetups.take 3)).isSome = true := by
    decide +kernel
  obtain ⟨s', hs'⟩ := Option.isSome_iff_exists.mp hrun
  have hmeet : Run.meets (step oneHash) InTime (start (.new [] [] [] ""))
      (twoSetups.take 3) = true := by
    decide +kernel
  exact ⟨s', hs', (setup_only_when_empty_iff hs').mpr
    ⟨List.nodup_nil, Run.stepsMeet_of_meets hmeet⟩⟩

end SetupRun

end ByteHive
