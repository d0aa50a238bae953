import ByteHive.ForStd.Run
import ByteHive.ForStd.WriteBack
import ByteHive.Spec.ConfigLocks

/-!
# No account or client change is lost

Each list of the user store is a cell that is written back to its section of the config file.
A call that has changed a list owes a save until it copies the list; the lock of the file lets
one call at a time hold copies.

## Key results

- `Section.move_step`: a step is a move of each list's cell
- `saved_when_returned`: once all calls have returned the file has what the stores have
-/

namespace ByteHive

open WriteBack

/-! ## One section of the user store -/

/-- A list of the user store with its section of the file, and the copy that a call has of it. -/
structure Section (toml : Toml) (α : Type) where
  mem : UserStore → α
  inFile : ConfigFile → α
  copyOf : ConfigStage → Option α
  /-- What is printed for the list. -/
  printed : α → α
  mem_eq : ∀ s s', UserStore.SameLists s s' → mem s' = mem s
  /-- A call has no copy before it reads the lists. -/
  copyOf_eq_none : ∀ stage, stage.holdsFile = false ∨ stage = .readUsers ∨
    stage.clients.isSome = true → copyOf stage = none
  /-- Each list is copied by one of the reads, and the copy is kept to the write. -/
  readUsers : ∀ s, copyOf (.readGroups s.users) = none ∨
    copyOf (.readGroups s.users) = some (mem s)
  readGroups : ∀ s us, copyOf (.readApiKeys us s.groups) = copyOf (.readGroups us) ∨
    copyOf (.readGroups us) = none ∧ copyOf (.readApiKeys us s.groups) = some (mem s)
  readApiKeys : ∀ s us gs, copyOf (.readFile us gs s.apiKeys) = copyOf (.readApiKeys us gs) ∨
    copyOf (.readApiKeys us gs) = none ∧ copyOf (.readFile us gs s.apiKeys) = some (mem s)
  copied : ∀ us gs ks, (copyOf (.readFile us gs ks)).isSome = true
  readFile : ∀ us gs ks file, copyOf (.writeFile us gs ks file) = copyOf (.readFile us gs ks)
  written : ∀ us gs ks file, (copyOf (.writeFile us gs ks file)).map printed =
    some (inFile (file.spliceAuthSections toml us gs ks))
  other : ∀ file clients, inFile (file.spliceKnownClients toml clients) = inFile file

theorem ConfigFile.spliceKnownClients_eq (toml : Toml) (file : ConfigFile)
    (clients : List KnownClient) :
    (file.spliceKnownClients toml clients).users = file.users ∧
    (file.spliceKnownClients toml clients).groups = file.groups ∧
    (file.spliceKnownClients toml clients).apiKeys = file.apiKeys ∧
    (file.spliceKnownClients toml clients).rest = file.rest := by
  rw [ConfigFile.spliceKnownClients]
  split
  · exact ⟨rfl, rfl, rfl, rfl⟩
  · exact ⟨rfl, rfl, rfl, rfl⟩

variable {toml : Toml}

/-- `users`. -/
def usersSection (toml : Toml) : Section toml (List UserEntry) where
  mem := UserStore.users
  inFile := ConfigFile.users
  copyOf
    | .readGroups us | .readApiKeys us _ | .readFile us _ _ | .writeFile us _ _ _ => some us
    | _ => none
  printed users := users
  mem_eq _ _ h := h.users
  copyOf_eq_none stage h := by cases stage <;> simp_all [ConfigStage.holdsFile, ConfigStage.clients]
  readUsers _ := .inr rfl
  readGroups _ _ := .inl rfl
  readApiKeys _ _ _ := .inl rfl
  copied _ _ _ := rfl
  readFile _ _ _ _ := rfl
  written _ _ _ _ := rfl
  other file clients := (file.spliceKnownClients_eq toml clients).1

/-- `groups`. -/
def groupsSection (toml : Toml) : Section toml (List Group) where
  mem := UserStore.groups
  inFile := ConfigFile.groups
  copyOf
    | .readApiKeys _ gs | .readFile _ gs _ | .writeFile _ gs _ _ => some gs
    | _ => none
  printed groups := groups
  mem_eq _ _ h := h.groups
  copyOf_eq_none stage h := by cases stage <;> simp_all [ConfigStage.holdsFile, ConfigStage.clients]
  readUsers _ := .inl rfl
  readGroups _ _ := .inr ⟨rfl, rfl⟩
  readApiKeys _ _ _ := .inl rfl
  copied _ _ _ := rfl
  readFile _ _ _ _ := rfl
  written _ _ _ _ := rfl
  other file clients := (file.spliceKnownClients_eq toml clients).2.1

/-- `api_keys`. -/
def apiKeysSection (toml : Toml) : Section toml (List ApiKey) where
  mem := UserStore.apiKeys
  inFile := ConfigFile.apiKeys
  copyOf
    | .readFile _ _ ks | .writeFile _ _ ks _ => some ks
    | _ => none
  printed := serializeApiKeys toml
  mem_eq _ _ h := h.apiKeys
  copyOf_eq_none stage h := by cases stage <;> simp_all [ConfigStage.holdsFile, ConfigStage.clients]
  readUsers _ := .inl rfl
  readGroups _ _ := .inl rfl
  readApiKeys _ _ _ := .inr ⟨rfl, rfl⟩
  copied _ _ _ := rfl
  readFile _ _ _ _ := rfl
  written _ _ _ _ := rfl
  other file clients := (file.spliceKnownClients_eq toml clients).2.2.1

namespace Section

variable {α : Type} (sec : Section toml α)

def phase : Option ConfigStage → WriteBack.Phase α
  | none => .clean
  | some stage =>
    ((sec.copyOf stage).map sec.printed).elim (if stage.saves = true then .owes else .clean) .copied

/-- The section as a cell: the value to be written is what is printed for the list. -/
def cell (s : ConfigRun) : Cell Nat α :=
  ⟨sec.printed (sec.mem s.store), sec.inFile s.file, fun id => sec.phase (s.stages.get id)⟩

theorem phase_insert (stages : FinMap Nat ConfigStage) (id : Nat) (stage : ConfigStage) :
    (fun i => sec.phase ((stages.insert id stage).get i)) =
      Function.update (fun i => sec.phase (stages.get i)) id (sec.phase (some stage)) := by
  funext i
  rw [FinMap.get_insert, Function.update_apply]
  split
  · rfl
  · rfl

theorem phase_erase (stages : FinMap Nat ConfigStage) (id : Nat) :
    (fun i => sec.phase ((stages.erase id).get i)) =
      Function.update (fun i => sec.phase (stages.get i)) id .clean := by
  funext i
  rw [FinMap.get_erase, Function.update_apply]
  split
  · rfl
  · rfl

theorem phase_of_copyOf {stage : ConfigStage} {a : α} (h : sec.copyOf stage = some a) :
    sec.phase (some stage) = .copied (sec.printed a) := by
  rw [phase, h]
  rfl

theorem phase_of_no_copy {stage : ConfigStage} (h : sec.copyOf stage = none) :
    sec.phase (some stage) = if stage.saves = true then .owes else .clean := by
  rw [phase, h]
  rfl

/-- Only the call that holds the lock of the file can have a copy. -/
theorem no_copy {rest : List String} {s : ConfigRun} (hs : Locks rest s) {id : Nat}
    (hlock : s.fileLock = some id) (hid : ∀ a, sec.phase (s.stages.get id) ≠ .copied a) :
    ∀ j a, sec.phase (s.stages.get j) ≠ .copied a := by
  intro j a hj
  cases hstage : s.stages.get j with
  | none =>
    rw [hstage] at hj
    cases hj
  | some stage =>
    have hcopy : sec.copyOf stage ≠ none := by
      intro hnone
      rw [hstage, sec.phase_of_no_copy hnone] at hj
      split at hj
      · cases hj
      · cases hj
    cases hholds : stage.holdsFile with
    | false => exact hcopy (sec.copyOf_eq_none stage (.inl hholds))
    | true =>
      have hjlock := hs.file j stage hstage hholds
      rw [hlock, Option.some.injEq] at hjlock
      rw [hjlock] at hid
      exact hid a hj

variable {argon2 : Argon2} {rest : List String} {s s' : ConfigRun} {id : Nat} {draw : Draw}

/-- A block of a call: it changes no list, or the call owes a save after it. -/
theorem move_settle {store : UserStore} {done : BlockEnd}
    (hphase : sec.phase (s.stages.get id) = .clean ∨
      sec.phase (s.stages.get id) = .owes ∧ ((∃ b, done = .next b ∧ b ≠ .gcApiKeys) ∨
        done = .persist))
    (hsame : (∀ b, done = .next b → b = .gcApiKeys) → done ≠ .persist →
      UserStore.SameLists s.store store) :
    Move (sec.cell s) id
      (sec.cell { s with store, stages := ConfigRun.settle id s.stages done }) := by
  have hsettle : ∀ p, (fun i => sec.phase ((ConfigRun.settle id s.stages done).get i)) =
      Function.update (fun i => sec.phase (s.stages.get i)) id p →
      sec.cell { s with store, stages := ConfigRun.settle id s.stages done } =
        ⟨sec.printed (sec.mem store), sec.inFile s.file,
          Function.update (sec.cell s).phase id p⟩ := by
    intro p hp
    show (⟨_, _, _⟩ : Cell Nat α) = _
    rw [hp]
    rfl
  have hstay : (∀ b, done = .next b → b = .gcApiKeys) → done ≠ .persist →
      (fun i => sec.phase ((ConfigRun.settle id s.stages done).get i)) =
        Function.update (fun i => sec.phase (s.stages.get i)) id .clean →
      Move (sec.cell s) id
        (sec.cell { s with store, stages := ConfigRun.settle id s.stages done }) := by
    intro hnext hpersist hp
    have hclean : sec.phase (s.stages.get id) = .clean := by
      cases hphase with
      | inl h => exact h
      | inr h =>
        cases h.2 with
        | inl h =>
          obtain ⟨b, hb, hne⟩ := h
          exact absurd (hnext b hb) hne
        | inr h => exact absurd h hpersist
    rw [hsettle _ hp, sec.mem_eq s.store store (hsame hnext hpersist)]
    exact .stay_of hclean
  cases done with
  | failed error =>
    exact hstay (fun b h => by cases h) (by simp) (sec.phase_erase s.stages id)
  | returned =>
    exact hstay (fun b h => by cases h) (by simp) (sec.phase_erase s.stages id)
  | persist =>
    rw [hsettle .owes (by
      rw [ConfigRun.settle, sec.phase_insert,
        sec.phase_of_no_copy (sec.copyOf_eq_none _ (.inl rfl))]
      rfl)]
    exact .change _
  | next b =>
    have hcopy := sec.phase_of_no_copy (sec.copyOf_eq_none (.block b) (.inl rfl))
    by_cases hb : b = .gcApiKeys
    · apply hstay (fun b' h => by cases h; exact hb) (by simp)
      rw [ConfigRun.settle, sec.phase_insert, hcopy, ConfigStage.saves, hb]
      rfl
    · rw [hsettle .owes (by
        rw [ConfigRun.settle, sec.phase_insert, hcopy, ConfigStage.saves, decide_eq_true hb]
        rfl)]
      exact .change _

/-- A call goes on to a stage in which it has what it had before, or the list as it is now. -/
theorem move_read (hs : Locks rest s) {stage next : ConfigStage}
    (hget : s.stages.get id = some stage)
    (hnext : sec.copyOf next = sec.copyOf stage ∧
        (sec.copyOf stage = none → next.saves = stage.saves) ∨
      stage.holdsFile = true ∧ stage.saves = true ∧ sec.copyOf stage = none ∧
        sec.copyOf next = some (sec.mem s.store)) :
    Move (sec.cell s) id (sec.cell { s with stages := s.stages.insert id next }) := by
  have hcell : sec.cell { s with stages := s.stages.insert id next } =
      ⟨sec.printed (sec.mem s.store), sec.inFile s.file,
        Function.update (sec.cell s).phase id (sec.phase (some next))⟩ := by
    show (⟨_, _, _⟩ : Cell Nat α) = _
    rw [sec.phase_insert]
    rfl
  have hphase : (sec.cell s).phase id = sec.phase (some stage) := by
    show sec.phase (s.stages.get id) = _
    rw [hget]
  rw [hcell]
  cases hnext with
  | inl hsame =>
    apply Move.stay_of
    rw [hphase]
    cases hcopy : sec.copyOf stage with
    | none =>
      rw [sec.phase_of_no_copy hcopy, sec.phase_of_no_copy (hsame.1.trans hcopy), hsame.2 hcopy]
    | some a => rw [sec.phase_of_copyOf hcopy, sec.phase_of_copyOf (hsame.1.trans hcopy)]
  | inr hread =>
    obtain ⟨hholds, hsaves, hnone, hcopy⟩ := hread
    have howes : sec.phase (some stage) = .owes := by
      rw [sec.phase_of_no_copy hnone, if_pos hsaves]
    rw [sec.phase_of_copyOf hcopy]
    apply Move.copy (hphase.trans howes)
    apply sec.no_copy hs (hs.file id stage hget hholds)
    intro a ha
    have hcopied := hphase.symm.trans ha
    rw [howes] at hcopied
    cases hcopied

/-- A save of the registry of clients leaves the section as it is. -/
theorem move_other (hs : Locks rest s) {clients : List KnownClient} {original : ConfigFile}
    (hget : s.stages.get id = some (.writeFileFor clients original)) :
    Move (sec.cell s) id
      (sec.cell { s with
        file := original.spliceKnownClients toml clients
        stages := s.stages.erase id }) := by
  have hphase : (sec.cell s).phase id = .clean := by
    show sec.phase (s.stages.get id) = _
    rw [hget, sec.phase_of_no_copy (sec.copyOf_eq_none _ (.inr (.inr rfl)))]
    rfl
  have hcell : sec.cell { s with
      file := original.spliceKnownClients toml clients
      stages := s.stages.erase id } =
      ⟨(sec.cell s).mem, (sec.cell s).file, Function.update (sec.cell s).phase id .clean⟩ := by
    show (⟨_, _, _⟩ : Cell Nat α) = _
    rw [sec.phase_erase, sec.other, hs.original id _ original hget rfl]
    rfl
  rw [hcell]
  exact .stay_of hphase

/-- A save of the user store writes its copy to the section. -/
theorem move_write {users : List UserEntry} {groups : List Group} {apiKeys : List ApiKey}
    {original : ConfigFile}
    (hget : s.stages.get id = some (.writeFile users groups apiKeys original)) :
    Move (sec.cell s) id
      (sec.cell { s with
        file := original.spliceAuthSections toml users groups apiKeys
        stages := s.stages.erase id }) := by
  obtain ⟨a, hcopy, hprinted⟩ :=
    Option.map_eq_some_iff.mp (sec.written users groups apiKeys original)
  have hphase : (sec.cell s).phase id = .copied (sec.printed a) := by
    show sec.phase (s.stages.get id) = _
    rw [hget, sec.phase_of_copyOf hcopy]
  have hcell : sec.cell { s with
      file := original.spliceAuthSections toml users groups apiKeys
      stages := s.stages.erase id } =
      ⟨(sec.cell s).mem, sec.printed a, Function.update (sec.cell s).phase id .clean⟩ := by
    show (⟨_, _, _⟩ : Cell Nat α) = _
    rw [sec.phase_erase, hprinted]
    rfl
  rw [hcell]
  exact .write hphase

theorem move_advance (hs : Locks rest s) {stage : ConfigStage}
    (hget : s.stages.get id = some stage) (h : s.advance argon2 toml id draw stage = some s') :
    Move (sec.cell s) id (sec.cell s') := by
  cases stage with
  | block b =>
    cases h
    have hphase : sec.phase (s.stages.get id) = if b = .gcApiKeys then .clean else .owes := by
      rw [hget, sec.phase_of_no_copy (sec.copyOf_eq_none _ (.inl rfl)), ConfigStage.saves]
      split
      · next hne => rw [if_neg (of_decide_eq_true hne)]
      · next heq => rw [if_pos (not_not.mp (mt decide_eq_true heq))]
    apply sec.move_settle
    · cases UserStore.nextBlock_end argon2 s.store draw b with
      | inl hsaves =>
        split at hphase
        · exact .inl hphase
        · exact .inr ⟨hphase, hsaves⟩
      | inr hdone =>
        rw [if_pos hdone.1] at hphase
        exact .inl hphase
    · intro hnext hpersist
      cases UserStore.nextBlock_end argon2 s.store draw b with
      | inl hsaves =>
        cases hsaves with
        | inl hsaves =>
          obtain ⟨b', hb', hne⟩ := hsaves
          exact absurd (hnext b' hb') hne
        | inr hsaves => exact absurd hsaves hpersist
      | inr hdone =>
        rw [hdone.2]
        exact ⟨rfl, rfl, rfl⟩
  | lockFile =>
    rw [ConfigRun.advance, Option.ite_none_right_eq_some, Option.some.injEq] at h
    rw [← h.2]
    exact sec.move_read hs hget (.inl ⟨(sec.copyOf_eq_none _ (.inr (.inl rfl))).trans
      (sec.copyOf_eq_none _ (.inl rfl)).symm, fun _ => rfl⟩)
  | readUsers =>
    cases h
    have hnone := sec.copyOf_eq_none _ (.inr (.inl rfl))
    apply sec.move_read hs hget
    cases sec.readUsers s.store with
    | inl hcopy => exact .inl ⟨hcopy.trans hnone.symm, fun _ => rfl⟩
    | inr hcopy => exact .inr ⟨rfl, rfl, hnone, hcopy⟩
  | readGroups users =>
    cases h
    apply sec.move_read hs hget
    cases sec.readGroups s.store users with
    | inl hcopy => exact .inl ⟨hcopy, fun _ => rfl⟩
    | inr hcopy => exact .inr ⟨rfl, rfl, hcopy⟩
  | readApiKeys users groups =>
    cases h
    apply sec.move_read hs hget
    cases sec.readApiKeys s.store users groups with
    | inl hcopy =>
      -- whoever has read all lists has a copy
      have hsome := sec.copied users groups s.store.apiKeys
      rw [hcopy] at hsome
      exact .inl ⟨hcopy, fun hnone => by rw [hnone] at hsome; cases hsome⟩
    | inr hcopy => exact .inr ⟨rfl, rfl, hcopy⟩
  | readFile users groups apiKeys =>
    cases h
    exact sec.move_read hs hget (.inl ⟨sec.readFile users groups apiKeys s.file, fun _ => rfl⟩)
  | writeFile users groups apiKeys original =>
    cases h
    exact sec.move_write hget
  | lockFileFor clients =>
    rw [ConfigRun.advance, Option.ite_none_right_eq_some, Option.some.injEq] at h
    rw [← h.2]
    exact sec.move_read hs hget (.inl ⟨(sec.copyOf_eq_none _ (.inr (.inr rfl))).trans
      (sec.copyOf_eq_none _ (.inr (.inr rfl))).symm, fun _ => rfl⟩)
  | readFileFor clients =>
    cases h
    exact sec.move_read hs hget (.inl ⟨(sec.copyOf_eq_none _ (.inr (.inr rfl))).trans
      (sec.copyOf_eq_none _ (.inr (.inr rfl))).symm, fun _ => rfl⟩)
  | writeFileFor clients original =>
    cases h
    exact sec.move_other hs hget

/-- Each step is a move of the section's cell. -/
theorem move_step (hs : Locks rest s) {e : ConfigEvent} (h : s.step argon2 toml e = some s') :
    ∃ id, Move (sec.cell s) id (sec.cell s') := by
  cases e with
  | account id call draw =>
    rw [ConfigRun.step, Option.ite_none_right_eq_some, Option.some.injEq] at h
    rw [← h.2]
    refine ⟨id, sec.move_settle (.inl ?_) ?_⟩
    · rw [h.1]
      rfl
    · exact UserStore.sameLists_firstBlock call
  | clients id call nowMs =>
    obtain ⟨hfree, h⟩ := ConfigRun.step_clients h
    cases h with
    | inl hsave =>
      obtain ⟨-, rfl⟩ := hsave
      have hcell : sec.cell { s with
          known := (s.known.call nowMs call).2
          knownLock := some id
          stages := s.stages.insert id (.lockFileFor (s.known.call nowMs call).2.clients) } =
          ⟨(sec.cell s).mem, (sec.cell s).file, Function.update (sec.cell s).phase id .clean⟩ := by
        show (⟨_, _, _⟩ : Cell Nat α) = _
        rw [sec.phase_insert, sec.phase_of_no_copy (sec.copyOf_eq_none _ (.inl rfl))]
        rfl
      refine ⟨id, hcell ▸ .stay_of ?_⟩
      show sec.phase (s.stages.get id) = _
      rw [hfree.1]
      rfl
    | inr hkept =>
      obtain ⟨-, rfl⟩ := hkept
      exact ⟨id, .stay⟩
  | next id draw =>
    obtain ⟨stage, hget, hadvance⟩ := Option.bind_eq_some_iff.mp h
    exact ⟨id, sec.move_advance hs hget hadvance⟩

end Section

namespace ConfigRun

/-- Nothing is under way. -/
structure Idle (s : ConfigRun) : Prop where
  stages : s.stages.keys = ∅
  fileLock : s.fileLock = none
  knownLock : s.knownLock = none

/-- The file has the lists of the stores. -/
structure Agrees (s : ConfigRun) : Prop where
  users : s.file.users = s.store.users
  groups : s.file.groups = s.store.groups
  apiKeys : s.file.apiKeys = s.store.apiKeys
  clients : s.file.filesyncKnownClients = s.known.clients

/-- What every step keeps. -/
structure Saves (toml : Toml) (rest : List String) (s : ConfigRun) : Prop where
  locks : Locks rest s
  printable : Printable toml s
  users : Coherent ((usersSection toml).cell s)
  groups : Coherent ((groupsSection toml).cell s)
  apiKeys : Coherent ((apiKeysSection toml).cell s)

variable {argon2 : Argon2} {s s' : ConfigRun} {rest : List String}

theorem get_of_no_keys (h : s.stages.keys = ∅) (id : Nat) : s.stages.get id = none :=
  FinMap.keys_eq_empty_iff.mp h id

theorem saves_of_agrees (hidle : s.Idle) (hagrees : s.Agrees) (hprints : Printable toml s) :
    Saves toml s.file.rest s := by
  have hcell : ∀ {α : Type} (sec : Section toml α),
      sec.inFile s.file = sec.printed (sec.mem s.store) → Coherent (sec.cell s) := by
    intro α sec hfile
    have heq : sec.cell s =
        ⟨sec.printed (sec.mem s.store), sec.printed (sec.mem s.store), fun _ => .clean⟩ := by
      show (⟨_, _, _⟩ : Cell Nat α) = _
      rw [hfile]
      congr
      funext id
      rw [get_of_no_keys hidle.stages]
      rfl
    rw [heq]
    exact coherent_clean
  constructor
  · constructor
    · intro id stage hget
      rw [get_of_no_keys hidle.stages] at hget
      cases hget
    · intro id stage original hget
      rw [get_of_no_keys hidle.stages] at hget
      cases hget
    · intro id stage clients hget
      rw [get_of_no_keys hidle.stages] at hget
      cases hget
    · intro id hlock
      rw [hidle.knownLock] at hlock
      cases hlock
    · intro _
      exact hagrees.clients
    · rfl
  · exact hprints
  · exact hcell (usersSection toml) hagrees.users
  · exact hcell (groupsSection toml) hagrees.groups
  · exact hcell (apiKeysSection toml) (hagrees.apiKeys.trans (if_pos hprints.apiKeys).symm)

theorem Saves.step (htoml : toml.Lawful) (hs : Saves toml rest s) {e : ConfigEvent}
    (he : e.InRange) (h : s.step argon2 toml e = some s') : Saves toml rest s' := by
  have hmove : ∀ {α : Type} (sec : Section toml α), Coherent (sec.cell s) →
      Coherent (sec.cell s') := by
    intro α sec hc
    obtain ⟨id, hid⟩ := sec.move_step hs.locks h
    exact hc.move hid
  constructor
  · exact hs.locks.step hs.printable.clients h
  · exact hs.printable.step htoml he h
  · exact hmove _ hs.users
  · exact hmove _ hs.groups
  · exact hmove _ hs.apiKeys

theorem Saves.agrees (hs : Saves toml rest s) (hdone : s.stages.keys = ∅) : s.Agrees := by
  have hclean : ∀ {α : Type} (sec : Section toml α) id, (sec.cell s).phase id = .clean := by
    intro α sec id
    show sec.phase (s.stages.get id) = _
    rw [get_of_no_keys hdone]
    rfl
  constructor
  · exact hs.users.file_eq (hclean _)
  · exact hs.groups.file_eq (hclean _)
  · exact (hs.apiKeys.file_eq (hclean _)).trans (if_pos hs.printable.apiKeys)
  · apply hs.locks.saved
    cases hlock : s.knownLock with
    | none => rfl
    | some id =>
      obtain ⟨stage, hget, -⟩ := hs.locks.holder id hlock
      rw [get_of_no_keys hdone] at hget
      cases hget

/-- No change of an account or a client is lost: whatever calls were under way and however their
    steps came, once all have returned the file has the lists of the stores and its other
    sections are as they were, when every call was given integers of TOML. -/
theorem saved_when_returned (htoml : toml.Lawful) (hidle : s.Idle) (hagrees : s.Agrees)
    (hprints : Printable toml s) {events : List ConfigEvent}
    (hrun : Run.runFrom (step argon2 toml) s events = some s')
    (hrange : Run.StepsMeet (step argon2 toml) (fun _ e => e.InRange) s events)
    (hdone : s'.stages.keys = ∅) : s'.Agrees ∧ s'.file.rest = s.file.rest := by
  have hsaves : Saves toml s.file.rest s' := by
    have halways := Run.always_of_stepsMeet (P := Saves toml s.file.rest)
      (fun t e t' ht he h => ht.step htoml he h) (saves_of_agrees hidle hagrees hprints) hrange hrun
    exact halways events s' (List.prefix_refl events) hrun
  exact ⟨hsaves.agrees hdone, hsaves.locks.rest⟩

/-- The crate as it is. -/
def toml64 : Toml := ⟨fun n => decide (n < 2 ^ 63)⟩

theorem toml64_lawful : toml64.Lawful := fun _ => decide_eq_true_iff

/-- No call of the example hashes a password. -/
def idleArgon2 : Argon2 := ⟨fun password _ => password, fun _ _ => none⟩

/-- A file as the last save has left it. -/
def start : ConfigRun :=
  let store := UserStore.new [] [] [⟨"old", "k0", "bob", none, 1⟩] ""
  { store
    known := ⟨[], false⟩
    file := ⟨store.users, store.groups, store.apiKeys, [], ["[server]", "port = 9000"]⟩
    fileLock := none
    knownLock := none
    stages := .empty }

/-- Two calls of the user store and one of the registry: the second call of the store changes the
    keys while the first one saves, and saves after the registry. -/
def threeCalls (expiresMs : Nat) : List ConfigEvent :=
  let next id := ConfigEvent.next id ⟨0, 0, ""⟩
  [.account 0 (.addUser ⟨"alice", "h", "Alice"⟩) ⟨2, 0, ""⟩,
    .clients 1 (.upsertPending "n" "fp" "10.0.0.7") 3,
    next 0, next 0, next 0,
    .account 2 (.createApiKey "ci" "alice" (some expiresMs)) ⟨4, 0, "k1"⟩,
    next 0, next 0, next 0,
    next 1, next 1, next 1,
    next 2, next 2, next 2, next 2, next 2, next 2]

theorem three_calls_saved :
    ∃ s', Run.runFrom (step idleArgon2 toml64) start (threeCalls 5) = some s' ∧
      s'.Agrees ∧ s'.file.rest = start.file.rest := by
  have hrun : (Run.runFrom (step idleArgon2 toml64) start (threeCalls 5)).any (fun s =>
      decide (s.stages.keys = ∅)) = true := by
    decide +kernel
  have hrange : ∀ e ∈ threeCalls 5, e.InRange := by
    simp [threeCalls, ConfigEvent.InRange]
  obtain ⟨s', hs', hdone⟩ := (Option.any_eq_true _ _).mp hrun
  exact ⟨s', hs', saved_when_returned toml64_lawful ⟨rfl, rfl, rfl⟩ ⟨rfl, rfl, rfl, rfl⟩
    ⟨by decide +kernel, rfl⟩ hs' (fun bs e _ hpre _ => hrange e (hpre.subset (by simp)))
    (of_decide_eq_true hdone)⟩

/-- A key that is to expire in 2^63 ms cannot be printed: all keys are gone from the file. -/
theorem keys_dropped :
    toml64.Lawful ∧ start.Idle ∧ start.Agrees ∧ Printable toml64 start ∧
    ∃ s', Run.runFrom (step idleArgon2 toml64) start (threeCalls (2 ^ 63)) = some s' ∧
      s'.stages.keys = ∅ ∧ s'.store.apiKeys.length = 2 ∧ s'.file.apiKeys = [] ∧ ¬ s'.Agrees := by
  have hrun : (Run.runFrom (step idleArgon2 toml64) start (threeCalls (2 ^ 63))).any (fun s =>
      decide (s.stages.keys = ∅) && decide (s.store.apiKeys.length = 2) &&
        decide (s.file.apiKeys = [])) = true := by
    decide +kernel
  obtain ⟨s', hs', hboth⟩ := (Option.any_eq_true _ _).mp hrun
  simp only [Bool.and_eq_true, decide_eq_true_eq] at hboth
  obtain ⟨⟨hdone, hstore⟩, hfile⟩ := hboth
  refine ⟨toml64_lawful, ⟨rfl, rfl, rfl⟩, ⟨rfl, rfl, rfl, rfl⟩, ⟨by decide +kernel, rfl⟩,
    s', hs', hdone, hstore, hfile, ?_⟩
  intro hagrees
  rw [← hagrees.apiKeys, hfile] at hstore
  cases hstore

end ConfigRun

end ByteHive
