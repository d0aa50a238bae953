import ByteHive.Native.ConfigFile

/-!
# The two locks of the config file

A call that saves the user store, and one that saves the registry of clients, replace their
own sections of the file that they have read. The lock of the file makes that the file as it
is; the mutex of the registry, held from the change to the end of the save, makes the clients
that are written those of the registry.

## Key results

- `Printable.step`: calls that are given integers of TOML keep the lists printable
- `Locks.step`: who goes to write the file has it as it is
-/

namespace ByteHive

namespace ConfigStage

def holdsFile : ConfigStage → Bool
  | .block _ | .lockFile | .lockFileFor _ => false
  | _ => true

/-- The call is in its save, or is sure to come to it. -/
def saves : ConfigStage → Bool
  | .block b => decide (b ≠ .gcApiKeys)
  | .lockFile | .readUsers | .readGroups _ | .readApiKeys _ _ => true
  | _ => false

/-- The copy of the file that the call writes back with its sections replaced. -/
def original : ConfigStage → Option ConfigFile
  | .writeFile _ _ _ original | .writeFileFor _ original => some original
  | _ => none

def clients : ConfigStage → Option (List KnownClient)
  | .lockFileFor clients | .readFileFor clients | .writeFileFor clients _ => some clients
  | _ => none

end ConfigStage

/-! ## What the blocks of the user store change -/

namespace UserStore

variable {s : UserStore} {argon2 : Argon2} {draw : Draw}

/-- The lists that are saved are the same. -/
structure SameLists (s s' : UserStore) : Prop where
  users : s'.users = s.users
  groups : s'.groups = s.groups
  apiKeys : s'.apiKeys = s.apiKeys

/-- A call whose first block does not lead to a save has changed no list. -/
theorem sameLists_firstBlock (call : AccountCall)
    (hnext : ∀ block, (s.firstBlock argon2 draw call).1 = .next block → block = .gcApiKeys)
    (hpersist : (s.firstBlock argon2 draw call).1 ≠ .persist) :
    SameLists s (s.firstBlock argon2 draw call).2 := by
  have hblock : ∀ (done : BlockEnd) (result : Except String UserStore),
      (∀ block, done = .next block → block ≠ .gcApiKeys) →
      s.firstBlock argon2 draw call = s.blockOf done result →
      (done = .persist ∨ ∃ block, done = .next block) →
      SameLists s (s.firstBlock argon2 draw call).2 := by
    intro done result hgc heq hdone
    rw [heq] at hnext hpersist ⊢
    cases result with
    | error e => exact ⟨rfl, rfl, rfl⟩
    | ok s' =>
      cases hdone with
      | inl hdone => exact absurd hdone hpersist
      | inr hdone =>
        obtain ⟨block, hdone⟩ := hdone
        exact absurd (hnext block hdone) (hgc block hdone)
  cases call with
  | gc => exact ⟨rfl, rfl, rfl⟩
  | completeSetup password =>
    exact hblock _ _ (fun block h => by cases h; simp) rfl (.inr ⟨_, rfl⟩)
  | removeUser username =>
    exact hblock _ _ (fun block h => by cases h; simp) rfl (.inr ⟨_, rfl⟩)
  | addUser | updateUser | addGroup | removeGroup | addMemberToGroup | removeMemberFromGroup
  | createApiKey | revokeApiKey =>
    exact hblock _ _ (fun block h => by cases h) rfl (.inl rfl)

/-- A later block leads to a save, except the last one of `gc` where it has changed nothing. -/
theorem nextBlock_end (argon2 : Argon2) (s : UserStore) (draw : Draw) (block : AccountBlock) :
    ((∃ b, (s.nextBlock argon2 draw block).1 = .next b ∧ b ≠ .gcApiKeys) ∨
      (s.nextBlock argon2 draw block).1 = .persist) ∨
    block = .gcApiKeys ∧ (s.nextBlock argon2 draw block) = (.returned, s) := by
  cases block with
  | insertAdmin password => exact .inl (.inr rfl)
  | dropSessions username => exact .inl (.inl ⟨_, rfl, by simp⟩)
  | dropMember username => exact .inl (.inr rfl)
  | gcApiKeys =>
    simp only [nextBlock]
    split
    · exact .inr ⟨trivial, rfl⟩
    · exact .inl (.inr rfl)

end UserStore

namespace KnownClients

theorem change_of_not_any {fingerprint : String} {f : KnownClient → KnownClient}
    {cs : List KnownClient} (h : (cs.any (·.fingerprint = fingerprint)) = false) :
    change fingerprint f cs = cs := by
  induction cs with
  | nil => rfl
  | cons c cs ih =>
    rw [List.any_cons, Bool.or_eq_false_iff, decide_eq_false_iff_not] at h
    rw [change, if_neg h.1, ih h.2]

/-- A call that does not save has changed nothing. -/
theorem clients_call_of_not_saved {kc : KnownClients} {nowMs : Nat} {call : ClientsCall}
    (h : (kc.call nowMs call).1 = false) : (kc.call nowMs call).2.clients = kc.clients := by
  cases call with
  | upsertPending => cases h
  | setStatus => exact change_of_not_any h
  | setLabel => exact change_of_not_any h
  | remove fingerprint =>
    have hlength := of_decide_eq_false h
    rw [not_not] at hlength
    exact List.filter_eq_self.mpr (List.length_filter_eq_length_iff.mp hlength)

end KnownClients

/-! ## What TOML can hold -/

variable {toml : Toml}

/-- What a call of the registry of clients does at its start. -/
theorem ConfigRun.step_clients {argon2 : Argon2} {s s' : ConfigRun} {id nowMs : Nat}
    {call : ClientsCall} (h : s.step argon2 toml (.clients id call nowMs) = some s') :
    (s.stages.get id = none ∧ s.knownLock = none) ∧
    ((s.known.call nowMs call).1 = true ∧ s' = { s with
        known := (s.known.call nowMs call).2
        knownLock := some id
        stages := s.stages.insert id (.lockFileFor (s.known.call nowMs call).2.clients) } ∨
      (s.known.call nowMs call).1 = false ∧
        s' = { s with known := (s.known.call nowMs call).2 }) := by
  rw [step, Option.ite_none_right_eq_some] at h
  obtain ⟨hfree, h⟩ := h
  cases hsaves : (s.known.call nowMs call).1 with
  | true =>
    simp only [hsaves, if_true, Option.some.injEq] at h
    exact ⟨hfree, .inl ⟨rfl, h.symm⟩⟩
  | false =>
    simp only [hsaves, Bool.false_eq_true, if_false, Option.some.injEq] at h
    exact ⟨hfree, .inr ⟨rfl, h.symm⟩⟩

/-- Every integer of the lists is one that is printed. -/
structure Printable (toml : Toml) (s : ConfigRun) : Prop where
  apiKeys : s.store.apiKeys.all (·.prints toml) = true
  clients : s.known.clients.all (·.prints toml) = true

/-- The call is given integers of TOML only. -/
def ConfigEvent.InRange : ConfigEvent → Prop
  | .account _ (.createApiKey _ _ expiresMs) draw =>
    draw.nowMs < 2 ^ 63 ∧ ∀ e, expiresMs = some e → e < 2 ^ 63
  | .account _ _ _ | .next _ _ => True
  | .clients _ _ nowMs => nowMs < 2 ^ 63

namespace UserStore

/-- An API key of the store is one that was there, or the one that the call has made. -/
theorem apiKeys_firstBlock {argon2 : Argon2} {s : UserStore} {draw : Draw} {call : AccountCall}
    {k : ApiKey} (hk : k ∈ (s.firstBlock argon2 draw call).2.apiKeys) :
    k ∈ s.apiKeys ∨ ∃ name asUser, call = .createApiKey name asUser k.expiresMs ∧
      k.createdAt = draw.nowMs := by
  have hblock : ∀ (done : BlockEnd) (result : Except String UserStore),
      (∀ s', result = .ok s' → k ∈ s'.apiKeys → k ∈ s.apiKeys) →
      k ∈ (s.blockOf done result).2.apiKeys → k ∈ s.apiKeys := by
    intro done result hok hk
    cases result with
    | error e => exact hk
    | ok s' => exact hok s' rfl hk
  cases call with
  | gc => exact .inl hk
  | completeSetup password =>
    refine .inl (hblock _ _ (fun s' hs' hk => ?_) hk)
    cases hcheck : s.checkSetup password with
    | error e => rw [hcheck] at hs'; cases hs'
    | ok u => rw [hcheck] at hs'; cases hs'; exact hk
  | createApiKey name asUser expiresMs =>
    simp only [firstBlock, createApiKey] at hk
    split at hk
    · exact .inl hk
    · cases List.mem_append.mp hk with
      | inl hk => exact .inl hk
      | inr hk =>
        rw [List.mem_singleton] at hk
        rw [hk]
        exact .inr ⟨name, asUser, rfl, rfl⟩
  | revokeApiKey name =>
    refine .inl (hblock _ _ (fun s' hs' hk => ?_) hk)
    simp only [revokeApiKey] at hs'
    split at hs'
    · cases hs'
    · cases hs'
      exact List.mem_of_mem_filter hk
  | removeGroup name =>
    refine .inl (hblock _ _ (fun s' hs' hk => ?_) hk)
    simp only [removeGroup] at hs'
    split at hs'
    · cases hs'
    · split at hs'
      · cases hs'
      · cases hs'
        exact hk
  | addUser | removeUser | addGroup =>
    refine .inl (hblock _ _ (fun s' hs' hk => ?_) hk)
    simp only [addUser, retainUsers, addGroup] at hs'
    split at hs'
    · cases hs'
    · cases hs'
      exact hk
  | updateUser | addMemberToGroup | removeMemberFromGroup =>
    refine .inl (hblock _ _ (fun s' hs' hk => ?_) hk)
    simp only [updateUser, addMemberToGroup, removeMemberFromGroup, updateGroup] at hs'
    split at hs'
    · cases hs'
      exact hk
    · cases hs'

theorem apiKeys_nextBlock {argon2 : Argon2} {s : UserStore} {draw : Draw} {block : AccountBlock}
    {k : ApiKey} (hk : k ∈ (s.nextBlock argon2 draw block).2.apiKeys) : k ∈ s.apiKeys := by
  cases block with
  | insertAdmin | dropSessions | dropMember => exact hk
  | gcApiKeys =>
    simp only [nextBlock] at hk
    split at hk
    · exact hk
    · exact List.mem_of_mem_filter hk

end UserStore

namespace KnownClients

theorem all_change {p : KnownClient → Bool} {fingerprint : String}
    {f : KnownClient → KnownClient} {cs : List KnownClient}
    (hf : ∀ c, p c = true → p (f c) = true) (h : cs.all p = true) :
    (change fingerprint f cs).all p = true := by
  induction cs with
  | nil => rfl
  | cons c cs ih =>
    rw [List.all_cons, Bool.and_eq_true] at h
    rw [change]
    split
    · rw [List.all_cons, hf c h.1, h.2]
      rfl
    · rw [List.all_cons, h.1, ih h.2]
      rfl

theorem prints_call {kc : KnownClients} {nowMs : Nat} (hnow : toml.printsInteger nowMs = true)
    (h : kc.clients.all (·.prints toml) = true) (call : ClientsCall) :
    (kc.call nowMs call).2.clients.all (·.prints toml) = true := by
  cases call with
  | setStatus => exact all_change (fun c hc => hc) h
  | setLabel => exact all_change (fun c hc => hc) h
  | remove fingerprint =>
    rw [List.all_eq_true] at h ⊢
    intro c hc
    exact h c (List.mem_of_mem_filter hc)
  | upsertPending nodeId fingerprint addr =>
    simp only [call, upsertPending]
    split
    · apply all_change _ h
      intro c hc
      rw [KnownClient.prints, Bool.and_eq_true] at hc
      show (toml.printsInteger c.firstSeenMs && toml.printsInteger nowMs) = true
      rw [hc.1, hnow]
      rfl
    · rw [List.all_append, h, List.all_cons, KnownClient.prints, hnow]
      rfl

end KnownClients

/-- Calls that are given integers of TOML keep the lists printable. -/
theorem Printable.step {argon2 : Argon2} {s s' : ConfigRun} {e : ConfigEvent}
    (htoml : toml.Lawful) (hs : Printable toml s) (he : e.InRange)
    (h : s.step argon2 toml e = some s') : Printable toml s' := by
  cases e with
  | account id call draw =>
    rw [ConfigRun.step, Option.ite_none_right_eq_some, Option.some.injEq] at h
    rw [← h.2]
    refine ⟨?_, hs.clients⟩
    rw [List.all_eq_true]
    intro k hk
    cases UserStore.apiKeys_firstBlock hk with
    | inl hk => exact List.all_eq_true.mp hs.apiKeys k hk
    | inr hnew =>
      obtain ⟨name, asUser, rfl, hcreated⟩ := hnew
      rw [ApiKey.prints, hcreated, (htoml _).mpr he.1, Bool.and_true]
      cases hexpires : k.expiresMs with
      | none => rfl
      | some e => exact (htoml e).mpr (he.2 e hexpires)
  | clients id call nowMs =>
    obtain ⟨-, h⟩ := ConfigRun.step_clients h
    have hcall := KnownClients.prints_call ((htoml nowMs).mpr he) hs.clients call
    cases h with
    | inl hsave =>
      obtain ⟨-, rfl⟩ := hsave
      exact ⟨hs.apiKeys, hcall⟩
    | inr hkept =>
      obtain ⟨-, rfl⟩ := hkept
      exact ⟨hs.apiKeys, hcall⟩
  | next id draw =>
    obtain ⟨stage, -, hadvance⟩ := Option.bind_eq_some_iff.mp h
    cases stage with
    | block b =>
      cases hadvance
      refine ⟨?_, hs.clients⟩
      rw [List.all_eq_true]
      intro k hk
      exact List.all_eq_true.mp hs.apiKeys k (UserStore.apiKeys_nextBlock hk)
    | lockFile | lockFileFor =>
      rw [ConfigRun.advance, Option.ite_none_right_eq_some, Option.some.injEq] at hadvance
      rw [← hadvance.2]
      exact ⟨hs.apiKeys, hs.clients⟩
    | _ =>
      cases hadvance
      exact ⟨hs.apiKeys, hs.clients⟩

/-! ## The locks -/

/-- What the two locks stand for: who has copies holds the lock of the file, the file is the one
    that was read, and the list of clients that a call goes to write is the registry's. -/
structure Locks (rest : List String) (s : ConfigRun) : Prop where
  file : ∀ id stage, s.stages.get id = some stage → stage.holdsFile = true →
    s.fileLock = some id
  original : ∀ id stage original, s.stages.get id = some stage →
    stage.original = some original → original = s.file
  known : ∀ id stage clients, s.stages.get id = some stage → stage.clients = some clients →
    s.knownLock = some id ∧ clients = s.known.clients
  holder : ∀ id, s.knownLock = some id →
    ∃ stage, s.stages.get id = some stage ∧ stage.clients.isSome = true
  /-- While nobody has the registry, its clients are those of the file. -/
  saved : s.knownLock = none → s.file.filesyncKnownClients = s.known.clients
  rest : s.file.rest = rest

namespace Locks

variable {argon2 : Argon2} {rest : List String} {s s' : ConfigRun} {id : Nat} {draw : Draw}

/-- A block of a call of the user store. -/
theorem settle (hs : Locks rest s) (store : UserStore) (done : BlockEnd)
    (hget : ∀ stage, s.stages.get id = some stage → stage.clients = none) :
    Locks rest { s with store, stages := ConfigRun.settle id s.stages done } := by
  have hstages : ∀ j stage, (ConfigRun.settle id s.stages done).get j = some stage →
      j ≠ id ∧ s.stages.get j = some stage ∨
        stage.holdsFile = false ∧ stage.original = none ∧ stage.clients = none := by
    intro j stage hj
    by_cases hji : j = id
    · right
      cases done with
      | failed => simp [ConfigRun.settle, hji] at hj
      | returned => simp [ConfigRun.settle, hji] at hj
      | next b =>
        simp only [ConfigRun.settle, FinMap.get_insert, if_pos hji, Option.some.injEq] at hj
        exact hj ▸ ⟨rfl, rfl, rfl⟩
      | persist =>
        simp only [ConfigRun.settle, FinMap.get_insert, if_pos hji, Option.some.injEq] at hj
        exact hj ▸ ⟨rfl, rfl, rfl⟩
    · left
      cases done with
      | failed | returned | next | persist =>
        simp only [ConfigRun.settle, FinMap.get_insert, FinMap.get_erase, if_neg hji] at hj
        exact ⟨hji, hj⟩
  have hother : ∀ j, j ≠ id → (ConfigRun.settle id s.stages done).get j = s.stages.get j := by
    intro j hji
    cases done with
    | failed | returned | next | persist =>
      simp only [ConfigRun.settle, FinMap.get_insert, FinMap.get_erase, if_neg hji]
  constructor
  · intro j stage hj hholds
    cases hstages j stage hj with
    | inl h => exact hs.file j stage h.2 hholds
    | inr h => rw [h.1] at hholds; cases hholds
  · intro j stage original hj horiginal
    cases hstages j stage hj with
    | inl h => exact hs.original j stage original h.2 horiginal
    | inr h => rw [h.2.1] at horiginal; cases horiginal
  · intro j stage clients hj hclients
    cases hstages j stage hj with
    | inl h => exact hs.known j stage clients h.2 hclients
    | inr h => rw [h.2.2] at hclients; cases hclients
  · intro j hj
    obtain ⟨stage, hstage, hclients⟩ := hs.holder j hj
    have hji : j ≠ id := by
      intro heq
      rw [heq] at hstage
      rw [hget stage hstage] at hclients
      cases hclients
    exact ⟨stage, (hother j hji).trans hstage, hclients⟩
  · exact hs.saved
  · exact hs.rest

/-- A call that has the lock of the file, or takes it, goes on to its next stage. -/
theorem insert (hs : Locks rest s) {stage next : ConfigStage}
    (hget : s.stages.get id = some stage)
    (hlock : s.fileLock = none ∨ stage.holdsFile = true)
    (hclients : next.clients = stage.clients)
    (horiginal : ∀ original, next.original = some original → original = s.file) :
    Locks rest { s with fileLock := some id, stages := s.stages.insert id next } := by
  have hfree : ∀ j, s.fileLock = some j → j = id := by
    intro j hj
    cases hlock with
    | inl hnone => rw [hnone] at hj; cases hj
    | inr hholds =>
      rw [hs.file id stage hget hholds, Option.some.injEq] at hj
      exact hj.symm
  constructor
  · intro j other hj hholds
    by_cases hji : j = id
    · rw [hji]
    · simp only [FinMap.get_insert, if_neg hji] at hj
      exact absurd (hfree j (hs.file j other hj hholds)) hji
  · intro j other original hj
    by_cases hji : j = id
    · simp only [FinMap.get_insert, if_pos hji, Option.some.injEq] at hj
      rw [← hj]
      exact horiginal original
    · simp only [FinMap.get_insert, if_neg hji] at hj
      exact hs.original j other original hj
  · intro j other clients hj
    by_cases hji : j = id
    · simp only [FinMap.get_insert, if_pos hji, Option.some.injEq] at hj
      rw [← hj, hclients, hji]
      exact hs.known id stage clients hget
    · simp only [FinMap.get_insert, if_neg hji] at hj
      exact hs.known j other clients hj
  · intro j hj
    obtain ⟨other, hother, hsome⟩ := hs.holder j hj
    by_cases hji : j = id
    · rw [hji, hget, Option.some.injEq] at hother
      refine ⟨next, ?_, ?_⟩
      · simp only [FinMap.get_insert, if_pos hji]
      · rw [hclients, hother]
        exact hsome
    · refine ⟨other, ?_, hsome⟩
      simp only [FinMap.get_insert, if_neg hji]
      exact hother
  · exact hs.saved
  · exact hs.rest

theorem insert_of_held (hs : Locks rest s) {stage next : ConfigStage}
    (hget : s.stages.get id = some stage) (hholds : stage.holdsFile = true)
    (hclients : next.clients = stage.clients)
    (horiginal : ∀ original, next.original = some original → original = s.file) :
    Locks rest { s with stages := s.stages.insert id next } := by
  have hlocks := hs.insert hget (.inr hholds) hclients horiginal
  rw [← hs.file id stage hget hholds] at hlocks
  exact hlocks

/-- A call writes the file and is done: what it writes keeps the other sections, and has the
    registry's clients when the call gives up the registry. -/
theorem write (hs : Locks rest s) {stage : ConfigStage} {file : ConfigFile}
    {knownLock : Option Nat} (hget : s.stages.get id = some stage)
    (hholds : stage.holdsFile = true) (hrest : file.rest = s.file.rest)
    (hknown : stage.clients = none ∧ knownLock = s.knownLock ∧
        file.filesyncKnownClients = s.file.filesyncKnownClients ∨
      stage.clients.isSome = true ∧ knownLock = none ∧
        file.filesyncKnownClients = s.known.clients) :
    Locks rest { s with file, fileLock := none, knownLock, stages := s.stages.erase id } := by
  have hlock := hs.file id stage hget hholds
  have hstages : ∀ j other, (s.stages.erase id).get j = some other →
      j ≠ id ∧ s.stages.get j = some other ∧ other.holdsFile = false := by
    intro j other hj
    rw [FinMap.get_erase, Option.ite_none_left_eq_some] at hj
    refine ⟨hj.1, hj.2, ?_⟩
    cases hother : other.holdsFile with
    | false => rfl
    | true =>
      have hjlock := hs.file j other hj.2 hother
      rw [hlock, Option.some.injEq] at hjlock
      exact absurd hjlock.symm hj.1
  constructor
  · intro j other hj hother
    rw [(hstages j other hj).2.2] at hother
    cases hother
  · intro j other original hj horiginal
    have hother := (hstages j other hj).2.2
    cases other with
    | writeFile | writeFileFor => cases hother
    | _ => cases horiginal
  · intro j other clients hj hclients
    obtain ⟨hji, hj, -⟩ := hstages j other hj
    have hjknown := hs.known j other clients hj hclients
    cases hknown with
    | inl hkept => exact ⟨hkept.2.1.trans hjknown.1, hjknown.2⟩
    | inr hdone =>
      obtain ⟨clients', hclients'⟩ := Option.isSome_iff_exists.mp hdone.1
      have hidknown := (hs.known id stage clients' hget hclients').1
      rw [hjknown.1, Option.some.injEq] at hidknown
      exact absurd hidknown hji
  · intro j hj
    cases hknown with
    | inl hkept =>
      obtain ⟨other, hother, hsome⟩ := hs.holder j (hkept.2.1.symm.trans hj)
      refine ⟨other, ?_, hsome⟩
      rw [FinMap.get_erase, if_neg, hother]
      intro hji
      rw [hji, hget, Option.some.injEq] at hother
      rw [← hother, hkept.1] at hsome
      cases hsome
    | inr hdone =>
      have hnone : knownLock = none := hdone.2.1
      rw [show knownLock = some j from hj] at hnone
      cases hnone
  · intro hnone
    cases hknown with
    | inl hkept => exact hkept.2.2.trans (hs.saved (hkept.2.1.symm.trans hnone))
    | inr hdone => exact hdone.2.2
  · exact hrest.trans hs.rest

theorem advance (hs : Locks rest s)
    (hprints : s.known.clients.all (·.prints toml) = true) {stage : ConfigStage}
    (hget : s.stages.get id = some stage) (h : s.advance argon2 toml id draw stage = some s') :
    Locks rest s' := by
  cases stage with
  | block b =>
    cases h
    apply hs.settle
    intro stage hstage
    rw [hget, Option.some.injEq] at hstage
    rw [← hstage]
    rfl
  | lockFile =>
    rw [ConfigRun.advance, Option.ite_none_right_eq_some, Option.some.injEq] at h
    rw [← h.2]
    exact hs.insert hget (.inl h.1) rfl (fun _ ho => by cases ho)
  | lockFileFor clients =>
    rw [ConfigRun.advance, Option.ite_none_right_eq_some, Option.some.injEq] at h
    rw [← h.2]
    exact hs.insert hget (.inl h.1) rfl (fun _ ho => by cases ho)
  | readUsers | readGroups | readApiKeys =>
    cases h
    exact hs.insert_of_held hget rfl rfl (fun _ ho => by cases ho)
  | readFile | readFileFor =>
    cases h
    exact hs.insert_of_held hget rfl rfl (fun _ ho => by cases ho; rfl)
  | writeFile users groups apiKeys original =>
    cases h
    rw [hs.original id _ original hget rfl]
    exact hs.write hget rfl rfl (.inl ⟨rfl, rfl, rfl⟩)
  | writeFileFor clients original =>
    cases h
    rw [hs.original id _ original hget rfl, (hs.known id _ clients hget rfl).2]
    have hfile : s.file.spliceKnownClients toml s.known.clients =
        { s.file with filesyncKnownClients := s.known.clients } := if_pos hprints
    rw [hfile]
    exact hs.write hget rfl rfl (.inr ⟨rfl, rfl, rfl⟩)

theorem step (hs : Locks rest s)
    (hprints : s.known.clients.all (·.prints toml) = true) {e : ConfigEvent}
    (h : s.step argon2 toml e = some s') : Locks rest s' := by
  cases e with
  | account id call draw =>
    rw [ConfigRun.step, Option.ite_none_right_eq_some, Option.some.injEq] at h
    rw [← h.2]
    apply hs.settle
    intro stage hstage
    rw [h.1] at hstage
    cases hstage
  | clients id call nowMs =>
    obtain ⟨hfree, h⟩ := ConfigRun.step_clients h
    have hnone : ∀ j stage, s.stages.get j = some stage → stage.clients = none := by
      intro j stage hj
      cases hclients : stage.clients with
      | none => rfl
      | some clients =>
        have hlock := (hs.known j stage clients hj hclients).1
        rw [hfree.2] at hlock
        cases hlock
    cases h with
    | inr hkept =>
      obtain ⟨hsaves, rfl⟩ := hkept
      have hsame := KnownClients.clients_call_of_not_saved hsaves
      constructor
      · exact hs.file
      · exact hs.original
      · intro j stage clients hj hclients
        rw [hnone j stage hj] at hclients
        cases hclients
      · exact hs.holder
      · intro hlock
        exact (hs.saved hlock).trans hsame.symm
      · exact hs.rest
    | inl hsave =>
      obtain ⟨-, rfl⟩ := hsave
      constructor
      · intro j stage hj hholds
        rw [FinMap.get_insert] at hj
        split at hj
        · cases hj
          cases hholds
        · exact hs.file j stage hj hholds
      · intro j stage original hj horiginal
        rw [FinMap.get_insert] at hj
        split at hj
        · cases hj
          cases horiginal
        · exact hs.original j stage original hj horiginal
      · intro j stage clients hj hclients
        rw [FinMap.get_insert] at hj
        split at hj
        · next hji =>
          cases hj
          cases hclients
          exact ⟨by rw [hji], rfl⟩
        · rw [hnone j stage hj] at hclients
          cases hclients
      · intro j hj
        cases hj
        exact ⟨_, by rw [FinMap.get_insert, if_pos rfl], rfl⟩
      · intro hlock
        cases hlock
      · exact hs.rest
  | next id draw =>
    obtain ⟨stage, hget, hadvance⟩ := Option.bind_eq_some_iff.mp h
    exact hs.advance hprints hget hadvance

end Locks

end ByteHive
