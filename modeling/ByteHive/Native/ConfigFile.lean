import ByteHive.ForStd.Run
import ByteHive.Native.AccountCalls
import ByteHive.Native.KnownHosts

/-!
# The config file and its two writers (`users.rs`, `known_hosts.rs`)

Accounts, groups, API keys and known clients are sections of one config file. A call of the
user store changes its lists in memory, each under its own lock, and then saves: it takes
`CONFIG_FILE_LOCK`, copies the three lists one after the other, reads the file, replaces the
three sections and writes the file. A call of the registry of known clients holds the
registry's mutex from its change to the end of its save, which replaces one section.

The file is given by its sections: how they are found in its text is not part of this module.
`toml` prints the lists, and fails on an integer that TOML has not.
-/

namespace ByteHive

/-- The sections of the config file. -/
structure ConfigFile where
  users : List UserEntry
  groups : List Group
  apiKeys : List ApiKey
  filesyncKnownClients : List KnownClient
  /-- Every other section, as its text. -/
  rest : List String
deriving DecidableEq, Repr

/-- What the `toml` crate is used for here: which integers of type `u64` it prints. -/
structure Toml where
  printsInteger : Nat → Bool

/-- The integers of TOML are those of `i64`. -/
def Toml.Lawful (toml : Toml) : Prop := ∀ n, toml.printsInteger n = true ↔ n < 2 ^ 63

/-- Whether `to_string_pretty` prints the key: its other fields are strings. -/
def ApiKey.prints (toml : Toml) (k : ApiKey) : Bool :=
  k.expiresMs.all toml.printsInteger && toml.printsInteger k.createdAt

def KnownClient.prints (toml : Toml) (c : KnownClient) : Bool :=
  toml.printsInteger c.firstSeenMs && toml.printsInteger c.lastSeenMs

/-- The API keys that `serialize_auth_sections` prints: a failure is logged and the section
    left out. -/
def serializeApiKeys (toml : Toml) (keys : List ApiKey) : List ApiKey :=
  if keys.all (·.prints toml) = true then keys else []

namespace ConfigFile

/-- `splice_auth_sections`, with what `serialize_auth_sections` makes of the lists. -/
def spliceAuthSections (toml : Toml) (original : ConfigFile) (users : List UserEntry)
    (groups : List Group) (apiKeys : List ApiKey) : ConfigFile :=
  { original with users, groups, apiKeys := serializeApiKeys toml apiKeys }

/-- `splice_known_clients`: a failure is logged and the file left as it is. -/
def spliceKnownClients (toml : Toml) (original : ConfigFile) (clients : List KnownClient) :
    ConfigFile :=
  if clients.all (·.prints toml) = true then { original with filesyncKnownClients := clients }
  else original

end ConfigFile

/-- A call of the registry of known clients. -/
inductive ClientsCall where
  | upsertPending (nodeId fingerprint addr : String)
  | setStatus (fingerprint : String) (status : ClientStatus)
  | setLabel (fingerprint label : String)
  | remove (fingerprint : String)
deriving DecidableEq, Repr

namespace KnownClients

/-- `set_label`; `false` for an unknown client. -/
def setLabel (kc : KnownClients) (fingerprint label : String) : Bool × KnownClients :=
  (kc.clients.any (·.fingerprint = fingerprint),
    { kc with clients := change fingerprint (fun c => { c with label }) kc.clients })

/-- What the call makes of the registry, and whether it goes on with `save`. -/
def call (kc : KnownClients) (nowMs : Nat) : ClientsCall → Bool × KnownClients
  | .upsertPending nodeId fingerprint addr =>
    (true, (kc.upsertPending nodeId fingerprint addr nowMs).2)
  | .setStatus fingerprint status => kc.setStatus fingerprint status
  | .setLabel fingerprint label => kc.setLabel fingerprint label
  | .remove fingerprint => kc.remove fingerprint

end KnownClients

/-- Where a call is. From `readUsers` to `writeFile`, and from `readFileFor` on, it holds
    `CONFIG_FILE_LOCK`. -/
inductive ConfigStage where
  /-- A block of a call of the user store. -/
  | block (block : AccountBlock)
  /-- `persist`. -/
  | lockFile
  | readUsers
  | readGroups (users : List UserEntry)
  | readApiKeys (users : List UserEntry) (groups : List Group)
  | readFile (users : List UserEntry) (groups : List Group) (apiKeys : List ApiKey)
  | writeFile (users : List UserEntry) (groups : List Group) (apiKeys : List ApiKey)
      (original : ConfigFile)
  /-- `save`, with the registry's clients. -/
  | lockFileFor (clients : List KnownClient)
  | readFileFor (clients : List KnownClient)
  | writeFileFor (clients : List KnownClient) (original : ConfigFile)
deriving DecidableEq, Repr

/-- The two stores, the file and the calls under way. -/
structure ConfigRun where
  store : UserStore
  known : KnownClients
  file : ConfigFile
  /-- The call that holds `CONFIG_FILE_LOCK`. -/
  fileLock : Option Nat
  /-- The call that holds the mutex of the registry. -/
  knownLock : Option Nat
  stages : FinMap Nat ConfigStage

inductive ConfigEvent where
  | account (id : Nat) (call : AccountCall) (draw : Draw)
  | clients (id : Nat) (call : ClientsCall) (nowMs : Nat)
  | next (id : Nat) (draw : Draw)
deriving DecidableEq, Repr

namespace ConfigRun

/-- How a call goes on after a block. -/
def settle (id : Nat) (stages : FinMap Nat ConfigStage) : BlockEnd → FinMap Nat ConfigStage
  | .next block => stages.insert id (.block block)
  | .persist => stages.insert id .lockFile
  | .failed _ | .returned => stages.erase id

/-- The next step of a call that is at the stage. -/
def advance (argon2 : Argon2) (toml : Toml) (s : ConfigRun) (id : Nat) (draw : Draw) :
    ConfigStage → Option ConfigRun
  | .block block =>
    let r := s.store.nextBlock argon2 draw block
    some { s with store := r.2, stages := settle id s.stages r.1 }
  | .lockFile =>
    if s.fileLock = none then
      some { s with fileLock := some id, stages := s.stages.insert id .readUsers }
    else none
  | .readUsers => some { s with stages := s.stages.insert id (.readGroups s.store.users) }
  | .readGroups users =>
    some { s with stages := s.stages.insert id (.readApiKeys users s.store.groups) }
  | .readApiKeys users groups =>
    some { s with stages := s.stages.insert id (.readFile users groups s.store.apiKeys) }
  | .readFile users groups apiKeys =>
    some { s with stages := s.stages.insert id (.writeFile users groups apiKeys s.file) }
  | .writeFile users groups apiKeys original =>
    some { s with
      file := original.spliceAuthSections toml users groups apiKeys
      fileLock := none
      stages := s.stages.erase id }
  | .lockFileFor clients =>
    if s.fileLock = none then
      some { s with fileLock := some id, stages := s.stages.insert id (.readFileFor clients) }
    else none
  | .readFileFor clients =>
    some { s with stages := s.stages.insert id (.writeFileFor clients s.file) }
  | .writeFileFor clients original =>
    some { s with
      file := original.spliceKnownClients toml clients
      fileLock := none
      knownLock := none
      stages := s.stages.erase id }

/-- One step of one of the calls; `none` where it is not possible. -/
def step (argon2 : Argon2) (toml : Toml) (s : ConfigRun) : ConfigEvent → Option ConfigRun
  | .account id call draw =>
    if s.stages.get id = none then
      let r := s.store.firstBlock argon2 draw call
      some { s with store := r.2, stages := settle id s.stages r.1 }
    else none
  | .clients id call nowMs =>
    if s.stages.get id = none ∧ s.knownLock = none then
      let r := s.known.call nowMs call
      if r.1 = true then
        some { s with
          known := r.2
          knownLock := some id
          stages := s.stages.insert id (.lockFileFor r.2.clients) }
      else some { s with known := r.2 }
    else none
  | .next id draw => (s.stages.get id).bind (s.advance argon2 toml id draw)

end ConfigRun

end ByteHive
