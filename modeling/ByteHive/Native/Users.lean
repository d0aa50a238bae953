import ByteHive.ForStd.FinMap
import Mathlib.Data.String.Defs

/-!
# Accounts and sessions (`users.rs`)

The user store keeps accounts, groups, API keys and login sessions in memory, each behind
its own lock. An operation that takes several locks one after the other is given as its
locked blocks, and where it matters also as their sequence. The config file the store is
saved to is not part of this module.

Passwords are hashed outside: `Argon2` is what the store relies on.
-/

namespace ByteHive

structure UserEntry where
  username : String
  passwordHash : String
  displayName : String
deriving DecidableEq, Repr

structure Group where
  name : String
  description : String
  members : List String
deriving DecidableEq, Repr

structure ApiKey where
  name : String
  key : String
  asUser : String
  expiresMs : Option Nat
  createdAt : Nat
deriving DecidableEq, Repr

namespace ApiKey

def isExpired (k : ApiKey) (nowMs : Nat) : Bool := k.expiresMs.any (· < nowMs)

def effectiveUsername (k : ApiKey) : String := if k.asUser = "" then "api-" ++ k.name else k.asUser

end ApiKey

/-- `Session`. -/
structure LoginSession where
  token : String
  username : String
  displayName : String
  expiresMs : Nat
deriving DecidableEq, Repr

inductive AuthMethod where
  | session
  | apiKey (keyName : String)
  | adminToken
deriving DecidableEq, Repr

structure AuthContext where
  username : String
  displayName : String
  groups : List String
  method : AuthMethod
deriving DecidableEq, Repr

def groupAdmin : String := "admin"

def groupUser : String := "user"

namespace AuthContext

def isAdmin (c : AuthContext) : Bool := c.groups.any (· == groupAdmin)

def adminToken : AuthContext := ⟨"admin", "Admin (token)", [groupAdmin, groupUser], .adminToken⟩

def forApiKey (k : ApiKey) : AuthContext :=
  ⟨k.effectiveUsername, "API Key: " ++ k.name, [groupAdmin, groupUser], .apiKey k.name⟩

end AuthContext

/-! ## Passwords -/

/-- The password hashes of the `argon2` crate: `verify` is `none` for a text that is not a hash. -/
structure Argon2 where
  hash : String → Nat → String
  verify : String → String → Option Bool

inductive VerifyError where
  | legacyHash
  | invalidFormat
deriving DecidableEq, Repr

/-- 64 hex digits. -/
def isLegacySha256 (s : String) : Bool :=
  decide (s.toList.length = 64) &&
    s.toList.all fun c => c.isDigit || ('a' ≤ c && c ≤ 'f') || ('A' ≤ c && c ≤ 'F')

def verifyPassword (argon2 : Argon2) (storedHash password : String) : Except VerifyError Bool :=
  if isLegacySha256 storedHash then .error .legacyHash
  else
    match argon2.verify storedHash password with
    | none => .error .invalidFormat
    | some ok => .ok ok

/-! ## The store -/

structure UserStore where
  users : List UserEntry
  groups : List Group
  apiKeys : List ApiKey
  sessions : FinMap String LoginSession
  adminToken : String
  sessionTtlMs : Nat

namespace UserStore

/-- `UserStore::new`: the two built-in groups are there. -/
def new (users : List UserEntry) (groups : List Group) (apiKeys : List ApiKey)
    (adminToken : String) : UserStore where
  users
  groups := [(groupAdmin, "Administrators — full access and ops dashboard"),
      (groupUser, "Standard users — read/write access to app APIs")].foldl
    (fun gs g => if gs.any (·.name == g.1) then gs else gs ++ [⟨g.1, g.2, []⟩]) groups
  apiKeys
  sessions := .empty
  adminToken
  sessionTtlMs := 8 * 3600 * 1000

def needsSetup (s : UserStore) : Bool := s.users.isEmpty

def groupsForUser (s : UserStore) (username : String) : List String :=
  (s.groups.filter fun g => decide (username ∈ g.members)).map (·.name)

/-! ### First-run setup -/

/-- The two checks of `complete_setup`, before it takes the locks. -/
def checkSetup (s : UserStore) (password : String) : Except String Unit :=
  if !s.needsSetup then .error "setup has already been completed"
  else if password.utf8ByteSize < 8 then .error "password must be at least 8 characters"
  else .ok ()

/-- The locked block of `complete_setup`. -/
def insertAdmin (s : UserStore) (passwordHash : String) : UserStore :=
  { s with
    users := s.users ++ [⟨"admin", passwordHash, "Administrator"⟩]
    groups := s.groups.map fun g =>
      if (g.name = groupAdmin ∨ g.name = groupUser) ∧ "admin" ∉ g.members then
        { g with members := g.members ++ ["admin"] }
      else g }

/-! ### Sessions -/

/-- `login` with the token that is drawn for it. -/
def login (argon2 : Argon2) (nowMs : Nat) (token : String) (s : UserStore)
    (username password : String) : Option LoginSession × UserStore :=
  match s.users.find? (·.username = username) with
  | none => (none, s)
  | some user =>
    match verifyPassword argon2 user.passwordHash password with
    | .ok true =>
      let session : LoginSession :=
        { token, username := user.username
          displayName := if user.displayName = "" then user.username else user.displayName
          expiresMs := nowMs + s.sessionTtlMs }
      (some session, { s with sessions := s.sessions.insert token session })
    | _ => (none, s)

def validate (s : UserStore) (nowMs : Nat) (token : String) : Option LoginSession :=
  (s.sessions.get token).filter fun x => !decide (x.expiresMs < nowMs)

def refresh (s : UserStore) (nowMs : Nat) (token : String) : UserStore :=
  match s.sessions.get token with
  | some x =>
    { s with sessions := s.sessions.insert token { x with expiresMs := nowMs + s.sessionTtlMs } }
  | none => s

def logout (s : UserStore) (token : String) : UserStore :=
  { s with sessions := s.sessions.erase token }

/-- The context of a request with a valid session. -/
def sessionContext (s : UserStore) (x : LoginSession) : AuthContext :=
  ⟨x.username, x.displayName, s.groupsForUser x.username, .session⟩

def authenticateCredential (s : UserStore) (nowMs : Nat) (credential : String) :
    Option AuthContext × UserStore :=
  match s.validate nowMs credential with
  | some x => (some (s.sessionContext x), s.refresh nowMs credential)
  | none =>
    match s.apiKeys.find? fun k => decide (k.key = credential) && !k.isExpired nowMs with
    | some k => (some (.forApiKey k), s)
    | none =>
      if s.adminToken ≠ "" ∧ s.adminToken = credential then (some .adminToken, s) else (none, s)

/-! ### Accounts -/

def addUser (s : UserStore) (entry : UserEntry) : Except String UserStore :=
  if s.users.any (·.username = entry.username) then
    .error ("user '" ++ entry.username ++ "' already exists")
  else .ok { s with users := s.users ++ [entry] }

/-- The block of `remove_user` under the lock of the users. -/
def retainUsers (s : UserStore) (username : String) : Except String UserStore :=
  let users := s.users.filter fun u => u.username ≠ username
  if users.length = s.users.length then .error ("user '" ++ username ++ "' not found")
  else .ok { s with users }

/-- The block of `remove_user` under the lock of the sessions. -/
def dropSessions (s : UserStore) (username : String) : UserStore :=
  { s with sessions := s.sessions.filter fun _ x => decide (x.username ≠ username) }

/-- The block of `remove_user` under the lock of the groups. -/
def dropMember (s : UserStore) (username : String) : UserStore :=
  { s with groups := s.groups.map fun g =>
      { g with members := g.members.filter fun m => m ≠ username } }

/-- `remove_user`, without the save. -/
def removeUser (s : UserStore) (username : String) : Except String UserStore :=
  (s.retainUsers username).map fun s => (s.dropSessions username).dropMember username

/-- `f` on the first element that satisfies `p`, `none` when there is none. -/
def updateFirst {α : Type} (p : α → Bool) (f : α → α) : List α → Option (List α)
  | [] => none
  | a :: as => if p a then some (f a :: as) else (updateFirst p f as).map (a :: ·)

def updateUser (s : UserStore) (username : String) (newDisplayName newPasswordHash : Option String) :
    Except String UserStore :=
  match updateFirst (·.username = username) (fun u => { u with
      displayName := newDisplayName.getD u.displayName
      passwordHash := newPasswordHash.getD u.passwordHash }) s.users with
  | some users => .ok { s with users }
  | none => .error ("user '" ++ username ++ "' not found")

/-! ### Groups and API keys -/

def addGroup (s : UserStore) (group : Group) : Except String UserStore :=
  if s.groups.any (·.name = group.name) then
    .error ("group '" ++ group.name ++ "' already exists")
  else .ok { s with groups := s.groups ++ [group] }

def removeGroup (s : UserStore) (name : String) : Except String UserStore :=
  if name = groupAdmin ∨ name = groupUser then
    .error ("group '" ++ name ++ "' is protected and cannot be removed")
  else
    let groups := s.groups.filter fun g => g.name ≠ name
    if groups.length = s.groups.length then .error ("group '" ++ name ++ "' not found")
    else .ok { s with groups }

/-- One group's members change. -/
def updateGroup (s : UserStore) (groupName : String) (f : List String → List String) :
    Except String UserStore :=
  match updateFirst (·.name = groupName) (fun g => { g with members := f g.members }) s.groups with
  | some groups => .ok { s with groups }
  | none => .error ("group '" ++ groupName ++ "' not found")

def addMemberToGroup (s : UserStore) (groupName username : String) : Except String UserStore :=
  s.updateGroup groupName fun members =>
    if username ∈ members then members else members ++ [username]

def removeMemberFromGroup (s : UserStore) (groupName username : String) :
    Except String UserStore :=
  s.updateGroup groupName fun members => members.filter fun m => m ≠ username

/-- `create_api_key` with the key that is drawn for it. -/
def createApiKey (s : UserStore) (nowMs : Nat) (raw name asUser : String)
    (expiresMs : Option Nat) : Except String UserStore :=
  if s.apiKeys.any (·.name = name) then .error ("API key '" ++ name ++ "' already exists")
  else .ok { s with apiKeys := s.apiKeys ++ [⟨name, raw, asUser, expiresMs, nowMs⟩] }

def revokeApiKey (s : UserStore) (name : String) : Except String UserStore :=
  let apiKeys := s.apiKeys.filter fun k => k.name ≠ name
  if apiKeys.length = s.apiKeys.length then .error ("API key '" ++ name ++ "' not found")
  else .ok { s with apiKeys }

/-! ### Collecting what has expired -/

def gcSessions (s : UserStore) (nowMs : Nat) : UserStore :=
  { s with sessions := s.sessions.filter fun _ x => decide (nowMs ≤ x.expiresMs) }

def gcApiKeys (s : UserStore) (nowMs : Nat) : UserStore :=
  { s with apiKeys := s.apiKeys.filter fun k => !k.expiresMs.any (· < nowMs) }

end UserStore

end ByteHive
