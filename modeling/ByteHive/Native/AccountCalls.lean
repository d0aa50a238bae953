import ByteHive.Native.Users

/-!
# The calls of the user store, block by block (`users.rs`)

A call that changes accounts, groups or API keys takes its locks one after the other and
releases each before it takes the next. Between two of its blocks other calls go on. A call
that has changed something ends with `persist`.
-/

namespace ByteHive

/-- The time, the salt and the key that a block draws. -/
structure Draw where
  nowMs : Nat
  salt : Nat
  raw : String
deriving DecidableEq, Repr

inductive AccountCall where
  | completeSetup (password : String)
  | addUser (entry : UserEntry)
  | removeUser (username : String)
  | updateUser (username : String) (newDisplayName newPassword : Option String)
  | addGroup (group : Group)
  | removeGroup (name : String)
  | addMemberToGroup (groupName username : String)
  | removeMemberFromGroup (groupName username : String)
  | createApiKey (name asUser : String) (expiresMs : Option Nat)
  | revokeApiKey (name : String)
  | gc
deriving DecidableEq, Repr

/-- A later block of a call. -/
inductive AccountBlock where
  /-- `complete_setup`, after its checks. -/
  | insertAdmin (password : String)
  /-- `remove_user`, after the account is gone. -/
  | dropSessions (username : String)
  | dropMember (username : String)
  /-- `gc`, after the sessions. -/
  | gcApiKeys
deriving DecidableEq, Repr

/-- How a block ends. -/
inductive BlockEnd where
  | failed (error : String)
  | next (block : AccountBlock)
  | persist
  | returned
deriving DecidableEq, Repr

namespace UserStore

/-- A block that fails, or goes on with what it has made of the store. -/
def blockOf (s : UserStore) (done : BlockEnd) : Except String UserStore → BlockEnd × UserStore
  | .ok s' => (done, s')
  | .error e => (.failed e, s)

def firstBlock (argon2 : Argon2) (s : UserStore) (draw : Draw) :
    AccountCall → BlockEnd × UserStore
  | .completeSetup password =>
    s.blockOf (.next (.insertAdmin password)) ((s.checkSetup password).map fun _ => s)
  | .addUser entry => s.blockOf .persist (s.addUser entry)
  | .removeUser username => s.blockOf (.next (.dropSessions username)) (s.retainUsers username)
  | .updateUser username newDisplayName newPassword =>
    s.blockOf .persist (s.updateUser username newDisplayName
      (newPassword.map fun password => argon2.hash password draw.salt))
  | .addGroup group => s.blockOf .persist (s.addGroup group)
  | .removeGroup name => s.blockOf .persist (s.removeGroup name)
  | .addMemberToGroup groupName username =>
    s.blockOf .persist (s.addMemberToGroup groupName username)
  | .removeMemberFromGroup groupName username =>
    s.blockOf .persist (s.removeMemberFromGroup groupName username)
  | .createApiKey name asUser expiresMs =>
    s.blockOf .persist (s.createApiKey draw.nowMs draw.raw name asUser expiresMs)
  | .revokeApiKey name => s.blockOf .persist (s.revokeApiKey name)
  | .gc => (.next .gcApiKeys, s.gcSessions draw.nowMs)

def nextBlock (argon2 : Argon2) (s : UserStore) (draw : Draw) :
    AccountBlock → BlockEnd × UserStore
  | .insertAdmin password => (.persist, s.insertAdmin (argon2.hash password draw.salt))
  | .dropSessions username => (.next (.dropMember username), s.dropSessions username)
  | .dropMember username => (.persist, s.dropMember username)
  | .gcApiKeys =>
    if (s.gcApiKeys draw.nowMs).apiKeys.length = s.apiKeys.length then (.returned, s)
    else (.persist, s.gcApiKeys draw.nowMs)

end UserStore

end ByteHive
