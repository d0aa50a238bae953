import ByteHive.Native.Users

/-!
# Who a request is from (`http.rs`)

The two middlewares of the HTTP server find out who a request is from and keep the session
alive. A request comes with the token of its `cc_session` cookie, with the token of its
`Authorization: Bearer` header and with the `token` parameter of its query, each or none.
-/

namespace ByteHive

/-- The credentials of a request. -/
structure RequestTokens where
  cookie : Option String
  bearer : Option String
  query : Option String
deriving DecidableEq, Repr

/-- What a middleware does with a request. -/
inductive AuthOutcome where
  | redirectToSetup
  | admitted (ctx : AuthContext)
  | forbidden
  | unauthenticated
deriving DecidableEq, Repr

namespace RequestTokens

/-- `resolve_auth_context`: the cookie's session if it is valid, else the bearer's or the query's
    credential. -/
def resolveAuthContext (s : UserStore) (nowMs : Nat) (r : RequestTokens) :
    Option AuthContext × UserStore :=
  match r.cookie.bind (s.validate nowMs) with
  | some x => (some (s.sessionContext x), s)
  | none =>
    match r.bearer.or r.query with
    | some tok => s.authenticateCredential nowMs tok
    | none => (none, s)

/-- `extract_bearer_or_cookie`: the token that a middleware refreshes. -/
def extractBearerOrCookie (r : RequestTokens) : Option String := r.cookie.or r.bearer

/-- What both middlewares do for a request with a context. -/
def refreshFor (s : UserStore) (nowMs : Nat) (r : RequestTokens) (ctx : AuthContext) : UserStore :=
  if ctx.method = .session then
    match r.extractBearerOrCookie with
    | some tok => s.refresh nowMs tok
    | none => s
  else s

def authMiddleware (s : UserStore) (nowMs : Nat) (r : RequestTokens) : AuthOutcome × UserStore :=
  if s.needsSetup then (.redirectToSetup, s)
  else
    match r.resolveAuthContext s nowMs with
    | (some ctx, s) => (.admitted ctx, r.refreshFor s nowMs ctx)
    | (none, s) => (.unauthenticated, s)

def adminMiddleware (s : UserStore) (nowMs : Nat) (r : RequestTokens) : AuthOutcome × UserStore :=
  if s.needsSetup then (.redirectToSetup, s)
  else
    match r.resolveAuthContext s nowMs with
    | (some ctx, s) =>
      if ctx.isAdmin then (.admitted ctx, r.refreshFor s nowMs ctx) else (.forbidden, s)
    | (none, s) => (.unauthenticated, s)

end RequestTokens

/-! ## Requests and calls one after the other -/

inductive SessionCall where
  /-- `login`, and the token drawn for the session. -/
  | login (username password token : String)
  | validate (token : String)
  | refresh (token : String)
  | logout (token : String)
  | removeUser (username : String)
  | gc
  /-- `authenticate_credential`, as the apps call it. -/
  | authenticate (credential : String)
  /-- A request that goes through `auth_middleware`, or through `admin_middleware`. -/
  | request (admin : Bool) (tokens : RequestTokens)
deriving DecidableEq, Repr

def UserStore.sessionCall (argon2 : Argon2) (s : UserStore) (nowMs : Nat) :
    SessionCall → UserStore
  | .login username password token => (s.login argon2 nowMs token username password).2
  | .validate _ => s
  | .refresh token => s.refresh nowMs token
  | .logout token => s.logout token
  | .removeUser username => (s.removeUser username).toOption.getD s
  | .gc => (s.gcSessions nowMs).gcApiKeys nowMs
  | .authenticate credential => (s.authenticateCredential nowMs credential).2
  | .request false r => (r.authMiddleware s nowMs).2
  | .request true r => (r.adminMiddleware s nowMs).2

end ByteHive
