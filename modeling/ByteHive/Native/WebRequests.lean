import ByteHive.Native.Cookies
import ByteHive.Native.HttpAuth

/-!
# Requests on their way to the file browser (`http.rs`, `filebrowser/src/app.rs`)

A request comes with headers of the client's choice. The middleware finds out who it is from and
writes that into two of the headers; of who it is from the file browser sees these two only. The
names of headers are in small letters, and a value is what `to_str` makes of it. The handlers
themselves are in other modules.
-/

namespace ByteHive

open TextLines

def AuthContext.canWrite (c : AuthContext) : Bool :=
  c.groups.any fun g => g == groupAdmin || g == groupUser

/-- `strip_prefix` -/
def stripPrefix (pre s : Text) : Option Text :=
  if pre <+: s then some (s.drop pre.length) else none

/-! ## Headers -/

/-- Headers in their order; a value is `none` where `to_str` refuses it. -/
abbrev HeaderMap := List (String × Option Text)

namespace HeaderMap

/-- `get`, then `to_str`. -/
def getText (headers : HeaderMap) (name : String) : Option Text :=
  (headers.find? fun kv => kv.1 = name).bind (·.2)

/-- `insert`: one value in the place of all. -/
def insert (headers : HeaderMap) (name : String) (value : Option Text) : HeaderMap :=
  headers.filter (fun kv => kv.1 ≠ name) ++ [(name, value)]

/-- What `dispatch_to_registry` passes on of a header: the last value that is a text. -/
def passedOn (headers : HeaderMap) (name : String) : Option Text :=
  (headers.filterMap fun kv => if kv.1 = name then kv.2 else none).getLast?

end HeaderMap

structure WebRequest where
  method : String
  path : String
  query : Text
  headers : HeaderMap

/-- The tokens that the middlewares look for. -/
def WebRequest.tokens (req : WebRequest) : RequestTokens where
  cookie := ((req.headers.getText "cookie").bind fun h =>
    parseCookie h "cc_session".toList).map String.ofList
  bearer := ((req.headers.getText "authorization").bind
    (stripPrefix "Bearer ".toList)).map fun t => String.ofList (trim t)
  query := ((req.query.splitOn '&').findSome? (stripPrefix "token=".toList)).map String.ofList

/-- The role of a context. -/
def roleOf (ctx : AuthContext) : String :=
  if ctx.isAdmin then "admin" else if ctx.canWrite then "user" else "readonly"

/-- `inject_auth_context`; `parse` is `parse::<HeaderValue>`. -/
def injectAuthContext (parse : String → Option (Option Text)) (headers : HeaderMap)
    (ctx : AuthContext) : HeaderMap :=
  let headers :=
    match parse ctx.username with
    | some value => headers.insert "x-bytehive-user" value
    | none => headers
  match parse (roleOf ctx) with
  | some value => headers.insert "x-bytehive-role" value
  | none => headers

/-! ## The file browser -/

/-- What the file browser does with a request: the handler that it calls, with what the handler is
    given besides the request. -/
inductive BrowserRoute where
  | page
  | shareAccess (token : Text)
  | unauthorized
  | status
  | ls
  | download
  | downloadZip
  | upload
  | mkdir
  | delete
  | batchDelete (user : Text)
  | rename
  | createShare (user : Text)
  | batchShare (user : Text)
  | listShares (role : Text)
  | deleteShare (user role : Text)
  | preview
  | read
  | write
  | copy
  | batchCopy
  | search
  | thumb
  | detect
  | trashList
  | trashRestore (id : Text)
  | trashPurgeEntry (id : Text)
  | trashEmpty
  | trashPurgeExpired
  /-- No answer of this app. -/
  | notMine
deriving DecidableEq, Repr

/-- `trim_start_matches`, with at most `fuel` matches. -/
def trimStartMatches (pat : Text) : Nat → Text → Text
  | 0, s => s
  | fuel + 1, s =>
    match stripPrefix pat s with
    | some rest => trimStartMatches pat fuel rest
    | none => s

/-- `trim_end_matches` -/
def trimEndMatches (pat s : Text) : Text :=
  (trimStartMatches pat.reverse s.length s.reverse).reverse

/-- `is_readonly` is looked at before the handler is called. -/
def gated (role : Text) (route : BrowserRoute) : BrowserRoute :=
  if role = "readonly".toList then .unauthorized else route

/-- The part of `handle_http` below the check of the user. -/
def browserHandler (method sub : String) (user role : Text) : BrowserRoute :=
  match method, sub with
  | "GET", "/status" => .status
  | "GET", "/ls" => .ls
  | "GET", "/download" => .download
  | "POST", "/download-zip" => gated role .downloadZip
  | "POST", "/upload" => gated role .upload
  | "POST", "/mkdir" => gated role .mkdir
  | "DELETE", "/delete" => gated role .delete
  | "POST", "/batch-delete" => gated role (.batchDelete user)
  | "POST", "/rename" => gated role .rename
  | "POST", "/share" => gated role (.createShare user)
  | "POST", "/batch-share" => gated role (.batchShare user)
  | "GET", "/shares" => .listShares role
  | "DELETE", "/share" => gated role (.deleteShare user role)
  | "GET", "/preview" => .preview
  | "GET", "/read" => .read
  | "POST", "/write" => gated role .write
  | "POST", "/copy" => gated role .copy
  | "POST", "/batch-copy" => gated role .batchCopy
  | "GET", "/search" => .search
  | "GET", "/thumb" => .thumb
  | "GET", "/detect" => .detect
  | "GET", "/trash" => .trashList
  | method, sub =>
    let text := sub.toList
    let trash := "/trash/".toList
    if method = "POST" ∧ trash <+: text ∧ "/restore".toList <:+ text then
      gated role (.trashRestore
        (trimEndMatches "/restore".toList (trimStartMatches trash text.length text)))
    else if method = "DELETE" ∧ trash <+: text then
      gated role (.trashPurgeEntry (trimStartMatches trash text.length text))
    else if method = "DELETE" ∧ sub = "/trash" then gated role .trashEmpty
    else if method = "POST" ∧ sub = "/trash/purge-expired" then gated role .trashPurgeExpired
    else .notMine

/-- `handle_http` -/
def browserRoute (method path : String) (headers : HeaderMap) : BrowserRoute :=
  let sub := (stripPrefix "/api/filebrowser".toList path.toList).getD path.toList
  if "/apps/filebrowser".toList <+: path.toList then .page
  else
    match stripPrefix "/s/".toList sub with
    | some token => .shareAccess (token.rdropWhile (· = '/'))
    | none =>
      let user := (headers.passedOn "x-bytehive-user").getD []
      let role := (headers.passedOn "x-bytehive-role").getD []
      if user = [] then .unauthorized
      else browserHandler method (String.ofList sub) user role

/-! ## The server -/

inductive WebAnswer where
  | refused (outcome : AuthOutcome)
  | routed (route : BrowserRoute)
deriving DecidableEq, Repr

/-- A request below `/api` or `/apps` that comes to the file browser: `auth_middleware`, then
    `proxy_handler`. -/
def proxyRequest (parse : String → Option (Option Text)) (s : UserStore) (nowMs : Nat)
    (req : WebRequest) : WebAnswer × UserStore :=
  match req.tokens.authMiddleware s nowMs with
  | (.admitted ctx, s) =>
    (.routed (browserRoute req.method req.path (injectAuthContext parse req.headers ctx)), s)
  | (outcome, s) => (.refused outcome, s)

/-- A request to `/s/:token`, which anybody may make: `share_handler`. -/
def shareRequest (req : WebRequest) (token : Text) : BrowserRoute :=
  browserRoute req.method (String.ofList ("/api/filebrowser/s/".toList ++ token)) req.headers

end ByteHive
