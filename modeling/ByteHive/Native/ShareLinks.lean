import ByteHive.ForStd.Run
import ByteHive.Native.BatchRequests
import ByteHive.Native.Shares

/-!
# Share links (`filebrowser/src/handlers.rs`, `share.rs`, `crypto.rs`)

A share link gives whoever has its token a file or a folder, until it expires or is deleted. The
links are kept in memory by their tokens, also while the app is stopped. What a request does is one
step, at one time; a request whose arithmetic panics is no step. SHA-256 and the tokens are given
from outside.
-/

namespace ByteHive

open FileBrowser TextLines

/-! ## Passwords (`crypto.rs`) -/

def utf8Bytes (s : String) : List UInt8 := s.toByteArray.data.toList

/-- `constant_eq` -/
def constantEq (a b : String) : Bool :=
  decide ((utf8Bytes a).length = (utf8Bytes b).length) &&
    decide (((utf8Bytes a).zip (utf8Bytes b)).foldl (fun diff x => diff ||| x.1 ^^^ x.2) 0 = 0)

/-- `hash_password`, with the digest in hexadecimal digits. -/
def hashPassword (sha256 : String → String) (pw : String) : String :=
  sha256 ("filebrowser-share:" ++ pw)

/-! ## Links (`share.rs`) -/

/-- The other fields of `Share`. -/
structure ShareLink extends Share where
  token : String
  path : String
  isDir : Bool
  name : String
  passwordProtected : Bool
  passwordHash : Option String
  createdBy : String
  createdMs : Nat
  downloadCount : Nat
deriving DecidableEq, Repr

/-- `check_password` -/
def ShareLink.checkPassword (sha256 : String → String) (s : ShareLink) (provided : String) : Bool :=
  match s.passwordHash with
  | none => true
  | some hash => constantEq hash (hashPassword sha256 provided)

/-- What the app runs on. -/
structure ShareHost where
  sha256 : String → String
  /-- Whether sums and products are checked for overflow. -/
  checks : Bool
  zip : ZipCrate Content
  listing : DirListing Content

/-- The app with its links; `none` as a disk is a root that is gone. -/
structure ShareState where
  running : Bool
  disk : Option RootTree
  shares : FinMap String ShareLink

inductive ShareFailure where
  | unresolved (e : ResolveError)
  | notFound
deriving DecidableEq, Repr

inductive ShareReply where
  | badRequest (text : String)
  | unresolved (e : ResolveError)
  | notFound (text : String)
  | unauthorized
  | notRunning
  | created (link : ShareLink)
  | createdEach (links : List ShareLink) (failed : List (String × ShareFailure))
  | listed (shares : FinMap String ShareLink)
  | deleted
  /-- `share_error_page` -/
  | errorPage (text : String)
  | unresolvedPage (e : ResolveError)
  /-- `share_password_page` -/
  | passwordPage (token : String) (wrong : Bool)
  | served (what : BrowseReply)

namespace ShareState

section

variable (host : ShareHost) (σ : ShareState) (now : Nat)

/-! ## Making links -/

/-- `password` and `expires_hours` of a body. -/
def passwordOf (body : Json) : Option String := (body.text "password").filter (· ≠ "")

def expiresHours (body : Json) : Option Nat := (body.member "expires_hours").bind Json.u64

/-- The link that is made for a path. -/
def linkFor (t : RootTree) (p : BrowserPath) (rel user token : String) (body : Json) :
    Option ShareLink := do
  let share ← createShare host.checks (expiresHours body) now
  return {
    toShare := share
    token, path := rel
    isDir := t.isDir p.names
    name := p.names.getLast?.getD rel
    passwordProtected := (passwordOf body).isSome
    passwordHash := (passwordOf body).map (hashPassword host.sha256)
    createdBy := user
    createdMs := now
    downloadCount := 0 }

/-- `handle_create_share`; the token is the one that is drawn. -/
def handleCreateShare (user : String) (body : Option Json) (token : String) :
    Option (ShareReply × FinMap String ShareLink) :=
  if !σ.running then some (.notRunning, σ.shares)
  else
    match body with
    | none => some (.badRequest "expected JSON", σ.shares)
    | some body =>
      match body.text "path" with
      | none => some (.badRequest "path required", σ.shares)
      | some rel =>
        match resolveIn σ.disk rel with
        | .error e => some (.unresolved e, σ.shares)
        | .ok (p, t) =>
          if !p.existsIn t then some (.notFound (rel ++ " not found"), σ.shares)
          else
            (linkFor host now t p rel user token body).map fun link =>
              (.created link, σ.shares.insert link.token link)

/-- The loop of `handle_batch_share`; a token is drawn for each path. -/
def shareEach (user : String) (body : Json) (disk : Option RootTree) :
    (Nat → String) → List String → Option (List ShareLink × List (String × ShareFailure))
  | _, [] => some ([], [])
  | tokens, rel :: rels => do
    let (links, failed) ← shareEach user body disk (fun i => tokens (i + 1)) rels
    match resolveIn disk rel with
    | .error e => return (links, (rel, .unresolved e) :: failed)
    | .ok (p, t) =>
      if !p.existsIn t then return (links, (rel, .notFound) :: failed)
      else
        let link ← linkFor host now t p rel user (tokens 0) body
        return (link :: links, failed)

/-- Links are entered one after the other. -/
def insertAll (shares : FinMap String ShareLink) (links : List ShareLink) :
    FinMap String ShareLink :=
  links.foldl (fun shares link => shares.insert link.token link) shares

/-- `handle_batch_share` -/
def handleBatchShare (user : String) (body : Option Json) (tokens : Nat → String) :
    Option (ShareReply × FinMap String ShareLink) :=
  if !σ.running then some (.notRunning, σ.shares)
  else
    match body with
    | none => some (.badRequest "expected JSON \x7bpaths: [...]\x7d", σ.shares)
    | some body =>
      match body.paths with
      | none => some (.badRequest "paths required", σ.shares)
      | some paths =>
        if paths = [] then some (.badRequest "no paths selected", σ.shares)
        else if 100 < paths.length then
          some (.badRequest "too many paths selected (max 100)", σ.shares)
        else
          (shareEach host now user body σ.disk tokens paths).map fun r =>
            (.createdEach r.1 r.2, insertAll σ.shares r.1)

/-! ## Looking at links and deleting them -/

/-- The links that have not expired. -/
def unexpired : FinMap String ShareLink := σ.shares.filter fun _ s => !s.isExpiredAt now

/-- `handle_list_shares` -/
def handleListShares : ShareReply := .listed (σ.unexpired now)

/-- `share_count` of `handle_status` -/
def shareCount : Nat := (σ.unexpired now).keys.card

/-- `handle_delete_share` -/
def handleDeleteShare (user role : String) (query : Text) :
    ShareReply × FinMap String ShareLink :=
  match param query "token" with
  | none => (.badRequest "token required", σ.shares)
  | some token =>
    match σ.shares.get token with
    | none => (.notFound "share not found", σ.shares)
    | some s =>
      if role ≠ "admin" ∧ s.createdBy ≠ user then (.unauthorized, σ.shares)
      else (.deleted, σ.shares.erase token)

/-! ## Using links -/

/-- The file or folder of a link. -/
def sharedContent (t : RootTree) (p : BrowserPath) : BrowseReply :=
  if t.isDir p.names then zipDirectory host.zip host.listing t p
  else
    match readFile t p with
    | none => .internalError
    | some data => .file (p.names.getLast?.getD "file") false data

/-- The page that asks for the password, or asks for it again. -/
def passwordGate (s : ShareLink) (token : String) (post : Bool) (body : Option Json) :
    Option ShareReply :=
  if s.passwordProtected then
    if post then
      if s.checkPassword host.sha256 ((body.bind (·.text "password")).getD "") then none
      else some (.passwordPage token true)
    else some (.passwordPage token false)
  else none

/-- `handle_share_access`; whether the request is a POST, and its body. -/
def handleShareAccess (token : String) (post : Bool) (body : Option Json) :
    ShareReply × FinMap String ShareLink :=
  if !σ.running then (.notRunning, σ.shares)
  else
    match (σ.shares.get token).filter fun s => !s.isExpiredAt now with
    | none => (.errorPage "This share link is not valid or has expired.", σ.shares)
    | some s =>
      match passwordGate host s token post body with
      | some page => (page, σ.shares)
      | none =>
        match resolveIn σ.disk s.path with
        | .error e => (.unresolvedPage e, σ.shares)
        | .ok (p, t) =>
          if !p.existsIn t then (.errorPage "The shared file no longer exists.", σ.shares)
          else
            (.served (sharedContent host t p),
              σ.shares.insert token { s with downloadCount := s.downloadCount + 1 })

end

end ShareState

/-! ## Requests one after the other -/

inductive ShareEvent where
  | create (user : String) (body : Option Json) (token : String)
  | createEach (user : String) (body : Option Json) (tokens : Nat → String)
  | delete (user role : String) (query : Text)
  | access (token : String) (post : Bool) (body : Option Json)
  /-- The thread `filebrowser-gc`. -/
  | gc
  /-- Whatever else changes the disk. -/
  | change (disk : Option RootTree)
  /-- `start` and `stop` -/
  | switch (running : Bool)

namespace ShareState

/-- One step, at a time. -/
def step (host : ShareHost) (σ : ShareState) (ev : Nat × ShareEvent) : Option ShareState :=
  match ev.2 with
  | .create user body token =>
    (σ.handleCreateShare host ev.1 user body token).map fun r => { σ with shares := r.2 }
  | .createEach user body tokens =>
    (σ.handleBatchShare host ev.1 user body tokens).map fun r => { σ with shares := r.2 }
  | .delete user role query => some { σ with shares := (σ.handleDeleteShare user role query).2 }
  | .access token post body =>
    some { σ with shares := (σ.handleShareAccess host ev.1 token post body).2 }
  | .gc => some { σ with shares := σ.unexpired ev.1 }
  | .change disk => some { σ with disk }
  | .switch running => some { σ with running }

/-- The app when it is made. -/
def init (disk : Option RootTree) : ShareState := ⟨false, disk, .empty⟩

end ShareState

end ByteHive
