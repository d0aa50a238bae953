import ByteHive.Native.Browsing
import ByteHive.Native.LedgerJson

/-!
# Requests with a body (`filebrowser/src/handlers.rs`)

Making a folder and copying several files and folders at once, in a root without links. The body is
what `serde_json` makes of the bytes, if they are JSON.
-/

namespace ByteHive

open FileTree RootTree

/-! ## Fields of a body -/

namespace Json

/-- `get(name)`, or `value[name]`: of several members of a name the last one. -/
def member (name : String) : Json → Option Json
  | .obj members => (members.reverse.find? (·.1 = name)).map (·.2)
  | _ => none

/-- `as_array` -/
def elems : Json → Option (List Json)
  | .arr elems => some elems
  | _ => none

/-- `as_bool` -/
def boolean : Json → Option Bool
  | .bool value => some value
  | _ => none

/-- A field that is a text. -/
def text (name : String) (body : Json) : Option String := (body.member name).bind string

/-- The texts of the field `paths` that are not empty. -/
def paths (body : Json) : Option (List String) :=
  ((body.member "paths").bind elems).map fun items => (items.filterMap string).filter (· ≠ "")

end Json

namespace FileBrowser

/-- What keeps one of several copies from being made. -/
inductive CopyFailure where
  | unresolved (e : ResolveError)
  | notFound
  | destinationExists
  | io
deriving DecidableEq, Repr

inductive BatchReply where
  | badRequest (text : String)
  | unresolved (e : ResolveError)
  | internalError
  | made (path : String)
  | copied (copied : List (String × String)) (failed : List ((String × String) × CopyFailure))
deriving DecidableEq, Repr

/-! ## Making a folder -/

/-- `handle_mkdir` -/
def handleMkdir (now : Nat) (t : RootTree) (body : Option Json) : BatchReply × RootTree :=
  match body with
  | none => (.badRequest "expected JSON \x7bpath\x7d", t)
  | some body =>
    match body.text "path" with
    | none => (.badRequest "path required", t)
    | some rel =>
      match resolvePath rel with
      | .error text => (.unresolved (.text text), t)
      | .ok p =>
        match makeTargetDir t now p (endsInDot rel) with
        | (false, t) => (.internalError, t)
        | (true, t) => (.made rel, t)

/-! ## What is to be copied -/

/-- `{copies: [{from, to}]}` -/
def explicitJobs (copies : List Json) : List (String × String) :=
  (copies.map fun c => ((c.text "from").getD "", (c.text "to").getD "")).filter fun job =>
    job.1 ≠ "" ∧ job.2 ≠ ""

/-- `rsplit('/').next()` -/
def baseName (path : String) : String := String.ofList ((path.toList.splitOn '/').getLast?.getD [])

/-- `{paths: [...], dest_dir: "folder"}` -/
def folderJobs (destDir : String) (paths : List String) : List (String × String) :=
  (paths.filter (baseName · ≠ "")).map fun path =>
    let folder := String.ofList (destDir.toList.rdropWhile (· = '/'))
    (path, if destDir = "" then baseName path else folder ++ "/" ++ baseName path)

/-- The jobs of a request, with the tree in which the folder that they go to has been made. -/
def batchJobs (now : Nat) (t : RootTree) (body : Json) :
    Except BatchReply (List (String × String)) × RootTree :=
  match (body.member "copies").bind Json.elems with
  | some copies =>
    if explicitJobs copies = [] then (.error (.badRequest "no valid copies"), t)
    else (.ok (explicitJobs copies), t)
  | none =>
    match body.paths with
    | none =>
      (.error (.badRequest
        "expected \x7bpaths: [...], dest_dir\x7d or \x7bcopies: [\x7bfrom, to\x7d]\x7d"), t)
    | some paths =>
      if paths = [] then (.error (.badRequest "no paths selected"), t)
      else if 500 < paths.length then
        (.error (.badRequest "too many paths selected (max 500)"), t)
      else
        let destDir := (body.text "dest_dir").getD ""
        match resolvePath destDir with
        | .error text => (.error (.unresolved (.text text)), t)
        | .ok p =>
          if p.existsIn t then
            if t.isDir p.names then (.ok (folderJobs destDir paths), t)
            else (.error (.badRequest "destination is not a folder"), t)
          else
            match makeTargetDir t now p (endsInDot destDir) with
            | (false, t) => (.error .internalError, t)
            | (true, t) => (.ok (folderJobs destDir paths), t)

/-! ## Copying -/

section

variable (ls : DirListing Content) (now limit : Nat)

/-- The copy itself; `create_dir_all` makes nothing where the path ends in `.`. -/
def copyTo (t : RootTree) (f g : BrowserPath) (dot : Bool) : CopyEnd Content :=
  if t.isDir f.names then
    if dot then .failed t else copyDirAll ls now limit t f.names g.names
  else if g.slash then .failed t
  else copyFile now t f.names g.names

/-- One turn of the loop: what has gone wrong, if anything, and the tree. A copy that makes more
    than `limit` nested calls has no result. -/
def copyOne (t : RootTree) (job : String × String) : Option (Option CopyFailure × RootTree) :=
  match resolvePath job.1, resolvePath job.2 with
  | .error text, _ => some (some (.unresolved (.text text)), t)
  | .ok _, .error text => some (some (.unresolved (.text text)), t)
  | .ok f, .ok g =>
    if !f.existsIn t then some (some .notFound, t)
    else if g.existsIn t then some (some .destinationExists, t)
    else
      let parent := g.names.dropLast
      match if t.pathExists parent then some t else t.createDirAll now parent with
      | none => some (some .io, t)
      | some t =>
        match copyTo ls now limit t f g (endsInDot job.2) with
        | .done t => some (none, t)
        | .failed t => some (some .io, t)
        | .unfinished => none

/-- The loop. -/
def copyEach : RootTree → List (String × String) →
    Option (List (String × String) × List ((String × String) × CopyFailure) × RootTree)
  | t, [] => some ([], [], t)
  | t, job :: jobs => do
    let (failure, t) ← copyOne ls now limit t job
    let (copied, failed, t) ← copyEach t jobs
    match failure with
    | none => return (job :: copied, failed, t)
    | some failure => return (copied, (job, failure) :: failed, t)

/-- `handle_batch_copy` -/
def handleBatchCopy (t : RootTree) (body : Option Json) : Option (BatchReply × RootTree) :=
  match body with
  | none => some (.badRequest "expected JSON", t)
  | some body =>
    match batchJobs now t body with
    | (.error reply, t) => some (reply, t)
    | (.ok jobs, t) =>
      if 500 < jobs.length then some (.badRequest "too many copies (max 500)", t)
      else (copyEach ls now limit t jobs).map fun r => (.copied r.1 r.2.1, r.2.2)

end

end FileBrowser

end ByteHive
