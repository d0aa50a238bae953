import ByteHive.Native.LinkWrites
import ByteHive.Native.TrashFallback

/-!
# Requests that change files (`filebrowser/src/handlers.rs`, `file_type.rs`)

Deleting, renaming, writing, uploading and copying in a root without links. A request is given by
its fields; `none` as a tree is a root that is gone.
-/

namespace ByteHive

open FileTree RootTree

/-! ## Text files (`file_type.rs`) -/

/-- `to_lowercase`, as far as it gives ASCII letters: from these, and from the Kelvin sign. -/
def lowercaseChar (c : Char) : Char := if c = '\u212A' then 'k' else c.toLower

/-- `Path::extension` of a file name. -/
def extensionOf (name : String) : Option (List Char) :=
  let after := name.toList.reverse.takeWhile (· ≠ '.')
  let before := (name.toList.reverse.drop after.length).tail
  if before = [] then none else some after.reverse

/-- The extensions of `is_text_file`. -/
def textExtensions : List String :=
  ["txt", "md", "rst", "html", "htm", "css", "js", "ts", "jsx", "tsx", "json", "jsonc", "yml",
    "yaml", "toml", "ini", "cfg", "conf", "rs", "py", "rb", "go", "java", "c", "cpp", "cc", "h",
    "hpp", "cs", "sh", "bash", "zsh", "fish", "ps1", "bat", "cmd", "xml", "svg", "csv", "sql",
    "graphql", "gql", "dockerfile", "makefile", "gitignore", "env", "lock", "proto", "tf", "hcl",
    "nix", "r", "lua", "perl", "pl", "php", "swift", "kt", "kts", "scala", "ex", "exs", "clj",
    "cljs", "erl", "hrl", "hs", "lhs", "ml", "mli", "vue", "svelte", "astro"]

/-- `is_text_file` -/
def isTextFile (path : String) : Bool :=
  match (componentsOf path).getLast? with
  | some (.normal name) =>
    decide (String.ofList (((extensionOf name).getD []).map lowercaseChar) ∈ textExtensions)
  | _ => false

/-- `sniff_is_text` on what the file holds; the quotient is compared without rounding. -/
def sniffIsText (data : Content) : Bool :=
  let sample := data.take (8 * 1024)
  if sample = [] then true
  else if sample.any (· = 0) then false
  else
    let suspicious := sample.countP fun b => b < 0x09 || (0x0d < b && b < 0x20 && b ≠ 0x1b)
    decide (10 * suspicious < sample.length)

namespace FileBrowser

/-! ## Handlers -/

inductive DeleteFailure where
  | unresolved (e : ResolveError)
  | notFound
  /-- "could not move to trash" -/
  | stays
deriving DecidableEq, Repr

inductive BrowserReply where
  | badRequest (text : String)
  | unresolved (e : ResolveError)
  | unauthorized
  | internalError
  | done
  | stored (path : String) (size : Nat)
  | deleted (deleted requested : Nat) (failed : List (String × DeleteFailure))
  | copy (reply : CopyReply)
deriving DecidableEq, Repr

/-- The part of `FileBrowserInner` that the handlers look at. -/
structure FileBrowserInner where
  allowDelete : Bool
  maxUploadBytes : Nat

section

variable (host : BrowserHost) (inner : FileBrowserInner) (t : RootTree)

/-- `handle_delete` -/
def handleDelete (tick : TrashTick) (path : Option String) : BrowserReply × Option RootTree :=
  if !inner.allowDelete then (.unauthorized, some t)
  else
    match path with
    | none => (.badRequest "path required", some t)
    | some rel =>
      match resolvePath rel with
      | .error text => (.unresolved (.text text), some t)
      | .ok p => (.done, moveToTrash host tick t p (endsInDot rel) "filebrowser")

/-- One turn of the loop of `handle_batch_delete`. -/
def deleteOne (who : String) (disk : Option RootTree) (tick : TrashTick) (rel : String) :
    Option DeleteFailure × Option RootTree :=
  match resolvePath rel, disk with
  | .error text, _ => (some (.unresolved (.text text)), disk)
  | .ok _, none => (some (.unresolved .io), disk)
  | .ok p, some t =>
    if !p.existsIn t then (some .notFound, disk)
    else
      let disk := moveToTrash host tick t p (endsInDot rel) who
      (if disk.any p.existsIn then some .stays else none, disk)

/-- The loop, with the time and the id of each turn. -/
def deleteEach (who : String) :
    (Nat → TrashTick) → Option RootTree → List String →
      List (String × DeleteFailure) × Option RootTree
  | _, disk, [] => ([], disk)
  | ticks, disk, rel :: rels =>
    let (failure, disk) := deleteOne host who disk (ticks 0) rel
    let (failed, disk) := deleteEach who (fun i => ticks (i + 1)) disk rels
    ((failure.map (rel, ·)).toList ++ failed, disk)

/-- `handle_batch_delete` -/
def handleBatchDelete (ticks : Nat → TrashTick) (paths : Option (List String))
    (deletedBy : String) : BrowserReply × Option RootTree :=
  if !inner.allowDelete then (.unauthorized, some t)
  else
    match paths with
    | none => (.badRequest "paths required", some t)
    | some paths =>
      let paths := paths.filter (· ≠ "")
      if paths = [] then (.badRequest "no paths selected", some t)
      else if 500 < paths.length then (.badRequest "too many paths selected (max 500)", some t)
      else
        let who := if deletedBy = "" then "filebrowser" else deletedBy
        let (failed, disk) := deleteEach host who ticks (some t) paths
        (.deleted (paths.length - failed.length) paths.length failed, disk)

/-- `fs::rename`. The kernel renames no path that ends in `.`, and a file to no path that ends in a
    slash. -/
def renamePath (source target : BrowserPath) (dot : Bool) : Option RootTree :=
  if dot || !source.existsIn t || (target.slash && t.isFile source.names) then none
  else if source.names = target.names then some t
  else t.rename source.names target.names

/-- `handle_rename` -/
def handleRename (source target : Option String) : BrowserReply × Option RootTree :=
  match source, target with
  | none, _ => (.badRequest "from required", some t)
  | some _, none => (.badRequest "to required", some t)
  | some source, some target =>
    match resolvePath source, resolvePath target with
    | .error text, _ => (.unresolved (.text text), some t)
    | .ok _, .error text => (.unresolved (.text text), some t)
    | .ok absFrom, .ok absTo =>
      match renamePath t absFrom absTo (endsInDot source || endsInDot target) with
      | none => (.internalError, some t)
      | some t => (.done, some t)

/-- What `handle_write` asks before it writes. -/
def writable (rel : String) (p : BrowserPath) (force : Bool) : Bool :=
  force || isTextFile rel || (p.existsIn t && (t.read p.names).any sniffIsText)

/-- `handle_write`; the text in the body and the length of the body. -/
def handleWrite (now bodyLen : Nat) (path : Option String) (content : Option Content)
    (force : Bool) : BrowserReply × Option RootTree :=
  if inner.maxUploadBytes < bodyLen then
    let limit := toString (inner.maxUploadBytes / (1024 * 1024))
    (.badRequest ("content exceeds limit of " ++ limit ++ " MB"), some t)
  else
    match path, content with
    | none, _ => (.badRequest "path required", some t)
    | some _, none => (.badRequest "content required", some t)
    | some rel, some content =>
      match resolvePath rel with
      | .error text => (.unresolved (.text text), some t)
      | .ok p =>
        if !writable t rel p force then
          (.badRequest
            "file type not writable via editor. Pass \"force\": true to override.", some t)
        else
          match if p.slash then none else t.write p.names content now with
          | none => (.internalError, some t)
          | some t => (.stored rel content.length, some t)

/-- `create_dir_all`, and whether the directory is there then. `mkdir` makes no path that ends in
    `.`, but what comes before its last name is made by then. -/
def makeTargetDir (now : Nat) (p : BrowserPath) (dot : Bool) : Bool × RootTree :=
  if t.isDir p.names then (true, t)
  else if dot then (false, (t.createDirAll now p.names.dropLast).getD t)
  else
    match t.createDirAll now p.names with
    | none => (false, t)
    | some t => (true, t)

/-- `handle_upload` -/
def handleUpload (now : Nat) (dir name : Option String) (body : Content) :
    BrowserReply × Option RootTree :=
  if inner.maxUploadBytes < body.length then
    let limit := toString (inner.maxUploadBytes / (1024 * 1024))
    (.badRequest ("file exceeds limit of " ++ limit ++ " MB"), some t)
  else
    let dir := dir.getD ""
    match name with
    | none => (.badRequest "name required", some t)
    | some name =>
      if '/' ∈ name.toList ∨ '\\' ∈ name.toList ∨ name = ".." then
        (.badRequest "invalid filename", some t)
      else
        match resolvePath dir with
        | .error text => (.unresolved (.text text), some t)
        | .ok p =>
          match makeTargetDir t now p (endsInDot dir) with
          | (false, t) => (.internalError, some t)
          | (true, t) =>
            -- An empty name and `.` are the directory itself.
            match if PlainName name then t.write (p.names ++ [name]) body now else none with
            | none => (.internalError, some t)
            | some t =>
              (.stored (if dir = "" then name else dir ++ "/" ++ name) body.length, some t)

end

inductive BrowserRequest where
  | delete (path : Option String)
  | batchDelete (paths : Option (List String)) (deletedBy : String)
  | rename (source target : Option String)
  | write (bodyLen : Nat) (path : Option String) (content : Option Content) (force : Bool)
  | upload (dir name : Option String) (body : Content)
  | copy (source target : Option String)

/-- The answer to a request, with the times and ids it takes; `none` is a copy that makes more
    nested calls than `limit`. -/
def handle (host : BrowserHost) (inner : FileBrowserInner) (t : RootTree)
    (ticks : Nat → TrashTick) : BrowserRequest → Option (BrowserReply × Option RootTree)
  | .delete path => some (handleDelete host inner t (ticks 0) path)
  | .batchDelete paths deletedBy => some (handleBatchDelete host inner t ticks paths deletedBy)
  | .rename source target => some (handleRename t source target)
  | .write bodyLen path content force =>
    some (handleWrite inner t (ticks 0).now bodyLen path content force)
  | .upload dir name body => some (handleUpload inner t (ticks 0).now dir name body)
  | .copy source target =>
    (handleCopy host.listing (ticks 0).now host.limit t source target).map fun x =>
      (.copy x.1, some x.2)

end FileBrowser

end ByteHive
