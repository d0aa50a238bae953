import ByteHive.ForStd.TreeWalk
import ByteHive.Native.FileRequests
import ByteHive.Native.QueryText

/-!
# Requests that read files (`filebrowser/src/handlers.rs`, `fs_util.rs`)

Listing, searching, downloading and opening in a root without links. A request is given by its
query; `none` as a disk is a root that is gone. `to_lowercase` is given from outside, and so is what
the crate `zip` takes.
-/

namespace ByteHive.FileBrowser

open FileTree TextLines

/-- The fields that a listing and a search give of an entry. -/
structure BrowserEntry where
  name : String
  path : String
  isDir : Bool
  /-- `none` for a directory, whose size is up to the file system. -/
  size : Option Nat
  /-- In seconds. -/
  mtime : Nat
  ext : Text
deriving DecidableEq, Repr

inductive BrowseReply where
  | badRequest (text : String)
  | unresolved (e : ResolveError)
  | notFound (text : String)
  | internalError
  | entries (path : String) (entries : List BrowserEntry)
  | results (path : String) (query : Text) (results : List BrowserEntry) (truncated : Bool)
  /-- The bytes of a file, under the name it is saved by. -/
  | file (name : String) (inline : Bool) (data : Content)
  /-- An archive, under the name it is saved by. -/
  | archive (name : String) (entries : List (ArchiveEntry Content))
  | opened (path : String) (data : Content) (forced : Bool)
  | detected (byExtension byContent isDir : Bool) (size : Option Nat)
deriving DecidableEq

/-- `resolve` on the disk as it is. -/
def resolveIn (disk : Option RootTree) (rel : String) :
    Except ResolveError (BrowserPath × RootTree) :=
  match resolvePath rel, disk with
  | .error text, _ => .error (.text text)
  | .ok _, none => .error .io
  | .ok p, some t => .ok (p, t)

/-- A parameter of the query. -/
def param (query : Text) (key : String) : Option String :=
  (queryParam query key.toList).map String.ofList

/-- `std::fs::read` -/
def readFile (t : RootTree) (p : BrowserPath) : Option Content :=
  if p.slash then none else t.read p.names

/-- `parse::<usize>` -/
def parseUsize (s : Text) : Option Nat :=
  let digits := if s.head? = some '+' then s.tail else s
  if digits ≠ [] ∧ digits.all Char.isDigit = true then
    let n := Nat.ofDigitChars 10 digits 0
    if n < 2 ^ 64 then some n else none
  else none

/-- What is said of the entry at `names`. -/
def entryAt (t : RootTree) (names : List String) (name path : String) : BrowserEntry where
  name
  path
  isDir := t.isDir names
  size := (t.read names).map List.length
  mtime := ((t.get names).map FileNode.mtime).getD 0 / 1000
  ext := (extensionOf name).getD []

/-! ## Listing -/

/-- Directories come first, then the names are compared. -/
def listedBefore (a b : BrowserEntry) : Bool :=
  if a.isDir = b.isDir then decide (a.name ≤ b.name) else a.isDir

/-- `handle_ls` -/
def handleLs (ls : DirListing Content) (disk : Option RootTree) (query : Text) : BrowseReply :=
  let rel := (param query "path").getD ""
  match resolveIn disk rel with
  | .error e => .unresolved e
  | .ok (p, t) =>
    if !t.isDir p.names then .badRequest ("not a directory: " ++ rel)
    else
      let entries := ((ls.names t p.names).filter (· ≠ ".bh_filesync")).map fun name =>
        entryAt t (p.names ++ [name]) name (if rel = "" then name else rel ++ "/" ++ name)
      .entries rel (entries.insertionSort fun a b => listedBefore a b = true)

/-! ## Searching -/

section

variable (lower : Text → Text) (ls : DirListing Content) (t : RootTree) (base : List String)

/-- The path below where the search began. -/
def relativeText (names : List String) : String :=
  slashed ("/".intercalate (names.drop base.length))

/-- The loop of `search_dir`; `searchDir` is the recursive call. -/
def searchEntries (searchDir : List String → List BrowserEntry → List BrowserEntry) (query : Text)
    (max : Nat) (cur : List String) : List String → List BrowserEntry → List BrowserEntry
  | [], results => results
  | name :: rest, results =>
    if max ≤ results.length then results
    else if name = ".bh_filesync" then searchEntries searchDir query max cur rest results
    else
      let path := cur ++ [name]
      let results :=
        if query <:+: lower name.toList then
          results ++ [entryAt t path name (relativeText base path)]
        else results
      let results := if t.isDir path then searchDir path results else results
      searchEntries searchDir query max cur rest results

/-- `search_dir`, with at most `fuel` nested calls. -/
def searchDir (query : Text) (max : Nat) :
    Nat → List String → List BrowserEntry → List BrowserEntry
  | 0, _, results => results
  | fuel + 1, cur, results =>
    if max ≤ results.length then results
    else if !t.isDir cur then results
    else
      searchEntries lower t base (searchDir query max fuel) query max cur (ls.names t cur) results

end

/-- The limit that a request sets, or 200, but at most 500. -/
def maxResults (query : Text) : Nat :=
  min (((queryParam query "max_results".toList).bind parseUsize).getD 200) 500

/-- `handle_search`; no call is nested deeper than the tree. -/
def handleSearch (lower : Text → Text) (ls : DirListing Content) (disk : Option RootTree)
    (query : Text) : BrowseReply :=
  let rel := (param query "path").getD ""
  match param query "q" with
  | none => .badRequest "q required"
  | some q =>
    if q = "" then .badRequest "q required"
    else
      let text := lower q.toList
      let max := maxResults query
      match resolveIn disk rel with
      | .error e => .unresolved e
      | .ok (p, t) =>
        if !t.isDir p.names then .badRequest "path must be a directory"
        else
          let results := searchDir lower ls t p.names text max (t.depth + 1) p.names []
          .results rel text results (decide (max ≤ results.length))

/-! ## Downloading -/

section

variable (zip : ZipCrate Content) (ls : DirListing Content) (t : RootTree) (base : List String)

/-- The loop of `add_dir` in `zip_directory`; `addDir` is the recursive call. -/
def zipEntries
    (addDir : List (ArchiveEntry Content) → List String → List (ArchiveEntry Content))
    (cur : List String) :
    List String → List (ArchiveEntry Content) → List (ArchiveEntry Content)
  | [], archive => archive
  | name :: rest, archive =>
    if name = ".bh_filesync" then zipEntries addDir cur rest archive
    else
      let path := cur ++ [name]
      if t.isDir path then
        let archive := zip.add archive ⟨relativeText base path ++ "/", none, path⟩
        zipEntries addDir cur rest (addDir archive path)
      else
        match t.read path with
        | some data =>
          zipEntries addDir cur rest (zip.add archive ⟨relativeText base path, some data, path⟩)
        | none => zipEntries addDir cur rest archive

/-- `add_dir` in `zip_directory`, with at most `fuel` nested calls. -/
def zipDir : Nat → List (ArchiveEntry Content) → List String → List (ArchiveEntry Content)
  | 0, archive, _ => archive
  | fuel + 1, archive, cur => zipEntries zip t base (zipDir fuel) cur (ls.names t cur) archive

end

/-- `zip_directory`; what `finish` returns is not looked at. -/
def zipDirectory (zip : ZipCrate Content) (ls : DirListing Content) (t : RootTree)
    (p : BrowserPath) : BrowseReply :=
  .archive (p.names.getLast?.getD "download" ++ ".zip")
    (zipDir zip ls t p.names (t.depth + 1) [] p.names)

/-- `handle_download` -/
def handleDownload (zip : ZipCrate Content) (ls : DirListing Content) (disk : Option RootTree)
    (query : Text) : BrowseReply :=
  match param query "path" with
  | none => .badRequest "path required"
  | some rel =>
    match resolveIn disk rel with
    | .error e => .unresolved e
    | .ok (p, t) =>
      if t.isDir p.names then zipDirectory zip ls t p
      else
        match readFile t p with
        | none => .internalError
        | some data => .file (p.names.getLast?.getD "file") false data

/-! ## Opening -/

/-- `handle_preview` -/
def handlePreview (disk : Option RootTree) (query : Text) : BrowseReply :=
  match param query "path" with
  | none => .badRequest "path required"
  | some rel =>
    match resolveIn disk rel with
    | .error e => .unresolved e
    | .ok (p, t) =>
      if t.isDir p.names then .badRequest "cannot preview a directory"
      else
        match readFile t p with
        | none => .internalError
        | some data => .file (p.names.getLast?.getD "file") true data

/-- `handle_thumb` -/
def handleThumb (disk : Option RootTree) (query : Text) : BrowseReply := handlePreview disk query

/-- `MAX_READ_BYTES` -/
def maxReadBytes : Nat := 2 * 1024 * 1024

/-- `handle_read`; what is not UTF-8 in the bytes is replaced. -/
def handleRead (disk : Option RootTree) (query : Text) : BrowseReply :=
  match param query "path" with
  | none => .badRequest "path required"
  | some rel =>
    let force := (param query "force").any fun v => v = "1" || v = "true"
    match resolveIn disk rel with
    | .error e => .unresolved e
    | .ok (p, t) =>
      if t.isDir p.names then .badRequest "cannot read a directory"
      else
        match readFile t p with
        | none => .internalError
        | some data =>
          if maxReadBytes < data.length then
            .badRequest ("file too large to edit (" ++ toString (data.length / (1024 * 1024)) ++
              " MB > 2 MB limit)")
          else if !force && !isTextFile rel && !sniffIsText data then
            .badRequest "file does not appear to be text. Use force=1 to open anyway."
          else .opened rel data force

/-- `handle_detect` -/
def handleDetect (disk : Option RootTree) (query : Text) : BrowseReply :=
  match param query "path" with
  | none => .badRequest "path required"
  | some rel =>
    match resolveIn disk rel with
    | .error e => .unresolved e
    | .ok (p, t) =>
      if !p.existsIn t then .notFound (rel ++ " not found")
      else
        .detected (isTextFile rel) ((t.read p.names).any sniffIsText) (t.isDir p.names)
          ((t.read p.names).map List.length)

end ByteHive.FileBrowser
