import ByteHive.Native.BrowserPaths
import ByteHive.Native.LinkTree

/-!
# Archives of selected paths (`filebrowser/src/fs_util.rs`)

`zip_paths` resolves the paths of a request and writes the files and directories they lead to
into an archive, directories with what is below them. What the crate `zip` accepts is given from
outside; an error it reports for one entry is passed over, and the entry is not in the archive.
-/

namespace ByteHive.FileBrowser

variable {β : Type}

/-! ## Resolving -/

inductive ResolveError where
  | text (message : String)
  /-- An error of `canonicalize`. -/
  | io
deriving DecidableEq, Repr

/-- The joined path, from `/` on. -/
def absOf (root : PathBuf) (names : List String) : PathBuf := root ++ .ofNames names

/-- `abs.exists()` -/
def absExists (t : LinkTree β) (root : PathBuf) (p : BrowserPath) : Bool :=
  match t.lookAt (absOf root p.names) with
  | none => false
  | some (_, content) => !p.slash || content.isNone

/-- `starts_with` of the canonical paths. -/
def checkInside (t : LinkTree β) (rootCanon : List String) (p : PathBuf) :
    Except ResolveError Unit :=
  match t.realPath p with
  | none => .error .io
  | some canon => if rootCanon <+: canon then .ok () else .error (.text "path escapes root")

/-- `resolve` -/
def resolve (t : LinkTree β) (root : PathBuf) (rel : String) : Except ResolveError BrowserPath :=
  match resolvePath rel with
  | .error message => .error (.text message)
  | .ok p =>
    match t.realPath root with
    | none => .error .io
    | some rootCanon =>
      let parent := (absOf root p.names).dropLast
      let checked :=
        if absExists t root p then checkInside t rootCanon (absOf root p.names)
        else if (t.lookAt parent).isSome then checkInside t rootCanon parent
        else .ok ()
      checked.map fun _ => p

/-! ## The archive -/

/-- An entry; a directory has no data. -/
structure ArchiveEntry (β : Type) where
  name : String
  content : Option β
  /-- The real path of what it was made from. -/
  source : List String
deriving DecidableEq, Repr

/-- What the crate `zip` takes. -/
structure ZipCrate (β : Type) where
  /-- A name that no entry has. -/
  accepts : String → Bool
  /-- A name that an entry has. -/
  acceptsTwice : Bool
  /-- The data of a file: without the option for large files less than 4 GiB. -/
  writeAll : β → Bool
  finish : List (ArchiveEntry β) → Bool

/-- `start_file` or `add_directory` -/
def ZipCrate.starts (zip : ZipCrate β) (archive : List (ArchiveEntry β)) (name : String) : Bool :=
  zip.accepts name && (zip.acceptsTwice || decide (name ∉ archive.map (·.name)))

/-- An entry that can be started and written is added. -/
def ZipCrate.add (zip : ZipCrate β) (archive : List (ArchiveEntry β)) (entry : ArchiveEntry β) :
    List (ArchiveEntry β) :=
  if zip.starts archive entry.name && entry.content.all zip.writeAll then archive ++ [entry]
  else archive

/-- `add_directory(format!("{arcname}/"))` -/
def addDirectory (zip : ZipCrate β) (archive : List (ArchiveEntry β)) (real : List String)
    (arcname : String) : List (ArchiveEntry β) :=
  zip.add archive ⟨arcname ++ "/", none, real⟩

section

variable (zip : ZipCrate β) (t : LinkTree β) (ls : t.Listing) (root : PathBuf)

/-- `add_file` -/
def addFile (archive : List (ArchiveEntry β)) (names : List String) (arcname : String) :
    List (ArchiveEntry β) :=
  match t.lookAt (absOf root names) with
  | some (real, some data) => zip.add archive ⟨arcname, some data, real⟩
  | _ => archive

/-- The loop of `add_dir_recursive`; `addDir` is the recursive call. -/
def addEntries
    (addDir : List (ArchiveEntry β) → List String → String → Option (List (ArchiveEntry β)))
    (names : List String) (pre : String) :
    List String → List (ArchiveEntry β) → Option (List (ArchiveEntry β))
  | [], archive => some archive
  | name :: rest, archive =>
    if name = ".bh_filesync" then addEntries addDir names pre rest archive
    else
      let path := names ++ [name]
      let arcname := pre ++ "/" ++ name
      match t.lookAt (absOf root path) with
      | some (real, none) => do
        let archive ← addDir (addDirectory zip archive real arcname) path arcname
        addEntries addDir names pre rest archive
      | _ => addEntries addDir names pre rest (addFile zip t root archive path arcname)

/-- `add_dir_recursive`, with at most `fuel` nested calls. -/
def addDirRecursive : Nat → List (ArchiveEntry β) → List String → String →
    Option (List (ArchiveEntry β))
  | 0, _, _, _ => none
  | fuel + 1, archive, names, pre =>
    match t.lookAt (absOf root names) with
    | some (real, none) =>
      addEntries zip t root (addDirRecursive fuel) names pre (ls.names real) archive
    | _ => some archive

/-! ## Requests -/

inductive ZipError where
  | noPaths
  | tooMany
  | unresolved (e : ResolveError)
  | notFound (rel : String)
  | internalFolder
  | finish
deriving DecidableEq, Repr

/-- The first loop: every path is resolved before anything is read. -/
def resolveAll : List String → Except ZipError (List (BrowserPath × String))
  | [] => .ok []
  | rel :: rels =>
    match resolve t root rel with
    | .error e => .error (.unresolved e)
    | .ok p =>
      if !absExists t root p then .error (.notFound rel)
      else if rel = ".bh_filesync" ∨ ".bh_filesync/".toList <+: rel.toList then
        .error .internalFolder
      else (resolveAll rels).map ((p, rel) :: ·)

/-- `rel.replace('\\', "/")` -/
def slashed (rel : String) : String :=
  String.ofList (rel.toList.map fun c => if c = '\\' then '/' else c)

/-- The second loop. -/
def addSelected (fuel : Nat) :
    List (BrowserPath × String) → List (ArchiveEntry β) → Option (List (ArchiveEntry β))
  | [], archive => some archive
  | (p, rel) :: rest, archive =>
    let arcname := slashed rel
    match t.lookAt (absOf root p.names) with
    | some (real, none) => do
      let archive ← addDirRecursive zip t ls root fuel (addDirectory zip archive real arcname)
        p.names arcname
      addSelected fuel rest archive
    | _ => addSelected fuel rest (addFile zip t root archive p.names arcname)

/-- `zip_paths`; `none` makes more nested calls than `fuel`. -/
def zipPaths (fuel : Nat) (rels : List String) :
    Option (Except ZipError (List (ArchiveEntry β))) :=
  if rels = [] then some (.error .noPaths)
  else if 500 < rels.length then some (.error .tooMany)
  else
    match resolveAll t root rels with
    | .error e => some (.error e)
    | .ok resolved => do
      let archive ← addSelected zip t ls root fuel resolved []
      if zip.finish archive then some (.ok archive) else some (.error .finish)

end

end ByteHive.FileBrowser
