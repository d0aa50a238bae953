import ByteHive.Native.ZipPaths

/-!
# What requests touch (`filebrowser/src/handlers.rs`)

Where reading, writing and making directories end up when there are symbolic links on the way. The
paths are those that `resolve` has let through, joined to the root. The target of a link does not
end in a slash, and a request may do everything on the disk.
-/

namespace ByteHive

namespace LinkTree

variable {β : Type} (t : LinkTree β)

/-- One way along a path whose last name may be missing; `follow` goes on after a link. -/
def placeFrom (follow : List String → PathBuf → Option (List String)) :
    List String → PathBuf → Option (List String)
  | real, [] => some real
  | _, .rootDir :: rest => placeFrom follow [] rest
  | real, .curDir :: rest => if t.isDirAt real then placeFrom follow real rest else none
  | real, .parentDir :: rest =>
    if t.isDirAt real then placeFrom follow real.dropLast rest else none
  | real, .normal name :: rest =>
    if t.isDirAt real then
      match t.nodes.get (real ++ [name]) with
      | none => if rest = [] then some (real ++ [name]) else none
      | some (.link target) => follow real (target ++ rest)
      | some _ => placeFrom follow (real ++ [name]) rest
    else none

/-- The place that a path leads to over at most this number of links, whether something is there
    or not. -/
def place : Nat → List String → PathBuf → Option (List String)
  | 0 => t.placeFrom fun _ _ => none
  | links + 1 => t.placeFrom (place links)

/-- The file that `fs::write` opens or makes. A link at the end is followed, also one that leads to
    nothing yet. -/
def openedFile (p : PathBuf) : Option (List String) :=
  (t.place maxLinks [] p).filter fun real => !t.isDirAt real

/-- `is_dir`, with the real path. -/
def dirAt (p : PathBuf) : Option (List String) :=
  match t.lookAt p with
  | some (real, none) => some real
  | _ => none

end LinkTree

namespace FileBrowser

variable {β : Type} (t : LinkTree β) (root : PathBuf)

/-- `create_dir_all`: the real path of the directory, if it is there in the end, and the directories
    that were made. The names of the path come last one first. -/
def createDirAll : List String → Option (List String) × List (List String)
  | [] => (t.dirAt root, [])
  | name :: parent =>
    match t.dirAt (absOf root (name :: parent).reverse) with
    | some real => (some real, [])
    | none =>
      match createDirAll parent with
      | (none, made) => (none, made)
      | (some dir, made) =>
        -- `mkdir` does not follow a link
        if (t.nodes.get (dir ++ [name])).isSome then (none, made)
        else (some (dir ++ [name]), made ++ [dir ++ [name]])

/-- The last part of the text is a `.`; slashes behind it do not count. -/
def endsInDot (rel : String) : Bool :=
  (((trimRel rel).toList.splitOn '/').filter (· ≠ [])).getLast? = some ['.']

/-- `create_dir_all` for the path of a request. `mkdir` does not make `a/.`, but what comes before
    `a` has been made by then. -/
def makeDirs (rel : String) (p : BrowserPath) : Option (List String) × List (List String) :=
  if endsInDot rel then (none, (createDirAll t root p.names.dropLast.reverse).2)
  else createDirAll t root p.names.reverse

/-- What a handler does with a resolved path. -/
inductive PathUse where
  /-- `fs::read`, `read_dir` -/
  | read
  /-- `fs::write` -/
  | write
  | createDirAll
  /-- `fs::write` to a file in the directory, which is made when it is not there. -/
  | writeInto (name : String)

/-- The real paths of what is opened or made. -/
def touched (rel : String) (p : BrowserPath) : PathUse → List (List String)
  | .read => if absExists t root p then (t.realPath (absOf root p.names)).toList else []
  | .write => if p.slash then [] else (t.openedFile (absOf root p.names)).toList
  | .createDirAll => (makeDirs t root rel p).2
  | .writeInto name =>
    match t.dirAt (absOf root p.names) with
    | some _ => (t.openedFile (absOf root (p.names ++ [name]))).toList
    | none =>
      let (dir, made) := makeDirs t root rel p
      made ++ (dir.map (· ++ [name])).toList

end FileBrowser

end ByteHive
