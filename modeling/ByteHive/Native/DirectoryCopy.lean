import ByteHive.ForStd.FileTree
import ByteHive.Native.BrowserPaths

/-!
# Copying (`filebrowser/src/fs_util.rs`, `filebrowser/src/handlers.rs`)

`copy_dir_all` makes the target directory before it lists the source, and copies what it lists
one entry after the other. The tree has no links, and an operation fails only for what is in it:
there is no limit on the length of a path, the depth of calls or the number of open files. A
copied file is a new one, with the time of the copy.
-/

namespace ByteHive

open FileTree

/-- `read_dir`: the names in a directory, in the order in which the file system has them. -/
structure DirListing (β : Type) where
  names : FileTree String β → List String → List String
  nodup : ∀ t p, (names t p).Nodup
  mem_iff : ∀ t p c, c ∈ names t p ↔ (t.get (p ++ [c])).isSome = true

/-- The order of the names. -/
def DirListing.byName {β : Type} : DirListing β where
  names t p := childNames t.nodes.keys p
  nodup _ _ := childNames_nodup _ _
  mem_iff t _ _ := mem_childNames.trans (t.nodes.mem_keys _)

/-- How a copy ends, with the tree it leaves; `unfinished` is one that makes more nested calls
    than it is given. -/
inductive CopyEnd (β : Type) where
  | done (t : FileTree String β)
  | failed (t : FileTree String β)
  | unfinished

section

variable {β : Type}

/-- `Path::exists` -/
def BrowserPath.existsIn (p : BrowserPath) (t : FileTree String β) : Bool :=
  if p.slash then t.isDir p.names else t.pathExists p.names

/-- `std::fs::copy` -/
def copyFile (now : Nat) (t : FileTree String β) (src dst : List String) : CopyEnd β :=
  match t.read src with
  | none => .failed t
  | some data =>
    match t.write dst data now with
    | none => .failed t
    | some t => .done t

/-- One turn of the loop of `copy_dir_all`; `copyDir` is the recursive call. -/
def copyEntry (copyDir : FileTree String β → List String → List String → CopyEnd β) (now : Nat)
    (src dst : List String) (t : FileTree String β) (c : String) : CopyEnd β :=
  if t.isDir (src ++ [c]) then copyDir t (src ++ [c]) (dst ++ [c])
  else copyFile now t (src ++ [c]) (dst ++ [c])

/-- The loop over the names in `src`. -/
def copyEntries (copyDir : FileTree String β → List String → List String → CopyEnd β) (now : Nat)
    (src dst : List String) : List String → FileTree String β → CopyEnd β
  | [], t => .done t
  | c :: cs, t =>
    match copyEntry copyDir now src dst t c with
    | .done t => copyEntries copyDir now src dst cs t
    | stopped => stopped

/-- `copy_dir_all`, with at most `fuel` nested calls. -/
def copyDirAll (ls : DirListing β) (now : Nat) :
    Nat → FileTree String β → List String → List String → CopyEnd β
  | 0, _, _, _ => .unfinished
  | fuel + 1, t, src, dst =>
    match t.createDirAll now dst with
    | none => .failed t
    | some t =>
      if t.isDir src then
        copyEntries (copyDirAll ls now fuel) now src dst (ls.names t src) t
      else .failed t

/-- The answers of `handle_copy`. -/
inductive CopyReply where
  | badRequest (text : String)
  | notFound (text : String)
  | internalError
  | copied (src dst : String)
deriving DecidableEq, Repr

/-- `handle_copy` with the fields of the request; `none` is a copy that is unfinished. -/
def handleCopy (ls : DirListing β) (now fuel : Nat) (t : FileTree String β)
    (src dst : Option String) : Option (CopyReply × FileTree String β) :=
  match src, dst with
  | none, _ => some (.badRequest "from required", t)
  | some _, none => some (.badRequest "to required", t)
  | some src, some dst =>
    match resolvePath src, resolvePath dst with
    | .error e, _ => some (.badRequest e, t)
    | .ok _, .error e => some (.badRequest e, t)
    | .ok absFrom, .ok absTo =>
      if !absFrom.existsIn t then some (.notFound (src ++ " not found"), t)
      else if absTo.existsIn t then
        some (.badRequest ("destination " ++ dst ++ " already exists"), t)
      else
        let result :=
          if t.isDir absFrom.names then copyDirAll ls now fuel t absFrom.names absTo.names
          else if absTo.slash then .failed t
          else copyFile now t absFrom.names absTo.names
        match result with
        | .done t => some (.copied src dst, t)
        | .failed t => some (.internalError, t)
        | .unfinished => none

end

end ByteHive
