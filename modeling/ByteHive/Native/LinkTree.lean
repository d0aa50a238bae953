import ByteHive.ForStd.FileTree
import ByteHive.Native.PathText

/-!
# Trees with symbolic links

The entries of a disk by their real paths, and how the kernel follows a path: a link on the way is
replaced by its target, at most forty times. Names are UTF-8, and everything may be read.
-/

namespace ByteHive

inductive LinkNode (β : Type) where
  | dir
  | file (data : β)
  | link (target : PathBuf)

/-- A tree from `/` on; the parent of an entry is a directory. -/
structure LinkTree (β : Type) where
  nodes : FinMap (List String) (LinkNode β)
  closed : ∀ p n, nodes.get p = some n →
    p ≠ [] ∧ (p.dropLast = [] ∨ nodes.get p.dropLast = some .dir)
  plain : ∀ p n, nodes.get p = some n → ∀ name ∈ p, PlainName name

namespace LinkTree

variable {β : Type} (t : LinkTree β)

/-- The directory with this real path. -/
def isDirAt (real : List String) : Bool :=
  match real, t.nodes.get real with
  | [], _ => true
  | _, some .dir => true
  | _, _ => false

/-- One way along a path without a link; `follow` goes on after one. -/
def walkFrom (follow : List String → PathBuf → Option (List String)) :
    List String → PathBuf → Option (List String)
  | real, [] => some real
  | _, .rootDir :: rest => walkFrom follow [] rest
  | real, .curDir :: rest => if t.isDirAt real then walkFrom follow real rest else none
  | real, .parentDir :: rest =>
    if t.isDirAt real then walkFrom follow real.dropLast rest else none
  | real, .normal name :: rest =>
    if t.isDirAt real then
      match t.nodes.get (real ++ [name]) with
      | none => none
      | some (.link target) => follow real (target ++ rest)
      | some _ => walkFrom follow (real ++ [name]) rest
    else none

/-- The real path that a path leads to over at most this number of links. -/
def walk : Nat → List String → PathBuf → Option (List String)
  | 0 => t.walkFrom fun _ _ => none
  | links + 1 => t.walkFrom (walk links)

/-- `MAXSYMLINKS` of the kernel. -/
def maxLinks : Nat := 40

/-- `canonicalize` -/
def realPath (p : PathBuf) : Option (List String) := t.walk maxLinks [] p

/-- What a path leads to: its real path, and the data of a file. -/
def lookAt (p : PathBuf) : Option (List String × Option β) :=
  match t.realPath p with
  | none => none
  | some real =>
    if t.isDirAt real then some (real, none)
    else
      match t.nodes.get real with
      | some (.file data) => some (real, some data)
      | _ => none

/-- `read_dir`: the names in a directory, in some order. -/
structure Listing where
  names : List String → List String
  mem_iff : ∀ real name, name ∈ names real ↔ (t.nodes.get (real ++ [name])).isSome = true

/-- The order of the names. -/
def Listing.byName (t : LinkTree β) : t.Listing where
  names real := FileTree.childNames t.nodes.keys real
  mem_iff _ _ := FileTree.mem_childNames.trans (t.nodes.mem_keys _)

end LinkTree

end ByteHive
