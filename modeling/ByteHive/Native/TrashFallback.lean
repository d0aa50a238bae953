import ByteHive.ForStd.TreeFrame
import ByteHive.Native.DirectoryCopy
import ByteHive.Native.Trash

/-!
# Moving to the trash in one call (`core/src/trash.rs`)

`move_to_trash` with all that it falls back to: where renaming fails it copies, and where this fails
too it deletes for good. The tree is the root, without links, and the root itself can be deleted.
Operations fail only for what is in the tree, but a copy also where its paths get too long, which is
after `limit` nested calls.
-/

namespace ByteHive

open FileTree

/-- Files with their bytes, by the names on the way from the root. -/
abbrev RootTree := FileTree String Content

/-- The time in ms when something is done, and what `trash_id` reads then: the time in ns and its
    counter. -/
structure TrashTick where
  now : Nat
  ns : Nat
  seq : Nat
deriving DecidableEq, Repr

def TrashTick.id (tick : TrashTick) : String := trashId tick.ns tick.seq

/-- `serde_json` on an index. -/
structure IndexCodec where
  parse : Content → Option (List TrashEntry)
  print : List TrashEntry → Content

/-- What a file browser runs on. -/
structure BrowserHost where
  codec : IndexCodec
  listing : DirListing Content
  /-- The nested calls of `copy_dir_all` until a path is too long. -/
  limit : Nat

namespace RootTree

def trashDir : List String := [".bh_filesync", "trash"]

def indexFile : List String := trashDir ++ ["index.json"]

def indexTmp : List String := trashDir ++ ["index.json.tmp"]

def entryDir (id : String) : List String := trashDir ++ [id]

/-- `load_index` -/
def loadIndex (codec : IndexCodec) (t : RootTree) : List TrashEntry :=
  ((t.read indexFile).bind codec.parse).getD []

/-- `save_index` -/
def saveIndex (codec : IndexCodec) (now : Nat) (t : RootTree) (index : List TrashEntry) :
    RootTree :=
  match t.createDirAll now trashDir with
  | none => t
  | some t =>
    match t.write indexTmp (codec.print index) now with
    | none => t
    | some t =>
      match t.rename indexTmp indexFile with
      | none => t.removeTree indexTmp
      | some t => t

/-- `remove_dir_all`; `none` is without the root. A directory whose path ends in `.` is emptied, but
    `rmdir` refuses to remove it. -/
def removeDirAll (t : RootTree) (names : List String) (dot : Bool) : Option RootTree :=
  if dot then some (t.removeBelow names)
  else if names = [] then none
  else some (t.removeTree names)

/-- `hard_delete` -/
def hardDelete (t : RootTree) (names : List String) (dot : Bool) : Option RootTree :=
  if t.isDir names then removeDirAll t names dot else some (t.removeTree names)

/-- The middle of `move_to_trash`: what is there when the data has been moved, or the tree when it
    could not be. The kernel does not rename a path that ends in `.`. -/
def moveOrCopy (host : BrowserHost) (now : Nat) (t : RootTree) (names : List String) (dot : Bool)
    (dest : List String) : Except RootTree (Option RootTree) :=
  match if dot then none else t.rename names dest with
  | some t => .ok (some t)
  | none =>
    if t.isDir names then
      match copyDirAll host.listing now host.limit t names dest with
      | .done t => .ok (removeDirAll t names dot)
      | .failed t => .error t
      -- What has been copied is in the directory of the entry, which is removed next.
      | .unfinished => .error t
    else
      match copyFile now t names dest with
      | .done t => .ok (some (t.removeTree names))
      | .failed t => .error t
      | .unfinished => .error t

/-- `move_to_trash` -/
def moveToTrash (host : BrowserHost) (tick : TrashTick) (t : RootTree) (p : BrowserPath)
    (dot : Bool) (deletedBy : String) : Option RootTree :=
  if !p.existsIn t then some t
  else
    let dest := entryDir tick.id ++ p.names
    match t.createDirAll tick.now dest.dropLast with
    | none => hardDelete t p.names dot
    | some t =>
      let entry : TrashEntry := ⟨tick.id, .ofNames p.names,
        .normal tick.id :: PathBuf.ofNames p.names, tick.now, t.isDir p.names, deletedBy⟩
      match moveOrCopy host tick.now t p.names dot dest with
      | .error t =>
        -- `remove_dir_all` of the directory of the entry
        (hardDelete t p.names dot).map fun t =>
          if t.isDir (entryDir tick.id) then t.removeTree (entryDir tick.id) else t
      | .ok disk =>
        -- `create_dir_all` makes the root again when it is gone.
        let t := disk.getD .empty
        some (saveIndex host.codec tick.now t (loadIndex host.codec t ++ [entry]))

end RootTree

end ByteHive
