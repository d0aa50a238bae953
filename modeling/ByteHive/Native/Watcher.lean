import ByteHive.ForStd.FinMap
import ByteHive.Native.Common
import Mathlib.Data.Finset.Sort

/-!
# The file watcher (`watcher.rs`)

The watcher watches every directory below the root and turns inotify events into
`FsEvent`s. Its map from watch descriptors to paths is its own bookkeeping: the kernel
knows inodes only.

Paths are relative to the root, which is the empty path. The kernel side is modelled as
far as the watcher depends on it: a watch belongs to a directory's inode, adding a watch
for a watched inode gives its descriptor, removing a watch or a directory queues a last
event, and events queue up while the disk changes. `WatchStep` interleaves what users do
below the root with the watcher taking one event after the other.
-/

namespace ByteHive

structure Inode where
  num : Nat
  isDir : Bool
deriving DecidableEq, Repr

/-- The entries of the root, itself included. -/
abbrev Disk := FinMap PathBuf Inode

namespace Disk

def isDir (d : Disk) (p : PathBuf) : Bool := (d.get p).any Inode.isDir

/-- No entry has the inode number. -/
def unused (d : Disk) (num : Nat) : Bool :=
  decide (∀ p ∈ d.keys, (d.get p).map Inode.num ≠ some num)

/-- A new entry can be made at `p`. -/
def vacant (d : Disk) (p : PathBuf) : Bool :=
  decide (p ≠ []) && d.isDir p.dropLast && (d.get p).isNone

/-- Nothing lies below `p`. -/
def nothingBelow (d : Disk) (p : PathBuf) : Bool := decide (∀ q ∈ d.keys, p <+: q → q = p)

/-- The directories at and below `p`. -/
def dirsBelow (d : Disk) (p : PathBuf) : Finset PathBuf :=
  d.keys.filter fun q => p <+: q ∧ d.isDir q = true

/-- The entries once the directory at `f` and all below it have moved to `g`. -/
def move (d : Disk) (f g : PathBuf) : Disk :=
  .ofKeys (d.keys ∪ d.keys.image fun q => g ++ q.drop f.length) fun q =>
    if g <+: q then d.get (f ++ q.drop g.length)
    else if f <+: q then none
    else d.get q

/-- The entries with those of `sub` at and below `p`. -/
def graft (d : Disk) (p : PathBuf) (sub : Disk) : Disk :=
  .ofKeys (d.keys ∪ sub.keys.image (p ++ ·)) fun q =>
    if p <+: q then sub.get (q.drop p.length) else d.get q

end Disk

/-! ## inotify -/

inductive EventMask where
  | create
  | closeWrite
  | delete
  | deleteSelf
  | moveSelf
  | movedFrom
  | movedTo
  | ignored
deriving DecidableEq, Repr

structure InotifyEvent where
  wd : Nat
  mask : EventMask
  isDir : Bool
  cookie : Nat
  name : Option Component
deriving DecidableEq, Repr

structure Inotify where
  /-- The descriptor of each watched inode. -/
  watches : FinMap Nat Nat
  nextWd : Nat
  queue : List InotifyEvent

namespace Inotify

/-- `inotify_add_watch`. -/
def add (k : Inotify) (num : Nat) : Nat × Inotify :=
  match k.watches.get num with
  | some wd => (wd, k)
  | none =>
    (k.nextWd, { k with watches := k.watches.insert num k.nextWd, nextWd := k.nextWd + 1 })

def ignoredEvent (wd : Nat) : InotifyEvent := ⟨wd, .ignored, false, 0, none⟩

/-- `inotify_rm_watch`; an unknown descriptor is an error that nobody looks at. -/
def remove (k : Inotify) (wd : Nat) : Inotify :=
  if ∃ num ∈ k.watches.keys, k.watches.get num = some wd then
    { k with
      watches := k.watches.filter fun _ w => !decide (w = wd)
      queue := k.queue ++ [ignoredEvent wd] }
  else k

/-- The event that a watched inode itself gets. -/
def selfEvent (k : Inotify) (num : Nat) (mask : EventMask) : List InotifyEvent :=
  match k.watches.get num with
  | some wd => [⟨wd, mask, false, 0, none⟩]
  | none => []

/-- The event that the directory above `p` gets about it. -/
def entryEvent (k : Inotify) (d : Disk) (p : PathBuf) (mask : EventMask) (isDir : Bool)
    (cookie : Nat) : List InotifyEvent :=
  match (d.get p.dropLast).bind fun n => k.watches.get n.num with
  | some wd => [⟨wd, mask, isDir, cookie, p.getLast?⟩]
  | none => []

/-- The last events of the directory at `p`. -/
def goneEvents (k : Inotify) (d : Disk) (p : PathBuf) : List InotifyEvent :=
  match (d.get p).bind fun n => k.watches.get n.num with
  | some wd => [⟨wd, .deleteSelf, false, 0, none⟩, ignoredEvent wd]
  | none => []

/-- The watch of the directory at `p` is gone with it. -/
def forget (k : Inotify) (d : Disk) (p : PathBuf) : Inotify :=
  match d.get p with
  | some n => { k with watches := k.watches.erase n.num }
  | none => k

end Inotify

/-! ## The watcher's loop -/

/-- The root with its watcher: the entries and the kernel's side, the watcher's maps and
    what it has sent. -/
structure WatchedRoot where
  disk : Disk
  inotify : Inotify
  wdMap : FinMap Nat PathBuf
  pendingMoves : FinMap Nat PathBuf
  sent : List FsEvent
  nextCookie : Nat

def remapPathForRename (path source target : PathBuf) : Option PathBuf :=
  if path = source then some target
  else if source <+: path then some (target ++ path.drop source.length)
  else none

def rewriteWdMapForRename (wdMap : FinMap Nat PathBuf) (source target : PathBuf) :
    FinMap Nat PathBuf :=
  wdMap.map fun _ path => (remapPathForRename path source target).getD path

namespace WatchedRoot

/-- Watches the directory at `p`. -/
def watchDir (s : WatchedRoot) (p : PathBuf) : WatchedRoot :=
  match s.disk.get p with
  | some n =>
    let added := s.inotify.add n.num
    { s with inotify := added.2, wdMap := s.wdMap.insert added.1 p }
  | none => s

/-- `add_watch_recursive`, in the order in which the directories are listed. -/
def addWatchRecursive (order : HashOrder) (s : WatchedRoot) (path : PathBuf) : WatchedRoot :=
  (order.toList (s.disk.dirsBelow path)).foldl watchDir s

/-- Takes the watch `wd` away, in the map and in the kernel. -/
def dropWatch (s : WatchedRoot) (wd : Nat) : WatchedRoot :=
  { s with wdMap := s.wdMap.erase wd, inotify := s.inotify.remove wd }

/-- Takes the watches away that are mapped to `path`. -/
def dropStale (s : WatchedRoot) (path : PathBuf) : WatchedRoot :=
  ((s.wdMap.keys.filter fun wd => s.wdMap.get wd = some path).sort (· ≤ ·)).foldl dropWatch s

/-- The events about an entry; `rel` is its path by the map. -/
def handleNamed (order : HashOrder) (s : WatchedRoot) (ev : InotifyEvent) (rel : PathBuf) :
    WatchedRoot :=
  match ev.mask with
  | .movedFrom => { s with pendingMoves := s.pendingMoves.insert ev.cookie rel }
  | .movedTo =>
    match s.pendingMoves.get ev.cookie with
    | some fromRel =>
      let s := { s with
        pendingMoves := s.pendingMoves.erase ev.cookie
        wdMap := rewriteWdMapForRename s.wdMap fromRel rel }
      let s := if (s.disk.get fromRel).isNone then s.dropStale fromRel else s
      let s := if ev.isDir then s.addWatchRecursive order rel else s
      { s with sent := s.sent ++ [.renamed fromRel rel] }
    | none =>
      let s := if ev.isDir then s.addWatchRecursive order rel else s
      { s with sent := s.sent ++ [.writeComplete rel] }
  | .delete => { s with sent := s.sent ++ [.deleted rel] }
  | .create =>
    if ev.isDir then
      let s := s.addWatchRecursive order rel
      { s with sent := s.sent ++ [.changed rel] }
    else s
  | .closeWrite => { s with sent := s.sent ++ [.writeComplete rel] }
  | _ => s

/-- One round of the loop over the events. -/
def handleEvent (order : HashOrder) (s : WatchedRoot) (ev : InotifyEvent) : WatchedRoot :=
  match ev.mask with
  | .ignored => { s with wdMap := s.wdMap.erase ev.wd }
  | .moveSelf | .deleteSelf =>
    match s.wdMap.get ev.wd with
    | some _ => s.dropWatch ev.wd
    | none => s
  | _ =>
    match ev.name, s.wdMap.get ev.wd with
    | some name, some dir => s.handleNamed order ev (dir ++ [name])
    | _, _ => s

/-- `start_watcher`: all directories are watched before the first event is read. -/
def start (order : HashOrder) (disk : Disk) : WatchedRoot :=
  addWatchRecursive order ⟨disk, ⟨.empty, 1, []⟩, .empty, .empty, [], 1⟩ []

end WatchedRoot

/-! ## What users do below the root -/

inductive DiskOp where
  | mkdir (p : PathBuf) (num : Nat)
  /-- A new file is created, written and closed. -/
  | writeFile (p : PathBuf) (num : Nat)
  /-- An entry with all below it is moved to `p` from outside the root. -/
  | moveIn (p : PathBuf) (sub : Disk)
  | rmdir (p : PathBuf) (events : List InotifyEvent)
  | renameDir (source target : PathBuf) (events : List InotifyEvent)

namespace WatchedRoot

/-- The events of a removal. -/
def rmdirEvents (s : WatchedRoot) (p : PathBuf) : List InotifyEvent :=
  s.inotify.entryEvent s.disk p .delete true 0 ++ s.inotify.goneEvents s.disk p

/-- The events of a rename: of both parents, of the directory itself, and of an empty
    directory in its way. -/
def renameEvents (s : WatchedRoot) (source target : PathBuf) : List InotifyEvent :=
  s.inotify.entryEvent s.disk source .movedFrom true s.nextCookie ++
    s.inotify.entryEvent s.disk target .movedTo true s.nextCookie ++
    ((s.disk.get source).map fun n => s.inotify.selfEvent n.num .moveSelf).getD [] ++
    s.inotify.goneEvents s.disk target

/-- The queue gets the events. -/
def notify (s : WatchedRoot) (events : List InotifyEvent) : WatchedRoot :=
  { s with inotify := { s.inotify with queue := s.inotify.queue ++ events } }

/-- An operation and the events that it causes, in whatever order they arrive; `none` when
    the operation is not possible. -/
def userOp (s : WatchedRoot) : DiskOp → Option WatchedRoot
  | .mkdir p num =>
    if s.disk.vacant p && s.disk.unused num then
      some ({ s with disk := s.disk.insert p ⟨num, true⟩ }.notify
        (s.inotify.entryEvent s.disk p .create true 0))
    else none
  | .writeFile p num =>
    if s.disk.vacant p && s.disk.unused num then
      some ({ s with disk := s.disk.insert p ⟨num, false⟩ }.notify
        (s.inotify.entryEvent s.disk p .create false 0 ++
          s.inotify.entryEvent s.disk p .closeWrite false 0))
    else none
  | .moveIn p sub =>
    if s.disk.vacant p && s.disk.nothingBelow p && (sub.get []).isSome &&
        (sub.isDir [] || sub.nothingBelow []) &&
        decide (∀ q ∈ sub.keys, ((sub.get q).any fun n => s.disk.unused n.num) = true) &&
        decide (∀ q ∈ sub.keys, ∀ r ∈ sub.keys,
          (sub.get q).map Inode.num = (sub.get r).map Inode.num → q = r) then
      some ({ s with disk := s.disk.graft p sub, nextCookie := s.nextCookie + 1 }.notify
        (s.inotify.entryEvent s.disk p .movedTo (sub.isDir []) s.nextCookie))
    else none
  | .rmdir p events =>
    if decide (p ≠ []) && s.disk.isDir p && s.disk.nothingBelow p &&
        decide (events.Perm (s.rmdirEvents p)) then
      some ({ s with
        disk := s.disk.erase p
        inotify := s.inotify.forget s.disk p }.notify events)
    else none
  | .renameDir source target events =>
    if decide (source ≠ []) && s.disk.isDir source && decide (¬ source <+: target) &&
        decide (target ≠ []) && s.disk.isDir target.dropLast &&
        ((s.disk.get target).isNone || s.disk.isDir target) && s.disk.nothingBelow target &&
        decide (events.Perm (s.renameEvents source target)) then
      some ({ s with
        disk := s.disk.move source target
        inotify := s.inotify.forget s.disk target
        nextCookie := s.nextCookie + 1 }.notify events)
    else none

end WatchedRoot

inductive WatchStep where
  | user (op : DiskOp)
  /-- The watcher takes the next event; `order` is the order in which directories are listed. -/
  | handle (order : HashOrder)
  /-- A move that has waited too long for its second half becomes a deletion. -/
  | expire (cookie : Nat)

namespace WatchedRoot

def step (s : WatchedRoot) : WatchStep → Option WatchedRoot
  | .user op => s.userOp op
  | .handle order =>
    match s.inotify.queue with
    | [] => none
    | ev :: rest =>
      some ({ s with inotify := { s.inotify with queue := rest } }.handleEvent order ev)
  | .expire cookie =>
    (s.pendingMoves.get cookie).map fun rel => { s with
      pendingMoves := s.pendingMoves.erase cookie
      sent := s.sent ++ [.deleted rel] }

end WatchedRoot

end ByteHive
