import Mathlib.Algebra.Ring.Nat
import Mathlib.Logic.Function.Basic

/-!
# Rotating log files (`core/src/logging.rs`)

One log is the file `name`, the file that is written to, and the files `name.1`, `name.2` and so
on that it was renamed to. The handle is closed before a rotation and the file opened by its name
after it, so that writing always ends up in `name`. No operation fails here.
-/

namespace ByteHive

/-- The path of the log, and `numbered` of it. -/
inductive LogName where
  | active
  | numbered (n : Nat)
deriving DecidableEq, Repr

/-- The files of one log, with their bytes. -/
abbrev LogDir := LogName → Option (List UInt8)

namespace LogDir

/-- `remove_if_exists` -/
def removeIfExists (dir : LogDir) (name : LogName) : LogDir := Function.update dir name none

/-- `rename_if_exists`; the file that has the new name is replaced. -/
def renameIfExists (dir : LogDir) (src dst : LogName) : LogDir :=
  match dir src with
  | none => dir
  | some content => Function.update (Function.update dir dst (some content)) src none

/-- `open_append`: the file is made when it is not there; its size. -/
def openAppend (dir : LogDir) : LogDir × Nat :=
  let content := (dir .active).getD []
  (Function.update dir .active (some content), content.length)

/-- `write_all` to the file that `openAppend` opened. -/
def append (dir : LogDir) (line : List UInt8) : LogDir :=
  Function.update dir .active (some ((dir .active).getD [] ++ line))

/-- The turns of the loop of `rotate_files` for `i` down to 1. -/
def shiftFiles (dir : LogDir) : Nat → LogDir
  | 0 => dir
  | i + 1 => shiftFiles (dir.renameIfExists (.numbered (i + 1)) (.numbered (i + 2))) i

/-- `rotate_files` -/
def rotateFiles (dir : LogDir) (maxFiles : Nat) : LogDir :=
  if maxFiles = 0 then dir.removeIfExists .active
  else
    let dir := dir.removeIfExists (.numbered maxFiles)
    let dir := dir.shiftFiles (maxFiles - 1)
    dir.renameIfExists .active (.numbered 1)

end LogDir

/-- `MIB` -/
def mib : Nat := 1024 * 1024

/-- `RotatingFile`; of the open file only the tracked size matters. -/
structure RotatingFile where
  maxBytes : Option Nat
  maxFiles : Nat
  state : Option Nat
deriving DecidableEq, Repr

namespace RotatingFile

def new (maxFileMb maxFiles : Nat) : RotatingFile where
  maxBytes := if 0 < maxFileMb then some (min (maxFileMb * mib) (2 ^ 64 - 1)) else none
  maxFiles := maxFiles
  state := none

/-- `must_rotate` -/
def mustRotate (file : RotatingFile) (size need : Nat) : Bool :=
  match file.maxBytes with
  | some max => decide (0 < size) && decide (max < size + need)
  | none => false

/-- The file is opened when it is not open. -/
def opened (file : RotatingFile) (dir : LogDir) : LogDir × Nat :=
  match file.state with
  | some size => (dir, size)
  | none => dir.openAppend

/-- `write_locked` -/
def writeLine (file : RotatingFile) (dir : LogDir) (line : List UInt8) : RotatingFile × LogDir :=
  let (dir, size) := file.opened dir
  let (dir, size) :=
    if file.mustRotate size line.length then (dir.rotateFiles file.maxFiles).openAppend
    else (dir, size)
  ({ file with state := some (size + line.length) }, dir.append line)

end RotatingFile

/-- What happens to a log: a record is written, or a new `RotatingFile` takes over. -/
inductive LogCall where
  | writeLine (line : List UInt8)
  | reopen

def LogCall.run : RotatingFile × LogDir → LogCall → RotatingFile × LogDir
  | (file, dir), .writeLine line => file.writeLine dir line
  | (file, dir), .reopen => ({ file with state := none }, dir)

/-- The records that were written. -/
def writtenLines (calls : List LogCall) : List (List UInt8) :=
  calls.filterMap fun
    | .writeLine line => some line
    | .reopen => none

end ByteHive
