import Mathlib.Algebra.Order.Ring.Int
import Mathlib.Data.List.Sort

/-!
# Cleaning up the logs directory (`core/src/logging.rs`)

`cleanup` deletes rotated log files that are too old, and then, while the files take up too much
room, the oldest of those that are left. Whether a deletion succeeds is given from outside. Sizes
are those of files on one disk, whose sum a `u64` holds.
-/

namespace ByteHive

/-! ## Times -/

/-- The least `SystemTime`, in nanoseconds. -/
def minSystemTime : Int := -2 ^ 63 * 10 ^ 9

structure SystemTime where
  ns : Int
  min_le : minSystemTime ≤ ns
deriving DecidableEq

/-- `SystemTime::checked_sub` -/
def SystemTime.checkedSub (t : SystemTime) (d : Nat) : Option SystemTime :=
  if h : minSystemTime ≤ t.ns - d then some ⟨t.ns - d, h⟩ else none

/-! ## Names -/

/-- `rsplit_once('.')` -/
def rsplitDot (name : List Char) : Option (List Char × List Char) :=
  if '.' ∈ name then
    some ((name.reverse.dropWhile (· ≠ '.')).tail.reverse, (name.reverse.takeWhile (· ≠ '.')).reverse)
  else none

/-- `parse_rotated_name`: `server.log.3` is 3, `server.log` is none. -/
def parseRotatedName (name : List Char) : Option Nat :=
  match rsplitDot name with
  | none => none
  | some (base, num) =>
    if num = [] ∨ ¬num.all Char.isDigit then none
    else if ¬(".log".toList <:+ base ∨ ".jsonl".toList <:+ base) then none
    else
      -- `parse::<u32>`
      let n := num.foldl (fun n c => n * 10 + (c.toNat - 48)) 0
      if n < 2 ^ 32 then some n else none

/-! ## Files -/

/-- What is found in a directory. -/
inductive LogNode where
  | dir (children : List (String × LogNode))
  /-- The modification time, where the file system has it. -/
  | file (size : Nat) (modified : Option SystemTime)
  /-- Neither, or nothing is known about it. -/
  | other

/-- `Entry` -/
structure LogEntry where
  path : List String
  size : Nat
  mtime : SystemTime
  rotated : Option Nat
deriving DecidableEq

/-- `CLEANUP_MAX_DEPTH` -/
def cleanupMaxDepth : Nat := 3

mutual

/-- `collect` -/
def collect (dir : List String) (depth : Nat) (now : SystemTime) :
    List (String × LogNode) → List LogEntry
  | [] => []
  | (name, node) :: children =>
    collectNode (dir ++ [name]) name depth now node ++ collect dir depth now children

/-- One turn of its loop. -/
def collectNode (path : List String) (name : String) (depth : Nat) (now : SystemTime) :
    LogNode → List LogEntry
  | .dir children => if depth < cleanupMaxDepth then collect path (depth + 1) now children else []
  | .file size modified => [⟨path, size, modified.getD now, parseRotatedName name.toList⟩]
  | .other => []

end

/-! ## Cleaning up -/

/-- The limits, where there are any: a duration in nanoseconds and a number of bytes. -/
structure RetentionPolicy where
  retention : Option Nat
  maxTotalBytes : Option Nat
deriving DecidableEq, Repr

structure CleanupReport where
  deletedExpired : Nat
  deletedForSize : Nat
  bytesFreed : Nat
  totalBytesAfter : Nat
  overCapWithActive : Bool
deriving DecidableEq, Repr

/-- The pass in which a file is deleted. -/
inductive CleanupPass where
  | expired
  | size
deriving DecidableEq, Repr

/-- The deletions that succeed. -/
abbrev Removes := CleanupPass → List String → Bool

def totalSize (entries : List LogEntry) : Nat := (entries.map (·.size)).sum

/-- Older than the cut-off, and its deletion succeeds. -/
def expiredGoes (removes : Removes) (cutoff : Option SystemTime) (e : LogEntry) : Bool :=
  match cutoff with
  | none => false
  | some cutoff => e.rotated.isSome && decide (e.mtime.ns < cutoff.ns) && removes .expired e.path

/-- The order of `sort_by`: the modification time, then the highest number. -/
def oldestFirst (a b : LogEntry) : Prop :=
  a.mtime.ns < b.mtime.ns ∨ a.mtime.ns = b.mtime.ns ∧ b.rotated.getD 0 ≤ a.rotated.getD 0

instance : DecidableRel oldestFirst := fun _ _ => inferInstanceAs (Decidable (_ ∨ _))

/-- The rotated files in that order; files that are equal in it stay as they were found. -/
def candidates (entries : List LogEntry) : List LogEntry :=
  (entries.filter fun e => e.rotated.isSome).insertionSort oldestFirst

/-- The files that are chosen for their size, and the total that is counted on. -/
def chooseDoomed (cap : Nat) : Nat → List LogEntry → List LogEntry × Nat
  | total, [] => ([], total)
  | total, c :: cs =>
    if total ≤ cap then ([], total)
    else
      let (doomed, total) := chooseDoomed cap (total - c.size) cs
      (c :: doomed, total)

/-- `cleanup`: the report, and the files that were deleted in each of the passes. -/
def cleanup (removes : Removes) (policy : RetentionPolicy) (now : SystemTime)
    (entries : List LogEntry) : CleanupReport × List LogEntry × List LogEntry :=
  let cutoff := policy.retention.bind now.checkedSub
  let expired := entries.filter (expiredGoes removes cutoff)
  let kept := entries.filter fun e => !expiredGoes removes cutoff e
  let total := totalSize kept
  match policy.maxTotalBytes with
  | some cap =>
    if total > cap then
      let (doomed, total) := chooseDoomed cap total (candidates kept)
      let removed := doomed.filter fun e => removes .size e.path
      (⟨expired.length, removed.length, totalSize expired + totalSize removed, total,
        decide (total > cap)⟩, expired, removed)
    else (⟨expired.length, 0, totalSize expired, total, false⟩, expired, [])
  | none => (⟨expired.length, 0, totalSize expired, total, false⟩, expired, [])

end ByteHive
