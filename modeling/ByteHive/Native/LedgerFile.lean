import ByteHive.Native.Engine

/-!
# The ledger file and who writes it (`ledger.rs`, `trash.rs`)

The engine keeps the ledger in memory with a dirty flag and saves it whole. The file browser
takes tombstones out of the file with `clear_ledger_covering`: it reads the file, leaves out
what is at or below the prefixes and writes the rest back. Both write `<file>.tmp`, the same
for both, and rename it.

A content that a write leaves half done is not part of this module.
-/

namespace ByteHive

/-- What the ledger file may hold. -/
inductive LedgerText where
  | canonical (ledger : DeletionLedger)
  /-- An object of tombstones by path, none of them `entries` or `alive`. -/
  | bare (entries : FinMap PathBuf Tombstone)
  | corrupt

namespace LedgerText

/-- `DeletionLedger::load`. Both fields have a default and others are ignored, so a bare map is
    already read by the first attempt, as a ledger without entries. -/
def load : Option LedgerText → DeletionLedger
  | some (.canonical ledger) => ledger
  | _ => .new

/-- The tombstones in the file. -/
def entries : Option LedgerText → FinMap PathBuf Tombstone
  | some (.canonical ledger) => ledger.entries
  | some (.bare entries) => entries
  | _ => .empty

end LedgerText

/-- The path is one of the prefixes or below one. -/
def covered (prefixes : List PathBuf) (path : PathBuf) : Bool :=
  prefixes.any fun p => decide (p <+: path)

/-- The read of `clear_ledger_covering`: what it writes back and the tombstones it removes, `none`
    where it returns 0 at once. -/
def clearLedgerCovering (prefixes : List PathBuf) (file : Option LedgerText) :
    Option (LedgerText × FinMap PathBuf Tombstone) :=
  let removed := (LedgerText.entries file).filter fun p _ => covered prefixes p
  if prefixes = [] ∨ removed.keys = ∅ then none
  else
    match file with
    | some (.canonical ledger) =>
      some (.canonical
        { ledger with entries := ledger.entries.filter fun p _ => !covered prefixes p }, removed)
    | some (.bare entries) => some (.bare (entries.filter fun p _ => !covered prefixes p), removed)
    | _ => none

/-- An operation of the engine on its ledger. -/
inductive LedgerOp where
  | record (path : PathBuf) (deletedAtMs : Nat) (deleterNode : String)
      (prevHash : Option String) (prevMtimeMs : Option Nat)
  /-- `merge_ledger`: live records, then tombstones. -/
  | merge (alive : List (PathBuf × Nat)) (remote : FinMap PathBuf Tombstone)
  | recordAlive (path : PathBuf) (actionMs : Nat)
  /-- `clear_tombstones`, also for a restore of the engine's own. -/
  | remove (paths : List PathBuf)
  | prune (nowMs : Nat)

/-- What the operation does under `ledger_mut`, and whether it reports a change. -/
def LedgerOp.apply (l : DeletionLedger) : LedgerOp → Bool × DeletionLedger
  | .record path deletedAtMs deleterNode prevHash prevMtimeMs =>
    (true, l.record path deletedAtMs deleterNode prevHash prevMtimeMs)
  | .merge alive remote => (true, (SyncEngine.recordAll l alive).2.mergeRemote remote)
  | .recordAlive path actionMs => l.recordAlive path actionMs
  | .remove paths => SyncEngine.removeAll l paths
  | .prune nowMs =>
    let pruned := l.prune nowMs deletionLedgerTtlMs
    (decide (pruned.entries.keys ≠ l.entries.keys ∨ pruned.alive.keys ≠ l.alive.keys), pruned)

/-- A call of `clear_ledger_covering` that has read the file. -/
structure LedgerClear where
  read : Option LedgerText
  out : LedgerText
  removed : FinMap PathBuf Tombstone
  wrote : Bool

/-- The ledger in memory, the files, and the calls of `clear_ledger_covering` under way. -/
structure LedgerStore where
  ledger : DeletionLedger
  dirty : Bool
  /-- A save has written the temporary file and holds the ledger's read lock until it has renamed
      it. -/
  saving : Bool
  file : Option LedgerText
  tmp : Option LedgerText
  clears : FinMap Nat LedgerClear
  /-- The tombstones that calls have removed, less those whose path was deleted anew since. -/
  lifted : FinMap PathBuf Tombstone

inductive LedgerEvent where
  | op (op : LedgerOp)
  /-- `flush_ledger`: the flag is swapped, the ledger is written to the temporary file. -/
  | flushWrite
  | flushRename
  /-- A save that fails sets the flag again. -/
  | flushFail
  /-- `clear_ledger_covering`, under a number that tells the call from others. -/
  | clearRead (id : Nat) (prefixes : List PathBuf)
  | clearWrite (id : Nat)
  | clearRename (id : Nat)

namespace LedgerStore

/-- What stays lifted: a new delete of a path ends it, an old one that a peer still knows does
    not. -/
def liftedAfter (lifted : FinMap PathBuf Tombstone) : LedgerOp → FinMap PathBuf Tombstone
  | .record path _ _ _ _ => lifted.erase path
  | .merge _ remote => lifted.filter fun p t =>
      (remote.get p).all fun tomb => decide (tomb.deletedAtMs ≤ t.deletedAtMs)
  | _ => lifted

/-- One step; `none` where the event is not possible. -/
def step (s : LedgerStore) : LedgerEvent → Option LedgerStore
  | .op op =>
    if s.saving = false then
      some { s with
        ledger := (op.apply s.ledger).2
        dirty := s.dirty || (op.apply s.ledger).1
        lifted := liftedAfter s.lifted op }
    else none
  | .flushWrite =>
    if s.saving = true then none
    else if s.dirty = true then
      some { s with dirty := false, saving := true, tmp := some (.canonical s.ledger) }
    else some s
  | .flushRename =>
    if s.saving = true then
      match s.tmp with
      | some text => some { s with saving := false, file := some text, tmp := none }
      | none => some { s with saving := false, dirty := true }
    else none
  | .flushFail => if s.saving = true then some { s with saving := false, dirty := true } else none
  | .clearRead id prefixes =>
    if s.clears.get id = none then
      match clearLedgerCovering prefixes s.file with
      | some (out, removed) =>
        some { s with clears := s.clears.insert id ⟨s.file, out, removed, false⟩ }
      | none => some s
    else none
  | .clearWrite id =>
    match s.clears.get id with
    | some c =>
      if c.wrote = false then
        some { s with tmp := some c.out, clears := s.clears.insert id { c with wrote := true } }
      else none
    | none => none
  | .clearRename id =>
    match s.clears.get id with
    | some c =>
      if c.wrote = true then
        match s.tmp with
        | some text =>
          some { s with
            file := some text
            tmp := none
            clears := s.clears.erase id
            lifted := .ofKeys (c.removed.keys ∪ s.lifted.keys) fun p =>
              (c.removed.get p).or (s.lifted.get p) }
        -- the rename fails, and the call returns 0
        | none => some { s with clears := s.clears.erase id }
      else none
    | none => none

/-- An engine that has loaded the ledger from the file. -/
def start (file : Option LedgerText) : LedgerStore :=
  ⟨LedgerText.load file, false, false, file, none, .empty, .empty⟩

end LedgerStore

end ByteHive
