import ByteHive.ForStd.OrdMap
import ByteHive.Native.Protocol

/-!
# The action journal (`action_journal.rs`)

The client's pending user actions, in sequence order, coalesced on append. Two
indexes, by path and by rename target, find the entries a new action supersedes.
`disk` holds the records of the journal file; a torn or unparsable line is not a
record.
-/

namespace ByteHive

inductive JournalOp where
  | upsert
  | delete
  | rename (target : PathBuf)
deriving DecidableEq, Repr

structure JournalEntry where
  seq : Nat
  op : JournalOp
  /-- Path for upsert and delete; source path for rename. -/
  path : PathBuf
  actionMs : Nat
deriving DecidableEq, Repr

/-- One record of the journal file. -/
inductive JournalLine where
  | ack (upto : Nat)
  | entry (seq : Nat) (op : String) (path : PathBuf) (target : Option PathBuf) (actionMs : Nat)
deriving DecidableEq, Repr

/-- `COMPACT_MIN_LINES`. -/
def compactMinLines : Nat := 4096

namespace JournalEntry

/-- The rename target. -/
def target? (e : JournalEntry) : Option PathBuf :=
  match e.op with
  | .rename target => some target
  | _ => none

def toLine (e : JournalEntry) : JournalLine :=
  match e.op with
  | .upsert => .entry e.seq "upsert" e.path none e.actionMs
  | .delete => .entry e.seq "delete" e.path none e.actionMs
  | .rename target => .entry e.seq "rename" e.path (some target) e.actionMs

end JournalEntry

/-- A set of sequence numbers, in increasing order. -/
abbrev SeqSet := OrdMap Nat Unit

/-- Sequence numbers by path. -/
abbrev SeqIndex := OrdMap PathBuf SeqSet

namespace SeqIndex

/-- `under`: what is stored at `pre` or below it. -/
def under (index : SeqIndex) (pre : PathBuf) : List Nat :=
  ((index.rangeFrom pre).takeWhile fun x => decide (pre <+: x.1)).flatMap fun x => x.2.keys

/-- `exact`: what is stored at `path`. -/
def exact (index : SeqIndex) (path : PathBuf) : List Nat :=
  ((index.get path).map OrdMap.keys).getD []

/-- `index.entry(key).or_default().insert(seq)`. -/
def push (index : SeqIndex) (key : PathBuf) (seq : Nat) : SeqIndex :=
  index.insert key (((index.get key).getD .empty).insert seq ())

/-- `drop_index`: a set that gets empty goes away. -/
def dropIndex (index : SeqIndex) (key : PathBuf) (seq : Nat) : SeqIndex :=
  match index.get key with
  | none => index
  | some set =>
    if (set.erase seq).toList = [] then index.erase key else index.insert key (set.erase seq)

end SeqIndex

/-- The in-memory part of the journal. -/
structure JournalState where
  entries : OrdMap Nat JournalEntry
  byPath : SeqIndex
  byTo : SeqIndex
  acked : Nat
  nextSeq : Nat
  linesOnDisk : Nat

namespace JournalState

/-- The state `open` starts from. -/
def init : JournalState := ⟨.empty, .empty, .empty, 0, 1, 0⟩

def insert (st : JournalState) (e : JournalEntry) : JournalState :=
  { st with
    byPath := st.byPath.push e.path e.seq
    byTo := match e.op with
      | .rename target => st.byTo.push target e.seq
      | _ => st.byTo
    nextSeq := max st.nextSeq (e.seq + 1)
    entries := st.entries.insert e.seq e }

def remove (st : JournalState) (seq : Nat) : JournalState :=
  match st.entries.get seq with
  | none => st
  | some e =>
    { st with
      entries := st.entries.erase seq
      byPath := st.byPath.dropIndex e.path seq
      byTo := match e.op with
        | .rename target => st.byTo.dropIndex target seq
        | _ => st.byTo }

def ackLocal (st : JournalState) (upto : Nat) : JournalState :=
  let victims := st.entries.keys.filter (· ≤ upto)
  let st := victims.foldl remove st
  { st with acked := max st.acked upto, nextSeq := max st.nextSeq (upto + 1) }

/-- The seqs stored at exactly `path` whose entry has an operation that `p` selects. -/
def exactWith (st : JournalState) (path : PathBuf) (p : JournalOp → Bool) : List Nat :=
  (st.byPath.exact path).filter fun s => (st.entries.get s).any fun e => p e.op

def isUpsert : JournalOp → Bool
  | .upsert => true
  | _ => false

def isUpsertOrDelete : JournalOp → Bool
  | .upsert => true
  | .delete => true
  | .rename _ => false

/-- What a new delete of `path` does to the older entry `seq` at or below it. -/
def coalesceDelete (path : PathBuf) (st : JournalState) (seq : Nat) : JournalState :=
  match st.entries.get seq with
  | none => st
  | some v =>
    match v.op with
    | .upsert => st.remove seq
    | .delete => st.remove seq
    | .rename target =>
      if path <+: v.path then
        if path <+: target then st.remove seq
        else
          -- Source is deleted, content lives on at the target.
          (st.remove seq).insert ⟨seq, .upsert, target, v.actionMs⟩
      else if path <+: target then
        -- Target is deleted; the source still exists remotely.
        (st.remove seq).insert ⟨seq, .delete, v.path, v.actionMs⟩
      else st

/-- The victims of a delete: a `BTreeSet` of seqs. -/
def deleteVictims (st : JournalState) (path : PathBuf) : List Nat :=
  ((st.byPath.under path ++ st.byTo.under path).foldl (fun s n => s.insert n ())
    (.empty : SeqSet)).keys

/-- `State::apply`: the coalescing rules, shared by append and replay. -/
def apply (st : JournalState) (new : JournalEntry) : JournalState :=
  match new.op with
  | .upsert => ((st.exactWith new.path isUpsertOrDelete).foldl remove st).insert new
  | .delete => ((st.deleteVictims new.path).foldl (coalesceDelete new.path) st).insert new
  | .rename target =>
    let st := (st.exactWith new.path isUpsert).foldl remove st
    let st := (st.exactWith target isUpsertOrDelete).foldl remove st
    st.insert new

/-- `State::apply_line`: also returns whether the record is well formed. -/
def applyLine (st : JournalState) : JournalLine → Bool × JournalState
  | .ack upto => (true, st.ackLocal upto)
  | .entry seq op path target actionMs =>
    match op, target with
    | "upsert", _ => (true, st.apply ⟨seq, .upsert, path, actionMs⟩)
    | "delete", _ => (true, st.apply ⟨seq, .delete, path, actionMs⟩)
    | "rename", some target => (true, st.apply ⟨seq, .rename target, path, actionMs⟩)
    | _, _ => (false, st)

/-- The records of a compacted file. -/
def compactedLines (st : JournalState) : List JournalLine :=
  (if 0 < st.acked then [.ack st.acked] else []) ++ st.entries.values.map (·.toLine)

end JournalState

/-- The journal of one sync root. -/
structure ActionJournal where
  state : JournalState
  /-- The records of the journal file. -/
  disk : List JournalLine

namespace ActionJournal

/-- `write_compacted`. -/
def writeCompacted (h : Host) (j : ActionJournal) : ActionJournal :=
  if h.fails .compactJournal then j
  else
    { state := { j.state with linesOnDisk := j.state.compactedLines.length }
      disk := j.state.compactedLines }

def maybeCompact (h : Host) (j : ActionJournal) : ActionJournal :=
  if compactMinLines ≤ j.state.linesOnDisk then j.writeCompacted h else j

/-- `open` on a file with the given records. -/
def openJournal (h : Host) (disk : List JournalLine) : ActionJournal :=
  let st := disk.foldl (fun st line =>
    let st := (st.applyLine line).2
    { st with linesOnDisk := st.linesOnDisk + 1 }) .init
  let damaged := disk.any fun line => !(JournalState.init.applyLine line).1
  if damaged then writeCompacted h ⟨st, disk⟩ else ⟨st, disk⟩

/-- `snapshot`: the pending entries in sequence order. -/
def snapshot (j : ActionJournal) : List JournalEntry := j.state.entries.values

def isEmpty (j : ActionJournal) : Bool := decide (j.snapshot = [])

def ackedUpto (j : ActionJournal) : Nat := j.state.acked

/-- `append_line`; `none` is an error. -/
def appendLine (h : Host) (j : ActionJournal) (line : JournalLine) (seq : Nat) :
    Option ActionJournal :=
  if h.fails (.appendJournal seq) then none
  else
    some { state := { j.state with linesOnDisk := j.state.linesOnDisk + 1 }
           disk := j.disk ++ [line] }

/-- Appends one entry and applies it. -/
def appendEntry (h : Host) (j : ActionJournal) (op : JournalOp) (path : PathBuf) (actionMs : Nat) :
    Option ActionJournal :=
  let entry : JournalEntry := ⟨j.state.nextSeq, op, path, actionMs⟩
  (j.appendLine h entry.toLine entry.seq).map fun j => { j with state := j.state.apply entry }

/-- `append`; `false` is an error. -/
def append (h : Host) (j : ActionJournal) (op : JournalOp) (path : PathBuf) (actionMs : Nat) :
    Bool × ActionJournal :=
  match j.appendEntry h op path actionMs with
  | none => (false, j)
  | some j => (true, j.maybeCompact h)

def upsert (h : Host) (j : ActionJournal) (path : PathBuf) (actionMs : Nat) :
    Bool × ActionJournal := j.append h .upsert path actionMs

def delete (h : Host) (j : ActionJournal) (path : PathBuf) (actionMs : Nat) :
    Bool × ActionJournal := j.append h .delete path actionMs

/-- `rename`: content at `source` that was not yet sent is recorded again at `target`. -/
def rename (h : Host) (j : ActionJournal) (source target : PathBuf) (actionMs : Nat) :
    Bool × ActionJournal :=
  let hadUpsert := decide (j.state.exactWith source JournalState.isUpsert ≠ [])
  match j.appendEntry h (.rename target) source actionMs with
  | none => (false, j)
  | some j =>
    if hadUpsert then
      match j.appendEntry h .upsert target actionMs with
      | none => (false, j)
      | some j => (true, j.maybeCompact h)
    else (true, j.maybeCompact h)

/-- `ack`; `false` is an error. -/
def ack (h : Host) (j : ActionJournal) (uptoSeq : Nat) : Bool × ActionJournal :=
  if uptoSeq ≤ j.state.acked then (true, { j with state := j.state.ackLocal uptoSeq })
  else
    match j.appendLine h (.ack uptoSeq) uptoSeq with
    | none => (false, j)
    | some j => (true, { j with state := j.state.ackLocal uptoSeq }.maybeCompact h)

end ActionJournal

/-- A call of the journal's interface: one user action. -/
inductive JournalCall where
  | upsert (path : PathBuf) (actionMs : Nat)
  | delete (path : PathBuf) (actionMs : Nat)
  | rename (source target : PathBuf) (actionMs : Nat)

/-- The journal after the call. -/
def JournalCall.record (h : Host) (j : ActionJournal) : JournalCall → ActionJournal
  | .upsert p a => (j.upsert h p a).2
  | .delete p a => (j.delete h p a).2
  | .rename f t a => (j.rename h f t a).2

end ByteHive
