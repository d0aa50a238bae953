import ByteHive.Native.Journal

/-!
# The journal file as bytes (`action_journal.rs`)

`append_line` can fail after it has written any part of its line. This module follows the
bytes of the file through such failures and through `open`, which reads the file as UTF-8
text and skips what is no record.

The JSON text of a record is left to a `LineCodec`.
-/

namespace ByteHive

/-- What `serde_json` makes of a record. -/
structure LineCodec where
  /-- `to_string`; `none` is an error. -/
  toText : JournalLine → Option (List Char)
  /-- `from_str`; `none` is an error. -/
  fromText : List Char → Option JournalLine

/-- The bytes of a text. -/
def encodeText (text : List Char) : List UInt8 := text.flatMap String.utf8EncodeChar

/-- The bytes of one line of the file. -/
def lineBytes (text : List Char) : List UInt8 := encodeText (text ++ ['\n'])

/-- `read_to_string`; `none` is a file that is no UTF-8 text. -/
def decodeText (bytes : List UInt8) : Option (List Char) :=
  bytes.toByteArray.utf8Decode?.map (·.toList)

/-- `char::is_whitespace`: the property `White_Space`. -/
def isWhiteSpace (c : Char) : Bool :=
  let n := c.toNat
  (decide (9 ≤ n) && decide (n ≤ 13)) || n == 32 || n == 133 || n == 160 || n == 5760 ||
    (decide (8192 ≤ n) && decide (n ≤ 8202)) || n == 8232 || n == 8233 || n == 8239 || n == 8287 ||
    n == 12288

/-- How one `append_line` ends. -/
inductive AppendOutcome where
  | written
  /-- An error after the given number of bytes, which may be all of them. -/
  | torn (bytes : Nat)
deriving DecidableEq

/-- The journal of one sync root and the bytes of its file. -/
structure JournalFile where
  state : JournalState
  bytes : List UInt8

namespace JournalFile

/-- `append_line`; `false` is an error. -/
def appendLine (c : LineCodec) (o : AppendOutcome) (j : JournalFile) (line : JournalLine) :
    Bool × JournalFile :=
  match c.toText line with
  | none => (false, j)
  | some text =>
    match o with
    | .written =>
      (true, ⟨{ j.state with linesOnDisk := j.state.linesOnDisk + 1 }, j.bytes ++ lineBytes text⟩)
    | .torn k => (false, { j with bytes := j.bytes ++ (lineBytes text).take k })

/-- Appends one entry and applies it. -/
def appendEntry (c : LineCodec) (o : AppendOutcome) (j : JournalFile) (op : JournalOp)
    (path : PathBuf) (actionMs : Nat) : Bool × JournalFile :=
  let entry : JournalEntry := ⟨j.state.nextSeq, op, path, actionMs⟩
  match j.appendLine c o entry.toLine with
  | (false, j) => (false, j)
  | (true, j) => (true, { j with state := j.state.apply entry })

/-- `write_compacted`; `done` is whether the file could be replaced. -/
def writeCompacted (c : LineCodec) (done : Bool) (j : JournalFile) : JournalFile :=
  match j.state.compactedLines.mapM c.toText with
  | none => j
  | some texts =>
    if done then
      ⟨{ j.state with linesOnDisk := j.state.compactedLines.length }, texts.flatMap lineBytes⟩
    else j

def maybeCompact (c : LineCodec) (done : Bool) (j : JournalFile) : JournalFile :=
  if compactMinLines ≤ j.state.linesOnDisk then j.writeCompacted c done else j

/-- How the file operations of one call end. -/
structure Outcome where
  first : AppendOutcome
  /-- Of the second line of a rename. -/
  second : AppendOutcome
  compacted : Bool

/-- `append`. -/
def append (c : LineCodec) (o : Outcome) (j : JournalFile) (op : JournalOp) (path : PathBuf)
    (actionMs : Nat) : Bool × JournalFile :=
  match j.appendEntry c o.first op path actionMs with
  | (false, j) => (false, j)
  | (true, j) => (true, j.maybeCompact c o.compacted)

def rename (c : LineCodec) (o : Outcome) (j : JournalFile) (source target : PathBuf)
    (actionMs : Nat) : Bool × JournalFile :=
  let hadUpsert := decide (j.state.exactWith source JournalState.isUpsert ≠ [])
  match j.appendEntry c o.first (.rename target) source actionMs with
  | (false, j) => (false, j)
  | (true, j) =>
    if hadUpsert then
      match j.appendEntry c o.second .upsert target actionMs with
      | (false, j) => (false, j)
      | (true, j) => (true, j.maybeCompact c o.compacted)
    else (true, j.maybeCompact c o.compacted)

def ack (c : LineCodec) (o : Outcome) (j : JournalFile) (uptoSeq : Nat) : Bool × JournalFile :=
  if uptoSeq ≤ j.state.acked then (true, { j with state := j.state.ackLocal uptoSeq })
  else
    match j.appendLine c o.first (.ack uptoSeq) with
    | (false, j) => (false, j)
    | (true, j) =>
      (true, { j with state := j.state.ackLocal uptoSeq }.maybeCompact c o.compacted)

/-- One line of the text in `open`; the flag is `damaged`. -/
def readLine (c : LineCodec) (s : Bool × JournalState) (text : List Char) : Bool × JournalState :=
  if text.all isWhiteSpace then s
  else
    let (bad, st) := match c.fromText text with
      | some line => (!(s.2.applyLine line).1, (s.2.applyLine line).2)
      | none => (true, s.2)
    (s.1 || bad, { st with linesOnDisk := st.linesOnDisk + 1 })

/-- `open` on a file with the given bytes; `compacted` is whether a damaged file could be
    rewritten. A file that is no text is left alone. -/
def openFile (c : LineCodec) (compacted : Bool) (bytes : List UInt8) : JournalFile :=
  match decodeText bytes with
  | none => ⟨.init, bytes⟩
  | some text =>
    -- The last element is either empty or the torn tail.
    let torn := decide (text ≠ []) && decide (text.getLast? ≠ some '\n')
    let (damaged, st) := (text.splitOn '\n').dropLast.foldl (readLine c) (torn, .init)
    if damaged then writeCompacted c compacted ⟨st, bytes⟩ else ⟨st, bytes⟩

end JournalFile

/-- A call of the journal's interface. -/
inductive JournalRequest where
  | call (c : JournalCall)
  | ack (upto : Nat)

/-- The answer to the request and the journal after it. -/
def JournalRequest.run (c : LineCodec) (o : JournalFile.Outcome) (j : JournalFile) :
    JournalRequest → Bool × JournalFile
  | .call (.upsert p a) => j.append c o .upsert p a
  | .call (.delete p a) => j.append c o .delete p a
  | .call (.rename f t a) => j.rename c o f t a
  | .ack upto => j.ack c o upto

end ByteHive
