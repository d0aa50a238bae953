import ByteHive.Native.LedgerFile
import ByteHive.Native.PathText

/-!
# The ledger file as JSON (`ledger.rs`)

`DeletionLedger::load` tries the ledger first and a bare map of tombstones second;
`save_atomic` writes the ledger. The readers are those that serde derives: a field that is
missing takes its default, a field of another name is ignored, one that occurs twice is an error,
and a record may also be given as an array of its fields. A document is what the JSON text says,
with the members of an object in their order.
-/

namespace ByteHive

inductive Json where
  | null
  | bool (value : Bool)
  | int (value : Int)
  /-- A number that is no integer, or one out of the range of 64 bits, as written. -/
  | float (literal : String)
  | str (value : String)
  | arr (elems : List Json)
  | obj (members : List (String × Json))

namespace Json

/-! ## What serde reads -/

def u64 : Json → Option Nat
  | .int n => if 0 ≤ n ∧ n.toNat < 2 ^ 64 then some n.toNat else none
  | _ => none

def string : Json → Option String
  | .str s => some s
  | _ => none

def pathBuf : Json → Option PathBuf
  | .str s => some (componentsOf s)
  | _ => none

/-- An `Option`: `null` is no value. -/
def optional {α : Type} (read : Json → Option α) : Json → Option (Option α)
  | .null => some none
  | j => (read j).map some

/-- Takes one member of an object into a map. -/
def insertMember {α : Type} (read : Json → Option α) (m : FinMap PathBuf α)
    (member : String × Json) : Option (FinMap PathBuf α) :=
  (read member.2).map (m.insert (componentsOf member.1))

/-- A `HashMap` with paths for keys. The last of several members for one path stays. -/
def hashMap {α : Type} (read : Json → Option α) : Json → Option (FinMap PathBuf α)
  | .obj members => members.foldlM (insertMember read) .empty
  | _ => none

/-- The members for a field; `none` where there are several. -/
def field (name : String) (members : List (String × Json)) : Option (Option Json) :=
  match members.filter (·.1 = name) with
  | [] => some none
  | [x] => some (some x.2)
  | _ => none

/-- A field without a default. -/
def required {α : Type} (read : Json → Option α) (name : String)
    (members : List (String × Json)) : Option α :=
  (field name members).bind (·.bind read)

/-- A field with a default. -/
def defaulted {α : Type} (value : α) (read : Json → Option α) (name : String)
    (members : List (String × Json)) : Option α :=
  (field name members).bind fun j => j.elim (some value) read

end Json

/-- `Tombstone: Deserialize`. A missing `Option` is none. -/
def Tombstone.ofJson : Json → Option Tombstone
  | .obj members => do
    let path ← Json.required Json.pathBuf "path" members
    let deletedAtMs ← Json.required Json.u64 "deleted_at_ms" members
    let deleterNode ← Json.required Json.string "deleter_node" members
    let prevHash ← Json.defaulted none (Json.optional Json.string) "prev_hash" members
    let prevMtimeMs ← Json.defaulted none (Json.optional Json.u64) "prev_mtime_ms" members
    return ⟨path, deletedAtMs, deleterNode, prevHash, prevMtimeMs⟩
  -- as an array it has all its fields
  | .arr [path, deletedAtMs, deleterNode, prevHash, prevMtimeMs] => do
    let path ← path.pathBuf
    let deletedAtMs ← deletedAtMs.u64
    let deleterNode ← deleterNode.string
    let prevHash ← prevHash.optional Json.string
    let prevMtimeMs ← prevMtimeMs.optional Json.u64
    return ⟨path, deletedAtMs, deleterNode, prevHash, prevMtimeMs⟩
  | _ => none

namespace DeletionLedger

/-- `DeletionLedger: Deserialize`. Both fields have `#[serde(default)]`. -/
def ofJson : Json → Option DeletionLedger
  | .obj members => do
    let entries ← Json.defaulted .empty (Json.hashMap Tombstone.ofJson) "entries" members
    let alive ← Json.defaulted .empty (Json.hashMap Json.u64) "alive" members
    return ⟨entries, alive⟩
  | .arr [] => some ⟨.empty, .empty⟩
  | .arr [entries] => do
    let entries ← entries.hashMap Tombstone.ofJson
    return ⟨entries, .empty⟩
  | .arr [entries, alive] => do
    let entries ← entries.hashMap Tombstone.ofJson
    let alive ← alive.hashMap Json.u64
    return ⟨entries, alive⟩
  | _ => none

end DeletionLedger

/-! ## What is written -/

/-- The text that a ledger keeps of its paths. Paths that are equal may be spelled differently, so
    a key and the path in its tombstone have their own texts. -/
structure Spelling where
  entry : PathBuf → String
  path : PathBuf → String
  alive : PathBuf → String

/-- `Tombstone: Serialize`, with the text of its path. -/
def Tombstone.toJson (text : String) (t : Tombstone) : Json :=
  .obj [("path", .str text),
    ("deleted_at_ms", .int t.deletedAtMs),
    ("deleter_node", .str t.deleterNode),
    ("prev_hash", t.prevHash.elim .null .str),
    ("prev_mtime_ms", t.prevMtimeMs.elim .null fun ms => .int ms)]

/-- A `HashMap: Serialize`: the entries of the keys, in the order given. -/
def Json.ofHashMap {α : Type} (name : PathBuf → String) (write : PathBuf → α → Json)
    (keys : List PathBuf) (m : FinMap PathBuf α) : Json :=
  .obj (keys.filterMap fun p => (m.get p).map fun a => (name p, write p a))

namespace DeletionLedger

def entriesJson (s : Spelling) (order : HashOrder) (l : DeletionLedger) : Json :=
  Json.ofHashMap s.entry (fun p t => t.toJson (s.path p)) (order.toList l.entries.keys) l.entries

def aliveJson (s : Spelling) (order : HashOrder) (l : DeletionLedger) : Json :=
  Json.ofHashMap s.alive (fun _ (a : Nat) => .int a) (order.toList l.alive.keys) l.alive

/-- `DeletionLedger: Serialize`: `alive` is left out where it is empty. -/
def toJson (s : Spelling) (order : HashOrder) (l : DeletionLedger) : Json :=
  .obj (("entries", l.entriesJson s order) ::
    if l.alive.isEmpty then [] else [("alive", l.aliveJson s order)])

end DeletionLedger

/-! ## The file -/

/-- What the path of the ledger file leads to. -/
inductive LedgerFile where
  | missing
  /-- Not UTF-8; a read that fails takes the same branch. -/
  | unreadable
  /-- The document that the text is, if it is one. -/
  | text (json : Option Json)

namespace DeletionLedger

/-- `DeletionLedger::load`: the ledger, and whether the file was copied to
    `deletion-ledger.corrupt-<ts>.json`. -/
def load : LedgerFile → DeletionLedger × Bool
  | .missing => (.new, false)
  | .unreadable => (.new, false)
  | .text json =>
    match json.bind ofJson with
    | some ledger => (ledger, false)
    | none =>
      match json.bind (Json.hashMap Tombstone.ofJson) with
      | some map => (⟨map, .empty⟩, false)
      | none => (.new, true)

/-- The file that `save_atomic` leaves. -/
def saveAtomic (s : Spelling) (order : HashOrder) (l : DeletionLedger) : LedgerFile :=
  .text (some (l.toJson s order))

end DeletionLedger

/-- The object whose keys `clear_ledger_covering` compares with the prefixes: `entries` where it is
    an object, else the whole. A `serde_json::Value` has the last of several members of a name. -/
def clearedMembers : Json → Option (List (String × Json))
  | .obj members =>
    match members.reverse.find? fun x => x.1 = "entries" with
    | some (_, .obj entries) => some entries
    | _ => some members
  | _ => none

end ByteHive
