import ByteHive.ForStd.TextLines
import ByteHive.Native.LedgerJson
import ByteHive.Native.Timestamps

/-!
# The record of the bus (`core/src/logging.rs`)

One line for each message, with what looks like a credential replaced in the payload. The texts
that `serde_json` prints are a parameter.
-/

namespace ByteHive

namespace BusLog

/-- A message with its payload and its time. -/
structure BusMessage where
  id : Nat
  source : String
  topic : String
  payload : Json
  timestampMs : Nat

/-- `REDACTED` -/
def redacted : String := "[REDACTED]"

/-- `SENSITIVE_SUBSTRINGS` -/
def sensitiveSubstrings : List String :=
  ["password", "passwd", "secret", "token", "apikey", "authorization", "cookie", "credential"]

/-- `SENSITIVE_EXACT` -/
def sensitiveExact : List String := ["login", "auth", "pass", "pwd", "key", "session", "sessionid"]

def isSensitiveKey (key : String) : Bool :=
  let norm := (key.toList.filter Char.isAlphanum).map Char.toLower
  sensitiveSubstrings.any (fun s => decide (s.toList <:+: norm)) ||
    sensitiveExact.any fun s => norm == s.toList

/-- A text that equals one of the two, letter by letter without regard to case, has only ASCII
    characters there, so that bytes and characters are the same. -/
def looksLikeAuthHeader (s : String) : Bool :=
  let t := TextLines.trimStart s.toList
  ["bearer ", "basic "].any fun p => (t.take p.toList.length).map Char.toLower == p.toList

mutual

def redactPayload : Json → Json
  | .obj members => .obj (redactMembers members)
  | .arr items => .arr (redactItems items)
  | .str s => .str (if looksLikeAuthHeader s then redacted else s)
  | j => j

/-- The loop over the members of an object. -/
def redactMembers : List (String × Json) → List (String × Json)
  | [] => []
  | (key, val) :: members =>
    (key, if isSensitiveKey key then .str redacted else redactPayload val) :: redactMembers members

/-- The loop over the elements of an array. -/
def redactItems : List Json → List Json
  | [] => []
  | item :: items => redactPayload item :: redactItems items

end

/-- `serde_json::to_string` and `Value::to_string`. -/
structure JsonPrinter where
  toString : Json → Except String String
  display : Json → String

/-- `BusLine`, as it is serialised. -/
def busLine (timestamp : String) (msg : BusMessage) (payload : Json) : Json :=
  .obj [("timestamp", .str timestamp), ("id", .int msg.id), ("source", .str msg.source),
    ("topic", .str msg.topic), ("payload", payload)]

/-- `bus_record_line` -/
def busRecordLine (printer : JsonPrinter) (msg : BusMessage) : Option String := do
  let payload := redactPayload msg.payload
  let timestamp ← formatUtcMs msg.timestampMs
  let out := match printer.toString (busLine timestamp msg payload) with
    | .ok out => out
    | .error e => printer.display (.obj [("error", .str e)])
  return out ++ "\n"

end BusLog

end ByteHive
