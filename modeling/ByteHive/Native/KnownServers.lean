import Mathlib.Data.List.Basic

/-!
# Servers that a client trusts (`known_hosts.rs`, `client.rs`)

A client takes the certificate of a server that it meets for the first time as that of the server
from then on. The fingerprints are in a file, which every session reads anew. Sessions are one after
the other; what `toml` prints and reads is given from outside.
-/

namespace ByteHive

structure KnownServer where
  addr : String
  fingerprint : String
  firstSeenMs : Nat
deriving DecidableEq, Repr

/-- The crate `toml` on a `KnownServersFile`. -/
structure ServersToml where
  fromStr : String → Option (List KnownServer)
  toStringPretty : List KnownServer → Option String

/-- What is printed is read again. -/
def ServersToml.Lawful (c : ServersToml) : Prop :=
  ∀ servers text, c.toStringPretty servers = some text → c.fromStr text = some servers

/-- How the write of a save ends; a write that fails leaves what it leaves. -/
inductive SaveEnd where
  | saved
  | unsaved (left : Option String)
deriving DecidableEq, Repr

namespace KnownServers

/-- `load_or_create`; the file is `none` where there is none or it cannot be read. -/
def loadOrCreate (c : ServersToml) (file : Option String) : List KnownServer :=
  (file.bind c.fromStr).getD []

/-- `get_fingerprint` -/
def getFingerprint (servers : List KnownServer) (addr : String) : Option String :=
  (servers.find? fun s => s.addr = addr).map (·.fingerprint)

/-- `pin`, up to the save. -/
def pin (addr fingerprint : String) (nowMs : Nat) : List KnownServer → List KnownServer
  | [] => [⟨addr, fingerprint, nowMs⟩]
  | s :: servers =>
    if s.addr = addr then { s with fingerprint } :: servers
    else s :: pin addr fingerprint nowMs servers

/-- `save`: the file after it. -/
def save (c : ServersToml) (file : Option String) (servers : List KnownServer) :
    SaveEnd → Option String
  | .unsaved left => left
  | .saved =>
    match c.toStringPretty servers with
    | some text => some text
    | none => file

end KnownServers

/-- What a session meets when it has connected. -/
structure ServerContact where
  addr : String
  /-- The fingerprint of the certificate that the server has presented. -/
  cert : Option String
  nowMs : Nat
  /-- The file is there and cannot be read. -/
  unreadable : Bool
  save : SaveEnd

inductive ContactEnd where
  | trusted
  /-- `SERVER FINGERPRINT MISMATCH` -/
  | refused
  /-- The stored fingerprint cannot be cut for the message. -/
  | panicked
deriving DecidableEq, Repr

/-- `&s[..16]` is possible. -/
def cutsAt16 (s : String) : Bool :=
  (List.range (s.toList.length + 1)).any fun k =>
    decide ((String.ofList (s.toList.take k)).utf8ByteSize = 16)

open KnownServers

/-- What a session knows of the servers. -/
def ServerContact.known (c : ServersToml) (file : Option String) (s : ServerContact) :
    List KnownServer :=
  loadOrCreate c (if s.unreadable then none else file)

/-- The check in `session` of who the server is, with the file after it. -/
def checkServer (c : ServersToml) (file : Option String) (s : ServerContact) :
    ContactEnd × Option String :=
  match s.cert with
  | none => (.trusted, file)
  | some fingerprint =>
    match getFingerprint (s.known c file) s.addr with
    | none => (.trusted, save c file (pin s.addr fingerprint s.nowMs (s.known c file)) s.save)
    | some stored =>
      if stored = fingerprint then (.trusted, file)
      else if cutsAt16 stored then (.refused, file)
      else (.panicked, file)

inductive TrustEvent where
  | contact (s : ServerContact)
  /-- Somebody else writes or deletes the file. -/
  | change (file : Option String)

/-- The file after an event. -/
def trustStep (c : ServersToml) (file : Option String) : TrustEvent → Option (Option String)
  | .contact s => some (checkServer c file s).2
  | .change file => some file

end ByteHive
