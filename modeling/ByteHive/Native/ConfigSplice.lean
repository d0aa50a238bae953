import ByteHive.ForStd.TomlDoc
import ByteHive.Native.KnownHosts
import ByteHive.Native.Users

/-!
# Replacing sections in the text of the config file (`users.rs`, `known_hosts.rs`)

`splice_auth_sections` and `splice_known_clients` go through the file line by line. They leave out
the sections that they own and put the fresh ones where the first of them was. The two loops are
the same, with other names. What the `toml` crate prints and reads is `TomlCrate`.
-/

namespace ByteHive

open TextLines TomlDoc

/-- `AUTH_NAMES`. -/
def authNames : List Text := ["users".toList, "groups".toList, "api_keys".toList]

def knownClientsNames : List Text := ["filesync_known_clients".toList]

/-- The variables of the loop. -/
structure Splice where
  before : List Text
  after : List Text
  foundFirst : Bool
  inSection : Bool
  pending : List Text
deriving DecidableEq, Repr

/-- `is_array_hdr`. -/
def isArrayHdr (trimmed : Text) : Bool :=
  ['[', '['].isPrefixOf trimmed && [']', ']'].isSuffixOf trimmed && !(['#'].isPrefixOf trimmed)

/-- `is_table_hdr`. -/
def isTableHdr (trimmed : Text) : Bool :=
  ['['].isPrefixOf trimmed && !(['[', '['].isPrefixOf trimmed) && !(['#'].isPrefixOf trimmed)

/-- The name between the brackets, in lower case. -/
def sectionName (trimmed : Text) : Text :=
  (trim (trimmed.drop 2).dropLast.dropLast).map Char.toLower

namespace Splice

def start : Splice := ⟨[], [], false, false, []⟩

/-- `target.extend(pending.drain(..)); target.push(line)`. -/
def keep (s : Splice) (line : Text) : Splice :=
  if s.foundFirst = true then { s with after := s.after ++ s.pending ++ [line], pending := [] }
  else { s with before := s.before ++ s.pending ++ [line], pending := [] }

def line (names : List Text) (s : Splice) (line : Text) : Splice :=
  let trimmed := trim line
  if isArrayHdr trimmed = true then
    if names.contains (sectionName trimmed) = true then
      { s with pending := [], inSection := true, foundFirst := true }
    else { s with inSection := false }.keep line
  else if isTableHdr trimmed = true then { s with inSection := false }.keep line
  else if s.inSection = true then
    if trimmed = [] ∨ ['#'].isPrefixOf trimmed = true then
      { s with pending := s.pending ++ [line] }
    else { s with pending := [] }
  else s.keep line

/-- What is made of the lines that are kept and the fresh sections. -/
def output (s : Splice) (fresh : Text) : Text :=
  let out := trimEnd (join s.before)
  let out :=
    if trim fresh = [] then out
    else (if out = [] then [] else out ++ ['\n']) ++ ['\n'] ++ trimEnd fresh ++ ['\n']
  let afterTrimmed := trimStart (join s.after)
  endLine (if afterTrimmed = [] then out else out ++ ['\n'] ++ afterTrimmed)

end Splice

/-- The loop and what follows it. -/
def splice (names : List Text) (original fresh : Text) : Text :=
  ((lines original).foldl (Splice.line names) .start).output fresh

/-- `splice_auth_sections`. -/
def spliceAuthSections (original freshAuth : Text) : Text := splice authNames original freshAuth

/-! ## What is printed -/

/-- A list that is printed as sections. -/
inductive ConfigList where
  | users (users : List UserEntry)
  | groups (groups : List Group)
  | apiKeys (apiKeys : List ApiKey)
  | filesyncKnownClients (clients : List KnownClient)
deriving DecidableEq, Repr

namespace ConfigList

/-- The one field of the struct that is printed. -/
def name : ConfigList → Text
  | .users _ => "users".toList
  | .groups _ => "groups".toList
  | .apiKeys _ => "api_keys".toList
  | .filesyncKnownClients _ => "filesync_known_clients".toList

def isEmpty : ConfigList → Bool
  | .users us => us.isEmpty
  | .groups gs => gs.isEmpty
  | .apiKeys ks => ks.isEmpty
  | .filesyncKnownClients cs => cs.isEmpty

end ConfigList

/-- The `toml` crate: `toStringPretty` is `none` for a list that it cannot print, and `encode` is
    what a list is as a value of TOML. -/
structure TomlCrate (V : Type) extends Reader V where
  toStringPretty : ConfigList → Option Text
  encode : ConfigList → V

namespace TomlCrate

variable {V : Type} (crate : TomlCrate V)

/-- One list of `serialize_auth_sections`; a failure is logged only. -/
def pushSection (out : Text) (list : ConfigList) : Text :=
  if list.isEmpty = true then out
  else ((crate.toStringPretty list).map fun s => out ++ s ++ ['\n']).getD out

def serializeAuthSections (users : List UserEntry) (groups : List Group) (keys : List ApiKey) :
    Text :=
  [.users users, .groups groups, .apiKeys keys].foldl crate.pushSection []

/-- `splice_known_clients`. -/
def spliceKnownClients (original : Text) (clients : List KnownClient) : Text :=
  if clients.isEmpty = true then splice knownClientsNames original []
  else
    ((crate.toStringPretty (.filesyncKnownClients clients)).map
      (splice knownClientsNames original)).getD original

end TomlCrate

end ByteHive
