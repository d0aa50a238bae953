import ByteHive.ForStd.TextLines

/-!
# The lines of a TOML document

A document is read line by line: a line is blank or a comment, a header, the start of a key with
its value, or it goes on with a value that an earlier line has left open (brackets, or a string
of three quotes). Every line but the blank ones belongs to one key of the document's root: a
header and the lines under it to the first key of the header's path, a line above all headers to
the first key of its own path.

The reading is lenient: it finds where lines belong and where values end, and leaves to `Reader`
what the lines of one key make, or that they make nothing.
-/

namespace TomlDoc

open TextLines

/-- A key, without its quotes. -/
abbrev Key := List Char

/-- The blanks of TOML. -/
def isBlank (c : Char) : Bool := decide (c = ' ' ∨ c = '\t')

def skipBlanks (t : Text) : Text := t.dropWhile isBlank

/-! ## Values -/

inductive Quote where
  | basic
  | literal
deriving DecidableEq, Repr

def Quote.char : Quote → Char
  | .basic => '\x22'
  | .literal => '\x27'

inductive Mode where
  | value
  | comment
  /-- One quote so far. -/
  | opened (q : Quote)
  /-- Two quotes so far: an empty string, or the start of one of three quotes. -/
  | empty (q : Quote)
  | single (q : Quote)
  | singleEscape
  /-- In a string of three quotes, after some quotes more. -/
  | multi (q : Quote) (quotes : Nat)
  | multiEscape
deriving DecidableEq, Repr

/-- How far the reading of a value has come. -/
structure Scan where
  depth : Nat
  mode : Mode
deriving DecidableEq, Repr

/-- What a line leaves open at its end. -/
inductive Unclosed where
  /-- One bracket more than `depth`. -/
  | brackets (depth : Nat)
  | string (q : Quote) (depth : Nat)
deriving DecidableEq, Repr

namespace Scan

/-- A character outside of strings and comments. -/
def plain (depth : Nat) (c : Char) : Scan :=
  if c = Quote.basic.char then ⟨depth, .opened .basic⟩
  else if c = Quote.literal.char then ⟨depth, .opened .literal⟩
  else if c = '#' then ⟨depth, .comment⟩
  else if c = '[' ∨ c = '{' then ⟨depth + 1, .value⟩
  else if c = ']' ∨ c = '}' then ⟨depth - 1, .value⟩
  else ⟨depth, .value⟩

/-- A backslash escapes between double quotes. -/
def escapes (q : Quote) (c : Char) : Bool := decide (q = .basic ∧ c = '\\')

def char (s : Scan) (c : Char) : Scan :=
  match s.mode with
  | .value => plain s.depth c
  | .comment => s
  | .opened q =>
    if c = q.char then ⟨s.depth, .empty q⟩
    else ⟨s.depth, if escapes q c = true then .singleEscape else .single q⟩
  | .empty q => if c = q.char then ⟨s.depth, .multi q 0⟩ else plain s.depth c
  | .single q =>
    if c = q.char then ⟨s.depth, .value⟩
    else ⟨s.depth, if escapes q c = true then .singleEscape else .single q⟩
  | .singleEscape => ⟨s.depth, .single .basic⟩
  | .multi q quotes =>
    if c = q.char then ⟨s.depth, .multi q (quotes + 1)⟩
    else if 3 ≤ quotes then plain s.depth c
    else ⟨s.depth, if escapes q c = true then .multiEscape else .multi q 0⟩
  | .multiEscape => ⟨s.depth, .multi .basic 0⟩

/-- The end of a line outside of strings. -/
def closes : Nat → Option Unclosed
  | 0 => none
  | depth + 1 => some (.brackets depth)

/-- The end of a line: what is left open, and `none` for a string that has to end on its line. -/
def newline (s : Scan) : Option (Option Unclosed) :=
  match s.mode with
  | .value | .comment | .empty _ => some (closes s.depth)
  | .opened _ | .single _ | .singleEscape => none
  | .multi q quotes => some (if 3 ≤ quotes then closes s.depth else some (.string q s.depth))
  | .multiEscape => some (some (.string .basic s.depth))

end Scan

/-- At the start of a line that goes on with a value. -/
def Unclosed.scan : Unclosed → Scan
  | .brackets depth => ⟨depth + 1, .value⟩
  | .string q depth => ⟨depth, .multi q 0⟩

/-! ## Keys and headers -/

def isBare (c : Char) : Bool := c.isAlphanum || decide (c = '-' ∨ c = '_')

def hexDigit (c : Char) : Option Nat :=
  if c.isDigit then some (c.toNat - 48)
  else if 'a' ≤ c ∧ c ≤ 'f' then some (c.toNat - 87)
  else if 'A' ≤ c ∧ c ≤ 'F' then some (c.toNat - 55)
  else none

/-- A character given by `n` hex digits. -/
def unicode (n : Nat) (t : Text) : Option (Char × Text) :=
  if (t.take n).length = n then
    ((t.take n).mapM hexDigit).bind fun digits =>
      let v := digits.foldl (fun v d => 16 * v + d) 0
      if v.isValidChar then some (Char.ofNat v, t.drop n) else none
  else none

/-- What follows a backslash. -/
def escape : Text → Option (Char × Text)
  | 'u' :: t => unicode 4 t
  | 'U' :: t => unicode 8 t
  | c :: t =>
    ([('b', '\x08'), ('t', '\t'), ('n', '\n'), ('f', '\x0c'), ('r', '\r'),
      ('\x22', '\x22'), ('\\', '\\')].lookup c).map (·, t)
  | [] => none

/-- A key in double quotes, after the first of them. -/
def basicKey : Nat → Text → Option (Key × Text)
  | 0, _ | _, [] => none
  | n + 1, c :: t =>
    if c = Quote.basic.char then some ([], t)
    else if c = '\\' then
      (escape t).bind fun e => (basicKey n e.2).map fun r => (e.1 :: r.1, r.2)
    else (basicKey n t).map fun r => (c :: r.1, r.2)

def simpleKey : Text → Option (Key × Text)
  | [] => none
  | c :: t =>
    if c = Quote.basic.char then basicKey (t.length + 1) t
    else if c = Quote.literal.char then
      if Quote.literal.char ∈ t then
        some (t.takeWhile (· ≠ Quote.literal.char), (t.dropWhile (· ≠ Quote.literal.char)).tail)
      else none
    else if isBare c = true then some ((c :: t).takeWhile isBare, (c :: t).dropWhile isBare)
    else none

/-- Keys with dots between them, and what follows. -/
def path : Nat → Text → Option (List Key × Text)
  | 0, _ => none
  | n + 1, t =>
    (simpleKey (skipBlanks t)).bind fun r =>
      match skipBlanks r.2 with
      | '.' :: rest => (path n rest).map fun p => (r.1 :: p.1, p.2)
      | rest => some ([r.1], rest)

/-- Nothing more on the line, or a comment. -/
def ends (t : Text) : Bool := (skipBlanks t).head?.all (· = '#')

/-- Whether the header is that of an array, and its path. -/
def header : Text → Option (Bool × List Key)
  | '[' :: '[' :: t =>
    (path (t.length + 1) t).bind fun p =>
      match p.2 with
      | ']' :: ']' :: rest => if ends rest = true then some (true, p.1) else none
      | _ => none
  | '[' :: t =>
    (path (t.length + 1) t).bind fun p =>
      match p.2 with
      | ']' :: rest => if ends rest = true then some (false, p.1) else none
      | _ => none
  | _ => none

/-- The first key of a line with a value, and how far the value goes on the line. -/
def keyval (t : Text) : Option (Key × Scan) :=
  (path (t.length + 1) t).bind fun p =>
    match p.2 with
    | '=' :: rest => p.1.head?.map fun key => (key, rest.foldl Scan.char ⟨0, .value⟩)
    | _ => none

/-! ## Lines -/

/-- What a line says. -/
inductive Item where
  | header (array : Bool) (path : List Key)
  | text (t : Text)
deriving DecidableEq, Repr

/-- Where the reading is at the start of a line. -/
structure Walk where
  /-- The value that is open, with the root key it belongs to. -/
  inside : Option (Key × Unclosed)
  /-- The first key of the last header. -/
  table : Option Key
deriving DecidableEq, Repr

/-- A blank line, or one with only a comment, when it is trimmed. -/
def isTrivia (t : Text) : Bool := decide (t = [] ∨ t.head? = some '#')

namespace Walk

def start : Walk := ⟨none, none⟩

/-- A line of a value. What follows the value on its last line is not kept. -/
def value (w : Walk) (key : Key) (s : Scan) (t : Text) : Option (Option (Key × Item) × Walk) :=
  s.newline.map fun unclosed =>
    (some (key, .text (if unclosed = none then trimEnd t else t)),
      { w with inside := unclosed.map (key, ·) })

/-- A line outside of values, given trimmed as well. -/
def outside (w : Walk) (l t : Text) : Option (Option (Key × Item) × Walk) :=
  if isTrivia t = true then some (none, w)
  else if t.head? = some '[' then
    (header t).bind fun h =>
      h.2.head?.map fun key => (some (key, .header h.1 h.2), ⟨none, some key⟩)
  else (keyval t).bind fun kv => w.value (w.table.getD kv.1) kv.2 (trimStart l)

/-- One line: what it says, for which root key. `none` for a line that TOML has not. -/
def line (w : Walk) (l : Text) : Option (Option (Key × Item) × Walk) :=
  if '\r' ∈ l then none
  else
    match w.inside with
    | some (key, unclosed) => w.value key (l.foldl Scan.char unclosed.scan) l
    | none =>
      if (leading l).all isBlank = true then w.outside l (trim l) else none

end Walk

def walk : Walk → List Text → Option (List (Key × Item) × Walk)
  | w, [] => some ([], w)
  | w, l :: ls => (w.line l).bind fun r => (walk r.2 ls).map fun rs => (r.1.toList ++ rs.1, rs.2)

/-! ## Documents -/

/-- The lines of a document that say something, with their root keys. -/
def items (t : Text) : Option (List (Key × Item)) :=
  (walk .start (lines t)).bind fun r => if r.2.inside = none then some r.1 else none

/-- The lines of one root key. -/
def relevant (key : Key) (is : List (Key × Item)) : List Item :=
  is.filterMap fun i => if i.1 = key then some i.2 else none

/-- What the lines of one root key make; `none` where they are not TOML. -/
structure Reader (V : Type) where
  value : List Item → Option V

/-- The root table of the document. -/
def Reader.parse {V : Type} (reader : Reader V) (t : Text) : Option (Key → Option V) :=
  (items t).bind fun is =>
    if is.all (fun i => (reader.value (relevant i.1 is)).isSome) = true then
      some fun key => if relevant key is = [] then none else reader.value (relevant key is)
    else none

end TomlDoc
