import ByteHive.ForStd.RegexSeq
import ByteHive.Native.PathText

/-!
# Exclusion rules (`exclusions.rs`)

Globs are translated to regular expressions, which are compiled with those that the user gives. A
path is excluded where one of the rules matches its text with forward slashes. A rule that does
not compile is left out.

The regex crate is a parameter. What is used of it is the meaning of sequences of characters,
classes and anchors.
-/

namespace ByteHive

/-- `Regex::new` and `is_match`. A sequence that compiles matches where its items do. -/
structure RegexCrate where
  compile : String → Option (String → Bool)
  isMatch_iff : ∀ (source : String) (items : List RegexSeq.Item) (isMatch : String → Bool),
    RegexSeq.parse source.toList = some items → compile source = some isMatch →
    ∀ text, isMatch text = RegexSeq.search items text.toList

/-- A crate that knows sequences only. -/
def RegexCrate.sequences : RegexCrate where
  compile source := (RegexSeq.parse source.toList).map fun items text =>
    RegexSeq.search items text.toList
  isMatch_iff source items isMatch hparse hcompile text := by
    rw [hparse] at hcompile
    exact (congrFun (Option.some.inj hcompile) text).symm

/-! ## Paths -/

/-- `Component::as_os_str` -/
def Component.asOsStr : Component → String
  | .rootDir => "/"
  | .curDir => "."
  | .parentDir => ".."
  | .normal name => name

/-- The components with slashes between them. -/
def normalise (rel : PathBuf) : String := "/".intercalate (rel.map Component.asOsStr)

/-! ## Globs -/

/-- The characters that get a backslash. -/
def escaped (c : Char) : Bool := "^$.|+()[]\x7b\x7d\\".toList.contains c

/-- The loop of `glob_to_regex` and the anchor behind it. -/
def globBody : List Char → List Char
  -- the slash after `**` goes with it
  | '*' :: '*' :: '/' :: pat => ['.', '*'] ++ globBody pat
  | '*' :: '*' :: pat => ['.', '*'] ++ globBody pat
  | '*' :: pat => ['[', '^', '/', ']', '*'] ++ globBody pat
  | '?' :: pat => ['[', '^', '/', ']'] ++ globBody pat
  | c :: pat => (if escaped c then ['\\', c] else [c]) ++ globBody pat
  | [] => ['$']

def globToRegex (pat : String) : String := String.ofList ('^' :: globBody pat.toList)

/-! ## Rules -/

structure ExclusionConfig where
  excludePatterns : List String
  excludeRegex : List String

/-- The rules that compiled, each with where it comes from. -/
structure Exclusions where
  compiled : List (String × (String → Bool))

namespace Exclusions

def compile (crate : RegexCrate) (cfg : ExclusionConfig) : Exclusions where
  compiled :=
    [".bh_filesync", ".bh_filesync/**"].filterMap (fun pat =>
      (crate.compile (globToRegex pat)).map fun re => ("builtin:" ++ pat, re)) ++
    cfg.excludePatterns.filterMap (fun pat =>
      (crate.compile (globToRegex pat)).map fun re => ("glob:" ++ pat, re)) ++
    cfg.excludeRegex.filterMap (fun raw =>
      (crate.compile raw).map fun re => ("regex:" ++ raw, re))

def isExcluded (e : Exclusions) (rel : PathBuf) : Bool :=
  if e.compiled.isEmpty then false else e.compiled.any fun rule => rule.2 (normalise rel)

def matchingRule (e : Exclusions) (rel : PathBuf) : Option String :=
  if e.compiled.isEmpty then none
  else (e.compiled.find? fun rule => rule.2 (normalise rel)).map (·.1)

def ruleCount (e : Exclusions) : Nat := e.compiled.length

end Exclusions

end ByteHive
