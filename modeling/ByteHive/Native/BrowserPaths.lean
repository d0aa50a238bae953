import ByteHive.Native.PathText

/-!
# Paths of file browser requests (`filebrowser/src/fs_util.rs`)

`resolve` takes the path of a request apart and joins it to the root. A path that ends in a slash
or in `.` leads to directories only. `resolve` also compares canonical paths, which in a tree
without links are the paths themselves.
-/

namespace ByteHive

/-- A path below the root: the names on the way, and whether it leads to directories only. -/
structure BrowserPath where
  names : List String
  slash : Bool
deriving DecidableEq, Repr

/-- `rel.trim_start_matches('/').replace('\\', "/")` -/
def trimRel (rel : String) : String :=
  String.ofList ((rel.toList.dropWhile (· = '/')).map fun c => if c = '\\' then '/' else c)

/-- The components, each of which `resolve` looks at in turn; `.` is left out. -/
def plainComponents : PathBuf → Except String (List String)
  | [] => .ok []
  | .parentDir :: _ => .error "path traversal not allowed"
  | .rootDir :: _ => .error "absolute paths not allowed"
  | .curDir :: rest => plainComponents rest
  | .normal name :: rest => (plainComponents rest).map (name :: ·)

/-- The last part of the text is empty or `.`. -/
def endsAsDir (text : String) : Bool :=
  (text.toList.splitOn '/').getLast?.any fun part => part = [] || part = ['.']

/-- `resolve` -/
def resolvePath (rel : String) : Except String BrowserPath :=
  (plainComponents (componentsOf (trimRel rel))).map fun names => ⟨names, endsAsDir (trimRel rel)⟩

end ByteHive
