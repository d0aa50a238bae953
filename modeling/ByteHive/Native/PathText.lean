import ByteHive.Native.Path

/-!
# Paths as text

`Path::components` on Unix: the text is cut at `/`, and empty and `.` parts are left out, except
that a text that begins with `.` keeps it. A text that begins with `/` is an absolute path.
-/

namespace ByteHive

/-- A part between two separators, as the component it stands for. -/
def componentOf (part : List Char) : Option Component :=
  if part = [] ∨ part = ['.'] then none
  else if part = ['.', '.'] then some .parentDir
  else some (.normal (String.ofList part))

/-- The part before the first separator. -/
def firstComponent (part : List Char) (more : Bool) : Option Component :=
  if part = [] then if more then some .rootDir else none
  else if part = ['.'] then some .curDir
  else componentOf part

/-- `PathBuf::from`, up to the equality of paths. -/
def componentsOf (text : String) : PathBuf :=
  match text.toList.splitOn '/' with
  | [] => []
  | first :: rest => (firstComponent first (!rest.isEmpty)).toList ++ rest.filterMap componentOf

/-- A name that stands for itself in the text of a path. -/
def PlainName (name : String) : Prop :=
  '/' ∉ name.toList ∧ name.toList ≠ [] ∧ name.toList ≠ ['.'] ∧ name.toList ≠ ['.', '.']

instance (name : String) : Decidable (PlainName name) := inferInstanceAs (Decidable (_ ∧ _))

theorem componentOf_plainName {name : String} (h : PlainName name) :
    componentOf name.toList = some (.normal name) := by
  obtain ⟨-, hnil, hdot, hdots⟩ := h
  rw [componentOf, if_neg (not_or.mpr ⟨hnil, hdot⟩), if_neg hdots, String.ofList_toList]

/-- Plain names, joined by slashes, are read back. -/
theorem componentsOf_intercalate {names : List String} (h : ∀ name ∈ names, PlainName name) :
    componentsOf ("/".intercalate names) = PathBuf.ofNames names := by
  cases names with
  | nil => decide +kernel
  | cons name rest =>
    have htext : ("/".intercalate (name :: rest)).toList.splitOn '/' =
        name.toList :: rest.map String.toList := by
      rw [String.toList_intercalate]
      exact List.splitOn_intercalate '/' (by simpa using fun n hn => (h n hn).1) (by simp)
    have hname := h name List.mem_cons_self
    have hfirst : ∀ more, firstComponent name.toList more = some (.normal name) := by
      intro more
      rw [firstComponent, if_neg hname.2.1, if_neg hname.2.2.1, componentOf_plainName hname]
    have hrest : (rest.map String.toList).filterMap componentOf = PathBuf.ofNames rest := by
      rw [List.filterMap_map, PathBuf.ofNames, ← List.filterMap_eq_map]
      exact List.filterMap_congr fun n hn => componentOf_plainName (h n (List.mem_cons_of_mem _ hn))
    simp only [componentsOf, htext, hfirst, hrest]
    rfl

end ByteHive
