import Mathlib.Data.List.Infix
import Mathlib.Data.Prod.Lex
import Mathlib.Data.String.Basic
import Mathlib.Order.Lex

/-!
# Relative paths

A path is the list of its components, which is what `std::path::Path` compares:
equality, order and `starts_with` all work component by component, so that `a/b`
is not below `a/bc`. A windows prefix component does not occur.

`p.starts_with(q)` is written `q <+: p`, `p.join(q)` is `p ++ q` and `p.parent()`
is `p.dropLast`; the empty path is the sync root itself.
-/

namespace ByteHive

/-- `std::path::Component` of a relative or absolute path. -/
inductive Component where
  | rootDir
  | curDir
  | parentDir
  | normal (name : String)
deriving DecidableEq, Repr

namespace Component

/-- The derived order of `Component`: by variant, and normal components by name. -/
def key : Component → ℕ ×ₗ String
  | .rootDir => toLex (0, "")
  | .curDir => toLex (1, "")
  | .parentDir => toLex (2, "")
  | .normal name => toLex (3, name)

theorem key_injective : Function.Injective key := by
  intro a b h
  cases a <;> cases b <;> simp_all [key]

instance : LinearOrder Component := LinearOrder.lift' key key_injective

end Component

/-- A path as the sequence of its components. -/
abbrev PathBuf := List Component

instance : LawfulBEq PathBuf := inferInstance

/-- A path of plain names. -/
def PathBuf.ofNames (names : List String) : PathBuf := names.map .normal

/-- `safe_relative`: only normal components. The empty path passes. -/
def safeRelative (p : PathBuf) : Bool :=
  p.all fun
    | .normal _ => true
    | _ => false

theorem safeRelative_iff {p : PathBuf} :
    safeRelative p = true ↔ ∀ c ∈ p, ∃ name, c = .normal name := by
  rw [safeRelative, List.all_eq_true]
  refine forall₂_congr fun c _ => ?_
  cases c <;> simp

theorem safeRelative_append {p q : PathBuf} :
    safeRelative (p ++ q) = true ↔ safeRelative p = true ∧ safeRelative q = true := by
  simp [safeRelative, List.all_append]

theorem safeRelative_of_below {p q : PathBuf} (hq : q <+: p) (hp : safeRelative p = true) :
    safeRelative q = true := by
  obtain ⟨r, rfl⟩ := hq
  exact (safeRelative_append.mp hp).1

/-- `Path::ancestors` up to the root, nearest first, without the empty path. -/
def ancestors (p : PathBuf) : List PathBuf := p.inits.tail.reverse

theorem mem_ancestors {p q : PathBuf} : q ∈ ancestors p ↔ q ≠ [] ∧ q <+: p := by
  cases p with
  | nil => simp [ancestors]
  | cons c p =>
    simp only [ancestors, List.inits_cons, List.tail_cons, List.mem_reverse, List.mem_map,
      List.mem_inits]
    constructor
    · rintro ⟨r, hr, rfl⟩
      exact ⟨by simp, by simpa using hr⟩
    · rintro ⟨hne, hq⟩
      cases q with
      | nil => exact absurd rfl hne
      | cons d r =>
        obtain ⟨rfl, hr⟩ := List.cons_prefix_cons.mp hq
        exact ⟨r, hr, rfl⟩

end ByteHive
