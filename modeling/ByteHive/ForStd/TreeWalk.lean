import ByteHive.ForStd.FileTree
import Mathlib.Order.Lattice.Nat

/-!
# Walks of a tree

`walk` lists what is below a path, a directory before what is in it, and leaves out what has a
skipped name on the way. The order of the names in a directory is given from outside. A walk that
collects no more than a number of results is one over the whole, cut off.
-/

universe u v

namespace FileTree

variable {κ : Type u} {β : Type v} [DecidableEq κ]

/-- `names` lists the names in each directory, each once. -/
structure Lists (t : FileTree κ β) (names : List κ → List κ) : Prop where
  nodup : ∀ p, (names p).Nodup
  mem_iff : ∀ p c, c ∈ names p ↔ (t.get (p ++ [c])).isSome = true

/-- The part of a walk that one name in `p` makes; `below` is the walk of a directory. -/
def walkName (below : List κ → List (List κ)) (skip : κ → Bool) (t : FileTree κ β) (p : List κ)
    (c : κ) : List (List κ) :=
  if skip c then []
  else (p ++ [c]) :: if t.isDir (p ++ [c]) then below (p ++ [c]) else []

/-- What is below `p`, down to `fuel` names. -/
def walk (names : List κ → List κ) (skip : κ → Bool) (t : FileTree κ β) :
    Nat → List κ → List (List κ)
  | 0, _ => []
  | fuel + 1, p => (names p).flatMap (walkName (walk names skip t fuel) skip t p)

/-- The length of the longest path in the tree. -/
def depth (t : FileTree κ β) : Nat := t.nodes.keys.sup List.length

omit [DecidableEq κ] in
theorem length_le_depth {t : FileTree κ β} {p : List κ} {n : FileNode β} (h : t.get p = some n) :
    p.length ≤ t.depth :=
  Finset.le_sup (f := List.length) (FinMap.mem_keys_of_get h)

variable {names : List κ → List κ} {skip : κ → Bool} {t : FileTree κ β}

theorem mem_walkName {below : List κ → List (List κ)} {p q : List κ} {c : κ} :
    q ∈ walkName below skip t p c ↔
      skip c = false ∧ (q = p ++ [c] ∨ (t.isDir (p ++ [c]) = true ∧ q ∈ below (p ++ [c]))) := by
  rw [walkName]
  cases skip c with
  | true => simp
  | false => cases t.isDir (p ++ [c]) <;> simp

theorem mem_walk_succ {fuel : Nat} {p q : List κ} :
    q ∈ walk names skip t (fuel + 1) p ↔
      ∃ c ∈ names p, skip c = false ∧ (q = p ++ [c] ∨
        (t.isDir (p ++ [c]) = true ∧ q ∈ walk names skip t fuel (p ++ [c]))) := by
  rw [walk, List.mem_flatMap]
  simp only [mem_walkName]

/-- Everything on a walk is below where it starts. -/
theorem prefix_of_mem_walk {fuel : Nat} {p q : List κ} (h : q ∈ walk names skip t fuel p) :
    p <+: q ∧ q ≠ p := by
  induction fuel generalizing p with
  | zero =>
    rw [walk] at h
    cases h
  | succ fuel ih =>
    have hchild : ∀ c, p <+: p ++ [c] := fun c => List.prefix_append p [c]
    obtain ⟨c, -, -, rfl | ⟨-, hq⟩⟩ := mem_walk_succ.mp h
    · exact ⟨hchild c, by simp⟩
    · obtain ⟨hpre, -⟩ := ih hq
      have hlen := hpre.length_le
      rw [List.length_append, List.length_singleton] at hlen
      refine ⟨(hchild c).trans hpre, fun heq => ?_⟩
      rw [heq] at hlen
      omega

/-- A walk finds every entry that has no skipped name on the way and is not too deep. -/
theorem mem_walk (hl : t.Lists names) {fuel : Nat} {p q : List κ} :
    q ∈ walk names skip t fuel p ↔
      ∃ r, r ≠ [] ∧ r.length ≤ fuel ∧ q = p ++ r ∧ (t.get q).isSome = true ∧
        ∀ c ∈ r, skip c = false := by
  induction fuel generalizing p with
  | zero =>
    rw [walk]
    constructor
    · intro h
      cases h
    · rintro ⟨r, hne, hlen, -⟩
      exact absurd (List.length_eq_zero_iff.mp (by omega)) hne
  | succ fuel ih =>
    rw [mem_walk_succ]
    constructor
    · rintro ⟨c, hc, hskip, rfl | ⟨-, hq⟩⟩
      · exact ⟨[c], by simp, by simp, rfl, (hl.mem_iff p c).mp hc, by simpa using hskip⟩
      · obtain ⟨r, -, hlen, rfl, hsome, hr⟩ := ih.mp hq
        refine ⟨c :: r, by simp, by simpa using hlen, by simp, hsome, ?_⟩
        simpa [hskip] using hr
    · rintro ⟨r, hne, hlen, rfl, hsome, hr⟩
      cases r with
      | nil => exact absurd rfl hne
      | cons c r =>
        have hassoc : p ++ c :: r = p ++ [c] ++ r := by simp
        obtain ⟨n, hn⟩ := Option.isSome_iff_exists.mp hsome
        -- The child is there, since it is the entry itself or on the way to it.
        by_cases hlast : r = []
        · subst hlast
          exact ⟨c, (hl.mem_iff p c).mpr hsome, hr c (by simp), .inl rfl⟩
        · have hpre : p ++ [c] <+: p ++ c :: r := by
            rw [hassoc]
            exact List.prefix_append _ _
          have hdir : t.isDir (p ++ [c]) = true := by
            refine t.isDir_of_prefix hn hpre fun heq => hlast ?_
            rw [hassoc] at heq
            simpa using heq
          have hchild : (t.get (p ++ [c])).isSome = true := by
            rw [isDir_concat, Option.any_eq_true] at hdir
            obtain ⟨d, hd, -⟩ := hdir
            rw [hd]
            rfl
          refine ⟨c, (hl.mem_iff p c).mpr hchild, hr c (by simp), .inr ⟨hdir, ?_⟩⟩
          refine ih.mpr ⟨r, hlast, ?_, hassoc, hsome, fun d hd => hr d (by simp [hd])⟩
          simp only [List.length_cons] at hlen
          omega

theorem prefix_of_mem_walkName {fuel : Nat} {p q : List κ} {c : κ}
    (h : q ∈ walkName (walk names skip t fuel) skip t p c) : p ++ [c] <+: q := by
  obtain ⟨-, rfl | ⟨-, hq⟩⟩ := mem_walkName.mp h
  · exact List.prefix_refl _
  · exact (prefix_of_mem_walk hq).1

/-- What comes later on a walk is not above what comes before it, and nothing comes twice. -/
theorem pairwise_walk (hl : t.Lists names) (fuel : Nat) (p : List κ) :
    (walk names skip t fuel p).Pairwise fun q q' => ¬q' <+: q := by
  induction fuel generalizing p with
  | zero =>
    rw [walk]
    exact List.Pairwise.nil
  | succ fuel ih =>
    rw [walk, List.pairwise_flatMap]
    constructor
    · intro c _
      rw [walkName]
      split
      · exact List.Pairwise.nil
      · apply List.pairwise_cons.mpr
        split
        · refine ⟨fun q hq hpre => ?_, ih (p ++ [c])⟩
          obtain ⟨hbelow, hne⟩ := prefix_of_mem_walk hq
          exact hne (hpre.eq_of_length_le hbelow.length_le)
        · simp
    · -- What different names make is not above each other.
      refine (hl.nodup p).imp ?_
      intro c d hne q hq q' hq' hpre
      have hc := prefix_of_mem_walkName hq
      have hd := (prefix_of_mem_walkName hq').trans hpre
      have heq : p ++ [c] = p ++ [d] :=
        (List.prefix_of_prefix_length_le hc hd (by simp)).eq_of_length (by simp)
      exact hne (by simpa using heq)

theorem nodup_walk (hl : t.Lists names) (fuel : Nat) (p : List κ) :
    (walk names skip t fuel p).Nodup := by
  refine (pairwise_walk hl fuel p).imp ?_
  intro q q' hnot heq
  apply hnot
  rw [heq]

end FileTree

/-- Cutting off twice is cutting off once. -/
theorem List.take_append_take {α : Type u} (n : Nat) (as bs : List α) :
    ((as.take n) ++ bs).take n = (as ++ bs).take n := by
  rw [List.take_append, List.take_append, List.take_take, Nat.min_self, List.length_take]
  congr 2
  omega
