import Mathlib.Logic.Basic

/-!
# The parts between separators

What holds of all parts of a list that is cut at a separator, the first one perhaps by a rule of its
own. The list is read from the left, and a part is gathered up to the next separator (`AllFrom`). A
mark that makes every part good can be put in anywhere, with as many separators as one likes
(`AllFrom.insert`).
-/

namespace SplitParts

variable {α : Type} [DecidableEq α] {sep mark : α} {good : Bool → List α → Prop}
variable {first first' : Bool} {part part' s x y : List α}

/-- The parts of the list are good; `part` comes before the first of them. -/
def AllFrom (sep : α) (good : Bool → List α → Prop) : Bool → List α → List α → Prop
  | first, part, [] => good first part
  | first, part, c :: s =>
    if c = sep then good first part ∧ AllFrom sep good false [] s
    else AllFrom sep good first (part ++ [c]) s

theorem allFrom_sep :
    AllFrom sep good first part (sep :: s) ↔ good first part ∧ AllFrom sep good false [] s := by
  rw [AllFrom, if_pos rfl]

theorem allFrom_cons {c : α} (hc : c ≠ sep) :
    AllFrom sep good first part (c :: s) ↔ AllFrom sep good first (part ++ [c]) s := by
  rw [AllFrom, if_neg hc]

/-- The parts, as they are cut. -/
theorem allFrom_iff :
    AllFrom sep good first part s ↔ ∃ p ps, s.splitOn sep = p :: ps ∧ good first (part ++ p) ∧
      ∀ q ∈ ps, good false q := by
  induction s generalizing first part with
  | nil =>
    constructor
    · intro h
      exact ⟨[], [], rfl, by rwa [List.append_nil], nofun⟩
    · intro ⟨p, ps, hsplit, hp, _⟩
      obtain ⟨rfl, rfl⟩ : p = [] ∧ ps = [] := by simpa [eq_comm] using hsplit
      rwa [List.append_nil] at hp
  | cons c s ih =>
    rw [List.splitOn_cons_eq_if_modifyHead]
    obtain rfl | hc := eq_or_ne c sep
    · rw [allFrom_sep, ih, if_pos (beq_self_eq_true c)]
      constructor
      · intro ⟨hpart, p, ps, hsplit, hp, hps⟩
        refine ⟨[], p :: ps, by rw [hsplit], by rwa [List.append_nil], ?_⟩
        exact List.forall_mem_cons.mpr ⟨hp, hps⟩
      · intro ⟨p, ps, hsplit, hp, hps⟩
        obtain ⟨rfl, rfl⟩ := List.cons.inj hsplit
        rw [List.append_nil] at hp
        obtain ⟨q, qs, hq⟩ := List.exists_cons_of_ne_nil (List.splitOn_ne_nil c s)
        rw [hq] at hps
        obtain ⟨hfirst, hrest⟩ := List.forall_mem_cons.mp hps
        exact ⟨hp, q, qs, hq, hfirst, hrest⟩
    · rw [allFrom_cons hc, ih, if_neg (by simpa using hc)]
      constructor
      · intro ⟨p, ps, hsplit, hp, hps⟩
        refine ⟨c :: p, ps, by rw [hsplit]; rfl, ?_, hps⟩
        rwa [List.append_assoc] at hp
      · intro ⟨p, ps, hsplit, hp, hps⟩
        obtain ⟨q, qs, hq⟩ := List.exists_cons_of_ne_nil (List.splitOn_ne_nil sep s)
        rw [hq] at hsplit
        obtain ⟨rfl, rfl⟩ := List.cons.inj hsplit
        refine ⟨q, qs, hq, ?_, hps⟩
        rwa [List.append_assoc]

theorem notMem_of_mem_splitOn {p : List α} (h : p ∈ s.splitOn sep) : sep ∉ p := by
  induction s generalizing p with
  | nil =>
    obtain rfl : p = [] := by simpa using h
    exact List.not_mem_nil
  | cons c s ih =>
    rw [List.splitOn_cons_eq_if_modifyHead] at h
    split at h
    · obtain rfl | h := List.mem_cons.mp h
      · exact List.not_mem_nil
      · exact ih h
    · next hc =>
      obtain ⟨q, qs, hq⟩ := List.exists_cons_of_ne_nil (List.splitOn_ne_nil sep s)
      rw [hq] at h ih
      obtain rfl | h := List.mem_cons.mp h
      · rw [List.mem_cons, not_or]
        exact ⟨fun heq => hc (by simp [heq]), ih List.mem_cons_self⟩
      · exact ih (List.mem_cons_of_mem _ h)

/-- The parts of what is behind `x`. -/
theorem AllFrom.of_append (h : AllFrom sep good first part (x ++ y)) :
    ∃ first' part', AllFrom sep good first' part' y := by
  induction x generalizing first part with
  | nil => exact ⟨first, part, h⟩
  | cons c x ih =>
    rw [List.cons_append, AllFrom] at h
    split at h
    · exact ih h.2
    · exact ih h

/-! ## Marks -/

/-- A mark, and this number of times a separator and another one. -/
def chain (sep mark : α) : Nat → List α
  | 0 => [mark]
  | m + 1 => mark :: sep :: chain sep mark m

omit [DecidableEq α] in
theorem eq_of_mem_chain {c : α} {m : Nat} (h : c ∈ chain sep mark m) : c = mark ∨ c = sep := by
  induction m with
  | zero => exact .inl (List.mem_singleton.mp h)
  | succ m ih =>
    obtain rfl | h := List.mem_cons.mp h
    · exact .inl rfl
    · obtain rfl | h := List.mem_cons.mp h
      · exact .inr rfl
      · exact ih h

theorem le_count_chain (sep mark : α) (m : Nat) : m ≤ (chain sep mark m).count sep := by
  induction m with
  | zero => exact Nat.zero_le _
  | succ m ih =>
    have hcons := (List.sublist_cons_self mark (sep :: chain sep mark m)).count_le sep
    rw [List.count_cons_self] at hcons
    show m + 1 ≤ (mark :: sep :: chain sep mark m).count sep
    omega

/-- The part at the beginning may be another one with a mark. -/
theorem AllFrom.of_mark (hgood : ∀ first p, mark ∈ p → good first p)
    (h : AllFrom sep good first part s) (hmark : mark ∈ part') :
    AllFrom sep good first' part' s := by
  induction s generalizing first part part' with
  | nil => exact hgood first' part' hmark
  | cons c s ih =>
    rw [AllFrom] at h ⊢
    split
    · next hc =>
      rw [if_pos hc] at h
      exact ⟨hgood first' part' hmark, h.2⟩
    · next hc =>
      rw [if_neg hc] at h
      exact ih h (List.mem_append_left _ hmark)

theorem AllFrom.chain (hsep : mark ≠ sep) (hgood : ∀ first p, mark ∈ p → good first p)
    (h : AllFrom sep good first part s) (m : Nat) :
    AllFrom sep good first' part' (chain sep mark m ++ s) := by
  have hmark : mark ∈ part' ++ [mark] := by simp
  induction m generalizing first' part' with
  | zero =>
    show AllFrom sep good first' part' (mark :: s)
    rw [allFrom_cons hsep]
    exact h.of_mark hgood hmark
  | succ m ih =>
    show AllFrom sep good first' part' (mark :: sep :: (SplitParts.chain sep mark m ++ s))
    rw [allFrom_cons hsep, allFrom_sep]
    exact ⟨hgood first' _ hmark, ih (by simp)⟩

theorem AllFrom.insert (hsep : mark ≠ sep) (hgood : ∀ first p, mark ∈ p → good first p)
    (h : AllFrom sep good first part (x ++ y)) (m : Nat) :
    AllFrom sep good first part (x ++ (SplitParts.chain sep mark m ++ y)) := by
  induction x generalizing first part with
  | nil => exact AllFrom.chain hsep hgood h m
  | cons c x ih =>
    rw [List.cons_append, AllFrom] at h ⊢
    split
    · next hc =>
      rw [if_pos hc] at h
      exact ⟨h.1, ih h.2⟩
    · next hc =>
      rw [if_neg hc] at h
      exact ih h

end SplitParts
