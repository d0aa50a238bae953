import Mathlib.Logic.Function.Basic

/-!
# A cell that is written back

A value in memory is written back to a file by anyone who has changed it: who has changed it
owes a write, takes a copy later and writes the copy still later. Others may change the value
in between, and each of them owes a write of its own. One at a time may hold a copy.

`Coherent` is what every move keeps, and when nobody owes or holds anything the file has the
value of the memory.
-/

universe u v

namespace WriteBack

variable {ι : Type u} {α : Type v}

/-- Where someone stands. -/
inductive Phase (α : Type v) where
  | clean
  /-- A change of theirs may not be written yet, and they have still to take their copy. -/
  | owes
  | copied (a : α)
deriving DecidableEq

structure Cell (ι : Type u) (α : Type v) where
  mem : α
  file : α
  phase : ι → Phase α

/-- One copy at most; and unless someone still owes one, the copy is the value, and where there is
    none the file has the value. -/
structure Coherent (c : Cell ι α) : Prop where
  one : ∀ i j a b, c.phase i = .copied a → c.phase j = .copied b → i = j
  current : (∃ i, c.phase i = .owes) ∨
    (∀ i a, c.phase i = .copied a → a = c.mem) ∧
      ((∀ i a, c.phase i ≠ .copied a) → c.file = c.mem)

variable {c c' : Cell ι α} {i : ι}

theorem coherent_clean {a : α} : Coherent (⟨a, a, fun _ => .clean⟩ : Cell ι α) := by
  constructor
  · intro i j a b h
    cases h
  · right
    constructor
    · intro i a h
      cases h
    · intro _
      rfl

/-- When everyone is done, the file has the value of the memory. -/
theorem Coherent.file_eq (hc : Coherent c) (h : ∀ i, c.phase i = .clean) : c.file = c.mem := by
  cases hc.current with
  | inl howes =>
    obtain ⟨i, hi⟩ := howes
    rw [h i] at hi
    cases hi
  | inr hcurrent =>
    apply hcurrent.2
    intro i a hi
    rw [h i] at hi
    cases hi

variable [DecidableEq ι]

/-- The moves of `i`. -/
inductive Move (c : Cell ι α) (i : ι) : Cell ι α → Prop
  | stay : Move c i c
  | change (a : α) : Move c i ⟨a, c.file, Function.update c.phase i .owes⟩
  | copy (h : c.phase i = .owes) (hnone : ∀ j a, c.phase j ≠ .copied a) :
      Move c i ⟨c.mem, c.file, Function.update c.phase i (.copied c.mem)⟩
  | write {a : α} (h : c.phase i = .copied a) :
      Move c i ⟨c.mem, a, Function.update c.phase i .clean⟩

/-- A step that leaves `i` in the phase it is in. -/
theorem Move.stay_of {p : Phase α} (h : c.phase i = p) :
    Move c i ⟨c.mem, c.file, Function.update c.phase i p⟩ := by
  rw [← h, Function.update_eq_self]
  exact .stay

theorem Coherent.move (hc : Coherent c) (h : Move c i c') : Coherent c' := by
  cases h with
  | stay => exact hc
  | change a =>
    constructor
    · intro j k b d hj hk
      simp only [Function.update_apply] at hj hk
      split at hj
      · cases hj
      · split at hk
        · cases hk
        · exact hc.one j k b d hj hk
    · exact .inl ⟨i, Function.update_self i .owes c.phase⟩
  | copy h hnone =>
    constructor
    · intro j k b d hj hk
      simp only [Function.update_apply] at hj hk
      split at hj
      · next hji =>
        split at hk
        · next hki => rw [hji, hki]
        · exact absurd hk (hnone k d)
      · exact absurd hj (hnone j b)
    · by_cases howes : ∃ j, j ≠ i ∧ c.phase j = .owes
      · obtain ⟨j, hne, hj⟩ := howes
        exact .inl ⟨j, (Function.update_of_ne hne _ _).trans hj⟩
      · right
        constructor
        · intro j b hj
          simp only [Function.update_apply] at hj
          split at hj
          · cases hj
            rfl
          · exact absurd hj (hnone j b)
        · intro hcopied
          exact absurd (Function.update_self i _ c.phase) (hcopied i c.mem)
  | write h =>
    constructor
    · intro j k b d hj hk
      simp only [Function.update_apply] at hj hk
      split at hj
      · cases hj
      · split at hk
        · cases hk
        · exact hc.one j k b d hj hk
    · cases hc.current with
      | inl howes =>
        -- the one who owes is not the one who writes
        obtain ⟨j, hj⟩ := howes
        have hne : j ≠ i := by
          intro heq
          rw [heq, h] at hj
          cases hj
        exact .inl ⟨j, (Function.update_of_ne hne _ _).trans hj⟩
      | inr hcurrent =>
        right
        constructor
        · intro j b hj
          simp only [Function.update_apply] at hj
          split at hj
          · cases hj
          · next hne => exact absurd (hc.one j i b _ hj h) hne
        · intro _
          exact hcurrent.1 i _ h

end WriteBack
