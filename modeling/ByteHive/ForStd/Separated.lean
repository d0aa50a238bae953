import Mathlib.Data.List.Basic
import Mathlib.Data.List.Induction

/-!
# Separated events

A log is a list of events, the last one first. `Separated p q` says that between two events
with `p` there is one with `q`, and `Cleared p q` that one with `q` has followed every one
with `p`. A new event with `p` keeps a log separated exactly if the log is cleared.
-/

universe u

namespace List

variable {α : Type u} {p q : α → Prop} {a : α} {l l' : List α}

/-- Between two events with `p` there is one with `q`. -/
def Separated (p q : α → Prop) (l : List α) : Prop :=
  ∀ newer x between y older, l = newer ++ x :: (between ++ y :: older) → p x → p y →
    ∃ z ∈ between, q z

/-- Every event with `p` was followed by one with `q`. -/
def Cleared (p q : α → Prop) (l : List α) : Prop :=
  ∀ newer y older, l = newer ++ y :: older → p y → ∃ z ∈ newer, q z

theorem separated_nil : Separated p q [] := by
  intro newer x between y older h
  exact absurd h.symm (append_ne_nil_of_right_ne_nil _ (cons_ne_nil _ _))

theorem cleared_nil : Cleared p q [] := by
  intro newer y older h
  exact absurd h.symm (append_ne_nil_of_right_ne_nil _ (cons_ne_nil _ _))

theorem separated_cons : Separated p q (a :: l) ↔ Separated p q l ∧ (p a → Cleared p q l) := by
  constructor
  · intro h
    constructor
    · intro newer x between y older hl
      exact h (a :: newer) x between y older (by rw [hl, cons_append])
    · intro ha between y older hl hy
      exact h [] a between y older (by rw [hl, nil_append]) ha hy
  · intro h newer x between y older hl hx hy
    cases newer with
    | nil =>
      obtain ⟨rfl, htail⟩ := cons.inj hl
      exact h.2 hx between y older htail hy
    | cons b newer => exact h.1 newer x between y older (cons.inj hl).2 hx hy

theorem cleared_cons : Cleared p q (a :: l) ↔ ¬p a ∧ (q a ∨ Cleared p q l) := by
  constructor
  · intro h
    constructor
    · intro ha
      obtain ⟨z, hz, -⟩ := h [] a l rfl ha
      cases hz
    · by_cases hq : q a
      · exact .inl hq
      · right
        intro newer y older hl hy
        obtain ⟨z, hz, hqz⟩ := h (a :: newer) y older (by rw [hl, cons_append]) hy
        cases mem_cons.mp hz with
        | inl heq => exact absurd (heq ▸ hqz) hq
        | inr hmem => exact ⟨z, hmem, hqz⟩
  · intro h newer y older hl hy
    cases newer with
    | nil =>
      obtain ⟨rfl, -⟩ := cons.inj hl
      exact absurd hy h.1
    | cons b newer =>
      obtain ⟨rfl, htail⟩ := cons.inj hl
      cases h.2 with
      | inl hq => exact ⟨a, mem_cons_self, hq⟩
      | inr hcleared =>
        obtain ⟨z, hz, hqz⟩ := hcleared newer y older htail hy
        exact ⟨z, mem_cons_of_mem a hz, hqz⟩

/-- New events without `p` do not touch a log's separation. -/
theorem separated_append (h : ∀ b ∈ l, ¬p b) : Separated p q (l ++ l') ↔ Separated p q l' := by
  induction l with
  | nil => rfl
  | cons b l ih =>
    rw [cons_append, separated_cons, ih fun c hc => h c (mem_cons_of_mem b hc)]
    exact and_iff_left fun hb => absurd hb (h b mem_cons_self)

theorem cleared_append (h : ∀ b ∈ l, ¬p b) :
    Cleared p q (l ++ l') ↔ (∃ b ∈ l, q b) ∨ Cleared p q l' := by
  induction l with
  | nil => simp
  | cons b l ih =>
    rw [cons_append, cleared_cons, ih fun c hc => h c (mem_cons_of_mem b hc)]
    simp only [mem_cons, exists_eq_or_imp, or_assoc]
    exact and_iff_right (h b mem_cons_self)

/-- A log is cleared exactly if the last event that matters is none with `p`. -/
theorem cleared_iff_find? {r : α → Bool} (hr : ∀ b, r b = true ↔ p b ∨ q b) :
    Cleared p q l ↔ ∀ b, l.find? r = some b → ¬p b := by
  induction l with
  | nil =>
    constructor
    · intro _ b hb
      cases hb
    · intro _
      exact cleared_nil
  | cons b l ih =>
    rw [cleared_cons, ih]
    by_cases hb : r b = true
    · rw [find?_cons_of_pos hb]
      constructor
      · intro h c hc
        obtain rfl : b = c := Option.some.inj hc
        exact h.1
      · intro h
        exact ⟨h b rfl, .inl (((hr b).mp hb).resolve_left (h b rfl))⟩
    · rw [find?_cons_of_neg hb]
      have hnone : ¬(p b ∨ q b) := fun h => hb ((hr b).mpr h)
      constructor
      · intro h
        exact h.2.resolve_left fun hq => hnone (.inr hq)
      · intro h
        exact ⟨fun hp => hnone (.inl hp), .inr h⟩

/-! ## A place in a list -/

/-- Some element of the list has `c`, which may look at the elements before it. -/
def AtSome (c : List α → α → Prop) (l : List α) : Prop :=
  ∃ before a after, l = before ++ a :: after ∧ c before a

theorem not_atSome_nil (c : List α → α → Prop) : ¬AtSome c [] := by
  intro h
  obtain ⟨before, a, after, hl, -⟩ := h
  exact append_ne_nil_of_right_ne_nil _ (cons_ne_nil _ _) hl.symm

theorem atSome_concat {c : List α → α → Prop} :
    AtSome c (l ++ [a]) ↔ AtSome c l ∨ c l a := by
  constructor
  · intro h
    obtain ⟨before, b, after, hl, hb⟩ := h
    cases after using List.reverseRecOn with
    | nil =>
      obtain ⟨rfl, htail⟩ := append_inj' hl rfl
      obtain rfl := (cons.inj htail).1
      exact .inr hb
    | append_singleton after z _ =>
      have hl' : l ++ [a] = (before ++ b :: after) ++ [z] := by rw [hl, append_assoc, cons_append]
      obtain ⟨rfl, -⟩ := append_inj' hl' rfl
      exact .inl ⟨before, b, after, rfl, hb⟩
  · intro h
    rcases h with ⟨before, b, after, rfl, hb⟩ | ha
    · exact ⟨before, b, after ++ [a], by rw [append_assoc, cons_append], hb⟩
    · exact ⟨l, a, [], rfl, ha⟩

end List
