import Mathlib.Data.List.Infix

/-!
# Runs of a guarded step function

A system is a step function `step : σ → α → Option σ`: an event that is not possible
in a state gives `none`. A run is a list of events, each possible where it occurs.

`Always P` says that a property holds in every state of a run, `StepsMeet c` that
every step of the run is taken in a state where `c` holds. `always_iff_stepsMeet`
turns an exact condition for one step to keep a property into an exact condition for
whole runs.
-/

universe u v

namespace Run

variable {σ : Type u} {α : Type v} (step : σ → α → Option σ)

/-- The state after the events, `none` when one of them is not possible. -/
def runFrom (s : σ) : List α → Option σ
  | [] => some s
  | a :: as => (step s a).bind fun s' => runFrom s' as

/-- `P` holds in every state of the run, the first one included. -/
def Always (P : σ → Prop) (s : σ) (as : List α) : Prop :=
  ∀ bs s', bs <+: as → runFrom step s bs = some s' → P s'

/-- Every step of the run is taken in a state where `c` holds for it. -/
def StepsMeet (c : σ → α → Prop) (s : σ) (as : List α) : Prop :=
  ∀ bs a s', bs ++ [a] <+: as → runFrom step s bs = some s' → c s' a

variable {step}

@[simp] theorem runFrom_nil (s : σ) : runFrom step s [] = some s := rfl

theorem runFrom_cons {s s' : σ} {a : α} {as : List α} :
    runFrom step s (a :: as) = some s' ↔
      ∃ t, step s a = some t ∧ runFrom step t as = some s' := by
  rw [runFrom, Option.bind_eq_some_iff]

theorem runFrom_append {s s' : σ} {as bs : List α} :
    runFrom step s (as ++ bs) = some s' ↔
      ∃ t, runFrom step s as = some t ∧ runFrom step t bs = some s' := by
  induction as generalizing s with
  | nil => simp
  | cons a as ih =>
    rw [List.cons_append, runFrom_cons]
    simp only [ih, runFrom_cons]
    constructor
    · rintro ⟨t, ht, u, hu, hs⟩
      exact ⟨u, ⟨t, ht, hu⟩, hs⟩
    · rintro ⟨u, ⟨t, ht, hu⟩, hs⟩
      exact ⟨t, ht, u, hu, hs⟩

/-- Where every event is always possible, every list of events is a run. -/
theorem exists_runFrom (hstep : ∀ s a, ∃ s', step s a = some s') (s : σ) (as : List α) :
    ∃ s', runFrom step s as = some s' := by
  induction as generalizing s with
  | nil => exact ⟨s, rfl⟩
  | cons a as ih =>
    obtain ⟨t, ht⟩ := hstep s a
    obtain ⟨s', hs'⟩ := ih t
    exact ⟨s', runFrom_cons.mpr ⟨t, ht, hs'⟩⟩

/-- A property that every step keeps holds after every run. -/
theorem runFrom_invariant {P : σ → Prop}
    (hstep : ∀ s a s', P s → step s a = some s' → P s') {s s' : σ} {as : List α}
    (hs : P s) (h : runFrom step s as = some s') : P s' := by
  induction as generalizing s with
  | nil =>
    obtain rfl : s = s' := Option.some.inj h
    exact hs
  | cons a as ih =>
    obtain ⟨t, ht, hrest⟩ := runFrom_cons.mp h
    exact ih (hstep s a t hs ht) hrest

theorem always_cons {P : σ → Prop} {s t : σ} {a : α} {as : List α} (ht : step s a = some t) :
    Always step P s (a :: as) ↔ P s ∧ Always step P t as := by
  constructor
  · intro h
    refine ⟨h [] s (List.nil_prefix) rfl, fun bs u hb hu => ?_⟩
    exact h (a :: bs) u (by simpa using hb) (runFrom_cons.mpr ⟨t, ht, hu⟩)
  · rintro ⟨hs, h⟩ bs u hb hu
    cases bs with
    | nil =>
      obtain rfl : s = u := Option.some.inj hu
      exact hs
    | cons b bs =>
      obtain ⟨rfl, hbs⟩ := List.cons_prefix_cons.mp hb
      obtain ⟨t', ht', hrest⟩ := runFrom_cons.mp hu
      obtain rfl : t = t' := Option.some.inj (ht.symm.trans ht')
      exact h bs u hbs hrest

theorem stepsMeet_cons {c : σ → α → Prop} {s t : σ} {a : α} {as : List α}
    (ht : step s a = some t) :
    StepsMeet step c s (a :: as) ↔ c s a ∧ StepsMeet step c t as := by
  constructor
  · intro h
    refine ⟨h [] a s (by simp) rfl, fun bs b u hb hu => ?_⟩
    exact h (a :: bs) b u (by simpa using hb) (runFrom_cons.mpr ⟨t, ht, hu⟩)
  · rintro ⟨hs, h⟩ bs b u hb hu
    cases bs with
    | nil =>
      obtain rfl : s = u := Option.some.inj hu
      obtain ⟨rfl, -⟩ := List.cons_prefix_cons.mp hb
      exact hs
    | cons b' bs =>
      obtain ⟨rfl, hbs⟩ := List.cons_prefix_cons.mp hb
      obtain ⟨t', ht', hrest⟩ := runFrom_cons.mp hu
      obtain rfl : t = t' := Option.some.inj (ht.symm.trans ht')
      exact h bs b u hbs hrest

/-- A check of `StepsMeet` that follows the run. -/
def meets (step : σ → α → Option σ) (c : σ → α → Prop) [∀ s a, Decidable (c s a)] (s : σ) :
    List α → Bool
  | [] => true
  | a :: as =>
    decide (c s a) &&
      match step s a with
      | none => true
      | some t => meets step c t as

theorem stepsMeet_of_meets {c : σ → α → Prop} [∀ s a, Decidable (c s a)] {s : σ} {as : List α}
    (h : meets step c s as = true) : StepsMeet step c s as := by
  induction as generalizing s with
  | nil => intro bs a s' hpre; simp at hpre
  | cons a as ih =>
    rw [meets, Bool.and_eq_true, decide_eq_true_eq] at h
    cases hstep : step s a with
    | none =>
      intro bs b s' hpre hrun
      cases bs with
      | nil =>
        obtain rfl : s = s' := Option.some.inj hrun
        obtain ⟨rfl, -⟩ := List.cons_prefix_cons.mp hpre
        exact h.1
      | cons b' bs =>
        obtain ⟨rfl, -⟩ := List.cons_prefix_cons.mp hpre
        obtain ⟨t, ht, -⟩ := runFrom_cons.mp hrun
        exact absurd (hstep.symm.trans ht) (by simp)
    | some t =>
      simp only [hstep] at h
      exact (stepsMeet_cons hstep).mpr ⟨h.1, ih h.2⟩

/-- Conditions that agree in the states of an invariant are met by the same runs. -/
theorem stepsMeet_congr {I : σ → Prop} {c d : σ → α → Prop}
    (hI : ∀ s a s', I s → step s a = some s' → I s') (hcd : ∀ s a, I s → (c s a ↔ d s a))
    {s : σ} (hs : I s) (as : List α) : StepsMeet step c s as ↔ StepsMeet step d s as := by
  constructor
  · intro h bs a s' hpre hrun
    exact (hcd s' a (runFrom_invariant hI hs hrun)).mp (h bs a s' hpre hrun)
  · intro h bs a s' hpre hrun
    exact (hcd s' a (runFrom_invariant hI hs hrun)).mpr (h bs a s' hpre hrun)

/-- A property that every step meeting `c` keeps holds throughout every run whose
    steps all meet `c`. -/
theorem always_of_stepsMeet {P : σ → Prop} {c : σ → α → Prop}
    (hstep : ∀ s a s', P s → c s a → step s a = some s' → P s') {s s' : σ} {as : List α}
    (hs : P s) (hc : StepsMeet step c s as) (h : runFrom step s as = some s') :
    Always step P s as := by
  induction as generalizing s with
  | nil =>
    intro bs u hb hu
    obtain rfl := List.prefix_nil.mp hb
    obtain rfl : s = u := Option.some.inj hu
    exact hs
  | cons a as ih =>
    obtain ⟨t, ht, hrest⟩ := runFrom_cons.mp h
    obtain ⟨hca, hmeet⟩ := (stepsMeet_cons ht).mp hc
    exact (always_cons ht).mpr ⟨hs, ih (hstep s a t hs hca ht) hmeet hrest⟩

/-- In a run whose steps all meet `g`: when, in states of the invariant `I`, such a step keeps `P`
    exactly if it meets `c`, and keeps `I` where it keeps `P`, the run keeps `P` throughout exactly
    if all its steps meet `c`. -/
theorem always_iff_stepsMeet_given {I P : σ → Prop} {g c : σ → α → Prop}
    (hI : ∀ s a s', I s → g s a → P s → P s' → step s a = some s' → I s')
    (hstep : ∀ s a s', I s → g s a → P s → step s a = some s' → (P s' ↔ c s a))
    {s s' : σ} {as : List α} (hs : I s) (hP : P s) (hg : StepsMeet step g s as)
    (h : runFrom step s as = some s') : Always step P s as ↔ StepsMeet step c s as := by
  induction as generalizing s with
  | nil =>
    constructor
    · intro _ bs a u hb
      simp at hb
    · intro _ bs u hb hu
      obtain rfl := List.prefix_nil.mp hb
      obtain rfl : s = u := Option.some.inj hu
      exact hP
  | cons a as ih =>
    obtain ⟨t, ht, hrest⟩ := runFrom_cons.mp h
    obtain ⟨hga, hgs⟩ := (stepsMeet_cons ht).mp hg
    rw [always_cons ht, stepsMeet_cons ht]
    have hkeep := hstep s a t hs hga hP ht
    constructor
    · rintro ⟨-, hal⟩
      have hPt : P t := hal [] t List.nil_prefix rfl
      exact ⟨hkeep.mp hPt, (ih (hI s a t hs hga hP hPt ht) hPt hgs hrest).mp hal⟩
    · rintro ⟨hc, hmeet⟩
      have hPt : P t := hkeep.mpr hc
      exact ⟨hP, (ih (hI s a t hs hga hP hPt ht) hPt hgs hrest).mpr hmeet⟩

/-- The same for every run. -/
theorem always_iff_stepsMeet_of_kept {I P : σ → Prop} {c : σ → α → Prop}
    (hI : ∀ s a s', I s → P s → P s' → step s a = some s' → I s')
    (hstep : ∀ s a s', I s → P s → step s a = some s' → (P s' ↔ c s a))
    {s s' : σ} {as : List α} (hs : I s) (hP : P s) (h : runFrom step s as = some s') :
    Always step P s as ↔ StepsMeet step c s as :=
  always_iff_stepsMeet_given (g := fun _ _ => True) (fun s a s' hs _ => hI s a s' hs)
    (fun s a s' hs _ => hstep s a s' hs) hs hP (fun _ _ _ _ _ => trivial) h

/-- The same for an invariant that every step keeps. -/
theorem always_iff_stepsMeet {I P : σ → Prop} {c : σ → α → Prop}
    (hI : ∀ s a s', I s → step s a = some s' → I s')
    (hstep : ∀ s a s', I s → P s → step s a = some s' → (P s' ↔ c s a))
    {s s' : σ} {as : List α} (hs : I s) (hP : P s) (h : runFrom step s as = some s') :
    Always step P s as ↔ StepsMeet step c s as :=
  always_iff_stepsMeet_of_kept (fun s a s' hs _ _ ht => hI s a s' hs ht) hstep hs hP h

/-- When, in states of the invariant `I`, a step establishes `P` exactly if `P` held before and
    the step meets `c`, a run that starts with `P` ends with it exactly if all its steps meet
    `c`. -/
theorem final_iff_stepsMeet {I P : σ → Prop} {K : α → Prop} {c : σ → α → Prop}
    (hstep : ∀ s a s', K a → I s → step s a = some s' → I s' ∧ (P s' ↔ P s ∧ c s a))
    {s s' : σ} {as : List α} (hK : ∀ a ∈ as, K a) (hs : I s)
    (h : runFrom step s as = some s') : I s' ∧ (P s' ↔ P s ∧ StepsMeet step c s as) := by
  induction as generalizing s with
  | nil =>
    obtain rfl : s = s' := Option.some.inj h
    have hnone : StepsMeet step c s [] := fun bs a u hb => by simp at hb
    exact ⟨hs, fun hP => ⟨hP, hnone⟩, fun hP => hP.1⟩
  | cons a as ih =>
    obtain ⟨t, ht, hrest⟩ := runFrom_cons.mp h
    obtain ⟨hI, hkeep⟩ := hstep s a t (hK a (by simp)) hs ht
    obtain ⟨hI', hfinal⟩ := ih (fun b hb => hK b (by simp [hb])) hI hrest
    rw [stepsMeet_cons ht, hfinal, hkeep, and_assoc]
    exact ⟨hI', Iff.rfl⟩

end Run
