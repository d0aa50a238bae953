import ByteHive.ForStd.Run

/-!
# What has happened since

`Since P Q` says of a run that some step of it was one with `P`, and that none after it was one
with `Q`: something was given and has not been taken back.
-/

universe u v

namespace Run

variable {σ : Type u} {α : Type v} {step : σ → α → Option σ}
variable {P : σ → α → Prop} {Q : α → Prop} {s t : σ} {as : List α} {b : α}

/-- Some step has had `P`, and no later one `Q`. -/
def Since (step : σ → α → Option σ) (P : σ → α → Prop) (Q : α → Prop) (s : σ) (as : List α) :
    Prop :=
  ∃ pre a post t, as = pre ++ a :: post ∧ runFrom step s pre = some t ∧ P t a ∧ ∀ b ∈ post, ¬Q b

theorem not_since_nil : ¬Since step P Q s [] := by
  rintro ⟨pre, a, post, t, has, -⟩
  simp at has

/-- One more step. -/
theorem since_concat (h : runFrom step s as = some t) :
    Since step P Q s (as ++ [b]) ↔ P t b ∨ (Since step P Q s as ∧ ¬Q b) := by
  constructor
  · rintro ⟨pre, a, post, t', has, hrun, hP, hQ⟩
    -- The step in question is the last one or an earlier one.
    rcases List.eq_nil_or_concat post with rfl | ⟨post, c, rfl⟩
    · obtain ⟨rfl, hab⟩ := List.append_inj' has rfl
      obtain rfl : b = a := by simpa using hab
      obtain rfl : t = t' := Option.some.inj (h.symm.trans hrun)
      exact .inl hP
    · have has : as ++ [b] = (pre ++ a :: post) ++ [c] := by simpa using has
      obtain ⟨rfl, hbc⟩ := List.append_inj' has rfl
      obtain rfl : b = c := by simpa using hbc
      exact .inr ⟨⟨pre, a, post, t', rfl, hrun, hP, fun d hd => hQ d (by simp [hd])⟩,
        hQ b (by simp)⟩
  · rintro (hP | ⟨⟨pre, a, post, t', rfl, hrun, hP, hQ⟩, hb⟩)
    · exact ⟨as, b, [], t, rfl, h, hP, by simp⟩
    · refine ⟨pre, a, post ++ [b], t', by simp, hrun, hP, fun d hd => ?_⟩
      rcases List.mem_append.mp hd with hd | hd
      · exact hQ d hd
      · rw [List.mem_singleton.mp hd]
        exact hb

/-- A run with one more step. -/
theorem runFrom_concat {s' : σ} :
    runFrom step s (as ++ [b]) = some s' ↔ ∃ t, runFrom step s as = some t ∧ step t b = some s' := by
  rw [runFrom_append]
  constructor
  · rintro ⟨t, ht, hb⟩
    obtain ⟨u, hu, hs⟩ := runFrom_cons.mp hb
    cases hs
    exact ⟨t, ht, hu⟩
  · rintro ⟨t, ht, hb⟩
    exact ⟨t, ht, runFrom_cons.mpr ⟨s', hb, rfl⟩⟩

/-- The items that the steps of a run give out. -/
def given {ι : Type*} (step : σ → α → Option σ) (gives : σ → α → List ι) : σ → List α → List ι
  | _, [] => []
  | s, a :: as => gives s a ++ (step s a).elim [] fun t => given step gives t as

theorem given_concat {ι : Type*} {gives : σ → α → List ι} (h : runFrom step s as = some t) :
    given step gives s (as ++ [b]) = given step gives s as ++ gives t b := by
  induction as generalizing s with
  | nil =>
    obtain rfl : s = t := Option.some.inj h
    rw [List.nil_append, given, given, List.nil_append]
    cases step s b <;> exact List.append_nil _
  | cons a as ih =>
    obtain ⟨u, hu, hrest⟩ := runFrom_cons.mp h
    simp only [List.cons_append, given, hu, Option.elim_some]
    rw [ih hrest, List.append_assoc]

/-- What has been given out since is among what has been given out. -/
theorem mem_given_of_since {ι : Type*} {gives : σ → α → List ι} {i : ι}
    (h : Since step (fun s a => i ∈ gives s a) Q s as) : i ∈ given step gives s as := by
  obtain ⟨pre, a, post, u, rfl, hpre, hi, -⟩ := h
  induction pre generalizing s with
  | nil =>
    cases hpre
    simp only [List.nil_append, given]
    exact List.mem_append_left _ hi
  | cons b pre ih =>
    obtain ⟨v, hv, hrest⟩ := runFrom_cons.mp hpre
    simp only [List.cons_append, given, hv, Option.elim_some]
    exact List.mem_append_right _ (ih hrest)

end Run
