import Mathlib.Data.List.MinMax

/-!
# Two stamps of which the newer one counts

An item carries the newest stamp that made it live and the newest one that made it dead,
`⊥` where there is none. The dead stamp shows only while it is newer than the live one.

Joining takes the newer stamp on both sides. Forgetting a dead stamp that does not show is
harmless: `visible_sup_visible` says that the join shows the same. `cut` forgets every
stamp below a threshold and goes through joins as well.
-/

universe u

namespace LwwPair

variable {ι : Type u} [LinearOrder ι]

/-- The live stamp, and the dead one where it is newer. -/
def visible (x : WithBot ι × WithBot ι) : WithBot ι × WithBot ι :=
  (x.1, if x.1 < x.2 then x.2 else ⊥)

theorem visible_of_lt {x : WithBot ι × WithBot ι} (h : x.2 = ⊥ ∨ x.1 < x.2) : visible x = x := by
  unfold visible
  rcases h with h | h
  · rw [h, if_neg not_lt_bot, ← h]
  · rw [if_pos h]

theorem visible_sup_visible (x y : WithBot ι × WithBot ι) :
    visible (visible x ⊔ y) = visible (x ⊔ y) := by
  by_cases hx : x.1 < x.2
  · rw [visible_of_lt (.inr hx)]
  · -- The forgotten stamp is below the live one, so it decides nothing.
    have hle : x.2 ≤ x.1 ⊔ y.1 := (not_lt.mp hx).trans le_sup_left
    have hx' : visible x = (x.1, ⊥) := by rw [visible, if_neg hx]
    rw [hx']
    refine Prod.ext rfl ?_
    show (if x.1 ⊔ y.1 < ⊥ ⊔ y.2 then ⊥ ⊔ y.2 else ⊥) =
      if x.1 ⊔ y.1 < x.2 ⊔ y.2 then x.2 ⊔ y.2 else ⊥
    rw [bot_sup_eq]
    by_cases hy : x.1 ⊔ y.1 < y.2
    · rw [if_pos hy, if_pos (hy.trans_le le_sup_right), sup_eq_right.mpr (hle.trans hy.le)]
    · rw [if_neg hy, if_neg (not_lt.mpr (sup_le hle (not_lt.mp hy)))]

theorem visible_sup_visible_right (x y : WithBot ι × WithBot ι) :
    visible (x ⊔ visible y) = visible (x ⊔ y) := by
  rw [sup_comm, visible_sup_visible, sup_comm]

theorem visible_visible (x : WithBot ι × WithBot ι) : visible (visible x) = visible x := by
  have h := visible_sup_visible x ⊥
  rwa [sup_bot_eq, sup_bot_eq] at h

/-! ## Forgetting old stamps -/

/-- Keep a stamp that satisfies `keep`. -/
def cut (keep : ι → Bool) (a : WithBot ι) : WithBot ι :=
  WithBot.recBotCoe ⊥ (fun i => if keep i then (i : WithBot ι) else ⊥) a

def cutBoth (keep : ι → Bool) (x : WithBot ι × WithBot ι) : WithBot ι × WithBot ι :=
  (cut keep x.1, cut keep x.2)

omit [LinearOrder ι] in
@[simp] theorem cut_bot (keep : ι → Bool) : cut keep ⊥ = ⊥ := rfl

omit [LinearOrder ι] in
@[simp] theorem cut_coe (keep : ι → Bool) (i : ι) :
    cut keep (i : WithBot ι) = if keep i then (i : WithBot ι) else ⊥ := rfl

omit [LinearOrder ι] in
theorem cut_cut (keep : ι → Bool) (a : WithBot ι) : cut keep (cut keep a) = cut keep a := by
  induction a with
  | bot => rfl
  | coe i => by_cases h : keep i = true <;> simp [h]

theorem cut_le (keep : ι → Bool) (a : WithBot ι) : cut keep a ≤ a := by
  induction a with
  | bot => exact le_rfl
  | coe i =>
    rw [cut_coe]
    split
    · exact le_rfl
    · exact bot_le

section

variable {keep : ι → Bool} (hkeep : ∀ i j, i ≤ j → keep i = true → keep j = true)

include hkeep

theorem cut_mono {a b : WithBot ι} (h : a ≤ b) : cut keep a ≤ cut keep b := by
  induction a with
  | bot => exact bot_le
  | coe i =>
    induction b with
    | bot => exact absurd h (by simp)
    | coe j =>
      have hij : i ≤ j := WithBot.coe_le_coe.mp h
      by_cases hi : keep i = true
      · simpa [hi, hkeep i j hij hi] using hij
      · simp [hi]

theorem cut_sup (a b : WithBot ι) : cut keep (a ⊔ b) = cut keep a ⊔ cut keep b := by
  rcases le_total a b with h | h
  · rw [sup_eq_right.mpr h, sup_eq_right.mpr (cut_mono hkeep h)]
  · rw [sup_eq_left.mpr h, sup_eq_left.mpr (cut_mono hkeep h)]

theorem cutBoth_sup (x y : WithBot ι × WithBot ι) :
    cutBoth keep (x ⊔ y) = cutBoth keep x ⊔ cutBoth keep y :=
  Prod.ext (cut_sup hkeep x.1 y.1) (cut_sup hkeep x.2 y.2)

theorem cutBoth_visible (x : WithBot ι × WithBot ι) :
    cutBoth keep (visible x) = visible (cutBoth keep x) := by
  refine Prod.ext rfl ?_
  show cut keep (if x.1 < x.2 then x.2 else ⊥) =
    if cut keep x.1 < cut keep x.2 then cut keep x.2 else ⊥
  by_cases hx : x.1 < x.2
  · rw [if_pos hx]
    by_cases hcut : cut keep x.1 < cut keep x.2
    · rw [if_pos hcut]
    · -- The dead stamp is gone: it is not above the live one any more.
      rw [if_neg hcut]
      cases h2 : x.2 with
      | bot => rfl
      | coe j =>
        rw [h2] at hx hcut
        by_cases hj : keep j = true
        · exact absurd ((cut_le keep x.1).trans_lt (by simpa [hj] using hx)) hcut
        · simp [hj]
  · rw [if_neg hx, if_neg (not_lt.mpr (cut_mono hkeep (not_lt.mp hx))), cut_bot]

/-- Forgetting before a join and again after it is forgetting after it. -/
theorem cutBoth_join (x y : WithBot ι × WithBot ι) :
    cutBoth keep (visible (cutBoth keep x ⊔ cutBoth keep y)) =
      cutBoth keep (visible (x ⊔ y)) := by
  rw [← cutBoth_sup hkeep, cutBoth_visible hkeep, cutBoth_visible hkeep]
  congr 1
  exact Prod.ext (cut_cut keep _) (cut_cut keep _)

end

/-! ## Lists of stamps -/

theorem maximum_append (l l' : List ι) : (l ++ l').maximum = l.maximum ⊔ l'.maximum := by
  induction l with
  | nil => simp
  | cons a l ih => rw [List.cons_append, List.maximum_cons, List.maximum_cons, ih, max_assoc]

/-- The newest of some stamps depends on which they are only. -/
theorem maximum_congr {l l' : List ι} (h : ∀ a, a ∈ l ↔ a ∈ l') : l.maximum = l'.maximum :=
  le_antisymm (List.maximum_mono fun a => (h a).mp) (List.maximum_mono fun a => (h a).mpr)

/-! ## Deciding without every stamp -/

/-- A replica that has seen the newest write `W` and the newest delete `D`, with its live stamp
    `a` and its tombstone `t`. It may have dropped writes that a tombstone had vetoed, so the
    live stamp is only known while the value is `there`. -/
structure Decides (W D a t : WithBot ι) (there : Bool) : Prop where
  present : D ≤ W → W ≠ ⊥ → there = true ∧ a = W ∧ t = ⊥
  absent : W < D ∨ W = ⊥ → there = false ∧ a ≤ W ∧ t = D

namespace Decides

variable {W D a t : WithBot ι} {there : Bool}

theorem start : Decides (⊥ : WithBot ι) ⊥ ⊥ ⊥ false :=
  ⟨(fun _ h => absurd rfl h), (fun _ => ⟨rfl, le_rfl, rfl⟩)⟩

theorem cases (W D : WithBot ι) : (D ≤ W ∧ W ≠ ⊥) ∨ (W < D ∨ W = ⊥) := by
  by_cases hbot : W = ⊥
  · exact .inr (.inr hbot)
  · rcases le_or_gt D W with h | h
    · exact .inl ⟨h, hbot⟩
    · exact .inr (.inl h)

theorem there_iff (h : Decides W D a t there) : there = true ↔ D ≤ W ∧ W ≠ ⊥ := by
  rcases cases W D with hc | hc
  · simp [(h.present hc.1 hc.2).1, hc]
  · rw [(h.absent hc).1]
    simp only [Bool.false_eq_true, false_iff, not_and, not_not]
    intro hle
    exact hc.resolve_left (not_lt.mpr hle)

/-- A write that the tombstone vetoes. -/
theorem veto (h : Decides W D a t there) {w : ι} (hw : (w : WithBot ι) < t) :
    Decides (W ⊔ w) D a t there := by
  rcases cases W D with hc | hc
  · rw [(h.present hc.1 hc.2).2.2] at hw
    exact absurd hw not_lt_bot
  · obtain ⟨hthere, ha, ht⟩ := h.absent hc
    have hlt : W ⊔ w < D := by
      rw [ht] at hw
      rcases hc with hc | hc
      · exact max_lt hc hw
      · rwa [hc, bot_sup_eq]
    exact ⟨fun hle => absurd hlt (not_lt.mpr hle), fun _ => ⟨hthere, ha.trans le_sup_left, ht⟩⟩

/-- A write that is let through. -/
theorem admitted (h : Decides W D a t there) {w : ι} (hw : ¬ ((w : WithBot ι) < t ∧ a < t)) :
    Decides (W ⊔ w) D (a ⊔ w) (if (w : WithBot ι) < t then t else ⊥) true := by
  have hne : W ⊔ w ≠ ⊥ := fun he => WithBot.coe_ne_bot (le_bot_iff.mp (le_sup_right.trans he.le))
  suffices hs : D ≤ W ⊔ w ∧ a ⊔ w = W ⊔ w ∧ (if (w : WithBot ι) < t then t else ⊥) = ⊥ by
    refine ⟨fun _ _ => ⟨rfl, hs.2⟩, fun hc => ?_⟩
    exact absurd hs.1 (hc.elim not_le.mpr fun he => absurd he hne)
  rcases cases W D with hc | hc
  · obtain ⟨-, ha, ht⟩ := h.present hc.1 hc.2
    rw [ha, ht, if_neg not_lt_bot]
    exact ⟨hc.1.trans le_sup_left, rfl, rfl⟩
  · obtain ⟨-, ha, ht⟩ := h.absent hc
    -- The live stamp is below the tombstone, so the write is not.
    have hDw : D ≤ (w : WithBot ι) := by
      by_contra hlt
      rw [ht] at hw
      refine hw ⟨not_le.mp hlt, ?_⟩
      rcases hc with hc | hc
      · exact ha.trans_lt hc
      · rw [hc, le_bot_iff] at ha
        rw [ha]
        exact bot_le.trans_lt (not_le.mp hlt)
    have hWw : W ≤ w := by
      rcases hc with hc | hc
      · exact hc.le.trans hDw
      · simp [hc]
    rw [ht, if_neg (not_lt.mpr hDw), sup_eq_right.mpr hWw, sup_eq_right.mpr (ha.trans hWw)]
    exact ⟨hDw, rfl, rfl⟩

/-- A delete that the live stamp holds back. -/
theorem keep (h : Decides W D a t there) {d : ι} (hd : (d : WithBot ι) ≤ a) :
    Decides W (D ⊔ d) a t there := by
  rcases cases W D with hc | hc
  · obtain ⟨hthere, ha, ht⟩ := h.present hc.1 hc.2
    refine ⟨fun _ _ => ⟨hthere, ha, ht⟩, fun hc' => ?_⟩
    rw [ha] at hd
    exact absurd (sup_le hc.1 hd) (hc'.elim not_le.mpr fun he => absurd he hc.2)
  · obtain ⟨hthere, ha, ht⟩ := h.absent hc
    have hdW := hd.trans ha
    rcases hc with hc | hc
    · rw [sup_eq_left.mpr (hdW.trans hc.le)]
      exact h
    · rw [hc] at hdW
      exact absurd (le_bot_iff.mp hdW) WithBot.coe_ne_bot

/-- A delete that goes through. -/
theorem remove (h : Decides W D a t there) {d : ι} (hd : ¬ (d : WithBot ι) ≤ a) :
    Decides W (D ⊔ d) a (t ⊔ d) false := by
  rcases cases W D with hc | hc
  · obtain ⟨-, ha, ht⟩ := h.present hc.1 hc.2
    rw [ha] at hd
    have hWd := not_le.mp hd
    rw [ha, ht, bot_sup_eq, sup_eq_right.mpr (hc.1.trans hWd.le)]
    exact ⟨fun hle => absurd hWd (not_lt.mpr hle), fun _ => ⟨rfl, le_rfl, rfl⟩⟩
  · obtain ⟨-, ha, ht⟩ := h.absent hc
    refine ⟨fun hle hne => ?_, fun _ => ⟨rfl, ha, by rw [ht]⟩⟩
    have hlt := hc.resolve_right hne
    exact absurd (le_sup_left.trans hle) (not_le.mpr hlt)

end Decides

end LwwPair
