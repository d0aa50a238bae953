import ByteHive.ForStd.Run
import Mathlib.Data.Finset.Basic
import Mathlib.Data.Finset.SDiff
import Mathlib.Data.List.Basic
import Mathlib.Logic.Function.Basic

/-!
# A set of marks that timers take away

Many users put marks into one shared set and have them taken out again later. A user
either starts a timer that will take its marks out, or holds them until it hands them
over to a timer. The set remembers no owners: a timer takes out what its list names,
whoever put it there.

Two laws can fail. A mark is `Accounted` for when a timer will take it out or a holder
still has it; a user that ends without a timer strands its marks. The marks are `Kept`
when every mark that is still somebody's is in the set; a timer that fires takes out
the marks it shares with others.

- `accounted_step`: every event but `strand` and `giveUp` keeps the marks accounted for
- `kept_fire_iff`: exactly the firing of a timer that shares a mark loses a kept mark
-/

universe u v

/-- The shared set, the lists of the timers that have not fired, what each holder has
    marked, and the marks whose users ended without a timer. -/
structure MarkSet (κ : Type u) (α : Type v) where
  marked : Finset α
  timers : List (List α)
  held : κ → List α
  stranded : List α

inductive MarkEvent (κ : Type u) (α : Type v) where
  /-- Marks and starts a timer for the marks. -/
  | timed (marks : List α)
  /-- Marks on behalf of a holder, who may have begun before with the same marks. -/
  | hold (k : κ) (marks : List α)
  /-- A holder starts a timer for its marks. -/
  | handOver (k : κ)
  /-- Marks and ends without a timer. -/
  | strand (marks : List α)
  /-- A holder ends without a timer. -/
  | giveUp (k : κ)
  /-- A timer takes its list out of the set. -/
  | fire (i : Nat)

namespace MarkSet

variable {κ : Type u} {α : Type v}

section Laws

variable (m : MarkSet κ α)

/-- Somebody's mark: a timer, a holder or a user that ended has marked `p`. -/
def Open (p : α) : Prop :=
  (∃ l ∈ m.timers, p ∈ l) ∨ (∃ k, p ∈ m.held k) ∨ p ∈ m.stranded

/-- Every mark will be taken out by a timer, or a holder has it. -/
def Accounted : Prop :=
  ∀ p ∈ m.marked, (∃ l ∈ m.timers, p ∈ l) ∨ ∃ k, p ∈ m.held k

/-- Every mark that is somebody's is in the set. -/
def Kept : Prop := ∀ p, m.Open p → p ∈ m.marked

/-- The timer at `i` shares no mark with another timer, a holder or a user that ended. -/
def FiresAlone (i : Nat) : Prop :=
  ∀ l, m.timers[i]? = some l → ∀ p ∈ l,
    (∀ j l', j ≠ i → m.timers[j]? = some l' → p ∉ l') ∧ (∀ k, p ∉ m.held k) ∧ p ∉ m.stranded

end Laws

variable [DecidableEq κ] [DecidableEq α]

def step (m : MarkSet κ α) : MarkEvent κ α → Option (MarkSet κ α)
  | .timed marks =>
    some { m with marked := m.marked ∪ marks.toFinset, timers := m.timers ++ [marks] }
  | .hold k marks =>
    if m.held k = [] ∨ m.held k = marks then
      some { m with
        marked := m.marked ∪ marks.toFinset
        held := Function.update m.held k marks }
    else none
  | .handOver k =>
    some { m with timers := m.timers ++ [m.held k], held := Function.update m.held k [] }
  | .strand marks =>
    some { m with marked := m.marked ∪ marks.toFinset, stranded := m.stranded ++ marks }
  | .giveUp k =>
    some { m with stranded := m.stranded ++ m.held k, held := Function.update m.held k [] }
  | .fire i =>
    (m.timers[i]?).map fun l => { m with
      marked := m.marked \ l.toFinset
      timers := m.timers.eraseIdx i }

/-- The users of the event's marks start a timer or go on to hold them. -/
def tidy : MarkEvent κ α → Bool
  | .strand _ | .giveUp _ => false
  | _ => true

variable {m m' : MarkSet κ α} {ev : MarkEvent κ α}

omit [DecidableEq α] in
theorem mem_update {k k' : κ} {p : α} {l : List α} (held : κ → List α) :
    p ∈ Function.update held k l k' ↔ if k' = k then p ∈ l else p ∈ held k' := by
  rw [Function.update_apply]
  split <;> rfl

/-- Every event but the two that end without a timer keeps the marks accounted for. -/
theorem accounted_step (h : m.Accounted) (hev : tidy ev = true) (hstep : m.step ev = some m') :
    m'.Accounted := by
  cases ev with
  | timed marks =>
    cases hstep
    intro p hp
    simp only [Finset.mem_union, List.mem_toFinset] at hp
    cases hp with
    | inl hp =>
      cases h p hp with
      | inl hl =>
        obtain ⟨l, hl, hpl⟩ := hl
        exact .inl ⟨l, List.mem_append_left _ hl, hpl⟩
      | inr hk => exact .inr hk
    | inr hp => exact .inl ⟨marks, by simp, hp⟩
  | hold k marks =>
    rw [step, Option.ite_none_right_eq_some] at hstep
    obtain ⟨hbefore, hstep⟩ := hstep
    cases hstep
    intro p hp
    simp only [Finset.mem_union, List.mem_toFinset] at hp
    have hnew : p ∈ marks → ∃ k', p ∈ Function.update m.held k marks k' := fun hpm =>
      ⟨k, by rwa [Function.update_self]⟩
    cases hp with
    | inl hp =>
      cases h p hp with
      | inl hl => exact .inl hl
      | inr hk =>
        obtain ⟨k', hk'⟩ := hk
        by_cases hkk : k' = k
        · -- What the holder had before is among its new marks.
          subst hkk
          cases hbefore with
          | inl hnil => simp [hnil] at hk'
          | inr hsame => exact .inr (hnew (hsame ▸ hk'))
        · exact .inr ⟨k', (mem_update m.held).mpr (by rwa [if_neg hkk])⟩
    | inr hp => exact .inr (hnew hp)
  | handOver k =>
    cases hstep
    intro p hp
    cases h p hp with
    | inl hl =>
      obtain ⟨l, hl, hpl⟩ := hl
      exact .inl ⟨l, List.mem_append_left _ hl, hpl⟩
    | inr hk =>
      obtain ⟨k', hk'⟩ := hk
      by_cases hkk : k' = k
      · subst hkk
        exact .inl ⟨m.held k', by simp, hk'⟩
      · exact .inr ⟨k', (mem_update m.held).mpr (by rwa [if_neg hkk])⟩
  | strand marks => cases hev
  | giveUp k => cases hev
  | fire i =>
    obtain ⟨l, hl, rfl⟩ := Option.map_eq_some_iff.mp hstep
    intro p hp
    simp only [Finset.mem_sdiff, List.mem_toFinset] at hp
    cases h p hp.1 with
    | inl hother =>
      obtain ⟨l', hl', hpl'⟩ := hother
      obtain ⟨j, hj⟩ := List.mem_iff_getElem?.mp hl'
      refine .inl ⟨l', List.mem_eraseIdx_iff_getElem?.mpr ⟨j, ?_, hj⟩, hpl'⟩
      -- The list of the timer that fired is gone from the set.
      rintro rfl
      rw [hl] at hj
      cases hj
      exact hp.2 hpl'
    | inr hk => exact .inr hk

/-- An event that is no firing opens marks only together with putting them into the set. -/
theorem kept_step (h : m.Kept) (hev : ∀ i, ev ≠ .fire i) (hstep : m.step ev = some m') :
    m'.Kept := by
  have hheld : ∀ {k k' : κ} {p : α} {l : List α}, (p ∈ l → p ∈ m'.marked) →
      (∀ p, p ∈ m.marked → p ∈ m'.marked) → p ∈ Function.update m.held k l k' →
      p ∈ m'.marked := by
    intro k k' p l hl hmono hp
    rw [mem_update] at hp
    split at hp
    · exact hl hp
    · exact hmono p (h p (.inr (.inl ⟨k', hp⟩)))
  cases ev with
  | timed marks =>
    cases hstep
    intro p hp
    rw [Finset.mem_union, List.mem_toFinset]
    obtain ⟨l, hl, hpl⟩ | hrest := hp
    · rw [List.mem_append, List.mem_singleton] at hl
      obtain hl | rfl := hl
      · exact .inl (h p (.inl ⟨l, hl, hpl⟩))
      · exact .inr hpl
    · exact .inl (h p (.inr hrest))
  | hold k marks =>
    rw [step, Option.ite_none_right_eq_some] at hstep
    obtain ⟨-, hstep⟩ := hstep
    cases hstep
    intro p hp
    obtain hl | ⟨k', hk'⟩ | hs := hp
    · exact Finset.mem_union_left _ (h p (.inl hl))
    · exact hheld (fun hpm => Finset.mem_union_right _ (List.mem_toFinset.mpr hpm))
        (fun q hq => Finset.mem_union_left _ hq) hk'
    · exact Finset.mem_union_left _ (h p (.inr (.inr hs)))
  | handOver k =>
    cases hstep
    intro p hp
    obtain ⟨l, hl, hpl⟩ | ⟨k', hk'⟩ | hs := hp
    · rw [List.mem_append, List.mem_singleton] at hl
      obtain hl | rfl := hl
      · exact h p (.inl ⟨l, hl, hpl⟩)
      · exact h p (.inr (.inl ⟨k, hpl⟩))
    · exact hheld (fun hpm => absurd hpm (by simp)) (fun q hq => hq) hk'
    · exact h p (.inr (.inr hs))
  | strand marks =>
    cases hstep
    intro p hp
    rw [Finset.mem_union, List.mem_toFinset]
    obtain hl | hk | hs := hp
    · exact .inl (h p (.inl hl))
    · exact .inl (h p (.inr (.inl hk)))
    · rw [List.mem_append] at hs
      exact hs.imp (fun hs => h p (.inr (.inr hs))) id
  | giveUp k =>
    cases hstep
    intro p hp
    obtain hl | ⟨k', hk'⟩ | hs := hp
    · exact h p (.inl hl)
    · exact hheld (fun hpm => absurd hpm (by simp)) (fun q hq => hq) hk'
    · rw [List.mem_append] at hs
      cases hs with
      | inl hs => exact h p (.inr (.inr hs))
      | inr hs => exact h p (.inr (.inl ⟨k, hs⟩))
  | fire i => exact absurd rfl (hev i)

/-- A firing keeps the marks exactly when the timer shares none of its own. -/
theorem kept_fire_iff {i : Nat} (h : m.Kept) (hstep : m.step (.fire i) = some m') :
    m'.Kept ↔ m.FiresAlone i := by
  obtain ⟨l, hl, rfl⟩ := Option.map_eq_some_iff.mp hstep
  constructor
  · intro hkept l' hl' p hp
    rw [hl] at hl'
    cases hl'
    have hout : ∀ {P : Prop}, (P → Open { m with
        marked := m.marked \ l.toFinset, timers := m.timers.eraseIdx i } p) → ¬ P := by
      intro P hopen hP
      have hmem := hkept p (hopen hP)
      simp only [Finset.mem_sdiff, List.mem_toFinset] at hmem
      exact hmem.2 hp
    refine ⟨fun j l' hj hl' => hout fun hpl' => .inl ⟨l', ?_, hpl'⟩,
      fun k => hout fun hk => .inr (.inl ⟨k, hk⟩), hout fun hs => .inr (.inr hs)⟩
    exact List.mem_eraseIdx_iff_getElem?.mpr ⟨j, hj, hl'⟩
  · intro halone p hp
    simp only [Finset.mem_sdiff, List.mem_toFinset]
    obtain ⟨l', hl', hpl'⟩ | hk | hs := hp
    · obtain ⟨j, hj, hget⟩ := List.mem_eraseIdx_iff_getElem?.mp hl'
      exact ⟨h p (.inl ⟨l', List.mem_of_getElem? hget, hpl'⟩),
        fun hpl => (halone l hl p hpl).1 j l' hj hget hpl'⟩
    · exact ⟨h p (.inr (.inl hk)), fun hpl => (halone l hl p hpl).2.1 hk.choose hk.choose_spec⟩
    · exact ⟨h p (.inr (.inr hs)), fun hpl => (halone l hl p hpl).2.2 hs⟩

/-- `m'` comes from `m` by events of which none is a firing; all are tidy when `ok`. -/
def Proceeds (ok : Prop) (m m' : MarkSet κ α) : Prop :=
  ∃ evs, Run.runFrom step m evs = some m' ∧ (∀ ev ∈ evs, ∀ i, ev ≠ .fire i) ∧
    (ok → ∀ ev ∈ evs, tidy ev = true)

theorem Proceeds.refl (ok : Prop) (m : MarkSet κ α) : Proceeds ok m m :=
  ⟨[], rfl, by simp, by simp⟩

theorem Proceeds.single {ok : Prop} (ev : MarkEvent κ α) (hstep : m.step ev = some m')
    (hev : ∀ i, ev ≠ .fire i) (htidy : ok → tidy ev = true) : Proceeds ok m m' :=
  ⟨[ev], Run.runFrom_cons.mpr ⟨m', hstep, rfl⟩, by simpa using hev, by simpa using htidy⟩

theorem Proceeds.trans {ok : Prop} {m₁ : MarkSet κ α} (h : Proceeds ok m m₁)
    (h' : Proceeds ok m₁ m') : Proceeds ok m m' := by
  obtain ⟨evs, hrun, hfire, htidy⟩ := h
  obtain ⟨evs', hrun', hfire', htidy'⟩ := h'
  refine ⟨evs ++ evs', Run.runFrom_append.mpr ⟨m₁, hrun, hrun'⟩, fun ev hev => ?_,
    fun hok ev hev => ?_⟩
  · exact (List.mem_append.mp hev).elim (hfire ev) (hfire' ev)
  · exact (List.mem_append.mp hev).elim (htidy hok ev) (htidy' hok ev)

theorem Proceeds.mono {ok ok' : Prop} (hok : ok' → ok) (h : Proceeds ok m m') :
    Proceeds ok' m m' := by
  obtain ⟨evs, hrun, hfire, htidy⟩ := h
  exact ⟨evs, hrun, hfire, fun h => htidy (hok h)⟩

theorem Proceeds.accounted {ok : Prop} (hp : Proceeds ok m m') (hok : ok) (h : m.Accounted) :
    m'.Accounted := by
  obtain ⟨evs, hrun, -, htidy⟩ := hp
  have hall := htidy hok
  clear htidy hok
  induction evs generalizing m with
  | nil =>
    cases hrun
    exact h
  | cons ev rest ih =>
    obtain ⟨m₁, hstep, hrest⟩ := Run.runFrom_cons.mp hrun
    exact ih (accounted_step h (hall ev (by simp)) hstep) hrest
      fun ev' hev' => hall ev' (List.mem_cons_of_mem _ hev')

theorem Proceeds.kept {ok : Prop} (hp : Proceeds ok m m') (h : m.Kept) : m'.Kept := by
  obtain ⟨evs, hrun, hfire, -⟩ := hp
  induction evs generalizing m with
  | nil =>
    cases hrun
    exact h
  | cons ev rest ih =>
    obtain ⟨m₁, hstep, hrest⟩ := Run.runFrom_cons.mp hrun
    exact ih (kept_step h (hfire ev (by simp)) hstep) hrest
      fun ev' hev' => hfire ev' (List.mem_cons_of_mem _ hev')

end MarkSet
