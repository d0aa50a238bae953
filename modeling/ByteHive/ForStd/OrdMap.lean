import Mathlib.Data.List.Sort

/-!
# Ordered maps

`OrdMap κ α` is an association list with strictly increasing keys: a `BTreeMap`. The
order of the list is the order of iteration, so that range lookups are list
operations. An association list with keys out of order cannot be built.
-/

universe u v

/-- A finite map iterated in key order. -/
structure OrdMap (κ : Type u) [LinearOrder κ] (α : Type v) where
  toList : List (κ × α)
  sorted : toList.Pairwise fun a b => a.1 < b.1

namespace OrdMap

variable {κ : Type u} [LinearOrder κ] {α : Type v}

/-- The map with no entry. -/
def empty : OrdMap κ α := ⟨[], .nil⟩

/-- The value bound to `k`. -/
def get (m : OrdMap κ α) (k : κ) : Option α := (m.toList.find? fun x => x.1 = k).map (·.2)

/-- The values in key order. -/
def values (m : OrdMap κ α) : List α := m.toList.map (·.2)

/-- The keys in order. -/
def keys (m : OrdMap κ α) : List κ := m.toList.map (·.1)

/-- The bindings whose key is at least `k`, in order: `range(k..)`. -/
def rangeFrom (m : OrdMap κ α) (k : κ) : List (κ × α) := m.toList.dropWhile fun x => x.1 < k

/-- Remove the binding of `k`. -/
def erase (m : OrdMap κ α) (k : κ) : OrdMap κ α :=
  ⟨m.toList.filter fun x => x.1 ≠ k, m.sorted.filter _⟩

/-- Bind `k` to `a`, replacing an earlier binding. -/
def insert (m : OrdMap κ α) (k : κ) (a : α) : OrdMap κ α :=
  ⟨(m.toList.filter fun x => x.1 < k) ++ (k, a) :: m.toList.filter fun x => k < x.1, by
    rw [List.pairwise_append, List.pairwise_cons]
    refine ⟨m.sorted.filter _, ⟨fun x hx => ?_, m.sorted.filter _⟩, fun x hx y hy => ?_⟩
    · simpa using (List.mem_filter.mp hx).2
    · have hxk : x.1 < k := by simpa using (List.mem_filter.mp hx).2
      rcases List.mem_cons.mp hy with rfl | hy
      · exact hxk
      · exact hxk.trans (by simpa using (List.mem_filter.mp hy).2)⟩

instance [DecidableEq α] : DecidableEq (OrdMap κ α) := fun a b =>
  decidable_of_iff (a.toList = b.toList) ⟨fun h => by cases a; cases b; cases h; rfl, congrArg _⟩

/-! ## Membership -/

/-- A lookup finds exactly the bindings of the list. -/
theorem get_eq_some_iff {m : OrdMap κ α} {k : κ} {a : α} :
    m.get k = some a ↔ (k, a) ∈ m.toList := by
  have hs := m.sorted
  unfold get
  generalize m.toList = l at hs
  induction l with
  | nil => simp
  | cons x l ih =>
    obtain ⟨hx, hl⟩ := List.pairwise_cons.mp hs
    rw [List.find?_cons]
    by_cases hk : x.1 = k
    · subst hk
      simp only [decide_true, Option.map_some, Option.some.injEq, List.mem_cons]
      constructor
      · rintro rfl
        exact .inl rfl
      · rintro (h | h)
        · exact h ▸ rfl
        · exact absurd (hx _ h) (lt_irrefl _)
    · have hne : (k, a) ≠ x := fun h => hk (h ▸ rfl)
      simp [hk, hne, ih hl]

theorem get_eq_none_iff {m : OrdMap κ α} {k : κ} : m.get k = none ↔ k ∉ m.keys := by
  constructor
  · intro h hk
    obtain ⟨⟨k', a⟩, hmem, rfl⟩ := List.mem_map.mp hk
    rw [get_eq_some_iff.mpr hmem] at h
    cases h
  · intro hk
    cases h : m.get k with
    | none => rfl
    | some a => exact absurd (List.mem_map.mpr ⟨_, get_eq_some_iff.mp h, rfl⟩) hk

theorem mem_toList_insert {m : OrdMap κ α} {k : κ} {a : α} {x : κ × α} :
    x ∈ (m.insert k a).toList ↔ x = (k, a) ∨ x ∈ m.toList ∧ x.1 ≠ k := by
  simp only [insert, List.mem_append, List.mem_filter, decide_eq_true_eq, List.mem_cons]
  constructor
  · rintro (⟨h, hlt⟩ | rfl | ⟨h, hlt⟩)
    · exact .inr ⟨h, hlt.ne⟩
    · exact .inl rfl
    · exact .inr ⟨h, hlt.ne'⟩
  · rintro (rfl | ⟨h, hne⟩)
    · exact .inr (.inl rfl)
    · rcases lt_or_gt_of_ne hne with hlt | hlt
      · exact .inl ⟨h, hlt⟩
      · exact .inr (.inr ⟨h, hlt⟩)

theorem mem_toList_erase {m : OrdMap κ α} {k : κ} {x : κ × α} :
    x ∈ (m.erase k).toList ↔ x ∈ m.toList ∧ x.1 ≠ k := by
  simp [erase, List.mem_filter]

theorem get_insert (m : OrdMap κ α) (k j : κ) (a : α) :
    (m.insert k a).get j = if j = k then some a else m.get j := by
  ext b
  rw [get_eq_some_iff, mem_toList_insert]
  by_cases h : j = k
  · simp [h, eq_comm]
  · simp [h, get_eq_some_iff]

theorem get_erase (m : OrdMap κ α) (k j : κ) :
    (m.erase k).get j = if j = k then none else m.get j := by
  ext b
  rw [get_eq_some_iff, mem_toList_erase]
  by_cases h : j = k
  · simp [h]
  · simp [h, get_eq_some_iff]

theorem nodup_keys (m : OrdMap κ α) : m.keys.Nodup :=
  List.pairwise_map.mpr (m.sorted.imp fun h => h.ne)

/-- A map whose lookups are computed from another map's, binding by binding, lists
    what is left of its bindings in the same order. -/
theorem toList_eq_filterMap {β : Type v} {m : OrdMap κ α} {m' : OrdMap κ β} {g : κ → α → Option β}
    (h : ∀ k, m'.get k = (m.get k).bind (g k)) :
    m'.toList = m.toList.filterMap fun x => (g x.1 x.2).map fun b => (x.1, b) := by
  have hsorted : (m.toList.filterMap fun x => (g x.1 x.2).map fun b => (x.1, b)).Pairwise
      fun a b => a.1 < b.1 := by
    refine m.sorted.filterMap _ fun x y hxy a ha b hb => ?_
    simp only [Option.map_eq_some_iff] at ha hb
    obtain ⟨-, -, rfl⟩ := ha
    obtain ⟨-, -, rfl⟩ := hb
    exact hxy
  have hmem : ∀ x, x ∈ m'.toList ↔
      x ∈ m.toList.filterMap fun x => (g x.1 x.2).map fun b => (x.1, b) := by
    rintro ⟨k, b⟩
    rw [← get_eq_some_iff, h, Option.bind_eq_some_iff, List.mem_filterMap]
    constructor
    · rintro ⟨a, ha, hb⟩
      exact ⟨(k, a), get_eq_some_iff.mp ha, by simp [hb]⟩
    · rintro ⟨x, hx, hb⟩
      obtain ⟨b', hb', heq⟩ := Option.map_eq_some_iff.mp hb
      obtain ⟨rfl, rfl⟩ := Prod.mk.injEq .. ▸ heq
      exact ⟨x.2, get_eq_some_iff.mpr hx, hb'⟩
  have hperm := (List.perm_ext_iff_of_nodup (m'.sorted.imp fun h => by rintro rfl; exact lt_irrefl _ h)
    (hsorted.imp fun h => by rintro rfl; exact lt_irrefl _ h)).mpr hmem
  exact hperm.eq_of_pairwise (fun a b _ _ hab hba => absurd hba hab.asymm) m'.sorted hsorted

theorem ext_get {m m' : OrdMap κ α} (h : ∀ k, m.get k = m'.get k) : m = m' := by
  have hlist := toList_eq_filterMap (g := fun _ a => some a) fun k => by simpa using h k
  simp only [Option.map_some, List.filterMap_some_fun, Prod.mk.eta] at hlist
  obtain ⟨l, hl⟩ := m
  obtain ⟨l', hl'⟩ := m'
  obtain rfl : l = l' := hlist
  rfl

/-- Appending a binding with a larger key than all others. -/
theorem toList_insert_of_lt {m : OrdMap κ α} {k : κ} {a : α} (h : ∀ x ∈ m.toList, x.1 < k) :
    (m.insert k a).toList = m.toList ++ [(k, a)] := by
  have h₁ : (m.toList.filter fun x => x.1 < k) = m.toList :=
    List.filter_eq_self.mpr fun x hx => by simpa using h x hx
  have h₂ : (m.toList.filter fun x => k < x.1) = [] :=
    List.filter_eq_nil_iff.mpr fun x hx => by simpa using (h x hx).le
  simp [insert, h₁, h₂]

/-! ## Ranges -/

/-- A range is the part of the list whose keys are large enough. -/
theorem rangeFrom_eq_filter (m : OrdMap κ α) (k : κ) :
    m.rangeFrom k = m.toList.filter fun x => decide (k ≤ x.1) := by
  have hs := m.sorted
  unfold rangeFrom
  generalize m.toList = l at hs
  induction l with
  | nil => rfl
  | cons y l ih =>
    obtain ⟨hy, hl⟩ := List.pairwise_cons.mp hs
    rw [List.dropWhile_cons]
    by_cases hlt : y.1 < k
    · rw [if_pos (decide_eq_true hlt), ih hl, List.filter_cons_of_neg (by simpa using hlt)]
    · rw [if_neg (by simpa using hlt), List.filter_eq_self.mpr]
      intro x hx
      have hk : k ≤ y.1 := not_lt.mp hlt
      cases hx with
      | head => exact decide_eq_true hk
      | tail _ hx => exact decide_eq_true (hk.trans (hy x hx).le)

/-- Cutting a sorted list where `p` first fails keeps every element with `p`, when `p`
    holds below each of them. -/
theorem takeWhile_eq_filter_of_sorted {l : List (κ × α)} {p : κ × α → Bool}
    (hs : l.Pairwise fun a b => a.1 < b.1)
    (hp : ∀ a ∈ l, ∀ b ∈ l, a.1 < b.1 → p b = true → p a = true) :
    l.takeWhile p = l.filter p := by
  induction l with
  | nil => rfl
  | cons y l ih =>
    obtain ⟨hy, hl⟩ := List.pairwise_cons.mp hs
    have ih := ih hl fun a ha b hb => hp a (List.mem_cons_of_mem _ ha) b (List.mem_cons_of_mem _ hb)
    by_cases hpy : p y = true
    · rw [List.takeWhile_cons_of_pos hpy, List.filter_cons_of_pos hpy, ih]
    · rw [List.takeWhile_cons_of_neg hpy, List.filter_cons_of_neg hpy, eq_comm,
        List.filter_eq_nil_iff]
      intro x hx hpx
      exact hpy (hp y List.mem_cons_self x (List.mem_cons_of_mem _ hx) (hy x hx) hpx)

end OrdMap
