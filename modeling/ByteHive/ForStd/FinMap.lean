import Mathlib.Data.Finset.Union
import Mathlib.Data.List.Sort

/-!
# Finite partial maps

`FinMap κ α` is a lookup function together with the finite set of keys on which
it is defined. It stands in for a hash map wherever only lookups and the key set
matter: two maps with the same lookups are equal (`FinMap.ext_get`), lookups
compute by function application, and the key set can be enumerated.

The bulk operations (`filter`, `ofKeys`) are stated by what they do to a lookup,
so that no proof has to look at an iteration order.
-/

universe u v

/-- A partial map with finite support: the lookup function, the keys it is
    defined on, and the proof that the two agree. -/
structure FinMap (κ : Type u) (α : Type v) where
  get : κ → Option α
  keys : Finset κ
  mem_keys : ∀ k, k ∈ keys ↔ (get k).isSome

namespace FinMap

variable {κ : Type u} {α : Type v}

/-- Two maps with the same lookups are equal: the key set is determined. -/
theorem ext_get {m m' : FinMap κ α} (h : ∀ k, m.get k = m'.get k) : m = m' := by
  obtain ⟨get, keys, hk⟩ := m
  obtain ⟨get', keys', hk'⟩ := m'
  obtain rfl : get = get' := funext h
  obtain rfl : keys = keys' := Finset.ext fun k => by rw [hk, hk']
  rfl

theorem get_eq_none_iff {m : FinMap κ α} {k : κ} : m.get k = none ↔ k ∉ m.keys := by
  rw [m.mem_keys]; cases m.get k <;> simp

theorem mem_keys_of_get {m : FinMap κ α} {k : κ} {a : α} (h : m.get k = some a) :
    k ∈ m.keys := by
  rw [m.mem_keys, h]; rfl

/-- The map with no entry. -/
def empty : FinMap κ α := ⟨fun _ => none, ∅, by simp⟩

@[simp] theorem get_empty (k : κ) : (empty : FinMap κ α).get k = none := rfl

instance : Inhabited (FinMap κ α) := ⟨empty⟩

variable [DecidableEq κ]

/-- Bind `k` to `a`, replacing an earlier binding. -/
def insert (m : FinMap κ α) (k : κ) (a : α) : FinMap κ α :=
  ⟨fun j => if j = k then some a else m.get j, Insert.insert k m.keys, by
    intro j
    by_cases h : j = k <;> simp [h, m.mem_keys]⟩

@[simp] theorem get_insert (m : FinMap κ α) (k j : κ) (a : α) :
    (m.insert k a).get j = if j = k then some a else m.get j := rfl

/-- Remove the binding of `k`. -/
def erase (m : FinMap κ α) (k : κ) : FinMap κ α :=
  ⟨fun j => if j = k then none else m.get j, m.keys.erase k, by
    intro j
    by_cases h : j = k <;> simp [h, m.mem_keys]⟩

@[simp] theorem get_erase (m : FinMap κ α) (k j : κ) :
    (m.erase k).get j = if j = k then none else m.get j := rfl

omit [DecidableEq κ] in
/-- Keep the bindings whose key and value satisfy `p`. -/
def filter (m : FinMap κ α) (p : κ → α → Bool) : FinMap κ α :=
  ⟨fun j => (m.get j).filter (p j), m.keys.filter fun j => ((m.get j).filter (p j)).isSome, by
    intro j
    cases h : m.get j <;> simp [h, m.mem_keys]⟩

omit [DecidableEq κ] in
@[simp] theorem get_filter (m : FinMap κ α) (p : κ → α → Bool) (j : κ) :
    (m.filter p).get j = (m.get j).filter (p j) := rfl

omit [DecidableEq κ] in
/-- Change every bound value. -/
def map (m : FinMap κ α) (f : κ → α → α) : FinMap κ α :=
  ⟨fun j => (m.get j).map (f j), m.keys, by
    intro j
    simp [m.mem_keys]⟩

omit [DecidableEq κ] in
@[simp] theorem get_map (m : FinMap κ α) (f : κ → α → α) (j : κ) :
    (m.map f).get j = (m.get j).map (f j) := rfl

/-- The bindings of the function `g` on the keys in `s`. -/
def ofKeys (s : Finset κ) (g : κ → Option α) : FinMap κ α :=
  ⟨fun j => if j ∈ s then g j else none, s.filter fun j => (g j).isSome, by
    intro j
    by_cases h : j ∈ s <;> simp [h]⟩

theorem get_ofKeys (s : Finset κ) (g : κ → Option α) (j : κ) :
    (ofKeys s g).get j = if j ∈ s then g j else none := rfl

/-- When `s` covers the support of `g`, looking up in `ofKeys s g` is applying `g`. -/
theorem get_ofKeys_of_support {s : Finset κ} {g : κ → Option α}
    (h : ∀ j, (g j).isSome → j ∈ s) (j : κ) : (ofKeys s g).get j = g j := by
  rw [get_ofKeys]
  split
  · rfl
  · next hj =>
    cases hg : g j with
    | none => rfl
    | some a => exact absurd (h j (by rw [hg]; rfl)) hj

/-- No entry is bound. -/
def isEmpty (m : FinMap κ α) : Bool := decide (m.keys = ∅)

omit [DecidableEq κ] in
theorem keys_eq_empty_iff {m : FinMap κ α} : m.keys = ∅ ↔ ∀ k, m.get k = none := by
  rw [Finset.eq_empty_iff_forall_notMem]
  exact forall_congr' fun k => get_eq_none_iff.symm

/-! ## Moving entries to other keys -/

/-- Move the entry at the first key to the second and change its value. Nothing happens where
    there is no entry. -/
def moveEntry (f : κ × κ → α → α) (m : FinMap κ α) (pair : κ × κ) : FinMap κ α :=
  match m.get pair.1 with
  | none => m
  | some a => (m.erase pair.1).insert pair.2 (f pair a)

variable {f : κ × κ → α → α} {m : FinMap κ α}

theorem get_moveEntry {pair : κ × κ} {a : α} (ha : m.get pair.1 = some a) (k : κ) :
    (m.moveEntry f pair).get k =
      if k = pair.2 then some (f pair a) else if k = pair.1 then none else m.get k := by
  rw [moveEntry, ha]
  rfl

/-- A key that no entry is moved to has none in the end, if it had none or its own is moved. -/
theorem get_foldl_moveEntry_none {pairs : List (κ × κ)} {k : κ}
    (hk : ∀ pair ∈ pairs, pair.2 ≠ k) (hgone : (∃ pair ∈ pairs, pair.1 = k) ∨ m.get k = none) :
    (pairs.foldl (moveEntry f) m).get k = none := by
  induction pairs generalizing m with
  | nil => exact hgone.resolve_left (by simp)
  | cons pair pairs ih =>
    refine ih (fun q hq => hk q (by simp [hq])) ?_
    have hne : k ≠ pair.2 := Ne.symm (hk pair (by simp))
    cases ha : m.get pair.1 with
    | none =>
      have hsame : m.moveEntry f pair = m := by rw [moveEntry, ha]
      rw [hsame]
      rcases hgone with ⟨q, hq, rfl⟩ | hnone
      · rcases List.mem_cons.mp hq with rfl | hq
        · exact .inr ha
        · exact .inl ⟨q, hq, rfl⟩
      · exact .inr hnone
    | some a =>
      rw [get_moveEntry ha, if_neg hne]
      by_cases heq : k = pair.1
      · exact .inr (if_pos heq)
      · rw [if_neg heq]
        rcases hgone with ⟨q, hq, hqk⟩ | hnone
        · rcases List.mem_cons.mp hq with rfl | hq
          · exact absurd hqk.symm heq
          · exact .inl ⟨q, hq, hqk⟩
        · exact .inr hnone

/-- The moves do not get in each other's way: no two start or end at one key, and none ends where
    another starts. -/
structure Apart (pairs : List (κ × κ)) : Prop where
  starts : (pairs.map Prod.fst).Nodup
  ends : (pairs.map Prod.snd).Nodup
  apart : ∀ a ∈ pairs, ∀ b ∈ pairs, a.2 = b.1 → a = b

omit [DecidableEq κ] in
theorem Apart.tail {pair : κ × κ} {pairs : List (κ × κ)} (h : Apart (pair :: pairs)) :
    Apart pairs where
  starts := (List.nodup_cons.mp h.starts).2
  ends := (List.nodup_cons.mp h.ends).2
  apart := fun a ha b hb => h.apart a (by simp [ha]) b (by simp [hb])

/-- Moves that stay apart come to the same as all of them at once. -/
theorem get_foldl_moveEntry {pairs : List (κ × κ)} (h : Apart pairs)
    (hthere : ∀ pair ∈ pairs, (m.get pair.1).isSome = true) :
    (∀ pair ∈ pairs, (pairs.foldl (moveEntry f) m).get pair.2 = (m.get pair.1).map (f pair)) ∧
    (∀ k, (∀ pair ∈ pairs, pair.1 ≠ k) → (∀ pair ∈ pairs, pair.2 ≠ k) →
      (pairs.foldl (moveEntry f) m).get k = m.get k) := by
  induction pairs generalizing m with
  | nil =>
    refine ⟨fun pair hpair => ?_, fun k _ _ => rfl⟩
    cases hpair
  | cons pair pairs ih =>
    obtain ⟨a, ha⟩ := Option.isSome_iff_exists.mp (hthere pair (by simp))
    have hstart : ∀ q ∈ pairs, q.1 ≠ pair.1 := by
      intro q hq heq
      exact (List.nodup_cons.mp h.starts).1 (List.mem_map.mpr ⟨q, hq, heq⟩)
    have hend : ∀ q ∈ pairs, q.2 ≠ pair.2 := by
      intro q hq heq
      exact (List.nodup_cons.mp h.ends).1 (List.mem_map.mpr ⟨q, hq, heq⟩)
    have hcross : ∀ q ∈ pairs, q.1 ≠ pair.2 := by
      intro q hq heq
      have hsame := h.apart pair (by simp) q (by simp [hq]) heq.symm
      exact hstart q hq (by rw [hsame])
    -- The moves that are left find their entries where they were.
    have hkeep : ∀ q ∈ pairs, (m.moveEntry f pair).get q.1 = m.get q.1 := by
      intro q hq
      rw [get_moveEntry ha, if_neg (hcross q hq), if_neg (hstart q hq)]
    obtain ⟨hmoved, hrest⟩ := ih (m := m.moveEntry f pair) h.tail fun q hq => by
      rw [hkeep q hq]
      exact hthere q (by simp [hq])
    constructor
    · intro q hq
      rcases List.mem_cons.mp hq with rfl | hq
      · rw [List.foldl_cons, hrest q.2 hcross hend, get_moveEntry ha, if_pos rfl, ha]
        rfl
      · rw [List.foldl_cons, hmoved q hq, hkeep q hq]
    · intro k hk hk'
      have hne : k ≠ pair.1 := Ne.symm (hk pair (by simp))
      have hne' : k ≠ pair.2 := Ne.symm (hk' pair (by simp))
      have hrest := hrest k (fun q hq => hk q (by simp [hq])) fun q hq => hk' q (by simp [hq])
      rw [List.foldl_cons, hrest, get_moveEntry ha, if_neg hne', if_neg hne]

end FinMap
