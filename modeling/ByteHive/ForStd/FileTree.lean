import Mathlib.Data.Finset.Option
import Mathlib.Data.Finset.Sort
import Mathlib.Data.Finset.Union
import Mathlib.Data.List.Infix
import ByteHive.ForStd.FinMap

/-!
# Directory trees

A directory tree as a finite map from paths (lists of names) to nodes. The root
`[]` is not an entry: it always exists and is a directory. The `closed` field
says that the parent of every entry is the root or a directory, so a tree with a
dangling entry cannot be built.

The operations are the system calls a program makes on such a tree. Each returns
`none` where the call fails, and comes with one lemma that says what it does to a
lookup. The modification time of a directory is the one last set on it: the
kernel's own update when an entry is added or removed is not modelled.
-/

universe u v

/-- A directory or a file with its data, each with a modification time in ms. -/
inductive FileNode (β : Type v) where
  | dir (mtime : Nat)
  | file (data : β) (mtime : Nat)
deriving DecidableEq, Repr

namespace FileNode

variable {β : Type v}

/-- `Metadata::is_dir`. -/
def isDir : FileNode β → Bool
  | .dir _ => true
  | .file _ _ => false

/-- The modification time. -/
def mtime : FileNode β → Nat
  | .dir m => m
  | .file _ m => m

/-- The node with another modification time. -/
def setMtime (m : Nat) : FileNode β → FileNode β
  | .dir _ => .dir m
  | .file d _ => .file d m

@[simp] theorem setMtime_setMtime (m m' : Nat) (n : FileNode β) :
    (n.setMtime m').setMtime m = n.setMtime m := by
  cases n <;> rfl

@[simp] theorem isDir_setMtime (m : Nat) (n : FileNode β) : (n.setMtime m).isDir = n.isDir := by
  cases n <;> rfl

end FileNode

/-- A tree of directories and files: entries by path, each below a directory. -/
structure FileTree (κ : Type u) (β : Type v) where
  nodes : FinMap (List κ) (FileNode β)
  closed : ∀ p n, nodes.get p = some n →
    p ≠ [] ∧ (p.dropLast = [] ∨ ∃ d, nodes.get p.dropLast = some d ∧ d.isDir)

namespace FileTree

variable {κ : Type u} {β : Type v}

/-- The node at `p`. -/
def get (t : FileTree κ β) (p : List κ) : Option (FileNode β) := t.nodes.get p

theorem ext_get {t t' : FileTree κ β} (h : ∀ p, t.get p = t'.get p) : t = t' := by
  obtain ⟨nodes, hc⟩ := t
  obtain ⟨nodes', hc'⟩ := t'
  obtain rfl : nodes = nodes' := FinMap.ext_get h
  rfl

@[simp] theorem get_nil (t : FileTree κ β) : t.get [] = none := by
  cases h : t.get [] with
  | none => rfl
  | some n => exact absurd rfl (t.closed [] n h).1

/-- `Path::is_dir`: the root, or a directory entry. -/
def isDir [DecidableEq κ] (t : FileTree κ β) (p : List κ) : Bool :=
  decide (p = []) || (t.get p).any FileNode.isDir

/-- `Path::exists`: the root, or any entry. -/
def pathExists [DecidableEq κ] (t : FileTree κ β) (p : List κ) : Bool :=
  decide (p = []) || (t.get p).isSome

theorem isDir_concat [DecidableEq κ] (t : FileTree κ β) (p : List κ) (c : κ) :
    t.isDir (p ++ [c]) = (t.get (p ++ [c])).any FileNode.isDir := by
  simp [isDir]

/-- The entry at `p` is a file. -/
def isFile (t : FileTree κ β) (p : List κ) : Bool := (t.get p).any fun n => !n.isDir

/-- Reading the file at `p`: fails on a directory and where nothing exists. -/
def read (t : FileTree κ β) (p : List κ) : Option β :=
  match t.get p with
  | some (.file d _) => some d
  | _ => none

/-- The tree with nothing in it. -/
def empty : FileTree κ β := ⟨.empty, by intro p n h; simp at h⟩

@[simp] theorem get_empty (p : List κ) : (empty : FileTree κ β).get p = none := rfl

theorem read_eq_some_iff {t : FileTree κ β} {p : List κ} {d : β} :
    t.read p = some d ↔ ∃ m, t.get p = some (.file d m) := by
  unfold read
  cases t.get p with
  | none => simp
  | some n => cases n <;> simp

/-- Every proper ancestor of an entry is a directory. -/
theorem isDir_of_prefix [DecidableEq κ] (t : FileTree κ β) {p q : List κ} {n : FileNode β}
    (hp : t.get p = some n) (hq : q <+: p) (hne : q ≠ p) : t.isDir q = true := by
  obtain ⟨r, rfl⟩ := hq
  -- Walk up from the entry, one component at a time.
  induction r using List.reverseRecOn generalizing n with
  | nil => exact absurd (List.append_nil q).symm hne
  | append_singleton r c ih =>
    rw [← List.append_assoc] at hp
    obtain ⟨-, h⟩ := t.closed _ _ hp
    rw [List.dropLast_concat] at h
    rcases h with h | ⟨d, hd, hdir⟩
    · simp [isDir, (List.append_eq_nil_iff.mp h).1]
    · cases r with
      | nil =>
        rw [List.append_nil] at hd
        have hd' : t.get q = some d := hd
        simp [isDir, hd', hdir]
      | cons c' r => exact ih hd (by simp)

/-- Nothing lies strictly below a file. -/
theorem get_eq_none_of_file_prefix [DecidableEq κ] (t : FileTree κ β) {p q : List κ}
    (hq : t.isFile q = true) (hpre : q <+: p) (hne : q ≠ p) : t.get p = none := by
  cases hp : t.get p with
  | none => rfl
  | some n =>
    have hdir := t.isDir_of_prefix hp hpre hne
    cases hgq : t.get q with
    | none => simp [isFile, hgq] at hq
    | some d =>
      have hqne : q ≠ [] := by rintro rfl; simp at hgq
      simp_all [isFile, isDir]

theorem dropLast_ne {p : List κ} (hp : p ≠ []) : p.dropLast ≠ p := by
  intro h
  have hlen := congrArg List.length h
  have hpos := List.length_pos_of_ne_nil hp
  rw [List.length_dropLast] at hlen
  omega

theorem not_prefix_dropLast {p : List κ} (hp : p ≠ []) : ¬ p <+: p.dropLast := by
  intro h
  have hlen := h.length_le
  have hpos := List.length_pos_of_ne_nil hp
  rw [List.length_dropLast] at hlen
  omega

variable [DecidableEq κ]

/-! ## Removing and changing entries -/

/-- Remove the entry at `p` with everything below it. -/
def removeTree (t : FileTree κ β) (p : List κ) : FileTree κ β :=
  ⟨t.nodes.filter fun q _ => !decide (p <+: q), by
    intro q n h
    simp only [FinMap.get_filter, Option.filter_eq_some_iff, Bool.not_eq_true',
      decide_eq_false_iff_not] at h
    obtain ⟨hq, hpq⟩ := h
    refine ⟨(t.closed q n hq).1, (t.closed q n hq).2.imp_right ?_⟩
    rintro ⟨d, hd, hdir⟩
    refine ⟨d, ?_, hdir⟩
    have : ¬ p <+: q.dropLast := fun hp => hpq (hp.trans (List.dropLast_prefix q))
    simp [hd, this]⟩

@[simp] theorem get_removeTree (t : FileTree κ β) (p q : List κ) :
    (t.removeTree p).get q = if p <+: q then none else t.get q := by
  show (t.nodes.get q).filter _ = _
  by_cases h : p <+: q
  · simp [h]
  · cases hq : t.nodes.get q <;> simp [h, hq, get]

/-- `set_file_mtime`: does nothing where nothing exists. -/
def setMtime (t : FileTree κ β) (p : List κ) (m : Nat) : FileTree κ β :=
  match h : t.get p with
  | none => t
  | some n =>
    ⟨t.nodes.insert p (n.setMtime m), by
      intro q d hq
      rw [FinMap.get_insert] at hq
      have hparent : ∀ r e, t.nodes.get r = some e → e.isDir = true →
          ∃ d, (t.nodes.insert p (n.setMtime m)).get r = some d ∧ d.isDir = true := by
        intro r e hr he
        by_cases hrp : r = p
        · subst hrp
          obtain rfl : n = e := Option.some.inj (h.symm.trans hr)
          exact ⟨n.setMtime m, by simp, by simpa using he⟩
        · exact ⟨e, by simp [hrp, hr], he⟩
      have hsome : ∃ e, t.nodes.get q = some e := by
        by_cases hqp : q = p
        · exact ⟨n, hqp ▸ h⟩
        · exact ⟨d, by simpa [hqp] using hq⟩
      obtain ⟨e, he⟩ := hsome
      obtain ⟨h₁, h₂⟩ := t.closed q e he
      exact ⟨h₁, h₂.imp_right fun ⟨d', hd', hdir⟩ => hparent _ d' hd' hdir⟩⟩

theorem get_setMtime (t : FileTree κ β) (p q : List κ) (m : Nat) :
    (t.setMtime p m).get q = if q = p then (t.get p).map (·.setMtime m) else t.get q := by
  unfold setMtime
  split
  · next h =>
    by_cases hq : q = p
    · subst hq; simp [h]
    · simp [hq]
  · next n h =>
    show (t.nodes.insert p _).get q = _
    by_cases hq : q = p
    · subst hq; simp [h]
    · simp [hq, get]

@[simp] theorem read_setMtime (t : FileTree κ β) (p q : List κ) (m : Nat) :
    (t.setMtime p m).read q = t.read q := by
  unfold read
  by_cases hq : q = p
  · subst hq
    rw [get_setMtime, if_pos rfl]
    cases t.get q with
    | none => rfl
    | some n => cases n <;> rfl
  · rw [get_setMtime, if_neg hq]

/-! ## Creating entries -/

/-- `create_dir_all`: every missing directory on the way to `p`. Fails when a
    component on the way is a file. -/
def createDirAll (t : FileTree κ β) (now : Nat) (p : List κ) : Option (FileTree κ β) :=
  if hf : ∀ q ∈ p.inits, t.isFile q = false then
    some ⟨.ofKeys (t.nodes.keys ∪ p.inits.toFinset) fun q =>
        if q ≠ [] ∧ q <+: p ∧ t.get q = none then some (.dir now) else t.get q, by
      have hget : ∀ q, FinMap.get (.ofKeys (t.nodes.keys ∪ p.inits.toFinset) fun q =>
            if q ≠ [] ∧ q <+: p ∧ t.get q = none then some (.dir now) else t.get q) q =
          if q ≠ [] ∧ q <+: p ∧ t.get q = none then some (.dir now) else t.get q := by
        refine FinMap.get_ofKeys_of_support fun q hq => ?_
        by_cases hpq : q <+: p
        · simp [hpq]
        · simp only [hpq, false_and, and_false, if_false] at hq
          exact Finset.mem_union_left _ ((t.nodes.mem_keys q).mpr hq)
      intro q n hq
      rw [hget] at hq
      -- The parent of a new directory is on the way to `p`, so it is there too.
      have hnew : ∀ r, r <+: p → r = [] ∨ ∃ d : FileNode β,
          (if r ≠ [] ∧ r <+: p ∧ t.get r = none then some (.dir now) else t.get r) = some d ∧
            d.isDir = true := by
        intro r hr
        by_cases hr0 : r = []
        · exact .inl hr0
        · right
          cases hgr : t.get r with
          | none => exact ⟨.dir now, by simp [hr0, hr], rfl⟩
          | some d =>
            have := hf r (List.mem_inits r p |>.mpr hr)
            exact ⟨d, by simp, by simpa [isFile, hgr] using this⟩
      simp only [hget]
      split at hq
      · next h => exact ⟨h.1, hnew _ ((List.dropLast_prefix q).trans h.2.1)⟩
      · next h =>
        obtain ⟨h₁, h₂⟩ := t.closed q n hq
        refine ⟨h₁, h₂.imp_right ?_⟩
        rintro ⟨d, hd, hdir⟩
        have hd' : t.get q.dropLast = some d := hd
        exact ⟨d, by simp [hd'], hdir⟩⟩
  else none

theorem createDirAll_eq_none_iff {t : FileTree κ β} {now : Nat} {p : List κ} :
    t.createDirAll now p = none ↔ ∃ q, q <+: p ∧ t.isFile q = true := by
  unfold createDirAll
  split
  · next h =>
    simp only [reduceCtorEq, false_iff, not_exists, not_and, Bool.not_eq_true]
    exact fun q hq => h q ((List.mem_inits q p).mpr hq)
  · next h =>
    simp only [not_forall, Bool.not_eq_false] at h
    obtain ⟨q, hq, hfile⟩ := h
    simp only [true_iff]
    exact ⟨q, (List.mem_inits q p).mp hq, hfile⟩

theorem get_createDirAll {t t' : FileTree κ β} {now : Nat} {p : List κ}
    (h : t.createDirAll now p = some t') (q : List κ) :
    t'.get q = if q ≠ [] ∧ q <+: p ∧ t.get q = none then some (.dir now) else t.get q := by
  unfold createDirAll at h
  split at h
  · obtain rfl := Option.some.inj h
    refine FinMap.get_ofKeys_of_support (fun q hq => ?_) q
    by_cases hpq : q <+: p
    · simp [hpq]
    · simp only [hpq, false_and, and_false, if_false] at hq
      exact Finset.mem_union_left _ ((t.nodes.mem_keys q).mpr hq)
  · cases h

/-- A directory stays one. -/
theorem isDir_createDirAll_of_isDir {t t' : FileTree κ β} {now : Nat} {p q : List κ}
    (h : t.createDirAll now p = some t') (hq : t.isDir q = true) : t'.isDir q = true := by
  unfold isDir at hq ⊢
  rw [get_createDirAll h]
  split
  · simp [FileNode.isDir]
  · exact hq

/-- No content changes. -/
theorem read_createDirAll {t t' : FileTree κ β} {now : Nat} {p : List κ}
    (h : t.createDirAll now p = some t') (q : List κ) : t'.read q = t.read q := by
  unfold read
  by_cases hnew : q ≠ [] ∧ q <+: p ∧ t.get q = none
  · rw [get_createDirAll h, if_pos hnew, hnew.2.2]
  · rw [get_createDirAll h, if_neg hnew]

/-- `fs::write` followed by setting the modification time. Fails on a directory
    and where the parent is not a directory. -/
def write (t : FileTree κ β) (p : List κ) (data : β) (m : Nat) : Option (FileTree κ β) :=
  if h : p ≠ [] ∧ t.isDir p.dropLast = true ∧ t.isDir p = false then
    some ⟨t.nodes.insert p (.file data m), by
      intro q n hq
      rw [FinMap.get_insert] at hq
      have hkeep : ∀ r d, t.nodes.get r = some d → d.isDir = true →
          (t.nodes.insert p (.file data m)).get r = some d := by
        intro r d hr hdir
        have hrp : r ≠ p := by
          rintro rfl
          have : t.get r = some d := hr
          simp [isDir, this, hdir] at h
        simp [hrp, hr]
      split at hq
      · next hqp =>
        subst hqp
        refine ⟨h.1, ?_⟩
        have hd := h.2.1
        simp only [isDir, Bool.or_eq_true, decide_eq_true_eq, Option.any_eq_true] at hd
        exact hd.imp_right fun ⟨d, hd, hdir⟩ => ⟨d, hkeep _ d hd hdir, hdir⟩
      · obtain ⟨h₁, h₂⟩ := t.closed q n hq
        exact ⟨h₁, h₂.imp_right fun ⟨d, hd, hdir⟩ => ⟨d, hkeep _ d hd hdir, hdir⟩⟩⟩
  else none

theorem write_eq_none_iff {t : FileTree κ β} {p : List κ} {data : β} {m : Nat} :
    t.write p data m = none ↔ p = [] ∨ t.isDir p.dropLast = false ∨ t.isDir p = true := by
  unfold write
  split
  · next h => simp [h.1, h.2.1, h.2.2]
  · next h =>
    simp only [true_iff]
    by_contra hc
    push Not at hc
    exact h ⟨hc.1, by simpa using hc.2.1, by simpa using hc.2.2⟩

theorem get_write {t t' : FileTree κ β} {p : List κ} {data : β} {m : Nat}
    (h : t.write p data m = some t') (q : List κ) :
    t'.get q = if q = p then some (.file data m) else t.get q := by
  unfold write at h
  split at h
  · obtain rfl := Option.some.inj h
    rfl
  · cases h

theorem read_write {t t' : FileTree κ β} {p : List κ} {data : β} {m : Nat}
    (h : t.write p data m = some t') (q : List κ) :
    t'.read q = if q = p then some data else t.read q := by
  unfold read
  by_cases hq : q = p
  · rw [get_write h, if_pos hq, if_pos hq]
  · rw [get_write h, if_neg hq, if_neg hq]

/-- Writing a file neither makes nor replaces a directory. -/
theorem isDir_write {t t' : FileTree κ β} {p : List κ} {data : β} {m : Nat}
    (h : t.write p data m = some t') (q : List κ) : t'.isDir q = t.isDir q := by
  by_cases hq : q = p
  · subst hq
    have hnot : ¬ (q = [] ∨ t.isDir q.dropLast = false ∨ t.isDir q = true) := by
      rw [← @write_eq_none_iff _ _ _ t q data m, h]
      simp
    have hroot : q ≠ [] := fun hc => hnot (.inl hc)
    have hdir : t.isDir q = false := by simpa using fun hc => hnot (.inr (.inr hc))
    rw [hdir]
    simp [isDir, get_write h, hroot, FileNode.isDir]
  · simp [isDir, get_write h, hq]

/-! ## Moving entries -/

/-- The lookup after moving the subtree at `f` to `g`: what was at `f ++ r` is now
    at `g ++ r`, and nothing is left at or below `f`. -/
def movedGet (t : FileTree κ β) (f g q : List κ) : Option (FileNode β) :=
  if g <+: q then t.get (f ++ q.drop g.length)
  else if f <+: q then none
  else t.get q

theorem movedGet_support (t : FileTree κ β) (f g q : List κ) (hq : (t.movedGet f g q).isSome) :
    q ∈ t.nodes.keys ∪ t.nodes.keys.image fun q => g ++ q.drop f.length := by
  unfold movedGet at hq
  split at hq
  · next hgq =>
    obtain ⟨r, rfl⟩ := hgq
    rw [List.drop_left] at hq
    refine Finset.mem_union_right _ (Finset.mem_image.mpr ⟨f ++ r, ?_, by simp⟩)
    exact (t.nodes.mem_keys _).mpr hq
  · split at hq
    · exact absurd hq (by simp)
    · exact Finset.mem_union_left _ ((t.nodes.mem_keys q).mpr hq)

/-- A directory with no entry in it. -/
def isEmptyDir (t : FileTree κ β) (p : List κ) : Bool :=
  t.isDir p && decide (∀ q ∈ t.nodes.keys, p <+: q → q = p)

/-- `fs::rename` onto `g` can replace what is there: a file replaces a file, a
    directory an empty directory. -/
def replaceable (t : FileTree κ β) (f g : List κ) : Bool :=
  match t.get g with
  | none => true
  | some d => if t.isDir f then t.isEmptyDir g else !d.isDir

theorem eq_of_prefix_of_replaceable {t : FileTree κ β} {f g q : List κ} {n : FileNode β}
    (hr : t.replaceable f g = true) (hq : t.get q = some n) (hg : (t.get g).isSome = true)
    (hgq : g <+: q) : q = g := by
  obtain ⟨d, hd⟩ := Option.isSome_iff_exists.mp hg
  by_contra hne
  simp only [replaceable, hd] at hr
  split at hr
  · simp only [isEmptyDir, Bool.and_eq_true, decide_eq_true_eq] at hr
    exact hne (hr.2 q (FinMap.mem_keys_of_get hq) hgq)
  · have hfile : t.isFile g = true := by simpa [isFile, hd] using hr
    have := t.get_eq_none_of_file_prefix hfile hgq (Ne.symm hne)
    simp [this] at hq

/-- The conditions under which `rename` moves something. -/
structure CanMove (t : FileTree κ β) (f g : List κ) : Prop where
  source : (t.get f).isSome = true
  dest_ne_root : g ≠ []
  not_below : ¬ f <+: g
  parent : t.isDir g.dropLast = true
  replaces : t.replaceable f g = true

instance (t : FileTree κ β) (f g : List κ) : Decidable (t.CanMove f g) :=
  decidable_of_iff ((t.get f).isSome = true ∧ g ≠ [] ∧ ¬ f <+: g ∧ t.isDir g.dropLast = true ∧
      t.replaceable f g = true)
    ⟨fun ⟨a, b, c, d, e⟩ => ⟨a, b, c, d, e⟩, fun ⟨a, b, c, d, e⟩ => ⟨a, b, c, d, e⟩⟩

theorem CanMove.source_not_below {t : FileTree κ β} {f g : List κ} (h : t.CanMove f g) :
    ¬ g <+: f := by
  intro hgf
  have hne : g ≠ f := fun e => h.not_below (e ▸ List.prefix_refl _)
  obtain ⟨n, hn⟩ := Option.isSome_iff_exists.mp h.source
  have hdir := t.isDir_of_prefix hn hgf hne
  have hg : (t.get g).isSome = true := by
    simp only [isDir, h.dest_ne_root, decide_false, Bool.false_or, Option.any_eq_true] at hdir
    obtain ⟨d, hd, -⟩ := hdir
    exact hd ▸ rfl
  exact hne (eq_of_prefix_of_replaceable h.replaces hn hg hgf).symm

/-- Moving the subtree at `f` to `g`. -/
def move (t : FileTree κ β) (f g : List κ) (h : t.CanMove f g) : FileTree κ β :=
  ⟨.ofKeys (t.nodes.keys ∪ t.nodes.keys.image fun q => g ++ q.drop f.length) (t.movedGet f g), by
    have hget := FinMap.get_ofKeys_of_support (t.movedGet_support f g)
    intro q n hq
    simp only [hget] at hq ⊢
    have hfg := h.not_below
    have hgf := h.source_not_below
    by_cases hgq : g <+: q
    · obtain ⟨r, rfl⟩ := hgq
      refine ⟨by simp [h.dest_ne_root], ?_⟩
      -- The moved top takes the parent of `g`; below it parents move along.
      cases r using List.reverseRecOn with
      | nil =>
        rw [List.append_nil]
        have hparent := h.parent
        simp only [isDir, Bool.or_eq_true, decide_eq_true_eq, Option.any_eq_true] at hparent
        refine hparent.imp_right fun ⟨d, hd, hdir⟩ => ⟨d, ?_, hdir⟩
        have h₁ : ¬ g <+: g.dropLast := by
          intro hp
          have := hp.length_le
          have := List.length_pos_of_ne_nil h.dest_ne_root
          rw [List.length_dropLast] at *
          omega
        have h₂ : ¬ f <+: g.dropLast := fun hp => hfg (hp.trans (List.dropLast_prefix g))
        simpa [movedGet, h₁, h₂] using hd
      | append_singleton r c _ =>
        rw [← List.append_assoc, List.dropLast_concat]
        right
        have hq' : t.get (f ++ r ++ [c]) = some n := by simpa [movedGet] using hq
        obtain ⟨-, hc⟩ := t.closed _ _ hq'
        rw [List.dropLast_concat] at hc
        have hne : f ++ r ≠ [] := by
          intro he
          obtain ⟨rfl, -⟩ := List.append_eq_nil_iff.mp he
          exact hfg (List.nil_prefix)
        obtain ⟨d, hd, hdir⟩ := hc.resolve_left hne
        exact ⟨d, by simpa [movedGet, get] using hd, hdir⟩
    · have hfq : ¬ f <+: q := by
        intro hfq
        simp [movedGet, hgq, hfq] at hq
      have hq' : t.get q = some n := by simpa [movedGet, hgq, hfq] using hq
      obtain ⟨h₁, h₂⟩ := t.closed q n hq'
      refine ⟨h₁, h₂.imp_right fun ⟨d, hd, hdir⟩ => ⟨d, ?_, hdir⟩⟩
      have h₃ : ¬ g <+: q.dropLast := fun hp => hgq (hp.trans (List.dropLast_prefix q))
      have h₄ : ¬ f <+: q.dropLast := fun hp => hfq (hp.trans (List.dropLast_prefix q))
      simpa [movedGet, h₃, h₄, get] using hd⟩

theorem get_move (t : FileTree κ β) (f g : List κ) (h : t.CanMove f g) (q : List κ) :
    (t.move f g h).get q = t.movedGet f g q :=
  FinMap.get_ofKeys_of_support (t.movedGet_support f g) q

/-- `fs::rename`: renaming a path to itself succeeds and changes nothing. -/
def rename (t : FileTree κ β) (f g : List κ) : Option (FileTree κ β) :=
  if f = g then if (t.get f).isSome then some t else none
  else if h : t.CanMove f g then some (t.move f g h)
  else none

theorem get_rename {t t' : FileTree κ β} {f g : List κ} (hne : f ≠ g)
    (h : t.rename f g = some t') (q : List κ) : t'.get q = t.movedGet f g q := by
  unfold rename at h
  rw [if_neg hne] at h
  split at h
  · next hc =>
    obtain rfl := Option.some.inj h
    exact t.get_move f g hc q
  · cases h

theorem rename_eq_some_iff {t : FileTree κ β} {f g : List κ} (hne : f ≠ g) :
    (t.rename f g).isSome = true ↔ t.CanMove f g := by
  unfold rename
  rw [if_neg hne]
  split
  · next h => exact iff_of_true rfl h
  · next h => exact iff_of_false (by simp) h

theorem createDirAll_isSome_iff {t : FileTree κ β} (now : Nat) {p : List κ} :
    (t.createDirAll now p).isSome = true ↔ ∀ q, q <+: p → t.isFile q = false := by
  rw [Option.isSome_iff_ne_none, ne_eq, createDirAll_eq_none_iff]
  simp

/-! ## The part below a directory -/

/-- The trees hold the same at `d` and below it. -/
def SameBelow (d : List κ) (t t' : FileTree κ β) : Prop := ∀ q, d <+: q → t'.get q = t.get q

namespace SameBelow

variable {d p f g : List κ} {t t' t'' : FileTree κ β}

omit [DecidableEq κ] in
theorem refl (d : List κ) (t : FileTree κ β) : SameBelow d t t := fun _ _ => rfl

omit [DecidableEq κ] in
theorem trans (h : SameBelow d t t') (h' : SameBelow d t' t'') : SameBelow d t t'' := by
  intro q hq
  rw [h' q hq, h q hq]

theorem createDirAll {now : Nat} (hp : ¬ d <+: p) (h : t.createDirAll now p = some t') :
    SameBelow d t t' := by
  intro q hq
  rw [get_createDirAll h, if_neg fun hmade => hp (hq.trans hmade.2.1)]

theorem write {data : β} {m : Nat} (hp : ¬ d <+: p) (h : t.write p data m = some t') :
    SameBelow d t t' := by
  intro q hq
  have hne : q ≠ p := fun heq => hp (heq ▸ hq)
  rw [get_write h, if_neg hne]

theorem setMtime (t : FileTree κ β) (m : Nat) (hp : ¬ d <+: p) : SameBelow d t (t.setMtime p m) := by
  intro q hq
  have hne : q ≠ p := fun heq => hp (heq ▸ hq)
  rw [get_setMtime, if_neg hne]

theorem removeTree (t : FileTree κ β) (hp : ¬ p <+: d) (hd : ¬ d <+: p) :
    SameBelow d t (t.removeTree p) := by
  intro q hq
  have hout : ¬ p <+: q := fun hpq => (List.prefix_or_prefix_of_prefix hpq hq).elim hp hd
  rw [get_removeTree, if_neg hout]

/-- The root cannot be replaced, so the target may be given by its own name alone. -/
theorem rename (hf : ¬ f <+: d) (hd : ¬ d <+: f) (hg : ¬ d <+: g) (hgd : g = [] ∨ ¬ g <+: d)
    (h : t.rename f g = some t') : SameBelow d t t' := by
  intro q hq
  by_cases hfg : f = g
  · unfold FileTree.rename at h
    rw [if_pos hfg] at h
    split at h
    · rw [Option.some.inj h]
    · cases h
  · have hcan : t.CanMove f g := (rename_eq_some_iff hfg).mp (by rw [h]; rfl)
    have houtf : ¬ f <+: q := fun hpq => (List.prefix_or_prefix_of_prefix hpq hq).elim hf hd
    have houtg : ¬ g <+: q := fun hpq => (List.prefix_or_prefix_of_prefix hpq hq).elim
      (hgd.resolve_left hcan.dest_ne_root) hg
    rw [get_rename hfg h, movedGet, if_neg houtg, if_neg houtf]

end SameBelow

/-! ## Trees that differ in times only -/

/-- The same node, but for modification times that `K` relates. -/
def Restamped (K : Nat → Nat → Prop) (n n' : FileNode β) : Prop :=
  n = n' ∨ n.setMtime 0 = n'.setMtime 0 ∧ K n.mtime n'.mtime

/-- The same entries, but for modification times that `K` relates. -/
def Alike (K : Nat → Nat → Prop) (t t' : FileTree κ β) : Prop :=
  ∀ q, Option.Rel (Restamped K) (t.get q) (t'.get q)

namespace Alike

variable {K : Nat → Nat → Prop} {t t' s s' : FileTree κ β} {p : List κ}

omit [DecidableEq κ] in
theorem refl (K : Nat → Nat → Prop) (t : FileTree κ β) : Alike K t t := by
  intro q
  cases t.get q with
  | none => exact .none
  | some n => exact .some (.inl rfl)

omit [DecidableEq κ] in
theorem isDir_eq {n n' : FileNode β} (h : Restamped K n n') : n.isDir = n'.isDir := by
  rcases h with rfl | ⟨heq, -⟩
  · rfl
  · rw [← FileNode.isDir_setMtime 0 n, heq, FileNode.isDir_setMtime]

theorem isDir (h : Alike K t t') (q : List κ) : t.isDir q = t'.isDir q := by
  unfold FileTree.isDir
  have hq := h q
  cases hn : t.get q with
  | none =>
    rw [hn] at hq
    cases hn' : t'.get q with
    | none => rfl
    | some n' => rw [hn'] at hq; cases hq
  | some n =>
    rw [hn] at hq
    cases hn' : t'.get q with
    | none => rw [hn'] at hq; cases hq
    | some n' =>
      rw [hn'] at hq
      cases hq with
      | some hnn' => simp [isDir_eq hnn']

theorem write_isSome {data : β} {m : Nat} (h : Alike K t t') (hw : (t.write p data m).isSome = true) :
    (t'.write p data m).isSome = true := by
  rw [Option.isSome_iff_ne_none, ne_eq, write_eq_none_iff] at hw ⊢
  rw [← h.isDir, ← h.isDir]
  exact hw

theorem write {data : β} {m m' : Nat} (h : Alike K t t') (hm : m = m' ∨ K m m')
    (hw : t.write p data m = some s) (hw' : t'.write p data m' = some s') : Alike K s s' := by
  intro q
  rw [get_write hw, get_write hw']
  split
  · refine .some ?_
    rcases hm with rfl | hm
    · exact .inl rfl
    · exact .inr ⟨rfl, hm⟩
  · exact h q

theorem createDirAll {now now' : Nat} (h : Alike K t t') (hnow : K now now')
    (hc : t.createDirAll now p = some s) (hc' : t'.createDirAll now' p = some s') : Alike K s s' := by
  intro q
  have hq := h q
  rw [get_createDirAll hc, get_createDirAll hc']
  cases hn : t.get q with
  | none =>
    rw [hn] at hq
    cases hn' : t'.get q with
    | some n' => rw [hn'] at hq; cases hq
    | none =>
      split
      · exact .some (.inr ⟨rfl, hnow⟩)
      · exact .none
  | some n =>
    rw [hn] at hq
    cases hn' : t'.get q with
    | none => rw [hn'] at hq; cases hq
    | some n' =>
      rw [hn'] at hq
      simpa using hq

end Alike

/-- What is above a directory is one. -/
theorem isDir_of_prefix_isDir {t : FileTree κ β} {d q : List κ} (hd : t.isDir d = true)
    (hq : q <+: d) : t.isDir q = true := by
  by_cases hne : q = d
  · rw [hne]
    exact hd
  · by_cases hroot : d = []
    · rw [hroot] at hq hne
      exact absurd (List.prefix_nil.mp hq) hne
    · simp only [isDir, hroot, decide_false, Bool.false_or, Option.any_eq_true] at hd
      obtain ⟨n, hn, -⟩ := hd
      exact t.isDir_of_prefix hn hq hne

/-- Nothing is below a path at which nothing is. -/
theorem get_append_eq_none {t : FileTree κ β} {p : List κ} (hp : p ≠ []) (h : t.get p = none)
    (r : List κ) : t.get (p ++ r) = none := by
  cases hr : t.get (p ++ r) with
  | none => rfl
  | some n =>
    by_cases hne : p = p ++ r
    · rw [← hne, h] at hr
      cases hr
    · have hdir := t.isDir_of_prefix hr (List.prefix_append p r) hne
      simp [isDir, hp, h] at hdir

/-- A directory that is there need not be made. -/
theorem createDirAll_of_isDir {t : FileTree κ β} {d : List κ} (hd : t.isDir d = true) (now : Nat) :
    t.createDirAll now d = some t := by
  have hdir : ∀ q, q <+: d → t.isDir q = true := fun q hq => isDir_of_prefix_isDir hd hq
  have hsome : (t.createDirAll now d).isSome = true := by
    rw [createDirAll_isSome_iff]
    intro q hq
    have hd := hdir q hq
    cases hg : t.get q with
    | none => simp [isFile, hg]
    | some d =>
      have hroot : q ≠ [] := by
        rintro rfl
        simp at hg
      simpa [isFile, isDir, hg, hroot] using hd
  obtain ⟨t', ht'⟩ := Option.isSome_iff_exists.mp hsome
  have hsame : t' = t := by
    refine ext_get fun q => ?_
    rw [get_createDirAll ht', if_neg]
    rintro ⟨hne, hq, hnone⟩
    have hd := hdir q hq
    simp [isDir, hne, hnone] at hd
  rw [ht', hsame]

/-- Where there is an entry its parents need not be made. -/
theorem createDirAll_of_get {t : FileTree κ β} {p : List κ} {n : FileNode β} (hn : t.get p = some n)
    (now : Nat) : t.createDirAll now p.dropLast = some t := by
  have hp : p ≠ [] := by
    rintro rfl
    simp at hn
  exact createDirAll_of_isDir
    (t.isDir_of_prefix hn (List.dropLast_prefix p) (dropLast_ne hp)) now

/-! ## Names in a directory -/

/-- From the paths of all entries the names of those right below `p`, in their order. -/
def childNames {κ : Type u} [LinearOrder κ] (paths : Finset (List κ)) (p : List κ) : List κ :=
  (paths.biUnion fun q => if q.dropLast = p then q.getLast?.toFinset else ∅).sort

theorem mem_childNames {κ : Type u} [LinearOrder κ] {paths : Finset (List κ)} {p : List κ}
    {c : κ} : c ∈ childNames paths p ↔ p ++ [c] ∈ paths := by
  rw [childNames, Finset.mem_sort, Finset.mem_biUnion]
  constructor
  · intro ⟨q, hq, hc⟩
    split at hc
    · next hparent =>
      rw [Option.mem_toFinset, Option.mem_def] at hc
      rw [← hparent, List.dropLast_append_getLast? c hc]
      exact hq
    · exact absurd hc (Finset.notMem_empty c)
  · intro h
    exact ⟨p ++ [c], h, by simp⟩

theorem childNames_nodup {κ : Type u} [LinearOrder κ] (paths : Finset (List κ)) (p : List κ) :
    (childNames paths p).Nodup := Finset.sort_nodup _ _

end FileTree
