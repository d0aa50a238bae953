import ByteHive.ForStd.Separated
import ByteHive.Spec.EngineFrame
import ByteHive.Spec.LedgerOrder

/-!
# What a delete takes

A delete of `p` looks at `p` and at the manifest keys below it. Those with a live record that is
not older stay; of the others it takes every one that is no directory on disk, and every directory
with no such key below it, each with all that lies below.

The manifest can list paths that are not on disk. What a list of deletes takes is therefore said
in terms of the state before the first one: a live record holds a directory back only until an
earlier path of the list has stripped its key.

## Key results

- `manifest_deletePath` / `tree_deletePath`: what one path of the list takes
- `DeletesInv.step`: what a list of paths keeps of the state before it
- `DeletesInv.run`: the same for the whole loop
-/

namespace ByteHive

/-- The path has a live record that is not older than the delete. -/
def Recreated (l : DeletionLedger) (t : Nat) (k : PathBuf) : Prop :=
  0 < l.aliveSince k ∧ t ≤ l.aliveSince k

instance (l : DeletionLedger) (t : Nat) (k : PathBuf) : Decidable (Recreated l t k) :=
  inferInstanceAs (Decidable (_ ∧ _))

namespace SyncEngine

/-- A delete of `p` is aimed at `x`. -/
def Aimed (e : SyncEngine) (t : Nat) (p x : PathBuf) : Prop :=
  p <+: x ∧ (x = p ∨ e.manifest.Lists x) ∧ ¬Recreated e.ledger t x

/-- A delete of `p` takes `x` with all that lies below it. -/
def Taken (e : SyncEngine) (t : Nat) (p x : PathBuf) : Prop :=
  e.Aimed t p x ∧
    (e.tree.isDir x = true →
      ∀ k, e.manifest.Lists k → Recreated e.ledger t k → x <+: k → k = x)

/-- Nothing protects anything from a delete of `p`, which is no directory on disk. -/
def Bare (e : SyncEngine) (t : Nat) (p : PathBuf) : Prop :=
  e.tree.isDir p = false ∧ ¬Recreated e.ledger t p ∧
    ∀ k, e.manifest.Lists k → p <+: k → ¬Recreated e.ledger t k

/-- A delete of `p` drops the manifest key `k`. -/
def Drops (e : SyncEngine) (t : Nat) (p k : PathBuf) : Prop :=
  (e.Bare t p ∧ k = p) ∨ (¬e.Bare t p ∧ ∃ x, e.Taken t p x ∧ x <+: k)

/-! ## One path -/

variable {h : Host} {t : Nat}

theorem mem_manifestSubtree {m : Manifest} {p x : PathBuf} :
    x ∈ manifestSubtree h m p ↔ p <+: x ∧ (x = p ∨ m.Lists x) := by
  unfold manifestSubtree Manifest.Lists
  rw [List.mem_cons, List.mem_filter, h.order.mem_toList, FinMap.mem_keys]
  simp only [Bool.and_eq_true, decide_eq_true_eq]
  by_cases hx : x = p
  · simp [hx]
  · simp [hx, and_comm]

theorem mem_protectedPaths {e : SyncEngine} {p k : PathBuf} :
    k ∈ protectedPaths e.ledger (manifestSubtree h e.manifest p) t ↔
      p <+: k ∧ (k = p ∨ e.manifest.Lists k) ∧ Recreated e.ledger t k := by
  unfold protectedPaths Recreated
  rw [List.mem_filter, mem_manifestSubtree]
  simp only [Bool.and_eq_true, decide_eq_true_eq]
  exact and_assoc

theorem protectedPaths_eq_nil_iff {e : SyncEngine} {p : PathBuf} :
    protectedPaths e.ledger (manifestSubtree h e.manifest p) t = [] ↔
      ¬Recreated e.ledger t p ∧
        ∀ k, e.manifest.Lists k → p <+: k → ¬Recreated e.ledger t k := by
  rw [List.eq_nil_iff_forall_not_mem]
  constructor
  · intro hnone
    have hself : ¬Recreated e.ledger t p := fun hr =>
      hnone p (mem_protectedPaths.mpr ⟨List.prefix_refl p, .inl rfl, hr⟩)
    have hbelow : ∀ k, e.manifest.Lists k → p <+: k → ¬Recreated e.ledger t k :=
      fun k hk hpk hr => hnone k (mem_protectedPaths.mpr ⟨hpk, .inr hk, hr⟩)
    exact ⟨hself, hbelow⟩
  · intro hnone k hk
    obtain ⟨hpk, hlisted, hr⟩ := mem_protectedPaths.mp hk
    rcases hlisted with heq | hlisted
    · rw [heq] at hr
      exact hnone.1 hr
    · exact hnone.2 k hlisted hpk hr

/-- A target that the loop does not skip for what it protects. -/
def Clear (tree : Tree) (guarded : List PathBuf) (x : PathBuf) : Prop :=
  tree.isDir x = true → ∀ q ∈ guarded, x <+: q → q = x

theorem clear_iff {tree : Tree} {guarded : List PathBuf} {x : PathBuf} :
    Clear tree guarded x ↔
      (tree.isDir x && guarded.any fun q =>
        Decidable.decide (q ≠ x) && Decidable.decide (x <+: q)) = false := by
  unfold Clear
  rw [Bool.and_eq_false_iff]
  cases hdir : tree.isDir x with
  | false => simp
  | true =>
    simp only [true_implies, Bool.true_eq_false, false_or, List.any_eq_false, Bool.and_eq_true,
      decide_eq_true_eq, not_and]
    constructor
    · intro hall q hq hne hxq
      exact hne (hall q hq hxq)
    · intro hall q hq hxq
      by_contra hne
      exact hall q hq hne hxq

theorem isDir_moveToTrash {tree : Tree} {x y : PathBuf} (hxy : ¬ x <+: y) :
    (h.moveToTrash tree x).isDir y = tree.isDir y := by
  unfold Host.moveToTrash
  split
  · rfl
  · unfold FileTree.isDir
    rw [FileTree.get_removeTree, if_neg hxy]

theorem clear_moveToTrash {tree : Tree} {guarded : List PathBuf} {x y : PathBuf}
    (hxy : ¬ x <+: y) : Clear (h.moveToTrash tree x) guarded y ↔ Clear tree guarded y := by
  unfold Clear
  rw [isDir_moveToTrash hxy]

/-- What one round of the loop over the targets does to the engine. -/
def takeTarget (h : Host) (e : SyncEngine) (x : PathBuf) : SyncEngine :=
  { e with
    suppressedDeletes := insert x e.suppressedDeletes
    tree := h.moveToTrash e.tree x
    manifest := { e.manifest with
      files := e.manifest.files.filter fun k _ => !Decidable.decide (x <+: k) } }

section Targets

variable {α : Type} {guarded : List PathBuf} {k : PathBuf} (v : SyncEngine → Option α)

/-- What no round brings back stays away. -/
theorem deleteTargets_none (hv : ∀ e x, v e = none → v (takeTarget h e x) = none)
    (targets : List PathBuf) (s : DeleteRun) (gone : List PathBuf) (hs : v s.engine = none) :
    v (deleteTargets h guarded s gone targets).engine = none := by
  induction targets generalizing s gone with
  | nil => exact hs
  | cons x targets ih =>
    unfold deleteTargets
    split
    · exact ih s gone hs
    · split
      · exact ih s gone hs
      · exact ih _ _ (hv s.engine x hs)

/-- What only a target at or above `k` changes is as before when none is taken. -/
theorem deleteTargets_same (hv : ∀ e x, ¬ x <+: k → v (takeTarget h e x) = v e)
    (targets : List PathBuf) (s : DeleteRun) (gone : List PathBuf)
    (hnot : ∀ x ∈ targets, Clear s.engine.tree guarded x → ¬ x <+: k) :
    v (deleteTargets h guarded s gone targets).engine = v s.engine := by
  induction targets generalizing s gone with
  | nil => rfl
  | cons x targets ih =>
    have hrest : ∀ y ∈ targets, Clear s.engine.tree guarded y → ¬ y <+: k := fun y hy =>
      hnot y (by simp [hy])
    unfold deleteTargets
    split
    · exact ih s gone hrest
    · split
      · exact ih s gone hrest
      · next hskip =>
        have hx : ¬ x <+: k := hnot x (by simp) (clear_iff.mpr (by simpa using hskip))
        have hstep := ih { s with engine := takeTarget h s.engine x, removed := s.removed ++ [x] }
          (gone ++ [x]) fun y hy hclear hyk =>
            hrest y hy ((clear_moveToTrash fun hxy => hx (hxy.trans hyk)).mp hclear) hyk
        exact hstep.trans (hv s.engine x hx)

/-- What a taken target empties is empty after the loop. Below an earlier one it is so already. -/
theorem deleteTargets_taken (hv : ∀ e x, v (takeTarget h e x) = if x <+: k then none else v e)
    (targets : List PathBuf) (s : DeleteRun) (gone : List PathBuf)
    (hgone : ∀ g ∈ gone, g <+: k → v s.engine = none) {x : PathBuf} (hx : x ∈ targets)
    (hclear : Clear s.engine.tree guarded x) (hxk : x <+: k) :
    v (deleteTargets h guarded s gone targets).engine = none := by
  have hkeep : ∀ e x, v e = none → v (takeTarget h e x) = none := by
    intro e x he
    rw [hv]
    split
    · rfl
    · exact he
  induction targets generalizing s gone with
  | nil => cases hx
  | cons y targets ih =>
    unfold deleteTargets
    split
    · next hany =>
      rcases List.mem_cons.mp hx with rfl | hx
      · obtain ⟨g, hg, hgx⟩ := List.any_eq_true.mp hany
        exact deleteTargets_none v hkeep _ _ _ (hgone g hg ((of_decide_eq_true hgx).trans hxk))
      · exact ih s gone hgone hx hclear
    · split
      · next hskip =>
        rcases List.mem_cons.mp hx with rfl | hx
        · rw [clear_iff.mp hclear] at hskip
          cases hskip
        · exact ih s gone hgone hx hclear
      · show v (deleteTargets h guarded
            { s with engine := takeTarget h s.engine y, removed := s.removed ++ [y] }
            (gone ++ [y]) targets).engine = none
        by_cases hyk : y <+: k
        · refine deleteTargets_none v hkeep _ _ _ ?_
          show v (takeTarget h s.engine y) = none
          rw [hv, if_pos hyk]
        · have hx : x ∈ targets :=
            (List.mem_cons.mp hx).resolve_left fun heq => hyk (heq ▸ hxk)
          refine ih _ _ ?_ hx ((clear_moveToTrash fun hyx => hyk (hyx.trans hxk)).mpr hclear)
          intro g hg hgk
          show v (takeTarget h s.engine y) = none
          rw [hv, if_neg hyk]
          rcases List.mem_append.mp hg with hg | hg
          · exact hgone g hg hgk
          · rw [List.mem_singleton.mp hg] at hgk
            exact absurd hgk hyk

/-- What each round leaves alone or empties is as before the loop or empty. -/
theorem deleteTargets_or (hv : ∀ e x, v (takeTarget h e x) = v e ∨ v (takeTarget h e x) = none)
    (targets : List PathBuf) (s : DeleteRun) (gone : List PathBuf) :
    v (deleteTargets h guarded s gone targets).engine = v s.engine ∨
      v (deleteTargets h guarded s gone targets).engine = none := by
  induction targets generalizing s gone with
  | nil => exact .inl rfl
  | cons x targets ih =>
    unfold deleteTargets
    split
    · exact ih s gone
    · split
      · exact ih s gone
      · rcases ih { s with engine := takeTarget h s.engine x, removed := s.removed ++ [x] }
          (gone ++ [x]) with hsame | hnone
        · rcases hv s.engine x with hv | hv
          · exact .inl (hsame.trans hv)
          · exact .inr (hsame.trans hv)
        · exact .inr hnone

end Targets

section View

variable {k : PathBuf}

theorem manifest_takeTarget (e : SyncEngine) (x : PathBuf) :
    (takeTarget h e x).manifest.files.get k =
      if x <+: k then none else e.manifest.files.get k := by
  simp only [takeTarget, FinMap.get_filter]
  by_cases hxk : x <+: k
  · cases e.manifest.files.get k <;> simp [hxk]
  · cases e.manifest.files.get k <;> simp [hxk]

theorem tree_takeTarget (hremove : ∀ p, h.fails (.remove p) = false) (e : SyncEngine)
    (x : PathBuf) :
    (takeTarget h e x).tree.get k = if x <+: k then none else e.tree.get k := by
  simp [takeTarget, Host.moveToTrash, hremove]

theorem tree_takeTarget_of_not (e : SyncEngine) (x : PathBuf) (hxk : ¬ x <+: k) :
    (takeTarget h e x).tree.get k = e.tree.get k := by
  simp only [takeTarget, Host.moveToTrash]
  split
  · rfl
  · rw [FileTree.get_removeTree, if_neg hxk]

theorem tree_takeTarget_or (e : SyncEngine) (x : PathBuf) :
    (takeTarget h e x).tree.get k = e.tree.get k ∨ (takeTarget h e x).tree.get k = none := by
  simp only [takeTarget, Host.moveToTrash]
  split
  · exact .inl rfl
  · rw [FileTree.get_removeTree]
    split
    · exact .inr rfl
    · exact .inl rfl

end View

/-! ### The two branches -/

section Branches

variable {s : DeleteRun} {p : PathBuf}

/-- What the delete looks at: the live records that hold it back, and the rest by depth. -/
def heldBack (h : Host) (t : Nat) (e : SyncEngine) (p : PathBuf) : List PathBuf :=
  protectedPaths e.ledger (manifestSubtree h e.manifest p) t

def targetsOf (h : Host) (t : Nat) (e : SyncEngine) (p : PathBuf) : List PathBuf :=
  ((manifestSubtree h e.manifest p).filter fun x =>
    !Decidable.decide (x ∈ heldBack h t e p)).insertionSort fun a b => a.length ≤ b.length

theorem mem_targetsOf {e : SyncEngine} {x : PathBuf} : x ∈ targetsOf h t e p ↔ e.Aimed t p x := by
  unfold targetsOf
  rw [(List.perm_insertionSort _ _).mem_iff, List.mem_filter, mem_manifestSubtree, Aimed,
    and_assoc]
  refine and_congr_right fun hpx => and_congr_right fun hlisted => ?_
  rw [Bool.not_eq_true', decide_eq_false_iff_not, heldBack, mem_protectedPaths]
  simp [hpx, hlisted]

theorem taken_iff {e : SyncEngine} {x : PathBuf} :
    e.Taken t p x ↔ x ∈ targetsOf h t e p ∧ Clear e.tree (heldBack h t e p) x := by
  rw [mem_targetsOf]
  refine and_congr_right fun haimed => ?_
  unfold Clear heldBack
  refine imp_congr_right fun _ => ?_
  constructor
  · intro hall q hq hxq
    obtain ⟨-, hlisted, hr⟩ := mem_protectedPaths.mp hq
    rcases hlisted with heq | hlisted
    · -- `p` lies above its targets.
      rw [heq] at hxq ⊢
      exact (haimed.1.eq_of_length (le_antisymm haimed.1.length_le hxq.length_le))
    · exact hall q hlisted hr hxq
  · intro hall k hk hr hxk
    exact hall k (mem_protectedPaths.mpr ⟨haimed.1.trans hxk, .inr hk, hr⟩) hxk

/-- The engine after one path of the list. -/
theorem engine_deletePath (hsafe : safeRelative p = true) :
    (deletePath h t s p).engine =
      (if heldBack h t s.engine p = [] then
        deleteWhole h s p (manifestSubtree h s.engine.manifest p)
      else deleteTargets h (heldBack h t s.engine p) s [] (targetsOf h t s.engine p)).engine := by
  unfold deletePath
  simp only [hsafe, Bool.not_true, Bool.false_eq_true, if_false]
  rfl

theorem deletePath_unconfined (hsafe : ¬safeRelative p = true) : deletePath h t s p = s := by
  unfold deletePath
  simp [hsafe]

/-- With nothing held back the path itself is taken. -/
theorem taken_self {e : SyncEngine} (hheld : heldBack h t e p = []) : e.Taken t p p := by
  obtain ⟨hself, hbelow⟩ := protectedPaths_eq_nil_iff.mp hheld
  have haimed : e.Aimed t p p := ⟨List.prefix_refl p, .inl rfl, hself⟩
  exact ⟨haimed, fun _ k hk hr hpk => absurd hr (hbelow k hk hpk)⟩

theorem bare_iff {e : SyncEngine} :
    e.Bare t p ↔ heldBack h t e p = [] ∧ e.tree.isDir p = false := by
  unfold Bare heldBack
  rw [protectedPaths_eq_nil_iff, and_comm]

theorem manifest_deletePath {k : PathBuf} (hsafe : safeRelative p = true)
    (hdrop : s.engine.Drops t p k) :
    (deletePath h t s p).engine.manifest.files.get k = none := by
  rw [engine_deletePath hsafe]
  split
  · next hheld =>
    have hmem : k ∈ (if s.engine.tree.isDir p then manifestSubtree h s.engine.manifest p
        else [p]) ∨ s.engine.manifest.files.get k = none := by
      by_cases hdir : s.engine.tree.isDir p = true
      · rw [if_pos hdir]
        have hnot : ¬s.engine.Bare t p := fun hbare => by
          rw [hbare.1] at hdir
          cases hdir
        obtain ⟨x, hx, hxk⟩ := (hdrop.resolve_left fun hb => hnot hb.1).2
        have hpk : p <+: k := hx.1.1.trans hxk
        cases hk : s.engine.manifest.files.get k with
        | none => exact .inr rfl
        | some m =>
          have hlists : s.engine.manifest.Lists k := by
            unfold Manifest.Lists
            rw [hk]
            rfl
          exact .inl (mem_manifestSubtree.mpr ⟨hpk, .inr hlists⟩)
      · have hbare : s.engine.Bare t p := (bare_iff (h := h)).mpr ⟨hheld, by simpa using hdir⟩
        rcases hdrop with ⟨-, hk⟩ | ⟨hnot, -⟩
        · rw [if_neg hdir, hk]
          exact .inl (by simp)
        · exact absurd hbare hnot
    show (s.engine.manifest.files.filter fun k _ => !Decidable.decide (k ∈ _)).get k = none
    rw [FinMap.get_filter]
    rcases hmem with hmem | hnone
    · cases s.engine.manifest.files.get k <;> simp [hmem]
    · rw [hnone]
      rfl
  · next hheld =>
    have hnot : ¬s.engine.Bare t p := fun hb => hheld ((bare_iff (h := h)).mp hb).1
    obtain ⟨x, hx, hxk⟩ := (hdrop.resolve_left fun hb => hnot hb.1).2
    obtain ⟨hmem, hclear⟩ := (taken_iff (h := h)).mp hx
    exact deleteTargets_taken (fun e => e.manifest.files.get k) manifest_takeTarget _ s []
      (by simp) hmem hclear hxk

theorem manifest_deletePath_of_not {k : PathBuf} (hsafe : safeRelative p = true)
    (hdrop : ¬s.engine.Drops t p k) :
    (deletePath h t s p).engine.manifest.files.get k = s.engine.manifest.files.get k := by
  rw [engine_deletePath hsafe]
  split
  · next hheld =>
    have hmem : k ∉ (if s.engine.tree.isDir p then manifestSubtree h s.engine.manifest p
        else [p]) := by
      by_cases hdir : s.engine.tree.isDir p = true
      · rw [if_pos hdir]
        intro hk
        have hnot : ¬s.engine.Bare t p := fun hbare => by
          rw [hbare.1] at hdir
          cases hdir
        exact hdrop (.inr ⟨hnot, p, taken_self hheld, (mem_manifestSubtree.mp hk).1⟩)
      · rw [if_neg hdir]
        intro hk
        have hbare : s.engine.Bare t p := (bare_iff (h := h)).mpr ⟨hheld, by simpa using hdir⟩
        exact hdrop (.inl ⟨hbare, List.mem_singleton.mp hk⟩)
    show (s.engine.manifest.files.filter fun k _ => !Decidable.decide (k ∈ _)).get k = _
    rw [FinMap.get_filter]
    cases s.engine.manifest.files.get k <;> simp [hmem]
  · next hheld =>
    have hnot : ¬s.engine.Bare t p := fun hb => hheld ((bare_iff (h := h)).mp hb).1
    refine deleteTargets_same (fun e => e.manifest.files.get k)
      (fun e x hxk => (manifest_takeTarget e x).trans (if_neg hxk)) _ s [] ?_
    intro x hx hclear hxk
    exact hdrop (.inr ⟨hnot, x, (taken_iff (h := h)).mpr ⟨hx, hclear⟩, hxk⟩)

theorem tree_deletePath_of_not {q : PathBuf} (hsafe : safeRelative p = true)
    (hnot : ¬∃ x, s.engine.Taken t p x ∧ x <+: q) :
    (deletePath h t s p).engine.tree.get q = s.engine.tree.get q := by
  rw [engine_deletePath hsafe]
  split
  · next hheld =>
    exact tree_takeTarget_of_not s.engine p fun hpq => hnot ⟨p, taken_self hheld, hpq⟩
  · refine deleteTargets_same (fun e => e.tree.get q) tree_takeTarget_of_not _ s [] ?_
    intro x hx hclear hxq
    exact hnot ⟨x, (taken_iff (h := h)).mpr ⟨hx, hclear⟩, hxq⟩

theorem tree_deletePath {q : PathBuf} (hremove : ∀ p, h.fails (.remove p) = false)
    (hsafe : safeRelative p = true) (htaken : ∃ x, s.engine.Taken t p x ∧ x <+: q) :
    (deletePath h t s p).engine.tree.get q = none := by
  obtain ⟨x, hx, hxq⟩ := htaken
  rw [engine_deletePath hsafe]
  split
  · exact (tree_takeTarget hremove s.engine p).trans (if_pos (hx.1.1.trans hxq))
  · obtain ⟨hmem, hclear⟩ := (taken_iff (h := h)).mp hx
    exact deleteTargets_taken (fun e => e.tree.get q) (tree_takeTarget hremove) _ s []
      (by simp) hmem hclear hxq

theorem tree_deletePath_or (q : PathBuf) :
    (deletePath h t s p).engine.tree.get q = s.engine.tree.get q ∨
      (deletePath h t s p).engine.tree.get q = none := by
  by_cases hsafe : safeRelative p = true
  · rw [engine_deletePath hsafe]
    split
    · exact tree_takeTarget_or s.engine p
    · exact deleteTargets_or (fun e => e.tree.get q) tree_takeTarget_or _ s []
  · rw [deletePath_unconfined hsafe]
    exact .inl rfl

end Branches

/-! ## A list of paths -/

/-- One of the paths has stripped the key `k`: it is aimed above `k` at what is no directory. -/
def Stripped (e : SyncEngine) (t : Nat) (paths : List PathBuf) (k : PathBuf) : Prop :=
  ∃ p ∈ paths, safeRelative p = true ∧ ∃ y, e.Aimed t p y ∧ y <+: k ∧ e.tree.isDir y = false

/-- What is known of the engine `e` after the paths, in terms of the engine `e₀` before them. -/
structure DeletesInv (e₀ : SyncEngine) (t : Nat) (paths : List PathBuf) (e : SyncEngine) :
    Prop where
  ledger : e.ledger = e₀.ledger
  manifest : ∀ k, e.manifest.files.get k = e₀.manifest.files.get k ∨ ¬e.manifest.Lists k
  tree : ∀ q, e.tree.get q = e₀.tree.get q ∨ e.tree.get q = none
  stripped : ∀ k, e₀.manifest.Lists k → Recreated e₀.ledger t k →
    (e.manifest.Lists k ↔ ¬Stripped e₀ t paths k)
  /-- Where a directory has gone, so have the keys below it. -/
  dir_gone : ∀ x, e₀.tree.isDir x = true → e.tree.isDir x = false →
    ∀ k, x <+: k → ¬e.manifest.Lists k
  /-- Where a key has gone, so have the protected keys below it. -/
  key_gone : ∀ y k, e₀.manifest.Lists y → ¬e.manifest.Lists y → y <+: k →
    Recreated e₀.ledger t k → ¬e.manifest.Lists k

namespace DeletesInv

variable {e₀ e : SyncEngine} {paths : List PathBuf}

theorem lists_of (hinv : DeletesInv e₀ t paths e) {k : PathBuf} (hk : e.manifest.Lists k) :
    e₀.manifest.Lists k := by
  rcases hinv.manifest k with hsame | hgone
  · unfold Manifest.Lists at hk ⊢
    rwa [← hsame]
  · exact absurd hk hgone

theorem isDir_of (hinv : DeletesInv e₀ t paths e) {x : PathBuf} (hx : e.tree.isDir x = true) :
    e₀.tree.isDir x = true := by
  unfold FileTree.isDir at hx ⊢
  rcases hinv.tree x with hsame | hnone
  · rwa [← hsame]
  · rw [hnone] at hx
    have hroot : x = [] := by simpa using hx
    simp [hroot]

theorem refl (e : SyncEngine) (t : Nat) : DeletesInv e t [] e where
  ledger := rfl
  manifest := fun _ => .inl rfl
  tree := fun _ => .inl rfl
  stripped := by
    intro k hk hr
    simp [Stripped, hk]
  dir_gone := by
    intro x hx hx'
    rw [hx] at hx'
    cases hx'
  key_gone := fun y k hy hy' => absurd hy hy'

theorem aimed_of (hinv : DeletesInv e₀ t paths e) {p x : PathBuf} (hx : e.Aimed t p x) :
    e₀.Aimed t p x := by
  obtain ⟨hpx, hlisted, hr⟩ := hx
  rw [hinv.ledger] at hr
  exact ⟨hpx, hlisted.imp_right hinv.lists_of, hr⟩

theorem lists_deletePath {s : DeleteRun} {p k : PathBuf} (hsafe : safeRelative p = true) :
    (deletePath h t s p).engine.manifest.Lists k ↔
      s.engine.manifest.Lists k ∧ ¬s.engine.Drops t p k := by
  unfold Manifest.Lists
  by_cases hdrop : s.engine.Drops t p k
  · rw [manifest_deletePath hsafe hdrop]
    simp [hdrop]
  · rw [manifest_deletePath_of_not hsafe hdrop]
    simp [hdrop]

/-- A directory that a round takes away takes its manifest keys along. -/
theorem drops_of_dir_gone {s : DeleteRun} {p x k : PathBuf} (hsafe : safeRelative p = true)
    (hdir : s.engine.tree.isDir x = true)
    (hgone : (deletePath h t s p).engine.tree.isDir x = false) (hxk : x <+: k) :
    s.engine.Drops t p k := by
  have htaken : ∃ y, s.engine.Taken t p y ∧ y <+: x := by
    by_contra hnot
    unfold FileTree.isDir at hdir hgone
    rw [tree_deletePath_of_not hsafe hnot, hdir] at hgone
    cases hgone
  obtain ⟨y, hy, hyx⟩ := htaken
  have hpx : p <+: x := hy.1.1.trans hyx
  -- Above a directory there are only directories.
  have hpdir : s.engine.tree.isDir p = true := by
    by_cases hne : p = x
    · rw [hne]
      exact hdir
    · by_cases hroot : x = []
      · rw [hroot] at hpx
        rw [List.prefix_nil.mp hpx]
        simp [FileTree.isDir]
      · simp only [FileTree.isDir, hroot, decide_false, Bool.false_or, Option.any_eq_true] at hdir
        obtain ⟨n, hn, -⟩ := hdir
        exact s.engine.tree.isDir_of_prefix hn hpx hne
  have hnot : ¬s.engine.Bare t p := fun hbare => by
    rw [hbare.1] at hpdir
    cases hpdir
  exact .inr ⟨hnot, y, hy, hyx.trans hxk⟩

/-- A protected key goes exactly where the path is aimed above it at what is no directory. -/
theorem drops_recreated_iff {e₀ e : SyncEngine} {paths : List PathBuf}
    (hinv : DeletesInv e₀ t paths e) {p k : PathBuf} (hk : e.manifest.Lists k)
    (hr : Recreated e₀.ledger t k) :
    e.Drops t p k ↔ ∃ y, e₀.Aimed t p y ∧ y <+: k ∧ e₀.tree.isDir y = false := by
  have hr' : Recreated e.ledger t k := hinv.ledger ▸ hr
  constructor
  · intro hdrop
    rcases hdrop with ⟨hbare, rfl⟩ | ⟨-, y, ⟨haimed, hguard⟩, hyk⟩
    · exact absurd hr' hbare.2.1
    · refine ⟨y, hinv.aimed_of haimed, hyk, ?_⟩
      by_contra hdir
      have hdir : e₀.tree.isDir y = true := by simpa using hdir
      cases hnow : e.tree.isDir y with
      | true =>
        have heq := hguard hnow k hk hr' hyk
        exact haimed.2.2 (heq ▸ hr')
      | false => exact hinv.dir_gone y hdir hnow k hyk hk
  · rintro ⟨y, ⟨hpy, hlisted, hny⟩, hyk, hdir⟩
    have hlisted' : y = p ∨ e.manifest.Lists y := hlisted.imp_right fun hy => by
      by_contra hgone
      exact hinv.key_gone y k hy hgone hyk hr hk
    have hnot : ¬e.Bare t p := fun hbare => hbare.2.2 k hk (hpy.trans hyk) hr'
    have hnow : e.tree.isDir y = false := by
      by_contra hnow
      rw [hinv.isDir_of (by simpa using hnow)] at hdir
      cases hdir
    refine .inr ⟨hnot, y, ⟨⟨hpy, hlisted', hinv.ledger ▸ hny⟩, fun hd => ?_⟩, hyk⟩
    rw [hnow] at hd
    cases hd

/-- One more path of the list. -/
theorem step {e₀ : SyncEngine} {paths : List PathBuf} {s : DeleteRun}
    (hinv : DeletesInv e₀ t paths s.engine) (p : PathBuf) :
    DeletesInv e₀ t (paths ++ [p]) (deletePath h t s p).engine := by
  have hstripped : ∀ k, Stripped e₀ t (paths ++ [p]) k ↔ Stripped e₀ t paths k ∨
      safeRelative p = true ∧ ∃ y, e₀.Aimed t p y ∧ y <+: k ∧ e₀.tree.isDir y = false := by
    intro k
    simp [Stripped, or_and_right, exists_or]
  by_cases hsafe : safeRelative p = true
  · exact {
      ledger := (ledger_deletePath h t s p).trans hinv.ledger
      manifest := by
        intro k
        by_cases hdrop : s.engine.Drops t p k
        · exact .inr fun hk => ((lists_deletePath hsafe).mp hk).2 hdrop
        · rw [manifest_deletePath_of_not hsafe hdrop]
          exact (hinv.manifest k).imp_right fun hgone hk => hgone ((lists_deletePath hsafe).mp hk).1
      tree := by
        intro q
        rcases tree_deletePath_or (h := h) (t := t) (s := s) (p := p) q with hsame | hnone
        · rw [hsame]
          exact hinv.tree q
        · exact .inr hnone
      stripped := by
        intro k hk hr
        rw [lists_deletePath hsafe, hstripped, not_or, ← hinv.stripped k hk hr]
        refine and_congr_right fun hlists => not_congr ?_
        rw [drops_recreated_iff hinv hlists hr]
        simp [hsafe]
      dir_gone := by
        intro x hdir hgone k hxk hk
        obtain ⟨hlists, hdrop⟩ := (lists_deletePath hsafe).mp hk
        cases hnow : s.engine.tree.isDir x with
        | true => exact hdrop (drops_of_dir_gone hsafe hnow hgone hxk)
        | false => exact hinv.dir_gone x hdir hnow k hxk hlists
      key_gone := by
        intro y k hy hgone hyk hr hk
        obtain ⟨hlists, hdrop⟩ := (lists_deletePath hsafe).mp hk
        by_cases hnow : s.engine.manifest.Lists y
        · have hydrop : s.engine.Drops t p y := by
            by_contra hnot
            exact hgone ((lists_deletePath hsafe).mpr ⟨hnow, hnot⟩)
          rcases hydrop with ⟨hbare, rfl⟩ | ⟨hnot, x, hx, hxy⟩
          · exact hbare.2.2 k hlists hyk (hinv.ledger ▸ hr)
          · exact hdrop (.inr ⟨hnot, x, hx, hxy.trans hyk⟩)
        · exact hinv.key_gone y k hy hnow hyk hr hlists }
  · rw [deletePath_unconfined hsafe]
    exact {
      hinv with
      stripped := by
        intro k hk hr
        rw [hstripped, hinv.stripped k hk hr]
        simp [hsafe] }

/-- The loop of `apply_deletes`. -/
theorem run (e : SyncEngine) (t : Nat) (paths : List PathBuf) :
    DeletesInv e t paths (paths.foldl (deletePath h t) ⟨e, [], [], 0⟩).engine := by
  induction paths using List.reverseRecOn with
  | nil => exact refl e t
  | append_singleton paths p ih =>
    rw [List.foldl_append]
    exact ih.step p

end DeletesInv

theorem applyDeletes_manifest (h : Host) (e : SyncEngine) (paths : List PathBuf) (t : Nat)
    (deleter : String) : (e.applyDeletes h paths t deleter).2.manifest =
      (paths.foldl (deletePath h t) ⟨e, [], [], 0⟩).engine.manifest := by
  unfold applyDeletes
  rw [scheduleUnsuppressDeletes_manifest]
  split
  · rfl
  · rw [flushLedger_manifest]
    rfl

theorem applyDeletes_tree (h : Host) (e : SyncEngine) (paths : List PathBuf) (t : Nat)
    (deleter : String) : (e.applyDeletes h paths t deleter).2.tree =
      (paths.foldl (deletePath h t) ⟨e, [], [], 0⟩).engine.tree := by
  unfold applyDeletes
  rw [scheduleUnsuppressDeletes_tree]
  split
  · rfl
  · rw [flushLedger_tree]
    rfl

end SyncEngine

end ByteHive
