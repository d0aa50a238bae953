import ByteHive.Spec.DeleteExtent

/-!
# Phantom keys after a delete

A manifest key that stays below a deleted path is sent, compared or reported deleted again later.
A delete of a directory on disk clears the keys below it, and so does one that a live record holds
back; a delete of what is no directory on disk clears its own key alone.

## Key results

- `drops_iff_sweeps`: when one path of a list clears a key
- `no_phantoms_iff`: when a list of deletes leaves no key below its paths
-/

namespace ByteHive

namespace SyncEngine

variable {h : Host} {t : Nat}

/-- A key that may stay below a deleted path. -/
def Excused (e : SyncEngine) (t : Nat) (k : PathBuf) : Prop :=
  Recreated e.ledger t k ∨
    (e.tree.isDir k = true ∧ ∃ q, Recreated e.ledger t q ∧ k <+: q ∧ q ≠ k)

/-- No key is left below a deleted path without an excuse, and no other key changes. -/
structure NoPhantoms (e e' : SyncEngine) (t : Nat) (paths : List PathBuf) : Prop where
  below : ∀ p ∈ paths, safeRelative p = true → ∀ k, p <+: k → e'.manifest.Lists k → e.Excused t k
  elsewhere : ∀ k, (∀ p ∈ paths, ¬ p <+: k) → e'.manifest.files.get k = e.manifest.files.get k

/-- After the paths `before`, a delete of `p` clears the keys below it: `p` is the key itself or a
    directory, or a live record that is still in force makes it go through the keys one by one. -/
def Sweeps (e : SyncEngine) (t : Nat) (before : List PathBuf) (p k : PathBuf) : Prop :=
  safeRelative p = true ∧ p <+: k ∧
    (p = k ∨ e.tree.isDir p = true ∨ Recreated e.ledger t p ∨
      ∃ q, e.manifest.Lists q ∧ p <+: q ∧ Recreated e.ledger t q ∧ ¬e.Stripped t before q)

theorem drops_iff_sweeps {e₀ e : SyncEngine} {before : List PathBuf}
    (hinv : DeletesInv e₀ t before e) {p k : PathBuf} (hsafe : safeRelative p = true)
    (hk : e.manifest.Lists k) (hno : ¬e₀.Excused t k) :
    e.Drops t p k ↔ e₀.Sweeps t before p k := by
  have hr : ¬Recreated e.ledger t k := fun hr => hno (.inl (hinv.ledger ▸ hr))
  have hself : p <+: k → e.Taken t p k := fun hpk =>
    ⟨⟨hpk, .inr hk, hr⟩, fun hdir q hq hrq hkq => by
      by_contra hne
      exact hno (.inr ⟨hinv.isDir_of hdir, q, hinv.ledger ▸ hrq, hkq, hne⟩)⟩
  constructor
  · intro hdrop
    rcases hdrop with ⟨-, rfl⟩ | ⟨hnot, x, hx, hxk⟩
    · exact ⟨hsafe, List.prefix_refl k, .inl rfl⟩
    · refine ⟨hsafe, hx.1.1.trans hxk, ?_⟩
      by_contra hnone
      simp only [not_or, not_exists, not_and, not_not] at hnone
      obtain ⟨-, hdir, hrp, hstripped⟩ := hnone
      have hnow : e.tree.isDir p = false := by
        by_contra hd
        exact hdir (hinv.isDir_of (by simpa using hd))
      refine hnot ⟨hnow, hinv.ledger ▸ hrp, fun q hq hpq hrq => ?_⟩
      have hrq : Recreated e₀.ledger t q := hinv.ledger ▸ hrq
      have hq₀ := hinv.lists_of hq
      exact (hinv.stripped q hq₀ hrq).mp hq (hstripped q hq₀ hpq hrq)
  · rintro ⟨-, hpk, hcase⟩
    by_cases hbare : e.Bare t p
    · -- Then only the path itself can be meant.
      left
      refine ⟨hbare, ?_⟩
      rcases hcase with heq | hdir | hrp | ⟨q, hq, hpq, hrq, hstripped⟩
      · exact heq.symm
      · exact absurd hk (hinv.dir_gone p hdir hbare.1 k hpk)
      · exact absurd (hinv.ledger ▸ hrp) hbare.2.1
      · have hnow := (hinv.stripped q hq hrq).mpr hstripped
        exact absurd (hinv.ledger ▸ hrq) (hbare.2.2 q hnow hpq)
    · exact .inr ⟨hbare, k, hself hpk, List.prefix_refl k⟩

/-- Which keys without an excuse a list of deletes leaves. -/
theorem lists_foldl_iff (e : SyncEngine) (paths : List PathBuf) {k : PathBuf}
    (hk : e.manifest.Lists k) (hno : ¬e.Excused t k) :
    (paths.foldl (deletePath h t) ⟨e, [], [], 0⟩).engine.manifest.Lists k ↔
      ¬paths.AtSome fun before p => e.Sweeps t before p k := by
  induction paths using List.reverseRecOn with
  | nil => exact iff_of_true hk (List.not_atSome_nil _)
  | append_singleton paths p ih =>
    have hinv := DeletesInv.run (h := h) e t paths
    rw [List.foldl_append, List.atSome_concat, not_or, ← ih]
    show (deletePath h t _ p).engine.manifest.Lists k ↔ _
    by_cases hsafe : safeRelative p = true
    · rw [DeletesInv.lists_deletePath hsafe]
      exact and_congr_right fun hnow => not_congr (drops_iff_sweeps hinv hsafe hnow hno)
    · rw [deletePath_unconfined hsafe]
      have hnot : ¬e.Sweeps t paths p k := fun hs => hsafe hs.1
      exact ⟨fun hnow => ⟨hnow, hnot⟩, fun hnow => hnow.1⟩

theorem manifest_foldl_elsewhere (e : SyncEngine) (paths : List PathBuf) {k : PathBuf}
    (hk : ∀ p ∈ paths, ¬ p <+: k) :
    (paths.foldl (deletePath h t) ⟨e, [], [], 0⟩).engine.manifest.files.get k =
      e.manifest.files.get k := by
  induction paths using List.reverseRecOn with
  | nil => rfl
  | append_singleton paths p ih =>
    rw [List.foldl_append, ← ih fun q hq => hk q (by simp [hq])]
    show (deletePath h t _ p).engine.manifest.files.get k = _
    by_cases hsafe : safeRelative p = true
    · refine manifest_deletePath_of_not hsafe fun hdrop => hk p (by simp) ?_
      rcases hdrop with ⟨-, rfl⟩ | ⟨-, x, hx, hxk⟩
      · exact List.prefix_refl k
      · exact hx.1.1.trans hxk
    · rw [deletePath_unconfined hsafe]

/-- A delete leaves no phantom key exactly when every key below a deleted path, if nothing excuses
    it, lies below one that clears its keys. -/
theorem no_phantoms_iff (h : Host) (e : SyncEngine) (paths : List PathBuf) (t : Nat)
    (deleter : String) :
    NoPhantoms e (e.applyDeletes h paths t deleter).2 t paths ↔
      ∀ k, e.manifest.Lists k → ¬e.Excused t k →
        (∃ p ∈ paths, safeRelative p = true ∧ p <+: k) →
          paths.AtSome fun before p => e.Sweeps t before p k := by
  have hmanifest := applyDeletes_manifest h e paths t deleter
  constructor
  · intro hclean k hk hno hlisted
    obtain ⟨p, hp, hsafe, hpk⟩ := hlisted
    by_contra hnone
    have hleft := (lists_foldl_iff (h := h) e paths hk hno).mpr hnone
    rw [← hmanifest] at hleft
    exact hno (hclean.below p hp hsafe k hpk hleft)
  · intro hall
    exact {
      below := by
        intro p hp hsafe k hpk hleft
        rw [hmanifest] at hleft
        have hk := (DeletesInv.run (h := h) e t paths).lists_of hleft
        by_contra hno
        exact (lists_foldl_iff e paths hk hno).mp hleft (hall k hk hno ⟨p, hp, hsafe, hpk⟩)
      elsewhere := by
        intro k hk
        rw [hmanifest]
        exact manifest_foldl_elsewhere e paths hk }

/-- An engine whose root is empty while its manifest still lists `a/b`. -/
def phantomRoot : SyncEngine :=
  let e := new "node" (fun _ => false) .empty .new
  { e with manifest := { e.manifest with
      files := e.manifest.files.insert (PathBuf.ofNames ["a", "b"])
        ⟨PathBuf.ofNames ["a", "b"], 1, 7, 10, 0, false⟩ } }

/-- A delete of the absent directory `a` leaves the key of `a/b`. -/
theorem phantom_left :
    ¬NoPhantoms phantomRoot (phantomRoot.applyDeletes (.reliable (fun _ => 0) 1000)
      [PathBuf.ofNames ["a"]] 50 "node").2 50 [PathBuf.ofNames ["a"]] := by
  intro hclean
  have hexcused := hclean.below (PathBuf.ofNames ["a"]) (by decide) (by decide)
    (PathBuf.ofNames ["a", "b"]) (by decide) (by decide +kernel)
  rcases hexcused with hr | ⟨-, q, hr, -⟩
  · exact absurd hr.1 (by decide +kernel)
  · have hnone : phantomRoot.ledger.aliveSince q = 0 := rfl
    have hpos := hr.1
    omega

end SyncEngine

end ByteHive
