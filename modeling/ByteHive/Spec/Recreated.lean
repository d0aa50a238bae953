import ByteHive.Spec.DeleteExtent

/-!
# What was recreated since a delete

A delete that arrives late meets paths that were created again since it was issued. Their live
records protect them, but only those that the manifest lists: a file that is on disk and not yet in
the manifest goes with the directory above it.

## Key results

- `tree_foldl_iff`: which recreated files a list of deletes takes
- `recreated_kept_iff`: when a delete keeps what was recreated and takes what is older
-/

namespace ByteHive

namespace SyncEngine

variable {h : Host} {t : Nat}

section Recreated

variable {e : SyncEngine} {q : PathBuf}

/-- A delete of `p` is aimed above `q`, at a key below which no live record is in force any more. -/
def Reaches (e : SyncEngine) (t : Nat) (before : List PathBuf) (p q : PathBuf) : Prop :=
  safeRelative p = true ∧ ∃ x, e.Aimed t p x ∧ x <+: q ∧
    ∀ k, e.manifest.Lists k → Recreated e.ledger t k → x <+: k → e.Stripped t before k

/-- When no removal fails, nothing is left on disk at or below a key that has gone. -/
theorem tree_of_key_gone (hremove : ∀ p, h.fails (.remove p) = false) (paths : List PathBuf)
    {y : PathBuf} (hy : e.manifest.Lists y) (hyq : y <+: q)
    (hgone : ¬(paths.foldl (deletePath h t) ⟨e, [], [], 0⟩).engine.manifest.Lists y) :
    (paths.foldl (deletePath h t) ⟨e, [], [], 0⟩).engine.tree.get q = none := by
  induction paths using List.reverseRecOn with
  | nil => exact absurd hy hgone
  | append_singleton paths p ih =>
    rw [List.foldl_append] at hgone ⊢
    set s := paths.foldl (deletePath h t) ⟨e, [], [], 0⟩ with hs
    change ¬(deletePath h t s p).engine.manifest.Lists y at hgone
    show (deletePath h t s p).engine.tree.get q = none
    by_cases hnow : s.engine.manifest.Lists y
    · by_cases hsafe : safeRelative p = true
      · rw [DeletesInv.lists_deletePath hsafe, not_and, not_not] at hgone
        refine tree_deletePath hremove hsafe ?_
        rcases hgone hnow with ⟨hbare, rfl⟩ | ⟨-, x, hx, hxy⟩
        · exact ⟨y, taken_self ((bare_iff (h := h)).mp hbare).1, hyq⟩
        · exact ⟨x, hx, hxy.trans hyq⟩
      · rw [deletePath_unconfined hsafe] at hgone
        exact absurd hnow hgone
    · rcases tree_deletePath_or (h := h) (t := t) (s := s) (p := p) q with hsame | hnone
      · exact hsame.trans (ih hnow)
      · exact hnone

/-- Which recreated files a list of deletes takes. -/
theorem tree_foldl_iff (hremove : ∀ p, h.fails (.remove p) = false) (paths : List PathBuf)
    {n : FileNode Content} (hq : e.tree.get q = some n) (hr : Recreated e.ledger t q) :
    (paths.foldl (deletePath h t) ⟨e, [], [], 0⟩).engine.tree.get q = none ↔
      paths.AtSome fun before p => e.Reaches t before p q := by
  induction paths using List.reverseRecOn with
  | nil =>
    refine iff_of_false ?_ (List.not_atSome_nil _)
    show e.tree.get q ≠ none
    simp [hq]
  | append_singleton paths p ih =>
    have hinv := DeletesInv.run (h := h) e t paths
    rw [List.foldl_append, List.atSome_concat, ← ih]
    set s := paths.foldl (deletePath h t) ⟨e, [], [], 0⟩ with hs
    show (deletePath h t s p).engine.tree.get q = none ↔ _
    by_cases hthere : s.engine.tree.get q = none
    · refine iff_of_true ?_ (.inl hthere)
      rcases tree_deletePath_or (h := h) (t := t) (s := s) (p := p) q with hsame | hnone
      · exact hsame.trans hthere
      · exact hnone
    · obtain ⟨n', hn'⟩ := Option.ne_none_iff_exists'.mp hthere
      by_cases hsafe : safeRelative p = true
      · have htaken : (deletePath h t s p).engine.tree.get q = none ↔
            ∃ x, s.engine.Taken t p x ∧ x <+: q := by
          constructor
          · intro hnone
            by_contra hnot
            exact hthere ((tree_deletePath_of_not hsafe hnot).symm.trans hnone)
          · exact tree_deletePath hremove hsafe
        rw [htaken]
        constructor
        · rintro ⟨x, ⟨haimed, hguard⟩, hxq⟩
          refine .inr ⟨hsafe, x, hinv.aimed_of haimed, hxq, fun k hk hrk hxk => ?_⟩
          have hne : x ≠ q := by
            rintro rfl
            exact haimed.2.2 (hinv.ledger ▸ hr)
          have hdir := s.engine.tree.isDir_of_prefix hn' hxq hne
          by_contra hstripped
          have hnow := (hinv.stripped k hk hrk).mpr hstripped
          have heq := hguard hdir k hnow (hinv.ledger ▸ hrk) hxk
          exact haimed.2.2 (heq ▸ hinv.ledger ▸ hrk)
        · intro hcase
          obtain ⟨-, x, ⟨hpx, hlisted, hrx⟩, hxq, hstripped⟩ := hcase.resolve_left hthere
          have hlisted' : x = p ∨ s.engine.manifest.Lists x := hlisted.imp_right fun hx => by
            by_contra hnow
            exact hthere (tree_of_key_gone hremove paths hx hxq hnow)
          refine ⟨x, ⟨⟨hpx, hlisted', hinv.ledger ▸ hrx⟩, fun _ k hk hrk hxk => ?_⟩, hxq⟩
          have hrk : Recreated e.ledger t k := hinv.ledger ▸ hrk
          have hk₀ := hinv.lists_of hk
          exact absurd (hstripped k hk₀ hrk hxk) ((hinv.stripped k hk₀ hrk).mp hk)
      · have hnot : ¬e.Reaches t paths p q := fun hreach => hsafe hreach.1
        rw [deletePath_unconfined hsafe]
        simp [hthere, hnot]

/-- A listed file that no live record protects goes. -/
theorem tree_foldl_of_older (hremove : ∀ p, h.fails (.remove p) = false) (paths : List PathBuf)
    {p : PathBuf} (hp : p ∈ paths) (hsafe : safeRelative p = true) (hpq : p <+: q)
    (hfile : e.tree.isDir q = false) (hlists : e.manifest.Lists q)
    (hr : ¬Recreated e.ledger t q) :
    (paths.foldl (deletePath h t) ⟨e, [], [], 0⟩).engine.tree.get q = none := by
  induction paths using List.reverseRecOn with
  | nil => cases hp
  | append_singleton paths x ih =>
    have hinv := DeletesInv.run (h := h) e t paths
    have hgone := tree_of_key_gone (t := t) hremove paths hlists (List.prefix_refl q)
    rw [List.foldl_append]
    set s := paths.foldl (deletePath h t) ⟨e, [], [], 0⟩ with hs
    show (deletePath h t s x).engine.tree.get q = none
    have hkeep : s.engine.tree.get q = none → (deletePath h t s x).engine.tree.get q = none := by
      intro hnone
      rcases tree_deletePath_or (h := h) (t := t) (s := s) (p := x) q with hsame | hnone'
      · exact hsame.trans hnone
      · exact hnone'
    rcases List.mem_append.mp hp with hp | hp
    · exact hkeep (ih hp)
    · obtain rfl := List.mem_singleton.mp hp
      by_cases hnow : s.engine.manifest.Lists q
      · have hdir : s.engine.tree.isDir q = false := by
          by_contra hd
          rw [hinv.isDir_of (by simpa using hd)] at hfile
          cases hfile
        refine tree_deletePath hremove hsafe ⟨q, ⟨⟨hpq, .inr hnow, hinv.ledger ▸ hr⟩, ?_⟩,
          List.prefix_refl q⟩
        intro hd
        rw [hdir] at hd
        cases hd
      · exact hkeep (hgone hnow)

end Recreated

/-- A delete keeps the files that were recreated after it and takes the older ones that it knows. -/
structure KeepsRecreated (e e' : SyncEngine) (t : Nat) (paths : List PathBuf) : Prop where
  kept : ∀ p ∈ paths, ∀ q c m, e.tree.get q = some (.file c m) → p <+: q →
    t ≤ e.ledger.aliveSince q → e'.tree.get q = some (.file c m)
  removed : ∀ p ∈ paths, safeRelative p = true → ∀ q c m, e.tree.get q = some (.file c m) →
    p <+: q → e.manifest.Lists q → e.ledger.aliveSince q < t → e'.tree.get q = none

/-- A delete keeps what was recreated exactly when it reaches no such file: whatever it is aimed at
    above the file has a manifest key below it whose live record is still in force. -/
theorem recreated_kept_iff (h : Host) (e : SyncEngine) (paths : List PathBuf) (t : Nat)
    (deleter : String) (ht : 0 < t) (hremove : ∀ p, h.fails (.remove p) = false) :
    KeepsRecreated e (e.applyDeletes h paths t deleter).2 t paths ↔
      ∀ q c m, e.tree.get q = some (.file c m) → t ≤ e.ledger.aliveSince q →
        ¬paths.AtSome fun before p => e.Reaches t before p q := by
  have htree := applyDeletes_tree h e paths t deleter
  constructor
  · intro hkept q c m hq hlive hreach
    have hr : Recreated e.ledger t q := ⟨by omega, hlive⟩
    have hnone := (tree_foldl_iff hremove paths hq hr).mpr hreach
    obtain ⟨before, p, after, hpaths, -, x, hx, hxq, -⟩ := hreach
    have hp : p ∈ paths := by simp [hpaths]
    have hstill := hkept.kept p hp q c m hq (hx.1.trans hxq) hlive
    rw [htree, hnone] at hstill
    cases hstill
  · intro hall
    exact {
      kept := by
        intro p hp q c m hq hpq hlive
        have hr : Recreated e.ledger t q := ⟨by omega, hlive⟩
        have hthere := mt (tree_foldl_iff (h := h) hremove paths hq hr).mp (hall q c m hq hlive)
        rw [htree, ← hq]
        exact ((DeletesInv.run e t paths).tree q).resolve_right hthere
      removed := by
        intro p hp hsafe q c m hq hpq hlists holder
        have hr : ¬Recreated e.ledger t q := fun hr => by
          have hle := hr.2
          omega
        have hfile : e.tree.isDir q = false := by
          have hroot : q ≠ [] := by
            rintro rfl
            simp at hq
          simp [FileTree.isDir, hq, hroot, FileNode.isDir]
        rw [htree]
        exact tree_foldl_of_older hremove paths hp hsafe hpq hfile hlists hr }

/-- An engine with the file `d/q`, recreated at 90, which the manifest does not list yet. -/
def recreatedFile : SyncEngine :=
  let t := (FileTree.empty.createDirAll 10 (PathBuf.ofNames ["d"])).getD .empty
  let t := (t.write (PathBuf.ofNames ["d", "q"]) [1] 90).getD t
  let e := new "node" (fun _ => false) t
    (DeletionLedger.new.recordAlive (PathBuf.ofNames ["d", "q"]) 90).2
  { e with manifest := { e.manifest with
      files := e.manifest.files.insert (PathBuf.ofNames ["d"])
        ⟨PathBuf.ofNames ["d"], 0, 0, 10, 0, true⟩ } }

/-- A delete of `d` that was issued at 50 takes the file along. -/
theorem recreated_removed :
    ¬KeepsRecreated recreatedFile (recreatedFile.applyDeletes (.reliable (fun _ => 0) 1000)
      [PathBuf.ofNames ["d"]] 50 "node").2 50 [PathBuf.ofNames ["d"]] := by
  intro hkept
  have hstill := hkept.kept (PathBuf.ofNames ["d"]) (by decide) (PathBuf.ofNames ["d", "q"]) [1] 90
    (by decide +kernel) (by decide) (by decide +kernel)
  revert hstill
  decide +kernel

/-- With the file in the manifest the same delete keeps it. -/
theorem recreated_kept_listed :
    let e := { recreatedFile with manifest := { recreatedFile.manifest with
      files := recreatedFile.manifest.files.insert (PathBuf.ofNames ["d", "q"])
        ⟨PathBuf.ofNames ["d", "q"], 1, 0, 90, 0, false⟩ } }
    KeepsRecreated e
      (e.applyDeletes (.reliable (fun _ => 0) 1000) [PathBuf.ofNames ["d"]] 50 "node").2 50
      [PathBuf.ofNames ["d"]] := by
  intro e
  refine (recreated_kept_iff _ e _ 50 "node" (by decide) fun _ => rfl).mpr ?_
  intro q c m hq hlive hreach
  obtain ⟨before, p, after, hpaths, -, x, ⟨hpx, -, hrx⟩, hxq, hstripped⟩ := hreach
  have hq' : q = PathBuf.ofNames ["d", "q"] := by
    by_contra hne
    have hnone : e.ledger.aliveSince q = 0 := by
      show ((FinMap.empty.insert (PathBuf.ofNames ["d", "q"]) 90).get q).getD 0 = 0
      rw [FinMap.get_insert, if_neg hne]
      rfl
    omega
  have hbefore : before = [] := by
    cases before with
    | nil => rfl
    | cons b bs =>
      have hlen := congrArg List.length hpaths
      simp at hlen
  rw [hq'] at hxq
  obtain ⟨b, hb, -⟩ := hstripped (PathBuf.ofNames ["d", "q"]) (by decide +kernel)
    ⟨by decide +kernel, by decide +kernel⟩ hxq
  rw [hbefore] at hb
  cases hb

end SyncEngine

end ByteHive
