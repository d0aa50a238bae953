import Mathlib.Data.Finset.Max
import ByteHive.Native.Manifest
import ByteHive.Spec.EngineFrame

/-!
# Renames and the manifest

A rename moves a subtree on disk and then the manifest keys below the source, one by one in the
order of the hash map. Where the move on disk succeeds, source and target lie apart, so that the
order does not matter and the manifest follows the disk. A move that fails onto an existing target
still moves the keys, and a parent directory that is made on the way gets no key.

## Key results

- `replaced_of_moved`: after a move on disk the keys are replaced all at once
- `rename_in_step_iff`: when a rename keeps the manifest in step with the disk
-/

namespace ByteHive

namespace SyncEngine

variable {h : Host} {e : SyncEngine} {f g : PathBuf}

/-- The manifest lists exactly what is on disk. -/
def InStep (e : SyncEngine) : Prop := ∀ p, e.manifest.Lists p ↔ (e.tree.get p).isSome = true

/-- The entry `fm` under its new name `p`, with the mtime that `p` has in the tree. -/
def renamedEntry (t : Tree) (p : PathBuf) (fm : FileMetadata) : FileMetadata :=
  { fm with relPath := p, modifiedMs := ((t.get p).map FileNode.mtime).getD fm.modifiedMs }

/-- What the manifest holds at `p` once all keys at or below `f` are replaced by their images at or
    below `g`. -/
def replacedEntry (m : Manifest) (t : Tree) (f g p : PathBuf) : Option FileMetadata :=
  if g <+: p then (m.files.get (f ++ p.drop g.length)).map (renamedEntry t p)
  else if f <+: p then none
  else m.files.get p

/-! ## The manifest keys one by one -/

theorem foldl_remapEntry (t : Tree) (m : Manifest) (pairs : List (PathBuf × PathBuf)) :
    (pairs.foldl (remapEntry (fun _ => true) t) m).files =
      pairs.foldl (FinMap.moveEntry fun pair => renamedEntry t pair.2) m.files := by
  induction pairs generalizing m with
  | nil => rfl
  | cons pair pairs ih =>
    rw [List.foldl_cons, List.foldl_cons, ih]
    congr 1
    unfold remapEntry FinMap.moveEntry
    split
    · next hnone => rw [hnone]
    · next fm hfm =>
      rw [hfm]
      rfl

theorem mem_remapPairs {m : Manifest} {pair : PathBuf × PathBuf} :
    pair ∈ remapPairs h m f g ↔ ∃ r, m.Lists (f ++ r) ∧ pair = (f ++ r, g ++ r) := by
  unfold remapPairs Manifest.Lists
  rw [List.mem_filterMap]
  constructor
  · rintro ⟨k, hk, hpair⟩
    split at hpair
    · next hfk =>
      obtain ⟨r, rfl⟩ := hfk
      rw [h.order.mem_toList, FinMap.mem_keys] at hk
      rw [List.drop_left] at hpair
      exact ⟨r, hk, (Option.some.inj hpair).symm⟩
    · cases hpair
  · rintro ⟨r, hr, rfl⟩
    refine ⟨f ++ r, ?_, ?_⟩
    · rw [h.order.mem_toList, FinMap.mem_keys]
      exact hr
    · rw [if_pos (List.prefix_append f r), List.drop_left]

theorem nodup_remapPairs (m : Manifest) : (remapPairs h m f g).Nodup := by
  refine (h.order.nodup _).filterMap ?_
  intro a b pair ha hb
  simp only [Option.mem_def, Option.ite_none_right_eq_some] at ha hb
  obtain ⟨-, ha⟩ := ha
  obtain ⟨-, hb⟩ := hb
  have heq := (Option.some.inj ha).trans (Option.some.inj hb).symm
  exact (Prod.mk.inj heq).1

/-- Between places that lie apart, or from a place to itself, no move gets in another's way. -/
theorem apart_remapPairs (m : Manifest) (hfg : f = g ∨ (¬ f <+: g ∧ ¬ g <+: f)) :
    FinMap.Apart (remapPairs h m f g) where
  starts := by
    refine (nodup_remapPairs m).map_on ?_
    intro a ha b hb heq
    obtain ⟨r, -, rfl⟩ := mem_remapPairs.mp ha
    obtain ⟨r', -, rfl⟩ := mem_remapPairs.mp hb
    rw [List.append_cancel_left heq]
  ends := by
    refine (nodup_remapPairs m).map_on ?_
    intro a ha b hb heq
    obtain ⟨r, -, rfl⟩ := mem_remapPairs.mp ha
    obtain ⟨r', -, rfl⟩ := mem_remapPairs.mp hb
    rw [List.append_cancel_left heq]
  apart := by
    intro a ha b hb heq
    obtain ⟨r, -, rfl⟩ := mem_remapPairs.mp ha
    obtain ⟨r', -, rfl⟩ := mem_remapPairs.mp hb
    have heq : g ++ r = f ++ r' := heq
    rcases hfg with rfl | ⟨hfg, hgf⟩
    · rw [List.append_cancel_left heq]
    · have hg : g <+: f ++ r' := heq ▸ List.prefix_append g r
      rcases List.prefix_or_prefix_of_prefix (List.prefix_append f r') hg with hpre | hpre
      · exact absurd hpre hfg
      · exact absurd hpre hgf

/-- The keys are replaced all at once, if whatever is listed at or below the target is the image
    of something. -/
theorem replaced_of_apart (m : Manifest) (t : Tree) (hfg : f = g ∨ (¬ f <+: g ∧ ¬ g <+: f))
    (hover : ∀ r, m.Lists (g ++ r) → m.Lists (f ++ r)) (p : PathBuf) :
    ((remapPairs h m f g).foldl (remapEntry (fun _ => true) t) m).files.get p =
      replacedEntry m t f g p := by
  have hthere : ∀ pair ∈ remapPairs h m f g, (m.files.get pair.1).isSome = true := by
    intro pair hpair
    obtain ⟨r, hr, rfl⟩ := mem_remapPairs.mp hpair
    exact hr
  obtain ⟨hmoved, hrest⟩ := FinMap.get_foldl_moveEntry
    (f := fun pair => renamedEntry t pair.2) (apart_remapPairs (h := h) m hfg) hthere
  rw [foldl_remapEntry, replacedEntry]
  by_cases hgp : g <+: p
  · obtain ⟨r, rfl⟩ := hgp
    rw [if_pos (List.prefix_append g r), List.drop_left]
    by_cases hr : m.Lists (f ++ r)
    · exact hmoved (f ++ r, g ++ r) (mem_remapPairs.mpr ⟨r, hr, rfl⟩)
    · have hfr : m.files.get (f ++ r) = none := by simpa [Manifest.Lists] using hr
      have hgr : m.files.get (g ++ r) = none := by
        simpa [Manifest.Lists] using fun hlists => hr (hover r hlists)
      rw [hfr, Option.map_none]
      refine FinMap.get_foldl_moveEntry_none ?_ (.inr hgr)
      intro pair hpair heq
      obtain ⟨r', hr', rfl⟩ := mem_remapPairs.mp hpair
      rw [List.append_cancel_left heq] at hr'
      exact hr hr'
  · have hend : ∀ pair ∈ remapPairs h m f g, pair.2 ≠ p := by
      intro pair hpair heq
      obtain ⟨r, -, rfl⟩ := mem_remapPairs.mp hpair
      exact hgp (heq ▸ List.prefix_append g r)
    rw [if_neg hgp]
    by_cases hfp : f <+: p
    · obtain ⟨r, rfl⟩ := hfp
      rw [if_pos (List.prefix_append f r)]
      by_cases hr : m.Lists (f ++ r)
      · exact FinMap.get_foldl_moveEntry_none hend
          (.inl ⟨(f ++ r, g ++ r), mem_remapPairs.mpr ⟨r, hr, rfl⟩, rfl⟩)
      · exact FinMap.get_foldl_moveEntry_none hend (.inr (by simpa [Manifest.Lists] using hr))
    · rw [if_neg hfp]
      refine hrest p ?_ hend
      intro pair hpair heq
      obtain ⟨r, -, rfl⟩ := mem_remapPairs.mp hpair
      exact hfp (heq ▸ List.prefix_append f r)

/-- Unless everything keeps its name, some key at or below the source is not the image of any. -/
theorem exists_left_behind {m : Manifest} (hne : f ≠ g) {k : PathBuf} (hk : m.Lists k)
    (hfk : f <+: k) :
    ∃ k, m.Lists k ∧ f <+: k ∧ ∀ pair ∈ remapPairs h m f g, pair.2 ≠ k := by
  let below := m.files.keys.filter fun k => f <+: k
  have hmem : ∀ k, k ∈ below ↔ m.Lists k ∧ f <+: k := fun k => by
    rw [Finset.mem_filter, FinMap.mem_keys, Manifest.Lists]
  have hnonempty : below.Nonempty := ⟨k, (hmem k).mpr ⟨hk, hfk⟩⟩
  by_cases hlen : g.length < f.length
  · -- The names get shorter: nothing moves to the longest.
    obtain ⟨x, hx, hmax⟩ := below.exists_max_image List.length hnonempty
    obtain ⟨hxl, hfx⟩ := (hmem x).mp hx
    refine ⟨x, hxl, hfx, fun pair hpair heq => ?_⟩
    obtain ⟨r, hr, rfl⟩ := mem_remapPairs.mp hpair
    have hle := hmax (f ++ r) ((hmem _).mpr ⟨hr, List.prefix_append f r⟩)
    rw [← heq] at hle
    simp only [List.length_append] at hle
    omega
  · -- They get longer, or change: nothing moves to the shortest.
    obtain ⟨x, hx, hmin⟩ := below.exists_min_image List.length hnonempty
    obtain ⟨hxl, hfx⟩ := (hmem x).mp hx
    refine ⟨x, hxl, hfx, fun pair hpair heq => ?_⟩
    obtain ⟨r, hr, rfl⟩ := mem_remapPairs.mp hpair
    have heq : g ++ r = x := heq
    have hle := hmin (f ++ r) ((hmem _).mpr ⟨hr, List.prefix_append f r⟩)
    rw [← heq] at hle hfx
    simp only [List.length_append] at hle
    have hgf : f <+: g := List.prefix_of_prefix_length_le hfx (List.prefix_append g r) (by omega)
    exact hne (hgf.eq_of_length (by omega))

/-! ## The move on disk -/

theorem moveRename_ok (hok : (e.moveRename h f g).1 = true) :
    ∃ t, h.createDirAll e.tree g.dropLast = some t ∧
      ((h.rename t f g).isSome = true ∨ t.pathExists g = true) ∧
      (e.moveRename h f g).2.tree = (h.rename t f g).getD t ∧
      (e.moveRename h f g).2.manifest = (remapPairs h e.manifest f g).foldl
        (remapEntry (fun _ => true) ((h.rename t f g).getD t)) e.manifest := by
  unfold moveRename at hok ⊢
  dsimp only at hok ⊢
  cases ht : h.createDirAll e.tree g.dropLast with
  | none =>
    rw [ht] at hok
    cases hok
  | some t =>
    rw [ht] at hok
    dsimp only at hok ⊢
    split at hok
    · cases hok
    · next hfail =>
      rw [if_neg hfail]
      refine ⟨t, rfl, ?_, by simp, by simp⟩
      rw [Bool.and_eq_true, not_and_or] at hfail
      rcases hfail with hsome | hexists
      · exact .inl (by simpa [Option.isSome_iff_ne_none] using hsome)
      · exact .inr (by simpa using hexists)

/-- Where the target is there, no directory is made. -/
theorem createDirAll_of_exists {t t' : Tree} (ht : h.createDirAll t g.dropLast = some t')
    (hexists : t'.pathExists g = true) : t' = t := by
  unfold Host.createDirAll at ht
  split at ht
  · cases ht
  · by_cases hroot : g = []
    · rw [hroot, List.dropLast_nil, FileTree.createDirAll_of_isDir (by simp [FileTree.isDir])] at ht
      exact (Option.some.inj ht).symm
    · simp only [FileTree.pathExists, hroot, decide_false, Bool.false_or] at hexists
      rw [FileTree.get_createDirAll ht, if_neg fun hmade =>
        FileTree.not_prefix_dropLast hroot hmade.2.1] at hexists
      obtain ⟨n, hn⟩ := Option.isSome_iff_exists.mp hexists
      rw [FileTree.createDirAll_of_get hn] at ht
      exact (Option.some.inj ht).symm

/-- The condition under which the manifest follows: nothing is renamed, or the move succeeds on the
    tree as it is. -/
def Follows (h : Host) (t : Tree) (f g : PathBuf) : Prop :=
  f = g ∨ (h.fails (.rename f g) = false ∧ t.CanMove f g)

theorem apart_of_follows {t : Tree} (hfollows : Follows h t f g) :
    f = g ∨ (¬ f <+: g ∧ ¬ g <+: f) :=
  hfollows.imp_right fun hmove => ⟨hmove.2.not_below, hmove.2.source_not_below⟩

/-- The tree after the rename, where the condition holds. -/
theorem tree_of_follows {t t' : Tree} (hfollows : Follows h t f g) (hsource : t.pathExists f = true)
    (ht : h.createDirAll t g.dropLast = some t') (q : PathBuf) :
    ((h.rename t' f g).getD t').get q = t.movedGet f g q := by
  rcases hfollows with rfl | ⟨hfails, hmove⟩
  · have hsame : t' = t := by
      unfold Host.createDirAll at ht
      split at ht
      · cases ht
      · by_cases hroot : f = []
        · rw [hroot, List.dropLast_nil,
            FileTree.createDirAll_of_isDir (by simp [FileTree.isDir])] at ht
          exact (Option.some.inj ht).symm
        · simp only [FileTree.pathExists, hroot, decide_false, Bool.false_or] at hsource
          obtain ⟨n, hn⟩ := Option.isSome_iff_exists.mp hsource
          rw [FileTree.createDirAll_of_get hn] at ht
          exact (Option.some.inj ht).symm
    have hrename : (h.rename t f f).getD t = t := by
      unfold Host.rename FileTree.rename
      rw [if_pos rfl]
      split
      · rfl
      · split <;> rfl
    rw [hsame, hrename, FileTree.movedGet]
    split
    · next hfq =>
      obtain ⟨r, rfl⟩ := hfq
      rw [List.drop_left]
    · rfl
  · have hsame : t' = t := by
      unfold Host.createDirAll at ht
      split at ht
      · cases ht
      · rw [FileTree.createDirAll_of_isDir hmove.parent] at ht
        exact (Option.some.inj ht).symm
    have hne : f ≠ g := fun heq => hmove.not_below (heq ▸ List.prefix_refl f)
    obtain ⟨t₁, ht₁⟩ := Option.isSome_iff_exists.mp ((FileTree.rename_eq_some_iff hne).mpr hmove)
    have hrename : h.rename t f g = some t₁ := by
      unfold Host.rename
      rw [hfails]
      exact ht₁
    rw [hsame, hrename]
    exact FileTree.get_rename hne ht₁ q

/-- Whatever the manifest lists at or below the target is the image of something, since the move
    replaces the target alone. -/
theorem images_of_follows (hfollows : Follows h e.tree f g) (hstep : e.InStep) (r : PathBuf)
    (hr : e.manifest.Lists (g ++ r)) : e.manifest.Lists (f ++ r) := by
  rcases hfollows with rfl | ⟨-, hmove⟩
  · exact hr
  · obtain ⟨n, hn⟩ := Option.isSome_iff_exists.mp ((hstep _).mp hr)
    have hg : (e.tree.get g).isSome = true := by
      by_cases hne : g = g ++ r
      · rw [hne, hn]
        rfl
      · have hdir := e.tree.isDir_of_prefix hn (List.prefix_append g r) hne
        simp only [FileTree.isDir, hmove.dest_ne_root, decide_false, Bool.false_or,
          Option.any_eq_true] at hdir
        obtain ⟨d, hd, -⟩ := hdir
        rw [hd]
        rfl
    have heq := FileTree.eq_of_prefix_of_replaceable hmove.replaces hn hg (List.prefix_append g r)
    have hnil : r = [] := by simpa using heq
    rw [hnil, List.append_nil]
    exact (hstep f).mpr hmove.source

/-! ## When the manifest follows the disk -/

/-- What a rename that reports success should leave. -/
structure RenamedInStep (h : Host) (e : SyncEngine) (f g : PathBuf) (actionMs : Nat)
    (deleter : String) : Prop where
  in_step : (e.applyRenameAt h f g actionMs deleter).2.InStep
  replaced : ∀ p, (e.applyRenameAt h f g actionMs deleter).2.manifest.files.get p =
    replacedEntry e.manifest (e.applyRenameAt h f g actionMs deleter).2.tree f g p
  order_free : ∀ o : HashOrder,
    (e.applyRenameAt { h with order := o } f g actionMs deleter).2.manifest.files =
      (e.applyRenameAt h f g actionMs deleter).2.manifest.files

theorem replaced_of_follows (hok : (e.moveRename h f g).1 = true)
    (hfollows : Follows h e.tree f g) (hsource : e.tree.pathExists f = true) (hstep : e.InStep) :
    (∀ q, (e.moveRename h f g).2.tree.get q = e.tree.movedGet f g q) ∧
    ∀ p, (e.moveRename h f g).2.manifest.files.get p =
      replacedEntry e.manifest (e.moveRename h f g).2.tree f g p := by
  obtain ⟨t, ht, -, htree, hmanifest⟩ := moveRename_ok hok
  constructor
  · intro q
    rw [htree]
    exact tree_of_follows hfollows hsource ht q
  · intro p
    rw [hmanifest, htree]
    exact replaced_of_apart e.manifest _ (apart_of_follows hfollows)
      (images_of_follows hfollows hstep) p

theorem inStep_of_replaced {e' : SyncEngine} (hstep : e.InStep)
    (htree : ∀ q, e'.tree.get q = e.tree.movedGet f g q)
    (hmanifest : ∀ p, e'.manifest.files.get p = replacedEntry e.manifest e'.tree f g p) :
    e'.InStep := by
  intro p
  rw [Manifest.Lists, hmanifest, htree, replacedEntry, FileTree.movedGet]
  split
  · rw [Option.isSome_map]
    exact hstep _
  · split
    · simp
    · exact hstep p

/-- Without the condition the disk has something that the manifest does not list. -/
theorem not_inStep_of_not_follows (hok : (e.moveRename h f g).1 = true)
    (hfollows : ¬Follows h e.tree f g) (hsource : e.tree.pathExists f = true) (hstep : e.InStep) :
    ¬(e.moveRename h f g).2.InStep := by
  obtain ⟨t, ht, hcase, htree, hmanifest⟩ := moveRename_ok hok
  have hne : f ≠ g := fun heq => hfollows (.inl heq)
  intro hafter
  cases hrename : h.rename t f g with
  | none =>
    rw [hrename, Option.getD_none] at htree hmanifest
    -- The disk is as before, but some key has moved away.
    have hexists : t.pathExists g = true := hcase.resolve_left (by simp [hrename])
    have hsame := createDirAll_of_exists ht hexists
    rw [hsame] at htree hmanifest hexists
    have hsub : ∃ k, e.manifest.Lists k ∧ f <+: k := by
      by_cases hroot : f = []
      · have hg : (e.tree.get g).isSome = true := by
          have hgroot : g ≠ [] := fun heq => hne (hroot.trans heq.symm)
          simpa [FileTree.pathExists, hgroot] using hexists
        exact ⟨g, (hstep g).mpr hg, hroot ▸ List.nil_prefix⟩
      · have hf : (e.tree.get f).isSome = true := by
          simpa [FileTree.pathExists, hroot] using hsource
        exact ⟨f, (hstep f).mpr hf, List.prefix_refl f⟩
    obtain ⟨k₀, hk₀, hfk₀⟩ := hsub
    obtain ⟨k, hk, hfk, hleft⟩ := exists_left_behind (h := h) hne hk₀ hfk₀
    obtain ⟨r, rfl⟩ := hfk
    have hgone : (e.moveRename h f g).2.manifest.files.get (f ++ r) = none := by
      rw [hmanifest, foldl_remapEntry]
      exact FinMap.get_foldl_moveEntry_none hleft
        (.inl ⟨(f ++ r, g ++ r), mem_remapPairs.mpr ⟨r, hk, rfl⟩, rfl⟩)
    have hlisted := (hafter (f ++ r)).mpr (by rw [htree]; exact (hstep _).mp hk)
    rw [Manifest.Lists, hgone] at hlisted
    cases hlisted
  | some t' =>
    rw [hrename, Option.getD_some] at htree hmanifest
    have hfails : h.fails (.rename f g) = false := by
      by_contra hfails
      unfold Host.rename at hrename
      rw [if_pos (by simpa using hfails)] at hrename
      cases hrename
    have hmoved : t.rename f g = some t' := by
      unfold Host.rename at hrename
      rwa [hfails] at hrename
    have hcan : t.CanMove f g := (FileTree.rename_eq_some_iff hne).mp (by rw [hmoved]; rfl)
    -- The move succeeds only because a parent was made, which has no key.
    have hmade : ∃ q, q ≠ [] ∧ q <+: g.dropLast ∧ e.tree.get q = none := by
      by_contra hnone
      simp only [not_exists, not_and] at hnone
      have hsame : t = e.tree := by
        unfold Host.createDirAll at ht
        split at ht
        · cases ht
        · refine FileTree.ext_get fun q => ?_
          rw [FileTree.get_createDirAll ht, if_neg]
          intro hnew
          exact hnone q hnew.1 hnew.2.1 hnew.2.2
      exact hfollows (.inr ⟨hfails, hsame ▸ hcan⟩)
    obtain ⟨q, hq, hqg, hqnone⟩ := hmade
    have hgq : ¬ g <+: q := fun hgq =>
      FileTree.not_prefix_dropLast hcan.dest_ne_root (hgq.trans hqg)
    have hfq : ¬ f <+: q := fun hfq =>
      hcan.not_below (hfq.trans (hqg.trans (List.dropLast_prefix g)))
    have hthere : ((e.moveRename h f g).2.tree.get q).isSome = true := by
      rw [htree, FileTree.get_rename hne hmoved, FileTree.movedGet, if_neg hgq, if_neg hfq]
      unfold Host.createDirAll at ht
      split at ht
      · cases ht
      · rw [FileTree.get_createDirAll ht, if_pos ⟨hq, hqg, hqnone⟩]
        rfl
    have hunlisted : (e.moveRename h f g).2.manifest.files.get q = none := by
      rw [hmanifest, foldl_remapEntry]
      refine FinMap.get_foldl_moveEntry_none ?_ (.inr ?_)
      · intro pair hpair heq
        obtain ⟨r, -, rfl⟩ := mem_remapPairs.mp hpair
        exact hgq (heq ▸ List.prefix_append g r)
      · have hno := mt (hstep q).mp (by simp [hqnone])
        simpa [Manifest.Lists] using hno
    have hlisted := (hafter q).mpr hthere
    rw [Manifest.Lists, hunlisted] at hlisted
    cases hlisted

/-- Apart from the keys nothing depends on the order of the hash map. -/
theorem moveRename_order (o : HashOrder) :
    (e.moveRename { h with order := o } f g).1 = (e.moveRename h f g).1 ∧
      (e.moveRename { h with order := o } f g).2.tree = (e.moveRename h f g).2.tree := by
  have hcreate : Host.createDirAll { h with order := o } e.tree g.dropLast =
      h.createDirAll e.tree g.dropLast := rfl
  have hrename : ∀ t, Host.rename { h with order := o } t f g = h.rename t f g := fun _ => rfl
  unfold moveRename
  dsimp only
  rw [hcreate]
  cases h.createDirAll e.tree g.dropLast with
  | none => exact ⟨rfl, rfl⟩
  | some t =>
    dsimp only
    rw [hrename]
    split
    · exact ⟨rfl, rfl⟩
    · simp

theorem applyRenameAt_eq_moveRename {actionMs : Nat} (deleter : String)
    (hf : safeRelative f = true) (hg : safeRelative g = true)
    (hveto : e.vetoFor g (some actionMs) 0 = none) (hsource : e.tree.pathExists f = true) :
    e.applyRenameAt h f g actionMs deleter =
      ((e.admitRecord g (some actionMs) 0).flushLedger h).moveRename h f g := by
  unfold applyRenameAt
  simp [hf, hg, hveto, hsource]

/-- A rename that reports success keeps the manifest in step with the disk exactly when it renames
    nothing or the move succeeds on the tree as it is. -/
theorem rename_in_step_iff (h : Host) (e : SyncEngine) (f g : PathBuf) (actionMs : Nat)
    (deleter : String) (hf : safeRelative f = true) (hg : safeRelative g = true)
    (hstep : e.InStep) (hveto : e.vetoFor g (some actionMs) 0 = none)
    (hsource : e.tree.pathExists f = true)
    (hok : (e.applyRenameAt h f g actionMs deleter).1 = true) :
    RenamedInStep h e f g actionMs deleter ↔ Follows h e.tree f g := by
  have heq := applyRenameAt_eq_moveRename (h := h) deleter hf hg hveto hsource
  have heq' := fun o => applyRenameAt_eq_moveRename (h := { h with order := o }) deleter hf hg
    hveto hsource
  -- The admission changes neither the tree nor the manifest.
  set e₁ := (e.admitRecord g (some actionMs) 0).flushLedger h with he₁
  have hflush : ∀ o, (e.admitRecord g (some actionMs) 0).flushLedger { h with order := o } = e₁ :=
    fun _ => rfl
  have htree : e₁.tree = e.tree := by simp [he₁]
  have hmanifest : e₁.manifest = e.manifest := by simp [he₁]
  have hstep₁ : e₁.InStep := by
    unfold InStep
    rw [htree, hmanifest]
    exact hstep
  rw [heq] at hok
  rw [← htree] at hsource ⊢
  constructor
  · intro hrenamed
    by_contra hfollows
    refine not_inStep_of_not_follows hok hfollows hsource hstep₁ ?_
    rw [← heq]
    exact hrenamed.in_step
  · intro hfollows
    obtain ⟨hmoved, hreplaced⟩ := replaced_of_follows hok hfollows hsource hstep₁
    have hinstep := inStep_of_replaced hstep₁ hmoved hreplaced
    exact {
      in_step := by
        rw [heq]
        exact hinstep
      replaced := by
        intro p
        rw [heq, ← hmanifest]
        exact hreplaced p
      order_free := by
        intro o
        obtain ⟨hok', htree'⟩ := moveRename_order (h := h) (e := e₁) (f := f) (g := g) o
        have hother := (replaced_of_follows (h := { h with order := o }) (hok'.trans hok) hfollows
          hsource hstep₁).2
        rw [heq, heq', hflush]
        refine FinMap.ext_get fun p => ?_
        rw [hother, hreplaced, htree'] }

/-- A scan of a root without excluded paths brings the manifest in step. -/
theorem lists_buildManifest {t : Tree} {nodeId : String} (hread : ∀ p, h.fails (.read p) = false)
    (p : PathBuf) :
    (buildManifest h t nodeId fun _ => false).Lists p ↔ (t.get p).isSome = true := by
  unfold Manifest.Lists buildManifest
  simp only [FinMap.get_ofKeys, hread, Bool.and_false, Bool.false_eq_true, if_false]
  cases hp : t.get p with
  | none => simp
  | some n =>
    have hmem : p ∈ t.nodes.keys := FinMap.mem_keys_of_get hp
    simp [hmem]

/-- A scanned root with the files `d/x` and `c/y`. -/
def twoDirs : SyncEngine :=
  let t := (FileTree.empty.createDirAll 10 (PathBuf.ofNames ["d"])).getD .empty
  let t := (t.createDirAll 10 (PathBuf.ofNames ["c"])).getD t
  let t := (t.write (PathBuf.ofNames ["d", "x"]) [1] 20).getD t
  let t := (t.write (PathBuf.ofNames ["c", "y"]) [2] 20).getD t
  { new "node" (fun _ => false) t .new with
    manifest := buildManifest (.reliable (fun _ => 0) 1000) t "node" fun _ => false }

theorem twoDirs_inStep : twoDirs.InStep := fun p =>
  lists_buildManifest (h := .reliable (fun _ => 0) 1000) (fun _ => rfl) p

/-- A rename of `d` onto the directory `c`, which is not empty, fails on disk and is reported as a
    success; the manifest then lists `c/x`. -/
theorem rename_out_of_step :
    let h := Host.reliable (fun _ => 0) 1000
    let f := PathBuf.ofNames ["d"]
    let g := PathBuf.ofNames ["c"]
    safeRelative f = true ∧ safeRelative g = true ∧ twoDirs.isExcluded f = false ∧
      twoDirs.isExcluded g = false ∧ twoDirs.InStep ∧ twoDirs.vetoFor g (some 50) 0 = none ∧
      twoDirs.tree.pathExists f = true ∧ (twoDirs.applyRenameAt h f g 50 "node").1 = true ∧
      ¬RenamedInStep h twoDirs f g 50 "node" := by
  refine ⟨by decide, by decide, rfl, rfl, twoDirs_inStep, by decide +kernel, by decide +kernel,
    by decide +kernel, fun hrenamed => ?_⟩
  have hlisted := (hrenamed.in_step (PathBuf.ofNames ["c", "x"])).mp (by decide +kernel)
  revert hlisted
  decide +kernel

/-- A rename of `d` to the new name `b` keeps the manifest in step. -/
theorem rename_stays_in_step :
    RenamedInStep (Host.reliable (fun _ => 0) 1000) twoDirs (PathBuf.ofNames ["d"])
      (PathBuf.ofNames ["b"]) 50 "node" :=
  (rename_in_step_iff _ twoDirs _ _ 50 "node" (by decide) (by decide) twoDirs_inStep
    (by decide +kernel) (by decide +kernel) (by decide +kernel)).mpr
    (.inr ⟨rfl, by decide +kernel⟩)

end SyncEngine

end ByteHive
