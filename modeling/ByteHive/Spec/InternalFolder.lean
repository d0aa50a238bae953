import Mathlib.Data.Set.Finite.Basic
import ByteHive.Native.FileRequests
import ByteHive.Spec.TrashExtent
import ByteHive.Spec.TrashIndex

/-!
# The root and the internal folder under requests

No path is refused for where it leads below the root. So a request destroys the root when it deletes
it, and takes from the internal folder whatever it names there; all else is spared
(`request_spares_iff`).
-/

namespace ByteHive.FileBrowser

open FileTree RootTree

/-! ## What is to be spared -/

/-- At or below `.bh_filesync`. -/
def Internal (q : List String) : Prop := [".bh_filesync"] <+: q

/-- At or below an entry that one of the paths leads to. The root is no entry. -/
def Named (rels : List String) (q : List String) : Prop :=
  ∃ rel ∈ rels, ∃ p, resolvePath rel = .ok p ∧ p.names ≠ [] ∧ p.names <+: q

/-- The entries that a request does not name are there afterwards, and so is what is in the internal
    folder but for what `own` says. -/
structure Spared (named own : List String → Prop) (t t' : RootTree) : Prop where
  entries : ∀ q n, t.get q = some n → ¬Internal q → ¬named q → t'.get q = some n
  internal : ∀ q n, t.get q = some n → Internal q → ¬own q → t'.get q = some n

/-- The places of the trash manager for a deletion, less what the path asks to delete. -/
def Bookkeeping (tick : TrashTick) (rel : String) (q : List String) : Prop :=
  TrashOwn tick.id q ∧ ¬∃ p, resolvePath rel = .ok p ∧ Removed p.names (endsInDot rel) q

/-- A path that may be deleted: not the root and not in the internal folder, or a directory that
    its path ending in `.` does not name and in which all is named otherwise. -/
def DeleteSafe (named : List String → Prop) (t : RootTree) (rel : String) : Prop :=
  ∀ p, resolvePath rel = .ok p → p.existsIn t = true →
    (p.names ≠ [] ∧ ¬Internal p.names) ∨
      (endsInDot rel = true ∧ ∀ q, p.names <+: q → q ≠ p.names → (t.get q).isSome = true →
        ¬Internal q ∧ named q)

theorem Spared.refl (named own : List String → Prop) (t : RootTree) : Spared named own t t :=
  ⟨fun _ _ h _ _ => h, fun _ _ h _ _ => h⟩

theorem internal_of_trashOwn {id : String} {q : List String} (h : TrashOwn id q) : Internal q := by
  have hin : ∀ p : List String, [".bh_filesync"] <+: p → p <+: q → Internal q :=
    fun p hp hq => hp.trans hq
  obtain h | h | h := h
  · exact hin _ ⟨_, rfl⟩ h
  · exact hin _ ⟨_, rfl⟩ h
  · exact hin _ ⟨_, rfl⟩ h

/-- What is above something internal is the root, or internal. -/
theorem internal_of_above {p q : List String} (hne : p ≠ []) (hpre : p <+: q) (h : Internal q) :
    Internal p := by
  obtain hin | hin := List.prefix_or_prefix_of_prefix h hpre
  · exact hin
  · obtain ⟨name, rest, rfl⟩ := List.exists_cons_of_ne_nil hne
    obtain ⟨rfl, -⟩ := List.cons_prefix_cons.mp hin
    exact ⟨rest, rfl⟩

/-! ## Deleting -/

/-- A path whose text ends in `.` is one for directories. -/
theorem slash_of_endsInDot {rel : String} {p : BrowserPath} (hp : resolvePath rel = .ok p)
    (hdot : endsInDot rel = true) : p.slash = true := by
  have hlast : ∀ parts : List (List Char),
      (parts.filter (· ≠ [])).getLast? = some ['.'] →
      parts.getLast?.any (fun part => part = [] || part = ['.']) = true := by
    intro parts
    induction parts using List.reverseRecOn with
    | nil => intro h; cases h
    | append_singleton parts part ih =>
      intro h
      rw [List.getLast?_concat, Option.any_some]
      by_cases hpart : part = []
      · simp [hpart]
      · rw [List.filter_append, List.filter_cons_of_pos (by simpa using hpart), List.filter_nil,
          List.getLast?_concat] at h
        simp [Option.some.inj h]
  rw [resolvePath] at hp
  cases hnames : plainComponents (componentsOf (trimRel rel)) with
  | error e =>
    rw [hnames] at hp
    cases hp
  | ok names =>
    rw [hnames] at hp
    have hpath : (⟨names, endsAsDir (trimRel rel)⟩ : BrowserPath) = p := Except.ok.inj hp
    rw [endsInDot, decide_eq_true_eq] at hdot
    simp only [← hpath, endsAsDir]
    exact hlast _ hdot

/-- A tick at another time than that of any entry in the way, with a free directory. -/
theorem exists_tick (t : RootTree) (m : Nat) (q : List String) :
    ∃ tick : TrashTick, tick.now ≠ m ∧ t.get (entryDir tick.id) = none ∧
      ¬entryDir tick.id <+: q := by
  have hinjective : Function.Injective fun seq => entryDir (trashId 0 seq) := by
    intro seq seq' h
    have hid : trashId 0 seq = trashId 0 seq' := by simpa [entryDir] using h
    exact trashId_seq_eq hid
  obtain ⟨dir, ⟨seq, rfl⟩, hfree⟩ :=
    (Set.infinite_range_of_injective hinjective).exists_notMem_finset
      (t.nodes.keys ∪ q.inits.toFinset)
  rw [Finset.mem_union, not_or, List.mem_toFinset, List.mem_inits, FinMap.mem_keys] at hfree
  exact ⟨⟨m + 1, 0, seq⟩, by simp, Option.not_isSome_iff_eq_none.mp hfree.1, hfree.2⟩

section

variable {host : BrowserHost} {t : RootTree} {named : List String → Prop} {rel who : String}

/-- What is left after one path of a request has been deleted. -/
def deleted (host : BrowserHost) (who : String) (tick : TrashTick) (t : RootTree) (rel : String) :
    Option RootTree :=
  match resolvePath rel with
  | .error _ => some t
  | .ok p => moveToTrash host tick t p (endsInDot rel) who

theorem deleteOne_snd (tick : TrashTick) :
    (deleteOne host who (some t) tick rel).2 = deleted host who tick t rel := by
  rw [deleteOne.eq_def, deleted]
  cases resolvePath rel with
  | error text => rfl
  | ok p =>
    simp only
    split
    · next hexists =>
      rw [moveToTrash, if_pos hexists]
    · rfl

theorem deleted_spared (hnamed : ∀ q, Named [rel] q → named q) (hsafe : DeleteSafe named t rel)
    (tick : TrashTick) :
    ∃ t', deleted host who tick t rel = some t' ∧ Spared named (Bookkeeping tick rel) t t' := by
  rw [deleted]
  cases hp : resolvePath rel with
  | error text => exact ⟨t, rfl, Spared.refl _ _ t⟩
  | ok p =>
    by_cases hexists : p.existsIn t = true
    · have hsafe := hsafe p hp hexists
      have hslash := slash_of_endsInDot hp
      obtain ⟨t', hmoved, htrashed⟩ | ⟨-, hroot, hdot⟩ :=
        moveToTrash_spec tick host hslash hexists who
      · refine ⟨t', hmoved, fun q n hq hout hunnamed => ?_, fun q n hq hin hown => ?_⟩
        · refine htrashed.within.keeps q n hq fun hchanged => ?_
          obtain hremoved | htrash := hchanged
          · obtain ⟨hne, -⟩ | ⟨hdot, hbelow⟩ := hsafe
            · exact hunnamed (hnamed q ⟨rel, by simp, p, hp, hne, hremoved.1⟩)
            · exact hunnamed (hbelow q hremoved.1 (hremoved.2 hdot) (by rw [hq]; rfl)).2
          · exact hout (internal_of_trashOwn htrash)
        · have hkept : ¬Removed p.names (endsInDot rel) q := by
            intro hremoved
            obtain ⟨hne, hout⟩ | ⟨hdot, hbelow⟩ := hsafe
            · exact hout (internal_of_above hne hremoved.1 hin)
            · exact (hbelow q hremoved.1 (hremoved.2 hdot) (by rw [hq]; rfl)).1 hin
          refine htrashed.within.keeps q n hq fun hchanged => ?_
          refine hown ⟨hchanged.resolve_left hkept, fun hremoved => ?_⟩
          obtain ⟨p', hp', hremoved⟩ := hremoved
          cases hp.symm.trans hp'
          exact hkept hremoved
      · obtain ⟨hne, -⟩ | ⟨hdot', -⟩ := hsafe
        · exact absurd hroot hne
        · rw [hdot] at hdot'
          cases hdot'
    · refine ⟨t, ?_, Spared.refl _ _ t⟩
      show moveToTrash host tick t p _ who = some t
      rw [moveToTrash, if_pos (by simpa using hexists)]

/-- What is taken away was to be spared, or the root is gone. -/
theorem deleteSafe_of_spared
    (h : ∀ tick, ∃ t', deleted host who tick t rel = some t' ∧
      Spared named (Bookkeeping tick rel) t t') : DeleteSafe named t rel := by
  intro p hp hexists
  have hslash := slash_of_endsInDot hp
  -- Whatever is removed does not come back: at another time it would be another entry.
  have hremoved : ∀ q n, t.get q = some n → Removed p.names (endsInDot rel) q →
      ¬Internal q ∧ named q := by
    intro q n hq hremoved
    obtain ⟨tick, hnow, -, hout⟩ := exists_tick t n.mtime q
    obtain ⟨t', hdeleted, hspared⟩ := h tick
    simp only [deleted, hp] at hdeleted
    obtain ⟨t'', hmoved, htrashed⟩ | ⟨hnone, -⟩ :=
      moveToTrash_spec tick host hslash hexists who
    · rw [hdeleted] at hmoved
      cases hmoved
      have hgone : t'.get q ≠ some n :=
        fun hget => hnow (htrashed.gone q n hget hremoved hout).symm
      constructor
      · intro hin
        exact hgone (hspared.internal q n hq hin fun hown => hown.2 ⟨p, hp, hremoved⟩)
      · by_contra hunnamed
        by_cases hin : Internal q
        · exact hgone (hspared.internal q n hq hin fun hown => hown.2 ⟨p, hp, hremoved⟩)
        · exact hgone (hspared.entries q n hq hin hunnamed)
    · rw [hdeleted] at hnone
      cases hnone
  cases hdot : endsInDot rel with
  | true =>
    refine .inr ⟨rfl, fun q hpre hne hsome => ?_⟩
    obtain ⟨n, hn⟩ := Option.isSome_iff_exists.mp hsome
    exact hremoved q n hn ⟨hpre, fun _ => hne⟩
  | false =>
    left
    have hne : p.names ≠ [] := by
      intro hroot
      obtain ⟨tick, -, hfree, -⟩ := exists_tick t 0 []
      obtain ⟨t', hdeleted, -⟩ := h tick
      simp only [deleted, hp, hdot] at hdeleted
      rw [moveToTrash_root hroot hfree] at hdeleted
      cases hdeleted
    refine ⟨hne, fun hin => ?_⟩
    obtain ⟨n, hn⟩ : ∃ n, t.get p.names = some n := by
      rw [BrowserPath.existsIn] at hexists
      split at hexists
      · simp only [isDir, hne, decide_false, Bool.false_or, Option.any_eq_true] at hexists
        obtain ⟨n, hn, -⟩ := hexists
        exact ⟨n, hn⟩
      · simpa [pathExists, hne, Option.isSome_iff_exists] using hexists
    exact (hremoved p.names n hn ⟨List.prefix_rfl, fun h => by rw [hdot] at h; cases h⟩).1 hin

variable (host who) in
theorem deleted_spared_iff (hnamed : ∀ q, Named [rel] q → named q) :
    (∀ tick, ∃ t', deleted host who tick t rel = some t' ∧
      Spared named (Bookkeeping tick rel) t t') ↔ DeleteSafe named t rel :=
  ⟨deleteSafe_of_spared, deleted_spared hnamed⟩

end

/-! ## Deleting many -/

section

variable {host : BrowserHost} {named : List String → Prop} {who : String}

/-- Each deletion of the loop spares what it is to spare. -/
def EachSpared (host : BrowserHost) (named : List String → Prop) (who : String) :
    (Nat → TrashTick) → Option RootTree → List String → Prop
  | _, _, [] => True
  | ticks, disk, rel :: rels =>
    (∀ t, disk = some t → ∃ t', (deleteOne host who disk (ticks 0) rel).2 = some t' ∧
      Spared named (Bookkeeping (ticks 0) rel) t t') ∧
    EachSpared host named who (fun i => ticks (i + 1))
      (deleteOne host who disk (ticks 0) rel).2 rels

/-- Each path may be deleted when its turn comes. -/
def EachSafe (host : BrowserHost) (named : List String → Prop) (who : String) :
    (Nat → TrashTick) → Option RootTree → List String → Prop
  | _, _, [] => True
  | ticks, disk, rel :: rels =>
    (∀ t, disk = some t → DeleteSafe named t rel) ∧
    EachSafe host named who (fun i => ticks (i + 1))
      (deleteOne host who disk (ticks 0) rel).2 rels

/-- The ticks of a loop with that of its first turn. -/
def startWith (tick : TrashTick) (ticks : Nat → TrashTick) : Nat → TrashTick
  | 0 => tick
  | i + 1 => ticks i

theorem eachSpared_startWith {tick : TrashTick} {ticks : Nat → TrashTick}
    {disk : Option RootTree} {rel : String} {rels : List String} :
    EachSpared host named who (startWith tick ticks) disk (rel :: rels) ↔
      (∀ t, disk = some t → ∃ t', (deleteOne host who disk tick rel).2 = some t' ∧
        Spared named (Bookkeeping tick rel) t t') ∧
      EachSpared host named who ticks (deleteOne host who disk tick rel).2 rels := by
  rw [EachSpared]
  rfl

theorem eachSafe_startWith {tick : TrashTick} {ticks : Nat → TrashTick}
    {disk : Option RootTree} {rel : String} {rels : List String} :
    EachSafe host named who (startWith tick ticks) disk (rel :: rels) ↔
      (∀ t, disk = some t → DeleteSafe named t rel) ∧
      EachSafe host named who ticks (deleteOne host who disk tick rel).2 rels := by
  rw [EachSafe]
  rfl

theorem eachSpared_iff {rels : List String} (hnamed : ∀ q, Named rels q → named q)
    (disk : Option RootTree) :
    (∀ ticks, EachSpared host named who ticks disk rels) ↔
      ∀ ticks, EachSafe host named who ticks disk rels := by
  induction rels generalizing disk with
  | nil => exact iff_of_true (fun _ => trivial) fun _ => trivial
  | cons rel rels ih =>
    have hone : ∀ t, disk = some t → ((∀ tick, ∃ t',
        (deleteOne host who disk tick rel).2 = some t' ∧
          Spared named (Bookkeeping tick rel) t t') ↔ DeleteSafe named t rel) := by
      intro t ht
      subst ht
      simp only [deleteOne_snd]
      refine deleted_spared_iff host who fun q hq => hnamed q ?_
      obtain ⟨rel', hrel, hleads⟩ := hq
      rw [List.mem_singleton] at hrel
      exact ⟨rel', hrel ▸ List.mem_cons_self, hleads⟩
    have hrest := fun disk => ih (fun q ⟨rel', hrel, hleads⟩ =>
      hnamed q ⟨rel', List.mem_cons_of_mem rel hrel, hleads⟩) disk
    constructor
    · intro h ticks
      have hturn := fun tick ticks => eachSpared_startWith.mp (h (startWith tick ticks))
      refine ⟨fun t ht => (hone t ht).mp fun tick => (hturn tick ticks).1 t ht, ?_⟩
      exact (hrest _).mp (fun ticks' => (hturn (ticks 0) ticks').2) _
    · intro h ticks
      have hturn := fun tick ticks => eachSafe_startWith.mp (h (startWith tick ticks))
      refine ⟨fun t ht => (hone t ht).mpr ((hturn (ticks 0) ticks).1 t ht) (ticks 0), ?_⟩
      exact (hrest _).mpr (fun ticks' => (hturn (ticks 0) ticks').2) _

/-- After all deletions the root is there, and so is what the request does not name. -/
theorem EachSpared.entries {ticks : Nat → TrashTick} {t : RootTree} {rels : List String}
    (h : EachSpared host named who ticks (some t) rels) :
    ∃ t', (deleteEach host who ticks (some t) rels).2 = some t' ∧
      ∀ q n, t.get q = some n → ¬Internal q → ¬named q → t'.get q = some n := by
  induction rels generalizing ticks t with
  | nil => exact ⟨t, rfl, fun _ _ h _ _ => h⟩
  | cons rel rels ih =>
    obtain ⟨hfirst, hrest⟩ := h
    obtain ⟨t₁, hone, hspared⟩ := hfirst t rfl
    rw [hone] at hrest
    obtain ⟨t', hall, hkept⟩ := ih hrest
    refine ⟨t', ?_, fun q n hq hout hunnamed => ?_⟩
    · rw [deleteEach]
      simp only [hone]
      exact hall
    · exact hkept q n (hspared.entries q n hq hout hunnamed) hout hunnamed

end

/-! ## Renaming -/

/-- The kernel moves the source to the target. -/
def CanRename (t : RootTree) (f g : BrowserPath) (dot : Bool) : Prop :=
  dot = false ∧ f.existsIn t = true ∧ (g.slash = true → t.isFile f.names = false) ∧
    f.names ≠ g.names ∧ t.CanMove f.names g.names

/-- Nothing internal is moved, or replaced by another entry. -/
def RenameSafe (t : RootTree) (source target : String) : Prop :=
  ∀ f g, resolvePath source = .ok f → resolvePath target = .ok g →
    CanRename t f g (endsInDot source || endsInDot target) →
      ¬Internal f.names ∧
        (Internal g.names → ∀ n, t.get g.names = some n → t.get f.names = some n)

section

variable {t t' : RootTree} {f g : BrowserPath} {dot : Bool}

theorem renamePath_of_canRename (h : CanRename t f g dot) :
    ∃ t', renamePath t f g dot = some t' ∧ t.rename f.names g.names = some t' := by
  obtain ⟨hdot, hexists, hslash, hne, hcan⟩ := h
  obtain ⟨t', hrename⟩ := Option.isSome_iff_exists.mp ((rename_eq_some_iff hne).mpr hcan)
  refine ⟨t', ?_, hrename⟩
  rw [renamePath, if_neg, if_neg hne, hrename]
  rw [hdot, hexists]
  cases hgslash : g.slash with
  | false => simp
  | true => simp [hslash hgslash]

theorem renamePath_eq_some (h : renamePath t f g dot = some t') :
    t' = t ∨ CanRename t f g dot ∧ t.rename f.names g.names = some t' := by
  rw [renamePath] at h
  split at h
  · cases h
  · next hready =>
    split at h
    · cases h
      exact .inl rfl
    · next hne =>
      refine .inr ⟨?_, h⟩
      have hcan := (rename_eq_some_iff hne).mp (by rw [h]; rfl)
      simp only [Bool.or_eq_true, Bool.not_eq_true', Bool.and_eq_true, not_or, not_and,
        Bool.not_eq_true, Bool.not_eq_false] at hready
      exact ⟨hready.1.1, hready.1.2, hready.2, hne, hcan⟩

theorem renamed_spared_iff {source target : String} (hf : resolvePath source = .ok f)
    (hg : resolvePath target = .ok g)
    (hrename : CanRename t f g (endsInDot source || endsInDot target))
    (hmoved : t.rename f.names g.names = some t') :
    Spared (Named [source, target]) (fun _ => False) t t' ↔
      ¬Internal f.names ∧
        (Internal g.names → ∀ n, t.get g.names = some n → t.get f.names = some n) := by
  obtain ⟨-, -, -, hne, hcan⟩ := hrename
  have hget := get_rename hne hmoved
  have hfroot : f.names ≠ [] := by
    intro hroot
    have hsource := hcan.source
    rw [hroot, get_nil] at hsource
    cases hsource
  have htarget : t'.get g.names = t.get f.names := by
    have hat := hget (g.names ++ [])
    rwa [movedGet, if_pos (List.prefix_append _ _), List.drop_left, List.append_nil,
      List.append_nil] at hat
  constructor
  · intro hspared
    refine ⟨fun hin => ?_, fun hin n hn => ?_⟩
    · obtain ⟨n, hn⟩ := Option.isSome_iff_exists.mp hcan.source
      have hstays := hspared.internal _ n hn hin not_false
      rw [hget, movedGet, if_neg hcan.source_not_below, if_pos List.prefix_rfl] at hstays
      cases hstays
    · rw [← htarget]
      exact hspared.internal _ n hn hin not_false
  · intro ⟨hsource, hreplaced⟩
    have hsame : ∀ q, ¬f.names <+: q → ¬g.names <+: q → t'.get q = t.get q := by
      intro q hf hg
      rw [hget, movedGet, if_neg hg, if_neg hf]
    refine ⟨fun q n hq _ hunnamed => ?_, fun q n hq hin _ => ?_⟩
    · rw [hsame q, hq]
      · exact fun hpre => hunnamed ⟨source, by simp, f, hf, hfroot, hpre⟩
      · exact fun hpre => hunnamed ⟨target, by simp, g, hg, hcan.dest_ne_root, hpre⟩
    · have houtf : ¬f.names <+: q := fun hpre => hsource (internal_of_above hfroot hpre hin)
      by_cases hpre : g.names <+: q
      · -- What is replaced has nothing below it.
        have hgin := internal_of_above hcan.dest_ne_root hpre hin
        have hsome : (t.get g.names).isSome = true := by
          by_cases heq : g.names = q
          · rw [heq, hq]
            rfl
          · have hdir := t.isDir_of_prefix hq hpre heq
            simp only [isDir, hcan.dest_ne_root, decide_false, Bool.false_or,
              Option.any_eq_true] at hdir
            obtain ⟨d, hd, -⟩ := hdir
            rw [hd]
            rfl
        obtain rfl := eq_of_prefix_of_replaceable hcan.replaces hq hsome hpre
        rw [htarget]
        exact hreplaced hgin n hq
      · rw [hsame q houtf hpre, hq]

end

/-! ## Writing -/

section

variable {t t' : RootTree} {named : List String → Prop} {now : Nat} {data : Content}
variable {q : List String}

/-- A file is there already when it would be written in the internal folder. -/
def Overwrites (t : RootTree) (q : List String) : Prop := Internal q ∧ t.isFile q = true

theorem written_spared (hwrite : t.write q data now = some t') (hnamed : named q)
    (hsafe : ¬Overwrites t q) : Spared named (fun _ => False) t t' := by
  have hchange := Within.write hwrite
  refine ⟨fun r n hr _ hunnamed => hchange.keeps r n hr fun heq => hunnamed (heq ▸ hnamed),
    fun r n hr hin _ => hchange.keeps r n hr fun heq => hsafe ?_⟩
  subst heq
  have hnot : ¬(r = [] ∨ t.isDir r.dropLast = false ∨ t.isDir r = true) := by
    rw [← @write_eq_none_iff _ _ _ t r data now, hwrite]
    simp
  refine ⟨hin, ?_⟩
  simp only [not_or, isDir, hr, Option.any_some, Bool.or_eq_true] at hnot
  simpa [isFile, hr] using hnot.2.2.2

/-- A file can be written anew, and is another one at another time. -/
theorem not_spared_of_overwrites (named own : List String → Prop) (hown : ¬own q)
    (hover : Overwrites t q) (data : Content) :
    ∃ now t', t.write q data now = some t' ∧ ¬Spared named own t t' := by
  obtain ⟨hin, hfile⟩ := hover
  obtain ⟨n, hn, hdir⟩ := Option.any_eq_true _ _ |>.mp hfile
  have hne : q ≠ [] := by
    rintro rfl
    simp at hn
  obtain ⟨t', hwrite⟩ : ∃ t', t.write q data (n.mtime + 1) = some t' := by
    rw [← Option.isSome_iff_exists, Option.isSome_iff_ne_none, ne_eq, write_eq_none_iff]
    have hparent := t.isDir_of_prefix hn (List.dropLast_prefix q) (dropLast_ne hne)
    have hself : t.isDir q = false := by simpa [isDir, hne, hn] using hdir
    simp [hne, hparent, hself]
  refine ⟨n.mtime + 1, t', hwrite, fun hspared => ?_⟩
  have hstays := hspared.internal q n hn hin hown
  rw [get_write hwrite, if_pos rfl] at hstays
  have htime := congrArg FileNode.mtime (Option.some.inj hstays)
  exact absurd htime (Nat.succ_ne_self _)

theorem makeTargetDir_snd (t : RootTree) (now : Nat) (p : BrowserPath) (dot : Bool) :
    (makeTargetDir t now p dot).2 = t ∨
      ∃ names, t.createDirAll now names = some (makeTargetDir t now p dot).2 := by
  rw [makeTargetDir]
  split
  · exact .inl rfl
  · split
    · cases hmake : t.createDirAll now p.names.dropLast with
      | none => exact .inl rfl
      | some t' => exact .inr ⟨_, hmake⟩
    · cases hmake : t.createDirAll now p.names with
      | none => exact .inl rfl
      | some t' => exact .inr ⟨_, hmake⟩

/-- Only directories are new. -/
structure Grown (now : Nat) (t t' : RootTree) : Prop where
  within : Within (fun _ => False) (fun _ => False) now t t'
  files : ∀ q, t'.isFile q = t.isFile q

theorem makeTargetDir_grown (t : RootTree) (now : Nat) (p : BrowserPath) (dot : Bool) :
    Grown now t (makeTargetDir t now p dot).2 := by
  obtain hsame | ⟨names, hmake⟩ := makeTargetDir_snd t now p dot
  · rw [hsame]
    exact ⟨Within.refl _ _ now t, fun _ => rfl⟩
  · exact ⟨Within.createDirAll hmake, isFile_createDirAll hmake⟩

theorem Grown.spared (named own : List String → Prop) (h : Grown now t t') :
    Spared named own t t' :=
  ⟨fun q n hq _ _ => h.within.keeps q n hq not_false,
    fun q n hq _ _ => h.within.keeps q n hq not_false⟩

theorem Spared.trans {own : List String → Prop} {t'' : RootTree} (h : Spared named own t t')
    (h' : Spared named own t' t'') : Spared named own t t'' :=
  ⟨fun q n hq hout hunnamed =>
      h'.entries q n (h.entries q n hq hout hunnamed) hout hunnamed,
    fun q n hq hin hown => h'.internal q n (h.internal q n hq hin hown) hin hown⟩

end

/-! ## Copying -/

/-- A copy only adds: its target is not there. -/
theorem acceptedCopy_keeps {ls : DirListing Content} {now fuel : Nat} {t t' : RootTree}
    {f g : BrowserPath} (hto : g.existsIn t = false)
    (h : (acceptedCopy ls now fuel t f g).Leaves t') :
    ∀ q n, t.get q = some n → t'.get q = some n := by
  intro q n hq
  cases hfile : t.isFile g.names with
  | false =>
    have hwithin : Within (fun q => g.names <+: q) (fun _ => False) now t t' := by
      rw [acceptedCopy] at h
      split at h
      · exact copyDirAll_within h
      · split at h
        · obtain h | h := h
          · cases h
          · cases h
            exact Within.refl _ _ now _
        · exact copyFile_within h
    refine hwithin.keeps q n hq fun hpre => ?_
    obtain ⟨r, rfl⟩ := hpre
    rw [get_target_eq_none hto hfile] at hq
    cases hq
  | true =>
    -- Where a file is, nothing is copied to.
    have hslash : g.slash = true := by
      by_contra hslash
      rw [BrowserPath.existsIn, if_neg hslash, pathExists, Bool.or_eq_false_iff] at hto
      rw [isFile] at hfile
      cases hget : t.get g.names with
      | none => simp [hget] at hfile
      | some n => simp [hget] at hto
    have hsame : t' = t := by
      rw [acceptedCopy] at h
      split at h
      · cases fuel with
        | zero => obtain h | h := h <;> cases h
        | succ fuel =>
          rw [copyDirAll, createDirAll_eq_none_iff.mpr ⟨g.names, List.prefix_rfl, hfile⟩] at h
          obtain h | h := h
          · cases h
          · cases h
            rfl
      · obtain h | h := h
        · cases h
        · cases h
          rfl
    rw [hsame]
    exact hq

theorem copied_spared {ls : DirListing Content} {now fuel : Nat} {t t' : RootTree}
    {source target : Option String} {reply : CopyReply} (named own : List String → Prop)
    (h : handleCopy ls now fuel t source target = some (reply, t')) : Spared named own t t' := by
  rw [handleCopy.eq_def] at h
  split at h
  · cases h
    exact Spared.refl named own t
  · cases h
    exact Spared.refl named own t
  · split at h
    · cases h
      exact Spared.refl named own t
    · cases h
      exact Spared.refl named own t
    · next f g _ _ =>
      split at h
      · cases h
        exact Spared.refl named own t
      · split at h
        · cases h
          exact Spared.refl named own t
        · next hto =>
          have hleaves : (acceptedCopy ls now fuel t f g).Leaves t' := by
            rw [acceptedCopy]
            simp only at h
            split at h
            · next hdone =>
              cases h
              exact .inl hdone
            · next hfailed =>
              cases h
              exact .inr hfailed
            · cases h
          have hkeeps := acceptedCopy_keeps (by simpa using hto) hleaves
          exact ⟨fun q n hq _ _ => hkeeps q n hq, fun q n hq _ _ => hkeeps q n hq⟩

/-! ## Requests -/

/-- What a request names. -/
def BrowserRequest.names : BrowserRequest → List String → Prop
  | .delete path => Named path.toList
  | .batchDelete paths _ => Named (paths.getD [])
  | .rename source target => Named (source.toList ++ target.toList)
  | .write _ path _ _ => Named path.toList
  | .upload dir name _ => fun q =>
    ∃ p n, resolvePath (dir.getD "") = .ok p ∧ name = some n ∧ p.names ++ [n] <+: q
  | .copy source target => Named (source.toList ++ target.toList)

/-- What the trash manager does for a request. -/
def BrowserRequest.own (ticks : Nat → TrashTick) : BrowserRequest → List String → Prop
  | .delete (some path) => Bookkeeping (ticks 0) path
  | _ => fun _ => False

/-- The paths of a batch that are deleted one after the other. -/
def deletions (inner : FileBrowserInner) (paths : Option (List String)) : List String :=
  let paths := (paths.getD []).filter (· ≠ "")
  if inner.allowDelete = true ∧ paths.length ≤ 500 then paths else []

/-- Where a request is answered, the root and what is to be spared are there afterwards. A batch is
    to spare the internal folder in each of its deletions. -/
def Spares (host : BrowserHost) (inner : FileBrowserInner) (t : RootTree)
    (ticks : Nat → TrashTick) (req : BrowserRequest) : Prop :=
  ∀ reply disk, handle host inner t ticks req = some (reply, disk) →
    match req with
    | .batchDelete paths deletedBy =>
      (∃ t', disk = some t' ∧
        ∀ q n, t.get q = some n → ¬Internal q → ¬req.names q → t'.get q = some n) ∧
      EachSpared host req.names (if deletedBy = "" then "filebrowser" else deletedBy) ticks
        (some t) (deletions inner paths)
    | _ => ∃ t', disk = some t' ∧ Spared req.names (req.own ticks) t t'

/-- A request that deletes, moves and overwrites only what it may. -/
def BrowserRequest.Safe (host : BrowserHost) (inner : FileBrowserInner) (t : RootTree) :
    BrowserRequest → Prop
  | .delete path =>
    inner.allowDelete = true → ∀ rel, path = some rel → DeleteSafe (Named [rel]) t rel
  | .batchDelete paths deletedBy =>
    ∀ ticks, EachSafe host (Named (paths.getD []))
      (if deletedBy = "" then "filebrowser" else deletedBy) ticks (some t) (deletions inner paths)
  | .rename source target =>
    ∀ s d, source = some s → target = some d → RenameSafe t s d
  | .write bodyLen path content force =>
    bodyLen ≤ inner.maxUploadBytes → ∀ rel p, path = some rel → content.isSome = true →
      resolvePath rel = .ok p → p.slash = false → writable t rel p force = true →
        ¬Overwrites t p.names
  | .upload dir name body =>
    body.length ≤ inner.maxUploadBytes → ∀ n p, name = some n → '\\' ∉ n.toList →
      PlainName n → resolvePath (dir.getD "") = .ok p → ¬Overwrites t (p.names ++ [n])
  | .copy _ _ => True

section

variable (host : BrowserHost) (inner : FileBrowserInner) (t : RootTree)

variable {host inner t} in
theorem handle_eq_pair {ticks : Nat → TrashTick} {req : BrowserRequest}
    {x : BrowserReply × Option RootTree} (h : handle host inner t ticks req = some x) :
    handle host inner t ticks req = some (x.1, x.2) := by
  rw [h]

theorem handleDelete_snd (tick : TrashTick) (rel : String) (h : inner.allowDelete = true) :
    (handleDelete host inner t tick (some rel)).2 = deleted host "filebrowser" tick t rel := by
  rw [handleDelete, h, deleted]
  simp only [Bool.not_true, Bool.false_eq_true, if_false]
  cases resolvePath rel <;> rfl

theorem delete_spares_iff (path : Option String) :
    (∀ ticks, Spares host inner t ticks (.delete path)) ↔
      (BrowserRequest.delete path).Safe host inner t := by
  by_cases hallow : inner.allowDelete = true
  · cases path with
    | none =>
      refine iff_of_true (fun ticks reply disk h => ?_) fun _ rel h => by cases h
      simp only [handle, handleDelete, hallow, Bool.not_true, Bool.false_eq_true, if_false,
        Option.some.injEq, Prod.mk.injEq] at h
      exact ⟨t, h.2.symm, Spared.refl _ _ t⟩
    | some rel =>
      have hspares : ∀ ticks, Spares host inner t ticks (.delete (some rel)) ↔
          ∃ t', deleted host "filebrowser" (ticks 0) t rel = some t' ∧
            Spared (Named [rel]) (Bookkeeping (ticks 0) rel) t t' := by
        intro ticks
        have hsnd := handleDelete_snd host inner t (ticks 0) rel hallow
        constructor
        · intro h
          obtain ⟨t', ht', hspared⟩ := h _ _ (handle_eq_pair rfl)
          exact ⟨t', by rw [← hsnd, ht'], hspared⟩
        · intro ⟨t', ht', hspared⟩ reply disk h
          have hdisk : (handleDelete host inner t (ticks 0) (some rel)).2 = disk :=
            congrArg Prod.snd (Option.some.inj h)
          exact ⟨t', by rw [← hdisk, hsnd, ht'], hspared⟩
      have hsafe : (BrowserRequest.delete (some rel)).Safe host inner t ↔
          DeleteSafe (Named [rel]) t rel := by
        refine ⟨fun h => h hallow rel rfl, fun h _ rel' hrel => ?_⟩
        cases hrel
        exact h
      rw [hsafe, ← deleted_spared_iff host "filebrowser" fun q hq => hq]
      simp only [hspares]
      exact ⟨fun h tick => h fun _ => tick, fun h ticks => h (ticks 0)⟩
  · refine iff_of_true (fun ticks reply disk h => ?_) fun h => absurd h hallow
    simp only [handle, handleDelete, hallow, Bool.not_false, if_true,
      Option.some.injEq, Prod.mk.injEq] at h
    exact ⟨t, h.2.symm, Spared.refl _ _ t⟩

theorem handleBatchDelete_snd (ticks : Nat → TrashTick) (paths : Option (List String))
    (deletedBy : String) :
    (handleBatchDelete host inner t ticks paths deletedBy).2 =
      (deleteEach host (if deletedBy = "" then "filebrowser" else deletedBy) ticks (some t)
        (deletions inner paths)).2 := by
  have hnone : ∀ who, (deleteEach host who ticks (some t) []).2 = some t := fun _ => rfl
  rw [handleBatchDelete.eq_def, deletions]
  cases hallow : inner.allowDelete with
  | false => simp [hnone]
  | true =>
    cases paths with
    | none => simp [hnone]
    | some paths =>
      simp only [Bool.not_true, Bool.false_eq_true, if_false, Option.getD_some, true_and]
      by_cases hempty : paths.filter (· ≠ "") = []
      · simp only [hempty, if_true]
        simp [hnone]
      · by_cases hmany : 500 < (paths.filter (· ≠ "")).length
        · rw [if_neg hempty, if_pos hmany, if_neg (Nat.not_le.mpr hmany)]
          exact (hnone _).symm
        · rw [if_neg hempty, if_neg hmany, if_pos (Nat.not_lt.mp hmany)]

theorem batchDelete_spares_iff (paths : Option (List String)) (deletedBy : String) :
    (∀ ticks, Spares host inner t ticks (.batchDelete paths deletedBy)) ↔
      (BrowserRequest.batchDelete paths deletedBy).Safe host inner t := by
  have hnamed : ∀ q, Named (deletions inner paths) q → Named (paths.getD []) q := by
    intro q ⟨rel, hrel, hleads⟩
    refine ⟨rel, ?_, hleads⟩
    rw [deletions] at hrel
    split at hrel
    · exact List.mem_of_mem_filter hrel
    · cases hrel
  rw [BrowserRequest.Safe, ← eachSpared_iff hnamed]
  refine forall_congr' fun ticks => ⟨fun h => (h _ _ rfl).2, fun heach reply disk h => ⟨?_, heach⟩⟩
  have hdisk : (handleBatchDelete host inner t ticks paths deletedBy).2 = disk :=
    congrArg Prod.snd (Option.some.inj h)
  obtain ⟨t', ht', hkept⟩ := heach.entries
  refine ⟨t', ?_, hkept⟩
  rw [← hdisk, handleBatchDelete_snd, ht']

theorem rename_spares_iff (source target : Option String) :
    (∀ ticks, Spares host inner t ticks (.rename source target)) ↔
      (BrowserRequest.rename source target).Safe host inner t := by
  have hspares : (∀ ticks, Spares host inner t ticks (.rename source target)) ↔
      ∃ t', (handleRename t source target).2 = some t' ∧
        Spared (Named (source.toList ++ target.toList)) (fun _ => False) t t' := by
    constructor
    · intro h
      obtain ⟨t', ht', hspared⟩ := h (fun _ => ⟨0, 0, 0⟩) _ _ (handle_eq_pair rfl)
      exact ⟨t', ht', hspared⟩
    · intro h ticks reply disk hdisk
      have hdisk : (handleRename t source target).2 = disk :=
        congrArg Prod.snd (Option.some.inj hdisk)
      exact hdisk ▸ h
  have hsame : (handleRename t source target).2 = some t → ∃ t',
      (handleRename t source target).2 = some t' ∧
        Spared (Named (source.toList ++ target.toList)) (fun _ => False) t t' :=
    fun h => ⟨t, h, Spared.refl _ _ t⟩
  rw [hspares]
  cases source with
  | none => exact iff_of_true (hsame rfl) fun s d h => by cases h
  | some source =>
    cases target with
    | none => exact iff_of_true (hsame rfl) fun s d _ h => by cases h
    | some target =>
      have hsafe : (BrowserRequest.rename (some source) (some target)).Safe host inner t ↔
          RenameSafe t source target := by
        refine ⟨fun h => h source target rfl rfl, fun h s d hs hd => ?_⟩
        cases hs
        cases hd
        exact h
      rw [hsafe]
      cases hf : resolvePath source with
      | error text =>
        refine iff_of_true (hsame ?_) fun f g hf' => ?_
        · simp only [handleRename, hf]
        · rw [hf] at hf'
          cases hf'
      | ok f =>
        cases hg : resolvePath target with
        | error text =>
          refine iff_of_true (hsame ?_) fun f g _ hg' => ?_
          · simp only [handleRename, hf, hg]
          · rw [hg] at hg'
            cases hg'
        | ok g =>
          have hsnd : (handleRename t (some source) (some target)).2 =
              some ((renamePath t f g (endsInDot source || endsInDot target)).getD t) := by
            simp only [handleRename, hf, hg]
            cases renamePath t f g (endsInDot source || endsInDot target) <;> rfl
          have hsafe : RenameSafe t source target ↔
              (CanRename t f g (endsInDot source || endsInDot target) → ¬Internal f.names ∧
                (Internal g.names → ∀ n, t.get g.names = some n → t.get f.names = some n)) := by
            refine ⟨fun h => h f g hf hg, fun h f' g' hf' hg' => ?_⟩
            cases hf.symm.trans hf'
            cases hg.symm.trans hg'
            exact h
          rw [hsafe]
          by_cases hcan : CanRename t f g (endsInDot source || endsInDot target)
          · obtain ⟨t', hrenamed, hmoved⟩ := renamePath_of_canRename hcan
            rw [hsnd, hrenamed, Option.getD_some]
            simp only [Option.some.injEq, exists_eq_left']
            rw [forall_prop_of_true hcan]
            exact renamed_spared_iff hf hg hcan hmoved
          · refine iff_of_true (hsame ?_) fun h => absurd h hcan
            rw [hsnd]
            cases hrenamed : renamePath t f g (endsInDot source || endsInDot target) with
            | none => rfl
            | some t' =>
              obtain rfl | ⟨h, -⟩ := renamePath_eq_some hrenamed
              · rfl
              · exact absurd h hcan

/-- A write that is not refused writes one file. -/
theorem handleWrite_snd (now bodyLen : Nat) (path : Option String) (content : Option Content)
    (force : Bool) :
    (handleWrite inner t now bodyLen path content force).2 = some t ∨
      ∃ rel p data t', bodyLen ≤ inner.maxUploadBytes ∧ path = some rel ∧ content = some data ∧
        resolvePath rel = .ok p ∧ p.slash = false ∧ writable t rel p force = true ∧
        t.write p.names data now = some t' ∧
        (handleWrite inner t now bodyLen path content force).2 = some t' := by
  rw [handleWrite.eq_def]
  split
  · exact .inl rfl
  · next hlen =>
    split
    · exact .inl rfl
    · exact .inl rfl
    · next rel data =>
      split
      · exact .inl rfl
      · next p hp =>
        split
        · exact .inl rfl
        · next hwritable =>
          split
          · exact .inl rfl
          · next t' hwrite =>
            split at hwrite
            · cases hwrite
            · next hslash =>
              exact .inr ⟨rel, p, data, t', Nat.not_lt.mp hlen, rfl, rfl, hp, by simpa using hslash,
                by simpa using hwritable, hwrite, rfl⟩

theorem write_spares_iff (bodyLen : Nat) (path : Option String) (content : Option Content)
    (force : Bool) :
    (∀ ticks, Spares host inner t ticks (.write bodyLen path content force)) ↔
      (BrowserRequest.write bodyLen path content force).Safe host inner t := by
  constructor
  · intro h hlen rel p hrel hcontent hp hslash hwritable hover
    obtain ⟨data, rfl⟩ := Option.isSome_iff_exists.mp hcontent
    subst hrel
    obtain ⟨now, t', hwrite, hnot⟩ := not_spared_of_overwrites
      (BrowserRequest.write bodyLen (some rel) (some data) force).names (fun _ => False) not_false
      hover data
    have hdisk : (handleWrite inner t now bodyLen (some rel) (some data) force).2 = some t' := by
      simp [handleWrite, Nat.not_lt.mpr hlen, hp, hwritable, hslash, hwrite]
    obtain ⟨t'', ht'', hspared⟩ := h (fun _ => ⟨now, 0, 0⟩) _ _ (handle_eq_pair rfl)
    rw [hdisk] at ht''
    cases ht''
    exact hnot hspared
  · intro hsafe ticks reply disk h
    have hdisk : (handleWrite inner t (ticks 0).now bodyLen path content force).2 = disk :=
      congrArg Prod.snd (Option.some.inj h)
    subst hdisk
    obtain hsame | ⟨rel, p, data, t', hlen, rfl, rfl, hp, hslash, hwritable, hwrite, hdisk⟩ :=
      handleWrite_snd inner t (ticks 0).now bodyLen path content force
    · exact ⟨t, hsame, Spared.refl _ _ t⟩
    · have hne : p.names ≠ [] := by
        intro hroot
        rw [write_eq_none_iff.mpr (.inl hroot)] at hwrite
        cases hwrite
      exact ⟨t', hdisk, written_spared hwrite ⟨rel, by simp, p, hp, hne, List.prefix_rfl⟩
        (hsafe hlen rel p rfl rfl hp hslash hwritable)⟩

/-- An upload makes directories, and writes one file unless it is refused or fails. -/
theorem handleUpload_snd (now : Nat) (dir name : Option String) (body : Content) :
    ∃ t₁, Grown now t t₁ ∧
      ((handleUpload inner t now dir name body).2 = some t₁ ∨
        ∃ n p t', body.length ≤ inner.maxUploadBytes ∧ name = some n ∧ '\\' ∉ n.toList ∧
          PlainName n ∧ resolvePath (dir.getD "") = .ok p ∧
          t₁.write (p.names ++ [n]) body now = some t' ∧
          (handleUpload inner t now dir name body).2 = some t') := by
  have hsame : Grown now t t := ⟨Within.refl _ _ now t, fun _ => rfl⟩
  rw [handleUpload.eq_def]
  split
  · exact ⟨t, hsame, .inl rfl⟩
  · next hlen =>
    simp only
    split
    · exact ⟨t, hsame, .inl rfl⟩
    · next n =>
      split
      · exact ⟨t, hsame, .inl rfl⟩
      · next hvalid =>
        split
        · exact ⟨t, hsame, .inl rfl⟩
        · next p hp =>
          have hmade := makeTargetDir_grown t now p (endsInDot (dir.getD ""))
          split
          · next t₁ htarget =>
            rw [htarget] at hmade
            exact ⟨t₁, hmade, .inl rfl⟩
          · next t₁ htarget =>
            rw [htarget] at hmade
            refine ⟨t₁, hmade, ?_⟩
            split
            · exact .inl rfl
            · next t' hwrite =>
              split at hwrite
              · next hplain =>
                rw [not_or, not_or] at hvalid
                exact .inr ⟨n, p, t', Nat.not_lt.mp hlen, rfl, hvalid.2.1, hplain, hp, hwrite,
                  rfl⟩
              · cases hwrite

theorem upload_spares_iff (dir name : Option String) (body : Content) :
    (∀ ticks, Spares host inner t ticks (.upload dir name body)) ↔
      (BrowserRequest.upload dir name body).Safe host inner t := by
  constructor
  · intro h hlen n p hname hback hplain hp hover
    subst hname
    obtain ⟨now, t', hwrite, hnot⟩ := not_spared_of_overwrites
      (BrowserRequest.upload dir (some n) body).names (fun _ => False) not_false hover body
    have hdir : t.isDir p.names = true := by
      obtain ⟨e, he, -⟩ := Option.any_eq_true _ _ |>.mp hover.2
      exact t.isDir_of_prefix he (List.prefix_append _ _) (by simp)
    have hvalid : ¬('/' ∈ n.toList ∨ '\\' ∈ n.toList ∨ n = "..") := by
      intro hbad
      obtain hslash | hslash | rfl := hbad
      · exact hplain.1 hslash
      · exact hback hslash
      · exact hplain.2.2.2 rfl
    have hdisk : (handleUpload inner t now dir (some n) body).2 = some t' := by
      simp [handleUpload, Nat.not_lt.mpr hlen, hvalid, hp, makeTargetDir, hdir, hplain, hwrite]
    obtain ⟨t'', ht'', hspared⟩ := h (fun _ => ⟨now, 0, 0⟩) _ _ (handle_eq_pair rfl)
    rw [hdisk] at ht''
    cases ht''
    exact hnot hspared
  · intro hsafe ticks reply disk h
    have hdisk : (handleUpload inner t (ticks 0).now dir name body).2 = disk :=
      congrArg Prod.snd (Option.some.inj h)
    subst hdisk
    obtain ⟨t₁, hmade, hleft | ⟨n, p, t', hlen, rfl, hback, hplain, hp, hwrite, hdisk⟩⟩ :=
      handleUpload_snd inner t (ticks 0).now dir name body
    · exact ⟨t₁, hleft, hmade.spared _ _⟩
    · refine ⟨t', hdisk, (hmade.spared _ _).trans (written_spared hwrite
        ⟨p, n, hp, rfl, List.prefix_rfl⟩ fun hover => ?_)⟩
      -- A file in the way was there before the directories were made.
      rw [Overwrites, hmade.files] at hover
      exact hsafe hlen n p rfl hback hplain hp hover

theorem copy_spares (ticks : Nat → TrashTick) (source target : Option String) :
    Spares host inner t ticks (.copy source target) := by
  intro reply disk h
  obtain ⟨⟨copied, t'⟩, hcopy, heq⟩ := Option.map_eq_some_iff.mp h
  obtain ⟨-, rfl⟩ := Prod.mk.inj heq
  exact ⟨t', rfl, copied_spared _ _ hcopy⟩

/-- Whatever the clock says, a request spares the root, the entries it does not name and the internal
    folder exactly when it deletes, moves and overwrites only what it may. -/
theorem request_spares_iff (req : BrowserRequest) :
    (∀ ticks, Spares host inner t ticks req) ↔ req.Safe host inner t := by
  cases req with
  | delete path => exact delete_spares_iff host inner t path
  | batchDelete paths deletedBy => exact batchDelete_spares_iff host inner t paths deletedBy
  | rename source target => exact rename_spares_iff host inner t source target
  | write bodyLen path content force =>
    exact write_spares_iff host inner t bodyLen path content force
  | upload dir name body => exact upload_spares_iff host inner t dir name body
  | copy source target =>
    exact iff_of_true (fun ticks => copy_spares host inner t ticks source target) trivial

end

/-! ## A request for the root -/

/-- No file is an index, and copies end soon. -/
private def plainHost : BrowserHost := ⟨⟨fun _ => none, fun _ => []⟩, .byName, 1⟩

/-- Deleting `/` takes the root away, even an empty one. -/
theorem root_deleted :
    (handle plainHost ⟨true, 0⟩ .empty (fun _ => ⟨0, 0, 0⟩) (.delete (some "/"))).map
        (·.2.isSome) = some false ∧
      ¬∀ (host : BrowserHost) (inner : FileBrowserInner) (t : RootTree)
        (ticks : Nat → TrashTick) (req : BrowserRequest), Spares host inner t ticks req := by
  have hgone : (handleDelete plainHost ⟨true, 0⟩ .empty ⟨0, 0, 0⟩ (some "/")).2 = none := by
    rw [handleDelete_snd _ _ _ _ _ rfl, deleted]
    have hpath : resolvePath "/" = .ok ⟨[], true⟩ := by decide +kernel
    have hdot : endsInDot "/" = false := by decide +kernel
    rw [hpath, hdot]
    exact moveToTrash_root rfl rfl _
  refine ⟨?_, fun h => ?_⟩
  · rw [handle, Option.map_some, hgone]
    rfl
  · obtain ⟨t', ht', -⟩ := h plainHost ⟨true, 0⟩ .empty (fun _ => ⟨0, 0, 0⟩) (.delete (some "/")) _
      (handleDelete plainHost ⟨true, 0⟩ .empty ⟨0, 0, 0⟩ (some "/")).2 rfl
    rw [hgone] at ht'
    cases ht'

end ByteHive.FileBrowser
