import Mathlib.Data.Finset.Lattice.Fold
import ByteHive.Native.DirectoryCopy

/-!
# When copying a directory ends

A directory that is copied to a place beside it is copied exactly (`copyDirAll_copied`), in as
many nested calls as it has levels (`copyDirAll_finishes`). A target below the source is made
before the source is listed, and is copied itself, with all that was copied to it: the calls go
on (`copyDirAll_endless`).
-/

namespace ByteHive

open FileTree

variable {β : Type} {t t' s : FileTree String β} {src dst : List String}

/-! ## What is at a path -/

/-- A directory, or the data of a file. -/
def dataAt (t : FileTree String β) (p : List String) : Option (Option β) :=
  if t.isDir p then some none else (t.read p).map some

theorem dataAt_congr {p : List String} (h : t'.get p = t.get p) : dataAt t' p = dataAt t p := by
  have hdir : t'.isDir p = t.isDir p := by rw [isDir, isDir, h]
  have hread : FileTree.read t' p = FileTree.read t p := by rw [FileTree.read, FileTree.read, h]
  rw [dataAt, dataAt, hdir, hread]

theorem dataAt_eq_none {p : List String} (hp : p ≠ []) (h : t.get p = none) : dataAt t p = none := by
  simp [dataAt, isDir, FileTree.read, hp, h]

/-- What was at `src` is at `dst` too. Nothing else changes, but directories on the way to `dst`
    may be new. -/
structure CopiedTo (t t' : FileTree String β) (src dst : List String) : Prop where
  same : ∀ r, dataAt t' (dst ++ r) = dataAt t (src ++ r)
  rest : ∀ q, ¬dst <+: q → t'.get q = t.get q ∨ q <+: dst ∧ t.get q = none ∧ t'.isDir q = true

/-- Neither path is at or below the other. -/
def Apart (p q : List String) : Prop := ¬p <+: q ∧ ¬q <+: p

theorem Apart.append (h : Apart src dst) (r : List String) : Apart (src ++ r) dst := by
  refine ⟨fun hpre => h.1 ((List.prefix_append src r).trans hpre), fun hpre => ?_⟩
  obtain hpre | hpre := List.prefix_or_prefix_of_prefix hpre (List.prefix_append src r)
  · exact h.2 hpre
  · exact h.1 hpre

theorem Apart.symm (h : Apart src dst) : Apart dst src := ⟨h.2, h.1⟩

theorem Apart.ne_nil (h : Apart src dst) : src ≠ [] ∧ dst ≠ [] := by
  constructor
  · intro hnil
    exact h.1 (hnil ▸ List.nil_prefix)
  · intro hnil
    exact h.2 (hnil ▸ List.nil_prefix)

/-- Below a directory different names are apart. -/
theorem name_eq_of_below {p r : List String} {c d : String} (h : p ++ [c] <+: p ++ [d] ++ r) :
    c = d := by
  rw [List.append_assoc, List.prefix_append_right_inj] at h
  obtain ⟨rest, hrest⟩ := h
  simp only [List.cons_append, List.nil_append, List.cons.injEq] at hrest
  exact hrest.1

/-! ## Files -/

theorem copyFile_eq_done {now : Nat} (h : copyFile now t src dst = .done t') :
    ∃ data, t.read src = some data ∧ t.write dst data now = some t' := by
  rw [copyFile] at h
  split at h
  · cases h
  · next data hread =>
    split at h
    · cases h
    · next hwrite =>
      cases h
      exact ⟨data, hread, hwrite⟩

theorem copyFile_ne_unfinished (now : Nat) (t : FileTree String β) (src dst : List String) :
    copyFile now t src dst ≠ .unfinished := by
  rw [copyFile]
  split
  · nofun
  · split <;> nofun

theorem copyFile_copied {now : Nat} (h : copyFile now t src dst = .done t')
    (hfree : ∀ r, t.get (dst ++ r) = none) : CopiedTo t t' src dst := by
  obtain ⟨data, hread, hwrite⟩ := copyFile_eq_done h
  have hdst : dst ≠ [] := fun hnil => by
    rw [write, dif_neg (by simp [hnil])] at hwrite
    cases hwrite
  obtain ⟨m, hsrc⟩ := read_eq_some_iff.mp hread
  have hsrcne : src ≠ [] := by
    rintro rfl
    simp at hsrc
  refine ⟨fun r => ?_, fun q hq => Or.inl ?_⟩
  · by_cases hr : r = []
    · subst hr
      rw [List.append_nil, List.append_nil]
      simp [dataAt, isDir, FileTree.read, get_write hwrite, hdst, hsrcne, hsrc, FileNode.isDir]
    · rw [dataAt_eq_none (by simp [hdst]) (by rw [get_write hwrite, if_neg (by simpa using hr), hfree]),
        dataAt_eq_none (by simp [hsrcne])]
      exact t.get_eq_none_of_file_prefix (by simp [isFile, hsrc, FileNode.isDir])
        (List.prefix_append src r) (by simpa using hr)
  · rw [get_write hwrite, if_neg]
    rintro rfl
    exact hq List.prefix_rfl

/-! ## Directories beside each other -/

section

variable {ls : DirListing β} {now fuel : Nat} {cs : List String}
variable {copyDir : FileTree String β → List String → List String → CopyEnd β}

/-- What one turn keeps the loop keeps. -/
theorem copyEntries_keeps (Inv : FileTree String β → Prop)
    (hstep : ∀ s s' c, c ∈ cs → Inv s → copyEntry copyDir now src dst s c = .done s' → Inv s')
    (hinv : Inv t) (h : copyEntries copyDir now src dst cs t = .done t') : Inv t' := by
  induction cs generalizing t with
  | nil =>
    cases h
    exact hinv
  | cons c cs ih =>
    rw [copyEntries] at h
    split at h
    · next t₁ hentry =>
      exact ih (fun s s' d hd => hstep s s' d (List.mem_cons_of_mem c hd))
        (hstep t t₁ c List.mem_cons_self hinv hentry) h
    · next hstop => exact absurd h (hstop t')

/-- A copy makes the target directory and then goes through the source. -/
theorem copyDirAll_eq_done (h : copyDirAll ls now fuel t src dst = .done t') :
    ∃ prev t₁, fuel = prev + 1 ∧ t.createDirAll now dst = some t₁ ∧ t₁.isDir src = true ∧
      copyEntries (copyDirAll ls now prev) now src dst (ls.names t₁ src) t₁ = .done t' := by
  cases fuel with
  | zero => cases h
  | succ prev =>
    rw [copyDirAll] at h
    split at h
    · cases h
    · next t₁ hmake =>
      split at h
      · next hdir => exact ⟨prev, t₁, rfl, hmake, hdir, h⟩
      · cases h

/-- Only the target and the way to it change. -/
theorem copyDirAll_frame (h : copyDirAll ls now fuel t src dst = .done t') {q : List String}
    (hq : Apart q dst) : t'.get q = t.get q := by
  induction fuel generalizing t t' src dst with
  | zero => cases h
  | succ fuel ih =>
    obtain ⟨prev, t₁, hfuel, hmake, -, hloop⟩ := copyDirAll_eq_done h
    obtain rfl : fuel = prev := Nat.succ.inj hfuel
    have hmade : t₁.get q = t.get q := by
      rw [get_createDirAll hmake, if_neg fun hway => hq.1 hway.2.1]
    refine copyEntries_keeps (fun s => s.get q = t.get q) ?_ hmade hloop
    intro s s' c _ hs hentry
    have hapart : Apart q (dst ++ [c]) := (hq.symm.append [c]).symm
    rw [← hs]
    rw [copyEntry] at hentry
    split at hentry
    · exact ih hentry hapart
    · obtain ⟨data, -, hwrite⟩ := copyFile_eq_done hentry
      rw [get_write hwrite, if_neg]
      rintro rfl
      exact hapart.1 List.prefix_rfl

/-- An entry that is copied to a free name leaves what is not below this name. -/
theorem CopiedTo.get_of_isDir {c : String} (h : CopiedTo t t' src (dst ++ [c]))
    (hdst : t.isDir dst = true) {q : List String} (hq : ¬dst ++ [c] <+: q) :
    t'.get q = t.get q := by
  obtain heq | ⟨hway, hnone, -⟩ := h.rest q hq
  · exact heq
  · -- the way to the name is there
    obtain rfl | hpre := List.prefix_concat_iff.mp hway
    · exact absurd List.prefix_rfl hq
    · have hdir := isDir_of_prefix_isDir hdst hpre
      obtain rfl | hne := eq_or_ne q []
      · rw [get_nil, get_nil]
      · simp [isDir, hne, hnone] at hdir

/-- The loop copies each of the names. -/
theorem copyEntries_copied
    (hcopy : ∀ s s' c, c ∈ cs → (∀ r, s.get (dst ++ [c] ++ r) = none) →
      copyEntry copyDir now src dst s c = .done s' → CopiedTo s s' (src ++ [c]) (dst ++ [c]))
    (hapart : Apart src dst) (hdst : t.isDir dst = true) (hnodup : cs.Nodup)
    (hfree : ∀ c ∈ cs, ∀ r, t.get (dst ++ [c] ++ r) = none)
    (h : copyEntries copyDir now src dst cs t = .done t') :
    (∀ c ∈ cs, ∀ r, dataAt t' (dst ++ [c] ++ r) = dataAt t (src ++ [c] ++ r)) ∧
    ∀ q, (∀ c ∈ cs, ¬dst ++ [c] <+: q) → t'.get q = t.get q := by
  induction cs generalizing t with
  | nil =>
    cases h
    exact ⟨fun _ hc => absurd hc List.not_mem_nil, fun _ _ => rfl⟩
  | cons c cs ih =>
    rw [copyEntries] at h
    split at h
    · next t₁ hentry =>
      obtain ⟨hc, hnodup⟩ := List.nodup_cons.mp hnodup
      have hcopied := hcopy t t₁ c List.mem_cons_self (hfree c List.mem_cons_self) hentry
      have hkeep : ∀ q, ¬dst ++ [c] <+: q → t₁.get q = t.get q := fun q hq =>
        hcopied.get_of_isDir hdst hq
      have hother : ∀ d ∈ cs, ∀ r, ¬dst ++ [c] <+: dst ++ [d] ++ r := fun d hd r hpre =>
        hc (name_eq_of_below hpre ▸ hd)
      have hdst₁ : t₁.isDir dst = true := by
        have hget := hkeep dst (fun hpre => by simpa using hpre.length_le)
        simpa [isDir, hget] using hdst
      obtain ⟨hsame, hrest⟩ := ih
        (fun s s' d hd => hcopy s s' d (List.mem_cons_of_mem c hd)) hdst₁ hnodup
        (fun d hd r => by rw [hkeep _ (hother d hd r), hfree d (List.mem_cons_of_mem c hd)]) h
      constructor
      · intro d hd r
        obtain rfl | hd := List.mem_cons.mp hd
        · have hkept := hrest (dst ++ [d] ++ r) fun e he hpre => hc (name_eq_of_below hpre ▸ he)
          rw [dataAt_congr hkept, hcopied.same r]
        · rw [hsame d hd r]
          refine dataAt_congr (hkeep _ fun hpre => ?_)
          rw [List.append_assoc] at hpre
          exact (hapart.append ([d] ++ r)).2 ((List.prefix_append dst [c]).trans hpre)
      · intro q hq
        rw [hrest q fun d hd => hq d (List.mem_cons_of_mem c hd), hkeep q (hq c List.mem_cons_self)]
    · next hstop => exact absurd h (hstop t')

/-- A directory is copied exactly to a free place beside it. -/
theorem copyDirAll_copied (h : copyDirAll ls now fuel t src dst = .done t')
    (hapart : Apart src dst) (hfree : ∀ r, t.get (dst ++ r) = none) : CopiedTo t t' src dst := by
  induction fuel generalizing t t' src dst with
  | zero => cases h
  | succ fuel ih =>
    obtain ⟨prev, t₁, hfuel, hmake, hdir, hloop⟩ := copyDirAll_eq_done h
    obtain rfl : fuel = prev := Nat.succ.inj hfuel
    have hdst : t₁.isDir dst = true := by
      have hfile : t₁.get dst = some (.dir now) := by
        rw [get_createDirAll hmake, if_pos]
        exact ⟨hapart.ne_nil.2, List.prefix_rfl, by simpa using hfree []⟩
      simp [isDir, hfile, FileNode.isDir]
    have hmade : ∀ q, ¬q <+: dst → t₁.get q = t.get q := fun q hq => by
      rw [get_createDirAll hmake, if_neg fun hway => hq hway.2.1]
    have hsrc : ∀ r, t₁.get (src ++ r) = t.get (src ++ r) := fun r => hmade _ (hapart.append r).1
    have hbelow : ∀ c r, t₁.get (dst ++ [c] ++ r) = none := by
      intro c r
      rw [hmade _ fun hpre => by simpa using hpre.length_le, List.append_assoc, hfree]
    obtain ⟨hsame, hrest⟩ := copyEntries_copied (fun s s' c hc hs hentry => by
        rw [copyEntry] at hentry
        split at hentry
        · exact ih hentry (((hapart.append [c]).symm.append [c]).symm) hs
        · exact copyFile_copied hentry hs)
      hapart hdst (ls.nodup t₁ src) (fun c _ => hbelow c) hloop
    constructor
    · intro r
      cases r with
      | nil =>
        have hkeep := hrest dst fun c _ hpre => by simpa using hpre.length_le
        rw [List.append_nil, List.append_nil, dataAt_congr hkeep, ← dataAt_congr (hmade src hapart.1)]
        simp [dataAt, hdst, hdir]
      | cons c r =>
        by_cases hc : c ∈ ls.names t₁ src
        · have h := hsame c hc r
          rw [List.append_assoc, List.append_assoc] at h
          rw [← dataAt_congr (hsrc (c :: r))]
          exact h
        · -- what is not listed is nowhere
          have hnone : t.get (src ++ c :: r) = none := by
            rw [ls.mem_iff, Bool.not_eq_true, Option.isSome_eq_false_iff, Option.isNone_iff_eq_none]
              at hc
            rw [← hsrc, ← List.singleton_append, ← List.append_assoc]
            exact get_append_eq_none (by simp) hc r
          have hkept := hrest (dst ++ [c] ++ r) fun d hd hpre => hc (name_eq_of_below hpre ▸ hd)
          rw [hbelow, List.append_assoc] at hkept
          rw [dataAt_eq_none (by simp) hnone]
          exact dataAt_eq_none (by simp) hkept
    · intro q hq
      have hkeep := hrest q fun c _ hpre => hq ((List.prefix_append dst [c]).trans hpre)
      rw [get_createDirAll hmake] at hkeep
      by_cases hway : q ≠ [] ∧ q <+: dst ∧ t.get q = none
      · rw [if_pos hway] at hkeep
        exact Or.inr ⟨hway.2.1, hway.2.2, by simp [isDir, hkeep, FileNode.isDir]⟩
      · rw [if_neg hway] at hkeep
        exact Or.inl hkeep

/-! ## Ending -/

theorem copyEntries_ne_unfinished (Inv : FileTree String β → Prop)
    (hstep : ∀ s s' c, c ∈ cs → Inv s → copyEntry copyDir now src dst s c = .done s' → Inv s')
    (hfinish : ∀ s c, c ∈ cs → Inv s → copyEntry copyDir now src dst s c ≠ .unfinished)
    (hinv : Inv t) : copyEntries copyDir now src dst cs t ≠ .unfinished := by
  induction cs generalizing t with
  | nil => nofun
  | cons c cs ih =>
    rw [copyEntries]
    split
    · next t₁ hentry =>
      exact ih (fun s s' d hd => hstep s s' d (List.mem_cons_of_mem c hd))
        (fun s d hd => hfinish s d (List.mem_cons_of_mem c hd))
        (hstep t t₁ c List.mem_cons_self hinv hentry)
    · exact hfinish t c List.mem_cons_self hinv

/-- The levels of the source are enough nested calls. -/
theorem copyDirAll_finishes (hapart : Apart src dst) (hsrc : t.isDir src = true)
    (hlevels : ∀ r, (t.get (src ++ r)).isSome = true → r.length < fuel) :
    copyDirAll ls now fuel t src dst ≠ .unfinished := by
  induction fuel generalizing t src dst with
  | zero =>
    have hroot : (t.get src).isSome = true := by
      simp only [isDir, hapart.ne_nil.1, decide_false, Bool.false_or, Option.any_eq_true] at hsrc
      obtain ⟨n, hn, -⟩ := hsrc
      rw [hn]
      rfl
    exact absurd (hlevels [] (by rwa [List.append_nil])) (Nat.not_lt_zero _)
  | succ fuel ih =>
    rw [copyDirAll]
    split
    · intro hend
      cases hend
    · next t₁ hmake =>
      split
      · -- the source stays as it is
        have hmade : SameBelow src t t₁ := SameBelow.createDirAll hapart.1 hmake
        refine copyEntries_ne_unfinished (SameBelow src t) ?_ ?_ hmade
        · intro s s' c _ hs hentry q hq
          obtain ⟨r, rfl⟩ := hq
          rw [← hs _ (List.prefix_append src r)]
          rw [copyEntry] at hentry
          have hentryapart : Apart (src ++ r) (dst ++ [c]) :=
            ((hapart.append r).symm.append [c]).symm
          split at hentry
          · exact copyDirAll_frame hentry hentryapart
          · obtain ⟨data, -, hwrite⟩ := copyFile_eq_done hentry
            rw [get_write hwrite, if_neg]
            intro heq
            exact hentryapart.1 (heq ▸ List.prefix_rfl)
        · intro s c _ hs
          rw [copyEntry]
          split
          · next hdir =>
            refine ih (((hapart.append [c]).symm.append [c]).symm) hdir fun r hr => ?_
            rw [hs _ (by simp), List.append_assoc] at hr
            have hlen := hlevels ([c] ++ r) hr
            simp only [List.cons_append, List.length_cons] at hlen
            exact Nat.lt_of_succ_lt_succ hlen
          · exact copyFile_ne_unfinished now s _ _
      · intro hend
        cases hend

theorem exists_levels (t : FileTree String β) (src : List String) :
    ∃ fuel, ∀ r, (t.get (src ++ r)).isSome = true → r.length < fuel := by
  refine ⟨t.nodes.keys.sup List.length + 1, fun r hr => ?_⟩
  have hkey : src ++ r ∈ t.nodes.keys := (t.nodes.mem_keys _).mpr hr
  have hle := Finset.le_sup (f := List.length) hkey
  rw [List.length_append] at hle
  omega

/-! ## A target below the source -/

/-- Whether a directory or a file is at the path. -/
def kind (t : FileTree String β) (p : List String) : Option Bool :=
  if p = [] then some true else (t.get p).map FileNode.isDir

theorem kind_eq_true_iff {p : List String} : kind t p = some true ↔ t.isDir p = true := by
  rw [kind, isDir]
  split
  · next h => simp [h]
  · next h => simp [h, Option.any_eq_true]

theorem kind_eq_false_iff {p : List String} : kind t p = some false ↔ t.isFile p = true := by
  rw [kind, isFile]
  split
  · next h => simp [h]
  · next h => simp [Option.any_eq_true]

/-- Nothing goes away or changes its kind. -/
def Grows (t t' : FileTree String β) : Prop := ∀ p b, kind t p = some b → kind t' p = some b

theorem Grows.trans (h : Grows t s) (h' : Grows s t') : Grows t t' :=
  fun p b hb => h' p b (h p b hb)

theorem kind_createDirAll {p : List String} (h : t.createDirAll now p = some t') (q : List String) :
    kind t' q = if q <+: p then some true else kind t q := by
  have hway : ∀ r, r <+: p → t.isFile r = false :=
    (createDirAll_isSome_iff now).mp (by rw [h]; rfl)
  rw [kind, kind, get_createDirAll h]
  by_cases hq : q = []
  · simp [hq]
  · simp only [hq, if_false, ne_eq, not_false_eq_true, true_and]
    by_cases hpre : q <+: p
    · have hfile := hway q hpre
      cases hget : t.get q with
      | none => simp [hpre, FileNode.isDir]
      | some n =>
        rw [isFile, hget] at hfile
        simpa [hpre] using hfile
    · simp [hpre]

theorem kind_write {p : List String} {data : β} (h : t.write p data now = some t')
    (q : List String) : kind t' q = if q = p then some false else kind t q := by
  have hp : p ≠ [] := by
    rintro rfl
    rw [write, dif_neg (by simp)] at h
    cases h
  rw [kind, kind, get_write h]
  obtain rfl | hq := eq_or_ne q p
  · simp [hp, FileNode.isDir]
  · simp [hq]

/-- What is at or below `dst` is of the kind of what is at the same place from `src` on. -/
def Mirrors (src dst : List String) (t : FileTree String β) : Prop :=
  ∀ r b, kind t (dst ++ r) = some b → kind t (src ++ r) = some b

section

variable {f g p : List String}

/-- No directory on the way to a copy is in the way. -/
theorem createDirAll_mirror (now : Nat) (hm : Mirrors f g t) (hway : ∀ q, q <+: g → t.isFile q = false)
    (hdir : t.isDir (f ++ p) = true) :
    ∃ t₁, t.createDirAll now (g ++ p) = some t₁ ∧ Mirrors f g t₁ ∧ Grows t t₁ ∧
      t₁.isDir (g ++ p) = true := by
  have habove : ∀ r, r <+: p → kind t (f ++ r) = some true := fun r hr =>
    kind_eq_true_iff.mpr (isDir_of_prefix_isDir hdir ((List.prefix_append_right_inj f).mpr hr))
  have hfree : ∀ q, q <+: g ++ p → t.isFile q = false := by
    intro q hq
    obtain hpre | ⟨r, rfl⟩ := List.prefix_or_prefix_of_prefix hq (List.prefix_append g p)
    · exact hway q hpre
    · by_contra hfile
      rw [Bool.not_eq_false] at hfile
      have hsame := hm r false (kind_eq_false_iff.mpr hfile)
      rw [habove r ((List.prefix_append_right_inj g).mp hq)] at hsame
      cases hsame
  obtain ⟨t₁, hmake⟩ := Option.isSome_iff_exists.mp ((createDirAll_isSome_iff now).mpr hfree)
  have hgrows : Grows t t₁ := by
    intro q b hb
    rw [kind_createDirAll hmake]
    split
    · next hpre =>
      cases b with
      | true => rfl
      | false =>
        have hno := hfree q hpre
        rw [kind_eq_false_iff.mp hb] at hno
        cases hno
    · exact hb
  refine ⟨t₁, hmake, ?_, hgrows, ?_⟩
  · intro r b hb
    rw [kind_createDirAll hmake] at hb
    split at hb
    · next hpre =>
      rw [← hb]
      exact hgrows _ _ (habove r ((List.prefix_append_right_inj g).mp hpre))
    · exact hgrows _ _ (hm r b hb)
  · rw [← kind_eq_true_iff, kind_createDirAll hmake, if_pos List.prefix_rfl]

/-- A file is copied without an error. -/
theorem copyFile_mirror (now : Nat) (hm : Mirrors f g t) {c : String}
    (hdst : t.isDir (g ++ p) = true) (hfile : t.isFile (f ++ (p ++ [c])) = true) :
    ∃ t', copyFile now t (f ++ (p ++ [c])) (g ++ (p ++ [c])) = .done t' ∧ Mirrors f g t' ∧
      Grows t t' := by
  have hsrc := kind_eq_false_iff.mpr hfile
  -- if there is something already, it is a file
  have hnodir : t.isDir (g ++ (p ++ [c])) = false := by
    by_contra hdir
    rw [Bool.not_eq_false, ← kind_eq_true_iff] at hdir
    rw [hm _ _ hdir] at hsrc
    cases hsrc
  obtain ⟨data, hread⟩ : ∃ data, t.read (f ++ (p ++ [c])) = some data := by
    rw [isFile, Option.any_eq_true] at hfile
    obtain ⟨n, hn, hkind⟩ := hfile
    cases n with
    | dir m => cases hkind
    | file data m => exact ⟨data, read_eq_some_iff.mpr ⟨m, hn⟩⟩
  obtain ⟨t', hwrite⟩ : ∃ t', t.write (g ++ (p ++ [c])) data now = some t' := by
    rw [← Option.isSome_iff_exists, Option.isSome_iff_ne_none, ne_eq, write_eq_none_iff]
    rw [← List.append_assoc, List.dropLast_concat, hdst, List.append_assoc, hnodir]
    simp
  have hgrows : Grows t t' := by
    intro q b hb
    rw [kind_write hwrite]
    split
    · next hq =>
      subst hq
      cases b with
      | true =>
        rw [kind_eq_true_iff.mp hb] at hnodir
        cases hnodir
      | false => rfl
    · exact hb
  refine ⟨t', by rw [copyFile, hread]; simp [hwrite], ?_, hgrows⟩
  intro r b hb
  rw [kind_write hwrite] at hb
  split at hb
  · next heq =>
    obtain rfl := List.append_cancel_left heq
    rw [← hb]
    exact hgrows _ _ hsrc
  · exact hgrows _ _ (hm r b hb)

/-- Each entry is copied or keeps the copy busy. -/
def GoesOn (copyDir : FileTree String β → List String → List String → CopyEnd β) (now : Nat)
    (src dst : List String) (Inv : FileTree String β → Prop) (c : String) : Prop :=
  ∀ s, Inv s → copyEntry copyDir now src dst s c = .unfinished ∨
    ∃ s', copyEntry copyDir now src dst s c = .done s' ∧ Inv s'

theorem copyEntries_goesOn {Inv : FileTree String β → Prop}
    (hstep : ∀ c ∈ cs, GoesOn copyDir now src dst Inv c) (hinv : Inv t) :
    copyEntries copyDir now src dst cs t = .unfinished ∨
      ∃ t', copyEntries copyDir now src dst cs t = .done t' ∧ Inv t' := by
  induction cs generalizing t with
  | nil => exact Or.inr ⟨t, rfl, hinv⟩
  | cons c cs ih =>
    rw [copyEntries]
    obtain hstuck | ⟨t₁, hdone, hinv₁⟩ := hstep c List.mem_cons_self t hinv
    · rw [hstuck]
      exact Or.inl rfl
    · rw [hdone]
      exact ih (fun d hd => hstep d (List.mem_cons_of_mem c hd)) hinv₁

theorem copyEntries_stuck {Inv : FileTree String β → Prop}
    (hstep : ∀ c ∈ cs, GoesOn copyDir now src dst Inv c) {c : String} (hc : c ∈ cs)
    (hstuck : ∀ s, Inv s → copyEntry copyDir now src dst s c = .unfinished) (hinv : Inv t) :
    copyEntries copyDir now src dst cs t = .unfinished := by
  induction cs generalizing t with
  | nil => exact absurd hc List.not_mem_nil
  | cons d cs ih =>
    rw [copyEntries]
    obtain hbusy | ⟨t₁, hdone, hinv₁⟩ := hstep d List.mem_cons_self t hinv
    · rw [hbusy]
    · rw [hdone]
      obtain rfl | hc := List.mem_cons.mp hc
      · rw [hstuck t hinv] at hdone
        cases hdone
      · exact ih (fun e he => hstep e (List.mem_cons_of_mem d he)) hc hinv₁

/-- A copy to a place below its source meets no error, and when the place is below what is copied
    it does not end. -/
theorem copyDirAll_below (ls : DirListing β) (now fuel : Nat) (hm : Mirrors f g t)
    (hway : ∀ q, q <+: g → t.isFile q = false) (hdir : t.isDir (f ++ p) = true) :
    (copyDirAll ls now fuel t (f ++ p) (g ++ p) = .unfinished ∨
      ∃ t', copyDirAll ls now fuel t (f ++ p) (g ++ p) = .done t' ∧ Mirrors f g t' ∧ Grows t t') ∧
    ∀ c rest, g ++ p = f ++ p ++ c :: rest →
      copyDirAll ls now fuel t (f ++ p) (g ++ p) = .unfinished := by
  induction fuel generalizing t p with
  | zero => exact ⟨Or.inl rfl, fun _ _ _ => rfl⟩
  | succ fuel ih =>
    obtain ⟨t₁, hmake, hm₁, hgrows₁, hdst⟩ := createDirAll_mirror now hm hway hdir
    have hsrc : t₁.isDir (f ++ p) = true :=
      kind_eq_true_iff.mp (hgrows₁ _ _ (kind_eq_true_iff.mpr hdir))
    rw [copyDirAll, hmake]
    simp only [hsrc, if_true]
    -- while the entries are copied, what was there stays
    let Inv : FileTree String β → Prop := fun s => Mirrors f g s ∧ Grows t₁ s
    have hinv : Inv t₁ := ⟨hm₁, fun _ _ hb => hb⟩
    have hsway : ∀ s, Inv s → ∀ q, q <+: g → s.isFile q = false := by
      intro s hs q hq
      have hdir := kind_eq_true_iff.mpr
        (isDir_of_prefix_isDir hdst (hq.trans (List.prefix_append g p)))
      have hkind := hs.2 _ _ hdir
      by_contra hfile
      rw [Bool.not_eq_false, ← kind_eq_false_iff, hkind] at hfile
      cases hfile
    have hstep : ∀ c ∈ ls.names t₁ (f ++ p),
        GoesOn (copyDirAll ls now fuel) now (f ++ p) (g ++ p) Inv c := by
      intro c hc s hs
      obtain ⟨n, hn⟩ := Option.isSome_iff_exists.mp ((ls.mem_iff t₁ (f ++ p) c).mp hc)
      have hkind : kind s (f ++ (p ++ [c])) = some n.isDir := by
        rw [← List.append_assoc]
        refine hs.2 _ _ ?_
        rw [kind, if_neg (by simp), hn]
        rfl
      rw [copyEntry, List.append_assoc, List.append_assoc]
      cases hn : n.isDir with
      | true =>
        rw [hn, kind_eq_true_iff] at hkind
        rw [if_pos hkind]
        refine (ih hs.1 (hsway s hs) hkind).1.imp_right ?_
        intro ⟨s', hdone, hm', hgrows⟩
        exact ⟨s', hdone, hm', hs.2.trans hgrows⟩
      | false =>
        rw [hn] at hkind
        have hnodir : ¬s.isDir (f ++ (p ++ [c])) = true := by
          rw [← kind_eq_true_iff, hkind]
          nofun
        rw [if_neg hnodir]
        obtain ⟨s', hdone, hm', hgrows⟩ := copyFile_mirror now hs.1
          (kind_eq_true_iff.mp (hs.2 _ _ (kind_eq_true_iff.mpr hdst)))
          (kind_eq_false_iff.mp hkind)
        exact Or.inr ⟨s', hdone, hm', hs.2.trans hgrows⟩
    constructor
    · refine (copyEntries_goesOn hstep hinv).imp_right ?_
      intro ⟨t', hdone, hinv'⟩
      exact ⟨t', hdone, hinv'.1, hgrows₁.trans hinv'.2⟩
    · intro c rest htarget
      -- the next directory on the way to the target is an entry of the source
      have hnext : t₁.isDir (f ++ p ++ [c]) = true :=
        isDir_of_prefix_isDir hdst (htarget ▸ ⟨rest, by simp⟩)
      have hc : c ∈ ls.names t₁ (f ++ p) := by
        rw [ls.mem_iff]
        rw [isDir_concat, Option.any_eq_true] at hnext
        obtain ⟨n, hn, -⟩ := hnext
        rw [hn]
        rfl
      refine copyEntries_stuck hstep hc (fun s hs => ?_) hinv
      have hsnext : s.isDir (f ++ (p ++ [c])) = true := by
        rw [← List.append_assoc]
        exact kind_eq_true_iff.mp (hs.2 _ _ (kind_eq_true_iff.mpr hnext))
      rw [copyEntry, List.append_assoc, List.append_assoc, if_pos hsnext]
      have htarget' : g ++ (p ++ [c]) = f ++ (p ++ [c]) ++ (rest ++ [c]) := by
        rw [← List.append_assoc, htarget]
        simp
      match rest with
      | [] => exact (ih hs.1 (hsway s hs) hsnext).2 c [] htarget'
      | d :: rest => exact (ih hs.1 (hsway s hs) hsnext).2 d (rest ++ [c]) htarget'

end

end

/-! ## Requests -/

/-- The copy of an accepted request ends, and what it reports as copied is. -/
def CopiesExactly (ls : DirListing β) (now : Nat) (t : FileTree String β) (src dst : String)
    (f g : BrowserPath) : Prop :=
  (∃ fuel, (handleCopy ls now fuel t (some src) (some dst)).isSome = true) ∧
  ∀ fuel t', handleCopy ls now fuel t (some src) (some dst) = some (.copied src dst, t') →
    CopiedTo t t' f.names g.names

/-- What the request does when nothing is wrong with it. -/
def acceptedCopy (ls : DirListing β) (now fuel : Nat) (t : FileTree String β) (f g : BrowserPath) :
    CopyEnd β :=
  if t.isDir f.names then copyDirAll ls now fuel t f.names g.names
  else if g.slash then .failed t
  else copyFile now t f.names g.names

section

variable {ls : DirListing β} {now fuel : Nat} {source target : String} {f g : BrowserPath}

theorem handleCopy_accepted (ls : DirListing β) (now fuel : Nat)
    (hf : resolvePath source = .ok f) (hg : resolvePath target = .ok g)
    (hfrom : f.existsIn t = true) (hto : g.existsIn t = false) :
    handleCopy ls now fuel t (some source) (some target) =
      match acceptedCopy ls now fuel t f g with
      | .done t => some (.copied source target, t)
      | .failed t => some (.internalError, t)
      | .unfinished => none := by
  simp only [handleCopy, hf, hg, hfrom, hto, Bool.not_true, Bool.false_eq_true, if_false]
  rfl

/-- An accepted target is free, when the copy makes something there. -/
theorem get_target_eq_none (hto : g.existsIn t = false) (hfile : t.isFile g.names = false)
    (r : List String) : t.get (g.names ++ r) = none := by
  have hdir : t.isDir g.names = false := by
    rw [BrowserPath.existsIn] at hto
    split at hto
    · exact hto
    · rw [pathExists, Bool.or_eq_false_iff] at hto
      cases hget : t.get g.names with
      | none => simpa [isDir, hget] using hto.1
      | some n => simp [hget] at hto
  have hne : g.names ≠ [] := by
    intro hnil
    simp [isDir, hnil] at hdir
  refine get_append_eq_none hne ?_ r
  cases hget : t.get g.names with
  | none => rfl
  | some n =>
    simp only [isDir, hne, decide_false, Bool.false_or, hget, Option.any_some] at hdir
    simp [isFile, hget, hdir] at hfile

/-- An accepted source is not at or below the target. -/
theorem target_not_above (hto : g.existsIn t = false) :
    ¬t.isDir g.names = true ∧ (t.isDir f.names = true → ¬g.names <+: f.names) := by
  have hdir : ¬t.isDir g.names = true := by
    intro hdir
    rw [BrowserPath.existsIn] at hto
    split at hto
    · rw [hdir] at hto
      cases hto
    · simp only [pathExists, Bool.or_eq_false_iff, decide_eq_false_iff_not] at hto
      rw [isDir, decide_eq_false hto.1, Bool.false_or, Option.any_eq_true] at hdir
      obtain ⟨n, hn, -⟩ := hdir
      simp [hn] at hto
  exact ⟨hdir, fun hf hpre => hdir (isDir_of_prefix_isDir hf hpre)⟩

/-- A copy to a target below the source does not end. -/
theorem copyDirAll_endless (hto : g.existsIn t = false) (hdir : t.isDir f.names = true)
    (hbelow : f.names <+: g.names) (hway : ∀ q, q <+: g.names → t.isFile q = false) :
    copyDirAll ls now fuel t f.names g.names = .unfinished := by
  have hgdir := (target_not_above (f := f) hto).1
  have hfree := get_target_eq_none hto (hway _ List.prefix_rfl)
  have hm : Mirrors f.names g.names t := by
    intro r b hb
    have hne : g.names ≠ [] := by
      intro hnil
      simp [isDir, hnil] at hgdir
    simp [kind, hne, hfree r] at hb
  have hroot : t.isDir (f.names ++ []) = true := by rwa [List.append_nil]
  have hcopy := copyDirAll_below ls now fuel hm hway hroot
  rw [List.append_nil, List.append_nil] at hcopy
  obtain ⟨rest, hrest⟩ := hbelow
  match rest with
  | [] =>
    rw [List.append_nil] at hrest
    exact absurd (hrest ▸ hdir) hgdir
  | c :: rest => exact hcopy.2 c rest hrest.symm

end

/-- A folder with nothing in it. -/
def oneFolder : FileTree String Nat :=
  ⟨FinMap.empty.insert ["a"] (.dir 0), by
    intro p n h
    obtain rfl : p = ["a"] := by
      by_contra hne
      simp [hne] at h
    exact ⟨by simp, Or.inl rfl⟩⟩

end ByteHive
