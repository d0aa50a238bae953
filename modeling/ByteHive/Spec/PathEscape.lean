import ByteHive.Native.LinkWrites
import ByteHive.Spec.ZipSelection

/-!
# Which requests stay inside the root

`resolve` compares the canonical path with the root where the path exists, and otherwise that of its
parent where this exists. What is opened or made then can still be outside: the directories that are
missing on the way may be made outside, and a link at the end of the path, or in the directory, is
followed by a write (`touched_inside_iff`).
-/

namespace ByteHive.FileBrowser

variable {β : Type} {t : LinkTree β} {root : PathBuf}

/-! ## Places and paths -/

/-- Going on behind a path: from where it leads to, or nowhere. -/
def GoesOn (t : LinkTree β) (walk place : List String → PathBuf → Option (List String)) : Prop :=
  ∀ cur p,
    (∃ left mid, walk cur p = some mid ∧ ∀ q, place cur (p ++ q) = t.place left mid q) ∨
      (walk cur p = none ∧ ∀ q, q ≠ [] → place cur (p ++ q) = none)

theorem placeFrom_goesOn {followW followP : List String → PathBuf → Option (List String)}
    (links : Nat) (hplace : t.place links = t.placeFrom followP)
    (hfollow : GoesOn t followW followP) : GoesOn t (t.walkFrom followW) (t.placeFrom followP) := by
  intro cur p
  induction p generalizing cur with
  | nil => exact .inl ⟨links, cur, rfl, fun q => by rw [hplace]; rfl⟩
  | cons c p ih =>
    cases c with
    | rootDir => exact ih []
    | curDir =>
      by_cases hdir : t.isDirAt cur = true
      · simp only [List.cons_append, LinkTree.walkFrom, LinkTree.placeFrom, if_pos hdir]
        exact ih cur
      · refine .inr ⟨?_, fun q _ => ?_⟩
        · rw [LinkTree.walkFrom, if_neg hdir]
        · rw [List.cons_append, LinkTree.placeFrom, if_neg hdir]
    | parentDir =>
      by_cases hdir : t.isDirAt cur = true
      · simp only [List.cons_append, LinkTree.walkFrom, LinkTree.placeFrom, if_pos hdir]
        exact ih cur.dropLast
      · refine .inr ⟨?_, fun q _ => ?_⟩
        · rw [LinkTree.walkFrom, if_neg hdir]
        · rw [List.cons_append, LinkTree.placeFrom, if_neg hdir]
    | normal name =>
      by_cases hdir : t.isDirAt cur = true
      · simp only [List.cons_append, LinkTree.walkFrom, LinkTree.placeFrom, if_pos hdir]
        cases hget : t.nodes.get (cur ++ [name]) with
        | none => exact .inr ⟨rfl, fun q hq => if_neg (by simp [hq])⟩
        | some n =>
          cases n with
          | link target =>
            have hnext := hfollow cur (target ++ p)
            simp only [List.append_assoc] at hnext
            exact hnext
          | dir => exact ih (cur ++ [name])
          | file data => exact ih (cur ++ [name])
      · refine .inr ⟨?_, fun q _ => ?_⟩
        · rw [LinkTree.walkFrom, if_neg hdir]
        · rw [List.cons_append, LinkTree.placeFrom, if_neg hdir]

theorem place_goesOn (t : LinkTree β) (links : Nat) : GoesOn t (t.walk links) (t.place links) := by
  induction links with
  | zero => exact placeFrom_goesOn 0 rfl fun _ _ => .inr ⟨rfl, fun _ _ => rfl⟩
  | succ links ih => exact placeFrom_goesOn (links + 1) rfl ih

theorem realPath_of_lookAt {p : PathBuf} {obj : List String × Option β}
    (h : t.lookAt p = some obj) : t.realPath p = some obj.1 := by
  rw [LinkTree.lookAt] at h
  split at h
  · cases h
  · next real hreal =>
    rw [hreal]
    split at h
    · cases h
      rfl
    · split at h
      · cases h
        rfl
      · cases h

theorem dirAt_eq_some_iff {p : PathBuf} {real : List String} :
    t.dirAt p = some real ↔ t.lookAt p = some (real, none) := by
  rw [LinkTree.dirAt]
  constructor
  · intro h
    split at h
    · next real' hlook =>
      rw [hlook, Option.some.inj h]
    · cases h
  · intro h
    rw [h]

/-- What exists is opened where it is. -/
theorem openedFile_eq {p : PathBuf} {real loc : List String} (hreal : t.realPath p = some real)
    (h : t.openedFile p = some loc) : loc = real := by
  obtain ⟨hplace, -⟩ := Option.filter_eq_some_iff.mp h
  obtain ⟨left, mid, hmid, hon⟩ | ⟨hnone, -⟩ := place_goesOn t LinkTree.maxLinks [] p
  · have hend := hon []
    rw [List.append_nil, hplace] at hend
    have hleft : t.place left mid [] = some mid := by cases left <;> rfl
    rw [LinkTree.realPath, hmid] at hreal
    rw [hleft] at hend
    rw [Option.some.inj hend, Option.some.inj hreal]
  · rw [LinkTree.realPath, hnone] at hreal
    cases hreal

/-- A file is opened in the directory that the path before it leads to, or by a link there. -/
theorem openedFile_concat {front loc : List String} {name : String}
    (h : t.openedFile (absOf root (front ++ [name])) = some loc) :
    ∃ dir, t.dirAt (absOf root front) = some dir ∧
      (loc = dir ++ [name] ∨ ∃ target, t.nodes.get (dir ++ [name]) = some (.link target)) := by
  obtain ⟨hplace, -⟩ := Option.filter_eq_some_iff.mp h
  rw [absOf_append] at hplace
  obtain ⟨left, dir, hdir, hon⟩ | ⟨-, hnone⟩ :=
    place_goesOn t LinkTree.maxLinks [] (absOf root front)
  · rw [hon] at hplace
    have hstep : ∀ follow, t.placeFrom follow dir (.ofNames [name]) = some loc →
        t.isDirAt dir = true ∧
          (loc = dir ++ [name] ∨ ∃ target, t.nodes.get (dir ++ [name]) = some (.link target)) := by
      intro follow hloc
      rw [PathBuf.ofNames, List.map_singleton, LinkTree.placeFrom] at hloc
      split at hloc
      · next hisdir =>
        refine ⟨hisdir, ?_⟩
        cases hget : t.nodes.get (dir ++ [name]) with
        | none =>
          simp only [hget, if_true] at hloc
          exact .inl (Option.some.inj hloc).symm
        | some n =>
          cases n with
          | link target => exact .inr ⟨target, rfl⟩
          | dir =>
            simp only [hget] at hloc
            exact .inl (Option.some.inj hloc).symm
          | file data =>
            simp only [hget] at hloc
            exact .inl (Option.some.inj hloc).symm
      · cases hloc
    have hlast : t.isDirAt dir = true ∧
        (loc = dir ++ [name] ∨ ∃ target, t.nodes.get (dir ++ [name]) = some (.link target)) := by
      cases left with
      | zero => exact hstep _ hplace
      | succ left => exact hstep _ hplace
    refine ⟨dir, ?_, hlast.2⟩
    rw [LinkTree.dirAt, LinkTree.lookAt, LinkTree.realPath, hdir]
    simp [hlast.1]
  · rw [hnone _ (by simp [PathBuf.ofNames])] at hplace
    cases hplace

/-! ## Making directories -/

/-- The first name on the way to a path that is not there, and the directory it is missing in. -/
def FirstMissing (t : LinkTree β) (root : PathBuf) (names dir : List String) (name : String) :
    Prop :=
  ∃ front rest, names = front ++ name :: rest ∧ t.dirAt (absOf root front) = some dir ∧
    t.nodes.get (dir ++ [name]) = none

theorem FirstMissing.append {names dir : List String} {name : String}
    (h : FirstMissing t root names dir name) (more : List String) :
    FirstMissing t root (names ++ more) dir name := by
  obtain ⟨front, rest, rfl, hdir, hget⟩ := h
  exact ⟨front, rest ++ more, by simp, hdir, hget⟩

/-- Nothing is behind a missing name. -/
theorem FirstMissing.dirAt_none {names dir : List String} {name : String}
    (h : FirstMissing t root names dir name) : t.dirAt (absOf root names) = none := by
  obtain ⟨front, rest, rfl, hdir, hget⟩ := h
  cases hall : t.dirAt (absOf root (front ++ name :: rest)) with
  | none => rfl
  | some real =>
    obtain ⟨dir', hfront, hsome⟩ := lookAt_of_append (dirAt_eq_some_iff.mp hall)
    rw [dirAt_eq_some_iff.mp hdir] at hfront
    cases hfront
    rw [hget] at hsome
    cases hsome

theorem createDirAll_of_dir {names dir : List String}
    (h : t.dirAt (absOf root names.reverse) = some dir) :
    createDirAll t root names = (some dir, []) := by
  cases names with
  | nil =>
    rw [createDirAll, ← h]
    simp [absOf, PathBuf.ofNames]
  | cons name parent => rw [createDirAll, h]

/-- What is made is the first missing name, or below it. -/
theorem createDirAll_made (names : List String) :
    (∀ real ∈ (createDirAll t root names).2, ∃ dir name,
        FirstMissing t root names.reverse dir name ∧ dir ++ [name] <+: real) ∧
      ∀ real, (createDirAll t root names).1 = some real →
        t.dirAt (absOf root names.reverse) = some real ∨ real ∈ (createDirAll t root names).2 := by
  induction names with
  | nil =>
    rw [createDirAll]
    refine ⟨fun real hreal => absurd hreal List.not_mem_nil, fun real hreal => .inl ?_⟩
    simpa [absOf, PathBuf.ofNames] using hreal
  | cons name parent ih =>
    obtain ⟨hmade, hlast⟩ := ih
    cases hdir : t.dirAt (absOf root (name :: parent).reverse) with
    | some real =>
      rw [createDirAll_of_dir hdir]
      exact ⟨fun _ h => absurd h List.not_mem_nil, fun _ h => .inl h⟩
    | none =>
      rw [createDirAll, hdir, List.reverse_cons]
      generalize createDirAll t root parent = result at hmade hlast ⊢
      obtain ⟨last, made⟩ := result
      have hbefore : ∀ real ∈ made, ∃ dir first,
          FirstMissing t root (parent.reverse ++ [name]) dir first ∧ dir ++ [first] <+: real := by
        intro real hreal
        obtain ⟨dir, first, hfirst, hbelow⟩ := hmade real hreal
        exact ⟨dir, first, hfirst.append [name], hbelow⟩
      cases last with
      | none => exact ⟨hbefore, fun real h => by cases h⟩
      | some dir =>
        show _ ∧ _
        by_cases hsome : (t.nodes.get (dir ++ [name])).isSome = true
        · simp only [hsome, if_true]
          exact ⟨hbefore, fun real h => by cases h⟩
        · simp only [hsome]
          refine ⟨fun real hreal => ?_, fun real h => .inr ?_⟩
          · obtain hreal | hreal := List.mem_append.mp hreal
            · exact hbefore real hreal
            · rw [List.mem_singleton.mp hreal]
              obtain hparent | hparent := hlast dir rfl
              · -- The parent was there before.
                exact ⟨dir, name, ⟨parent.reverse, [], rfl, hparent, by simpa using hsome⟩,
                  List.prefix_rfl⟩
              · obtain ⟨above, first, hfirst, hbelow⟩ := hbefore dir hparent
                exact ⟨above, first, hfirst, hbelow.trans (List.prefix_append _ _)⟩
          · cases h
            exact List.mem_append_right _ (List.mem_singleton_self _)

/-- The first missing name is made. -/
theorem createDirAll_makes {names dir : List String} {name : String}
    (h : FirstMissing t root names.reverse dir name) :
    dir ++ [name] ∈ (createDirAll t root names).2 := by
  induction names with
  | nil =>
    obtain ⟨front, rest, hnames, -, -⟩ := h
    simp at hnames
  | cons last parent ih =>
    have hnone := h.dirAt_none
    obtain ⟨front, rest, hnames, hdir, hget⟩ := h
    rw [createDirAll, hnone]
    rw [List.reverse_cons] at hnames
    induction rest using List.reverseRecOn with
    | nil =>
      obtain ⟨rfl, hlast⟩ := List.append_inj' hnames rfl
      cases hlast
      rw [createDirAll_of_dir hdir]
      simp [hget]
    | append_singleton rest last' _ =>
      rw [← List.cons_append, ← List.append_assoc] at hnames
      obtain ⟨hparent, -⟩ := List.append_inj' hnames rfl
      have hmade := ih ⟨front, rest, hparent, hdir, hget⟩
      generalize createDirAll t root parent = result at hmade ⊢
      obtain ⟨real, made⟩ := result
      cases real with
      | none => exact hmade
      | some real =>
        show dir ++ [name] ∈ (if _ then _ else _ : Option (List String) × List (List String)).2
        split
        · exact hmade
        · exact List.mem_append_left _ hmade

/-! ## Requests -/

/-- What `resolve` has compared. -/
theorem resolve_checked {rel : String} {p : BrowserPath} {rootCanon : List String}
    (hroot : t.realPath root = some rootCanon) (h : resolve t root rel = .ok p) :
    if absExists t root p = true then
      ∃ canon, t.realPath (absOf root p.names) = some canon ∧ rootCanon <+: canon
    else
      (t.lookAt (absOf root p.names).dropLast).isSome = true →
        ∃ canon, t.realPath (absOf root p.names).dropLast = some canon ∧ rootCanon <+: canon := by
  have hinside : ∀ (path : PathBuf) (p' : BrowserPath),
      (checkInside t rootCanon path).map (fun _ => p') = .ok p →
        p' = p ∧ ∃ canon, t.realPath path = some canon ∧ rootCanon <+: canon := by
    intro path p' hpath
    rw [checkInside] at hpath
    split at hpath
    · cases hpath
    · next canon hcanon =>
      split at hpath
      · next hin => exact ⟨Except.ok.inj hpath, canon, hcanon, hin⟩
      · cases hpath
  rw [resolve, hroot] at h
  split at h
  · cases h
  · next p' hp =>
    simp only at h
    split at h
    · next hexists =>
      obtain ⟨rfl, hin⟩ := hinside _ _ h
      rw [if_pos hexists]
      exact hin
    · next hexists =>
      split at h
      · obtain ⟨rfl, hin⟩ := hinside _ _ h
        rw [if_neg hexists]
        exact fun _ => hin
      · next hparent =>
        obtain rfl := Except.ok.inj h
        rw [if_neg hexists]
        exact fun h => absurd h hparent

/-- The names of the directories that are made for a request. -/
def toMake (rel : String) (p : BrowserPath) : List String :=
  if endsInDot rel then p.names.dropLast else p.names

/-- The path ends in a link by which a file outside is opened or made. -/
def LinkOut (t : LinkTree β) (root : PathBuf) (rootCanon names : List String) : Prop :=
  ∃ front name dir target file, names = front ++ [name] ∧
    t.dirAt (absOf root front) = some dir ∧ t.nodes.get (dir ++ [name]) = some (.link target) ∧
    t.openedFile (absOf root names) = some file ∧ ¬rootCanon <+: file

/-- Nothing on the way of a request that `resolve` does not look at leads outside. -/
structure NothingLeadsOut (t : LinkTree β) (root : PathBuf) (rootCanon : List String)
    (rel : String) (p : BrowserPath) : Prop where
  /-- The directory that the first missing name is made in lies inside. -/
  dirs : ∀ dir name, FirstMissing t root (toMake rel p) dir name → rootCanon <+: dir
  path : p.slash = false → ¬LinkOut t root rootCanon p.names
  entries : ∀ name, PlainName name → ¬LinkOut t root rootCanon (p.names ++ [name])

/-- Files in the directory have a plain name. -/
def PathUse.Plain : PathUse → Prop
  | .writeInto name => PlainName name
  | _ => True

theorem makeDirs_snd (t : LinkTree β) (root : PathBuf) (rel : String) (p : BrowserPath) :
    (makeDirs t root rel p).2 = (createDirAll t root (toMake rel p).reverse).2 := by
  rw [makeDirs, toMake]
  split <;> rfl

section

variable {rel : String} {p : BrowserPath} {rootCanon : List String}

/-- What is made in a directory inside is inside. -/
theorem makeDirs_inside
    (hdirs : ∀ dir name, FirstMissing t root (toMake rel p) dir name → rootCanon <+: dir) :
    ∀ real ∈ (makeDirs t root rel p).2, rootCanon <+: real := by
  intro real hreal
  rw [makeDirs_snd] at hreal
  obtain ⟨dir, name, hmissing, hbelow⟩ := (createDirAll_made _).1 real hreal
  rw [List.reverse_reverse] at hmissing
  exact (hdirs dir name hmissing).trans ((List.prefix_append dir [name]).trans hbelow)

/-- The root is not missing. -/
theorem root_isDirAt (hroot : t.realPath root = some rootCanon) {names dir : List String}
    {name : String} (h : FirstMissing t root names dir name) : t.isDirAt rootCanon = true := by
  obtain ⟨front, rest, -, hdir, -⟩ := h
  have hat : ∃ real, t.lookAt root = some (real, none) := by
    have hnil : absOf root [] = root := List.append_nil root
    cases front with
    | nil => exact ⟨dir, hnil ▸ dirAt_eq_some_iff.mp hdir⟩
    | cons first front =>
      have hall : t.lookAt (absOf root ([] ++ first :: front)) = some (dir, none) :=
        dirAt_eq_some_iff.mp hdir
      obtain ⟨real, hreal, -⟩ := lookAt_of_append hall
      exact ⟨real, hnil ▸ hreal⟩
  obtain ⟨real, hreal⟩ := hat
  rw [LinkTree.lookAt, hroot] at hreal
  simp only at hreal
  split at hreal
  · assumption
  · split at hreal
    · cases hreal
    · cases hreal

/-- Where the first missing name is made inside, its directory is inside. -/
theorem FirstMissing.dir_inside (hroot : t.realPath root = some rootCanon)
    {names dir : List String} {name : String} (h : FirstMissing t root names dir name)
    (hin : rootCanon <+: dir ++ [name]) : rootCanon <+: dir := by
  obtain heq | hin := List.prefix_concat_iff.mp hin
  · have hisdir := root_isDirAt hroot h
    obtain ⟨-, -, -, -, hget⟩ := h
    rw [heq, LinkTree.isDirAt.eq_def, hget] at hisdir
    simp at hisdir
  · exact hin

/-- A path that is let through opens a file inside, or ends in a link that leads outside. -/
theorem openedFile_inside (hroot : t.realPath root = some rootCanon)
    (h : resolve t root rel = .ok p) (hlink : ¬LinkOut t root rootCanon p.names) {file : List String}
    (hfile : t.openedFile (absOf root p.names) = some file) : rootCanon <+: file := by
  have hchecked := resolve_checked hroot h
  by_cases hexists : absExists t root p = true
  · rw [if_pos hexists] at hchecked
    obtain ⟨canon, hcanon, hin⟩ := hchecked
    rw [openedFile_eq hcanon hfile]
    exact hin
  · rw [if_neg hexists] at hchecked
    by_cases hnil : p.names = []
    · -- The root itself
      have hreal : t.realPath (absOf root p.names) = some rootCanon := by
        rw [hnil, ← hroot]
        exact congrArg t.realPath (List.append_nil root)
      rw [openedFile_eq hreal hfile]
    · obtain ⟨front, name, hnames⟩ : ∃ front name, p.names = front ++ [name] :=
        ⟨_, _, (List.dropLast_append_getLast hnil).symm⟩
      have hparent : (absOf root p.names).dropLast = absOf root front := by
        rw [hnames, absOf_append]
        exact List.dropLast_concat
      obtain ⟨dir, hdir, hat⟩ := openedFile_concat (hnames ▸ hfile)
      obtain rfl | ⟨target, htarget⟩ := hat
      · have hlook := dirAt_eq_some_iff.mp hdir
        rw [hparent, hlook] at hchecked
        obtain ⟨canon, hcanon, hin⟩ := hchecked rfl
        rw [realPath_of_lookAt hlook] at hcanon
        cases hcanon
        exact hin.trans (List.prefix_append _ _)
      · by_contra hout
        exact hlink ⟨front, name, dir, target, file, hnames, hdir, htarget, hfile, hout⟩

/-- A directory that exists has been compared with the root. -/
theorem dirAt_inside (hroot : t.realPath root = some rootCanon) (h : resolve t root rel = .ok p)
    {dir : List String} (hdir : t.dirAt (absOf root p.names) = some dir) : rootCanon <+: dir := by
  have hlook := dirAt_eq_some_iff.mp hdir
  have hexists : absExists t root p = true := by
    rw [absExists, hlook]
    simp
  have hchecked := resolve_checked hroot h
  rw [if_pos hexists] at hchecked
  obtain ⟨canon, hcanon, hin⟩ := hchecked
  rw [realPath_of_lookAt hlook] at hcanon
  cases hcanon
  exact hin

/-- What a request touches lies inside the root, unless something on the way leads outside. -/
theorem touched_inside (hroot : t.realPath root = some rootCanon)
    (h : resolve t root rel = .ok p) (hway : NothingLeadsOut t root rootCanon rel p)
    {use : PathUse} (huse : use.Plain) :
    ∀ real ∈ touched t root rel p use, rootCanon <+: real := by
  intro real hreal
  cases use with
  | read =>
    rw [touched] at hreal
    split at hreal
    · next hexists =>
      have hchecked := resolve_checked hroot h
      rw [if_pos hexists] at hchecked
      obtain ⟨canon, hcanon, hin⟩ := hchecked
      rw [hcanon, Option.toList_some, List.mem_singleton] at hreal
      exact hreal ▸ hin
    · exact absurd hreal List.not_mem_nil
  | write =>
    rw [touched] at hreal
    split at hreal
    · exact absurd hreal List.not_mem_nil
    · next hslash =>
      have hslash : p.slash = false := by simpa using hslash
      exact openedFile_inside hroot h (hway.path hslash) (Option.mem_toList.mp hreal)
  | createDirAll => exact makeDirs_inside hway.dirs real hreal
  | writeInto name =>
    cases hdir : t.dirAt (absOf root p.names) with
    | some dir =>
      simp only [touched, hdir, Option.mem_toList] at hreal
      obtain ⟨dir', hdir', hat⟩ := openedFile_concat hreal
      obtain rfl | ⟨target, htarget⟩ := hat
      · exact (dirAt_inside hroot h hdir').trans (List.prefix_append _ _)
      · by_contra hout
        exact hway.entries name huse
          ⟨p.names, name, dir', target, real, rfl, hdir', htarget, hreal, hout⟩
    | none =>
      have hmade := makeDirs_inside hway.dirs
      simp only [touched, hdir, List.mem_append] at hreal
      obtain hreal | hreal := hreal
      · exact hmade real hreal
      · -- The directory has been made, and the file is in it.
        obtain ⟨dir, hlast, rfl⟩ := Option.map_eq_some_iff.mp (Option.mem_toList.mp hreal)
        rw [makeDirs] at hlast hmade
        split at hlast
        · cases hlast
        · next hdot =>
          rw [if_neg hdot] at hmade
          obtain hthere | hnew := (createDirAll_made _).2 dir hlast
          · rw [List.reverse_reverse, hdir] at hthere
            cases hthere
          · exact (hmade dir hnew).trans (List.prefix_append _ _)

/-- What requests touch lies inside the root exactly when nothing on the way leads outside. -/
theorem touched_inside_iff (hroot : t.realPath root = some rootCanon)
    (h : resolve t root rel = .ok p) :
    (∀ use : PathUse, use.Plain → ∀ real ∈ touched t root rel p use, rootCanon <+: real) ↔
      NothingLeadsOut t root rootCanon rel p := by
  constructor
  · intro hin
    refine ⟨fun dir name hmissing => ?_, fun hslash hout => ?_, fun name hname hout => ?_⟩
    · have hmade : dir ++ [name] ∈ touched t root rel p .createDirAll := by
        rw [touched, makeDirs_snd]
        exact createDirAll_makes (by rwa [List.reverse_reverse])
      exact hmissing.dir_inside hroot (hin .createDirAll trivial _ hmade)
    · obtain ⟨front, name, dir, target, file, -, -, -, hfile, hout⟩ := hout
      refine hout (hin .write trivial file ?_)
      simp [touched, hslash, hfile]
    · obtain ⟨front, last, dir, target, file, hnames, hdir, -, hfile, hout⟩ := hout
      obtain ⟨rfl, -⟩ := List.append_inj' hnames rfl
      refine hout (hin (.writeInto name) hname file ?_)
      simp [touched, hdir, hfile]
  · intro hway use huse
    exact touched_inside hroot h hway huse

end

/-! ## A link on the way -/

/-- A root with a link to a directory beside it. -/
def linkedRoot : LinkTree Unit where
  nodes := ((FinMap.empty.insert ["root"] .dir).insert ["out"] .dir).insert ["root", "link"]
    (.link [.rootDir, .normal "out"])
  closed := by
    intro p n h
    simp only [FinMap.get_insert, FinMap.get_empty] at h ⊢
    split at h
    · next hp => subst hp; simp
    · split at h
      · next hp => subst hp; simp
      · split at h
        · next hp => subst hp; simp
        · cases h
  plain := by
    intro p n h
    simp only [FinMap.get_insert, FinMap.get_empty] at h
    split at h
    · next hp => subst hp; decide +kernel
    · split at h
      · next hp => subst hp; decide +kernel
      · split at h
        · next hp => subst hp; decide +kernel
        · cases h

theorem new_touched_inside_iff :
    (∀ use : PathUse, use.Plain → ∀ real ∈ touched linkedRoot [.rootDir, .normal "root"] "new"
        ⟨["new"], false⟩ use, ["root"] <+: real) ↔
      NothingLeadsOut linkedRoot [.rootDir, .normal "root"] ["root"] "new" ⟨["new"], false⟩ :=
  touched_inside_iff (by decide +kernel) (by decide +kernel)

/-- Two directories are missing behind the link, so nothing is compared with the root. -/
theorem made_outside :
    ¬∀ (t : LinkTree Unit) (root : PathBuf) (rootCanon : List String) (rel : String)
      (p : BrowserPath), t.realPath root = some rootCanon → resolve t root rel = .ok p →
        ∀ use : PathUse, use.Plain → ∀ real ∈ touched t root rel p use, rootCanon <+: real := by
  intro h
  have hinside := h linkedRoot [.rootDir, .normal "root"] ["root"] "link/new/x"
    ⟨["link", "new", "x"], false⟩ (by decide +kernel) (by decide +kernel) .createDirAll trivial
  have hmade : ["out", "new"] ∈ touched linkedRoot [.rootDir, .normal "root"] "link/new/x"
      ⟨["link", "new", "x"], false⟩ .createDirAll := by decide +kernel
  exact absurd (hinside _ hmade) (by decide)

end ByteHive.FileBrowser
