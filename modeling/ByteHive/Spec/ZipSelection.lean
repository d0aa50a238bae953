import ByteHive.Native.ZipPaths

/-!
# What an archive holds

An archive holds what is visited: the requested paths, and what is below them without an entry
named `.bh_filesync` on the way (`zipPaths_entries`). The name of an entry tells where it was made
from, so that an entry that is refused as a second one of its name is there already. Whether the
internal folder stays out, and nothing else does, is a question about the visited paths then
(`zipPaths_correct_iff`).
-/

namespace ByteHive.FileBrowser

variable {β : Type}

/-! ## Names in the archive -/

/-- A part of a text between two slashes, when it is a name. -/
def nameOf (part : List Char) : Option String :=
  if part = [] ∨ part = ['.'] ∨ part = ['.', '.'] then none else some (String.ofList part)

/-- The names that a text has between slashes. -/
def namesIn (text : List Char) : List String := (text.splitOn '/').filterMap nameOf

theorem namesIn_slash (text rest : List Char) :
    namesIn (text ++ '/' :: rest) = namesIn text ++ namesIn rest := by
  rw [namesIn, List.splitOn_append_cons_self, List.filterMap_append]
  rfl

theorem namesIn_nil : namesIn [] = [] := rfl

theorem namesIn_plain {name : String} (h : PlainName name) : namesIn name.toList = [name] := by
  obtain ⟨hslash, hnil, hdot, hdots⟩ := h
  have hname : nameOf name.toList = some name := by
    rw [nameOf, if_neg (by simp [hnil, hdot, hdots]), String.ofList_toList]
  rw [namesIn, List.splitOn_eq_singleton hslash, List.filterMap_cons_some hname]
  rfl

/-- A component as a name. -/
def componentName : Component → Option String
  | .normal name => some name
  | _ => none

theorem componentOf_name (part : List Char) :
    (componentOf part).bind componentName = nameOf part := by
  rw [componentOf, nameOf]
  by_cases hnil : part = []
  · simp [hnil]
  · by_cases hdot : part = ['.']
    · simp [hdot]
    · by_cases hdots : part = ['.', '.']
      · simp [hdots, componentName]
      · simp [hnil, hdot, hdots, componentName]

theorem firstComponent_name (part : List Char) (more : Bool) :
    (firstComponent part more).bind componentName = nameOf part := by
  rw [firstComponent]
  split
  · next hnil => cases more <;> simp [hnil, nameOf, componentName]
  · split
    · next hdot => simp [hdot, nameOf, componentName]
    · exact componentOf_name part

theorem componentsOf_names (text : String) :
    (componentsOf text).filterMap componentName = namesIn text.toList := by
  rw [componentsOf, namesIn]
  split
  · next h => rw [h]; rfl
  · next first rest h =>
    have hfirst : (firstComponent first (!rest.isEmpty)).toList.filterMap componentName =
        (nameOf first).toList := by
      rw [← firstComponent_name first (!rest.isEmpty)]
      cases firstComponent first (!rest.isEmpty) with
      | none => rfl
      | some c => cases c <;> rfl
    rw [h, List.filterMap_append, List.filterMap_filterMap, hfirst]
    simp only [componentOf_name]
    cases hname : nameOf first with
    | none => rw [List.filterMap_cons_none hname]; rfl
    | some name => rw [List.filterMap_cons_some hname]; rfl

theorem plainComponents_names {p : PathBuf} {names : List String}
    (h : plainComponents p = .ok names) : names = p.filterMap componentName := by
  induction p generalizing names with
  | nil =>
    cases h
    rfl
  | cons c rest ih =>
    cases c with
    | rootDir => cases h
    | parentDir => cases h
    | curDir => exact ih h
    | normal name =>
      rw [plainComponents] at h
      cases hrest : plainComponents rest with
      | error e =>
        rw [hrest] at h
        cases h
      | ok more =>
        rw [hrest] at h
        cases h
        rw [ih hrest]
        rfl

theorem namesIn_dropWhile (text : List Char) :
    namesIn (text.map fun c => if c = '\\' then '/' else c) =
      namesIn ((text.dropWhile (· = '/')).map fun c => if c = '\\' then '/' else c) := by
  induction text with
  | nil => rfl
  | cons c rest ih =>
    by_cases hc : c = '/'
    · subst hc
      rw [List.dropWhile_cons_of_pos (by simp), ← ih]
      exact namesIn_slash [] _
    · rw [List.dropWhile_cons_of_neg (by simpa using hc)]

/-- The names of a resolved path are those of the request. -/
theorem resolvePath_names {rel : String} {p : BrowserPath} (h : resolvePath rel = .ok p) :
    namesIn (slashed rel).toList = p.names := by
  rw [resolvePath] at h
  cases hnames : plainComponents (componentsOf (trimRel rel)) with
  | error e =>
    rw [hnames] at h
    cases h
  | ok names =>
    rw [hnames] at h
    cases h
    show namesIn (slashed rel).toList = names
    rw [plainComponents_names hnames, componentsOf_names, slashed, trimRel, String.toList_ofList,
      String.toList_ofList, namesIn_dropWhile]

/-! ## Paths -/

section

variable {t : LinkTree β} {real : List String}

/-- A path is followed by following its first part and then the rest. -/
def Splits (t : LinkTree β) (go : List String → PathBuf → Option (List String)) : Prop :=
  ∀ cur p q real, go cur (p ++ q) = some real →
    ∃ left mid, go cur p = some mid ∧ t.walk left mid q = some real

theorem walkFrom_splits {follow : List String → PathBuf → Option (List String)} (links : Nat)
    (hwalk : t.walk links = t.walkFrom follow) (hfollow : Splits t follow) :
    Splits t (t.walkFrom follow) := by
  intro cur p
  induction p generalizing cur with
  | nil => exact fun q real h => ⟨links, cur, rfl, hwalk ▸ h⟩
  | cons c p ih =>
    intro q real h
    cases c with
    | rootDir => exact ih [] q real h
    | curDir =>
      simp only [List.cons_append, LinkTree.walkFrom] at h ⊢
      split at h
      · next hdir =>
        rw [if_pos hdir]
        exact ih cur q real h
      · cases h
    | parentDir =>
      simp only [List.cons_append, LinkTree.walkFrom] at h ⊢
      split at h
      · next hdir =>
        rw [if_pos hdir]
        exact ih cur.dropLast q real h
      · cases h
    | normal name =>
      simp only [List.cons_append, LinkTree.walkFrom] at h ⊢
      split at h
      · next hdir =>
        rw [if_pos hdir]
        split at h
        · cases h
        · next target hget =>
          rw [← List.append_assoc] at h
          exact hfollow cur (target ++ p) q real h
        · next n hlink hget => exact ih (cur ++ [name]) q real h
      · cases h

theorem walk_splits (t : LinkTree β) (links : Nat) : Splits t (t.walk links) := by
  induction links with
  | zero => exact walkFrom_splits 0 rfl fun _ _ _ _ h => nomatch h
  | succ links ih => exact walkFrom_splits (links + 1) rfl ih

/-- A name on the way is an entry of a directory. -/
theorem walk_normal {links : Nat} {cur : List String} {name : String} {rest : PathBuf}
    (h : t.walk links cur (.normal name :: rest) = some real) :
    t.isDirAt cur = true ∧ (t.nodes.get (cur ++ [name])).isSome = true := by
  have hfrom : ∀ follow, t.walkFrom follow cur (.normal name :: rest) = some real →
      t.isDirAt cur = true ∧ (t.nodes.get (cur ++ [name])).isSome = true := by
    intro follow h
    rw [LinkTree.walkFrom] at h
    split at h
    · next hdir =>
      refine ⟨hdir, ?_⟩
      cases hget : t.nodes.get (cur ++ [name]) with
      | none => simp [hget] at h
      | some n => rfl
    · cases h
  cases links with
  | zero => exact hfrom _ h
  | succ links => exact hfrom _ h

theorem absOf_append (root : PathBuf) (p q : List String) :
    absOf root (p ++ q) = absOf root p ++ .ofNames q := by
  simp [absOf, PathBuf.ofNames]

/-- What a longer path leads to is in a directory that the shorter path leads to. -/
theorem lookAt_of_append {root : PathBuf} {names r : List String} {name : String}
    {obj : List String × Option β} (h : t.lookAt (absOf root (names ++ name :: r)) = some obj) :
    ∃ dir, t.lookAt (absOf root names) = some (dir, none) ∧
      (t.nodes.get (dir ++ [name])).isSome = true := by
  rw [LinkTree.lookAt] at h
  split at h
  · cases h
  · next real hreal =>
    rw [LinkTree.realPath, absOf_append] at hreal
    obtain ⟨left, dir, hdir, hrest⟩ := walk_splits t _ _ _ _ _ hreal
    obtain ⟨hisdir, hentry⟩ := walk_normal hrest
    refine ⟨dir, ?_, hentry⟩
    rw [LinkTree.lookAt, LinkTree.realPath, hdir]
    simp [hisdir]

end

/-! ## Entries -/

/-- The name of an entry; that of a directory ends in a slash. -/
def entryName (arcname : String) : Option β → String
  | none => arcname ++ "/"
  | some _ => arcname

/-- The entry for a path with some names more. -/
def arcPath (arcname : String) (r : List String) : String :=
  r.foldl (fun arcname name => arcname ++ "/" ++ name) arcname

/-- The crate takes the name and the data. -/
def ZipCrate.Accepted (zip : ZipCrate β) (e : ArchiveEntry β) : Prop :=
  zip.accepts e.name = true ∧ e.content.all zip.writeAll = true

/-- What the entry says is what its name leads to. -/
def Truthful (t : LinkTree β) (root : PathBuf) (e : ArchiveEntry β) : Prop :=
  t.lookAt (absOf root (namesIn e.name.toList)) = some (e.source, e.content)

/-- What is at a path, or below it without an entry named `.bh_filesync` on the way. -/
def AtOrBelow (t : LinkTree β) (root : PathBuf) (names : List String) (arcname : String)
    (e : ArchiveEntry β) : Prop :=
  ∃ r, ".bh_filesync" ∉ r ∧ t.lookAt (absOf root (names ++ r)) = some (e.source, e.content) ∧
    e.name = entryName (arcPath arcname r) e.content

def Below (t : LinkTree β) (root : PathBuf) (names : List String) (arcname : String)
    (e : ArchiveEntry β) : Prop :=
  ∃ name, name ≠ ".bh_filesync" ∧
    AtOrBelow t root (names ++ [name]) (arcname ++ "/" ++ name) e

theorem namesIn_entryName (arcname : String) (content : Option β) :
    namesIn (entryName arcname content).toList = namesIn arcname.toList := by
  cases content with
  | some data => rfl
  | none =>
    rw [entryName, String.toList_append]
    show namesIn (arcname.toList ++ '/' :: []) = _
    rw [namesIn_slash, namesIn_nil, List.append_nil]

theorem namesIn_join {arcname name : String} (h : PlainName name) :
    namesIn (arcname ++ "/" ++ name).toList = namesIn arcname.toList ++ [name] := by
  rw [String.toList_append, String.toList_append, List.append_assoc]
  show namesIn (arcname.toList ++ '/' :: name.toList) = _
  rw [namesIn_slash, namesIn_plain h]

theorem namesIn_arcPath {arcname : String} {r : List String} (h : ∀ name ∈ r, PlainName name) :
    namesIn (arcPath arcname r).toList = namesIn arcname.toList ++ r := by
  induction r generalizing arcname with
  | nil => exact (List.append_nil _).symm
  | cons name r ih =>
    show namesIn (arcPath (arcname ++ "/" ++ name) r).toList = _
    rw [ih fun n hn => h n (List.mem_cons_of_mem _ hn), namesIn_join (h name List.mem_cons_self),
      List.append_assoc]
    rfl

section

variable {t : LinkTree β} {root : PathBuf} {names : List String} {arcname : String}
variable {e : ArchiveEntry β}

/-- The names on the way to something are names of the tree. -/
theorem plain_of_lookAt {r : List String} {obj : List String × Option β}
    (h : t.lookAt (absOf root (names ++ r)) = some obj) : ∀ name ∈ r, PlainName name := by
  intro name hname
  obtain ⟨before, after, rfl⟩ := List.append_of_mem hname
  rw [← List.append_assoc] at h
  obtain ⟨dir, -, hentry⟩ := lookAt_of_append h
  obtain ⟨n, hn⟩ := Option.isSome_iff_exists.mp hentry
  exact t.plain _ n hn name (by simp)

theorem AtOrBelow.truthful (h : AtOrBelow t root names arcname e)
    (harc : namesIn arcname.toList = names) : Truthful t root e := by
  obtain ⟨r, -, hlook, hname⟩ := h
  rw [Truthful, hname, namesIn_entryName, namesIn_arcPath (plain_of_lookAt hlook), harc]
  exact hlook

theorem atOrBelow_dir (arcname : String) {real : List String}
    (hdir : t.lookAt (absOf root names) = some (real, none)) (e : ArchiveEntry β) :
    AtOrBelow t root names arcname e ↔
      e = ⟨arcname ++ "/", none, real⟩ ∨ Below t root names arcname e := by
  constructor
  · intro ⟨r, hr, hlook, hname⟩
    match r with
    | [] =>
      rw [List.append_nil, hdir] at hlook
      obtain ⟨name, content, source⟩ := e
      simp only [Option.some.injEq, Prod.mk.injEq] at hlook hname
      obtain ⟨rfl, rfl⟩ := hlook
      exact Or.inl (by rw [hname]; rfl)
    | name :: r =>
      rw [List.mem_cons, not_or] at hr
      exact Or.inr ⟨name, Ne.symm hr.1, r, hr.2, by rw [List.append_assoc]; exact hlook, hname⟩
  · intro h
    obtain rfl | ⟨name, hne, r, hr, hlook, hname⟩ := h
    · exact ⟨[], List.not_mem_nil, by rw [List.append_nil]; exact hdir, rfl⟩
    · rw [List.append_assoc] at hlook
      exact ⟨name :: r, by simp [Ne.symm hne, hr], hlook, hname⟩

theorem atOrBelow_file (arcname : String) {real : List String} {data : β}
    (hfile : t.lookAt (absOf root names) = some (real, some data)) (e : ArchiveEntry β) :
    AtOrBelow t root names arcname e ↔ e = ⟨arcname, some data, real⟩ := by
  constructor
  · intro ⟨r, hr, hlook, hname⟩
    match r with
    | [] =>
      rw [List.append_nil, hfile] at hlook
      obtain ⟨name, content, source⟩ := e
      simp only [Option.some.injEq, Prod.mk.injEq] at hlook hname
      obtain ⟨rfl, rfl⟩ := hlook
      rw [hname]
      rfl
    | name :: r =>
      obtain ⟨dir, hdir, -⟩ := lookAt_of_append hlook
      rw [hfile] at hdir
      cases hdir
  · intro h
    subst h
    exact ⟨[], List.not_mem_nil, by rw [List.append_nil]; exact hfile, rfl⟩

theorem not_atOrBelow (hnone : t.lookAt (absOf root names) = none) :
    ¬AtOrBelow t root names arcname e := by
  intro ⟨r, hr, hlook, hname⟩
  match r with
  | [] =>
    rw [List.append_nil, hnone] at hlook
    cases hlook
  | name :: r =>
    obtain ⟨dir, hdir, -⟩ := lookAt_of_append hlook
    rw [hnone] at hdir
    cases hdir

end

/-! ## Adding to an archive -/

/-- Exactly the accepted ones of some entries are added. -/
structure Adds (zip : ZipCrate β) (V : ArchiveEntry β → Prop) (old new : List (ArchiveEntry β)) :
    Prop where
  keeps : ∀ e ∈ old, e ∈ new
  added : ∀ e ∈ new, e ∈ old ∨ V e ∧ zip.Accepted e
  all : ∀ e, V e → zip.Accepted e → e ∈ new

section

variable {zip : ZipCrate β} {V W : ArchiveEntry β → Prop} {a b c : List (ArchiveEntry β)}

theorem Adds.refl (h : ∀ e, ¬V e) (a : List (ArchiveEntry β)) : Adds zip V a a :=
  ⟨fun _ he => he, fun _ he => Or.inl he, fun e he => absurd he (h e)⟩

theorem Adds.trans (h : Adds zip V a b) (h' : Adds zip W b c) :
    Adds zip (fun e => V e ∨ W e) a c := by
  refine ⟨fun e he => h'.keeps e (h.keeps e he), ?_, ?_⟩
  · intro e he
    obtain he | ⟨hw, hacc⟩ := h'.added e he
    · obtain he | ⟨hv, hacc⟩ := h.added e he
      · exact Or.inl he
      · exact Or.inr ⟨Or.inl hv, hacc⟩
    · exact Or.inr ⟨Or.inr hw, hacc⟩
  · intro e hvw hacc
    obtain hv | hw := hvw
    · exact h'.keeps e (h.all e hv hacc)
    · exact h'.all e hw hacc

theorem Adds.congr (h : Adds zip V a b) (hvw : ∀ e, V e ↔ W e) : Adds zip W a b := by
  refine ⟨h.keeps, ?_, fun e hw => h.all e ((hvw e).mpr hw)⟩
  intro e he
  exact (h.added e he).imp_right fun hv => ⟨(hvw e).mp hv.1, hv.2⟩

variable {t : LinkTree β} {root : PathBuf}

theorem Adds.truthful (h : Adds zip V a b) (ha : ∀ e ∈ a, Truthful t root e)
    (hv : ∀ e, V e → Truthful t root e) : ∀ e ∈ b, Truthful t root e := by
  intro e he
  obtain he | ⟨hve, -⟩ := h.added e he
  · exact ha e he
  · exact hv e hve

/-- A name that is refused as a second one leads to the same. -/
theorem add_adds (ha : ∀ e ∈ a, Truthful t root e) {e : ArchiveEntry β}
    (he : Truthful t root e) : Adds zip (· = e) a (zip.add a e) := by
  rw [ZipCrate.add]
  split
  · next hadd =>
    simp only [ZipCrate.starts, Bool.and_eq_true] at hadd
    refine ⟨fun d hd => List.mem_append_left _ hd, ?_, ?_⟩
    · intro d hd
      obtain hd | hd := List.mem_append.mp hd
      · exact Or.inl hd
      · rw [List.mem_singleton.mp hd]
        exact Or.inr ⟨rfl, hadd.1.1, hadd.2⟩
    · intro d hd _
      rw [hd]
      simp
  · next hadd =>
    refine ⟨fun d hd => hd, fun d hd => Or.inl hd, ?_⟩
    intro d hd hacc
    rw [hd] at hacc ⊢
    simp only [ZipCrate.starts, Bool.and_eq_true, Bool.or_eq_true, decide_eq_true_eq,
      hacc.1, hacc.2, true_and, and_true, not_or, not_not] at hadd
    obtain ⟨other, hother, hname⟩ := List.mem_map.mp hadd.2
    have hsame := ha other hother
    rw [Truthful, hname, he] at hsame
    obtain ⟨name, content, source⟩ := e
    obtain ⟨name', content', source'⟩ := other
    simp only [Option.some.injEq, Prod.mk.injEq] at hsame hname
    obtain ⟨rfl, rfl⟩ := hsame
    subst hname
    exact hother

end

/-! ## What a request adds -/

section

variable {zip : ZipCrate β} {t : LinkTree β} {ls : t.Listing} {root : PathBuf}
variable {names : List String} {arcname : String} {old new : List (ArchiveEntry β)}

theorem addFile_adds (hold : ∀ e ∈ old, Truthful t root e) (harc : namesIn arcname.toList = names)
    (hnodir : ∀ real, t.lookAt (absOf root names) ≠ some (real, none)) :
    Adds zip (AtOrBelow t root names arcname) old (addFile zip t root old names arcname) := by
  rw [addFile]
  split
  · next real data hlook =>
    have hfile := atOrBelow_file arcname hlook
    refine (add_adds hold ?_).congr fun e => (hfile e).symm
    exact ((hfile _).mpr rfl).truthful harc
  · next hnofile =>
    refine .refl (fun e => not_atOrBelow ?_) old
    cases hlook : t.lookAt (absOf root names) with
    | none => rfl
    | some obj =>
      obtain ⟨real, content⟩ := obj
      cases content with
      | none => exact absurd hlook (hnodir real)
      | some data => exact absurd hlook (hnofile real data)

/-- What the recursive call does. -/
def AddsBelow (zip : ZipCrate β) (t : LinkTree β) (root : PathBuf)
    (addDir : List (ArchiveEntry β) → List String → String → Option (List (ArchiveEntry β))) :
    Prop :=
  ∀ old new names arcname, (∀ e ∈ old, Truthful t root e) → namesIn arcname.toList = names →
    addDir old names arcname = some new → Adds zip (Below t root names arcname) old new

theorem addEntries_adds
    {addDir : List (ArchiveEntry β) → List String → String → Option (List (ArchiveEntry β))}
    (hrec : AddsBelow zip t root addDir) (harc : namesIn arcname.toList = names)
    {found : List String} (hplain : ∀ name ∈ found, PlainName name)
    (hold : ∀ e ∈ old, Truthful t root e)
    (h : addEntries zip t root addDir names arcname found old = some new) :
    Adds zip (fun e => ∃ name ∈ found, name ≠ ".bh_filesync" ∧
      AtOrBelow t root (names ++ [name]) (arcname ++ "/" ++ name) e) old new := by
  induction found generalizing old with
  | nil =>
    cases h
    exact .refl (by simp) _
  | cons name found ih =>
    have hplain' := fun n hn => hplain n (List.mem_cons_of_mem name hn)
    rw [addEntries] at h
    split at h
    · next hskip =>
      refine (ih hplain' hold h).congr fun e => ?_
      simp [hskip]
    · next hname =>
      have harc' : namesIn (arcname ++ "/" ++ name).toList = names ++ [name] := by
        rw [namesIn_join (hplain name List.mem_cons_self), harc]
      -- the entry is added with what is below it, then the others
      obtain ⟨mid, hmid, hrest⟩ : ∃ mid,
          Adds zip (AtOrBelow t root (names ++ [name]) (arcname ++ "/" ++ name)) old mid ∧
          addEntries zip t root addDir names arcname found mid = some new := by
        simp only at h
        split at h
        · next real hlook =>
          obtain ⟨mid, hadd, hrest⟩ := Option.bind_eq_some_iff.mp h
          have hdir := atOrBelow_dir (arcname ++ "/" ++ name) hlook
          have hself : Truthful t root ⟨arcname ++ "/" ++ name ++ "/", none, real⟩ :=
            ((hdir _).mpr (Or.inl rfl)).truthful harc'
          have hfirst : Adds zip _ old (addDirectory zip old real (arcname ++ "/" ++ name)) :=
            add_adds hold hself
          have htruth := hfirst.truthful hold fun e he => he ▸ hself
          exact ⟨mid, (hfirst.trans (hrec _ _ _ _ htruth harc' hadd)).congr fun e => (hdir e).symm,
            hrest⟩
        · next hnodir =>
          exact ⟨_, addFile_adds hold harc' hnodir, h⟩
      have htruth := hmid.truthful hold fun e he => he.truthful harc'
      refine (hmid.trans (ih hplain' htruth hrest)).congr fun e => ?_
      simp [hname]

theorem listing_plain (ls : t.Listing) (real : List String) :
    ∀ name ∈ ls.names real, PlainName name := by
  intro name hname
  obtain ⟨n, hn⟩ := Option.isSome_iff_exists.mp ((ls.mem_iff real name).mp hname)
  exact t.plain _ n hn name (by simp)

theorem addDirRecursive_adds (fuel : Nat) :
    AddsBelow zip t root (addDirRecursive zip t ls root fuel) := by
  induction fuel with
  | zero => exact fun _ _ _ _ _ _ h => nomatch h
  | succ fuel ih =>
    intro old new names arcname hold harc h
    rw [addDirRecursive] at h
    split at h
    · next real hlook =>
      refine (addEntries_adds ih harc (listing_plain ls real) hold h).congr fun e => ?_
      refine exists_congr fun name => ⟨fun hv => hv.2, fun hv => ⟨?_, hv⟩⟩
      -- what is there is listed
      obtain ⟨-, r, -, hbelow, -⟩ := hv
      rw [List.append_assoc] at hbelow
      obtain ⟨dir, hdir, hentry⟩ := lookAt_of_append hbelow
      rw [hlook] at hdir
      cases hdir
      exact (ls.mem_iff real name).mpr hentry
    · next hnodir =>
      cases h
      refine .refl (fun e he => ?_) old
      obtain ⟨name, -, r, -, hbelow, -⟩ := he
      rw [List.append_assoc] at hbelow
      obtain ⟨dir, hdir, -⟩ := lookAt_of_append hbelow
      exact hnodir dir hdir

theorem addSelected_adds {fuel : Nat} {resolved : List (BrowserPath × String)}
    (hnames : ∀ p rel, (p, rel) ∈ resolved → namesIn (slashed rel).toList = p.names)
    (hold : ∀ e ∈ old, Truthful t root e)
    (h : addSelected zip t ls root fuel resolved old = some new) :
    Adds zip (fun e => ∃ p rel, (p, rel) ∈ resolved ∧
      AtOrBelow t root p.names (slashed rel) e) old new := by
  induction resolved generalizing old with
  | nil =>
    cases h
    exact .refl (by simp) _
  | cons first rest ih =>
    obtain ⟨p, rel⟩ := first
    have harc := hnames p rel List.mem_cons_self
    have hnames' := fun q r hq => hnames q r (List.mem_cons_of_mem _ hq)
    rw [addSelected] at h
    obtain ⟨mid, hmid, hrest⟩ : ∃ mid,
        Adds zip (AtOrBelow t root p.names (slashed rel)) old mid ∧
        addSelected zip t ls root fuel rest mid = some new := by
      split at h
      · next real hlook =>
        obtain ⟨mid, hadd, hrest⟩ := Option.bind_eq_some_iff.mp h
        have hdir := atOrBelow_dir (slashed rel) hlook
        have hself : Truthful t root ⟨slashed rel ++ "/", none, real⟩ :=
          ((hdir _).mpr (Or.inl rfl)).truthful harc
        have hfirst : Adds zip _ old (addDirectory zip old real (slashed rel)) :=
          add_adds hold hself
        have htruth := hfirst.truthful hold fun e he => he ▸ hself
        exact ⟨mid, (hfirst.trans (addDirRecursive_adds fuel _ _ _ _ htruth harc hadd)).congr
          fun e => (hdir e).symm, hrest⟩
      · next hnodir => exact ⟨_, addFile_adds hold harc hnodir, h⟩
    have htruth := hmid.truthful hold fun e he => he.truthful harc
    refine (hmid.trans (ih hnames' htruth hrest)).congr fun e => ?_
    constructor
    · intro hv
      obtain hv | ⟨q, r, hq, hv⟩ := hv
      · exact ⟨p, rel, List.mem_cons_self, hv⟩
      · exact ⟨q, r, List.mem_cons_of_mem _ hq, hv⟩
    · intro ⟨q, r, hq, hv⟩
      obtain heq | hq := List.mem_cons.mp hq
      · cases heq
        exact Or.inl hv
      · exact Or.inr ⟨q, r, hq, hv⟩

end

/-! ## Requests -/

section

variable {zip : ZipCrate β} {t : LinkTree β} {ls : t.Listing} {root : PathBuf}

theorem resolve_names {rel : String} {p : BrowserPath} (h : resolve t root rel = .ok p) :
    namesIn (slashed rel).toList = p.names := by
  rw [resolve] at h
  split at h
  · cases h
  · next q hq =>
    split at h
    · cases h
    · -- the checks only let the path through
      have hmap : ∀ checked : Except ResolveError Unit, checked.map (fun _ => q) = .ok p → q = p := by
        intro checked hchecked
        cases checked with
        | error e => cases hchecked
        | ok u =>
          cases hchecked
          rfl
      exact hmap _ h ▸ resolvePath_names hq

theorem mem_resolveAll {rels : List String} {resolved : List (BrowserPath × String)}
    (h : resolveAll t root rels = .ok resolved) (p : BrowserPath) (rel : String) :
    (p, rel) ∈ resolved ↔ rel ∈ rels ∧ resolve t root rel = .ok p := by
  induction rels generalizing resolved with
  | nil =>
    cases h
    simp
  | cons first rels ih =>
    rw [resolveAll] at h
    split at h
    · cases h
    · next q hq =>
      split at h
      · cases h
      · split at h
        · cases h
        · cases hrest : resolveAll t root rels with
          | error e =>
            rw [hrest] at h
            cases h
          | ok more =>
            rw [hrest] at h
            cases h
            rw [List.mem_cons, ih hrest, List.mem_cons]
            constructor
            · intro hmem
              obtain heq | hmem := hmem
              · cases heq
                exact ⟨Or.inl rfl, hq⟩
              · exact ⟨Or.inr hmem.1, hmem.2⟩
            · intro ⟨hrel, hp⟩
              obtain rfl | hrel := hrel
              · rw [hq] at hp
                cases hp
                exact Or.inl rfl
              · exact Or.inr ⟨hrel, hp⟩

/-- What a request for these paths visits. -/
def Visited (t : LinkTree β) (root : PathBuf) (rels : List String) (e : ArchiveEntry β) : Prop :=
  ∃ rel ∈ rels, ∃ p, resolve t root rel = .ok p ∧ AtOrBelow t root p.names (slashed rel) e

/-- The archive has an entry for everything that is visited and that the crate takes. -/
theorem zipPaths_entries {fuel : Nat} {rels : List String} {archive : List (ArchiveEntry β)}
    (h : zipPaths zip t ls root fuel rels = some (.ok archive)) (e : ArchiveEntry β) :
    e ∈ archive ↔ Visited t root rels e ∧ zip.Accepted e := by
  rw [zipPaths] at h
  split at h
  · cases h
  · split at h
    · cases h
    · split at h
      · cases h
      · next resolved hresolved =>
        obtain ⟨made, hmade, hfinish⟩ := Option.bind_eq_some_iff.mp h
        split at hfinish
        · cases hfinish
          have hmem := mem_resolveAll hresolved
          have hadds := addSelected_adds
            (fun p rel hp => resolve_names ((hmem p rel).mp hp).2) (by simp) hmade
          have hvisited : (∃ p rel, (p, rel) ∈ resolved ∧
              AtOrBelow t root p.names (slashed rel) e) ↔ Visited t root rels e := by
            simp only [hmem, Visited]
            constructor
            · intro ⟨p, rel, ⟨hrel, hp⟩, hv⟩
              exact ⟨rel, hrel, p, hp, hv⟩
            · intro ⟨rel, hrel, p, hp, hv⟩
              exact ⟨p, rel, ⟨hrel, hp⟩, hv⟩
          rw [← hvisited]
          constructor
          · intro he
            exact (hadds.added e he).resolve_left List.not_mem_nil
          · intro ⟨hv, hacc⟩
            exact hadds.all e hv hacc
        · cases hfinish

/-- The path leads to the internal folder or through it. -/
def Through (t : LinkTree β) (root : PathBuf) (names : List String) : Prop :=
  ∃ q, q <+: names ∧ ∃ real folder, t.realPath (absOf root q) = some real ∧
    t.realPath (absOf root [".bh_filesync"]) = some folder ∧ folder <+: real

/-- The internal folder stays out of the archive, and all else that is selected is in it. -/
structure RightArchive (t : LinkTree β) (root : PathBuf) (rels : List String)
    (archive : List (ArchiveEntry β)) : Prop where
  clean : ∀ e ∈ archive, ¬Through t root (namesIn e.name.toList)
  complete : ∀ rel ∈ rels, ∀ p, resolve t root rel = .ok p → ∀ r real content,
    t.lookAt (absOf root (p.names ++ r)) = some (real, content) → ¬Through t root (p.names ++ r) →
      ∃ e ∈ archive, e.source = real ∧ e.content = content

/-- Nothing that is visited leads through the internal folder, and what is selected outside of
    it is visited; entries that the crate does not take are not counted as visited. -/
structure VisitsRight (zip : ZipCrate β) (t : LinkTree β) (root : PathBuf) (rels : List String) :
    Prop where
  outside : ∀ e, Visited t root rels e → zip.Accepted e → ¬Through t root (namesIn e.name.toList)
  all : ∀ rel ∈ rels, ∀ p, resolve t root rel = .ok p → ∀ r real content,
    t.lookAt (absOf root (p.names ++ r)) = some (real, content) → ¬Through t root (p.names ++ r) →
      ∃ e, Visited t root rels e ∧ zip.Accepted e ∧ e.source = real ∧ e.content = content

/-- The archive is right exactly when the right paths are visited. -/
theorem zipPaths_correct_iff {fuel : Nat} {rels : List String} {archive : List (ArchiveEntry β)}
    (h : zipPaths zip t ls root fuel rels = some (.ok archive)) :
    RightArchive t root rels archive ↔ VisitsRight zip t root rels := by
  have hmem := zipPaths_entries h
  constructor
  · intro ⟨hclean, hcomplete⟩
    refine ⟨fun e hv hacc => hclean e ((hmem e).mpr ⟨hv, hacc⟩), ?_⟩
    intro rel hrel p hp r real content hlook hout
    obtain ⟨e, he, hsource, hcontent⟩ := hcomplete rel hrel p hp r real content hlook hout
    obtain ⟨hv, hacc⟩ := (hmem e).mp he
    exact ⟨e, hv, hacc, hsource, hcontent⟩
  · intro ⟨houtside, hall⟩
    refine ⟨fun e he => houtside e ((hmem e).mp he).1 ((hmem e).mp he).2, ?_⟩
    intro rel hrel p hp r real content hlook hout
    obtain ⟨e, hv, hacc, hsource, hcontent⟩ := hall rel hrel p hp r real content hlook hout
    exact ⟨e, (hmem e).mpr ⟨hv, hacc⟩, hsource, hcontent⟩

/-! ## Without links -/

/-- Without links a path of names leads straight on. -/
theorem walk_noLinks (hlinks : ∀ p target, t.nodes.get p ≠ some (.link target)) {links : Nat}
    {cur real names : List String} (h : t.walk links cur (.ofNames names) = some real) :
    real = cur ++ names := by
  have hfrom : ∀ follow, t.walkFrom follow cur (.ofNames names) = some real →
      real = cur ++ names := by
    clear h
    intro follow h
    induction names generalizing cur with
    | nil =>
      cases h
      exact (List.append_nil _).symm
    | cons name names ih =>
      rw [PathBuf.ofNames, List.map_cons, LinkTree.walkFrom] at h
      split at h
      · split at h
        · cases h
        · next target hget => exact absurd hget (hlinks _ target)
        · rw [ih h, List.append_assoc]
          rfl
      · cases h
  cases links with
  | zero => exact hfrom _ h
  | succ links => exact hfrom _ h

/-- Without links it is the name of the folder, and where it stands in the path, that counts. -/
theorem through_iff_of_noLinks (hlinks : ∀ p target, t.nodes.get p ≠ some (.link target))
    {names : List String} {obj : List String × Option β}
    (hlook : t.lookAt (absOf root names) = some obj) :
    Through t root names ↔ [".bh_filesync"] <+: names := by
  have hreal : ∀ q real, t.realPath (absOf root q) = some real →
      ∃ base, t.walk LinkTree.maxLinks [] root = some base ∧ real = base ++ q := by
    intro q real h
    obtain ⟨left, base, hbase, hrest⟩ := walk_splits t _ _ _ _ _ h
    exact ⟨base, hbase, walk_noLinks hlinks hrest⟩
  constructor
  · intro ⟨q, hq, real, folder, hqreal, hfolder, hpre⟩
    obtain ⟨base, hbase, rfl⟩ := hreal q real hqreal
    obtain ⟨base', hbase', rfl⟩ := hreal _ folder hfolder
    rw [hbase] at hbase'
    obtain rfl := Option.some.inj hbase'
    exact ((List.prefix_append_right_inj base).mp hpre).trans hq
  · intro ⟨r, hr⟩
    rw [LinkTree.lookAt] at hlook
    split at hlook
    · cases hlook
    · next real hnames =>
      rw [LinkTree.realPath, ← hr, absOf_append] at hnames
      obtain ⟨left, folder, hfolder, -⟩ := walk_splits t _ _ _ _ _ hnames
      exact ⟨[".bh_filesync"], ⟨r, hr⟩, folder, folder, hfolder, hfolder, List.prefix_rfl⟩

end

/-! ## A spelling that is not looked for -/

/-- A root with one file, and one in the internal folder. -/
def smallRoot : LinkTree Nat where
  nodes := ((FinMap.empty.insert ["a"] (.file 1)).insert [".bh_filesync"] .dir).insert
    [".bh_filesync", "key"] (.file 2)
  closed := by
    intro p n h
    simp only [FinMap.get_insert, FinMap.get_empty] at h ⊢
    split at h
    · next hp => subst hp; simp
    · split at h
      · next hp => subst hp; simp
      · split at h
        · next hp => subst hp; simp
        · cases h
  plain := by
    intro p n h
    simp only [FinMap.get_insert, FinMap.get_empty] at h
    split at h
    · next hp => subst hp; decide +kernel
    · split at h
      · next hp => subst hp; decide +kernel
      · split at h
        · next hp => subst hp; decide +kernel
        · cases h

/-- A crate that takes every name once, and all data. -/
def openZip : ZipCrate Nat where
  accepts _ := true
  acceptsTwice := false
  writeAll _ := true
  finish _ := true

theorem smallRoot_archived :
    ∃ archive, zipPaths openZip smallRoot (.byName smallRoot) [] 1 ["a"] = some (.ok archive) ∧
      (RightArchive smallRoot [] ["a"] archive ↔ VisitsRight openZip smallRoot [] ["a"]) :=
  have h : zipPaths openZip smallRoot (.byName smallRoot) [] 1 ["a"] =
      some (.ok [⟨"a", some 1, ["a"]⟩]) := by decide +kernel
  ⟨_, h, zipPaths_correct_iff h⟩

/-- The internal folder, with a dot before it. -/
theorem dotted_folder_archived :
    ¬∀ (zip : ZipCrate Nat) (t : LinkTree Nat) (ls : t.Listing) (root : PathBuf) (fuel : Nat)
      (rels : List String) (archive : List (ArchiveEntry Nat)),
      zipPaths zip t ls root fuel rels = some (.ok archive) → RightArchive t root rels archive := by
  intro h
  have harchive : zipPaths openZip smallRoot (.byName smallRoot) [] 2 ["./.bh_filesync"] =
      some (.ok [⟨"./.bh_filesync/", none, [".bh_filesync"]⟩,
        ⟨"./.bh_filesync/key", some 2, [".bh_filesync", "key"]⟩]) := by decide +kernel
  refine (h openZip smallRoot (.byName smallRoot) [] 2 ["./.bh_filesync"] _ harchive).clean
    ⟨"./.bh_filesync/key", some 2, [".bh_filesync", "key"]⟩ (by simp) ?_
  refine ⟨[".bh_filesync"], by decide +kernel, [".bh_filesync"], [".bh_filesync"],
    by decide +kernel, by decide +kernel, List.prefix_rfl⟩

end ByteHive.FileBrowser
