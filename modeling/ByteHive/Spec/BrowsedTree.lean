import ByteHive.Native.Browsing

/-!
# What searches and archives hold

`search_dir` and `zip_directory` walk the tree below a directory in the same order and leave out
what is in a folder `.bh_filesync`. A search is the walk, picked out by the query and cut off at the
limit. An archive is the walk, entry by entry, but for what the crate `zip` refuses.
-/

namespace ByteHive.FileBrowser

open FileTree TextLines

/-- The names that no walk looks at. -/
def isInternal (name : String) : Bool := decide (name = ".bh_filesync")

/-- An entry below `base` with no internal folder on the way. -/
def Shown (t : RootTree) (base q : List String) : Prop :=
  ∃ r, r ≠ [] ∧ q = base ++ r ∧ (t.get q).isSome = true ∧ ".bh_filesync" ∉ r

variable {ls : DirListing Content} {t : RootTree}

theorem lists_names (ls : DirListing Content) (t : RootTree) : t.Lists (ls.names t) :=
  ⟨ls.nodup t, ls.mem_iff t⟩

/-- The walk of `search_dir` and `zip_directory`. -/
def shownBelow (ls : DirListing Content) (t : RootTree) (fuel : Nat) (cur : List String) :
    List (List String) :=
  walk (ls.names t) isInternal t fuel cur

theorem mem_shownBelow {base q : List String} :
    q ∈ shownBelow ls t (t.depth + 1) base ↔ Shown t base q := by
  have hskip : ∀ r : List String,
      (∀ c ∈ r, isInternal c = false) ↔ ".bh_filesync" ∉ r := by
    intro r
    constructor
    · intro h hr
      simpa [isInternal] using h _ hr
    · intro h c hc
      rw [isInternal, decide_eq_false_iff_not]
      intro heq
      exact h (heq ▸ hc)
  unfold shownBelow Shown
  rw [mem_walk (lists_names ls t)]
  simp only [hskip]
  constructor
  · rintro ⟨r, hne, -, hq⟩
    exact ⟨r, hne, hq⟩
  · rintro ⟨r, hne, rfl, hsome, hr⟩
    obtain ⟨n, hn⟩ := Option.isSome_iff_exists.mp hsome
    have hlen := length_le_depth hn
    rw [List.length_append] at hlen
    exact ⟨r, hne, by omega, rfl, hsome, hr⟩

/-- There are no names where there is no directory. -/
theorem names_eq_nil {cur : List String} (h : t.isDir cur = false) : ls.names t cur = [] := by
  apply List.eq_nil_iff_forall_not_mem.mpr
  intro c hc
  obtain ⟨n, hn⟩ := Option.isSome_iff_exists.mp ((ls.mem_iff t cur c).mp hc)
  have hdir : t.isDir cur = true :=
    t.isDir_of_prefix hn (List.prefix_append cur [c]) (by simp)
  rw [h] at hdir
  cases hdir

theorem resolveIn_eq_ok {disk : Option RootTree} {rel : String} {p : BrowserPath} {t : RootTree}
    (h : resolveIn disk rel = .ok (p, t)) : disk = some t ∧ resolvePath rel = .ok p := by
  unfold resolveIn at h
  split at h
  · cases h
  · cases h
  · next p' t' hp =>
    cases h
    exact ⟨rfl, hp⟩

/-! ## Searches -/

section

variable {lower : Text → Text} {base : List String} {query : Text} {max : Nat}

/-- The name of the entry at `q` has the text that is searched for in it. -/
def nameHas (lower : Text → Text) (query : Text) (q : List String) : Bool :=
  decide (query <:+: lower (q.getLast?.getD "").toList)

/-- What a search gives of the entry at `q`. -/
def foundAt (t : RootTree) (base q : List String) : BrowserEntry :=
  entryAt t q (q.getLast?.getD "") (relativeText base q)

/-- What a search finds on a walk. -/
def hits (lower : Text → Text) (t : RootTree) (base : List String) (query : Text)
    (places : List (List String)) : List BrowserEntry :=
  (places.filter (nameHas lower query)).map (foundAt t base)

theorem hits_append (places places' : List (List String)) :
    hits lower t base query (places ++ places') =
      hits lower t base query places ++ hits lower t base query places' := by
  rw [hits, List.filter_append, List.map_append]
  rfl

/-- One turn of the loop. -/
theorem searchEntries_cons
    (searchDir : List String → List BrowserEntry → List BrowserEntry) (cur : List String)
    (name : String) (rest : List String) (results : List BrowserEntry) :
    searchEntries lower t base searchDir query max cur (name :: rest) results =
      if max ≤ results.length then results
      else if name = ".bh_filesync" then
        searchEntries lower t base searchDir query max cur rest results
      else
        let found := results ++ hits lower t base query [cur ++ [name]]
        searchEntries lower t base searchDir query max cur rest
          (if t.isDir (cur ++ [name]) then searchDir (cur ++ [name]) found else found) := by
  have hlast : (cur ++ [name]).getLast?.getD "" = name := by simp
  have hone : hits lower t base query [cur ++ [name]] =
      if query <:+: lower name.toList then
        [entryAt t (cur ++ [name]) name (relativeText base (cur ++ [name]))]
      else [] := by
    unfold hits nameHas foundAt
    rw [List.filter_singleton, hlast]
    by_cases hhas : query <:+: lower name.toList <;> simp [hhas]
  rw [searchEntries, hone]
  by_cases hhas : query <:+: lower name.toList
  · simp only [hhas, if_true]
  · simp only [hhas, if_false, List.append_nil]

/-- A name with the entry at it and what is below. -/
theorem walkName_eq {below : List String → List (List String)} {cur : List String} {name : String}
    (h : name ≠ ".bh_filesync") :
    walkName below isInternal t cur name =
      [cur ++ [name]] ++ if t.isDir (cur ++ [name]) then below (cur ++ [name]) else [] := by
  rw [walkName, isInternal, if_neg (by simpa using h)]
  rfl

theorem walkName_internal {below : List String → List (List String)} {cur : List String} :
    walkName below isInternal t cur ".bh_filesync" = [] := by
  rw [walkName, isInternal, if_pos (by simp)]

/-- The loop over the names in a directory, where the recursive call keeps to the walk. -/
theorem searchEntries_eq
    {searchDir : List String → List BrowserEntry → List BrowserEntry}
    {below : List String → List (List String)} (cur : List String)
    (hrec : ∀ path results, results.length ≤ max →
      searchDir path results = (results ++ hits lower t base query (below path)).take max)
    (names : List String) (results : List BrowserEntry) (hlen : results.length ≤ max) :
    searchEntries lower t base searchDir query max cur names results =
      (results ++ hits lower t base query
        (names.flatMap (walkName below isInternal t cur))).take max := by
  induction names generalizing results with
  | nil =>
    have hnone : results ++ hits lower t base query
        ([].flatMap (walkName below isInternal t cur)) = results := by simp [hits]
    rw [hnone, List.take_of_length_le hlen]
    rfl
  | cons name names ih =>
    rw [searchEntries_cons, List.flatMap_cons, hits_append, ← List.append_assoc]
    by_cases hfull : max ≤ results.length
    · rw [if_pos hfull, List.append_assoc, show max = results.length by omega, List.take_left]
    · rw [if_neg hfull]
      by_cases hinternal : name = ".bh_filesync"
      · subst hinternal
        rw [if_pos rfl, ih results hlen, walkName_internal]
        simp [hits]
      · rw [if_neg hinternal, walkName_eq hinternal, hits_append, ← List.append_assoc]
        -- One more result stays within the limit.
        have hfound : (results ++ hits lower t base query [cur ++ [name]]).length ≤ max := by
          have hone : (hits lower t base query [cur ++ [name]]).length ≤ 1 := by
            rw [hits, List.length_map]
            exact List.length_filter_le _ _
          rw [List.length_append]
          omega
        generalize results ++ hits lower t base query [cur ++ [name]] = found at hfound ⊢
        by_cases hdir : t.isDir (cur ++ [name]) = true
        · simp only [hdir, if_true]
          rw [hrec _ _ hfound, ih _ (List.length_take_le _ _), List.take_append_take]
        · dsimp only
          rw [if_neg hdir, if_neg hdir, ih _ hfound]
          simp [hits]

/-- A search is what the walk hits, up to the limit. -/
theorem searchDir_eq (fuel : Nat) (cur : List String) (results : List BrowserEntry)
    (hlen : results.length ≤ max) :
    searchDir lower ls t base query max fuel cur results =
      (results ++ hits lower t base query (shownBelow ls t fuel cur)).take max := by
  induction fuel generalizing cur results with
  | zero =>
    have hnone : results ++ hits lower t base query (shownBelow ls t 0 cur) = results := by
      simp [shownBelow, walk, hits]
    rw [hnone, List.take_of_length_le hlen]
    rfl
  | succ fuel ih =>
    have hloop : searchEntries lower t base (searchDir lower ls t base query max fuel) query max
        cur (ls.names t cur) results =
          (results ++ hits lower t base query
            ((ls.names t cur).flatMap (walkName (shownBelow ls t fuel) isInternal t cur))).take max :=
      searchEntries_eq cur (fun path results hlen => ih path results hlen) (ls.names t cur) results
        hlen
    rw [searchDir]
    by_cases hfull : max ≤ results.length
    · rw [if_pos hfull, show max = results.length by omega, List.take_left]
    · rw [if_neg hfull]
      cases hdir : t.isDir cur with
      | true => exact hloop
      | false =>
        rw [names_eq_nil hdir] at hloop
        rw [shownBelow, walk, names_eq_nil hdir]
        exact hloop

theorem handleSearch_eq_results {disk : Option RootTree} {rel : String} {text : Text}
    {results : List BrowserEntry} {truncated : Bool}
    (h : handleSearch lower ls disk query = .results rel text results truncated) :
    ∃ p t, disk = some t ∧ resolvePath rel = .ok p ∧
      results = searchDir lower ls t p.names text (maxResults query) (t.depth + 1) p.names [] ∧
      truncated = decide (maxResults query ≤ results.length) := by
  rw [handleSearch] at h
  cases hq : param query "q" with
  | none =>
    rw [hq] at h
    cases h
  | some q =>
    rw [hq] at h
    dsimp only at h
    split at h
    · cases h
    · cases hres : resolveIn disk ((param query "path").getD "") with
      | error e =>
        rw [hres] at h
        cases h
      | ok found =>
        obtain ⟨p, t⟩ := found
        rw [hres] at h
        dsimp only at h
        split at h
        · cases h
        · obtain ⟨rfl, rfl, rfl, rfl⟩ := BrowseReply.results.inj h
          unfold resolveIn at hres
          split at hres
          · cases hres
          · cases hres
          · next p' t' hp =>
            cases hres
            exact ⟨p, t, rfl, hp, rfl, rfl⟩

/-- A search gives entries below its directory that are in no internal folder and have the text in
    their names, each place once and no more than the limit. It gives all of them unless it says
    that it was cut off. -/
theorem search_finds (lower : Text → Text) (ls : DirListing Content) (disk : Option RootTree)
    (query : Text) {rel : String} {text : Text} {results : List BrowserEntry} {truncated : Bool}
    (h : handleSearch lower ls disk query = .results rel text results truncated) :
    ∃ (p : BrowserPath) (t : RootTree) (places : List (List String)),
      disk = some t ∧ resolvePath rel = .ok p ∧ results = places.map (foundAt t p.names) ∧
      places.Nodup ∧ places.length ≤ maxResults query ∧
      (∀ q ∈ places, Shown t p.names q ∧ nameHas lower text q = true) ∧
      (truncated = false ↔ places.length < maxResults query) ∧
      (truncated = false → ∀ q, Shown t p.names q → nameHas lower text q = true → q ∈ places) := by
  obtain ⟨p, t, rfl, hp, hresults, htruncated⟩ := handleSearch_eq_results h
  rw [searchDir_eq _ _ _ (Nat.zero_le _), List.nil_append, hits, ← List.map_take] at hresults
  generalize hall : (shownBelow ls t (t.depth + 1) p.names).filter (nameHas lower text) = all
    at hresults
  have hmem : ∀ q, q ∈ all ↔ Shown t p.names q ∧ nameHas lower text q = true := by
    intro q
    rw [← hall, List.mem_filter, mem_shownBelow]
  have hnodup : all.Nodup := by
    rw [← hall]
    exact (nodup_walk (lists_names ls t) _ _).filter _
  have hlength : results.length = (all.take (maxResults query)).length := by
    rw [hresults, List.length_map]
  have hcut : truncated = false ↔ (all.take (maxResults query)).length < maxResults query := by
    rw [htruncated, decide_eq_false_iff_not, hlength, Nat.not_le]
  refine ⟨p, t, all.take (maxResults query), rfl, hp, hresults, hnodup.take,
    List.length_take_le _ _, ?_, hcut, ?_⟩
  · intro q hq
    exact (hmem q).mp (List.mem_of_mem_take hq)
  · intro hfalse q hshown hhas
    -- Less than the limit is all there is.
    have hshort : all.length ≤ maxResults query := by
      have hlt := hcut.mp hfalse
      rw [List.length_take] at hlt
      omega
    rw [List.take_of_length_le hshort]
    exact (hmem q).mpr ⟨hshown, hhas⟩

end

/-- A folder with a file. -/
def notesTree : RootTree :=
  ((FileTree.empty.createDirAll 0 ["docs"]).bind
    (·.write ["docs", "notes.txt"] [104, 105] 5000)).getD .empty

theorem search_finds_notes :
    handleSearch id .byName (some notesTree) "path=docs&q=notes".toList =
      .results "docs" "notes".toList
        [⟨"notes.txt", "notes.txt", false, some 2, 5, "txt".toList⟩] false ∧
    ∃ (p : BrowserPath) (t : RootTree) (places : List (List String)), some notesTree = some t ∧
      resolvePath "docs" = .ok p ∧
      ∀ q, Shown t p.names q → nameHas id "notes".toList q = true → q ∈ places := by
  have h : handleSearch id .byName (some notesTree) "path=docs&q=notes".toList =
      .results "docs" "notes".toList
        [⟨"notes.txt", "notes.txt", false, some 2, 5, "txt".toList⟩] false := by
    decide +kernel
  obtain ⟨p, t, places, ht, hp, -, -, -, -, -, hall⟩ := search_finds id .byName _ _ h
  exact ⟨h, p, t, places, ht, hp, hall rfl⟩

/-! ## Archives -/

section

variable {zip : ZipCrate Content} {base : List String}

/-- The entry that an archive has for what is at `q`. -/
def archivedAt (t : RootTree) (base q : List String) : ArchiveEntry Content :=
  if t.isDir q then ⟨relativeText base q ++ "/", none, q⟩ else ⟨relativeText base q, t.read q, q⟩

/-- The entries of an archive, added one after the other. -/
def addAll (zip : ZipCrate Content) (archive entries : List (ArchiveEntry Content)) :
    List (ArchiveEntry Content) :=
  entries.foldl zip.add archive

/-- The loop over the names in a directory, where the recursive call keeps to the walk. -/
theorem zipEntries_eq
    {addDir : List (ArchiveEntry Content) → List String → List (ArchiveEntry Content)}
    {below : List String → List (List String)} (cur : List String)
    (hrec : ∀ archive path, addDir archive path =
      addAll zip archive ((below path).map (archivedAt t base)))
    (names : List String) (hnames : ∀ c ∈ names, (t.get (cur ++ [c])).isSome = true)
    (archive : List (ArchiveEntry Content)) :
    zipEntries zip t base addDir cur names archive =
      addAll zip archive
        ((names.flatMap (walkName below isInternal t cur)).map (archivedAt t base)) := by
  induction names generalizing archive with
  | nil => rfl
  | cons name names ih =>
    have ih := ih fun c hc => hnames c (by simp [hc])
    rw [zipEntries, List.flatMap_cons, List.map_append, addAll, List.foldl_append]
    by_cases hinternal : name = ".bh_filesync"
    · subst hinternal
      rw [if_pos rfl, ih, walkName_internal]
      rfl
    · rw [if_neg hinternal, walkName_eq hinternal]
      dsimp only
      cases hdir : t.isDir (cur ++ [name]) with
      | true =>
        simp only [if_true]
        rw [ih, hrec, List.map_append, List.foldl_append]
        unfold archivedAt
        rw [List.map_singleton, if_pos hdir]
        rfl
      | false =>
        obtain ⟨n, hn⟩ := Option.isSome_iff_exists.mp (hnames name (by simp))
        have hread : ∃ data, t.read (cur ++ [name]) = some data := by
          cases n with
          | dir m => simp [isDir, hn, FileNode.isDir] at hdir
          | file data m => exact ⟨data, read_eq_some_iff.mpr ⟨m, hn⟩⟩
        obtain ⟨data, hdata⟩ := hread
        simp only [Bool.false_eq_true, if_false, hdata]
        rw [ih, List.append_nil, List.map_singleton, archivedAt, if_neg (by simp [hdir]), hdata]
        rfl

theorem zipDir_eq (fuel : Nat) (archive : List (ArchiveEntry Content)) (cur : List String) :
    zipDir zip ls t base fuel archive cur =
      addAll zip archive ((shownBelow ls t fuel cur).map (archivedAt t base)) := by
  induction fuel generalizing archive cur with
  | zero => rfl
  | succ fuel ih =>
    exact zipEntries_eq cur ih (ls.names t cur) (fun c hc => (ls.mem_iff t cur c).mp hc) archive

/-- Every entry of an archive is one that was to be added, in that order. -/
theorem addAll_sublist (archive entries : List (ArchiveEntry Content)) :
    ∃ added, added.Sublist entries ∧ addAll zip archive entries = archive ++ added := by
  induction entries generalizing archive with
  | nil => exact ⟨[], List.Sublist.refl _, (List.append_nil archive).symm⟩
  | cons entry entries ih =>
    obtain ⟨added, hsub, heq⟩ := ih (zip.add archive entry)
    rw [addAll, List.foldl_cons]
    rw [addAll] at heq
    rw [heq, ZipCrate.add]
    split
    · exact ⟨entry :: added, hsub.cons_cons entry, by simp⟩
    · exact ⟨added, hsub.cons entry, rfl⟩

/-- The crate takes an entry of this name and with this data, if the name is a new one. -/
def Takes (zip : ZipCrate Content) (entry : ArchiveEntry Content) : Prop :=
  zip.accepts entry.name = true ∧ entry.content.all zip.writeAll = true

/-- Entries that the crate takes are all added, when no two have one name. -/
theorem addAll_takes (archive entries : List (ArchiveEntry Content))
    (htakes : ∀ entry ∈ entries, Takes zip entry)
    (hnames : ((archive ++ entries).map (·.name)).Nodup) :
    addAll zip archive entries = archive ++ entries := by
  induction entries generalizing archive with
  | nil => exact (List.append_nil archive).symm
  | cons entry entries ih =>
    obtain ⟨haccepts, hwrites⟩ := htakes entry (by simp)
    have hnew : entry.name ∉ archive.map (·.name) := by
      rw [List.map_append, List.nodup_append] at hnames
      intro hmem
      exact hnames.2.2 entry.name hmem entry.name (by simp) rfl
    have hadd : zip.add archive entry = archive ++ [entry] := by
      rw [ZipCrate.add, ZipCrate.starts, haccepts, hwrites, decide_eq_true hnew]
      simp
    have hassoc : archive ++ [entry] ++ entries = archive ++ entry :: entries := by simp
    rw [addAll, List.foldl_cons, hadd]
    refine (ih _ (fun e he => htakes e (by simp [he])) ?_).trans hassoc
    rw [hassoc]
    exact hnames

/-- A folder is downloaded as what is below it and in no internal folder, each place once and a
    directory before what is in it. Nothing is missing when the crate takes all that is there. -/
theorem download_holds (zip : ZipCrate Content) (ls : DirListing Content) (disk : Option RootTree)
    (query : Text) {name : String} {entries : List (ArchiveEntry Content)}
    (h : handleDownload zip ls disk query = .archive name entries) :
    ∃ (rel : String) (p : BrowserPath) (t : RootTree) (places : List (List String)),
      disk = some t ∧ param query "path" = some rel ∧ resolvePath rel = .ok p ∧
      t.isDir p.names = true ∧ (∀ q, q ∈ places ↔ Shown t p.names q) ∧
      places.Pairwise (fun q q' => ¬q' <+: q) ∧
      entries.Sublist (places.map (archivedAt t p.names)) ∧
      ((∀ q, Shown t p.names q → Takes zip (archivedAt t p.names q)) →
        ((places.map (archivedAt t p.names)).map (·.name)).Nodup →
        entries = places.map (archivedAt t p.names)) := by
  rw [handleDownload] at h
  cases hrel : param query "path" with
  | none =>
    rw [hrel] at h
    cases h
  | some rel =>
    rw [hrel] at h
    dsimp only at h
    cases hres : resolveIn disk rel with
    | error e =>
      rw [hres] at h
      cases h
    | ok found =>
      obtain ⟨p, t⟩ := found
      rw [hres] at h
      dsimp only at h
      obtain ⟨rfl, hp⟩ := resolveIn_eq_ok hres
      split at h
      · next hdir =>
        obtain ⟨-, rfl⟩ := BrowseReply.archive.inj h
        have hplaces : ∀ q, q ∈ shownBelow ls t (t.depth + 1) p.names ↔ Shown t p.names q :=
          fun q => mem_shownBelow
        refine ⟨rel, p, t, shownBelow ls t (t.depth + 1) p.names, rfl, rfl, hp, hdir, hplaces,
          pairwise_walk (lists_names ls t) _ _, ?_, ?_⟩
        · rw [zipDir_eq]
          obtain ⟨added, hsub, heq⟩ := addAll_sublist []
            ((shownBelow ls t (t.depth + 1) p.names).map (archivedAt t p.names))
          rw [heq]
          exact hsub
        · intro htakes hnames
          rw [zipDir_eq]
          refine addAll_takes [] _ ?_ hnames
          intro entry hentry
          obtain ⟨q, hq, rfl⟩ := List.mem_map.mp hentry
          exact htakes q ((hplaces q).mp hq)
      · split at h <;> cases h

end

/-- A crate that takes everything. -/
def lenientZip : ZipCrate Content := ⟨fun _ => true, true, fun _ => true, fun _ => true⟩

theorem download_holds_notes :
    handleDownload lenientZip .byName (some notesTree) "path=/".toList =
      .archive "download.zip" [⟨"docs/", none, ["docs"]⟩,
        ⟨"docs/notes.txt", some [104, 105], ["docs", "notes.txt"]⟩] ∧
    ∃ (p : BrowserPath) (t : RootTree) (places : List (List String)), some notesTree = some t ∧
      p.names = [] ∧ ∀ q, q ∈ places ↔ Shown t p.names q := by
  have h : handleDownload lenientZip .byName (some notesTree) "path=/".toList =
      .archive "download.zip" [⟨"docs/", none, ["docs"]⟩,
        ⟨"docs/notes.txt", some [104, 105], ["docs", "notes.txt"]⟩] := by
    decide +kernel
  obtain ⟨rel, p, t, places, ht, hrel, hp, -, hplaces, -⟩ := download_holds lenientZip .byName _ _ h
  have hpath : param "path=/".toList "path" = some "/" := by decide +kernel
  obtain rfl : "/" = rel := Option.some.inj (hpath.symm.trans hrel)
  have hroot : resolvePath "/" = .ok ⟨[], true⟩ := by decide +kernel
  cases hroot.symm.trans hp
  exact ⟨h, ⟨[], true⟩, t, places, ht, rfl, hplaces⟩

end ByteHive.FileBrowser
