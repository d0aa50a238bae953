import ByteHive.Spec.ConfigSplice

/-!
# The config file after a rewrite

The lists are printed as sections, each of its own name. Where the loop sees the sections of the
file as they are, the document that is written is the one that was read, with the lists of the
owned keys replaced.

## Key results

- `sections_serialize`: what `serialize_auth_sections` prints
- `splice_replaces_owned`: the two rewrites replace the owned lists and nothing else
- `splice_drops_commented`: a comment behind a header that follows an owned section
-/

namespace ByteHive

open TextLines TomlDoc

namespace TomlCrate

variable {V : Type} (crate : TomlCrate V)

/-- What the crate is relied on for: it prints a list that is not empty as sections of its name,
    the first line being a header, and reads what it has printed. -/
def Prints (list : ConfigList) : Prop :=
  list.isEmpty = false → ∃ s is, crate.toStringPretty list = some s ∧ '\r' ∉ s ∧
    (∃ l ls, lines s = l :: ls ∧ (trim l).head? = some '[') ∧
    items s = some (is.map (list.name, ·)) ∧ is ≠ [] ∧
    crate.value is = some (crate.encode list)

/-- The document with the lists in the place of what it had under their names. -/
def replaced (lists : List ConfigList) (d : Key → Option V) (key : Key) : Option V :=
  match lists.find? fun list => decide (list.name = key) with
  | some list => if list.isEmpty = true then none else some (crate.encode list)
  | none => d key

/-- A text with a section for each of the lists that is not empty. -/
structure Sections (lists : List ConfigList) (t : Text) (fs : List (Key × Item)) : Prop where
  noReturn : '\r' ∉ t
  reads : ∀ v : Walk, v.inside = none → ∃ u, u.inside = none ∧ walk v (lines t) = some (fs, u)
  keys : ∀ i ∈ fs, ∃ list ∈ lists, list.isEmpty = false ∧ i.1 = list.name
  values : ∀ list ∈ lists, list.isEmpty = false → relevant list.name fs ≠ [] ∧
    crate.value (relevant list.name fs) = some (crate.encode list)

variable {crate} {lists : List ConfigList} {t s : Text} {fs : List (Key × Item)}
  {list : ConfigList}

/-- What is printed says the same wherever it comes to stand. -/
theorem walk_of_printed {is : List (Key × Item)}
    (hheader : ∃ l ls, lines s = l :: ls ∧ (trim l).head? = some '[') (his : items s = some is)
    {v : Walk} (hv : v.inside = none) :
    ∃ u, u.inside = none ∧ walk v (lines s) = some (is, u) := by
  obtain ⟨l, ls, hlines, hhead⟩ := hheader
  obtain ⟨⟨is', u⟩, hwalk, hend⟩ := Option.bind_eq_some_iff.mp his
  rw [Option.ite_none_right_eq_some, Option.some.injEq] at hend
  obtain ⟨hu, rfl⟩ := hend
  refine ⟨u, hu, ?_⟩
  rw [hlines] at hwalk ⊢
  exact walk_of_header rfl hv hhead hwalk

theorem sections_nil : crate.Sections [] [] [] := by
  constructor
  · simp
  · exact fun v hv => ⟨v, hv, rfl⟩
  · exact fun i hi => (by cases hi)
  · exact fun list hlist => (by cases hlist)

theorem Sections.push (hs : crate.Sections lists t fs) (hended : t = [] ∨ ∃ u, t = u ++ ['\n'])
    (hprints : crate.Prints list) (hname : ∀ other ∈ lists, other.name ≠ list.name) :
    ∃ fs', crate.Sections (lists ++ [list]) (crate.pushSection t list) fs' := by
  rw [pushSection]
  split
  · next hempty =>
    refine ⟨fs, hs.noReturn, hs.reads, ?_, ?_⟩
    · intro i hi
      obtain ⟨other, hother, hi⟩ := hs.keys i hi
      exact ⟨other, List.mem_append_left _ hother, hi⟩
    · intro other hother hne
      cases List.mem_append.mp hother with
      | inl hother => exact hs.values other hother hne
      | inr hother =>
        rw [List.mem_singleton] at hother
        rw [hother, hempty] at hne
        cases hne
  · next hempty =>
    rw [Bool.not_eq_true] at hempty
    obtain ⟨s, is, hprint, hr, hheader, hitems, hne, hvalue⟩ := hprints hempty
    rw [hprint]
    have hold : relevant list.name fs = [] := by
      apply relevant_eq_nil
      intro i hi heq
      obtain ⟨other, hother, -, hi⟩ := hs.keys i hi
      exact hname other hother (hi.symm.trans heq)
    refine ⟨fs ++ is.map (list.name, ·), ?_, ?_, ?_, ?_⟩
    · intro hmem
      simp only [Option.map_some, Option.getD_some, List.mem_append, List.mem_singleton] at hmem
      rcases hmem with (hmem | hmem) | hmem
      · exact hs.noReturn hmem
      · exact hr hmem
      · cases hmem
    · intro v hv
      obtain ⟨u, hu, hwalk⟩ := hs.reads v hv
      obtain ⟨x, hx, hprinted⟩ := walk_of_printed hheader hitems hu
      refine ⟨x, hx, ?_⟩
      show walk v (lines (t ++ s ++ ['\n'])) = _
      rw [List.append_assoc, lines_append_of_ended hended]
      exact walk_append.mpr ⟨fs, u, _, hwalk, walk_closed hr hprinted hx, rfl⟩
    · intro i hi
      cases List.mem_append.mp hi with
      | inl hi =>
        obtain ⟨other, hother, hi⟩ := hs.keys i hi
        exact ⟨other, List.mem_append_left _ hother, hi⟩
      | inr hi =>
        obtain ⟨x, -, rfl⟩ := List.mem_map.mp hi
        exact ⟨list, by simp, hempty, rfl⟩
    · intro other hother hothers
      cases List.mem_append.mp hother with
      | inl hother =>
        have hnone : relevant other.name (is.map (list.name, ·)) = [] := by
          apply relevant_eq_nil
          intro i hi heq
          obtain ⟨x, -, rfl⟩ := List.mem_map.mp hi
          exact hname other hother heq.symm
        rw [relevant_append, hnone, List.append_nil]
        exact hs.values other hother hothers
      | inr hother =>
        rw [List.mem_singleton] at hother
        rw [hother, relevant_append, hold, List.nil_append, relevant_map]
        exact ⟨hne, hvalue⟩

theorem pushSection_ended (h : t = [] ∨ ∃ u, t = u ++ ['\n']) (list : ConfigList) :
    crate.pushSection t list = [] ∨ ∃ u, crate.pushSection t list = u ++ ['\n'] := by
  rw [pushSection]
  split
  · exact h
  · cases crate.toStringPretty list with
    | none => exact h
    | some s => exact .inr ⟨t ++ s, rfl⟩

/-- What `serialize_auth_sections` prints. -/
theorem sections_serialize {users : List UserEntry} {groups : List Group} {apiKeys : List ApiKey}
    (hprints : ∀ list ∈ [ConfigList.users users, .groups groups, .apiKeys apiKeys],
      crate.Prints list) :
    ∃ fs, crate.Sections [.users users, .groups groups, .apiKeys apiKeys]
      (crate.serializeAuthSections users groups apiKeys) fs := by
  have hend : crate.pushSection [] (.users users) = [] ∨
      ∃ u, crate.pushSection [] (.users users) = u ++ ['\n'] :=
    pushSection_ended (.inl rfl) (.users users)
  obtain ⟨fs, husers⟩ := sections_nil.push (.inl rfl) (hprints (.users users) (by simp)) (by simp)
  obtain ⟨gs, hgroups⟩ := husers.push hend (hprints (.groups groups) (by simp)) (by
    intro other hother
    rw [List.nil_append, List.mem_singleton] at hother
    rw [hother]
    show "users".toList ≠ "groups".toList
    decide)
  obtain ⟨ks, hkeys⟩ := hgroups.push (pushSection_ended hend _)
      (hprints (.apiKeys apiKeys) (by simp)) (by
    intro other hother
    simp only [List.nil_append, List.cons_append, List.mem_cons, List.not_mem_nil,
      or_false] at hother
    cases hother with
    | inl h => rw [h]; show "users".toList ≠ "api_keys".toList; decide
    | inr h => rw [h]; show "groups".toList ≠ "api_keys".toList; decide)
  exact ⟨ks, hkeys⟩

/-- What is read from the lines that the lists have made. -/
theorem Sections.replaced_eq (hs : crate.Sections lists t fs) (hnodup : (lists.map (·.name)).Nodup)
    (d : Key → Option V) (key : Key) :
    (if key ∈ lists.map (·.name) then
      if relevant key fs = [] then none else crate.value (relevant key fs) else d key) =
      crate.replaced lists d key := by
  cases hfind : lists.find? fun list => decide (list.name = key) with
  | some list =>
    have hname : list.name = key := by
      have hfound := List.find?_some hfind
      exact of_decide_eq_true hfound
    have hmem : list ∈ lists := List.mem_of_find?_eq_some hfind
    simp only [replaced, hfind]
    rw [← hname, if_pos (List.mem_map_of_mem hmem)]
    split
    · next hnone =>
      split
      · rfl
      · next hempty =>
        rw [Bool.not_eq_true] at hempty
        exact absurd hnone (hs.values list hmem hempty).1
    · next hsome =>
      obtain ⟨i, hi, heq⟩ := mem_of_relevant hsome
      obtain ⟨other, hother, hne, hi⟩ := hs.keys i hi
      have hsame := List.inj_on_of_nodup_map hnodup hother hmem (hi.symm.trans heq)
      rw [hsame] at hne
      rw [if_neg (by rw [hne]; simp), (hs.values list hmem hne).2]
  | none =>
    simp only [replaced, hfind]
    rw [if_neg]
    intro hkey
    obtain ⟨list, hlist, hname⟩ := List.mem_map.mp hkey
    exact List.find?_eq_none.mp hfind list hlist (decide_eq_true hname)

/-- A rewrite of a file that the loop sees as it is. -/
theorem Sections.parse_splice (hs : crate.Sections lists t fs)
    (hnodup : (lists.map (·.name)).Nodup) {original : Text} {d : Key → Option V}
    (hd : crate.parse original = some d)
    (hspliceable : Spliceable (lists.map (·.name)) original) :
    crate.parse (splice (lists.map (·.name)) original t) = some (crate.replaced lists d) := by
  obtain ⟨is, his, -⟩ := Option.bind_eq_some_iff.mp hd
  obtain ⟨bs, as, hkept, hitems⟩ := items_splice his hspliceable hs.noReturn hs.reads
  have hparse := crate.parse_replace hd his hkept hitems
    (by
      intro i hi
      obtain ⟨list, hlist, -, hi⟩ := hs.keys i hi
      rw [hi]
      exact List.mem_map_of_mem hlist)
    (by
      intro i hi
      obtain ⟨list, hlist, hne, hi⟩ := hs.keys i hi
      rw [hi, (hs.values list hlist hne).2]
      rfl)
  rw [hparse, Option.some.injEq]
  funext key
  exact hs.replaced_eq hnodup d key

/-- Both rewrites give the document that was read with the owned lists replaced, whatever the lists
    are, when the loop sees the file's sections as they are. -/
theorem splice_replaces_owned {original : Text} {d : Key → Option V}
    (hd : crate.parse original = some d) :
    (Spliceable authNames original →
      ∀ (users : List UserEntry) (groups : List Group) (apiKeys : List ApiKey),
      (∀ list ∈ [ConfigList.users users, .groups groups, .apiKeys apiKeys], crate.Prints list) →
      crate.parse (spliceAuthSections original
          (crate.serializeAuthSections users groups apiKeys)) =
        some (crate.replaced [.users users, .groups groups, .apiKeys apiKeys] d)) ∧
    (Spliceable knownClientsNames original → ∀ clients : List KnownClient,
      crate.Prints (.filesyncKnownClients clients) →
      crate.parse (crate.spliceKnownClients original clients) =
        some (crate.replaced [.filesyncKnownClients clients] d)) := by
  constructor
  · intro hspliceable users groups apiKeys hprints
    obtain ⟨fs, hs⟩ := sections_serialize hprints
    have hnodup : authNames.Nodup := by decide
    exact hs.parse_splice hnodup hd hspliceable
  · intro hspliceable clients hprints
    have hnodup : knownClientsNames.Nodup := by decide
    rw [spliceKnownClients]
    split
    · next hempty =>
      have hs : crate.Sections [.filesyncKnownClients clients] [] [] := by
        constructor
        · simp
        · exact fun v hv => ⟨v, hv, rfl⟩
        · exact fun i hi => (by cases hi)
        · intro list hlist hne
          rw [List.mem_singleton] at hlist
          rw [hlist, show (ConfigList.filesyncKnownClients clients).isEmpty = clients.isEmpty from
            rfl, hempty] at hne
          cases hne
      exact hs.parse_splice hnodup hd hspliceable
    · next hempty =>
      rw [Bool.not_eq_true] at hempty
      obtain ⟨s, is, hprint, hr, hheader, hitems, hne, hvalue⟩ := hprints hempty
      have hs : crate.Sections [.filesyncKnownClients clients] s
          (is.map ((ConfigList.filesyncKnownClients clients).name, ·)) := by
        constructor
        · exact hr
        · exact fun v hv => walk_of_printed hheader hitems hv
        · intro i hi
          obtain ⟨x, -, rfl⟩ := List.mem_map.mp hi
          exact ⟨_, List.mem_singleton_self _, hempty, rfl⟩
        · intro list hlist _
          rw [List.mem_singleton] at hlist
          rw [hlist, relevant_map]
          exact ⟨hne, hvalue⟩
      rw [hprint]
      exact hs.parse_splice hnodup hd hspliceable

/-! ## Two files -/

/-- A section of plain strings. -/
def printSection (name : String) (fields : List (String × String)) : Text :=
  "[[".toList ++ name.toList ++ "]]\n".toList ++ fields.flatMap fun field =>
    field.1.toList ++ " = \"".toList ++ field.2.toList ++ "\"\n".toList

/-- The sections of accounts and clients, which the examples print. -/
def printPlain : ConfigList → Option Text
  | .users us => some (join (us.map fun u => printSection "users"
      [("username", u.username), ("password_hash", u.passwordHash),
        ("display_name", u.displayName)]))
  | .filesyncKnownClients cs => some (join (cs.map fun c => printSection "filesync_known_clients"
      [("node_id", c.nodeId), ("fingerprint", c.fingerprint), ("label", c.label),
        ("addr", c.addr)]))
  | .groups _ | .apiKeys _ => none

/-- A crate whose values are the lines that make them. -/
def linesCrate : TomlCrate (List Item) where
  value := some
  toStringPretty := printPlain
  encode list := (((printPlain list).bind items).map fun is => is.map (·.2)).getD []

def exampleUsers : List UserEntry := [⟨"ann", "h1", "Ann"⟩, ⟨"bob", "h2", "Bob # 2"⟩]

def exampleClients : List KnownClient := [⟨"n1", "ab", "laptop", .allowed, "10.0.0.7", 1, 2⟩]

/-- A file with comments, with a value of several lines that speaks of a header, and with other
    sections before, between and after those that are owned. -/
def plainFile : Text :=
  join (["# ByteHive", "[framework] # [[users]]", "http_addr = \"0.0.0.0:9000\"", "",
    "[[ users ]]", "username = \"ann\"", "password_hash = \"h1\"", "", "# sync",
    "[apps.filesync]", "exclude = [", "  \"*.tmp\", # [[users]]", "]", "",
    "[[filesync_known_clients]]", "fingerprint = \"ab\"", "", "[[shares]]",
    "path = '/srv'"].map String.toList)

/-- A file with a comment behind the header that follows the accounts. -/
def commentedFile : Text :=
  join (["[[users]]", "username = \"ann\"", "password_hash = \"h1\"", "",
    "[[filesync_known_clients]] # laptop", "fingerprint = \"ab\""].map String.toList)

theorem prints_of_check {list : ConfigList}
    (h : list.isEmpty = true ∨ ((printPlain list).any fun s =>
      decide ('\r' ∉ s) && decide (((lines s).head?.bind fun l => (trim l).head?) = some '[') &&
        decide (items s = some ((linesCrate.encode list).map (list.name, ·))) &&
        decide (linesCrate.encode list ≠ [])) = true) : linesCrate.Prints list := by
  intro hne
  cases h with
  | inl h => rw [hne] at h; cases h
  | inr h =>
    obtain ⟨s, hs, h⟩ := (Option.any_eq_true _ _).mp h
    simp only [Bool.and_eq_true, decide_eq_true_eq] at h
    obtain ⟨⟨⟨hr, hheader⟩, hitems⟩, hencode⟩ := h
    refine ⟨s, linesCrate.encode list, hs, hr, ?_, hitems, hencode, rfl⟩
    cases hlines : lines s with
    | nil => rw [hlines] at hheader; cases hheader
    | cons l ls =>
      rw [hlines] at hheader
      exact ⟨l, ls, rfl, hheader⟩

theorem example_prints : (∀ list ∈ [ConfigList.users exampleUsers, .groups [], .apiKeys []],
    linesCrate.Prints list) ∧ linesCrate.Prints (.filesyncKnownClients exampleClients) := by
  constructor
  · intro list hlist
    apply prints_of_check
    simp only [List.mem_cons, List.not_mem_nil, or_false] at hlist
    rcases hlist with rfl | rfl | rfl
    · right
      decide +kernel
    · exact .inl rfl
    · exact .inl rfl
  · apply prints_of_check
    right
    decide +kernel

theorem plain_file_rewritten :
    ∃ d, linesCrate.parse plainFile = some d ∧
      linesCrate.parse (spliceAuthSections plainFile
          (linesCrate.serializeAuthSections exampleUsers [] [])) =
        some (linesCrate.replaced [.users exampleUsers, .groups [], .apiKeys []] d) ∧
      linesCrate.parse (linesCrate.spliceKnownClients plainFile exampleClients) =
        some (linesCrate.replaced [.filesyncKnownClients exampleClients] d) := by
  have hparse : (linesCrate.parse plainFile).isSome = true := by decide +kernel
  have hauth : Spliceable authNames plainFile := by decide +kernel
  have hclients : Spliceable knownClientsNames plainFile := by decide +kernel
  obtain ⟨d, hd⟩ := Option.isSome_iff_exists.mp hparse
  have hboth := splice_replaces_owned hd
  exact ⟨d, hd, hboth.1 hauth exampleUsers [] [] example_prints.1,
    hboth.2 hclients exampleClients example_prints.2⟩

/-- A header with a comment behind it is not seen where it follows an owned section: the clients
    are gone from the file with the old accounts. -/
theorem splice_drops_commented :
    ∃ d, linesCrate.parse commentedFile = some d ∧
      (∀ list ∈ [ConfigList.users exampleUsers, .groups [], .apiKeys []],
        linesCrate.Prints list) ∧
      d "filesync_known_clients".toList ≠ none ∧
      (linesCrate.parse (spliceAuthSections commentedFile
          (linesCrate.serializeAuthSections exampleUsers [] []))).map
        (· "filesync_known_clients".toList) = some none ∧
      linesCrate.parse (spliceAuthSections commentedFile
          (linesCrate.serializeAuthSections exampleUsers [] [])) ≠
        some (linesCrate.replaced [.users exampleUsers, .groups [], .apiKeys []] d) := by
  have hparse : (linesCrate.parse commentedFile).any (fun d =>
      decide (d "filesync_known_clients".toList ≠ none)) = true := by
    decide +kernel
  have hgone : (linesCrate.parse (spliceAuthSections commentedFile
      (linesCrate.serializeAuthSections exampleUsers [] []))).map
        (· "filesync_known_clients".toList) = some none := by
    decide +kernel
  obtain ⟨d, hd, hsome⟩ := (Option.any_eq_true _ _).mp hparse
  have hne := of_decide_eq_true hsome
  refine ⟨d, hd, example_prints.1, hne, hgone, ?_⟩
  intro hsame
  rw [hsame, Option.map_some, Option.some.injEq] at hgone
  have hother : linesCrate.replaced [.users exampleUsers, .groups [], .apiKeys []] d
      "filesync_known_clients".toList = d "filesync_known_clients".toList := rfl
  exact hne (hother.symm.trans hgone)

end TomlCrate

end ByteHive
