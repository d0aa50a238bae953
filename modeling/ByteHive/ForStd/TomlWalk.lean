import ByteHive.ForStd.TomlDoc

/-!
# Reading the lines of a TOML document

What a line says depends on the lines before it through the value they leave open and the last
header. The lemmas say what may be done to the lines of a document without a change of what they
say: trimming at both ends, line breaks, blank lines, and another place for a part that starts with
a header.

## Key results

- `walk_trimEnd_join`, `walk_trimStart_join`: joined lines may be trimmed at both ends
- `Walk.line_of_header`: what a header starts does not depend on what came before it
- `Reader.parse_replace`: the document in which the lines of some keys are others
-/

namespace TomlDoc

open TextLines

/-! ## Spaces at the end of a line -/

variable {w w' v : Walk} {l t : Text} {ls : List Text} {is : List (Key × Item)}

theorem Scan.plain_of_whitespace {c : Char} (hc : isWhitespace c = true) (depth : Nat) :
    Scan.plain depth c = ⟨depth, .value⟩ := by
  have hne : ∀ d, isWhitespace d = false → c ≠ d := by
    intro d hd heq
    rw [heq, hd] at hc
    cases hc
  rw [Scan.plain, if_neg (hne _ (by decide)), if_neg (hne _ (by decide)),
    if_neg (hne _ (by decide)),
    if_neg (not_or.mpr ⟨hne _ (by decide), hne _ (by decide)⟩),
    if_neg (not_or.mpr ⟨hne _ (by decide), hne _ (by decide)⟩)]

theorem Scan.newline_char {s : Scan} {c : Char} (hc : isWhitespace c = true) :
    (s.char c).newline = s.newline := by
  have hquote : ∀ q : Quote, c ≠ q.char := by
    intro q heq
    rw [heq] at hc
    cases q with
    | basic => revert hc; decide
    | literal => revert hc; decide
  have hescape : ∀ q, Scan.escapes q c = false := by
    intro q
    rw [Scan.escapes, decide_eq_false_iff_not, not_and]
    intro _ heq
    rw [heq] at hc
    revert hc
    decide
  obtain ⟨depth, mode⟩ := s
  cases mode with
  | value => simp [Scan.char, Scan.plain_of_whitespace hc]
  | comment => rfl
  | opened q => simp [Scan.char, hquote q, hescape q, Scan.newline]
  | empty q => simp [Scan.char, hquote q, Scan.plain_of_whitespace hc, Scan.newline]
  | single q => simp [Scan.char, hquote q, hescape q, Scan.newline]
  | singleEscape => rfl
  | multi q quotes =>
    simp only [Scan.char, hquote q, if_false, hescape q, Scan.plain_of_whitespace hc]
    split
    · next h => simp [Scan.newline, h]
    · next h => simp [Scan.newline, h]
  | multiEscape => rfl

/-- Spaces at the end of a line do not change what it leaves open. -/
theorem Scan.newline_foldl_trimEnd (s : Scan) (t : Text) :
    ((trimEnd t).foldl Scan.char s).newline = (t.foldl Scan.char s).newline := by
  have hspaces : ∀ (u : Text) (s : Scan), (∀ c ∈ u, isWhitespace c = true) →
      (u.foldl Scan.char s).newline = s.newline := by
    intro u
    induction u with
    | nil => intro s _; rfl
    | cons c u ih =>
      intro s hu
      rw [List.foldl_cons, ih _ (fun d hd => hu d (List.mem_cons_of_mem c hd)),
        Scan.newline_char (hu c List.mem_cons_self)]
  have hsplit : trimEnd t ++ t.rtakeWhile isWhitespace = t :=
    List.rdropWhile_append_rtakeWhile
  conv => rhs; rw [← hsplit, List.foldl_append]
  exact (hspaces _ _ (fun c hc => List.mem_rtakeWhile_imp hc)).symm

theorem Unclosed.newline_scan (u : Unclosed) : u.scan.newline = some (some u) := by
  cases u with
  | brackets depth => rfl
  | string q depth => rfl

namespace Walk

theorem inside_of_value {key : Key} {s : Scan} {i : Option (Key × Item)}
    (h : w.value key s t = some (i, w')) (hw' : w'.inside = none) : s.newline = some none := by
  obtain ⟨unclosed, hs, heq⟩ := Option.map_eq_some_iff.mp h
  rw [Prod.mk.injEq] at heq
  rw [← heq.2, Option.map_eq_none_iff] at hw'
  rw [hs, hw']

/-- Where a value ends on the line, only the trimmed line counts. -/
theorem value_congr {key : Key} {s s' : Scan} {t t' : Text} {i : Option (Key × Item)}
    (h : w.value key s t = some (i, w')) (hw' : w'.inside = none)
    (hs : s'.newline = s.newline) (ht : trimEnd t' = trimEnd t) :
    w.value key s' t' = some (i, w') := by
  have hnone := inside_of_value h hw'
  rw [value, hnone] at h
  rw [value, hs, hnone, ← h]
  simp [ht]

theorem notMem_of_line {i : Option (Key × Item) × Walk} (h : w.line l = some i) : '\r' ∉ l := by
  intro hr
  rw [line, if_pos hr] at h
  cases h

theorem line_inside {key : Key} {u : Unclosed} (hr : '\r' ∉ l)
    (hw : w.inside = some (key, u)) :
    w.line l = w.value key (l.foldl Scan.char u.scan) l := by
  rw [line, if_neg hr]
  simp only [hw]

theorem line_outside (hr : '\r' ∉ l) (hw : w.inside = none) :
    w.line l = if (leading l).all isBlank = true then w.outside l (trim l)
      else none := by
  rw [line, if_neg hr]
  simp only [hw]

theorem line_trimEnd {i : Option (Key × Item)} (h : w.line l = some (i, w'))
    (hw' : w'.inside = none) : w.line (trimEnd l) = some (i, w') := by
  have hr := notMem_of_line h
  have hr' : '\r' ∉ trimEnd l := fun hmem => hr ((isPrefix_trimEnd l).subset hmem)
  cases hw : w.inside with
  | some k =>
    rw [line_inside hr hw] at h
    rw [line_inside hr' hw]
    exact value_congr h hw' (Scan.newline_foldl_trimEnd _ l) (trimEnd_trimEnd l)
  | none =>
    rw [line_outside hr hw] at h
    rw [line_outside hr' hw, trim_trimEnd]
    split at h
    · next hblank =>
      have hblank' : (leading (trimEnd l)).all isBlank = true := by
        rw [List.all_eq_true] at hblank ⊢
        intro c hc
        exact hblank c ((leading_trimEnd l).subset hc)
      rw [if_pos hblank']
      rw [outside] at h ⊢
      split
      · next htrivia => rw [if_pos htrivia] at h; exact h
      · next htrivia =>
        rw [if_neg htrivia] at h
        split
        · next hheader => rw [if_pos hheader] at h; exact h
        · next hheader =>
          rw [if_neg hheader] at h
          obtain ⟨kv, hkv, hvalue⟩ := Option.bind_eq_some_iff.mp h
          rw [hkv, Option.bind_some]
          apply value_congr hvalue hw' rfl
          rw [trimStart_trimEnd, trim, trimEnd_trimEnd]
    · cases h

theorem line_trimStart {r : Option (Key × Item) × Walk} (hw : w.inside = none)
    (h : w.line l = some r) : w.line (trimStart l) = some r := by
  have hr := notMem_of_line h
  have hr' : '\r' ∉ trimStart l := fun hmem => hr ((isSuffix_trimStart l).subset hmem)
  rw [line_outside hr hw] at h
  rw [line_outside hr' hw, trim_trimStart]
  split at h
  · rw [leading_trimStart, if_pos (by rfl)]
    rw [outside] at h ⊢
    rw [trimStart_trimStart]
    exact h
  · cases h

/-- Spaces alone say nothing outside of a value, and do not close one. -/
theorem line_of_space {r : Option (Key × Item) × Walk} (hl : trimEnd l = [])
    (h : w.line l = some r) :
    (w.inside = none → r = (none, w)) ∧ (w.inside ≠ none → r.2.inside ≠ none) := by
  have hr := notMem_of_line h
  constructor
  · intro hw
    have htrim : trim l = [] := by
      rw [← trimStart_trimEnd, hl]
      rfl
    rw [line_outside hr hw, htrim] at h
    split at h
    · cases h
      rfl
    · cases h
  · intro hw
    obtain ⟨⟨key, u⟩, hu⟩ := Option.ne_none_iff_exists'.mp hw
    rw [line_inside hr hu] at h
    intro hnone
    obtain ⟨i, w'⟩ := r
    have hnewline := inside_of_value h hnone
    rw [← Scan.newline_foldl_trimEnd, hl, List.foldl_nil, u.newline_scan] at hnewline
    cases hnewline

theorem line_nil (hw : w.inside = none) : w.line [] = some (none, w) := by
  rw [line_outside (by simp) hw]
  rfl

/-- A blank line or a comment says nothing, wherever it comes to stand outside of values. -/
theorem line_of_trivia (hw : w.inside = none) (hr : '\r' ∉ l) (hl : isTrivia (trim l) = true)
    (hblank : (leading l).all isBlank = true) : w.line l = some (none, w) := by
  rw [line_outside hr hw, if_pos hblank, outside, if_pos hl]

/-- A line says nothing only outside of values, where it is blank or a comment. -/
theorem trivia_of_line (h : w.line l = some (none, w')) :
    w.inside = none ∧ isTrivia (trim l) = true ∧ (leading l).all isBlank = true := by
  have hr := notMem_of_line h
  have hvalue : ∀ key s t, w.value key s t ≠ some (none, w') := by
    intro key s t hv
    obtain ⟨unclosed, -, heq⟩ := Option.map_eq_some_iff.mp hv
    rw [Prod.mk.injEq] at heq
    cases heq.1
  cases hw : w.inside with
  | some k =>
    rw [line_inside hr hw] at h
    exact absurd h (hvalue _ _ _)
  | none =>
    rw [line_outside hr hw] at h
    split at h
    · next hblank =>
      refine ⟨rfl, ?_, hblank⟩
      rw [outside] at h
      split at h
      · next htrivia => exact htrivia
      · split at h
        · obtain ⟨hd, -, hkey⟩ := Option.bind_eq_some_iff.mp h
          obtain ⟨key, -, heq⟩ := Option.map_eq_some_iff.mp hkey
          rw [Prod.mk.injEq] at heq
          cases heq.1
        · obtain ⟨kv, -, hv⟩ := Option.bind_eq_some_iff.mp h
          exact absurd hv (hvalue _ _ _)
    · cases h

/-- A line of an open value belongs to its key, and a value that the line leaves open belongs to
    the line's key. -/
theorem key_of_line {key : Key} {x : Item} (h : w.line l = some (some (key, x), w')) :
    (∀ k u, w.inside = some (k, u) → k = key) ∧ ∀ k u, w'.inside = some (k, u) → k = key := by
  have hr := notMem_of_line h
  have hvalue : ∀ key' s t, w.value key' s t = some (some (key, x), w') →
      key' = key ∧ ∀ k u, w'.inside = some (k, u) → k = key := by
    intro key' s t hv
    obtain ⟨unclosed, -, heq⟩ := Option.map_eq_some_iff.mp hv
    rw [Prod.mk.injEq, Option.some.injEq, Prod.mk.injEq] at heq
    obtain ⟨⟨hkey, -⟩, rfl⟩ := heq
    refine ⟨hkey, ?_⟩
    intro k u hk
    obtain ⟨unclosed', -, heq⟩ := Option.map_eq_some_iff.mp hk
    cases heq
    exact hkey
  cases hw : w.inside with
  | some k =>
    rw [line_inside hr hw] at h
    obtain ⟨hkey, hopen⟩ := hvalue _ _ _ h
    refine ⟨?_, hopen⟩
    intro k' u hk
    cases hk
    exact hkey
  | none =>
    refine ⟨fun k u hk => (by cases hk), ?_⟩
    rw [line_outside hr hw] at h
    split at h
    · rw [outside] at h
      split at h
      · cases h
      · split at h
        · obtain ⟨hd, -, hkey⟩ := Option.bind_eq_some_iff.mp h
          obtain ⟨key', -, heq⟩ := Option.map_eq_some_iff.mp hkey
          rw [Prod.mk.injEq] at heq
          intro k u hk
          rw [← heq.2] at hk
          cases hk
        · obtain ⟨kv, -, hv⟩ := Option.bind_eq_some_iff.mp h
          exact (hvalue _ _ _ hv).2
    · cases h

/-- What a header starts does not depend on what came before it. -/
theorem line_of_header (hw : w.inside = none) (hv : v.inside = none)
    (hl : (trim l).head? = some '[') : w.line l = v.line l := by
  by_cases hr : '\r' ∈ l
  · rw [line, line, if_pos hr, if_pos hr]
  · have htrivia : ¬ isTrivia (trim l) = true := by
      intro h
      rw [isTrivia, decide_eq_true_eq, hl] at h
      cases h with
      | inl h => rw [h] at hl; cases hl
      | inr h => cases h
    rw [line_outside hr hw, line_outside hr hv, outside, outside, if_neg htrivia, if_neg htrivia,
      if_pos hl, if_pos hl]

end Walk

/-! ## Several lines -/

theorem walk_cons {r : List (Key × Item) × Walk} :
    walk w (l :: ls) = some r ↔ ∃ i u rs, w.line l = some (i, u) ∧ walk u ls = some (rs, r.2) ∧
      r.1 = i.toList ++ rs := by
  simp only [walk, Option.bind_eq_some_iff, Option.map_eq_some_iff]
  constructor
  · intro h
    obtain ⟨⟨i, u⟩, hline, ⟨rs, x⟩, hwalk, rfl⟩ := h
    exact ⟨i, u, rs, hline, hwalk, rfl⟩
  · intro h
    obtain ⟨i, u, rs, hline, hwalk, hr⟩ := h
    exact ⟨(i, u), hline, (rs, r.2), hwalk, by rw [← hr]⟩

theorem walk_append {ms : List Text} {r : List (Key × Item) × Walk} :
    walk w (ls ++ ms) = some r ↔ ∃ is u js, walk w ls = some (is, u) ∧ walk u ms = some (js, r.2) ∧
      r.1 = is ++ js := by
  induction ls generalizing w r with
  | nil =>
    constructor
    · intro h
      exact ⟨[], w, r.1, rfl, h, rfl⟩
    · intro h
      obtain ⟨is, u, js, hnil, hms, hr⟩ := h
      cases hnil
      rw [List.nil_append] at hr ⊢
      rw [hms, ← hr]
  | cons l ls ih =>
    rw [List.cons_append, walk_cons]
    constructor
    · intro h
      obtain ⟨i, u, rs, hline, hwalk, hr⟩ := h
      obtain ⟨is, x, js, hls, hms, hrs⟩ := ih.mp hwalk
      refine ⟨i.toList ++ is, x, js, walk_cons.mpr ⟨i, u, is, hline, hls, rfl⟩, hms, ?_⟩
      rw [hr, show rs = is ++ js from hrs, List.append_assoc]
    · intro h
      obtain ⟨is, x, js, hls, hms, hr⟩ := h
      obtain ⟨i, u, rs, hline, hwalk, his⟩ := walk_cons.mp hls
      refine ⟨i, u, rs ++ js, hline, ih.mpr ⟨rs, x, js, hwalk, hms, rfl⟩, ?_⟩
      rw [hr, show is = i.toList ++ rs from his, List.append_assoc]

theorem walk_singleton {r : List (Key × Item) × Walk} :
    walk w [l] = some r ↔ ∃ i, w.line l = some (i, r.2) ∧ r.1 = i.toList := by
  rw [walk_cons]
  constructor
  · intro h
    obtain ⟨i, u, rs, hline, hnil, hr⟩ := h
    cases hnil
    exact ⟨i, hline, by rw [hr, List.append_nil]⟩
  · intro h
    obtain ⟨i, hline, hr⟩ := h
    exact ⟨i, r.2, [], hline, rfl, by rw [hr, List.append_nil]⟩

theorem notMem_of_walk {r : List (Key × Item) × Walk} (h : walk w ls = some r) :
    ∀ l ∈ ls, '\r' ∉ l := by
  induction ls generalizing w r with
  | nil => intro l hl; cases hl
  | cons m ms ih =>
    obtain ⟨i, u, rs, hline, hwalk, -⟩ := walk_cons.mp h
    intro l hl
    cases List.mem_cons.mp hl with
    | inl hl => rw [hl]; exact Walk.notMem_of_line hline
    | inr hl => exact ih hwalk l hl

theorem walk_of_trivia (hw : w.inside = none) (hls : ∀ l ∈ ls, '\r' ∉ l ∧
    isTrivia (trim l) = true ∧ (leading l).all isBlank = true) : walk w ls = some ([], w) := by
  induction ls with
  | nil => rfl
  | cons l ls ih =>
    obtain ⟨hr, htrivia, hblank⟩ := hls l List.mem_cons_self
    exact walk_cons.mpr ⟨none, w, [], Walk.line_of_trivia hw hr htrivia hblank,
      ih (fun m hm => hls m (List.mem_cons_of_mem l hm)), rfl⟩

/-- The end of joined lines may be trimmed where no value is open. -/
theorem walk_trimEnd_join (hn : ∀ l ∈ ls, '\n' ∉ l) (h : walk w ls = some (is, w'))
    (hw' : w'.inside = none) : walk w (closed (trimEnd (join ls))) = some (is, w') := by
  induction ls using List.reverseRecOn generalizing is w' with
  | nil =>
    cases h
    show walk w [[]] = _
    exact walk_singleton.mpr ⟨none, Walk.line_nil hw', rfl⟩
  | append_singleton ls l ih =>
    obtain ⟨js, u, ks, hls, hl, his⟩ := walk_append.mp h
    obtain ⟨i, hline, hks⟩ := walk_singleton.mp hl
    rw [trimEnd_join_concat]
    split
    · next hspace =>
      have hout := Walk.line_of_space hspace hline
      cases hu : u.inside with
      | some k => exact absurd hw' (hout.2 (by rw [hu]; simp))
      | none =>
        have heq := hout.1 hu
        rw [Prod.mk.injEq] at heq
        have hsame : is = js := by
          rw [show is = js ++ ks from his, show ks = i.toList from hks, heq.1]
          simp
        rw [hsame, show w' = u from heq.2]
        exact ih (fun l hl => hn l (List.mem_append_left _ hl)) hls hu
    · have hr := notMem_of_walk h
      rw [closed_join (by simp)]
      · exact walk_append.mpr ⟨js, u, ks, hls,
          walk_singleton.mpr ⟨i, Walk.line_trimEnd hline hw', hks⟩, his⟩
      · intro m hm
        cases List.mem_append.mp hm with
        | inl hm =>
          exact ⟨hn m (List.mem_append_left _ hm), hr m (List.mem_append_left _ hm)⟩
        | inr hm =>
          rw [List.mem_singleton] at hm
          have hsub : trimEnd l ⊆ l := (isPrefix_trimEnd l).subset
          have hmem : l ∈ ls ++ [l] := by simp
          rw [hm]
          exact ⟨fun hc => hn l hmem (hsub hc), fun hc => hr l hmem (hsub hc)⟩

/-- The start of joined lines may be trimmed where no value is open. -/
theorem walk_trimStart_join (hn : ∀ l ∈ ls, '\n' ∉ l) (hw : w.inside = none)
    (h : walk w ls = some (is, w')) : walk w (closed (trimStart (join ls))) = some (is, w') := by
  induction ls generalizing w is with
  | nil =>
    rw [walk, Option.some.injEq, Prod.mk.injEq] at h
    rw [← h.1, ← h.2]
    exact walk_singleton.mpr ⟨none, Walk.line_nil hw, rfl⟩
  | cons l ls ih =>
    obtain ⟨i, u, rs, hline, hwalk, his⟩ := walk_cons.mp h
    rw [trimStart_join_cons]
    split
    · next hspace =>
      have heq := (Walk.line_of_space (trimStart_eq_nil_iff.mp hspace) hline).1 hw
      rw [Prod.mk.injEq] at heq
      rw [heq.2] at hwalk
      rw [show is = rs from by rw [show is = i.toList ++ rs from his, heq.1]; rfl]
      exact ih (fun l hl => hn l (List.mem_cons_of_mem _ hl)) hw hwalk
    · have hr := notMem_of_walk h
      rw [closed_join (by simp)]
      · exact walk_cons.mpr ⟨i, u, rs, Walk.line_trimStart hw hline, hwalk, his⟩
      · intro m hm
        cases List.mem_cons.mp hm with
        | inl hm =>
          have hsub : trimStart l ⊆ l := (isSuffix_trimStart l).subset
          rw [hm]
          exact ⟨fun hc => hn l List.mem_cons_self (hsub hc),
            fun hc => hr l List.mem_cons_self (hsub hc)⟩
        | inr hm =>
          exact ⟨hn m (List.mem_cons_of_mem _ hm), hr m (List.mem_cons_of_mem _ hm)⟩

/-- A line break may end the document. -/
theorem walk_endLine (h : walk w (closed t) = some (is, w')) (hw' : w'.inside = none) :
    walk w (lines (endLine t)) = some (is, w') := by
  cases lines_endLine t with
  | inl heq => rw [← heq]; exact h
  | inr heq =>
    rw [heq] at h
    obtain ⟨js, u, ks, hls, hl, his⟩ := walk_append.mp h
    obtain ⟨i, hline, hks⟩ := walk_singleton.mp hl
    have hout := Walk.line_of_space rfl hline
    cases hu : u.inside with
    | some k => exact absurd hw' (hout.2 (by rw [hu]; simp))
    | none =>
      have heq := hout.1 hu
      rw [Prod.mk.injEq] at heq
      rw [hls, show w' = u from heq.2, show is = js ++ ks from his, show ks = i.toList from hks,
        heq.1]
      simp

theorem walk_closed_nil (hw : w.inside = none) : walk w (closed []) = some ([], w) :=
  walk_singleton.mpr ⟨none, Walk.line_nil hw, rfl⟩

theorem walk_closed_append {a b : Text} {js : List (Key × Item)}
    (ha : walk w (closed a) = some (is, w')) (hb : walk w' (closed b) = some (js, v)) :
    walk w (closed (a ++ '\n' :: b)) = some (is ++ js, v) := by
  rw [closed_append]
  exact walk_append.mpr ⟨is, w', js, ha, hb, rfl⟩

/-- A text that starts with a header says the same wherever it comes to stand. -/
theorem walk_of_header (hw : w.inside = none) (hv : v.inside = none)
    (hl : (trim l).head? = some '[') (h : walk w (l :: ls) = some (is, w')) :
    walk v (l :: ls) = some (is, w') := by
  obtain ⟨i, u, rs, hline, hrest, his⟩ := walk_cons.mp h
  exact walk_cons.mpr ⟨i, u, rs, (Walk.line_of_header hv hw hl).trans hline, hrest, his⟩

theorem walk_closed (hr : '\r' ∉ t) (h : walk w (lines t) = some (is, w'))
    (hw' : w'.inside = none) : walk w (closed t) = some (is, w') := by
  cases closed_eq hr with
  | inl heq => rw [heq]; exact h
  | inr heq =>
    rw [heq]
    exact walk_append.mpr ⟨is, w', [], h, walk_closed_nil hw', by simp⟩

/-! ## Root keys -/

variable {key : Key} {js : List (Key × Item)} {names : List Key}

theorem relevant_append : relevant key (is ++ js) = relevant key is ++ relevant key js :=
  List.filterMap_append

theorem relevant_eq_nil (h : ∀ i ∈ is, i.1 ≠ key) : relevant key is = [] := by
  rw [relevant, List.filterMap_eq_nil_iff]
  intro i hi
  exact if_neg (h i hi)

theorem relevant_filter (hkey : key ∉ names) :
    relevant key (is.filter fun i => decide (i.1 ∉ names)) = relevant key is := by
  induction is with
  | nil => rfl
  | cons i is ih =>
    rw [List.filter_cons]
    split
    · simp only [relevant, List.filterMap_cons] at ih ⊢
      rw [ih]
    · next hi =>
      have hne : i.1 ≠ key := by
        intro heq
        rw [heq, decide_eq_true_eq] at hi
        exact hi hkey
      rw [ih]
      simp only [relevant, List.filterMap_cons, if_neg hne]

theorem relevant_map (xs : List Item) : relevant key (xs.map (key, ·)) = xs := by
  induction xs with
  | nil => rfl
  | cons x xs ih =>
    rw [List.map_cons, relevant, List.filterMap_cons, if_pos rfl]
    rw [relevant] at ih
    rw [ih]

theorem mem_of_relevant (h : relevant key is ≠ []) : ∃ i ∈ is, i.1 = key := by
  by_contra hnone
  push Not at hnone
  exact h (relevant_eq_nil hnone)

/-- Where the lines of other keys stay and those of some keys are others, the document has these
    keys as the others make them. -/
theorem Reader.parse_replace {V : Type} (reader : Reader V) {t t' : Text} {d : Key → Option V}
    {bs as fs : List (Key × Item)} (hd : reader.parse t = some d) (his : items t = some is)
    (hkept : bs ++ as = is.filter fun i => decide (i.1 ∉ names))
    (ht' : items t' = some (bs ++ fs ++ as)) (hfs : ∀ i ∈ fs, i.1 ∈ names)
    (hvalue : ∀ i ∈ fs, (reader.value (relevant i.1 fs)).isSome = true) :
    reader.parse t' = some fun key => if key ∈ names then
      if relevant key fs = [] then none else reader.value (relevant key fs) else d key := by
  have hother : ∀ key, key ∉ names → relevant key (bs ++ fs ++ as) = relevant key is := by
    intro key hkey
    have hnone : relevant key fs = [] := relevant_eq_nil fun i hi heq => hkey (heq ▸ hfs i hi)
    rw [relevant_append, relevant_append, hnone, List.append_nil, ← relevant_append, hkept,
      relevant_filter hkey]
  have howned : ∀ key, key ∈ names → relevant key (bs ++ fs ++ as) = relevant key fs := by
    intro key hkey
    have hnone : relevant key bs ++ relevant key as = [] := by
      rw [← relevant_append, hkept]
      apply relevant_eq_nil
      intro i hi heq
      have hi := (List.mem_filter.mp hi).2
      rw [heq, decide_eq_true_eq] at hi
      exact hi hkey
    rw [List.append_eq_nil_iff] at hnone
    rw [relevant_append, relevant_append, hnone.1, hnone.2, List.nil_append, List.append_nil]
  rw [parse, his, Option.bind_some] at hd
  split at hd
  · next hall =>
    rw [Option.some.injEq] at hd
    rw [parse, ht', Option.bind_some, if_pos]
    · rw [Option.some.injEq, ← hd]
      funext key
      by_cases hkey : key ∈ names
      · rw [if_pos hkey, howned key hkey]
      · rw [if_neg hkey, hother key hkey]
    · rw [List.all_eq_true] at hall ⊢
      intro i hi
      by_cases hkey : i.1 ∈ names
      · rw [howned i.1 hkey]
        have hne : relevant i.1 (bs ++ fs ++ as) ≠ [] := by
          intro hnil
          rw [relevant, List.filterMap_eq_nil_iff] at hnil
          have hcontra := hnil i hi
          rw [if_pos rfl] at hcontra
          cases hcontra
        rw [howned i.1 hkey] at hne
        obtain ⟨j, hj, hji⟩ := mem_of_relevant hne
        rw [← hji]
        exact hvalue j hj
      · have hmem : i ∈ is := by
          have hbsas : i ∈ bs ++ as := by
            simp only [List.mem_append] at hi ⊢
            rcases hi with (hi | hi) | hi
            · exact .inl hi
            · exact absurd (hfs i hi) hkey
            · exact .inr hi
          rw [hkept] at hbsas
          exact List.mem_of_mem_filter hbsas
        rw [hother i.1 hkey]
        exact hall i hmem
  · cases hd

end TomlDoc
