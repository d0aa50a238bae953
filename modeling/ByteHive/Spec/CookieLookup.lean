import ByteHive.Native.Cookies

/-!
# Which cookie is found

A header is written from pairs. The first pair of a name that has a value is what the browser
meant (`lookupCookie`). `parse_cookie` takes each part of the header for the text of a pair, so a
single pair decides whether it can be read for a name (`ReadRight`), whatever stands beside it.
-/

namespace ByteHive

open TextLines

/-! ## Headers -/

abbrev Cookie := Text × Text

def Cookie.text (c : Cookie) : Text := c.1 ++ '=' :: c.2

/-- Names without `=` and `;`, values without `;` and without spaces around them. -/
structure Cookie.WellFormed (c : Cookie) : Prop where
  name_eq : '=' ∉ c.1
  name_semi : ';' ∉ c.1
  value_semi : ';' ∉ c.2
  value_head : c.2.head? ≠ some ' '
  value_last : c.2.getLast? ≠ some ' '

/-- The pairs with `; ` between them. -/
def cookieHeader (cookies : List Cookie) : Text := [';', ' '].intercalate (cookies.map Cookie.text)

/-- The value of the first pair of the name that has one. -/
def lookupCookie (cookies : List Cookie) (name : Text) : Option Text :=
  cookies.findSome? fun c => if c.1 = name ∧ c.2 ≠ [] then some c.2 else none

theorem semi_notMem_text {c : Cookie} (h : c.WellFormed) : ';' ∉ c.text := by
  simp only [Cookie.text, List.mem_append, List.mem_cons, not_or]
  exact ⟨h.name_semi, by decide, h.value_semi⟩

/-- The space after a separator belongs to the part that follows. -/
theorem cookieHeader_cons (c : Cookie) (cs : List Cookie) :
    cookieHeader (c :: cs) =
      [';'].intercalate (c.text :: cs.map fun d => ' ' :: d.text) := by
  induction cs generalizing c with
  | nil => simp [cookieHeader]
  | cons d cs ih =>
    have hd := ih d
    rw [cookieHeader, List.map_cons] at hd
    rw [cookieHeader, List.map_cons, List.map_cons, List.map_cons, List.intercalate_cons_cons,
      List.intercalate_cons_cons, hd]
    cases cs with
    | nil => simp
    | cons e cs => simp [List.intercalate_cons_cons]

theorem splitOn_cookieHeader {c : Cookie} {cs : List Cookie} (h : ∀ d ∈ c :: cs, d.WellFormed) :
    (cookieHeader (c :: cs)).splitOn ';' = c.text :: cs.map fun d => ' ' :: d.text := by
  rw [cookieHeader_cons]
  refine List.splitOn_intercalate ';' (fun t ht => ?_) (by simp)
  simp only [List.mem_cons, List.mem_map] at ht
  obtain rfl | ⟨d, hd, rfl⟩ := ht
  · exact semi_notMem_text (h c List.mem_cons_self)
  · simp only [List.mem_cons, not_or]
    exact ⟨by decide, semi_notMem_text (h d (List.mem_cons_of_mem _ hd))⟩

theorem cookieValue_space (name t : Text) : cookieValue name (' ' :: t) = cookieValue name t := by
  have htrim : trim (' ' :: t) = trim t := by simp [trim, trimStart, isWhitespace]
  rw [cookieValue, cookieValue, htrim]

/-- Each pair is looked at for itself. -/
theorem parseCookie_cookieHeader {cookies : List Cookie} (h : ∀ c ∈ cookies, c.WellFormed)
    (name : Text) :
    parseCookie (cookieHeader cookies) name =
      cookies.findSome? fun c => cookieValue name c.text := by
  cases cookies with
  | nil =>
    by_cases hname : name = []
    · subst hname
      rfl
    · simp [parseCookie, cookieHeader, cookieValue, trim, trimStart, trimEnd, hname]
  | cons c cs =>
    rw [parseCookie, splitOn_cookieHeader h, List.findSome?_cons, List.findSome?_cons,
      List.findSome?_map]
    simp only [Function.comp_def, cookieValue_space]

/-! ## One pair -/

/-- The text of a pair starts with a name that is not its own, and something other than `=` and
    whitespace follows. -/
def Misleads (name : Text) (c : Cookie) : Prop :=
  name <+: trim c.text ∧ trim (((trim c.text).drop name.length).dropWhile (· == '=')) ≠ []

/-- The pair is read for the name as it was written. -/
def ReadRight (name : Text) (c : Cookie) : Prop :=
  if c.1 = name then
    c.2 = [] ∨ trimStart name = name ∧ c.2.head? ≠ some '=' ∧ trim c.2 = c.2
  else ¬Misleads name c

theorem trim_text (c : Cookie) : trim c.text = trimStart c.1 ++ '=' :: trimEnd c.2 := by
  have heq : isWhitespace '=' = false := by decide
  have hstart : trimStart c.text = trimStart c.1 ++ '=' :: c.2 := by
    rw [Cookie.text, trimStart_append]
    split
    · next h => rw [h, trimStart_cons, heq]; rfl
    · rfl
  have hend : trimEnd ('=' :: c.2) = '=' :: trimEnd c.2 := by
    rw [trimEnd_cons, heq]
    split
    · next h => rw [h]; rfl
    · rfl
  rw [trim, hstart, trimEnd_append, hend, if_neg (by simp)]

/-- A name that whitespace begins is not found: its pair was trimmed. -/
theorem prefix_trimStart_iff {name u : Text} (hu : trimStart (trimStart name ++ u) = trimStart name ++ u) :
    name <+: trimStart name ++ u ↔ trimStart name = name := by
  constructor
  · intro ⟨v, hv⟩
    rw [← hv, trimStart_append] at hu
    split at hu
    · next hnil =>
      have hlen : (trimStart v).length ≤ v.length := (isSuffix_trimStart v).length_le
      rw [hu, List.length_append] at hlen
      obtain rfl : name = [] := List.length_eq_zero_iff.mp (by omega)
      rfl
    · exact List.append_cancel_right hu
  · intro h
    rw [h]
    exact List.prefix_append name u

theorem trim_trim (t : Text) : trim (trim t) = trim t :=
  (trim_trimEnd (trimStart t)).trans (trim_trimStart t)

theorem length_trim_le (t : Text) : (trim t).length ≤ t.length :=
  (isPrefix_trimEnd _).length_le.trans (isSuffix_trimStart t).length_le

/-- What is found of the pair of the name. -/
theorem cookieValue_own (name v : Text) : cookieValue name (Cookie.text (name, v)) =
    if trimStart name = name then
      let val := trim ((trimEnd v).dropWhile (· == '='))
      if val = [] then none else some val
    else none := by
  have hself : trimStart (trimStart name ++ '=' :: trimEnd v) =
      trimStart name ++ '=' :: trimEnd v := by
    rw [trimStart_append, trimStart_trimStart]
    split
    · next h => rw [h, trimStart_cons, if_neg (by decide), List.nil_append]
    · rfl
  rw [cookieValue, trim_text]
  simp only [prefix_trimStart_iff hself]
  split
  · next hname => simp [hname]
  · rfl

theorem cookieValue_own_iff {name v : Text} (hv : v ≠ []) :
    cookieValue name (Cookie.text (name, v)) = some v ↔
      trimStart name = name ∧ v.head? ≠ some '=' ∧ trim v = v := by
  rw [cookieValue_own]
  constructor
  · intro h
    split at h
    · next hname =>
      dsimp only at h
      split at h
      · cases h
      · have hval := Option.some.inj h
        have htrim : trim v = v := by rw [← hval, trim_trim]
        refine ⟨hname, fun hhead => ?_, htrim⟩
        -- Without its first character the rest is too short.
        obtain ⟨w, rfl⟩ := List.head?_eq_some_iff.mp hhead
        have hend : trimEnd ('=' :: w) = '=' :: trimEnd w := by
          rw [trimEnd_cons, if_neg (by decide : ¬isWhitespace '=' = true)]
          split
          · next h => rw [h]
          · rfl
        rw [hend, List.dropWhile_cons_of_pos (by simp)] at hval
        have hlen := length_trim_le ((trimEnd w).dropWhile (· == '='))
        have hdrop := (List.dropWhile_suffix (· == '=') (l := trimEnd w)).length_le
        have hw := (isPrefix_trimEnd w).length_le
        rw [hval, List.length_cons] at hlen
        omega
    · cases h
  · intro ⟨hname, hhead, htrim⟩
    have hend : trimEnd v = v := by rw [← htrim, trim, trimEnd_trimEnd]
    have hdrop : v.dropWhile (· == '=') = v := by
      cases v with
      | nil => rfl
      | cons d v => exact List.dropWhile_cons_of_neg (by simpa using hhead)
    rw [if_pos hname, hend, hdrop, htrim, if_neg hv]

theorem cookieValue_own_nil (name : Text) : cookieValue name (Cookie.text (name, [])) = none := by
  rw [cookieValue_own]
  split <;> rfl

/-- What is read of a pair is what was written. -/
theorem cookieValue_eq_iff (name : Text) (c : Cookie) :
    cookieValue name c.text = (if c.1 = name ∧ c.2 ≠ [] then some c.2 else none) ↔
      ReadRight name c := by
  obtain ⟨n, v⟩ := c
  by_cases hn : n = name
  · subst hn
    by_cases hv : v = []
    · subst hv
      simp [ReadRight, cookieValue_own_nil]
    · simp [ReadRight, hv, cookieValue_own_iff hv]
  · simp only [ReadRight, hn, if_false, false_and, cookieValue, Misleads]
    split
    · next hpre => simp [hpre]
    · next hpre => simp [hpre]

/-! ## All pairs -/

/-- Whatever pairs stand in the header and in whatever order, the name is looked up right exactly
    when each of them is read right. -/
theorem parseCookie_eq_lookup_iff (cookies : List Cookie) (h : ∀ c ∈ cookies, c.WellFormed)
    (name : Text) :
    (∀ header : List Cookie, (∀ c ∈ header, c ∈ cookies) →
        parseCookie (cookieHeader header) name = lookupCookie header name) ↔
      ∀ c ∈ cookies, ReadRight name c := by
  constructor
  · intro hall c hc
    have hone := hall [c] (by simpa using hc)
    rw [parseCookie_cookieHeader (by simpa using h c hc), lookupCookie] at hone
    simpa [← cookieValue_eq_iff] using hone
  · intro hright header hsub
    rw [parseCookie_cookieHeader (fun c hc => h c (hsub c hc)), lookupCookie]
    have heach : ∀ c ∈ header, cookieValue name c.text =
        if c.1 = name ∧ c.2 ≠ [] then some c.2 else none := fun c hc =>
      (cookieValue_eq_iff name c).mpr (hright c (hsub c hc))
    clear hsub
    induction header with
    | nil => rfl
    | cons c cs ih =>
      rw [List.findSome?_cons, List.findSome?_cons, heach c List.mem_cons_self,
        ih fun d hd => heach d (List.mem_cons_of_mem _ hd)]

/-- The cookies of another app and of this one. -/
def twoCookies : List Cookie :=
  [("cc_session_old".toList, "x".toList), ("cc_session".toList, "tok".toList)]

theorem twoCookies_wellFormed : ∀ c ∈ twoCookies, c.WellFormed := by
  intro c hc
  simp only [twoCookies, List.mem_cons, List.not_mem_nil, or_false] at hc
  obtain rfl | rfl := hc
  · constructor <;> decide
  · constructor <;> decide

/-- A cookie whose name goes on is taken for the session. -/
theorem longer_name_taken : (∀ c ∈ twoCookies, c.WellFormed) ∧
    parseCookie (cookieHeader twoCookies) "cc_session".toList = some "_old=x".toList ∧
    lookupCookie twoCookies "cc_session".toList = some "tok".toList :=
  ⟨twoCookies_wellFormed, by decide, by decide⟩

/-- The same two cookies, asked for the other name. -/
theorem twoCookies_iff :
    (∀ header : List Cookie, (∀ c ∈ header, c ∈ twoCookies) →
        parseCookie (cookieHeader header) "cc_session_old".toList =
          lookupCookie header "cc_session_old".toList) ↔
      ∀ c ∈ twoCookies, ReadRight "cc_session_old".toList c :=
  parseCookie_eq_lookup_iff twoCookies twoCookies_wellFormed _

end ByteHive
