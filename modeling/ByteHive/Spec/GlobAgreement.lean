import ByteHive.ForStd.SplitParts
import ByteHive.Spec.GlobMeaning

/-!
# Which globs mean what they say

The translation gives both kinds of `**` the expression `.*`, which does not end at a slash and
does not go over a newline. A pattern without `**` is right about every path, one with `**` is wrong
about some path, unless no path can match it (`glob_agrees_iff`).
-/

namespace ByteHive

/-! ## What a part of a glob can stand for -/

namespace GlobToken

/-- `**`, with or without a slash behind it. -/
def Deep (t : GlobToken) : Prop := t = .deepDir ∨ t = .deep

instance (t : GlobToken) : Decidable t.Deep := inferInstanceAs (Decidable (_ ∨ _))

/-- A letter for a wildcard. -/
def letter : GlobToken → Char
  | .char c => c
  | _ => 'z'

/-- What both readings have in common. -/
def Fits : GlobToken → List Char → Prop
  | .char c, u => u = [c]
  | _, _ => True

theorem Means.fits {t : GlobToken} {u : List Char} (h : t.Means u) : t.Fits u := by
  cases t with
  | char c => exact h
  | _ => trivial

theorem Accepts.fits {t : GlobToken} {u : List Char} (h : t.Accepts u) : t.Fits u := by
  cases t with
  | char c => exact h
  | _ => trivial

theorem accepts_iff_means {t : GlobToken} (h : ¬ t.Deep) {u : List Char} :
    t.Accepts u ↔ t.Means u := by
  cases t with
  | deepDir => exact absurd (.inl rfl) h
  | deep => exact absurd (.inr rfl) h
  | _ => exact Iff.rfl

theorem accepts_letter (t : GlobToken) : t.Accepts [t.letter] := by
  cases t with
  | deepDir => show '\n' ∉ ['z']; decide
  | deep => show '\n' ∉ ['z']; decide
  | star => show '/' ∉ ['z']; decide
  | any => exact ⟨'z', rfl, by decide⟩
  | char c => rfl

/-- Only `**` stands for more than one component. -/
theorem count_slash_le {t : GlobToken} {u : List Char} (h : t.Means u)
    (hdeep : ¬ (t.Deep ∧ '/' ∈ u)) : u.count '/' ≤ 1 := by
  by_cases hslash : '/' ∈ u
  · have hlen : u.length = 1 := by
      cases t with
      | deepDir => exact absurd ⟨.inl rfl, hslash⟩ hdeep
      | deep => exact absurd ⟨.inr rfl, hslash⟩ hdeep
      | star => exact absurd hslash h
      | any =>
        obtain ⟨c, rfl, -⟩ := h
        rfl
      | char c => exact congrArg List.length h
    exact List.count_le_length.trans hlen.le
  · rw [List.count_eq_zero_of_not_mem hslash]
    exact Nat.zero_le 1

/-- Anything may be put in front of what `**` stands for. -/
theorem means_append {t : GlobToken} {u : List Char} (hdeep : t.Deep) (hslash : '/' ∈ u)
    (h : t.Means u) (front : List Char) : t.Means (front ++ u) := by
  obtain rfl | rfl := hdeep
  · obtain rfl | ⟨dir, rfl⟩ := h
    · cases hslash
    · exact .inr ⟨front ++ dir, (List.append_assoc _ _ _).symm⟩
  · trivial

theorem accepts_chain {t : GlobToken} (hdeep : t.Deep) (m : Nat) :
    t.Accepts (SplitParts.chain '/' 'z' m ++ ['z']) := by
  have hnl : '\n' ∉ SplitParts.chain '/' 'z' m ++ ['z'] := by
    intro hmem
    obtain hmem | hmem := List.mem_append.mp hmem
    · obtain h | h := SplitParts.eq_of_mem_chain hmem <;> exact absurd h (by decide)
    · exact absurd (List.mem_singleton.mp hmem) (by decide)
  obtain rfl | rfl := hdeep
  · exact hnl
  · exact hnl

end GlobToken

theorem Divided.mono {R S : GlobToken → List Char → Prop} {tokens : List GlobToken}
    {text : List Char} (h : Divided R tokens text) (hRS : ∀ t ∈ tokens, ∀ u, R t u → S t u) :
    Divided S tokens text := by
  obtain ⟨us, hus, rfl⟩ := h
  refine ⟨us, ?_, rfl⟩
  induction hus with
  | nil => exact .nil
  | cons hu _ ih =>
    rw [List.forall_mem_cons] at hRS
    exact .cons (hRS.1 _ hu) (ih hRS.2)

theorem Divided.append {R : GlobToken → List Char → Prop} {front rest : List GlobToken}
    {text text' : List Char} (h : Divided R front text) (h' : Divided R rest text') :
    Divided R (front ++ rest) (text ++ text') := by
  obtain ⟨us, hus, rfl⟩ := h
  obtain ⟨us', hus', rfl⟩ := h'
  exact ⟨us ++ us', List.rel_append hus hus', List.flatten_append⟩

theorem Divided.cons {R : GlobToken → List Char → Prop} {t : GlobToken} {tokens : List GlobToken}
    {u text : List Char} (hu : R t u) (h : Divided R tokens text) :
    Divided R (t :: tokens) (u ++ text) := by
  obtain ⟨us, hus, rfl⟩ := h
  exact ⟨u :: us, .cons hu hus, rfl⟩

theorem divided_letters (tokens : List GlobToken) :
    Divided GlobToken.Accepts tokens (tokens.map GlobToken.letter) := by
  induction tokens with
  | nil => exact ⟨[], .nil, rfl⟩
  | cons t tokens ih => exact .cons t.accepts_letter ih

/-! ## Lines that end in a slash -/

/-- How often a slash comes right behind a newline. -/
def breaks : List Char → Nat
  | [] => 0
  | c :: s => (if c = '\n' ∧ s.head? = some '/' then 1 else 0) + breaks s

theorem breaks_append_le (a b : List Char) : breaks (a ++ b) ≤ breaks a + breaks b + 1 := by
  induction a with
  | nil =>
    rw [List.nil_append]
    omega
  | cons c a ih =>
    cases a with
    | nil =>
      show (if c = '\n' ∧ b.head? = some '/' then 1 else 0) + breaks b ≤ _
      split <;> omega
    | cons d a =>
      have hboth : breaks (c :: (d :: a ++ b)) =
          (if c = '\n' ∧ (d :: a).head? = some '/' then 1 else 0) + breaks (d :: a ++ b) := rfl
      have hleft : breaks (c :: d :: a) =
          (if c = '\n' ∧ (d :: a).head? = some '/' then 1 else 0) + breaks (d :: a) := rfl
      rw [List.cons_append, hboth, hleft]
      omega

theorem le_breaks_append (a b : List Char) : breaks b ≤ breaks (a ++ b) := by
  induction a with
  | nil => exact Nat.le_refl _
  | cons c a ih =>
    rw [List.cons_append, breaks]
    omega

theorem le_breaks_chain (m : Nat) (s : List Char) :
    m ≤ breaks (SplitParts.chain '/' '\n' m ++ s) := by
  induction m with
  | zero => exact Nat.zero_le _
  | succ m ih =>
    show m + 1 ≤ breaks ('\n' :: '/' :: (SplitParts.chain '/' '\n' m ++ s))
    simp only [breaks, List.head?_cons, and_self, if_true]
    omega

theorem breaks_eq_zero {u : List Char} (h : '\n' ∉ u ∨ '/' ∉ u) : breaks u = 0 := by
  induction u with
  | nil => rfl
  | cons c u ih =>
    rw [List.mem_cons, List.mem_cons, not_or, not_or] at h
    have hrest := ih (h.imp And.right And.right)
    rw [breaks, hrest, if_neg]
    intro ⟨hc, hhead⟩
    obtain h | h := h
    · exact h.1 hc.symm
    · exact h.2 (List.mem_of_mem_head? hhead)

theorem breaks_accepted {t : GlobToken} {u : List Char} (h : t.Accepts u) : breaks u = 0 := by
  cases t with
  | deepDir => exact breaks_eq_zero (.inl h)
  | deep => exact breaks_eq_zero (.inl h)
  | star => exact breaks_eq_zero (.inr h)
  | any =>
    obtain ⟨c, rfl, hc⟩ := h
    exact breaks_eq_zero (.inr (by simpa using hc.symm))
  | char c =>
    obtain rfl : u = [c] := h
    rw [breaks, breaks, if_neg]
    exact fun hc => nomatch hc.2

/-- No part of the expression goes over a break. -/
theorem breaks_le_length {tokens : List GlobToken} {text : List Char}
    (h : Divided GlobToken.Accepts tokens text) : breaks text ≤ tokens.length := by
  obtain ⟨us, hus, rfl⟩ := h
  induction hus with
  | nil => exact Nat.le_refl _
  | @cons t u tokens us hu _ ih =>
    have happend := breaks_append_le u us.flatten
    rw [breaks_accepted hu] at happend
    rw [List.flatten_cons, List.length_cons]
    omega

/-- Where there are more slashes than parts, a `**` stands for one of them. -/
theorem exists_deep_slash {tokens : List GlobToken} {us : List (List Char)}
    (h : List.Forall₂ GlobToken.Means tokens us) (hcount : tokens.length < us.flatten.count '/') :
    ∃ (t : GlobToken) (u front rest : List Char), t.Deep ∧ '/' ∈ u ∧ t.Means u ∧
      us.flatten = front ++ (u ++ rest) ∧
      ∀ u', t.Means u' → Divided GlobToken.Means tokens (front ++ (u' ++ rest)) := by
  induction h with
  | nil => cases hcount
  | @cons t u tokens us hu hus ih =>
    by_cases hdeep : t.Deep ∧ '/' ∈ u
    · refine ⟨t, u, [], us.flatten, hdeep.1, hdeep.2, hu, rfl, fun u' hu' => ?_⟩
      show Divided _ _ (u' ++ us.flatten)
      exact .cons hu' ⟨us, hus, rfl⟩
    · have hle := GlobToken.count_slash_le hu hdeep
      rw [List.length_cons, List.flatten_cons, List.count_append] at hcount
      obtain ⟨t', u₀, front, rest, ht', hslash, hmeans, hflat, hput⟩ := ih (by omega)
      refine ⟨t', u₀, u ++ front, rest, ht', hslash, hmeans, ?_, fun u' hu' => ?_⟩
      · rw [List.flatten_cons, hflat, List.append_assoc]
      · rw [List.append_assoc]
        exact .cons hu (hput u' hu')

/-! ## The texts of relative paths -/

/-- A path that does not start at the root: plain names and `..`, and `.` at the beginning only. -/
def RelativePath (rel : PathBuf) : Prop :=
  (∀ c ∈ rel, c ≠ .rootDir ∧ ∀ name, c = .normal name → PlainName name) ∧ .curDir ∉ rel.tail

/-- The text of a relative path. -/
def IsPathText (text : String) : Prop := ∃ rel, RelativePath rel ∧ normalise rel = text

/-- What may stand between two slashes of such a text. -/
def GoodPart (first : Bool) (part : List Char) : Prop := part ≠ [] ∧ (part = ['.'] → first = true)

theorem goodPart_of_mem {first : Bool} {part : List Char} (h : 'z' ∈ part ∨ '\n' ∈ part) :
    GoodPart first part := by
  refine ⟨?_, fun hdot => ?_⟩
  · rintro rfl
    simp at h
  · rw [hdot] at h
    exact absurd h (by decide)

/-- A part as a component. -/
def partComponent (part : List Char) : Component :=
  if part = ['.'] then .curDir
  else if part = ['.', '.'] then .parentDir
  else .normal (String.ofList part)

theorem asOsStr_partComponent (part : List Char) :
    (partComponent part).asOsStr.toList = part := by
  unfold partComponent
  split
  · next h => exact h.symm
  · split
    · next h => exact h.symm
    · exact String.toList_ofList

theorem toList_normalise (rel : PathBuf) :
    (normalise rel).toList = ['/'].intercalate (rel.map fun c => c.asOsStr.toList) := by
  rw [normalise, String.toList_intercalate, List.map_map]
  rfl

theorem isPathText_iff {text : String} :
    IsPathText text ↔ text = "" ∨ SplitParts.AllFrom '/' GoodPart true [] text.toList := by
  constructor
  · intro ⟨rel, ⟨hrel, htail⟩, htext⟩
    subst htext
    cases rel with
    | nil => exact .inl rfl
    | cons c rest =>
      refine .inr (SplitParts.allFrom_iff.mpr ?_)
      have hgood : ∀ c : Component, (c ≠ .rootDir ∧ ∀ name, c = .normal name → PlainName name) →
          '/' ∉ c.asOsStr.toList ∧ c.asOsStr.toList ≠ [] ∧
            (c.asOsStr.toList = ['.'] → c = .curDir) := by
        intro c hc
        cases c with
        | rootDir => exact absurd rfl hc.1
        | curDir => exact ⟨by decide, by decide, fun _ => rfl⟩
        | parentDir => exact ⟨by decide, by decide, by decide⟩
        | normal name =>
          obtain ⟨hslash, hne, hdot, -⟩ := hc.2 name rfl
          exact ⟨hslash, hne, fun h => absurd h hdot⟩
      refine ⟨c.asOsStr.toList, rest.map fun c => c.asOsStr.toList, ?_, ?_, ?_⟩
      · rw [toList_normalise]
        refine List.splitOn_intercalate '/' ?_ (by simp)
        intro l hl
        obtain ⟨d, hd, rfl⟩ := List.mem_map.mp hl
        exact (hgood d (hrel d hd)).1
      · exact ⟨(hgood c (hrel c List.mem_cons_self)).2.1, fun _ => rfl⟩
      · intro q hq
        obtain ⟨d, hd, rfl⟩ := List.mem_map.mp hq
        obtain ⟨-, hne, hdot⟩ := hgood d (hrel d (List.mem_cons_of_mem _ hd))
        exact ⟨hne, fun h => absurd (hdot h ▸ hd) htail⟩
  · intro h
    obtain rfl | hall := h
    · exact ⟨[], ⟨nofun, List.not_mem_nil⟩, rfl⟩
    · obtain ⟨p, ps, hsplit, hp, hps⟩ := SplitParts.allFrom_iff.mp hall
      rw [List.nil_append] at hp
      have hparts : ∀ q ∈ p :: ps, q ≠ [] ∧ '/' ∉ q := by
        intro q hq
        refine ⟨?_, ?_⟩
        · obtain rfl | hq := List.mem_cons.mp hq
          · exact hp.1
          · exact (hps q hq).1
        · exact SplitParts.notMem_of_mem_splitOn (hsplit ▸ hq)
      refine ⟨(p :: ps).map partComponent, ⟨fun c hc => ?_, ?_⟩, ?_⟩
      · obtain ⟨q, hq, rfl⟩ := List.mem_map.mp hc
        obtain ⟨hne, hslash⟩ := hparts q hq
        unfold partComponent
        split
        · exact ⟨nofun, nofun⟩
        · next hdot =>
          split
          · exact ⟨nofun, nofun⟩
          · next hdots =>
            refine ⟨nofun, fun name hname => ?_⟩
            obtain rfl := Component.normal.inj hname
            unfold PlainName
            rw [String.toList_ofList]
            exact ⟨hslash, hne, hdot, hdots⟩
      · intro hcur
        obtain ⟨q, hq, heq⟩ := List.mem_map.mp hcur
        unfold partComponent at heq
        split at heq
        · next hdot => exact absurd ((hps q hq).2 hdot) (by decide)
        · split at heq <;> cases heq
      · rw [← String.toList_inj, toList_normalise, List.map_map]
        have hid : (fun c : Component => c.asOsStr.toList) ∘ partComponent = id :=
          funext asOsStr_partComponent
        rw [hid, List.map_id, ← hsplit]
        exact List.intercalate_splitOn '/'
/-! ## Where both readings agree -/

/-- The pattern with a letter for each of its wildcards. -/
def sampleText (pat : String) : String :=
  String.ofList ((globTokens pat.toList).map GlobToken.letter)

/-- If a path fits the parts of a glob, so do the letters. -/
theorem allFrom_letters {tokens : List GlobToken} {us : List (List Char)}
    (h : List.Forall₂ GlobToken.Fits tokens us) {first first' : Bool} {part part' : List Char}
    (hall : SplitParts.AllFrom '/' GoodPart first part us.flatten)
    (hpart : (first' = first ∧ part' = part) ∨ 'z' ∈ part') :
    SplitParts.AllFrom '/' GoodPart first' part' (tokens.map GlobToken.letter) := by
  induction h generalizing first first' part part' with
  | nil =>
    obtain ⟨rfl, rfl⟩ | hmark := hpart
    · exact hall
    · exact goodPart_of_mem (.inl hmark)
  | @cons t u tokens us hu _ ih =>
    rw [List.flatten_cons] at hall
    rw [List.map_cons]
    have hwild : t.letter = 'z' → SplitParts.AllFrom '/' GoodPart first' part'
        (t.letter :: tokens.map GlobToken.letter) := by
      intro hletter
      rw [hletter, SplitParts.allFrom_cons (by decide)]
      obtain ⟨_, _, hrest⟩ := hall.of_append
      exact ih hrest (.inr (by simp))
    cases t with
    | char c =>
      obtain rfl : u = [c] := hu
      show SplitParts.AllFrom '/' GoodPart first' part' (c :: tokens.map GlobToken.letter)
      rw [List.singleton_append] at hall
      obtain rfl | hc := eq_or_ne c '/'
      · rw [SplitParts.allFrom_sep] at hall ⊢
        refine ⟨?_, ih hall.2 (.inl ⟨rfl, rfl⟩)⟩
        obtain ⟨rfl, rfl⟩ | hmark := hpart
        · exact hall.1
        · exact goodPart_of_mem (.inl hmark)
      · rw [SplitParts.allFrom_cons hc] at hall ⊢
        refine ih hall ?_
        obtain ⟨rfl, rfl⟩ | hmark := hpart
        · exact .inl ⟨rfl, rfl⟩
        · exact .inr (List.mem_append_left _ hmark)
    | deepDir => exact hwild rfl
    | deep => exact hwild rfl
    | star => exact hwild rfl
    | any => exact hwild rfl

/-- A glob that some path fits has a path as its sample. -/
theorem isPathText_sample {pat text : String} (htext : IsPathText text)
    (h : Divided GlobToken.Fits (globTokens pat.toList) text.toList) :
    IsPathText (sampleText pat) := by
  obtain ⟨us, hus, hflat⟩ := h
  rw [isPathText_iff] at htext ⊢
  rw [sampleText, String.toList_ofList]
  generalize globTokens pat.toList = tokens at hus ⊢
  obtain rfl | hall := htext
  · -- the empty path: all parts are wildcards
    cases hus with
    | nil => exact .inl rfl
    | @cons t u tokens us hu hus =>
      obtain ⟨rfl, hrest⟩ := List.append_eq_nil_iff.mp hflat
      have hletter : t.letter = 'z' := by
        cases t with
        | char c => cases hu
        | _ => rfl
      refine .inr ?_
      rw [List.map_cons, hletter, SplitParts.allFrom_cons (by decide)]
      have hz : SplitParts.AllFrom '/' GoodPart true ['z'] us.flatten := by
        rw [hrest]
        exact goodPart_of_mem (.inl (by simp))
      exact allFrom_letters hus hz (.inl ⟨rfl, rfl⟩)
  · rw [← hflat] at hall
    exact .inr (allFrom_letters hus hall (.inl ⟨rfl, rfl⟩))

/-- A rule with `**` and a path as its sample is wrong about some path. -/
theorem exists_disagreement {pat : String} (hsample : IsPathText (sampleText pat))
    {t : GlobToken} (ht : t ∈ globTokens pat.toList) (hdeep : t.Deep)
    (hagree : ∀ text, IsPathText text →
      (Divided GlobToken.Accepts (globTokens pat.toList) text.toList ↔ GlobMatches pat text)) :
    False := by
  have htokens : ∀ text : List Char, SplitParts.AllFrom '/' GoodPart true [] text →
      (Divided GlobToken.Accepts (globTokens pat.toList) text ↔
        Divided GlobToken.Means (globTokens pat.toList) text) := by
    intro text htext
    have h := hagree (String.ofList text)
      (isPathText_iff.mpr (.inr (by rwa [String.toList_ofList])))
    rwa [GlobMatches, String.toList_ofList] at h
  obtain ⟨front, rest, hsplit⟩ := List.append_of_mem ht
  rw [isPathText_iff, sampleText, String.toList_ofList] at hsample
  generalize globTokens pat.toList = tokens at *
  have hletter : t.letter = 'z' := by
    obtain rfl | rfl := hdeep <;> rfl
  have hsampleText : tokens.map GlobToken.letter =
      front.map GlobToken.letter ++ 'z' :: rest.map GlobToken.letter := by
    rw [hsplit, List.map_append, List.map_cons, hletter]
  have hall : SplitParts.AllFrom '/' GoodPart true [] (tokens.map GlobToken.letter) := by
    refine hsample.resolve_left fun hempty => ?_
    have hnil := congrArg String.toList hempty
    rw [String.toList_ofList, hsampleText] at hnil
    simp at hnil
  -- Where the `**` is, the expression accepts more components than the glob has parts.
  rw [hsampleText] at hall
  have hlong := hall.insert (show 'z' ≠ '/' by decide) (fun _ _ h => goodPart_of_mem (.inl h))
    (tokens.length + 1)
  have haccepts : Divided GlobToken.Accepts tokens (front.map GlobToken.letter ++
      (SplitParts.chain '/' 'z' (tokens.length + 1) ++ 'z' :: rest.map GlobToken.letter)) := by
    have hparts := (divided_letters front).append
      (.cons (GlobToken.accepts_chain hdeep (tokens.length + 1)) (divided_letters rest))
    rw [← hsplit, List.append_assoc, List.singleton_append] at hparts
    exact hparts
  obtain ⟨us, hus, hflat⟩ := (htokens _ hlong).mp haccepts
  have hcount : tokens.length < us.flatten.count '/' := by
    have hchain := SplitParts.le_count_chain '/' 'z' (tokens.length + 1)
    rw [hflat, List.count_append, List.count_append]
    omega
  obtain ⟨t', u, before, after, hdeep', hslash, hmeans, hflat', hput⟩ :=
    exists_deep_slash hus hcount
  -- A `**` stands for some of them then, where newlines may stand as well.
  rw [← hflat, hflat'] at hlong
  have hbroken := hlong.insert (show '\n' ≠ '/' by decide) (fun _ _ h => goodPart_of_mem (.inr h))
    (tokens.length + 1)
  have hmatches := hput _ (GlobToken.means_append hdeep' hslash hmeans
    (SplitParts.chain '/' '\n' (tokens.length + 1)))
  rw [List.append_assoc] at hmatches
  have hbreaks := breaks_le_length ((htokens _ hbroken).mpr hmatches)
  have hchain := le_breaks_chain (tokens.length + 1) (u ++ after)
  have hfront := le_breaks_append before
    (SplitParts.chain '/' '\n' (tokens.length + 1) ++ (u ++ after))
  omega

/-- A compiled glob matches the paths that its pattern stands for exactly when the pattern has no
    `**`, or when no path can match it. -/
theorem glob_agrees_iff (crate : RegexCrate) (pat : String) (rule : String → Bool)
    (hrule : crate.compile (globToRegex pat) = some rule) :
    (∀ rel, RelativePath rel → (rule (normalise rel) = true ↔ GlobMatches pat (normalise rel))) ↔
      (∀ t ∈ globTokens pat.toList, ¬ t.Deep) ∨ ¬ IsPathText (sampleText pat) := by
  have hpaths : (∀ rel, RelativePath rel →
      (rule (normalise rel) = true ↔ GlobMatches pat (normalise rel))) ↔
      ∀ text, IsPathText text →
        (Divided GlobToken.Accepts (globTokens pat.toList) text.toList ↔ GlobMatches pat text) := by
    constructor
    · intro h text ⟨rel, hrel, htext⟩
      rw [← htext, ← isMatch_globToRegex hrule]
      exact h rel hrel
    · intro h rel hrel
      rw [isMatch_globToRegex hrule]
      exact h _ ⟨rel, hrel, rfl⟩
  rw [hpaths]
  constructor
  · intro hagree
    by_cases hsample : IsPathText (sampleText pat)
    · exact .inl fun t ht hdeep => exists_disagreement hsample ht hdeep hagree
    · exact .inr hsample
  · intro h text htext
    obtain hshallow | hsample := h
    · have hiff : ∀ t ∈ globTokens pat.toList, ∀ u, t.Accepts u ↔ t.Means u :=
        fun t ht _ => GlobToken.accepts_iff_means (hshallow t ht)
      exact ⟨fun h => h.mono fun t ht u => (hiff t ht u).mp,
        fun h => h.mono fun t ht u => (hiff t ht u).mpr⟩
    · -- no path fits the pattern under either reading
      refine iff_of_false (fun h => ?_) (fun h => ?_)
      · exact hsample (isPathText_sample htext (h.mono fun _ _ _ hu => hu.fits))
      · exact hsample (isPathText_sample htext (h.mono fun _ _ _ hu => hu.fits))


theorem compile_sequences (pat : String) :
    ∃ rule, RegexCrate.sequences.compile (globToRegex pat) = some rule := by
  have hcompile : RegexCrate.sequences.compile (globToRegex pat) =
      (RegexSeq.parse (globToRegex pat).toList).map fun items text =>
        RegexSeq.search items text.toList := rfl
  rw [hcompile, parse_globToRegex]
  exact ⟨_, rfl⟩

theorem glob_agrees_log :
    ∃ rule, RegexCrate.sequences.compile (globToRegex "*.log") = some rule ∧
      ∀ rel, RelativePath rel →
        (rule (normalise rel) = true ↔ GlobMatches "*.log" (normalise rel)) := by
  obtain ⟨rule, hrule⟩ := compile_sequences "*.log"
  have hshallow : ∀ t ∈ globTokens "*.log".toList, ¬ t.Deep := by decide +kernel
  exact ⟨rule, hrule, (glob_agrees_iff .sequences "*.log" rule hrule).mpr (.inl hshallow)⟩

/-- `**/a` also matches the end of a name. -/
theorem glob_matches_end_of_name :
    ∃ rule, RegexCrate.sequences.compile (globToRegex "**/a") = some rule ∧
      RelativePath (.ofNames ["xa"]) ∧
        ¬ (rule (normalise (.ofNames ["xa"])) = true ↔
          GlobMatches "**/a" (normalise (.ofNames ["xa"]))) := by
  obtain ⟨rule, hrule⟩ := compile_sequences "**/a"
  have htokens : globTokens "**/a".toList = [.deepDir, .char 'a'] := by decide +kernel
  have htext : (normalise (.ofNames ["xa"])).toList = ['x', 'a'] := by decide +kernel
  refine ⟨rule, hrule, ⟨?_, by decide⟩, fun hiff => ?_⟩
  · intro c hc
    obtain rfl := List.mem_singleton.mp hc
    refine ⟨nofun, fun name hname => ?_⟩
    obtain rfl := Component.normal.inj hname
    decide
  · rw [isMatch_globToRegex hrule, GlobMatches, htokens, htext] at hiff
    have haccepts : Divided GlobToken.Accepts [.deepDir, .char 'a'] ['x', 'a'] :=
      ⟨[['x'], ['a']], .cons (by show '\n' ∉ ['x']; decide) (.cons rfl .nil), rfl⟩
    obtain ⟨us, hus, hflat⟩ := hiff.mp haccepts
    cases hus with
    | cons hdir hus =>
      cases hus with
      | cons ha hus =>
        cases hus
        obtain rfl := ha
        obtain rfl | ⟨dir, rfl⟩ := hdir
        · exact absurd hflat (by decide)
        · -- there is no slash
          have hslash : '/' ∈ ['x', 'a'] := by
            rw [← hflat]
            simp
          exact absurd hslash (by decide)

end ByteHive
