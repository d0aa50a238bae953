import ByteHive.Native.Exclusions

/-!
# What exclusion globs mean

A glob is a sequence of parts (`globTokens`), each of which stands for some texts
(`GlobToken.Means`). Its translation is read back as the parts, each translated
(`parse_globToRegex`), so that a compiled rule divides the text up among the parts as well, with
what `.*` accepts for `**` (`isMatch_globToRegex`).
-/

namespace ByteHive

/-! ## The parts of a glob -/

/-- A part of a glob, read from the left. -/
inductive GlobToken where
  /-- `**/` -/
  | deepDir
  /-- Another `**`. -/
  | deep
  | star
  | any
  | char (c : Char)
deriving DecidableEq

def globTokens : List Char → List GlobToken
  | '*' :: '*' :: '/' :: pat => .deepDir :: globTokens pat
  | '*' :: '*' :: pat => .deep :: globTokens pat
  | '*' :: pat => .star :: globTokens pat
  | '?' :: pat => .any :: globTokens pat
  | c :: pat => .char c :: globTokens pat
  | [] => []

namespace GlobToken

/-- What a part stands for. -/
def Means : GlobToken → List Char → Prop
  | .deepDir, u => u = [] ∨ ∃ dir, u = dir ++ ['/']
  | .deep, _ => True
  | .star, u => '/' ∉ u
  | .any, u => ∃ c, u = [c] ∧ c ≠ '/'
  | .char c, u => u = [c]

/-- What it is translated to. -/
def item : GlobToken → RegexSeq.Item
  | .deepDir => .many .any
  | .deep => .many .any
  | .star => .many (.notChar '/')
  | .any => .one (.notChar '/')
  | .char c => .one (.char c)

/-- What the translation accepts for it. -/
def Accepts : GlobToken → List Char → Prop
  | .deepDir, u => '\n' ∉ u
  | .deep, u => '\n' ∉ u
  | t, u => t.Means u

theorem spans_item_iff {t : GlobToken} {u : List Char} : t.item.Spans u ↔ t.Accepts u := by
  have hall : ∀ d, (∀ c ∈ u, decide (c ≠ d) = true) ↔ d ∉ u := by
    intro d
    constructor
    · intro h hd
      exact of_decide_eq_true (h d hd) rfl
    · intro h c hc
      exact decide_eq_true fun heq => h (heq ▸ hc)
  cases t with
  | deepDir => exact hall '\n'
  | deep => exact hall '\n'
  | star => exact hall '/'
  | any => simp [item, RegexSeq.Item.Spans, RegexSeq.Atom.accepts, Accepts, Means]
  | char c => simp [item, RegexSeq.Item.Spans, RegexSeq.Atom.accepts, Accepts, Means]

theorem item_writable (t : GlobToken) : t.item.Writable := by
  cases t with
  | star => show RegexSeq.plainInClass '/' = true; decide
  | any => show RegexSeq.plainInClass '/' = true; decide
  | _ => trivial

theorem item_ne (t : GlobToken) : t.item ≠ .start ∧ t.item ≠ .stop := by
  cases t <;> exact ⟨nofun, nofun⟩

end GlobToken

/-- The text is divided up among the parts of the glob. -/
def Divided (R : GlobToken → List Char → Prop) (tokens : List GlobToken) (text : List Char) : Prop :=
  ∃ us, List.Forall₂ R tokens us ∧ us.flatten = text

/-- The whole text matches the glob. -/
def GlobMatches (pat text : String) : Prop :=
  Divided GlobToken.Means (globTokens pat.toList) text.toList

/-! ## The expression -/

/-- The escapes are those that the syntax asks for, but for the wildcards. -/
theorem escaped_eq {c : Char} (hstar : c ≠ '*') (hmark : c ≠ '?') :
    escaped c = RegexSeq.special c := by
  have hwild : RegexSeq.special c = (escaped c || (c == '*' || c == '?')) := by
    rw [Bool.eq_iff_iff]
    simp only [RegexSeq.special, escaped, List.contains_iff_mem, Bool.or_eq_true, beq_iff_eq]
    show c ∈ ['\\', '.', '+', '*', '?', '(', ')', '|', '[', ']', '\x7b', '\x7d', '^', '$'] ↔
      c ∈ ['^', '$', '.', '|', '+', '(', ')', '[', ']', '\x7b', '\x7d', '\\'] ∨ c = '*' ∨ c = '?'
    simp only [List.mem_cons, List.not_mem_nil, or_false]
    tauto
  rw [hwild, beq_false_of_ne hstar, beq_false_of_ne hmark, Bool.or_false, Bool.or_false]

theorem globBody_eq (pat : List Char) :
    globBody pat = ((globTokens pat).map GlobToken.item).flatMap RegexSeq.Item.text ++ ['$'] := by
  fun_induction globTokens pat with
  | case1 pat ih => rw [globBody, ih]; rfl
  | case2 pat hslash ih => rw [globBody, ih]; exacts [rfl, hslash]
  | case3 pat hdir hdeep ih => rw [globBody, ih]; exacts [rfl, hdir, hdeep]
  | case4 pat ih => rw [globBody, ih]; rfl
  | case5 c pat hdir hdeep hstar hmark ih =>
    rw [globBody, ih, escaped_eq hstar hmark, List.map_cons, List.flatMap_cons, List.append_assoc]
    exacts [rfl, hdir, hdeep, hstar, hmark]
  | case6 => rfl

/-- The expression is the parts of the glob, each translated, between anchors. -/
theorem parse_globToRegex (pat : String) :
    RegexSeq.parse (globToRegex pat).toList =
      some (.start :: (globTokens pat.toList).map GlobToken.item ++ [.stop]) := by
  have htext : (globToRegex pat).toList =
      (RegexSeq.Item.start :: (globTokens pat.toList).map GlobToken.item ++
        [RegexSeq.Item.stop]).flatMap RegexSeq.Item.text := by
    rw [globToRegex, String.toList_ofList, globBody_eq, List.cons_append, List.flatMap_cons,
      List.flatMap_append]
    rfl
  rw [htext]
  refine RegexSeq.parse_text fun i hi => ?_
  simp only [List.cons_append, List.mem_cons, List.mem_append, List.mem_map, List.not_mem_nil,
    or_false] at hi
  obtain rfl | ⟨t, -, rfl⟩ | rfl := hi
  · trivial
  · exact t.item_writable
  · trivial

/-- What a compiled glob matches: its parts as the translation accepts them. -/
theorem isMatch_globToRegex {crate : RegexCrate} {pat : String} {rule : String → Bool}
    (hrule : crate.compile (globToRegex pat) = some rule) (text : String) :
    rule text = true ↔ Divided GlobToken.Accepts (globTokens pat.toList) text.toList := by
  have hitems : ∀ i ∈ (globTokens pat.toList).map GlobToken.item, i ≠ .start ∧ i ≠ .stop := by
    intro i hi
    obtain ⟨t, -, rfl⟩ := List.mem_map.mp hi
    exact t.item_ne
  rw [crate.isMatch_iff _ _ _ (parse_globToRegex pat) hrule, RegexSeq.search_anchored_iff hitems]
  have hspans : ∀ us, List.Forall₂ RegexSeq.Item.Spans
      ((globTokens pat.toList).map GlobToken.item) us ↔
      List.Forall₂ GlobToken.Accepts (globTokens pat.toList) us := by
    intro us
    rw [List.forall₂_map_left_iff]
    exact iff_of_eq (congrArg (fun R => List.Forall₂ R (globTokens pat.toList) us)
      (funext fun t => funext fun u => propext GlobToken.spans_item_iff))
  exact exists_congr fun us => and_congr_left fun _ => hspans us

end ByteHive
