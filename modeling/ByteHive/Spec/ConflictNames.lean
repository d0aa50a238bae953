import Mathlib.Data.List.TakeWhile
import ByteHive.Native.Engine

/-!
# Names of conflict copies

A conflict copy is named after its file, the second and the node, between the stem and the
extension. Different files get different names: the split at the last dot can be read back.

## Key results

- `conflictCopyName_inj`: copies of different files have different names
-/

namespace ByteHive

/-- The two ways in which `splitFileAtDot` splits a name. -/
theorem splitFileAtDot_cases (name : String) :
    (splitFileAtDot name = (name, none) ∧
      ('.' ∉ name.toList ∨ ∃ t, name.toList = '.' :: t ∧ '.' ∉ t)) ∨
    ∃ s x, splitFileAtDot name = (String.ofList s, some (String.ofList x)) ∧
      name.toList = s ++ '.' :: x ∧ s ≠ [] ∧ '.' ∉ x := by
  have hjoin := List.takeWhile_append_dropWhile (p := (· ≠ '.')) (l := name.toList.reverse)
  set after := name.toList.reverse.takeWhile (· ≠ '.') with hafter
  set rest := name.toList.reverse.dropWhile (· ≠ '.') with hrest
  have hplain : '.' ∉ after.reverse := by
    rw [List.mem_reverse]
    intro hmem
    simpa using List.mem_takeWhile_imp hmem
  have hname : name.toList = rest.reverse ++ after.reverse := by
    rw [← List.reverse_append, hjoin, List.reverse_reverse]
  unfold splitFileAtDot
  dsimp only
  rw [← hafter, ← hrest]
  cases hr : rest with
  | nil =>
    left
    rw [hr, List.reverse_nil, List.nil_append] at hname
    exact ⟨by simp, .inl (hname ▸ hplain)⟩
  | cons c cs =>
    have hdot : c = '.' := by
      have hhead := List.head?_dropWhile_not (p := (· ≠ '.')) name.toList.reverse
      rw [← hrest, hr] at hhead
      simpa using hhead
    rw [hr, hdot, List.reverse_cons, List.append_assoc, List.singleton_append] at hname
    rw [hdot, List.reverse_cons, List.dropLast_concat]
    by_cases hcs : cs.reverse = []
    · left
      rw [if_pos hcs]
      rw [hcs, List.nil_append] at hname
      exact ⟨rfl, .inr ⟨after.reverse, hname, hplain⟩⟩
    · right
      rw [if_neg hcs]
      exact ⟨cs.reverse, after.reverse, rfl, hname, hcs, hplain⟩

/-- A name with its stem and extension pulled apart by `mid`. -/
def pulledApart (mid name : String) : String :=
  match (splitFileAtDot name).2 with
  | some e => (splitFileAtDot name).1 ++ mid ++ "." ++ e
  | none => (splitFileAtDot name).1 ++ mid

/-- The last dot of a text splits it in one way. -/
theorem append_dot_inj {l l' x x' : List Char} (hx : '.' ∉ x) (hx' : '.' ∉ x')
    (heq : l ++ '.' :: x = l' ++ '.' :: x') : l = l' ∧ x = x' := by
  rcases List.append_eq_append_iff.mp heq with ⟨m, hl, hm⟩ | ⟨m, hl, hm⟩
  · cases m with
    | nil =>
      rw [List.append_nil] at hl
      exact ⟨hl.symm, (List.cons.inj hm).2⟩
    | cons c m =>
      obtain ⟨-, hm⟩ := List.cons.inj hm
      exact absurd (hm ▸ by simp) hx
  · cases m with
    | nil =>
      rw [List.append_nil] at hl
      exact ⟨hl, (List.cons.inj hm).2.symm⟩
    | cons c m =>
      obtain ⟨-, hm⟩ := List.cons.inj hm
      exact absurd (hm ▸ by simp) hx'

/-- A name without an extension and one with cannot meet: their dots do not add up. -/
theorem dots_differ {n s : List Char} (mid x : List Char)
    (hn : '.' ∉ n ∨ ∃ t, n = '.' :: t ∧ '.' ∉ t) (hs : s ≠ []) : n ++ mid ≠ s ++ mid ++ '.' :: x := by
  intro heq
  have hcount := congrArg (List.count '.') heq
  simp only [List.count_append, List.count_cons_self] at hcount
  rcases hn with hn | ⟨t, rfl, ht⟩
  · rw [List.count_eq_zero_of_not_mem hn] at hcount
    omega
  · rw [List.count_cons_self, List.count_eq_zero_of_not_mem ht] at hcount
    -- The one dot of the first name is where the stem of the second starts.
    obtain ⟨c, s', rfl⟩ := List.exists_cons_of_ne_nil hs
    obtain ⟨hc, -⟩ := List.cons.inj heq
    rw [← hc, List.count_cons_self] at hcount
    omega

theorem pulledApart_inj {mid name name' : String}
    (heq : pulledApart mid name = pulledApart mid name') : name = name' := by
  have heq := congrArg String.toList heq
  unfold pulledApart at heq
  rw [← String.toList_inj]
  rcases splitFileAtDot_cases name with ⟨hsplit, hn⟩ | ⟨s, x, hsplit, hn, hs, hx⟩
  · rcases splitFileAtDot_cases name' with ⟨hsplit', hn'⟩ | ⟨s', x', hsplit', hn', hs', hx'⟩
    · rw [hsplit, hsplit'] at heq
      simpa using heq
    · rw [hsplit, hsplit'] at heq
      simp only [String.toList_append, String.toList_ofList] at heq
      exact absurd (by simpa using heq) (dots_differ mid.toList x' hn hs')
  · rcases splitFileAtDot_cases name' with ⟨hsplit', hn'⟩ | ⟨s', x', hsplit', hn', hs', hx'⟩
    · rw [hsplit, hsplit'] at heq
      simp only [String.toList_append, String.toList_ofList] at heq
      exact absurd (by simpa using heq.symm) (dots_differ mid.toList x hn' hs)
    · rw [hsplit, hsplit'] at heq
      simp only [String.toList_append, String.toList_ofList] at heq
      have hcat : (s ++ mid.toList) ++ '.' :: x = (s' ++ mid.toList) ++ '.' :: x' := by
        simpa using heq
      obtain ⟨hstem, hext⟩ := append_dot_inj hx hx' hcat
      rw [hn, hn', List.append_cancel_right hstem, hext]

theorem isSome_fileName {p : PathBuf} (hsafe : safeRelative p = true) (hp : p ≠ []) :
    (fileName p).isSome = true := by
  obtain ⟨name, hname⟩ := safeRelative_iff.mp hsafe (p.getLast hp) (List.getLast_mem hp)
  unfold fileName
  rw [List.getLast?_eq_some_getLast hp, hname]
  rfl

/-- The copies of two files by one node in one second have different names. -/
theorem conflictCopyName_inj {p q : PathBuf} {nodeId : String} {unixSecs : Nat}
    (hp : (fileName p).isSome = true) (hq : (fileName q).isSome = true)
    (heq : conflictCopyName p nodeId unixSecs = conflictCopyName q nodeId unixSecs) : p = q := by
  obtain ⟨n, hn⟩ := Option.isSome_iff_exists.mp hp
  obtain ⟨n', hn'⟩ := Option.isSome_iff_exists.mp hq
  have hlast : ∀ {p : PathBuf} {n : String}, fileName p = some n →
      p = p.dropLast ++ [.normal n] := by
    intro p n hn
    unfold fileName at hn
    split at hn
    · next name hlast =>
      rw [← Option.some.inj hn]
      exact (List.dropLast_append_getLast? _ hlast).symm
    · cases hn
  have hname : ∀ {p : PathBuf} {n : String}, fileName p = some n →
      conflictCopyName p nodeId unixSecs = p.dropLast ++
        [.normal (pulledApart (" (conflict " ++ toString unixSecs ++ " " ++ nodeId ++ ")") n)] := by
    intro p n hn
    unfold conflictCopyName pulledApart
    rw [hn]
    cases hsplit : splitFileAtDot n with
    | mk stem ext =>
      cases ext <;> simp [hsplit, String.append_assoc]
  rw [hname hn, hname hn'] at heq
  obtain ⟨hparent, hfile⟩ := List.append_inj' heq rfl
  have hfile := Component.normal.inj (List.cons.inj hfile).1
  rw [hlast hn, hlast hn', hparent, pulledApart_inj hfile]

end ByteHive
