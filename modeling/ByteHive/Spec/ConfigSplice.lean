import ByteHive.ForStd.TomlWalk
import ByteHive.Native.ConfigSplice

/-!
# What a rewrite of the config file leaves alone

The loop that replaces sections sees headers where a line looks like one. `Spliceable` says that
it sees what TOML does: a line that looks like the header of an owned section belongs to an owned
key, one that looks like another header does not, and any other line belongs to an owned key if
and only if the line before does.

## Key results

- `KeptLines.line`: what one turn of the loop keeps
- `items_splice`: the lines of the other keys stay, those of the owned keys are the fresh ones
- `splice_replaces_owned`: the document that is written
-/

namespace ByteHive

open TextLines TomlDoc

/-- What the loop takes a line for. -/
inductive LineClass where
  /-- The header of an owned section. -/
  | owned
  | header
  | plain
deriving DecidableEq, Repr

def classify (names : List Text) (l : Text) : LineClass :=
  if isArrayHdr (trim l) = true then
    if names.contains (sectionName (trim l)) = true then .owned else .header
  else if isTableHdr (trim l) = true then .header
  else .plain

/-- The lines are seen as they are. `owned` is whether the last line that says something belongs to
    an owned key, `blank` whether the lines after it that look blank are so outside of values. -/
def recognised (names : List Text) : Bool → Bool → Walk → List Text → Bool
  | _, _, _, [] => true
  | owned, blank, w, l :: ls =>
    match w.line l with
    | none => true
    | some (none, w') => recognised names owned blank w' ls
    | some (some (key, _), w') =>
      match classify names l with
      | .owned => decide (key ∈ names) && recognised names true true w' ls
      | .header => decide (key ∉ names) && blank && recognised names false true w' ls
      | .plain =>
        decide (decide (key ∈ names) = owned) &&
          recognised names owned
            (if owned = true ∧ isTrivia (trim l) = true then blank && (leading l).all isBlank
              else true) w' ls

/-- The loop sees the sections of the document as they are. -/
def Spliceable (names : List Text) (original : Text) : Prop :=
  recognised names false true .start (lines original) = true

instance (names : List Text) (original : Text) : Decidable (Spliceable names original) :=
  inferInstanceAs (Decidable (_ = true))

/-! ## One turn of the loop -/

namespace Splice

variable {names : List Text} {l : Text}

theorem line_of_owned (h : classify names l = .owned) (s : Splice) :
    s.line names l = { s with pending := [], inSection := true, foundFirst := true } := by
  simp only [classify] at h
  split at h
  · next harray =>
    split at h
    · next hname => simp only [line, harray, hname, if_true]
    · cases h
  · split at h
    · cases h
    · cases h

theorem line_of_header (h : classify names l = .header) (s : Splice) :
    s.line names l = { s with inSection := false }.keep l := by
  simp only [classify] at h
  split at h
  · next harray =>
    split at h
    · cases h
    · next hname => simp only [line, harray, if_true, if_neg hname]
  · next harray =>
    split at h
    · next htable => simp only [line, if_neg harray, htable, if_true]
    · cases h

theorem line_of_plain (h : classify names l = .plain) (s : Splice) :
    s.line names l =
      if s.inSection = true then
        { s with pending := if isTrivia (trim l) = true then s.pending ++ [l] else [] }
      else s.keep l := by
  have htrivia : (trim l = [] ∨ ['#'].isPrefixOf (trim l) = true) ↔ isTrivia (trim l) = true := by
    rw [isTrivia, decide_eq_true_eq]
    cases trim l with
    | nil => simp
    | cons c t =>
      simp only [List.isPrefixOf, Bool.and_true, beq_iff_eq, List.head?_cons, Option.some.injEq,
        reduceCtorEq, false_or]
      exact eq_comm
  simp only [classify] at h
  split at h
  · split at h
    · cases h
    · cases h
  · next harray =>
    split at h
    · cases h
    · next htable =>
      have hline : s.line names l = if s.inSection = true then
          if trim l = [] ∨ ['#'].isPrefixOf (trim l) = true then
            { s with pending := s.pending ++ [l] }
          else { s with pending := [] }
        else s.keep l := by
        rw [line]
        exact (if_neg harray).trans (if_neg htable)
      rw [hline]
      split
      · split
        · next h => rw [if_pos (htrivia.mp h)]
        · next h => rw [if_neg (mt htrivia.mpr h)]
      · rfl

/-- A line that looks like a header starts with a bracket. -/
theorem head_of_classify (h : classify names l ≠ .plain) : (trim l).head? = some '[' := by
  have hhead : ∀ t : Text, isArrayHdr t = true ∨ isTableHdr t = true → t.head? = some '[' := by
    intro t ht
    cases t with
    | nil =>
      cases ht with
      | inl ht => cases ht
      | inr ht => cases ht
    | cons c t =>
      cases ht with
      | inl ht =>
        simp only [isArrayHdr, List.isPrefixOf, Bool.and_eq_true, beq_iff_eq] at ht
        rw [List.head?_cons, ht.1.1.1]
      | inr ht =>
        simp only [isTableHdr, List.isPrefixOf, Bool.and_eq_true, beq_iff_eq] at ht
        rw [List.head?_cons, ht.1.1.1]
  apply hhead
  by_contra hneither
  rw [not_or] at hneither
  apply h
  rw [classify, if_neg hneither.1, if_neg hneither.2]

end Splice

/-- What the loop has kept of the lines so far, and what these say: `bs` before the first owned
    section and `as` after it. -/
structure KeptLines (names : List Text) (s : Splice) (owned blank : Bool) (w : Walk)
    (bs as : List (Key × Item)) : Prop where
  inSection : s.inSection = owned
  blankOf : owned = false → blank = true
  inside : ∀ k u, w.inside = some (k, u) → decide (k ∈ names) = owned
  noPending : owned = false → s.pending = []
  /-- The lines that wait for the next header are blank or comments wherever they stand. -/
  pending : blank = true → ∀ l ∈ s.pending, '\r' ∉ l ∧ isTrivia (trim l) = true ∧
    (leading l).all isBlank = true
  newlines : ∀ l ∈ s.before ++ s.after ++ s.pending, '\n' ∉ l
  notFound : s.foundFirst = false → owned = false ∧ s.after = [] ∧ as = [] ∧
    walk .start s.before = some (bs, w)
  found : s.foundFirst = true → ∃ u, u.inside = none ∧ walk .start s.before = some (bs, u)
  /-- What is kept after an owned section starts with a header. -/
  after : s.foundFirst = true → ∀ v : Walk, v.inside = none →
    ∃ u, walk v s.after = some (as, u) ∧ if owned = true then u.inside = none else u = w

namespace KeptLines

variable {names : List Text} {s : Splice} {owned blank : Bool} {w w' : Walk} {l : Text}
  {bs as : List (Key × Item)}

theorem start (names : List Text) : KeptLines names .start false true .start [] [] := by
  constructor
  · rfl
  · exact fun _ => rfl
  · exact fun k u h => (by cases h)
  · exact fun _ => rfl
  · exact fun _ l h => (by cases h)
  · exact fun l h => (by cases h)
  · exact fun _ => ⟨rfl, rfl, rfl, rfl⟩
  · exact fun h => (by cases h)
  · exact fun h => (by cases h)

/-- A line that is kept: one that follows kept lines, or a header after an owned section. -/
theorem keep (hs : KeptLines names s owned blank w bs as) {i : Option (Key × Item)}
    (hn : '\n' ∉ l) (hline : w.line l = some (i, w'))
    (hinside : ∀ k u, w'.inside = some (k, u) → k ∉ names)
    (h : owned = false ∨ w.inside = none ∧ (trim l).head? = some '[' ∧ blank = true) :
    ∃ bs' as', KeptLines names ({ s with inSection := false }.keep l) false true w' bs' as' ∧
      bs' ++ as' = bs ++ as ++ i.toList := by
  by_cases hfound : s.foundFirst = true
  · have hkeep : { s with inSection := false }.keep l = { s with
        inSection := false, after := s.after ++ s.pending ++ [l], pending := [] } := by
      simp only [Splice.keep, hfound, if_true]
    rw [hkeep]
    refine ⟨bs, as ++ i.toList, ?_, by rw [List.append_assoc]⟩
    constructor
    · rfl
    · exact fun _ => rfl
    · exact fun k u hk => decide_eq_false (hinside k u hk)
    · exact fun _ => rfl
    · exact fun _ m hm => (by cases hm)
    · intro m hm
      simp only [List.mem_append, List.mem_singleton] at hm
      have hnewlines := hs.newlines m
      simp only [List.mem_append] at hnewlines
      by_cases hml : m = l
      · rw [hml]; exact hn
      · apply hnewlines
        simp only [hml, List.not_mem_nil, or_false] at hm
        rw [or_assoc]
        exact hm
    · exact fun h => absurd (hfound.symm.trans h) (by simp)
    · exact fun _ => hs.found hfound
    · intro _ v hv
      obtain ⟨u, hwalk, hu⟩ := hs.after hfound v hv
      refine ⟨w', ?_, by rw [if_neg (by simp)]⟩
      -- the lines in between say nothing, and the header starts as it did
      have hlast : walk u (s.pending ++ [l]) = some (i.toList, w') := by
        cases howned : owned with
        | false =>
          rw [howned, if_neg (by simp)] at hu
          rw [hs.noPending howned, hu]
          exact walk_singleton.mpr ⟨i, hline, rfl⟩
        | true =>
          rw [howned, if_pos rfl] at hu
          cases h with
          | inl h => rw [howned] at h; cases h
          | inr h =>
            have hheader : u.line l = some (i, w') :=
              (Walk.line_of_header hu h.1 h.2.1).trans hline
            exact walk_append.mpr ⟨[], u, i.toList, walk_of_trivia hu (hs.pending h.2.2),
              walk_singleton.mpr ⟨i, hheader, rfl⟩, rfl⟩
      rw [List.append_assoc]
      exact walk_append.mpr ⟨as, u, i.toList, hwalk, hlast, rfl⟩
  · rw [Bool.not_eq_true] at hfound
    obtain ⟨howned, hafter, has, hbefore⟩ := hs.notFound hfound
    have hpending := hs.noPending howned
    have hkeep : { s with inSection := false }.keep l =
        { s with inSection := false, before := s.before ++ [l] } := by
      simp only [Splice.keep, hfound, Bool.false_eq_true, if_false, hpending, List.append_nil]
    rw [hkeep]
    refine ⟨bs ++ i.toList, [], ?_, by rw [has, List.append_nil, List.append_nil]⟩
    constructor
    · rfl
    · exact fun _ => rfl
    · exact fun k u hk => decide_eq_false (hinside k u hk)
    · exact fun _ => hpending
    · intro _ m hm
      rw [show s.pending = [] from hpending] at hm
      cases hm
    · intro m hm
      simp only [List.mem_append, List.mem_singleton] at hm
      have hnewlines := hs.newlines m
      simp only [List.mem_append] at hnewlines
      by_cases hml : m = l
      · rw [hml]; exact hn
      · apply hnewlines
        simpa [hml] using hm
    · exact fun _ => ⟨rfl, hafter, rfl, walk_append.mpr
        ⟨bs, w, i.toList, hbefore, walk_singleton.mpr ⟨i, hline, rfl⟩, rfl⟩⟩
    · exact fun h => absurd (hfound.symm.trans h) (by simp)
    · exact fun h => absurd (hfound.symm.trans h) (by simp)

theorem foundFirst_of_owned (hs : KeptLines names s true blank w bs as) : s.foundFirst = true := by
  by_contra hfound
  rw [Bool.not_eq_true] at hfound
  cases (hs.notFound hfound).1

/-- A line that is left out: it starts an owned section or goes on with one. -/
theorem drop (hs : KeptLines names s owned blank w bs as) {pending : List Text} {blank' : Bool}
    (hinside : ∀ k u, w'.inside = some (k, u) → k ∈ names)
    (hpending : blank' = true → ∀ l ∈ pending, '\r' ∉ l ∧ isTrivia (trim l) = true ∧
      (leading l).all isBlank = true)
    (hnewlines : ∀ l ∈ pending, '\n' ∉ l) (h : owned = true ∨ w.inside = none) :
    KeptLines names { s with pending, inSection := true, foundFirst := true } true blank' w'
      bs as := by
  constructor
  · rfl
  · exact fun h => (by cases h)
  · exact fun k u hk => decide_eq_true (hinside k u hk)
  · exact fun h => (by cases h)
  · exact hpending
  · intro m hm
    have hbefore := hs.newlines m
    simp only [List.mem_append] at hm hbefore
    cases hm with
    | inl hm => exact hbefore (.inl hm)
    | inr hm => exact hnewlines m hm
  · exact fun h => (by cases h)
  · intro _
    by_cases hfound : s.foundFirst = true
    · exact hs.found hfound
    · rw [Bool.not_eq_true] at hfound
      obtain ⟨howned, -, -, hbefore⟩ := hs.notFound hfound
      cases h with
      | inl h => rw [howned] at h; cases h
      | inr h => exact ⟨w, h, hbefore⟩
  · intro _ v hv
    by_cases hfound : s.foundFirst = true
    · obtain ⟨u, hwalk, hu⟩ := hs.after hfound v hv
      refine ⟨u, hwalk, ?_⟩
      rw [if_pos rfl]
      cases howned : owned with
      | true =>
        rw [howned, if_pos rfl] at hu
        exact hu
      | false =>
        rw [howned, if_neg (by simp)] at hu
        cases h with
        | inl h => rw [howned] at h; cases h
        | inr h => rw [hu]; exact h
    · rw [Bool.not_eq_true] at hfound
      obtain ⟨-, hafter, has, -⟩ := hs.notFound hfound
      refine ⟨v, ?_, by rw [if_pos rfl]; exact hv⟩
      rw [has]
      show walk v s.after = _
      rw [hafter]
      rfl

/-- In an owned section the loop stays where it is. -/
theorem line_of_plain_owned (hs : KeptLines names s true blank w bs as)
    (h : classify names l = .plain) :
    s.line names l = { s with
      pending := if isTrivia (trim l) = true then s.pending ++ [l] else []
      inSection := true
      foundFirst := true } := by
  have hin := hs.inSection
  have hfound := hs.foundFirst_of_owned
  rw [Splice.line_of_plain h, if_pos hin]
  obtain ⟨before, after, foundFirst, inSection, pending⟩ := s
  simp only at hin hfound
  rw [hin, hfound]

theorem line_of_plain_kept (hs : KeptLines names s false blank w bs as)
    (h : classify names l = .plain) :
    s.line names l = { s with inSection := false }.keep l := by
  have hin := hs.inSection
  rw [Splice.line_of_plain h, if_neg (by rw [hin]; simp)]
  obtain ⟨before, after, foundFirst, inSection, pending⟩ := s
  simp only at hin
  rw [hin]

/-- A line of another kind than the one before is not in a value. -/
theorem inside_of_switch (hs : KeptLines names s owned blank w bs as) {key : Key} {item : Item}
    (hline : w.line l = some (some (key, item), w')) (hne : decide (key ∈ names) ≠ owned) :
    w.inside = none := by
  cases hw : w.inside with
  | none => rfl
  | some k =>
    have howned := hs.inside k.1 k.2 hw
    rw [(Walk.key_of_line hline).1 k.1 k.2 hw] at howned
    exact absurd howned hne

/-- A blank line or a comment waits for the next header, or is kept. -/
theorem line_trivia (hs : KeptLines names s owned blank w bs as) (hn : '\n' ∉ l)
    (hline : w.line l = some (none, w')) :
    ∃ bs' as', KeptLines names (s.line names l) owned blank w' bs' as' ∧
      bs' ++ as' = bs ++ as := by
  have hr := Walk.notMem_of_line hline
  obtain ⟨hw, htrivia, hblank⟩ := Walk.trivia_of_line hline
  have hsame := (Walk.line_of_trivia hw hr htrivia hblank).symm.trans hline
  rw [Option.some.injEq, Prod.mk.injEq] at hsame
  have hinside : ∀ {P : Key → Prop} k u, w'.inside = some (k, u) → P k := by
    intro P k u hk
    rw [← hsame.2, hw] at hk
    cases hk
  have hplain : classify names l = .plain := by
    by_contra hclass
    have hhead := Splice.head_of_classify hclass
    rw [isTrivia, decide_eq_true_eq, hhead] at htrivia
    cases htrivia with
    | inl h => rw [h] at hhead; cases hhead
    | inr h => cases h
  cases owned with
  | true =>
    refine ⟨bs, as, ?_, rfl⟩
    rw [hs.line_of_plain_owned hplain, if_pos htrivia]
    apply hs.drop hinside
    · intro hb m hm
      cases List.mem_append.mp hm with
      | inl hm => exact hs.pending hb m hm
      | inr hm =>
        rw [List.mem_singleton] at hm
        rw [hm]
        exact ⟨hr, htrivia, hblank⟩
    · intro m hm
      cases List.mem_append.mp hm with
      | inl hm => exact hs.newlines m (List.mem_append_right _ hm)
      | inr hm =>
        rw [List.mem_singleton] at hm
        rw [hm]
        exact hn
    · exact .inl rfl
  | false =>
    obtain ⟨bs', as', hkept, hitems⟩ := hs.keep hn hline hinside (.inl rfl)
    rw [hs.blankOf rfl, hs.line_of_plain_kept hplain]
    exact ⟨bs', as', hkept, by simpa using hitems⟩

/-- A line that says something and looks like no header: it is left out, or kept. -/
theorem line_plain (hs : KeptLines names s owned blank w bs as) {key : Key} {item : Item}
    (hn : '\n' ∉ l) (hline : w.line l = some (some (key, item), w'))
    (hclass : classify names l = .plain) (hkey : decide (key ∈ names) = owned) :
    ∃ bs' as', KeptLines names (s.line names l) owned
        (if owned = true ∧ isTrivia (trim l) = true then blank && (leading l).all isBlank
          else true) w' bs' as' ∧
      bs' ++ as' = bs ++ as ++ [(key, item)].filter (fun x => decide (x.1 ∉ names)) := by
  have hr := Walk.notMem_of_line hline
  have hwkey := (Walk.key_of_line hline).2
  cases owned with
  | true =>
    have hkey : key ∈ names := of_decide_eq_true hkey
    refine ⟨bs, as, ?_, by simp [hkey]⟩
    rw [hs.line_of_plain_owned hclass]
    apply hs.drop
    · intro k u hk
      rw [hwkey k u hk]
      exact hkey
    · intro hb m hm
      split at hm
      · next htrivia =>
        rw [if_pos ⟨rfl, htrivia⟩, Bool.and_eq_true] at hb
        cases List.mem_append.mp hm with
        | inl hm => exact hs.pending hb.1 m hm
        | inr hm =>
          rw [List.mem_singleton] at hm
          rw [hm]
          exact ⟨hr, htrivia, hb.2⟩
      · cases hm
    · intro m hm
      split at hm
      · cases List.mem_append.mp hm with
        | inl hm => exact hs.newlines m (List.mem_append_right _ hm)
        | inr hm =>
          rw [List.mem_singleton] at hm
          rw [hm]
          exact hn
      · cases hm
    · exact .inl rfl
  | false =>
    have hkey : key ∉ names := of_decide_eq_false hkey
    have hinside : ∀ k u, w'.inside = some (k, u) → k ∉ names := by
      intro k u hk
      rw [hwkey k u hk]
      exact hkey
    obtain ⟨bs', as', hkept, hitems⟩ := hs.keep hn hline hinside (.inl rfl)
    rw [hs.line_of_plain_kept hclass, if_neg (by simp)]
    refine ⟨bs', as', hkept, ?_⟩
    rw [hitems]
    simp [hkey]

/-- One turn of the loop keeps what the line says unless it belongs to an owned key. -/
theorem line {ls : List Text} {i : Option (Key × Item)}
    (hs : KeptLines names s owned blank w bs as) (hn : '\n' ∉ l)
    (hline : w.line l = some (i, w'))
    (hrec : recognised names owned blank w (l :: ls) = true) :
    ∃ owned' blank' bs' as', KeptLines names (s.line names l) owned' blank' w' bs' as' ∧
      recognised names owned' blank' w' ls = true ∧
      bs' ++ as' = bs ++ as ++ i.toList.filter (fun x => decide (x.1 ∉ names)) := by
  rw [recognised, hline] at hrec
  cases i with
  | none =>
    obtain ⟨bs', as', hkept, hitems⟩ := hs.line_trivia hn hline
    exact ⟨owned, blank, bs', as', hkept, hrec, by simpa using hitems⟩
  | some x =>
    obtain ⟨key, item⟩ := x
    have hwkey := (Walk.key_of_line hline).2
    simp only at hrec
    cases hclass : classify names l with
    | owned =>
      simp only [hclass, Bool.and_eq_true, decide_eq_true_eq] at hrec
      refine ⟨true, true, bs, as, ?_, hrec.2, by simp [hrec.1]⟩
      rw [Splice.line_of_owned hclass]
      apply hs.drop
      · intro k u hk
        rw [hwkey k u hk]
        exact hrec.1
      · exact fun _ m hm => (by cases hm)
      · exact fun m hm => (by cases hm)
      · cases howned : owned with
        | true => exact .inl rfl
        | false =>
          right
          apply hs.inside_of_switch hline
          rw [decide_eq_true hrec.1, howned]
          simp
    | header =>
      simp only [hclass, Bool.and_eq_true, decide_eq_true_eq] at hrec
      have hkeep : owned = false ∨
          w.inside = none ∧ (trim l).head? = some '[' ∧ blank = true := by
        cases howned : owned with
        | false => exact .inl rfl
        | true =>
          refine .inr ⟨hs.inside_of_switch hline ?_,
            Splice.head_of_classify (by rw [hclass]; simp), hrec.1.2⟩
          rw [decide_eq_false hrec.1.1, howned]
          simp
      have hinside : ∀ k u, w'.inside = some (k, u) → k ∉ names := by
        intro k u hk
        rw [hwkey k u hk]
        exact hrec.1.1
      obtain ⟨bs', as', hkept, hitems⟩ := hs.keep hn hline hinside hkeep
      refine ⟨false, true, bs', as', ?_, hrec.2, ?_⟩
      · rw [Splice.line_of_header hclass]
        exact hkept
      · rw [hitems]
        simp [hrec.1.1]
    | plain =>
      simp only [hclass, Bool.and_eq_true, decide_eq_true_eq] at hrec
      obtain ⟨bs', as', hkept, hitems⟩ := hs.line_plain hn hline hclass hrec.1
      exact ⟨owned, _, bs', as', hkept, hrec.2, hitems⟩

/-- The whole loop. -/
theorem lines {ls : List Text} {is : List (Key × Item)} (hn : ∀ l ∈ ls, '\n' ∉ l)
    (hs : KeptLines names s owned blank w bs as) (hwalk : walk w ls = some (is, w'))
    (hrec : recognised names owned blank w ls = true) :
    ∃ owned' blank' bs' as',
      KeptLines names (ls.foldl (Splice.line names) s) owned' blank' w' bs' as' ∧
      bs' ++ as' = bs ++ as ++ is.filter (fun x => decide (x.1 ∉ names)) := by
  induction ls generalizing s owned blank w bs as is with
  | nil =>
    cases hwalk
    exact ⟨owned, blank, bs, as, hs, by simp⟩
  | cons l ls ih =>
    obtain ⟨i, u, rs, hline, hrest, his⟩ := walk_cons.mp hwalk
    obtain ⟨owned', blank', bs', as', hkept, hrec', hitems⟩ :=
      hs.line (hn l List.mem_cons_self) hline hrec
    obtain ⟨owned'', blank'', bs'', as'', hlast, hitems'⟩ :=
      ih (fun m hm => hn m (List.mem_cons_of_mem l hm)) hkept hrest hrec'
    refine ⟨owned'', blank'', bs'', as'', hlast, ?_⟩
    rw [hitems', hitems, show is = i.toList ++ rs from his, List.filter_append,
      List.append_assoc (bs ++ as)]

end KeptLines

namespace KeptLines

variable {names : List Text} {s : Splice} {owned blank : Bool} {w : Walk}
  {bs as : List (Key × Item)}

/-- What comes before the first owned section, trimmed. -/
theorem walk_before (hs : KeptLines names s owned blank w bs as) (hw : w.inside = none) :
    ∃ u, u.inside = none ∧
      walk .start (closed (trimEnd (join s.before))) = some (bs, u) := by
  have hjoin : ∀ u, walk .start s.before = some (bs, u) → u.inside = none →
      walk .start (closed (trimEnd (join s.before))) = some (bs, u) := fun u hwalk hu =>
    walk_trimEnd_join (fun l hl => hs.newlines l (by simp [hl])) hwalk hu
  by_cases hfound : s.foundFirst = true
  · obtain ⟨u, hu, hwalk⟩ := hs.found hfound
    exact ⟨u, hu, hjoin u hwalk hu⟩
  · rw [Bool.not_eq_true] at hfound
    exact ⟨w, hw, hjoin w (hs.notFound hfound).2.2.2 hw⟩

/-- What comes after it, trimmed. -/
theorem walk_after (hs : KeptLines names s owned blank w bs as) (hw : w.inside = none) {v : Walk}
    (hv : v.inside = none) :
    ∃ u, u.inside = none ∧ walk v (closed (trimStart (join s.after))) = some (as, u) := by
  have hjoin : ∀ u, walk v s.after = some (as, u) →
      walk v (closed (trimStart (join s.after))) = some (as, u) := fun u hwalk =>
    walk_trimStart_join (fun l hl => hs.newlines l (by simp [hl])) hv hwalk
  by_cases hfound : s.foundFirst = true
  · obtain ⟨u, hwalk, hu⟩ := hs.after hfound v hv
    refine ⟨u, ?_, hjoin u hwalk⟩
    split at hu
    · exact hu
    · rw [hu]
      exact hw
  · rw [Bool.not_eq_true] at hfound
    obtain ⟨-, hnil, has, -⟩ := hs.notFound hfound
    refine ⟨v, hv, hjoin v ?_⟩
    rw [hnil, has]
    rfl

end KeptLines

/-! ## The text that is written -/

variable {names : List Text} {original fresh : Text}

/-- The fresh sections behind what comes before them, with a blank line between. -/
theorem walk_fresh {b : Text} {bs fs : List (Key × Item)} {u : Walk} (hu : u.inside = none)
    (hb : walk .start (closed b) = some (bs, u))
    (hfresh : ∀ v : Walk, v.inside = none →
      ∃ u, u.inside = none ∧ walk v (closed (trimEnd fresh)) = some (fs, u)) :
    ∃ x : Walk, x.inside = none ∧ walk .start (closed (
      if trim fresh = [] then b
      else (if b = [] then [] else b ++ ['\n']) ++ ['\n'] ++ trimEnd fresh ++ ['\n'])) =
        some (bs ++ fs, x) := by
  split
  · next hblank =>
    have hnil : trimEnd fresh = [] := by
      rw [← trimStart_trimEnd, trimStart_eq_nil_iff, trimEnd_trimEnd] at hblank
      exact hblank
    obtain ⟨y, -, hwalk⟩ := hfresh u hu
    rw [hnil, walk_closed_nil hu, Option.some.injEq, Prod.mk.injEq] at hwalk
    rw [← hwalk.1, List.append_nil]
    exact ⟨u, hu, hb⟩
  · have hstart : walk .start (closed (if b = [] then [] else b ++ ['\n'])) = some (bs, u) := by
      split
      · next hnil =>
        rw [hnil] at hb
        exact hb
      · have happend := walk_closed_append hb (walk_closed_nil hu)
        rw [List.append_nil] at happend
        exact happend
    obtain ⟨z, hz, hwalk⟩ := hfresh u hu
    have happend := walk_closed_append hstart (walk_closed_append hwalk (walk_closed_nil hz))
    rw [List.append_nil] at happend
    refine ⟨z, hz, ?_⟩
    simp only [List.append_assoc, List.cons_append, List.nil_append] at happend ⊢
    exact happend

/-- The lines of the other keys stay in their order, and the fresh ones come between them. -/
theorem items_splice {is fs : List (Key × Item)} (his : items original = some is)
    (hspliceable : Spliceable names original) (hr : '\r' ∉ fresh)
    (hfresh : ∀ v : Walk, v.inside = none →
      ∃ u, u.inside = none ∧ walk v (lines fresh) = some (fs, u)) :
    ∃ bs as, bs ++ as = is.filter (fun x => decide (x.1 ∉ names)) ∧
      items (splice names original fresh) = some (bs ++ fs ++ as) := by
  obtain ⟨⟨is', w⟩, hwalk, hend⟩ := Option.bind_eq_some_iff.mp his
  rw [Option.ite_none_right_eq_some, Option.some.injEq] at hend
  obtain ⟨hw, rfl⟩ := hend
  obtain ⟨owned, blank, bs, as, hs, hitems⟩ :=
    (KeptLines.start names).lines (fun l hl => newline_notMem_lines hl) hwalk hspliceable
  have hfresh' : ∀ v : Walk, v.inside = none →
      ∃ u, u.inside = none ∧ walk v (closed (trimEnd fresh)) = some (fs, u) := by
    intro v hv
    obtain ⟨u, hu, hwalk⟩ := hfresh v hv
    refine ⟨u, hu, ?_⟩
    rw [← trimEnd_join_lines hr]
    exact walk_trimEnd_join (fun l hl => newline_notMem_lines hl) hwalk hu
  obtain ⟨u, hu, hbefore⟩ := hs.walk_before hw
  obtain ⟨x, hx, hout⟩ := walk_fresh hu hbefore hfresh'
  obtain ⟨y, hy, hafter⟩ := hs.walk_after hw hx
  have hlast : walk .start (lines (splice names original fresh)) = some (bs ++ fs ++ as, y) := by
    rw [splice, Splice.output]
    apply walk_endLine _ hy
    split
    · next hnil =>
      rw [hnil, walk_closed_nil hx, Option.some.injEq, Prod.mk.injEq] at hafter
      rw [← hafter.1, ← hafter.2, List.append_nil]
      exact hout
    · have happend := walk_closed_append hout hafter
      simp only [List.append_assoc, List.cons_append, List.nil_append] at happend ⊢
      exact happend
  refine ⟨bs, as, hitems, ?_⟩
  rw [items, hlast, Option.bind_some, if_pos hy]

end ByteHive
