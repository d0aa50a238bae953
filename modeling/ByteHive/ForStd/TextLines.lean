import Mathlib.Data.List.DropRight

/-!
# The lines of a text

`lines`, `trim` and the joining of lines, as Rust's strings have them, on lists of characters.
A text is closed by a line break at its end: `closed t` are the lines of `t` so closed, and they
are the lines of the parts where a text is put together at line breaks.

## Key results

- `closed_append`: the lines of two texts with a line break between them
- `closed_join`: the lines of lines that are joined
- `trimEnd_join`, `trimStart_join`: what the trimming of joined lines does to their lines
-/

namespace TextLines

abbrev Text := List Char

/-- `char::is_whitespace`. -/
def isWhitespace (c : Char) : Bool :=
  decide (9 ≤ c.toNat ∧ c.toNat ≤ 13) || decide (8192 ≤ c.toNat ∧ c.toNat ≤ 8202) ||
    decide (c.toNat ∈ [32, 133, 160, 5760, 8232, 8233, 8239, 8287, 12288])

def trimStart (t : Text) : Text := t.dropWhile isWhitespace

def trimEnd (t : Text) : Text := t.rdropWhile isWhitespace

def trim (t : Text) : Text := trimEnd (trimStart t)

/-- The whitespace that `trimStart` drops. -/
def leading (t : Text) : Text := t.takeWhile isWhitespace

/-- A character before the first of the lines. -/
def push (c : Char) : List Text → List Text
  | [] => [[c]]
  | l :: ls => (c :: l) :: ls

/-- The lines of a text, without their line breaks. -/
def lines : Text → List Text
  | [] => []
  | '\n' :: t => [] :: lines t
  | '\r' :: '\n' :: t => [] :: lines t
  | c :: t => push c (lines t)

def join (ls : List Text) : Text := ['\n'].intercalate ls

/-- The lines of the text when a line break ends it. -/
def closed (t : Text) : List Text := lines (t ++ ['\n'])

/-- A line break at the end, where there is none. -/
def endLine (t : Text) : Text := if t.getLast? = some '\n' then t else t ++ ['\n']

/-! ## Lines -/

variable {a b l t : Text} {ls : List Text}

theorem push_ne_nil (c : Char) (ls : List Text) : push c ls ≠ [] := by
  cases ls <;> simp [push]

theorem push_append {c : Char} {ls : List Text} (h : ls ≠ []) (ms : List Text) :
    push c (ls ++ ms) = push c ls ++ ms := by
  cases ls with
  | nil => exact absurd rfl h
  | cons l ls => rfl

theorem lines_ne_nil (h : t ≠ []) : lines t ≠ [] := by
  cases t using lines.fun_cases with
  | case1 => exact absurd rfl h
  | case2 t => simp [lines]
  | case3 t => simp [lines]
  | case4 c t hn hr =>
    rw [lines.eq_4 c t hn hr]
    exact push_ne_nil c _

theorem closed_ne_nil : closed t ≠ [] := lines_ne_nil (by simp)

theorem closed_nil : closed [] = [[]] := rfl

/-- A character that ends no line goes to the line after it. -/
theorem closed_cons {c : Char} (hn : c ≠ '\n') (hr : c = '\r' → t.head? ≠ some '\n' ∧ t ≠ []) :
    closed (c :: t) = push c (closed t) := by
  rw [closed, List.cons_append, lines.eq_4 c _ (fun h => hn h)]
  · rfl
  · intro u hc ht
    cases t with
    | nil => exact (hr hc).2 rfl
    | cons d t =>
      rw [List.cons_append, List.cons.injEq] at ht
      exact (hr hc).1 (by rw [List.head?_cons, ht.1])

theorem lines_append_newline (a b : Text) : lines (a ++ '\n' :: b) = closed a ++ lines b := by
  induction a using lines.induct with
  | case1 => simp [closed, lines]
  | case2 t ih => simp only [closed, List.cons_append, lines] at ih ⊢; rw [ih]
  | case3 t ih => simp only [closed, List.cons_append, lines] at ih ⊢; rw [ih]
  | case4 c t hn hr ih =>
    by_cases hcr : c = '\r' ∧ t = []
    · rw [hcr.1, hcr.2]
      simp [closed, lines]
    · have hsame : ∀ u, lines (c :: t ++ '\n' :: u) = push c (lines (t ++ '\n' :: u)) := by
        intro u
        rw [List.cons_append, lines.eq_4 c _ (fun h => hn h)]
        intro v hc ht
        cases t with
        | nil => exact hcr ⟨hc, rfl⟩
        | cons d t =>
          rw [List.cons_append, List.cons.injEq] at ht
          exact hr t hc (by rw [ht.1])
      rw [hsame, ih, push_append closed_ne_nil]
      congr 1
      exact (hsame []).symm

theorem closed_append (a b : Text) : closed (a ++ '\n' :: b) = closed a ++ closed b := by
  rw [closed, List.append_assoc, List.cons_append, lines_append_newline]
  rfl

theorem lines_append_of_ended (h : a = [] ∨ ∃ u, a = u ++ ['\n']) (b : Text) :
    lines (a ++ b) = lines a ++ lines b := by
  cases h with
  | inl h => rw [h]; rfl
  | inr h =>
    obtain ⟨u, rfl⟩ := h
    rw [List.append_assoc, List.cons_append, lines_append_newline]
    rfl

theorem closed_of_plain (hn : '\n' ∉ l) (hr : '\r' ∉ l) : closed l = [l] := by
  induction l with
  | nil => rfl
  | cons c l ih =>
    rw [List.mem_cons, not_or] at hn hr
    rw [closed_cons (fun h => hn.1 h.symm) (fun h => absurd h.symm hr.1), ih hn.2 hr.2]
    rfl

theorem newline_notMem_lines (h : l ∈ lines t) : '\n' ∉ l := by
  induction t using lines.induct generalizing l with
  | case1 => cases h
  | case2 t ih =>
    rw [lines, List.mem_cons] at h
    cases h with
    | inl h => rw [h]; simp
    | inr h => exact ih h
  | case3 t ih =>
    rw [lines, List.mem_cons] at h
    cases h with
    | inl h => rw [h]; simp
    | inr h => exact ih h
  | case4 c t hn hr ih =>
    rw [lines.eq_4 c t hn hr] at h
    cases hl : lines t with
    | nil =>
      rw [hl, push, List.mem_singleton] at h
      rw [h, List.mem_singleton]
      exact fun hc => hn hc.symm
    | cons m ms =>
      rw [hl] at h ih
      rw [push, List.mem_cons] at h
      cases h with
      | inl h =>
        rw [h, List.mem_cons, not_or]
        exact ⟨fun hc => hn hc.symm, ih List.mem_cons_self⟩
      | inr h => exact ih (List.mem_cons_of_mem m h)

/-- Where it has no carriage return, a text is closed by an empty line at most. -/
theorem closed_eq (hr : '\r' ∉ t) : closed t = lines t ∨ closed t = lines t ++ [[]] := by
  induction t using lines.induct with
  | case1 => exact .inr rfl
  | case2 t ih =>
    rw [List.mem_cons, not_or] at hr
    show [] :: closed t = [] :: lines t ∨ [] :: closed t = [] :: lines t ++ [[]]
    cases ih hr.2 with
    | inl h => exact .inl (by rw [h])
    | inr h => exact .inr (by rw [h]; rfl)
  | case3 t => exact absurd List.mem_cons_self hr
  | case4 c t hn hcr ih =>
    rw [List.mem_cons, not_or] at hr
    rw [closed_cons (fun h => hn h) (fun h => absurd h.symm hr.1), lines.eq_4 c t hn hcr]
    cases ih hr.2 with
    | inl h => exact .inl (by rw [h])
    | inr h =>
      cases hl : lines t with
      | nil => exact .inl (by rw [h, hl]; rfl)
      | cons m ms => exact .inr (by rw [h, hl]; rfl)

theorem lines_endLine (t : Text) :
    closed t = lines (endLine t) ∨ closed t = lines (endLine t) ++ [[]] := by
  rw [endLine]
  split
  · next h =>
    obtain ⟨u, rfl⟩ := List.getLast?_eq_some_iff.mp h
    right
    rw [closed_append, closed_nil, closed]
  · exact .inl rfl

/-! ## Joining -/

theorem join_cons_cons (l m : Text) (ms : List Text) :
    join (l :: m :: ms) = l ++ '\n' :: join (m :: ms) := by
  rw [join, List.intercalate_cons_cons]
  simp [join]

theorem join_cons (h : ls ≠ []) : join (l :: ls) = l ++ '\n' :: join ls := by
  cases ls with
  | nil => exact absurd rfl h
  | cons m ms => exact join_cons_cons l m ms

theorem join_concat (h : ls ≠ []) : join (ls ++ [l]) = join ls ++ '\n' :: l := by
  induction ls with
  | nil => exact absurd rfl h
  | cons m ms ih =>
    cases ms with
    | nil => simp [join, List.intercalate]
    | cons m' ms =>
      rw [List.cons_append, List.cons_append, join_cons_cons, join_cons_cons, ← List.cons_append,
        ih (by simp)]
      simp

theorem join_push {c : Char} (h : ls ≠ []) : join (push c ls) = c :: join ls := by
  cases ls with
  | nil => exact absurd rfl h
  | cons m ms =>
    cases ms with
    | nil => simp [push, join, List.intercalate]
    | cons m' ms =>
      rw [push, join_cons_cons, join_cons_cons]
      rfl

theorem closed_join (h : ls ≠ []) (hls : ∀ l ∈ ls, '\n' ∉ l ∧ '\r' ∉ l) :
    closed (join ls) = ls := by
  induction ls with
  | nil => exact absurd rfl h
  | cons l ls ih =>
    have hl := hls l List.mem_cons_self
    cases ls with
    | nil =>
      rw [join, List.intercalate_singleton]
      exact closed_of_plain hl.1 hl.2
    | cons m ms =>
      rw [join_cons_cons, closed_append, closed_of_plain hl.1 hl.2,
        ih (by simp) (fun k hk => hls k (List.mem_cons_of_mem l hk))]
      rfl

theorem join_closed (hr : '\r' ∉ t) : join (closed t) = t := by
  induction t using lines.induct with
  | case1 => rfl
  | case2 t ih =>
    rw [List.mem_cons, not_or] at hr
    show join ([] :: closed t) = _
    rw [join_cons closed_ne_nil, ih hr.2]
    rfl
  | case3 t => exact absurd List.mem_cons_self hr
  | case4 c t hn hcr ih =>
    rw [List.mem_cons, not_or] at hr
    rw [closed_cons (fun h => hn h) (fun h => absurd h.symm hr.1), join_push closed_ne_nil,
      ih hr.2]

/-! ## Trimming -/

theorem trimEnd_append (a l : Text) :
    trimEnd (a ++ l) = if trimEnd l = [] then trimEnd a else a ++ trimEnd l := by
  simp only [trimEnd, List.rdropWhile, List.reverse_append, List.dropWhile_append,
    List.isEmpty_iff, List.reverse_eq_nil_iff]
  split
  · rfl
  · simp

theorem trimStart_append (a l : Text) :
    trimStart (a ++ l) = if trimStart a = [] then trimStart l else trimStart a ++ l := by
  simp only [trimStart, List.dropWhile_append, List.isEmpty_iff]
  rfl

theorem trimEnd_trimEnd (t : Text) : trimEnd (trimEnd t) = trimEnd t :=
  List.rdropWhile_idempotent _ _

theorem trimStart_trimStart (t : Text) : trimStart (trimStart t) = trimStart t :=
  List.dropWhile_idempotent isWhitespace t

theorem trimEnd_cons (c : Char) (t : Text) :
    trimEnd (c :: t) =
      if trimEnd t = [] then if isWhitespace c = true then [] else [c] else c :: trimEnd t := by
  have happend := trimEnd_append [c] t
  rw [show trimEnd [c] = if isWhitespace c = true then [] else [c] from
    List.rdropWhile_singleton isWhitespace c] at happend
  exact happend

theorem trimStart_cons (c : Char) (t : Text) :
    trimStart (c :: t) = if isWhitespace c = true then trimStart t else c :: t :=
  List.dropWhile_cons

/-- Either end may be trimmed first. -/
theorem trimStart_trimEnd (t : Text) : trimStart (trimEnd t) = trim t := by
  rw [trim]
  induction t with
  | nil => rfl
  | cons c t ih =>
    by_cases hc : isWhitespace c = true
    · rw [trimStart_cons, if_pos hc, trimEnd_cons, if_pos hc, ← ih]
      split
      · next h => rw [h]
      · rw [trimStart_cons, if_pos hc]
    · rw [trimStart_cons, if_neg hc, trimEnd_cons, if_neg hc]
      split
      · rw [trimStart_cons, if_neg hc]
      · rw [trimStart_cons, if_neg hc]

theorem trim_trimEnd (t : Text) : trim (trimEnd t) = trim t := by
  rw [trim, trimStart_trimEnd, trim, trimEnd_trimEnd]

theorem trim_trimStart (t : Text) : trim (trimStart t) = trim t := by
  rw [trim, trimStart_trimStart, trim]

theorem isPrefix_trimEnd (t : Text) : trimEnd t <+: t := List.rdropWhile_prefix _ _

theorem isSuffix_trimStart (t : Text) : trimStart t <:+ t := List.dropWhile_suffix _

theorem leading_trimEnd (t : Text) : leading (trimEnd t) <+: leading t := by
  obtain ⟨u, hu⟩ := isPrefix_trimEnd t
  have hlead : leading t = leading (trimEnd t ++ u) := by rw [hu]
  rw [hlead, leading, leading, List.takeWhile_append]
  split
  · exact (List.takeWhile_prefix _).trans (List.prefix_append _ _)
  · exact List.prefix_refl _

theorem leading_trimStart (t : Text) : leading (trimStart t) = [] := by
  induction t with
  | nil => rfl
  | cons c t ih =>
    rw [trimStart_cons]
    split
    · exact ih
    · next hc => exact List.takeWhile_cons_of_neg hc

theorem trimStart_eq_nil_iff {t : Text} : trimStart t = [] ↔ trimEnd t = [] := by
  rw [trimStart, List.dropWhile_eq_nil_iff, trimEnd, List.rdropWhile_eq_nil_iff]

theorem trimEnd_join_concat (ls : List Text) (l : Text) :
    trimEnd (join (ls ++ [l])) =
      if trimEnd l = [] then trimEnd (join ls) else join (ls ++ [trimEnd l]) := by
  cases ls with
  | nil =>
    show trimEnd (join [l]) = if _ then trimEnd (join []) else join [trimEnd l]
    simp only [join, List.intercalate_singleton]
    split
    · next h => rw [h]; rfl
    · rfl
  | cons m ms =>
    have hbreak : trimEnd ['\n'] = [] := by decide
    rw [join_concat (by simp), join_concat (by simp), List.append_cons, trimEnd_append,
      trimEnd_append _ ['\n'], if_pos hbreak]
    split
    · rfl
    · simp

theorem trimStart_join_cons (l : Text) (ls : List Text) :
    trimStart (join (l :: ls)) =
      if trimStart l = [] then trimStart (join ls) else join (trimStart l :: ls) := by
  cases ls with
  | nil =>
    simp only [join, List.intercalate_singleton]
    split
    · next h => rw [h]; rfl
    · rfl
  | cons m ms =>
    rw [join_cons_cons, join_cons_cons, trimStart_append]
    split
    · rfl
    · rfl

/-- The lines of a text without carriage returns, joined again, differ in its end at most. -/
theorem trimEnd_join_lines (hr : '\r' ∉ t) : trimEnd (join (lines t)) = trimEnd t := by
  have hjoin := join_closed hr
  cases closed_eq hr with
  | inl h => rw [← h, hjoin]
  | inr h =>
    rw [h] at hjoin
    have htrim := trimEnd_join_concat (lines t) []
    rw [hjoin, if_pos (by rfl)] at htrim
    exact htrim.symm

end TextLines
