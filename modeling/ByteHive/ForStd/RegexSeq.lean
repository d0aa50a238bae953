import Mathlib.Data.List.Forall2

/-!
# Regular expressions without groups and alternatives

A sequence of single characters, classes and anchors, each at most starred: how it is written, what
a match is, and that a sequence written out is read back. Matching is leftmost-anywhere: a search
succeeds where the sequence matches at some position, unless it is anchored.

Characters that mean something elsewhere in the syntax are read only when escaped.
-/

namespace RegexSeq

/-- What one position accepts. -/
inductive Atom where
  /-- `.`: every character but a newline. -/
  | any
  /-- `[^c]` -/
  | notChar (c : Char)
  | char (c : Char)
deriving DecidableEq

def Atom.accepts : Atom → Char → Bool
  | .any, c => c ≠ '\n'
  | .notChar d, c => c ≠ d
  | .char d, c => c = d

inductive Item where
  | start
  | stop
  | one (a : Atom)
  | many (a : Atom)
deriving DecidableEq

/-! ## Matching -/

/-- The items match from here on; the flag says whether this is the start of the text. -/
def matchFrom : List Item → Bool → List Char → Bool
  | [], _, _ => true
  | .start :: items, first, s => first && matchFrom items first s
  | .stop :: items, first, s => s.isEmpty && matchFrom items first s
  | .one a :: items, _, s =>
    match s with
    | [] => false
    | c :: s => a.accepts c && matchFrom items false s
  | .many a :: items, first, s => (List.range (s.length + 1)).any fun n =>
    (s.take n).all a.accepts && matchFrom items (first && n == 0) (s.drop n)

/-- The items match somewhere in the text. -/
def search (items : List Item) (text : List Char) : Bool :=
  (List.range (text.length + 1)).any fun n => matchFrom items (n == 0) (text.drop n)

/-- The texts that an item can stand for. -/
def Item.Spans : Item → List Char → Prop
  | .start, _ => False
  | .stop, _ => False
  | .one a, u => ∃ c, u = [c] ∧ a.accepts c = true
  | .many a, u => ∀ c ∈ u, a.accepts c = true

/-- With an anchor at the end the items divide up all that is left. -/
theorem matchFrom_stop_iff {items : List Item} (first : Bool) (s : List Char)
    (hitems : ∀ i ∈ items, i ≠ .start ∧ i ≠ .stop) :
    matchFrom (items ++ [.stop]) first s = true ↔
      ∃ us, List.Forall₂ Item.Spans items us ∧ us.flatten = s := by
  induction items generalizing first s with
  | nil =>
    have hnil : matchFrom [.stop] first s = s.isEmpty := by simp [matchFrom]
    rw [List.nil_append, hnil, List.isEmpty_iff]
    constructor
    · intro h
      exact ⟨[], .nil, h.symm⟩
    · intro ⟨us, hus, h⟩
      cases hus
      exact h.symm
  | cons i items ih =>
    have hrest := fun b t => ih b t fun j hj => hitems j (List.mem_cons_of_mem _ hj)
    obtain ⟨hstart, hstop⟩ := hitems i List.mem_cons_self
    cases i with
    | start => exact absurd rfl hstart
    | stop => exact absurd rfl hstop
    | one a =>
      rw [List.cons_append]
      constructor
      · intro h
        cases s with
        | nil => cases h
        | cons c s =>
          obtain ⟨hc, htail⟩ := Bool.and_eq_true_iff.mp h
          obtain ⟨us, hus, rfl⟩ := (hrest false s).mp htail
          exact ⟨[c] :: us, .cons ⟨c, rfl, hc⟩ hus, rfl⟩
      · intro ⟨us, hus, h⟩
        cases hus with
        | cons hu hus =>
          obtain ⟨c, rfl, hc⟩ := hu
          subst h
          exact Bool.and_eq_true_iff.mpr ⟨hc, (hrest false _).mpr ⟨_, hus, rfl⟩⟩
    | many a =>
      rw [List.cons_append, matchFrom, List.any_eq_true]
      constructor
      · intro ⟨n, _, h⟩
        obtain ⟨hall, htail⟩ := Bool.and_eq_true_iff.mp h
        obtain ⟨us, hus, hflat⟩ := (hrest _ _).mp htail
        refine ⟨s.take n :: us, .cons (List.all_eq_true.mp hall) hus, ?_⟩
        rw [List.flatten_cons, hflat, List.take_append_drop]
      · intro ⟨us, hus, h⟩
        cases hus with
        | @cons _ u _ us hu hus =>
          subst h
          refine ⟨u.length, ?_, Bool.and_eq_true_iff.mpr ⟨?_, ?_⟩⟩
          · simp only [List.flatten_cons, List.length_append, List.mem_range]
            omega
          · rw [List.flatten_cons, List.take_left]
            exact List.all_eq_true.mpr hu
          · rw [List.flatten_cons, List.drop_left]
            exact (hrest _ _).mpr ⟨us, hus, rfl⟩

/-- With anchors at both ends a search matches the whole text. -/
theorem search_anchored_iff {items : List Item} (hitems : ∀ i ∈ items, i ≠ .start ∧ i ≠ .stop)
    (text : List Char) :
    search (.start :: items ++ [.stop]) text = true ↔
      ∃ us, List.Forall₂ Item.Spans items us ∧ us.flatten = text := by
  rw [← matchFrom_stop_iff true text hitems, search, List.any_eq_true]
  constructor
  · intro ⟨n, _, h⟩
    obtain ⟨hfirst, h⟩ := Bool.and_eq_true_iff.mp h
    obtain rfl : n = 0 := by simpa using hfirst
    simpa using h
  · intro h
    exact ⟨0, by simp, Bool.and_eq_true_iff.mpr ⟨rfl, by simpa using h⟩⟩

/-! ## Syntax -/

/-- The characters of the syntax. -/
def special (c : Char) : Bool := "\\.+*?()|[]\x7b\x7d^$".toList.contains c

/-- The character stands for itself in a class. -/
def plainInClass (c : Char) : Bool := !special c && !"-&~".toList.contains c

inductive Sym where
  | start
  | stop
  | star
  | atom (a : Atom)

/-- The symbols of a text; `none` where the text is of another kind. -/
def lex : List Char → Option (List Sym)
  | [] => some []
  | c :: s =>
    if c = '\\' then
      match s with
      | d :: s => if special d then (lex s).map (.atom (.char d) :: ·) else none
      | [] => none
    else if c = '[' then
      match s with
      | hat :: d :: close :: s =>
        if hat = '^' ∧ plainInClass d ∧ close = ']' then (lex s).map (.atom (.notChar d) :: ·)
        else none
      | _ => none
    else if c = '^' then (lex s).map (.start :: ·)
    else if c = '$' then (lex s).map (.stop :: ·)
    else if c = '*' then (lex s).map (.star :: ·)
    else if c = '.' then (lex s).map (.atom .any :: ·)
    else if special c then none
    else (lex s).map (.atom (.char c) :: ·)

/-- A star belongs to the atom before it. -/
def group : List Sym → Option (List Item)
  | [] => some []
  | .start :: syms => (group syms).map (.start :: ·)
  | .stop :: syms => (group syms).map (.stop :: ·)
  | .star :: _ => none
  | .atom a :: .star :: syms => (group syms).map (.many a :: ·)
  | .atom a :: syms => (group syms).map (.one a :: ·)

def parse (text : List Char) : Option (List Item) := (lex text).bind group

/-! ## Writing -/

def Atom.text : Atom → List Char
  | .any => ['.']
  | .notChar c => ['[', '^', c, ']']
  | .char c => if special c then ['\\', c] else [c]

def Item.text : Item → List Char
  | .start => ['^']
  | .stop => ['$']
  | .one a => a.text
  | .many a => a.text ++ ['*']

def Item.syms : Item → List Sym
  | .start => [.start]
  | .stop => [.stop]
  | .one a => [.atom a]
  | .many a => [.atom a, .star]

/-- The item can be written. -/
def Item.Writable : Item → Prop
  | .one (.notChar c) => plainInClass c = true
  | .many (.notChar c) => plainInClass c = true
  | _ => True

/-- A character without a meaning stands for itself. -/
theorem lex_char {c : Char} (hc : special c = false) (s : List Char) :
    lex (c :: s) = (lex s).map (.atom (.char c) :: ·) := by
  have hne : ∀ d : Char, special d = true → c ≠ d := by
    intro d hd heq
    rw [heq, hd] at hc
    cases hc
  rw [lex.eq_def]
  simp only [hc, if_neg (hne '\\' (by decide)), if_neg (hne '[' (by decide)),
    if_neg (hne '^' (by decide)), if_neg (hne '$' (by decide)), if_neg (hne '*' (by decide)),
    if_neg (hne '.' (by decide)), Bool.false_eq_true, if_false]

theorem lex_start (s : List Char) : lex ('^' :: s) = (lex s).map (.start :: ·) := by
  rw [lex.eq_def]
  rfl

theorem lex_stop (s : List Char) : lex ('$' :: s) = (lex s).map (.stop :: ·) := by
  rw [lex.eq_def]
  rfl

theorem lex_star (s : List Char) : lex ('*' :: s) = (lex s).map (.star :: ·) := by
  rw [lex.eq_def]
  rfl

theorem lex_any (s : List Char) : lex ('.' :: s) = (lex s).map (.atom .any :: ·) := by
  rw [lex.eq_def]
  rfl

theorem lex_atom {a : Atom} (ha : (Item.one a).Writable) (s : List Char) :
    lex (a.text ++ s) = (lex s).map (.atom a :: ·) := by
  cases a with
  | any => exact lex_any s
  | notChar c =>
    have hclass : plainInClass c = true := ha
    simp [Atom.text, lex, hclass]
  | char c =>
    rw [Atom.text]
    split
    · next hc => simp [lex, hc]
    · next hc => exact lex_char (Bool.eq_false_iff.mpr hc) s

theorem lex_item {i : Item} (hi : i.Writable) (s : List Char) :
    lex (i.text ++ s) = (lex s).map (i.syms ++ ·) := by
  cases i with
  | start => exact lex_start s
  | stop => exact lex_stop s
  | one a => exact lex_atom hi s
  | many a =>
    have hone : (Item.one a).Writable := by cases a <;> exact hi
    rw [Item.text, List.append_assoc, lex_atom hone, List.singleton_append, lex_star, Option.map_map]
    rfl

theorem lex_items {items : List Item} (h : ∀ i ∈ items, i.Writable) :
    lex (items.flatMap Item.text) = some (items.flatMap Item.syms) := by
  induction items with
  | nil => rfl
  | cons i items ih =>
    rw [List.flatMap_cons, List.flatMap_cons, lex_item (h i List.mem_cons_self),
      ih fun j hj => h j (List.mem_cons_of_mem _ hj), Option.map_some]

/-- The next item does not begin with a star. -/
theorem group_one (a : Atom) (items : List Item) :
    group (.atom a :: items.flatMap Item.syms) =
      (group (items.flatMap Item.syms)).map (.one a :: ·) := by
  cases items with
  | nil => rfl
  | cons i items => cases i <;> rfl

theorem group_items (items : List Item) : group (items.flatMap Item.syms) = some items := by
  induction items with
  | nil => rfl
  | cons i items ih =>
    rw [List.flatMap_cons]
    cases i with
    | start =>
      show (group (items.flatMap Item.syms)).map _ = _
      rw [ih]
      rfl
    | stop =>
      show (group (items.flatMap Item.syms)).map _ = _
      rw [ih]
      rfl
    | one a =>
      show group (.atom a :: items.flatMap Item.syms) = _
      rw [group_one, ih]
      rfl
    | many a =>
      show (group (items.flatMap Item.syms)).map _ = _
      rw [ih]
      rfl

/-- What is written is read back. -/
theorem parse_text {items : List Item} (h : ∀ i ∈ items, i.Writable) :
    parse (items.flatMap Item.text) = some items := by
  rw [parse, lex_items h, Option.bind_some, group_items]

end RegexSeq
