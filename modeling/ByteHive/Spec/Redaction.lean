import ByteHive.Native.BusLog

/-!
# Redacted log lines carry no secret

`SameButSecrets` relates two payloads that differ below sensitive keys and in auth headers only:
they are redacted to the same payload. What else redaction leaves is said path by path, for the
paths that pass no sensitive key (`Clear`).

Key results:
- `redactPayload_congr`, `redactPayload_redactPayload`
- `valueAt_redactPayload`: what is found at a path
-/

namespace ByteHive

namespace BusLog

/-! ## Two payloads -/

mutual

/-- The payloads are equal except for the values under sensitive keys and for strings that look
    like auth headers in both. -/
def SameButSecrets : Json → Json → Prop
  | .obj members, .obj members' => MembersSame members members'
  | .arr items, .arr items' => ItemsSame items items'
  | .str s, .str s' => s = s' ∨ looksLikeAuthHeader s = true ∧ looksLikeAuthHeader s' = true
  | .null, .null => True
  | .bool b, .bool b' => b = b'
  | .int n, .int n' => n = n'
  | .float x, .float x' => x = x'
  | _, _ => False

def MembersSame : List (String × Json) → List (String × Json) → Prop
  | [], [] => True
  | (key, val) :: members, (key', val') :: members' =>
    key = key' ∧ (isSensitiveKey key = true ∨ SameButSecrets val val') ∧
      MembersSame members members'
  | _, _ => False

def ItemsSame : List Json → List Json → Prop
  | [], [] => True
  | item :: items, item' :: items' => SameButSecrets item item' ∧ ItemsSame items items'
  | _, _ => False

end

mutual

theorem redactPayload_congr : ∀ {j j' : Json}, SameButSecrets j j' →
    redactPayload j = redactPayload j'
  | .obj members, .obj members', h => by
    simp only [SameButSecrets] at h
    rw [redactPayload, redactPayload, redactMembers_congr h]
  | .arr items, .arr items', h => by
    simp only [SameButSecrets] at h
    rw [redactPayload, redactPayload, redactItems_congr h]
  | .str s, .str s', h => by
    simp only [SameButSecrets] at h
    obtain rfl | ⟨hs, hs'⟩ := h
    · rfl
    · rw [redactPayload, redactPayload, if_pos hs, if_pos hs']
  | .null, .null, _ => rfl
  | .bool b, .bool b', h => by
    simp only [SameButSecrets] at h
    rw [h]
  | .int n, .int n', h => by
    simp only [SameButSecrets] at h
    rw [h]
  | .float x, .float x', h => by
    simp only [SameButSecrets] at h
    rw [h]

theorem redactMembers_congr : ∀ {ms ms' : List (String × Json)}, MembersSame ms ms' →
    redactMembers ms = redactMembers ms'
  | [], [], _ => rfl
  | (key, val) :: ms, (key', val') :: ms', h => by
    simp only [MembersSame] at h
    obtain ⟨rfl, hval, hrest⟩ := h
    rw [redactMembers, redactMembers, redactMembers_congr hrest]
    obtain hkey | hval := hval
    · rw [if_pos hkey, if_pos hkey]
    · rw [redactPayload_congr hval]

theorem redactItems_congr : ∀ {js js' : List Json}, ItemsSame js js' →
    redactItems js = redactItems js'
  | [], [], _ => rfl
  | j :: js, j' :: js', h => by
    simp only [ItemsSame] at h
    rw [redactItems, redactItems, redactPayload_congr h.1, redactItems_congr h.2]

end

/-! ## Once is enough -/

/-- The placeholder is no auth header. -/
theorem looksLikeAuthHeader_redacted : looksLikeAuthHeader redacted = false := by decide

theorem redactPayload_str_redacted : redactPayload (.str redacted) = .str redacted := by
  rw [redactPayload, looksLikeAuthHeader_redacted]
  rfl

mutual

theorem redactPayload_redactPayload : ∀ j : Json,
    redactPayload (redactPayload j) = redactPayload j
  | .obj members => by
    rw [redactPayload, redactPayload, redactMembers_redactMembers members]
  | .arr items => by
    rw [redactPayload, redactPayload, redactItems_redactItems items]
  | .str s => by
    rw [redactPayload]
    split
    · exact redactPayload_str_redacted
    · next hs => rw [redactPayload, if_neg hs]
  | .null => rfl
  | .bool _ => rfl
  | .int _ => rfl
  | .float _ => rfl

theorem redactMembers_redactMembers : ∀ ms : List (String × Json),
    redactMembers (redactMembers ms) = redactMembers ms
  | [] => rfl
  | (key, val) :: ms => by
    rw [redactMembers, redactMembers, redactMembers_redactMembers ms]
    by_cases hkey : isSensitiveKey key = true
    · rw [if_pos hkey, if_pos hkey]
    · rw [if_neg hkey, if_neg hkey, redactPayload_redactPayload val]

theorem redactItems_redactItems : ∀ js : List Json,
    redactItems (redactItems js) = redactItems js
  | [] => rfl
  | j :: js => by
    rw [redactItems, redactItems, redactPayload_redactPayload j, redactItems_redactItems js]

end

/-! ## Paths -/

/-- A step into an object or an array. -/
inductive PathStep where
  | key (name : String)
  | index (i : Nat)
deriving DecidableEq, Repr

/-- What is found at a path. -/
def valueAt : Json → List PathStep → Option Json
  | j, [] => some j
  | .obj members, .key name :: path =>
    match members.find? fun m => m.1 = name with
    | some m => valueAt m.2 path
    | none => none
  | .arr items, .index i :: path =>
    match items[i]? with
    | some item => valueAt item path
    | none => none
  | _, _ => none

/-- The path passes no sensitive key. -/
def Clear (path : List PathStep) : Prop := ∀ name, .key name ∈ path → isSensitiveKey name = false

/-- What a value is on the outside: its kind, its keys or its length. -/
inductive Form where
  | null
  | bool
  | int
  | float
  | str
  | arr (length : Nat)
  | obj (keys : List String)
deriving DecidableEq, Repr

def formOf : Json → Form
  | .null => .null
  | .bool _ => .bool
  | .int _ => .int
  | .float _ => .float
  | .str _ => .str
  | .arr items => .arr items.length
  | .obj members => .obj (members.map (·.1))

/-- What becomes of one member. -/
def redactMember (m : String × Json) : String × Json :=
  (m.1, if isSensitiveKey m.1 then .str redacted else redactPayload m.2)

theorem redactMembers_eq_map (ms : List (String × Json)) :
    redactMembers ms = ms.map redactMember := by
  induction ms with
  | nil => rfl
  | cons m ms ih =>
    rw [redactMembers, ih, List.map_cons]
    rfl

/-- The member of a name is found where it was. -/
theorem find?_redactMembers (ms : List (String × Json)) (name : String) :
    (redactMembers ms).find? (fun m => m.1 = name) =
      (ms.find? fun m => m.1 = name).map redactMember := by
  rw [redactMembers_eq_map, List.find?_map]
  rfl

theorem redactItems_eq_map (js : List Json) : redactItems js = js.map redactPayload := by
  induction js with
  | nil => rfl
  | cons j js ih => rw [redactItems, ih, List.map_cons]

/-- Keys and lengths stay. -/
theorem formOf_redactPayload (j : Json) : formOf (redactPayload j) = formOf j := by
  cases j with
  | obj ms =>
    rw [redactPayload, redactMembers_eq_map, formOf, formOf, List.map_map]
    rfl
  | arr js => rw [redactPayload, redactItems_eq_map, formOf, formOf, List.length_map]
  | _ => rfl

/-- At a path without a sensitive key there is what was there, redacted. -/
theorem valueAt_redactPayload {path : List PathStep} (hpath : Clear path) (j : Json) :
    valueAt (redactPayload j) path = (valueAt j path).map redactPayload := by
  induction path generalizing j with
  | nil => simp [valueAt]
  | cons step path ih =>
    have hrest : Clear path := fun name h => hpath name (List.mem_cons_of_mem _ h)
    cases step with
    | key name =>
      cases j with
      | obj ms =>
        have hname := hpath name List.mem_cons_self
        rw [redactPayload]
        simp only [valueAt, find?_redactMembers]
        cases hfind : ms.find? fun m => m.1 = name with
        | none => rfl
        | some m =>
          have hm : m.1 = name := by simpa using List.find?_some hfind
          simp only [Option.map_some, redactMember, hm, hname, Bool.false_eq_true, if_false]
          exact ih hrest m.2
      | _ => rfl
    | index i =>
      cases j with
      | arr js =>
        rw [redactPayload, redactItems_eq_map]
        simp only [valueAt, List.getElem?_map]
        cases js[i]? with
        | none => rfl
        | some item => exact ih hrest item
      | _ => rfl

/-! ## The line -/

/-- A value without parts that is no auth header. -/
def Plain : Json → Prop
  | .obj _ => False
  | .arr _ => False
  | .str s => looksLikeAuthHeader s = false
  | _ => True

theorem redactPayload_of_plain {j : Json} (h : Plain j) : redactPayload j = j := by
  cases j with
  | obj ms => exact h.elim
  | arr js => exact h.elim
  | str s =>
    have hs : looksLikeAuthHeader s = false := h
    rw [redactPayload, hs]
    rfl
  | _ => rfl

/-- Secrets do not show in the line, and the rest of the payload stays. -/
theorem redacted_lines (printer : JsonPrinter) :
    (∀ msg : BusMessage, ∀ payload : Json, SameButSecrets msg.payload payload →
      busRecordLine printer msg = busRecordLine printer { msg with payload }) ∧
    (∀ j, redactPayload (redactPayload j) = redactPayload j) ∧
    (∀ j path, Clear path →
      (valueAt (redactPayload j) path).map formOf = (valueAt j path).map formOf) ∧
    (∀ j path v, Clear path → valueAt j path = some v → Plain v →
      valueAt (redactPayload j) path = some v) := by
  refine ⟨?_, redactPayload_redactPayload, ?_, ?_⟩
  · intro msg payload h
    simp only [busRecordLine, redactPayload_congr h]
    rfl
  · intro j path hpath
    rw [valueAt_redactPayload hpath, Option.map_map]
    exact congrArg (fun f => (valueAt j path).map f) (funext formOf_redactPayload)
  · intro j path v hpath hv hplain
    rw [valueAt_redactPayload hpath, hv, Option.map_some, redactPayload_of_plain hplain]

end BusLog

end ByteHive
