import ByteHive.Native.LedgerJson

/-!
# The two shapes of the ledger file

The file holds a ledger, as `save_atomic` writes it, or a bare map of tombstones by path. `load`
tries the ledger first. Its fields all have a default and other fields are ignored, so an object
without `entries` and `alive` is always a ledger, without entries: the bare map is reached only by
a map that has a tombstone at one of these two names. The array of at most two fields, which serde
also reads as a record, and a text that is not UTF-8 are not backed up either.
-/

namespace ByteHive

/-! ## Fields -/

namespace Json

theorem field_of_absent {name : String} {members : List (String × Json)}
    (h : ∀ x ∈ members, x.1 ≠ name) : field name members = some none := by
  have hnil : members.filter (·.1 = name) = [] :=
    List.filter_eq_nil_iff.mpr fun x hx => by simpa using h x hx
  rw [field, hnil]

/-- A field that is there is the value of a member of that name. -/
theorem field_of_mem {name : String} {members : List (String × Json)} {x : String × Json}
    (hx : x ∈ members) (hname : x.1 = name) :
    field name members = none ∨ ∃ y ∈ members, y.1 = name ∧ field name members = some (some y.2) := by
  have hmem : x ∈ members.filter (·.1 = name) := List.mem_filter.mpr ⟨hx, by simpa using hname⟩
  unfold field
  cases hfilter : members.filter (·.1 = name) with
  | nil => rw [hfilter] at hmem; cases hmem
  | cons y rest =>
    cases rest with
    | cons z rest => exact .inl rfl
    | nil =>
      have hy : y ∈ members.filter (·.1 = name) := by rw [hfilter]; simp
      exact .inr ⟨y, (List.mem_filter.mp hy).1, by simpa using (List.mem_filter.mp hy).2, rfl⟩

theorem mem_of_field {name : String} {members : List (String × Json)} {j : Json}
    (h : field name members = some (some j)) : ∃ x ∈ members, x.1 = name ∧ x.2 = j := by
  by_cases hx : ∃ x ∈ members, x.1 = name
  · obtain ⟨x, hx, hname⟩ := hx
    rcases field_of_mem hx hname with hnone | ⟨y, hy, hyname, hfield⟩
    · rw [hnone] at h
      cases h
    · rw [hfield] at h
      exact ⟨y, hy, hyname, Option.some.inj (Option.some.inj h)⟩
  · rw [field_of_absent fun x hmem heq => hx ⟨x, hmem, heq⟩] at h
    cases h

/-- A field that is there and cannot be read is an error, its default does not help. -/
theorem defaulted_none {α : Type} {value : α} {read : Json → Option α} {name : String}
    {members : List (String × Json)} (hname : ∃ x ∈ members, x.1 = name)
    (hread : ∀ x ∈ members, read x.2 = none) : defaulted value read name members = none := by
  obtain ⟨x, hx, hxname⟩ := hname
  rcases field_of_mem hx hxname with hnone | ⟨y, hy, -, hfield⟩
  · rw [defaulted, hnone]
    rfl
  · rw [defaulted, hfield]
    exact hread y hy

/-! ## Maps -/

variable {α : Type} {read : Json → Option α}

/-- A map is read only where every member is. -/
theorem foldlM_insertMember_none {members : List (String × Json)} {x : String × Json}
    (hx : x ∈ members) (hnone : read x.2 = none) (m : FinMap PathBuf α) :
    members.foldlM (insertMember read) m = none := by
  induction members generalizing m with
  | nil => cases hx
  | cons y rest ih =>
    rw [List.foldlM_cons]
    rcases List.mem_cons.mp hx with rfl | hx
    · rw [insertMember, hnone]
      rfl
    · cases hy : insertMember read m y with
      | none => rfl
      | some m' => exact ih hx m'

theorem hashMap_none {members : List (String × Json)} {x : String × Json} (hx : x ∈ members)
    (hnone : read x.2 = none) : (Json.obj members).hashMap read = none :=
  foldlM_insertMember_none hx hnone .empty

theorem isSome_of_hashMap {members : List (String × Json)} {m : FinMap PathBuf α}
    (h : (Json.obj members).hashMap read = some m) : ∀ x ∈ members, (read x.2).isSome := by
  intro x hx
  by_contra hnone
  rw [hashMap_none hx (by simpa using hnone)] at h
  cases h

/-- A key that is bound stays bound. -/
theorem isSome_foldlM_insertMember {members : List (String × Json)} {m out : FinMap PathBuf α}
    (h : members.foldlM (insertMember read) m = some out) {p : PathBuf}
    (hp : (m.get p).isSome ∨ ∃ x ∈ members, componentsOf x.1 = p) : (out.get p).isSome := by
  induction members generalizing m with
  | nil =>
    obtain rfl : m = out := Option.some.inj h
    exact hp.resolve_right (by simp)
  | cons y rest ih =>
    rw [List.foldlM_cons] at h
    cases hy : read y.2 with
    | none => simp [insertMember, hy] at h
    | some a =>
      simp only [insertMember, hy, Option.map_some, bind, Option.bind_some] at h
      refine ih h ?_
      by_cases heq : p = componentsOf y.1
      · left
        rw [FinMap.get_insert, if_pos heq]
        rfl
      · rw [FinMap.get_insert, if_neg heq]
        rcases hp with hp | ⟨x, hx, rfl⟩
        · exact .inl hp
        · rcases List.mem_cons.mp hx with rfl | hx
          · exact absurd rfl heq
          · exact .inr ⟨x, hx, rfl⟩

/-- A map with a member is not empty. -/
theorem ne_empty_of_hashMap {members : List (String × Json)} {m : FinMap PathBuf α}
    (h : (Json.obj members).hashMap read = some m) (hne : members ≠ []) : m ≠ .empty := by
  obtain ⟨x, rest, rfl⟩ := List.exists_cons_of_ne_nil hne
  intro hm
  have hsome := isSome_foldlM_insertMember h (.inr ⟨x, List.mem_cons_self, rfl⟩)
  rw [hm, FinMap.get_empty] at hsome
  cases hsome

/-- Reading what was written of some keys gives their values, on top of what was there. -/
theorem foldlM_insertMember_written {m : FinMap PathBuf α} {name : PathBuf → String}
    {write : PathBuf → α → Json} (keys : List PathBuf)
    (h : ∀ p a, m.get p = some a → componentsOf (name p) = p ∧ read (write p a) = some a)
    (acc : FinMap PathBuf α) :
    ∃ out, (keys.filterMap fun p => (m.get p).map fun a => (name p, write p a)).foldlM
        (insertMember read) acc = some out ∧
      ∀ p, out.get p = (if p ∈ keys then m.get p else none).or (acc.get p) := by
  induction keys generalizing acc with
  | nil => exact ⟨acc, rfl, fun p => by simp⟩
  | cons q keys ih =>
    cases hq : m.get q with
    | none =>
      obtain ⟨out, hout, hget⟩ := ih acc
      refine ⟨out, ?_, fun p => ?_⟩
      · simp only [List.filterMap_cons, hq, Option.map_none]
        exact hout
      rw [hget]
      by_cases hp : p = q
      · subst hp
        simp [hq]
      · simp [hp]
    | some a =>
      obtain ⟨hname, hread⟩ := h q a hq
      obtain ⟨out, hout, hget⟩ := ih (acc.insert q a)
      refine ⟨out, ?_, fun p => ?_⟩
      · simp only [List.filterMap_cons, hq, Option.map_some, List.foldlM_cons, insertMember, hread,
          hname]
        exact hout
      · rw [hget]
        by_cases hp : p = q
        · subst hp
          by_cases hmem : p ∈ keys <;> simp [hmem, hq]
        · simp [hp]

/-- A map that is written whole is read back. -/
theorem hashMap_ofHashMap {m : FinMap PathBuf α} {name : PathBuf → String}
    {write : PathBuf → α → Json} {keys : List PathBuf} (hkeys : ∀ p, p ∈ keys ↔ p ∈ m.keys)
    (h : ∀ p a, m.get p = some a → componentsOf (name p) = p ∧ read (write p a) = some a) :
    (ofHashMap name write keys m).hashMap read = some m := by
  obtain ⟨out, hout, hget⟩ := foldlM_insertMember_written keys h .empty
  have heq : out = m := by
    refine FinMap.ext_get fun p => ?_
    rw [hget, FinMap.get_empty, Option.or_none]
    split
    · rfl
    · next hp =>
      rw [hkeys] at hp
      exact (FinMap.get_eq_none_iff.mpr hp).symm
  exact hout.trans (congrArg some heq)

end Json

/-! ## What is saved is read back -/

/-- The texts are those of the ledger's paths. -/
structure Spelling.Spells (s : Spelling) (l : DeletionLedger) : Prop where
  entry : ∀ p t, l.entries.get p = some t → componentsOf (s.entry p) = p
  path : ∀ p t, l.entries.get p = some t → componentsOf (s.path p) = t.path
  alive : ∀ p a, l.alive.get p = some a → componentsOf (s.alive p) = p

/-- The stamps are of 64 bits. -/
structure DeletionLedger.Fits (l : DeletionLedger) : Prop where
  deletedAtMs : ∀ p t, l.entries.get p = some t → t.deletedAtMs < 2 ^ 64
  prevMtimeMs : ∀ p t, l.entries.get p = some t → ∀ ms ∈ t.prevMtimeMs, ms < 2 ^ 64
  alive : ∀ p a, l.alive.get p = some a → a < 2 ^ 64

namespace Json

theorem u64_int {n : Nat} (h : n < 2 ^ 64) : u64 (.int n) = some n := by
  rw [u64, Int.toNat_natCast, if_pos ⟨Int.natCast_nonneg n, h⟩]

theorem optional_u64 {ms : Option Nat} (h : ∀ n ∈ ms, n < 2 ^ 64) :
    optional u64 (ms.elim .null fun n => .int n) = some ms := by
  cases ms with
  | none => rfl
  | some n =>
    show (u64 (.int n)).map some = some (some n)
    rw [u64_int (h n rfl)]
    rfl

theorem optional_string (hash : Option String) :
    optional string (hash.elim .null .str) = some hash := by
  cases hash <;> rfl

end Json

/-- A tombstone is read back with all its fields. -/
theorem Tombstone.ofJson_toJson {text : String} {t : Tombstone} (hpath : componentsOf text = t.path)
    (hat : t.deletedAtMs < 2 ^ 64) (hmtime : ∀ ms ∈ t.prevMtimeMs, ms < 2 ^ 64) :
    Tombstone.ofJson (t.toJson text) = some t := by
  have hu64 := Json.u64_int hat
  have hopt := Json.optional_u64 hmtime
  simp [Tombstone.ofJson, Tombstone.toJson, Json.required, Json.defaulted, Json.field, Json.pathBuf,
    Json.string, hpath, hu64, hopt, Json.optional_string]

namespace DeletionLedger

theorem ofJson_toJson {s : Spelling} {order : HashOrder} {l : DeletionLedger} (hs : s.Spells l)
    (hl : l.Fits) : ofJson (l.toJson s order) = some l := by
  have hentries : (l.entriesJson s order).hashMap Tombstone.ofJson = some l.entries :=
    Json.hashMap_ofHashMap (order.mem_toList _) fun p t ht =>
      ⟨hs.entry p t ht, Tombstone.ofJson_toJson (hs.path p t ht) (hl.deletedAtMs p t ht)
        (hl.prevMtimeMs p t ht)⟩
  have halive : (l.aliveJson s order).hashMap Json.u64 = some l.alive :=
    Json.hashMap_ofHashMap (order.mem_toList _) fun p a ha =>
      ⟨hs.alive p a ha, Json.u64_int (hl.alive p a ha)⟩
  cases hempty : l.alive.isEmpty with
  | true =>
    have hnone : l.alive = .empty := by
      refine FinMap.ext_get fun p => ?_
      exact FinMap.keys_eq_empty_iff.mp (of_decide_eq_true hempty) p
    simp [ofJson, toJson, hempty, Json.defaulted, Json.field, hentries]
    rw [← hnone]
  | false => simp [ofJson, toJson, hempty, Json.defaulted, Json.field, hentries, halive]

/-- `load` after `save_atomic`. -/
theorem load_saveAtomic {s : Spelling} {order : HashOrder} {l : DeletionLedger} (hs : s.Spells l)
    (hl : l.Fits) : load (l.saveAtomic s order) = (l, false) := by
  rw [saveAtomic, load, Option.bind_some, ofJson_toJson hs hl]

end DeletionLedger

/-! ## Which shape a file has -/

namespace LedgerFile

/-- The file is an object of tombstones by path, those of `m`. -/
def HoldsMap (file : LedgerFile) (m : FinMap PathBuf Tombstone) : Prop :=
  ∃ json, file = .text (some json) ∧ json.hashMap Tombstone.ofJson = some m

/-- The file is an object with one of the fields of a ledger, and the ledger is `l`. -/
def HoldsLedger (file : LedgerFile) (l : DeletionLedger) : Prop :=
  ∃ members, file = .text (some (.obj members)) ∧
    (∃ x ∈ members, x.1 = "entries" ∨ x.1 = "alive") ∧
    DeletionLedger.ofJson (.obj members) = some l

/-- What `load` is to give for the file: the ledger that was saved, the entries of a bare map, and
    for another file a backup. -/
structure ReadBack (file : LedgerFile) : Prop where
  saved : ∀ s order l, Spelling.Spells s l → l.Fits → file = l.saveAtomic s order →
    DeletionLedger.load file = (l, false)
  ledger : ∀ l, file.HoldsLedger l → DeletionLedger.load file = (l, false)
  map : ∀ m, file.HoldsMap m → DeletionLedger.load file = (⟨m, .empty⟩, false)
  neither : file ≠ .missing → (∀ l, ¬ file.HoldsLedger l) → (∀ m, ¬ file.HoldsMap m) →
    DeletionLedger.load file = (.new, true)

/-- The array stands for the fields of a ledger in their order, or the first of them. -/
def Positional (elems : List Json) : Prop :=
  elems.length ≤ 2 ∧ (∀ j ∈ elems.head?, (j.hashMap Tombstone.ofJson).isSome) ∧
    ∀ j ∈ elems.tail.head?, (j.hashMap Json.u64).isSome

/-- No object with members but neither `entries` nor `alive`, no positional array, and not a file
    whose text cannot be read. -/
def Unmistaken : LedgerFile → Prop
  | .unreadable => False
  | .text (some (.obj members)) => members = [] ∨ ∃ x ∈ members, x.1 = "entries" ∨ x.1 = "alive"
  | .text (some (.arr elems)) => ¬ Positional elems
  | _ => True

end LedgerFile

/-! ## A tombstone is no map -/

theorem Json.eq_str_of_pathBuf {j : Json} {p : PathBuf} (h : j.pathBuf = some p) :
    ∃ text, j = .str text := by
  cases j with
  | str text => exact ⟨text, rfl⟩
  | _ => cases h

/-- Every tombstone has the text of its path in it, which is neither a tombstone nor a stamp. -/
theorem Tombstone.not_map {j : Json} {t : Tombstone} (h : Tombstone.ofJson j = some t) :
    j.hashMap Tombstone.ofJson = none ∧ j.hashMap Json.u64 = none := by
  cases j with
  | obj members =>
    have hpath : ∃ x ∈ members, ∃ text, x.2 = .str text := by
      cases hp : Json.required Json.pathBuf "path" members with
      | none => simp [Tombstone.ofJson, hp] at h
      | some p =>
        obtain ⟨found, hfield, hread⟩ := Option.bind_eq_some_iff.mp hp
        obtain ⟨j, rfl, hstr⟩ := Option.bind_eq_some_iff.mp hread
        obtain ⟨x, hx, -, rfl⟩ := Json.mem_of_field hfield
        exact ⟨x, hx, Json.eq_str_of_pathBuf hstr⟩
    obtain ⟨x, hx, text, htext⟩ := hpath
    exact ⟨Json.hashMap_none hx (by rw [htext]; rfl), Json.hashMap_none hx (by rw [htext]; rfl)⟩
  | _ => exact ⟨rfl, rfl⟩

namespace DeletionLedger

theorem ofJson_arr_iff {elems : List Json} :
    (∃ l, ofJson (.arr elems) = some l) ↔ LedgerFile.Positional elems := by
  rcases elems with _ | ⟨entries, _ | ⟨alive, _ | ⟨_, _⟩⟩⟩
  · simp [ofJson, LedgerFile.Positional]
  · cases hentries : entries.hashMap Tombstone.ofJson <;>
      simp [ofJson, LedgerFile.Positional, hentries]
  · cases hentries : entries.hashMap Tombstone.ofJson <;>
      cases halive : alive.hashMap Json.u64 <;>
        simp [ofJson, LedgerFile.Positional, hentries, halive]
  · simp [ofJson, LedgerFile.Positional]

/-- An object without the fields of a ledger is the empty one. -/
theorem ofJson_of_absent {members : List (String × Json)}
    (h : ¬ ∃ x ∈ members, x.1 = "entries" ∨ x.1 = "alive") :
    ofJson (.obj members) = some .new := by
  have hentries : Json.field "entries" members = some none :=
    Json.field_of_absent fun x hx heq => h ⟨x, hx, .inl heq⟩
  have halive : Json.field "alive" members = some none :=
    Json.field_of_absent fun x hx heq => h ⟨x, hx, .inr heq⟩
  simp [ofJson, Json.defaulted, hentries, halive, new]

/-- A map that has a tombstone at the name of a field is no ledger. -/
theorem ofJson_of_map {members : List (String × Json)} {m : FinMap PathBuf Tombstone}
    (hm : (Json.obj members).hashMap Tombstone.ofJson = some m)
    (h : ∃ x ∈ members, x.1 = "entries" ∨ x.1 = "alive") : ofJson (.obj members) = none := by
  have hno : ∀ x ∈ members,
      x.2.hashMap Tombstone.ofJson = none ∧ x.2.hashMap Json.u64 = none := by
    intro x hx
    obtain ⟨t, ht⟩ := Option.isSome_iff_exists.mp (Json.isSome_of_hashMap hm x hx)
    exact Tombstone.not_map ht
  obtain ⟨x, hx, hname | hname⟩ := h
  · have hentries : Json.defaulted .empty (Json.hashMap Tombstone.ofJson) "entries" members =
        none := Json.defaulted_none ⟨x, hx, hname⟩ fun y hy => (hno y hy).1
    simp [ofJson, hentries]
  · have halive : Json.defaulted .empty (Json.hashMap Json.u64) "alive" members = none :=
      Json.defaulted_none ⟨x, hx, hname⟩ fun y hy => (hno y hy).2
    simp [ofJson, halive]

end DeletionLedger

/-- What `save_atomic` wrote is not mistaken for something else. -/
theorem unmistaken_saveAtomic (s : Spelling) (order : HashOrder) (l : DeletionLedger) :
    (l.saveAtomic s order).Unmistaken :=
  .inr ⟨("entries", l.entriesJson s order), List.mem_cons_self, .inl rfl⟩

/-- `load` as the ledger's store has it, for the two shapes. -/
theorem load_eq_ledgerText {file : LedgerFile} :
    (∀ l, file.HoldsLedger l →
      (DeletionLedger.load file).1 = LedgerText.load (some (.canonical l))) ∧
    ∀ m, file.HoldsMap m → ¬ file.Unmistaken →
      (DeletionLedger.load file).1 = LedgerText.load (some (.bare m)) := by
  constructor
  · intro l hfile
    obtain ⟨members, rfl, -, hl⟩ := hfile
    rw [DeletionLedger.load, Option.bind_some, hl]
    rfl
  · intro m hfile hmistaken
    obtain ⟨json, rfl, hm⟩ := hfile
    cases json with
    | obj members =>
      have hfield := (not_or.mp hmistaken).2
      rw [DeletionLedger.load, Option.bind_some, DeletionLedger.ofJson_of_absent hfield]
      rfl
    | _ => cases hm

/-! ## The other reader -/

/-- `clear_ledger_covering` goes through all tombstones of a bare map from which `load` takes
    none. -/
theorem clearedMembers_of_mistaken {members : List (String × Json)}
    (h : ¬ ∃ x ∈ members, x.1 = "entries" ∨ x.1 = "alive") :
    clearedMembers (.obj members) = some members ∧
      (DeletionLedger.load (.text (some (.obj members)))).1.entries = .empty := by
  have hnone : members.reverse.find? (fun x => x.1 = "entries") = none := by
    rw [List.find?_eq_none]
    intro x hx heq
    exact h ⟨x, List.mem_reverse.mp hx, .inl (by simpa using heq)⟩
  constructor
  · rw [clearedMembers, hnone]
  · rw [DeletionLedger.load, Option.bind_some, DeletionLedger.ofJson_of_absent h]
    rfl

/-- Of a map with a tombstone at `entries` it is the other way round: `load` takes all, and
    `clear_ledger_covering` compares the prefixes with the fields of that tombstone. -/
theorem clearedMembers_of_map {members fields : List (String × Json)}
    {m : FinMap PathBuf Tombstone}
    (hm : (Json.obj members).hashMap Tombstone.ofJson = some m)
    (hlast : members.reverse.find? (fun x => x.1 = "entries") = some ("entries", .obj fields)) :
    clearedMembers (.obj members) = some fields ∧
      (DeletionLedger.load (.text (some (.obj members)))).1 = ⟨m, .empty⟩ := by
  have hmem : ("entries", Json.obj fields) ∈ members :=
    List.mem_reverse.mp (List.mem_of_find?_eq_some hlast)
  constructor
  · rw [clearedMembers, hlast]
  · rw [DeletionLedger.load, Option.bind_some,
      DeletionLedger.ofJson_of_map hm ⟨_, hmem, .inl rfl⟩, Option.bind_some, hm]

/-! ## Which files are read back -/

namespace LedgerFile

theorem readBack_of_unmistaken {file : LedgerFile} (h : file.Unmistaken) : ReadBack file where
  saved s order l hs hl hfile := by
    rw [hfile]
    exact DeletionLedger.load_saveAtomic hs hl
  ledger l hfile := by
    obtain ⟨members, rfl, -, hl⟩ := hfile
    rw [DeletionLedger.load, Option.bind_some, hl]
  map m hfile := by
    obtain ⟨json, rfl, hm⟩ := hfile
    have hnone : json = .obj [] ∨ DeletionLedger.ofJson json = none := by
      cases json with
      | obj members =>
        rcases h with rfl | hfield
        · exact .inl rfl
        · exact .inr (DeletionLedger.ofJson_of_map hm hfield)
      | _ => cases hm
    rcases hnone with rfl | hnone
    · obtain rfl : FinMap.empty = m := Option.some.inj hm
      rfl
    · rw [DeletionLedger.load, Option.bind_some, hnone, Option.bind_some, hm]
  neither hthere hledger hmap := by
    cases file with
    | missing => exact absurd rfl hthere
    | unreadable => cases h
    | text json =>
      cases json with
      | none => rfl
      | some json =>
        have hm : json.hashMap Tombstone.ofJson = none :=
          Option.eq_none_iff_forall_ne_some.mpr fun m hm => hmap m ⟨json, rfl, hm⟩
        have hl : DeletionLedger.ofJson json = none := by
          refine Option.eq_none_iff_forall_ne_some.mpr fun l hl => ?_
          cases json with
          | obj members =>
            rcases h with rfl | hfield
            · cases hm
            · exact hledger l ⟨members, rfl, hfield, hl⟩
          | arr elems => exact h (DeletionLedger.ofJson_arr_iff.mp ⟨l, hl⟩)
          | _ => cases hl
        rw [DeletionLedger.load, Option.bind_some, hl, Option.bind_some, hm]

/-- Where the file is taken for a ledger that it does not hold, one of the three fails. -/
theorem unmistaken_of_readBack {file : LedgerFile} (h : ReadBack file) : file.Unmistaken := by
  cases file with
  | missing => trivial
  | unreadable =>
    have hload := h.neither nofun (fun l hl => by obtain ⟨_, hfile, -⟩ := hl; cases hfile)
      fun m hm => by obtain ⟨_, hfile, -⟩ := hm; cases hfile
    exact absurd (congrArg Prod.snd hload) Bool.false_ne_true
  | text json =>
    cases json with
    | none => trivial
    | some json =>
      cases json with
      | obj members =>
        by_contra hmistaken
        obtain ⟨hne, hfield⟩ := not_or.mp hmistaken
        have hload : DeletionLedger.load (.text (some (.obj members))) = (.new, false) := by
          rw [DeletionLedger.load, Option.bind_some, DeletionLedger.ofJson_of_absent hfield]
        by_cases hmap : ∃ m, HoldsMap (.text (some (.obj members))) m
        · -- the ledger is empty, the map is not
          obtain ⟨m, hm⟩ := hmap
          have hread := (h.map m hm).symm.trans hload
          obtain ⟨json, hjson, hm⟩ := hm
          obtain rfl : Json.obj members = json := by simpa using hjson
          exact Json.ne_empty_of_hashMap hm hne
            (congrArg (fun r : DeletionLedger × Bool => r.1.entries) hread)
        · have hread := h.neither nofun
            (fun l hl => by
              obtain ⟨members', hfile, hfield', -⟩ := hl
              obtain rfl : members = members' := by simpa using hfile
              exact hfield hfield')
            fun m hm => hmap ⟨m, hm⟩
          exact absurd (congrArg Prod.snd (hload.symm.trans hread)) Bool.false_ne_true
      | arr elems =>
        intro hpos
        obtain ⟨l, hl⟩ := DeletionLedger.ofJson_arr_iff.mpr hpos
        have hload : DeletionLedger.load (.text (some (.arr elems))) = (l, false) := by
          rw [DeletionLedger.load, Option.bind_some, hl]
        have hread := h.neither nofun
          (fun l hl => by obtain ⟨_, hfile, -⟩ := hl; cases hfile)
          fun m hm => by
            obtain ⟨json, hfile, hm⟩ := hm
            obtain rfl : Json.arr elems = json := by simpa using hfile
            cases hm
        exact absurd (congrArg Prod.snd (hload.symm.trans hread)) Bool.false_ne_true
      | _ => trivial

/-- A file is read back as what it holds, or backed up, exactly where it is not mistaken for a
    ledger without entries. What was saved never is. -/
theorem readBack_iff (file : LedgerFile) : ReadBack file ↔ file.Unmistaken :=
  ⟨unmistaken_of_readBack, readBack_of_unmistaken⟩

/-- A bare map with one tombstone. -/
def mapOfOne : LedgerFile :=
  .text (some (.obj [("a", .obj [("path", .str "a"), ("deleted_at_ms", .int 1000),
    ("deleter_node", .str "laptop"), ("prev_hash", .null), ("prev_mtime_ms", .null)])]))

theorem mapOfOne_lost :
    mapOfOne.HoldsMap (FinMap.empty.insert (.ofNames ["a"])
      ⟨.ofNames ["a"], 1000, "laptop", none, none⟩) ∧
    DeletionLedger.load mapOfOne = (.new, false) ∧ ¬ ReadBack mapOfOne := by
  have ha : componentsOf "a" = .ofNames ["a"] := by decide +kernel
  have hmap : mapOfOne.HoldsMap (FinMap.empty.insert (.ofNames ["a"])
      ⟨.ofNames ["a"], 1000, "laptop", none, none⟩) := by
    refine ⟨_, rfl, ?_⟩
    simp [Json.hashMap, Json.insertMember, Tombstone.ofJson, Json.required, Json.defaulted,
      Json.field, Json.pathBuf, Json.u64, Json.string, Json.optional, ha]
  have hload : DeletionLedger.load mapOfOne = (.new, false) := by
    simp [mapOfOne, DeletionLedger.load, DeletionLedger.ofJson, Json.defaulted, Json.field,
      DeletionLedger.new]
  refine ⟨hmap, hload, fun h => ?_⟩
  have hread := (h.map _ hmap).symm.trans hload
  have hkeys := congrArg (fun r : DeletionLedger × Bool => r.1.entries.get (.ofNames ["a"])) hread
  simp [DeletionLedger.new] at hkeys

end LedgerFile

end ByteHive
