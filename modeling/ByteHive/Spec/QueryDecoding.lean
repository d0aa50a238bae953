import ByteHive.Native.QueryText

/-!
# What query decoding undoes

The standard encoding writes the UTF-8 bytes of a text, `urlencoded` the code points. The decoder
turns each escape into one character: the bytes of a text become the characters of the same
numbers (`percentDecode_encode`), so that only ASCII comes back from the first, and only what
fits into one byte from the second.
-/

namespace ByteHive

open TextLines

/-! ## The standard encoding -/

def utf8 (v : Text) : List UInt8 := v.flatMap String.utf8EncodeChar

/-- An unreserved byte stands for itself, another is escaped. -/
def encodeByte (plus : Bool) (b : UInt8) : Text :=
  if isUnreserved (Char.ofNat b.toNat) then [Char.ofNat b.toNat]
  else if plus = true ∧ b = 32 then ['+']
  else '%' :: hexUpper b.toNat

/-- A space may be written as `+`. -/
def encode (plus : Bool) (v : Text) : Text := (utf8 v).flatMap (encodeByte plus)

/-- A query with the parameters. -/
def queryOf (plus : Bool) (params : List (Text × Text)) : Text :=
  ['&'].intercalate (params.map fun p => encode plus p.1 ++ '=' :: encode plus p.2)

/-! ## One escape -/

/-- The two digits of a byte are read back. -/
theorem pushEscape_hexUpper {n : Nat} (h : n < 256) :
    ∃ h1 h2, hexUpper n = [h1, h2] ∧ pushEscape h1 h2 = [Char.ofNat n] := by
  have hall : ∀ n < 256, (hexUpper n).length = 2 ∧
      pushEscape ((hexUpper n).getD 0 ' ') ((hexUpper n).getD 1 ' ') = [Char.ofNat n] := by
    decide +kernel
  obtain ⟨hlen, hpush⟩ := hall n h
  obtain ⟨h1, h2, heq⟩ := List.length_eq_two.mp hlen
  rw [heq] at hpush
  exact ⟨h1, h2, heq, hpush⟩

theorem percentDecode_escape {n : Nat} (h : n < 256) (rest : Text) :
    percentDecode ('%' :: hexUpper n ++ rest) = Char.ofNat n :: percentDecode rest := by
  obtain ⟨h1, h2, heq, hpush⟩ := pushEscape_hexUpper h
  rw [heq]
  show pushEscape h1 h2 ++ percentDecode rest = _
  rw [hpush]
  rfl

/-- A character that is no escape and no plus stands for itself. -/
theorem percentDecode_cons {c : Char} (hpercent : c ≠ '%') (hplus : c ≠ '+') (rest : Text) :
    percentDecode (c :: rest) = c :: percentDecode rest := by
  rw [percentDecode.eq_def]
  simp only [if_neg hpercent, if_neg hplus]

theorem percentDecode_unreserved {c : Char} (h : isUnreserved c = true) (rest : Text) :
    percentDecode (c :: rest) = c :: percentDecode rest := by
  refine percentDecode_cons ?_ ?_ rest
  · rintro rfl
    exact absurd h (by decide)
  · rintro rfl
    exact absurd h (by decide)

/-! ## The standard encoding is decoded byte by byte -/

theorem percentDecode_encodeByte (plus : Bool) (b : UInt8) (rest : Text) :
    percentDecode (encodeByte plus b ++ rest) = Char.ofNat b.toNat :: percentDecode rest := by
  rw [encodeByte]
  split
  · next h => exact percentDecode_unreserved h rest
  · split
    · next h =>
      obtain ⟨-, rfl⟩ := h
      rw [List.singleton_append, percentDecode.eq_def]
      rfl
    · exact percentDecode_escape b.toNat_lt rest

/-- The characters with the numbers of the bytes. -/
theorem percentDecode_encode (plus : Bool) (v : Text) :
    percentDecode (encode plus v) = (utf8 v).map fun b => Char.ofNat b.toNat := by
  rw [encode]
  induction utf8 v with
  | nil => rfl
  | cons b bs ih => rw [List.flatMap_cons, percentDecode_encodeByte, ih, List.map_cons]

/-- Texts whose characters are each decoded to at least one keep their length only where each is
    decoded to one. -/
theorem flatMap_eq_self_iff {α : Type} {g : α → List α} (hg : ∀ a, g a ≠ []) (l : List α) :
    l.flatMap g = l ↔ ∀ a ∈ l, g a = [a] := by
  have hlen : ∀ l : List α, l.length ≤ (l.flatMap g).length := by
    intro l
    induction l with
    | nil => simp
    | cons a l ih =>
      have hpos : 0 < (g a).length := List.length_pos_iff.mpr (hg a)
      simp only [List.flatMap_cons, List.length_append, List.length_cons]
      omega
  induction l with
  | nil => simp
  | cons a l ih =>
    rw [List.flatMap_cons, List.forall_mem_cons]
    constructor
    · intro h
      have hsize := congrArg List.length h
      have hrest := hlen l
      have hpos : 0 < (g a).length := List.length_pos_iff.mpr (hg a)
      simp only [List.length_append, List.length_cons] at hsize
      obtain ⟨b, hb⟩ := List.length_eq_one_iff.mp (by omega : (g a).length = 1)
      rw [hb, List.singleton_append, List.cons.injEq] at h
      exact ⟨by rw [hb, h.1], ih.mp h.2⟩
    · intro ⟨ha, hl⟩
      rw [ha, ih.mpr hl]
      rfl

theorem utf8EncodeChar_ascii {c : Char} (h : c.toNat < 128) :
    (String.utf8EncodeChar c).map (fun b => Char.ofNat b.toNat) = [c] := by
  have hval : c.val.toNat < 128 := h
  have hsize : c.utf8Size = 1 :=
    Char.utf8Size_eq_one_iff.mpr (UInt32.le_iff_toNat_le.mpr (by simpa using Nat.le_of_lt_succ h))
  have hnat : c.val.toUInt8.toNat = c.toNat := by
    rw [UInt32.toNat_toUInt8]
    exact Nat.mod_eq_of_lt (by omega)
  rw [String.utf8EncodeChar_eq_singleton hsize, List.map_singleton, hnat, Char.ofNat_toNat]

theorem lt_of_utf8Size_eq_one {c : Char} (h : c.utf8Size = 1) : c.toNat < 128 := by
  have hval := UInt32.le_iff_toNat_le.mp (Char.utf8Size_eq_one_iff.mp h)
  exact Nat.lt_succ_of_le hval

theorem percentDecode_encode_eq_iff (plus : Bool) (v : Text) :
    percentDecode (encode plus v) = v ↔ ∀ c ∈ v, c.toNat < 128 := by
  rw [percentDecode_encode, utf8, List.map_flatMap, flatMap_eq_self_iff (by simp)]
  refine forall₂_congr fun c _ => ⟨fun h => ?_, utf8EncodeChar_ascii⟩
  have hlen := congrArg List.length h
  rw [List.length_map, String.length_utf8EncodeChar] at hlen
  exact lt_of_utf8Size_eq_one hlen

/-! ## Code points -/

def hexDigits : Text := "0123456789ABCDEF".toList

theorem mem_hexUpper {n : Nat} {c : Char} (h : c ∈ hexUpper n) : c ∈ hexDigits := by
  have hdigit : ∀ d < 16, (Nat.digitChar d).toUpper ∈ hexDigits := by decide
  have hdigits : ∀ n : Nat, ∀ d ∈ Nat.toDigits 16 n, d.toUpper ∈ hexDigits := by
    intro n
    induction n using Nat.strongRecOn with
    | ind n ih =>
      intro d hd
      rw [Nat.toDigits_eq_if (by decide)] at hd
      split at hd
      · next hlt =>
        obtain rfl := List.mem_singleton.mp hd
        exact hdigit n hlt
      · rw [List.mem_append, List.mem_singleton] at hd
        obtain hd | rfl := hd
        · exact ih (n / 16) (by omega) d hd
        · exact hdigit _ (Nat.mod_lt n (by decide))
  rw [hexUpper, List.leftpad, List.mem_append, List.mem_replicate, List.mem_map] at h
  obtain ⟨-, rfl⟩ | ⟨d, hd, rfl⟩ := h
  · decide
  · exact hdigits n d hd

/-- Digits are none of the characters that mean something in a query. -/
theorem plain_of_mem_hexDigits : ∀ c ∈ hexDigits, c ∉ ['%', '+', '&', '='] := by
  have hall : (hexDigits.all fun c => decide (c ∉ ['%', '+', '&', '='])) = true := by decide
  exact fun c hc => of_decide_eq_true (List.all_eq_true.mp hall c hc)

theorem length_pushEscape {h1 h2 : Char} (hh1 : h1 ∈ hexDigits) (hh2 : h2 ∈ hexDigits) :
    (pushEscape h1 h2).length = 1 := by
  have hall : (hexDigits.all fun a => hexDigits.all fun b =>
      decide ((pushEscape a b).length = 1)) = true := by decide
  exact of_decide_eq_true (List.all_eq_true.mp (List.all_eq_true.mp hall h1 hh1) h2 hh2)

theorem exists_hexUpper (n : Nat) : ∃ h1 h2 rest, hexUpper n = h1 :: h2 :: rest := by
  have hlen : 2 ≤ (hexUpper n).length := by
    rw [hexUpper, List.length_leftpad]
    exact le_max_left _ _
  match hexUpper n, hlen with
  | h1 :: h2 :: rest, _ => exact ⟨h1, h2, rest, rfl⟩

/-- A number past one byte has digits that the decoder takes for text. -/
theorem length_hexUpper {n : Nat} (h : 256 ≤ n) : 3 ≤ (hexUpper n).length := by
  have hlong : ¬(Nat.toDigits 16 n).length ≤ 2 := by
    rw [Nat.length_toDigits_le_iff (by decide) (by decide)]
    omega
  rw [hexUpper, List.length_leftpad, List.length_map]
  omega

/-- Text without escapes is not changed. -/
theorem percentDecode_plain {t : Text} (h : ∀ c ∈ t, c ∉ ['%', '+', '&', '=']) (rest : Text) :
    percentDecode (t ++ rest) = t ++ percentDecode rest := by
  induction t with
  | nil => rfl
  | cons c t ih =>
    have hc := h c List.mem_cons_self
    simp only [List.mem_cons, not_or] at hc
    rw [List.cons_append, percentDecode_cons hc.1 hc.2.1,
      ih fun d hd => h d (List.mem_cons_of_mem _ hd)]
    rfl

/-- What becomes of one character that `urlencoded` wrote. -/
def readBack (c : Char) : Text :=
  if isUnreserved c || c = '/' then [c]
  else pushEscape ((hexUpper c.toNat).getD 0 '0') ((hexUpper c.toNat).getD 1 '0') ++
    (hexUpper c.toNat).drop 2

theorem percentDecode_urlencoded (s : Text) :
    percentDecode (urlencoded s) = s.flatMap readBack := by
  induction s with
  | nil => rfl
  | cons c s ih =>
    rw [urlencoded, List.flatMap_cons, ← urlencoded, List.flatMap_cons, ← ih, readBack]
    split
    · next hc =>
      obtain hc | rfl : isUnreserved c = true ∨ c = '/' := by simpa using hc
      · exact percentDecode_unreserved hc _
      · exact percentDecode_cons (by decide) (by decide) _
    · obtain ⟨h1, h2, rest, heq⟩ := exists_hexUpper c.toNat
      have hplain : ∀ d ∈ rest, d ∉ ['%', '+', '&', '='] := fun d hd =>
        plain_of_mem_hexDigits d
          (mem_hexUpper (heq ▸ List.mem_cons_of_mem _ (List.mem_cons_of_mem _ hd)))
      rw [heq]
      show pushEscape h1 h2 ++ percentDecode (rest ++ urlencoded s) =
        pushEscape h1 h2 ++ rest ++ percentDecode (urlencoded s)
      rw [percentDecode_plain hplain, List.append_assoc]

theorem lt_of_isUnreserved {c : Char} (h : isUnreserved c = true) : c.toNat < 128 := by
  unfold isUnreserved at h
  delta Char.isUpper Char.isLower Char.isDigit at h
  simp only [Bool.or_eq_true, Bool.and_eq_true, decide_eq_true_eq, UInt32.le_iff_toNat_le,
    ge_iff_le] at h
  obtain (((((h | h) | h) | rfl) | rfl) | rfl) | rfl := h
  · exact Nat.lt_of_le_of_lt h.2 (by decide)
  · exact Nat.lt_of_le_of_lt h.2 (by decide)
  · exact Nat.lt_of_le_of_lt h.2 (by decide)
  all_goals decide

theorem readBack_eq_iff (c : Char) : readBack c = [c] ↔ c.toNat < 256 := by
  rw [readBack]
  split
  · next hc =>
    have hlt : c.toNat < 128 := by
      obtain hc | rfl : isUnreserved c = true ∨ c = '/' := by simpa using hc
      · exact lt_of_isUnreserved hc
      · decide
    simp only [true_iff]
    omega
  · obtain ⟨h1, h2, rest, heq⟩ := exists_hexUpper c.toNat
    constructor
    · intro h
      by_contra hlarge
      have hlen := length_hexUpper (by omega : 256 ≤ c.toNat)
      have hone := length_pushEscape (mem_hexUpper (heq ▸ List.mem_cons_self))
        (mem_hexUpper (heq ▸ List.mem_cons_of_mem _ List.mem_cons_self))
      rw [heq] at h hlen
      have hsize : (pushEscape h1 h2 ++ rest).length = 1 := congrArg List.length h
      simp only [List.length_append, List.length_cons] at hsize hlen
      omega
    · intro h
      obtain ⟨d1, d2, hdigits, hpush⟩ := pushEscape_hexUpper h
      rw [hdigits]
      show pushEscape d1 d2 ++ [] = [c]
      rw [hpush, Char.ofNat_toNat, List.append_nil]

theorem readBack_ne_nil (c : Char) : readBack c ≠ [] := by
  rw [readBack]
  split
  · simp
  · obtain ⟨h1, h2, rest, heq⟩ := exists_hexUpper c.toNat
    have hone := length_pushEscape (mem_hexUpper (heq ▸ List.mem_cons_self))
      (mem_hexUpper (heq ▸ List.mem_cons_of_mem _ List.mem_cons_self))
    rw [heq]
    intro h
    have hsize : (pushEscape h1 h2 ++ rest).length = 0 := congrArg List.length h
    rw [List.length_append] at hsize
    omega

/-- The other encoder comes back as far as the code points are bytes. -/
theorem percentDecode_urlencoded_eq_iff (s : Text) :
    percentDecode (urlencoded s) = s ↔ ∀ c ∈ s, c.toNat < 256 := by
  rw [percentDecode_urlencoded, flatMap_eq_self_iff readBack_ne_nil]
  exact forall₂_congr fun c _ => readBack_eq_iff c

/-! ## Parameters -/

theorem plain_of_isUnreserved {c : Char} (h : isUnreserved c = true) : c ≠ '&' ∧ c ≠ '=' := by
  constructor
  · rintro rfl
    exact absurd h (by decide)
  · rintro rfl
    exact absurd h (by decide)

/-- An encoded text holds no separator. -/
theorem notMem_encode (plus : Bool) (v : Text) : '&' ∉ encode plus v ∧ '=' ∉ encode plus v := by
  have hbyte : ∀ b, ∀ c ∈ encodeByte plus b, c ≠ '&' ∧ c ≠ '=' := by
    intro b c hc
    rw [encodeByte] at hc
    split at hc
    · next h =>
      obtain rfl := List.mem_singleton.mp hc
      exact plain_of_isUnreserved h
    · split at hc
      · obtain rfl := List.mem_singleton.mp hc
        decide
      · obtain rfl | hc := List.mem_cons.mp hc
        · decide
        · have hplain := plain_of_mem_hexDigits c (mem_hexUpper hc)
          simp only [List.mem_cons, List.not_mem_nil, or_false, not_or] at hplain
          exact hplain.2.2
  have hall : ∀ c ∈ encode plus v, c ≠ '&' ∧ c ≠ '=' := by
    intro c hc
    obtain ⟨b, -, hc⟩ := List.mem_flatMap.mp hc
    exact hbyte b c hc
  exact ⟨fun h => (hall _ h).1 rfl, fun h => (hall _ h).2 rfl⟩

theorem utf8_injective {v w : Text} (h : utf8 v = utf8 w) : v = w := by
  have hbytes : (String.ofList v).toByteArray = (String.ofList w).toByteArray := by
    rw [String.toByteArray_ofList, String.toByteArray_ofList, List.utf8Encode, List.utf8Encode]
    exact congrArg _ h
  exact String.ofList_injective (String.toByteArray_inj.mp hbytes)

/-- The decoder still tells the bytes apart. -/
theorem encode_injective {plus : Bool} {v w : Text} (h : encode plus v = encode plus w) :
    v = w := by
  have hdecoded := congrArg percentDecode h
  rw [percentDecode_encode, percentDecode_encode] at hdecoded
  have hchar : Function.Injective fun b : UInt8 => Char.ofNat b.toNat := by
    intro b b' hb
    have hnat : ∀ n < 256, (Char.ofNat n).toNat = n := by decide +kernel
    have hb' := congrArg Char.toNat hb
    dsimp only at hb'
    rw [hnat _ b.toNat_lt, hnat _ b'.toNat_lt] at hb'
    exact UInt8.toNat_inj.mp hb'
  exact utf8_injective (hchar.list_map hdecoded)

/-- The first parameter with the name is found, and decoded. -/
theorem queryParam_queryOf (plus : Bool) {params : List (Text × Text)} (hne : params ≠ [])
    (key : Text) :
    queryParam (queryOf plus params) (encode plus key) =
      (params.find? fun p => p.1 = key).map fun p => percentDecode (encode plus p.2) := by
  have hsplit : (queryOf plus params).splitOn '&' =
      params.map fun p => encode plus p.1 ++ '=' :: encode plus p.2 := by
    refine List.splitOn_intercalate '&' (fun t ht => ?_) (by simpa using hne)
    obtain ⟨p, -, rfl⟩ := List.mem_map.mp ht
    simp only [List.mem_append, List.mem_cons, not_or]
    exact ⟨(notMem_encode plus p.1).1, by decide, (notMem_encode plus p.2).1⟩
  have hname : ∀ p : Text × Text, ∀ c ∈ encode plus p.1, (c != '=') = true := by
    intro p c hc
    have hne := (notMem_encode plus p.1).2
    exact bne_iff_ne.mpr fun heq => hne (heq ▸ hc)
  have htake : ∀ p : Text × Text,
      (encode plus p.1 ++ '=' :: encode plus p.2).takeWhile (· != '=') = encode plus p.1 := by
    intro p
    rw [List.takeWhile_append_of_pos (hname p), List.takeWhile_cons_of_neg (by simp),
      List.append_nil]
  have hdrop : ∀ p : Text × Text,
      (encode plus p.1 ++ '=' :: encode plus p.2).dropWhile (· != '=') =
        '=' :: encode plus p.2 := by
    intro p
    rw [List.dropWhile_append_of_pos (hname p), List.dropWhile_cons_of_neg (by simp)]
  have hkey : ∀ p : Text × Text, encode plus p.1 = encode plus key ↔ p.1 = key :=
    fun p => ⟨encode_injective, congrArg _⟩
  rw [queryParam, hsplit, List.findSome?_map]
  clear hsplit hne
  induction params with
  | nil => rfl
  | cons p params ih =>
    rw [List.findSome?_cons, List.find?_cons]
    simp only [Function.comp_apply, htake, hdrop, hkey, List.tail_cons]
    by_cases hp : p.1 = key
    · simp [hp]
    · simp only [hp, if_false, decide_false]
      exact ih

/-- The text comes back from its encoding, from every query in which it is the first value of its
    key, and from the other encoder. -/
structure ComesBack (v : Text) : Prop where
  decoded : ∀ plus, percentDecode (encode plus v) = v
  found : ∀ plus before key after, (∀ p ∈ before, p.1 ≠ key) →
    queryParam (queryOf plus (before ++ (key, v) :: after)) (encode plus key) = some v
  redirected : percentDecode (urlencoded v) = v

/-- ASCII texts come back, and no others. -/
theorem comesBack_iff (v : Text) : ComesBack v ↔ ∀ c ∈ v, c.toNat < 128 := by
  constructor
  · intro h
    exact (percentDecode_encode_eq_iff false v).mp (h.decoded false)
  · intro h
    have hdecode := fun plus => (percentDecode_encode_eq_iff plus v).mpr h
    refine ⟨hdecode, fun plus before key after hfirst => ?_, ?_⟩
    · have hfind : (before ++ (key, v) :: after).find? (fun p => p.1 = key) = some (key, v) := by
        rw [List.find?_append, List.find?_eq_none.mpr (by simpa using hfirst)]
        simp
      rw [queryParam_queryOf plus (by simp), hfind, Option.map_some, hdecode plus]
    · exact (percentDecode_urlencoded_eq_iff v).mpr fun c hc => Nat.lt_trans (h c hc) (by decide)

/-- A file name with an accent is another one after decoding. -/
theorem accent_lost : percentDecode (encode false "é.txt".toList) = "Ã©.txt".toList ∧
    queryParam (queryOf false [("path".toList, "é.txt".toList)]) "path".toList ≠
      some "é.txt".toList := by
  decide +kernel

end ByteHive
