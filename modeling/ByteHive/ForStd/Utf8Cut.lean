import Mathlib.Data.List.Infix

/-!
# Cutting UTF-8

Where the bytes of a text may be cut. A byte that begins a character stands at a boundary of the
text (`exists_split`), so bytes that are no text stay so when the beginning of another text is
written behind them, and where they are a text with such a beginning behind it, the beginning was
cut at a boundary (`exists_of_append`).
-/

namespace Utf8Cut

/-- The bytes of a text. -/
def encode (text : List Char) : List UInt8 := text.flatMap String.utf8EncodeChar

theorem encode_append (a b : List Char) : encode (a ++ b) = encode a ++ encode b :=
  List.flatMap_append

theorem encode_cons (c : Char) (text : List Char) :
    encode (c :: text) = String.utf8EncodeChar c ++ encode text := rfl

theorem encode_eq_nil_iff {text : List Char} : encode text = [] ↔ text = [] := by
  cases text with
  | nil => exact iff_of_true rfl rfl
  | cons c text => simp [encode_cons]

/-- Bytes are read as a text exactly when they are its bytes. -/
theorem decode_eq_some_iff {bytes : List UInt8} {text : List Char} :
    bytes.toByteArray.utf8Decode?.map (·.toList) = some text ↔ bytes = encode text := by
  have hencode : (encode text).toByteArray = text.utf8Encode := rfl
  constructor
  · intro h
    obtain ⟨chars, hchars, rfl⟩ := Option.map_eq_some_iff.mp h
    have hsome : bytes.toByteArray.utf8Decode?.isSome = true := by
      rw [hchars]
      rfl
    have hback : (bytes.toByteArray.utf8Decode?.get hsome).toList.utf8Encode = bytes.toByteArray :=
      ByteArray.utf8Encode_get_utf8Decode?
    simp only [hchars, Option.get_some] at hback
    exact List.toByteArray_inj.mp hback.symm
  · intro h
    rw [h, hencode, List.utf8Decode?_utf8Encode]
    rfl

/-- A character begins with a first byte, and the bytes inside it are none. -/
theorem firstByte_iff {c : Char} {x y : List UInt8} {b : UInt8}
    (h : String.utf8EncodeChar c = x ++ b :: y) : b.IsUTF8FirstByte ↔ x = [] := by
  have hlen : x.length < (String.utf8EncodeChar c).length := by
    rw [h, List.length_append, List.length_cons]
    omega
  have hget : (String.utf8EncodeChar c)[x.length] = b := by simp [h]
  rw [← hget, UInt8.isUTF8FirstByte_getElem_utf8EncodeChar, List.length_eq_zero_iff]

theorem firstByte_encode {text : List Char} {b : UInt8} {y : List UInt8}
    (h : encode text = b :: y) : b.IsUTF8FirstByte := by
  cases text with
  | nil => cases h
  | cons c text =>
    rw [encode_cons] at h
    cases hc : String.utf8EncodeChar c with
    | nil => exact absurd hc String.utf8EncodeChar_ne_nil
    | cons d z =>
      rw [hc, List.cons_append, List.cons.injEq] at h
      exact h.1 ▸ (firstByte_iff (x := []) hc).mpr rfl

/-- A first byte stands at a boundary. -/
theorem exists_split {text : List Char} {x y : List UInt8} (h : encode text = x ++ y)
    (hy : ∀ b z, y = b :: z → b.IsUTF8FirstByte) :
    ∃ a b, text = a ++ b ∧ encode a = x ∧ encode b = y := by
  induction text generalizing x with
  | nil =>
    obtain ⟨rfl, rfl⟩ := List.append_eq_nil_iff.mp h.symm
    exact ⟨[], [], rfl, rfl, rfl⟩
  | cons c text ih =>
    rw [encode_cons] at h
    obtain ⟨more, hx, htext⟩ | ⟨inner, hchar, hrest⟩ := List.append_eq_append_iff.mp h
    · -- the cut is behind the first character
      obtain ⟨a, b, rfl, ha, hb⟩ := ih htext
      refine ⟨c :: a, b, rfl, ?_, hb⟩
      rw [encode_cons, ha, hx]
    · cases inner with
      | nil =>
        refine ⟨[c], text, rfl, ?_, hrest.symm⟩
        rw [encode_cons, hchar]
        simp [encode]
      | cons b z =>
        obtain rfl := (firstByte_iff hchar).mp (hy b _ hrest)
        refine ⟨[], c :: text, rfl, rfl, ?_⟩
        rw [encode_cons, hchar, hrest, List.nil_append]

/-- No character begins another one. -/
theorem encode_prefix_iff {a b : List Char} : encode a <+: encode b ↔ a <+: b := by
  constructor
  · intro h
    induction a generalizing b with
    | nil => exact List.nil_prefix
    | cons c a ih =>
      obtain ⟨rest, hrest⟩ := h
      cases b with
      | nil =>
        rw [encode_cons] at hrest
        simp [encode] at hrest
      | cons d b =>
        rw [encode_cons, encode_cons, List.append_assoc] at hrest
        obtain rfl : c = d := by
          have hdecode := congrArg (fun bytes => ByteArray.utf8DecodeChar? bytes.toByteArray 0) hrest
          simpa only [List.toByteArray_append, ByteArray.utf8DecodeChar?_utf8EncodeChar_append,
            Option.some.injEq] using hdecode
        exact List.cons_prefix_cons.mpr ⟨rfl, ih ⟨rest, List.append_cancel_left hrest⟩⟩
  · intro ⟨rest, h⟩
    exact ⟨encode rest, by rw [← encode_append, h]⟩

/-- Bytes with the beginning of a text behind them that are a text: they are one already, and the
    beginning is one of characters. -/
theorem exists_of_append {bytes part : List UInt8} {text whole : List Char}
    (hpart : part <+: encode text) (h : bytes ++ part = encode whole) :
    ∃ before cut, bytes = encode before ∧ part = encode cut ∧ whole = before ++ cut ∧
      cut <+: text := by
  obtain ⟨rest, hrest⟩ := hpart
  have hfirst : ∀ b z, part = b :: z → b.IsUTF8FirstByte := by
    intro b z hb
    rw [hb, List.cons_append] at hrest
    exact firstByte_encode hrest.symm
  obtain ⟨before, cut, hwhole, hbefore, hcut⟩ := exists_split h.symm hfirst
  refine ⟨before, cut, hbefore.symm, hcut.symm, hwhole, encode_prefix_iff.mp ?_⟩
  rw [hcut, ← hrest]
  exact List.prefix_append part rest

end Utf8Cut
