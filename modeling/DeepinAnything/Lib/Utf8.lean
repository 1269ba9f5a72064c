import Mathlib.Data.List.Basic
import Mathlib.Data.List.Infix
import Mathlib.Tactic.Common

/-!
# UTF-8

Encoding and decoding of lists of characters, after the encoding of a character of the core library.
Every character starts with a byte that no other place of a character has, so a text is found in
another text where its bytes are found.
-/

namespace Utf8

/-- The bytes of a text. -/
def encode (cs : List Char) : List UInt8 := cs.flatMap String.utf8EncodeChar

/-- The text of bytes that are valid UTF-8. -/
def decode (bs : List UInt8) : Option (List Char) := bs.toByteArray.utf8Decode?.map Array.toList

@[simp] theorem encode_nil : encode [] = [] := rfl

@[simp] theorem encode_cons (c : Char) (cs : List Char) :
    encode (c :: cs) = String.utf8EncodeChar c ++ encode cs := rfl

@[simp] theorem encode_append (cs ds : List Char) : encode (cs ++ ds) = encode cs ++ encode ds :=
  List.flatMap_append

theorem toByteArray_encode (cs : List Char) : (encode cs).toByteArray = cs.utf8Encode := rfl

theorem decode_encode (cs : List Char) : decode (encode cs) = some cs := by
  rw [decode, toByteArray_encode, List.utf8Decode?_utf8Encode]
  simp

theorem encode_of_decode {bs : List UInt8} {cs : List Char} (h : decode bs = some cs) : encode cs = bs := by
  obtain ⟨a, ha, rfl⟩ := Option.map_eq_some_iff.mp h
  have hsome : bs.toByteArray.utf8Decode?.isSome := by rw [ha]; rfl
  have hget := ByteArray.utf8Encode_get_utf8Decode? (b := bs.toByteArray) (h := hsome)
  simp only [ha, Option.get_some] at hget
  rw [← toByteArray_encode] at hget
  have := congrArg (fun b : ByteArray => b.data.toList) hget
  simpa [List.data_toByteArray] using this

theorem decode_eq_some_iff {bs : List UInt8} {cs : List Char} : decode bs = some cs ↔ bs = encode cs :=
  ⟨fun h => (encode_of_decode h).symm, fun h => h ▸ decode_encode cs⟩

theorem encode_injective : Function.Injective encode := fun cs ds h => by
  have := decode_encode cs
  rw [h, decode_encode] at this
  exact (Option.some.inj this).symm

/-! ## Lengths -/

theorem length_encode_le (cs : List Char) : (encode cs).length ≤ 4 * cs.length := by
  induction cs with
  | nil => simp
  | cons c cs ih =>
    have := c.utf8Size_le_four
    rw [encode_cons, List.length_append, String.length_utf8EncodeChar, List.length_cons]
    omega

theorem length_le_encode (cs : List Char) : cs.length ≤ (encode cs).length := by
  induction cs with
  | nil => simp
  | cons c cs ih =>
    have := c.utf8Size_pos
    rw [encode_cons, List.length_append, String.length_utf8EncodeChar, List.length_cons]
    omega

theorem encode_eq_nil_iff {cs : List Char} : encode cs = [] ↔ cs = [] := by
  refine ⟨fun h => ?_, fun h => h ▸ rfl⟩
  have := length_le_encode cs
  rw [h, List.length_nil] at this
  exact List.length_eq_zero_iff.mp (by omega)

/-! ## Finding a text -/

/-- The first byte of a text starts a character. -/
theorem isUTF8FirstByte_of_head {qs : List Char} {x : UInt8} (h : (encode qs).head? = some x) :
    x.IsUTF8FirstByte := by
  cases qs with
  | nil => simp at h
  | cons q qs =>
    have hpos : 0 < (String.utf8EncodeChar q).length := by
      rw [String.length_utf8EncodeChar]
      exact q.utf8Size_pos
    have hx : (String.utf8EncodeChar q)[0] = x := by
      rw [encode_cons, List.head?_append_of_ne_nil _ (List.ne_nil_of_length_pos hpos),
        List.head?_eq_getElem?, List.getElem?_eq_getElem hpos] at h
      exact Option.some.inj h
    rw [← hx]
    exact UInt8.isUTF8FirstByte_getElem_utf8EncodeChar.mpr rfl

theorem prefix_encode_iff {qs cs : List Char} : encode qs <+: encode cs ↔ qs <+: cs := by
  constructor
  · rintro ⟨r, hr⟩
    exact List.isPrefix_of_utf8Encode_append_eq_utf8Encode r.toByteArray (by
      rw [← toByteArray_encode, ← toByteArray_encode, ← hr, List.toByteArray_append])
  · rintro ⟨r, rfl⟩
    rw [encode_append]
    exact List.prefix_append _ _

/-- A text is found in another where its bytes are found: between two characters of the other, since
its first byte starts a character. -/
theorem infix_encode_iff {qs cs : List Char} : encode qs <:+: encode cs ↔ qs <:+: cs := by
  refine ⟨fun h => ?_, ?_⟩
  · by_cases hq : qs = []
    · exact hq ▸ List.nil_infix
    induction cs with
    | nil =>
      rw [encode_nil, List.infix_nil, encode_eq_nil_iff] at h
      exact absurd h hq
    | cons c cs ih =>
      obtain ⟨l, r, hlr⟩ := h
      rw [encode_cons, List.append_assoc] at hlr
      rcases List.append_eq_append_iff.mp hlr with ⟨a, hc, ha⟩ | ⟨a, hl, ha⟩
      · cases l with
        | nil =>
          -- the text starts with this character
          refine List.IsPrefix.isInfix (prefix_encode_iff.mp ?_)
          rw [encode_cons, ← hlr, List.nil_append]
          exact List.prefix_append _ _
        | cons y l =>
          cases a with
          | nil =>
            refine List.infix_cons (ih ⟨[], r, ?_⟩)
            rw [List.nil_append, ha, List.nil_append]
          | cons x a =>
            -- it does not start within it
            have hx : (encode qs).head? = some x := by
              have hne : encode qs ≠ [] := fun h0 => hq (encode_eq_nil_iff.mp h0)
              have := congrArg List.head? ha
              rwa [List.head?_append_of_ne_nil _ hne, List.cons_append, List.head?_cons] at this
            have hget : getElem (String.utf8EncodeChar c) (y :: l).length (by simp [hc]) = x := by
              simp [hc]
            have hfirst := isUTF8FirstByte_of_head hx
            rw [← hget, UInt8.isUTF8FirstByte_getElem_utf8EncodeChar] at hfirst
            simp at hfirst
      · exact List.infix_cons (ih ⟨a, r, by rw [List.append_assoc, ha]⟩)
  · rintro ⟨l, r, rfl⟩
    rw [encode_append, encode_append]
    exact ⟨_, _, rfl⟩

end Utf8
