/-!
# Sizes and encodings of texts

A text is a list of characters, a file holds bytes. This file ties the two together:

* `byteLength` is the number of bytes a text takes, the measure in which spans are given;
* `encode` and `decode?` go from texts to bytes and back, and `decode?` refuses all bytes that
  are no UTF-8 text;
* `decode?_encode` and `encode_of_decode?`: each is the other's inverse.
-/

namespace StructTags.Text

/-! ## 1. Length in bytes -/

/-- The number of bytes of a text in UTF-8. -/
def byteLength : List Char → Nat
  | [] => 0
  | c :: s => c.utf8Size + byteLength s

@[simp] theorem byteLength_nil : byteLength [] = 0 := rfl

@[simp] theorem byteLength_cons (c : Char) (s : List Char) :
    byteLength (c :: s) = c.utf8Size + byteLength s := rfl

@[simp] theorem byteLength_append (s t : List Char) :
    byteLength (s ++ t) = byteLength s + byteLength t := by
  induction s with
  | nil => simp
  | cons c s ih => simp [ih, Nat.add_assoc]

/-- Every character takes at least one byte. -/
theorem length_le_byteLength (s : List Char) : s.length ≤ byteLength s := by
  induction s with
  | nil => simp
  | cons c s ih =>
    have := c.utf8Size_pos
    simp only [List.length_cons, byteLength_cons]
    omega

/-! ## 2. Bytes -/

/-- The UTF-8 form of a text. -/
def encode (s : List Char) : ByteArray := (String.ofList s).toUTF8

/-- The text that the bytes spell, if they are UTF-8. -/
def decode? (bytes : ByteArray) : Option (List Char) := (String.fromUTF8? bytes).map String.toList

theorem decode?_encode (s : List Char) : decode? (encode s) = some s := by
  have valid : (String.ofList s).toByteArray.IsValidUTF8 := (String.ofList s).isValidUTF8
  have h : String.fromUTF8? (encode s) = some (String.ofList s) := dif_pos valid
  rw [decode?, h, Option.map_some, String.toList_ofList]

theorem encode_inj {s t : List Char} : encode s = encode t ↔ s = t :=
  ⟨fun h => Option.some.inj (by rw [← decode?_encode s, h, decode?_encode t]), congrArg encode⟩

theorem encode_of_decode? {bytes : ByteArray} {s : List Char} (h : decode? bytes = some s) :
    encode s = bytes := by
  obtain ⟨text, htext, rfl⟩ := Option.map_eq_some_iff.mp h
  simp only [String.fromUTF8?] at htext
  split at htext
  · cases htext
    simp only [encode, String.toUTF8, String.ofList_toList]
    rfl
  · cases htext

end StructTags.Text
