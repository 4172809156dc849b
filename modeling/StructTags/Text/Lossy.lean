import StructTags.Text.Size

/-!
# Bytes that may be no text

File names are bytes, and they are shown as text. Where the bytes spell a character it stands for
itself; what begins a character and breaks off, and every other byte, is shown as one U+FFFD.

* `bytesOf`: the bytes of a text;
* `lossy`: the text that is shown for bytes;
* `lossy_bytesOf`: the bytes of a text are shown as the text itself.
-/

namespace StructTags.Text

/-! ## 1. The bytes of a text -/

/-- The bytes of a text. -/
def bytesOf (s : String) : List UInt8 := s.toUTF8.data.toList

theorem bytesOf_eq (s : String) : bytesOf s = s.toList.flatMap String.utf8EncodeChar := by
  rw [bytesOf, String.toUTF8_eq_toByteArray, ← String.ofList_toList (s := s),
    String.toByteArray_ofList, List.utf8Encode, List.data_toByteArray, String.toList_ofList]

/-! ## 2. Broken characters -/

/-- Whether a byte goes on with a character that an earlier one began. -/
def continues (b : UInt8) : Bool := 0x80 ≤ b && b ≤ 0xBF

/-- Whether two bytes begin a character of three or four bytes. -/
def opens (a b : UInt8) : Bool :=
  if a = 0xE0 then 0xA0 ≤ b && b ≤ 0xBF
  else if a = 0xED then 0x80 ≤ b && b ≤ 0x9F
  else if a = 0xF0 then 0x90 ≤ b && b ≤ 0xBF
  else if a = 0xF4 then 0x80 ≤ b && b ≤ 0x8F
  else 0xE1 ≤ a && a ≤ 0xF3 && continues b

/-- Where the bytes spell no character: how many of them begin one, or 1 if they do not even do
    that. -/
def brokenLength : List UInt8 → Nat
  | a :: b :: rest =>
    if opens a b then if 0xF0 ≤ a && rest.head?.any continues then 3 else 2 else 1
  | _ => 1

/-! ## 3. Showing bytes -/

/-- What is shown for the front of some bytes, and for how many of them it stands. -/
def firstShown (bytes : List UInt8) : Char × Nat :=
  match (bytes.take 4).toByteArray.utf8DecodeChar? 0 with
  | some c => (c, c.utf8Size)
  | none => ('\uFFFD', brokenLength bytes)

/-- What is shown for bytes of which the first few were shown already. -/
def lossyAfter : Nat → List UInt8 → List Char
  | _, [] => []
  | n + 1, _ :: rest => lossyAfter n rest
  | 0, b :: rest =>
    (firstShown (b :: rest)).1 :: lossyAfter ((firstShown (b :: rest)).2 - 1) rest

/-- The text that is shown for bytes. -/
def lossy (bytes : List UInt8) : String := String.ofList (lossyAfter 0 bytes)

theorem firstShown_encode (c : Char) (rest : List UInt8) :
    firstShown (String.utf8EncodeChar c ++ rest) = (c, c.utf8Size) := by
  have hsize : (String.utf8EncodeChar c).length ≤ 4 := by
    rw [String.length_utf8EncodeChar]
    exact c.utf8Size_le_four
  rw [firstShown, List.take_append, List.take_of_length_le hsize, List.toByteArray_append,
    ByteArray.utf8DecodeChar?_utf8EncodeChar_append]

theorem lossyAfter_append (a b : List UInt8) : lossyAfter a.length (a ++ b) = lossyAfter 0 b := by
  induction a with
  | nil => rfl
  | cons x a ih => exact ih

theorem lossyAfter_encode (s : List Char) :
    lossyAfter 0 (s.flatMap String.utf8EncodeChar) = s := by
  induction s with
  | nil => rfl
  | cons c s ih =>
    have hfirst := firstShown_encode c (s.flatMap String.utf8EncodeChar)
    have hlength := String.length_utf8EncodeChar c
    rw [List.flatMap_cons]
    cases hbytes : String.utf8EncodeChar c with
    | nil =>
      have hpos := c.utf8Size_pos
      rw [← hlength, hbytes] at hpos
      exact absurd hpos (Nat.lt_irrefl 0)
    | cons b more =>
      rw [hbytes, List.cons_append] at hfirst
      rw [hbytes] at hlength
      rw [List.cons_append, lossyAfter, hfirst, ← hlength, List.length_cons, Nat.add_sub_cancel,
        lossyAfter_append, ih]

/-- **The bytes of a text are shown as the text itself.** -/
@[simp] theorem lossy_bytesOf (s : String) : lossy (bytesOf s) = s := by
  rw [lossy, bytesOf_eq, lossyAfter_encode, String.ofList_toList]

/-- A byte that begins nothing, two bytes of a character of three, and three of one of four. -/
example : lossy [0x61, 0xFF, 0xE2, 0x82, 0x62, 0xF0, 0x9F, 0x98, 0xC3, 0xA4] =
    "a\uFFFD\uFFFDb\uFFFDä" := by decide

end StructTags.Text
