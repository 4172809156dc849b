import StructTags.Tag.Pair

/-!
# Struct tags

A struct tag stands between backticks and holds one or two pairs, with at most one blank
after the first. This file fixes

* the type `Tag`, its written form `Tag.text` and how long that is (`Tag.length`, `Tag.size`);
* the grammar of tags, `Tag.Valid` for the parts and `Conforms` for texts;
* whether a tag carries msgpack, and if not what its first pair is to become
  (`Tag.hasMsgpack`, `Tag.augmentation?`).
-/

namespace StructTags

/-! ## 1. Tags and their text -/

/-- A struct tag: a first pair, perhaps a blank, perhaps a second pair. -/
structure Tag where
  first : Pair
  gap : Option Char
  second : Option Pair
  deriving DecidableEq, Repr

namespace Tag

/-- What stands between the backticks after the first pair. -/
def tail (t : Tag) : List Char :=
  t.gap.toList ++ ((t.second.map Pair.raw).getD [])

/-- The tag as it is written, backticks included. -/
def text (t : Tag) : List Char := backtick :: (t.first.raw ++ t.tail ++ [backtick])

theorem text_ne_nil (t : Tag) : t.text ≠ [] := List.cons_ne_nil _ _

/-- The number of characters of the tag as it is written. -/
def length (t : Tag) : Nat :=
  t.first.length + (if t.gap.isSome then 1 else 0) + ((t.second.map Pair.length).getD 0) + 2

theorem length_text (t : Tag) : t.text.length = t.length := by
  obtain ⟨first, gap, second⟩ := t
  cases gap <;> cases second <;> simp [text, tail, length, Pair.length_raw] <;> omega

/-- The number of bytes of the tag as it is written. -/
def size (t : Tag) : Nat :=
  t.first.size + ((t.gap.map Char.utf8Size).getD 0) + ((t.second.map Pair.size).getD 0) + 2

theorem byteLength_text (t : Tag) : Text.byteLength t.text = t.size := by
  have one : backtick.utf8Size = 1 := rfl
  obtain ⟨first, gap, second⟩ := t
  cases gap <;> cases second <;> simp [text, tail, size, Pair.byteLength_raw, one] <;> omega

/-! ## 2. The grammar -/

/-- The parts of a tag can be written: the gap is blank and each pair is valid. -/
def Valid (t : Tag) : Prop :=
  t.first.Valid ∧ (∀ c ∈ t.gap, Text.isBlank c = true) ∧ ∀ a ∈ t.second, a.Valid

instance (t : Tag) : Decidable t.Valid := inferInstanceAs (Decidable (_ ∧ _ ∧ _))

/-! ## 3. The msgpack pair -/

/-- Whether one of the pairs has the scheme msgpack. -/
def hasMsgpack (t : Tag) : Bool :=
  t.first.scheme == .msgpack || t.second.any (·.scheme == .msgpack)

/-- The first pair followed by a msgpack pair with the same value, for a tag that has
    no msgpack pair yet. -/
def augmentation? (t : Tag) : Option (List Char) :=
  if t.hasMsgpack then none
  else some (t.first.raw ++ [' '] ++ (Pair.mk .msgpack t.first.value).raw)

end Tag

/-- A text conforms to the tag grammar if it is the written form of a tag with valid parts. -/
def Conforms (s : List Char) : Prop := ∃ t : Tag, t.Valid ∧ t.text = s

end StructTags
