import StructTags.Augment.Replace

/-!
# Augmenting a text

Every tag without msgpack is to get a msgpack pair with the value of its first pair.
The tags are taken from the text as it was given; for each new first pair all its literal
occurrences outside of tags with msgpack are replaced in one step, in the text as it is then.

* `Augmentation`: the text so far, the augmentations applied, and what was noted on the way;
* `augment`: one step for each tag, from left to right;
* `Augmentation.unchanged`: nothing was applied.
-/

namespace StructTags

/-- What is noted about one tag while a text is augmented. -/
inductive Note where
  /-- The tag carries msgpack and is left alone. -/
  | kept (tag : Tag)
  /-- The augmentation was applied. -/
  | applied (augmentation : List Char)
  deriving DecidableEq, Repr

/-- A text on its way through `augment`. -/
structure Augmentation where
  /-- The text so far. -/
  text : List Char
  /-- The augmentations in the order in which they were applied, each once. -/
  applied : List (List Char) := []
  /-- What was noted, oldest first. -/
  notes : List Note := []
  deriving DecidableEq, Repr

namespace Augmentation

/-- Whether nothing was applied. -/
def unchanged (a : Augmentation) : Bool := a.applied.isEmpty

/-- Takes one tag of the given text into account. -/
def step (a : Augmentation) (tag : Tag) : Augmentation :=
  match tag.augmentation? with
  | none => { a with notes := a.notes ++ [.kept tag] }
  | some augmentation =>
    if augmentation ∈ a.applied then a
    else
      { text := replaceUnprotected a.text tag.first.raw augmentation
        applied := a.applied ++ [augmentation]
        notes := a.notes ++ [.applied augmentation] }

end Augmentation

/-- Adds a msgpack pair after the first pair of every tag that has none. -/
def augment (s : List Char) : Augmentation :=
  ((scan s).map (·.tag)).foldl Augmentation.step { text := s }

end StructTags
