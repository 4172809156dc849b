/-!
# Lower case

Words of a configuration are recognised whatever their case. This file lowers the characters that
can matter for words of ASCII letters:

* the ASCII capitals;
* the two other characters whose lower case has an ASCII letter: the Kelvin sign becomes `k`, and
  the dotted capital I becomes `i` with a combining dot.

All other characters stay. No other character has a lower case with an ASCII letter in it, so for a
comparison with a word of ASCII letters nothing is lost.
-/

namespace StructTags.Text

/-- The lower case of one character. -/
def lowerChar (c : Char) : List Char :=
  if c = '\u212a' then ['k'] else if c = '\u0130' then ['i', '\u0307'] else [c.toLower]

/-- The lower case of a text. -/
def lower (s : List Char) : List Char := s.flatMap lowerChar

theorem lower_cons (c : Char) (s : List Char) : lower (c :: s) = lowerChar c ++ lower s := rfl

/-- The lower case of a text as a string. -/
def lowered (s : String) : String := String.ofList (lower s.toList)

end StructTags.Text
