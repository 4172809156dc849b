/-!
# Wrapping lines

* `fill`: words put on lines, as many on each as fit;
* `wrap`: the lines of a text, broken at spaces.
-/

namespace StructTags.Text

/-- The lines that begin with the given line and go on with words. A word goes on the line if it
    fits there behind a space, else it begins the next line. -/
def fill (width : Nat) (line : List Char) : List (List Char) → List (List Char)
  | [] => [line]
  | word :: words =>
    if line.length + 1 + word.length ≤ width then fill width (line ++ ' ' :: word) words
    else line :: fill width word words

/-- The lines of a text that is broken at spaces to fit a width. A word is never broken. -/
def wrap (width : Nat) (s : List Char) : List (List Char) :=
  match s.splitOn ' ' with
  | [] => []
  | word :: words => fill width word words

end StructTags.Text
