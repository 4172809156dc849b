import StructTags.Cli.Arguments
import StructTags.Log.Config
import StructTags.Text.Wrap

/-!
# Help and version

The answers to the two requests for information. The help is laid out for a window of a given width:
running text is wrapped, and the descriptions of the flags stand beside them in a column of their
own, or below them where the window is narrow.

* `versionText`, `helpText`: the answers;
* `Flag.about`: the description of a flag;
* `standsBelow`: when the descriptions stand below the flags;
* `windowWidth`: the width that the environment names.
-/

namespace StructTags.Cli

/-! ## 1. Flags -/

namespace Flag

/-- The description of a flag. -/
def about : Flag → String
  | verbose => "Increase diagnostic logging on stderr"
  | quiet => "Suppress non-error diagnostics"
  | help => "Print help"
  | version => "Print version"

/-- The two spellings of a flag. -/
def label (f : Flag) : String := "-" ++ f.short.toString ++ ", " ++ f.display

/-- The characters of the longest label. -/
def labelWidth : Nat := (all.map (·.label.length)).foldl max 0

end Flag

/-! ## 2. Layout -/

/-- As many spaces. -/
def spaces (n : Nat) : String := String.ofList (List.replicate n ' ')

/-- The lines of a text that is wrapped to a width. -/
def wrapped (width : Nat) (text : String) : List String :=
  (Text.wrap width text.toList).map String.ofList

/-- Where the labels begin. -/
def labelColumn : Nat := 2

/-- Where the descriptions begin that stand beside their flags. -/
def besideColumn : Nat := labelColumn + Flag.labelWidth + 2

/-- Where the descriptions begin that stand below their flags. -/
def belowColumn : Nat := labelColumn + 8

/-- Whether the descriptions stand below their flags. They do if one of them is too long to stand
    beside, in a window that holds what stands in front of them but gives it more than two fifths. -/
def standsBelow (width : Nat) : Bool :=
  besideColumn ≤ width && 2 * width < 5 * besideColumn &&
    Flag.all.any fun f => width - besideColumn < f.about.length

/-- The lines on a flag. -/
def flagLines (width : Nat) (f : Flag) : List String :=
  let label := spaces labelColumn ++ f.label
  if standsBelow width then
    label :: (wrapped (width - belowColumn) f.about).map (spaces belowColumn ++ ·)
  else match wrapped (width - besideColumn) f.about with
    | [] => [label]
    | line :: lines =>
      (label ++ spaces (besideColumn - label.length) ++ line)
        :: lines.map (spaces besideColumn ++ ·)

/-! ## 3. The answers -/

/-- The program and its version. -/
def title : String := "tagsync 0.1.0"

/-- The answer to a request for the version. -/
def versionText : String := title ++ "\n"

/-- The lines of the help in a window of the given width. -/
def helpLines (width : Nat) : List String :=
  [title] ++ wrapped width "Tagsync Contributors"
    ++ wrapped width "Add msgpack struct tags alongside json tags in the current directory"
    ++ ["", "Usage: tagsync [OPTIONS]", "", "Options:"] ++ Flag.all.flatMap (flagLines width)

/-- The answer to a request for help in a window of the given width. -/
def helpText (width : Nat) : String := String.join ((helpLines width).map (· ++ "\n"))

/-! ## 4. The window -/

/-- The width of a window of which nothing is known. -/
def defaultWidth : Nat := 100

/-- The number that decimal digits stand for, with or without a plus sign in front, if it is one of
    64 bits. -/
def natural? (s : List Char) : Option Nat :=
  let digits := if s.head? = some '+' then s.tail else s
  if digits.isEmpty || !digits.all Char.isDigit then none
  else
    let n := digits.foldl (fun n digit => 10 * n + (digit.toNat - '0'.toNat)) 0
    if n < UInt64.size then some n else none

/-- The width of the window as the environment names it. -/
def windowWidth (env : Log.Environment) : Nat :=
  ((env "COLUMNS").bind fun value => natural? value.toList).getD defaultWidth

end StructTags.Cli
