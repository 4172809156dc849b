/-!
# Text on a terminal

A text may hold control characters and control sequences, which a terminal obeys and does not print.
This file keeps what is printed. A text can be at hand as a whole or come in through a stream; the
two differ where a layout control stands inside a sequence. In a whole text it ends the sequence. In
a stream the text flows on from it, and the sequence goes on after the flow.

* `Mode`: what a terminal takes the next character for;
* `Mode.next`, `Mode.prints`: how a character changes the mode, and whether it is printed;
* `printed`: the printed characters of a whole text;
* `Stream`, `streamed`: the printed characters of a text that comes in through a stream;
* `firstLine`: a text up to its first line break.
-/

namespace StructTags.Text

/-! ## 1. Control sequences -/

/-- What a terminal takes the next character for. -/
inductive Mode where
  /-- Plain text. -/
  | plain
  /-- The character after an escape. -/
  | escape
  /-- The rest of an escape that selects something, up to a final character. -/
  | selection
  /-- The parameters of a control sequence, up to a final character. -/
  | sequence
  /-- A command to the terminal, up to a bell. -/
  | command
  /-- The start of a device string, before its parameters. -/
  | device
  /-- The parameters of a device string. -/
  | deviceParameters
  /-- What a device string selects, after its parameters. -/
  | deviceSelection
  /-- A control string, up to the byte 9C. -/
  | string
  deriving DecidableEq, Repr

/-- The controls that lay out plain text: tab, line feed, form feed and carriage return. -/
def isLayout (c : Char) : Bool := c = '\t' || c = '\n' || c = '\x0c' || c = '\r'

/-- Whether a code point lies in a closed range. -/
def between (c : Char) (low high : Nat) : Bool := low ≤ c.toNat && c.toNat ≤ high

namespace Mode

/-- Whether a character is printed. A layout control is, but not in a command or string. -/
def prints : Mode → Char → Bool
  | plain, c => isLayout c || (0x20 ≤ c.toNat && c.toNat ≠ 0x7f)
  | escape, c => isLayout c
  | selection, c => isLayout c
  | sequence, c => isLayout c
  | _, _ => false

/-- The mode that the character after an escape leads to. -/
def afterEscape (c : Char) : Mode :=
  if between c 0x20 0x2f then selection
  else if c = '[' then sequence
  else if c = ']' then command
  else if c = 'P' then device
  else if c = 'X' || c = '^' || c = '_' then string
  else if between c 0x30 0x7e then plain
  else escape

/-- The mode after a character. An escape begins anew in every mode, and the two controls cancel and
    substitute lead back to plain text. The head of a device string has only ASCII characters in it;
    no other ends it. -/
def next (mode : Mode) (c : Char) : Mode :=
  if c = '\x1b' then escape
  else if c = '\x18' || c = '\x1a' then plain
  else match mode with
    | plain => plain
    | escape => afterEscape c
    | selection => if between c 0x30 0x7e then plain else selection
    | sequence => if between c 0x40 0x7e then plain else sequence
    | command => if c = '\x07' then plain else command
    | device =>
      if between c 0x20 0x2f then deviceSelection
      else if between c 0x30 0x3f then deviceParameters
      else if between c 0x40 0x7e then string
      else device
    | deviceParameters =>
      if between c 0x20 0x2f then deviceSelection
      else if between c 0x3c 0x7e then string
      else deviceParameters
    | deviceSelection => if between c 0x30 0x7e then string else deviceSelection
    | string => if 0x9c ∈ String.utf8EncodeChar c then plain else string

end Mode

/-! ## 2. Whole texts -/

/-- The mode after a character of a whole text: what is printed is plain text, and so is what
    follows it. -/
def Mode.afterWhole (mode : Mode) (c : Char) : Mode := if mode.prints c then .plain else mode.next c

/-- The printed characters of a whole text that is read in the given mode. -/
def printedFrom : Mode → List Char → List Char
  | _, [] => []
  | mode, c :: cs =>
    if mode.prints c then c :: printedFrom (mode.afterWhole c) cs
    else printedFrom (mode.afterWhole c) cs

/-- The printed characters of a whole text. -/
def printed (s : List Char) : List Char := printedFrom .plain s

/-! ## 3. Streams -/

/-- Where the reading of a stream stands. -/
structure Stream where
  /-- What the next character is taken for when no text flows. -/
  mode : Mode := .plain
  /-- Whether text flows: it is printed up to the next control, whatever the mode. -/
  flowing : Bool := false
  deriving DecidableEq, Repr

namespace Stream

/-- Whether a character is printed. -/
def prints (s : Stream) (c : Char) : Bool :=
  if s.flowing then Mode.plain.prints c else s.mode.prints c

/-- The stream after a character. A printed character lets the text flow and keeps the mode, except
    that a character beyond ASCII is plain text. Any other stops the flow. -/
def next (s : Stream) (c : Char) : Stream :=
  if s.prints c then { mode := if c.toNat < 0x80 then s.mode else .plain, flowing := true }
  else { mode := s.mode.next c, flowing := false }

end Stream

/-- The printed characters of the rest of a stream. -/
def streamedFrom : Stream → List Char → List Char
  | _, [] => []
  | stream, c :: cs =>
    if stream.prints c then c :: streamedFrom (stream.next c) cs
    else streamedFrom (stream.next c) cs

/-- The printed characters of a text that comes in through a stream. -/
def streamed (s : List Char) : List Char := streamedFrom {} s

/-! ## 4. Lines -/

/-- A text up to its first line break. A carriage return before a line feed belongs to the break. -/
def firstLine (s : List Char) : List Char :=
  let line := s.takeWhile (· ≠ '\n')
  if line.length < s.length && line.getLast? = some '\r' then line.dropLast else line

end StructTags.Text
