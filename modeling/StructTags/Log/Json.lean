/-!
# JSON text

The forms of a JSON value, each given as finished text: `Json.text`, `Json.number`, `Json.list` and
`Json.object`. In a text the quote, the backslash and the control characters are escaped, all
other characters stand for themselves.
-/

namespace StructTags.Log.Json

/-- A hexadecimal digit. -/
def hexDigit (n : Nat) : Char := "0123456789abcdef".toList.getD n '0'

/-- One character inside a JSON text. -/
def escape (c : Char) : List Char :=
  if c = '\x22' then ['\\', '\x22']
  else if c = '\\' then ['\\', '\\']
  else if c = '\n' then ['\\', 'n']
  else if c = '\r' then ['\\', 'r']
  else if c = '\t' then ['\\', 't']
  else if c = '\x08' then ['\\', 'b']
  else if c = '\x0c' then ['\\', 'f']
  else if c.toNat < 0x20 then
    ['\\', 'u', '0', '0', hexDigit (c.toNat / 16), hexDigit (c.toNat % 16)]
  else [c]

/-- A text. -/
def text (s : String) : String := "\"" ++ String.ofList (s.toList.flatMap escape) ++ "\""

/-- A natural number. -/
def number (n : Nat) : String := toString n

/-- A list of values. -/
def list (values : List String) : String := "[" ++ ",".intercalate values ++ "]"

/-- An object, from its keys and values in order. -/
def object (fields : List (String × String)) : String :=
  "\x7b" ++ ",".intercalate (fields.map fun field => text field.1 ++ ":" ++ field.2) ++ "\x7d"

end StructTags.Log.Json
