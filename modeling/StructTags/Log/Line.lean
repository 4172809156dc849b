import StructTags.Log.Config
import StructTags.Log.Journal
import StructTags.Log.Json

/-!
# Log lines

A journal becomes lines under a configuration. Scopes have the severity `info`: below that they
leave no trace in a log.

* `Marks`: what a line shows that a journal does not hold;
* `safeText`: a message in a text line, with no control character that a terminal acts on;
* `prettyLine`, `compactLine`, `jsonLine`: one event, with the scopes open around it;
* `afterSignal`, `linesOf`: how an entry of the journal changes the open scopes, and which lines
  it writes;
* `render`: the lines of a whole journal;
* `render_append`: a journal that goes on is rendered from the scopes still open.
-/

namespace StructTags.Log

/-- What a line shows that a journal does not hold. -/
structure Marks where
  /-- The time of an event. -/
  time : String
  /-- The place in the program. -/
  place : String
  /-- How long a scope was open. -/
  duration : String
  deriving Repr

/-! ## 1. Parts of a text line -/

/-- One character of a message in a text line: the controls that can begin or end a control sequence
    are written as escapes. -/
def safeChar (c : Char) : List Char :=
  let digits := [Json.hexDigit (c.toNat / 16), Json.hexDigit (c.toNat % 16)]
  if c = '\x07' || c = '\x08' || c = '\x0c' || c = '\x1b' || c = '\x7f' then ['\\', 'x'] ++ digits
  else if 0x80 ≤ c.toNat && c.toNat ≤ 0x9f then ['\\', 'u', '\x7b'] ++ digits ++ ['\x7d']
  else [c]

/-- A message in a text line. -/
def safeText (s : String) : String := String.ofList (s.toList.flatMap safeChar)

/-- The value of a field in a text line. -/
def Value.display : Value → String
  | number n => toString n
  | plain s => s
  | quoted s => "\"" ++ s ++ "\""

/-- Fields in a text line, each after a blank. -/
def displayFields (fields : List (String × Value)) : String :=
  String.join (fields.map fun field => " " ++ field.1 ++ "=" ++ field.2.display)

/-- The fields of a scope as fields of a line. -/
def Scope.shown (scope : Scope) : List (String × Value) :=
  scope.fields.map fun field => (field.1, .plain field.2)

/-- A scope with its fields, in braces. -/
def Scope.display (scope : Scope) : String :=
  scope.name ++ "\x7b" ++ " ".intercalate (scope.fields.map fun field => field.1 ++ "=" ++ field.2)
    ++ "\x7d"

/-- The label of a level, five characters wide. -/
def Level.padded (level : Level) : String :=
  String.ofList (List.replicate (5 - level.label.length) ' ') ++ level.label

/-- A part of a line and what separates it from the next, if the part is there at all. -/
def part (present : Bool) (text : String) : String := if present then text ++ ": " else ""

/-! ## 2. Lines -/

section

variable (config : Config) (marks : Marks)

/-- A line that shows the open scopes with their fields in front. Scopes are given innermost
    first. -/
def prettyLine (scopes : List Scope) (e : Event) : String :=
  marks.time ++ " " ++ e.severity.padded ++ " "
    ++ part (!scopes.isEmpty) (":".intercalate (scopes.reverse.map Scope.display))
    ++ part config.targets e.target
    ++ part config.sourceLocation marks.place
    ++ safeText e.message ++ displayFields e.fields

/-- A line that shows the names of the open scopes in front and their fields at the end. -/
def compactLine (scopes : List Scope) (e : Event) : String :=
  marks.time ++ " " ++ e.severity.padded ++ " "
    ++ part (!scopes.isEmpty) (":".intercalate (scopes.reverse.map Scope.name))
    ++ part config.targets e.target
    ++ safeText e.message ++ displayFields e.fields
    ++ displayFields (scopes.reverse.flatMap Scope.shown)

/-- The value of a field in a JSON line. -/
def Value.json : Value → String
  | number n => Json.number n
  | plain s => Json.text s
  | quoted s => Json.text s

/-- A scope in a JSON line: its fields and its name. -/
def Scope.json (scope : Scope) : String :=
  Json.object ((scope.fields.map fun field => (field.1, Json.text field.2))
    ++ [("name", Json.text scope.name)])

/-- A JSON line. `innermost` is the scope it belongs to and `around` are the scopes it lists,
    innermost first. -/
def jsonLine (innermost : Option Scope) (around : List Scope) (e : Event) : String :=
  let scopes := match innermost with
    | none => []
    | some scope =>
      [("span", scope.json), ("spans", Json.list (around.reverse.map Scope.json))]
  Json.object
    ([("timestamp", Json.text marks.time), ("level", Json.text e.severity.label),
      ("fields", Json.object (("message", Json.text e.message)
        :: e.fields.map fun field => (field.1, field.2.json))),
      ("target", Json.text e.target)] ++ scopes)

/-- The line of an event inside the open scopes. -/
def eventLine (scopes : List Scope) (e : Event) : String :=
  match config.format with
  | .pretty => prettyLine config marks scopes e
  | .compact => compactLine config marks scopes e
  | .json => jsonLine marks scopes.head? scopes e

/-- The line of an event of the innermost open scope itself; in JSON only the scopes around it are
    listed. -/
def scopeLine (scopes : List Scope) (e : Event) : String :=
  match config.format with
  | .json => jsonLine marks scopes.head? scopes.tail e
  | _ => eventLine config marks scopes e

end

/-! ## 3. Journals -/

/-- The target of the events of scopes. -/
def scopeTarget : String := "tagsync_common_log::spans"

/-- The event of a scope that is opened. -/
def openedEvent : Event := { severity := .info, target := scopeTarget, message := "new" }

/-- The event of a scope that is closed. -/
def closedEvent (marks : Marks) : Event :=
  { severity := .info, target := scopeTarget, message := "close"
    fields := [("time.busy", .plain marks.duration), ("time.idle", .plain marks.duration)] }

/-- Whether the log knows about scopes. -/
def Config.hasScopes (config : Config) : Bool := config.level.admits .info

/-- The open scopes after an entry, innermost first. -/
def afterSignal (config : Config) (scopes : List Scope) : Signal → List Scope
  | .opened scope => if config.hasScopes then scope :: scopes else scopes
  | .recorded key value =>
    match scopes with
    | [] => []
    | scope :: rest => { scope with fields := scope.fields ++ [(key, value)] } :: rest
  | .event _ => scopes
  | .closed => scopes.tail

/-- The lines that an entry writes while the given scopes are open. -/
def linesOf (config : Config) (marks : Marks) (scopes : List Scope) : Signal → List String
  | .opened scope =>
    if config.hasScopes && config.scopeEvents then
      [scopeLine config marks (scope :: scopes) openedEvent]
    else []
  | .recorded .. => []
  | .event e => if config.level.admits e.severity then [eventLine config marks scopes e] else []
  | .closed =>
    if config.hasScopes && config.scopeEvents then
      [scopeLine config marks scopes (closedEvent marks)]
    else []

/-- The lines of a journal that begins while the given scopes are open. -/
def render (config : Config) (marks : Marks) : List Scope → List Signal → List String
  | _, [] => []
  | scopes, signal :: rest =>
    linesOf config marks scopes signal
      ++ render config marks (afterSignal config scopes signal) rest

/-- A journal that goes on is rendered from the scopes that its first part leaves open. -/
theorem render_append (config : Config) (marks : Marks) (scopes : List Scope) (a b : List Signal) :
    render config marks scopes (a ++ b) =
      render config marks scopes a
        ++ render config marks (a.foldl (afterSignal config) scopes) b := by
  induction a generalizing scopes with
  | nil => rfl
  | cons signal rest ih =>
    rw [List.cons_append, render, render, ih, List.foldl_cons, List.append_assoc]

end StructTags.Log
