import StructTags.Log.Level

/-!
# The journal

What a program tells its log, before any level or format is applied: events, and scopes that are
opened and closed around them.

* `Scope`: a named stretch of work with fields;
* `Event`: something that happened, with its severity, its target and its fields;
* `Signal`: one entry of a journal;
* `events`: the events of a journal alone.
-/

namespace StructTags.Log

/-- The value of a field: a number, a text shown as it is, or a text shown in quotes. -/
inductive Value where
  | number (n : Nat)
  | plain (s : String)
  | quoted (s : String)
  deriving DecidableEq, Repr

/-- A named stretch of work. -/
structure Scope where
  name : String
  fields : List (String × String)
  deriving DecidableEq, Repr

/-- Something that happened. -/
structure Event where
  severity : Level
  target : String
  message : String
  fields : List (String × Value) := []
  deriving DecidableEq, Repr

/-- One entry of a journal. -/
inductive Signal where
  /-- A scope begins inside those that are open. -/
  | opened (scope : Scope)
  /-- The innermost open scope gets a further field. -/
  | recorded (key value : String)
  /-- Something happened. -/
  | event (event : Event)
  /-- The innermost open scope ends. -/
  | closed
  deriving DecidableEq, Repr

/-- The event of an entry. -/
def Signal.event? : Signal → Option Event
  | .event e => some e
  | _ => none

/-- The events of a journal, oldest first. -/
def events (journal : List Signal) : List Event := journal.filterMap Signal.event?

theorem events_append (a b : List Signal) : events (a ++ b) = events a ++ events b :=
  List.filterMap_append

end StructTags.Log
