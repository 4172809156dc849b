import StructTags.Text.Case

/-!
# Log levels

* `Level`: the five severities; `Level.admits` says which events a level lets through;
* `Level.ofText?`: the level that a word names, in any case;
* `Level.ofVerbosity`: the level that the command line asks for.
-/

namespace StructTags.Log

/-- How severe an event is, from the least to the most. -/
inductive Level where
  | trace
  | debug
  | info
  | warn
  | error
  deriving DecidableEq, Repr

namespace Level

/-- The place of a level in the order of severity. -/
def rank : Level → Nat
  | trace => 0
  | debug => 1
  | info => 2
  | warn => 3
  | error => 4

/-- The name of a level in a configuration. -/
def name : Level → String
  | trace => "trace"
  | debug => "debug"
  | info => "info"
  | warn => "warn"
  | error => "error"

/-- The name of a level in a log line. -/
def label : Level → String
  | trace => "TRACE"
  | debug => "DEBUG"
  | info => "INFO"
  | warn => "WARN"
  | error => "ERROR"

/-- Whether a log at this level shows events of that severity. -/
def admits (level severity : Level) : Bool := level.rank ≤ severity.rank

/-- The words that name a level. -/
def words : List (String × Level) :=
  [("trace", trace), ("debug", debug), ("info", info), ("warn", warn), ("warning", warn),
   ("error", error)]

/-- The level that a word names, whatever its case. -/
def ofText? (word : String) : Option Level := words.lookup (Text.lowered word)

/-- The level for a number of requests for more output, or for a request to be quiet. -/
def ofVerbosity : Nat → Bool → Level
  | 0, quiet => if quiet then error else warn
  | 1, _ => info
  | 2, _ => debug
  | _, _ => trace

end Level

end StructTags.Log
