import StructTags.Text.Terminal

/-!
# The command line

Arguments are read from left to right. Each is cut into marks: the flags it sets, or what is wrong
with it. The first mark that settles the matter ends the reading: a fault, or a request for help or
for the version. Only the conflict between asking for more output and asking for less is looked at
after the last argument.

* `Flag`, `Options`, `Request`: what can be asked for;
* `UsageError`: what can be wrong, with `UsageError.message` and `UsageError.complaint`;
* `marks`: the marks of a list of arguments;
* `settle`: what a list of marks asks for;
* `parse`: both together.
-/

namespace StructTags.Cli

/-! ## 1. Requests -/

/-- A flag of the command line. -/
inductive Flag where
  | verbose
  | quiet
  | help
  | version
  deriving DecidableEq, Repr

namespace Flag

/-- All flags. -/
def all : List Flag := [verbose, quiet, help, version]

/-- The long name, without dashes. -/
def long : Flag → List Char
  | verbose => ['v', 'e', 'r', 'b', 'o', 's', 'e']
  | quiet => ['q', 'u', 'i', 'e', 't']
  | help => ['h', 'e', 'l', 'p']
  | version => ['v', 'e', 'r', 's', 'i', 'o', 'n']

/-- The letter. -/
def short : Flag → Char
  | verbose => 'v'
  | quiet => 'q'
  | help => 'h'
  | version => 'V'

/-- The flag in a message; dots stand after one that may be repeated. -/
def display (f : Flag) : String :=
  "--" ++ String.ofList f.long ++ if f = verbose then "..." else ""

/-- The flag with that long name. -/
def ofLong? (name : List Char) : Option Flag := all.find? (·.long == name)

/-- The flag with that letter. -/
def ofShort? (letter : Char) : Option Flag := all.find? (·.short == letter)

end Flag

/-- How much output is asked for. -/
structure Options where
  /-- How often more was asked for, at most 255. -/
  verbose : Nat := 0
  quiet : Bool := false
  deriving DecidableEq, Repr

/-- What the command line asks for. -/
inductive Request where
  | pass (options : Options)
  | help
  | version
  deriving DecidableEq, Repr

/-- What is wrong with a command line. -/
inductive UsageError where
  /-- An argument, or a letter in a cluster, that is no flag. -/
  | unexpected (argument : String)
  /-- A value given to a flag. -/
  | valued (flag : Flag) (value : String)
  /-- A flag given twice that may be given once. -/
  | repeated (flag : Flag)
  /-- Two flags that exclude each other. -/
  | conflict (earlier later : Flag)
  deriving DecidableEq, Repr

namespace UsageError

/-- The error in words, with what was given in quotes. Of that, only the characters that `shown`
    keeps are quoted. -/
def words (shown : List Char → List Char) : UsageError → String
  | unexpected argument => "error: unexpected argument " ++ quoted argument ++ " found"
  | valued flag value =>
    "error: unexpected value " ++ quoted value ++ " for '" ++ flag.display
      ++ "' found; no more were expected"
  | repeated flag => "error: the argument '" ++ flag.display ++ "' cannot be used multiple times"
  | conflict earlier later =>
    "error: the argument '" ++ earlier.display ++ "' cannot be used with '" ++ later.display ++ "'"
where
  /-- What was given, in quotes. -/
  quoted (given : String) : String := "'" ++ String.ofList (shown given.toList) ++ "'"

/-- The message: one line, which ends early if what was given has a line break. -/
def message (e : UsageError) : String :=
  String.ofList (Text.firstLine (e.words Text.printed).toList)

/-- The message as a line of standard error, where a carriage return before the line break is still
    part of the line. -/
def complaint (e : UsageError) : String :=
  String.ofList ((e.words Text.streamed).toList.takeWhile (· ≠ '\n'))

end UsageError

/-! ## 2. Marks -/

/-- What a part of an argument says. -/
inductive Mark where
  | flag (flag : Flag)
  | fault (error : UsageError)
  deriving DecidableEq, Repr

/-- The mark of a long argument, given what follows its dashes. A value is what follows the first
    equals sign. -/
def longMark (body : List Char) : Mark :=
  let name := body.takeWhile (· ≠ '=')
  match Flag.ofLong? name with
  | none => .fault (.unexpected ("--" ++ String.ofList name))
  | some flag =>
    match body.drop name.length with
    | [] => .flag flag
    | _ :: value => .fault (.valued flag (String.ofList value))

/-- The mark of one letter of a cluster. -/
def letterMark (letter : Char) : Mark :=
  match Flag.ofShort? letter with
  | none => .fault (.unexpected (String.ofList ['-', letter]))
  | some flag => .flag flag

/-- The marks of one argument before the end of the flags. -/
def argumentMarks (argument : String) : List Mark :=
  match argument.toList with
  | '-' :: '-' :: body => [longMark body]
  | '-' :: letter :: letters => (letter :: letters).map letterMark
  | _ => [.fault (.unexpected argument)]

/-- The argument after which there are no more flags. -/
def endOfFlags : String := "--"

/-- The marks of the arguments. No argument is expected after the end of the flags. -/
def marks : List String → List Mark
  | [] => []
  | argument :: rest =>
    if argument = endOfFlags then rest.map fun argument => .fault (.unexpected argument)
    else argumentMarks argument ++ marks rest

/-! ## 3. Requests from marks -/

/-- The most that more output is counted. -/
def verboseLimit : Nat := 255

/-- What was read so far: the options, and which of the two flags came last. -/
structure Tally where
  options : Options := {}
  last : Flag := .verbose
  deriving DecidableEq, Repr

/-- What a tally asks for when nothing follows. -/
def Tally.close (t : Tally) : Except UsageError Request :=
  if t.options.quiet && 0 < t.options.verbose then
    .error (if t.last = .quiet then .conflict .verbose .quiet else .conflict .quiet .verbose)
  else .ok (.pass t.options)

/-- What marks ask for, on top of a tally. -/
def settle : Tally → List Mark → Except UsageError Request
  | t, [] => t.close
  | _, .fault error :: _ => .error error
  | _, .flag .help :: _ => .ok .help
  | _, .flag .version :: _ => .ok .version
  | t, .flag .verbose :: rest =>
    settle
      { options := { t.options with verbose := min verboseLimit (t.options.verbose + 1) }
        last := .verbose }
      rest
  | t, .flag .quiet :: rest =>
    if t.options.quiet then .error (.repeated .quiet)
    else settle { options := { t.options with quiet := true }, last := .quiet } rest

/-- What a command line asks for. -/
def parse (arguments : List String) : Except UsageError Request := settle {} (marks arguments)

end StructTags.Cli
