import StreamGrammar.Log

/-!
# Messages of the command line

Log records and errors are written to the standard error output. An error tells
what could not be done and, on indented lines, what the cause was.
-/

namespace StreamGrammar.CommandLine

/-- What a run of the program leaves behind. -/
structure Outcome where
  /-- Zero for success, one for an error, two for a command line that is not understood. -/
  code : Nat
  stdout : String := ""
  stderr : String := ""
deriving DecidableEq, Repr

/-- The label of the activity that a log record comes from. -/
def sourceLabel : Log.Source → String
  | .faults => "trickle::error"
  | .reachability => "trickle::check"
  | .resolution => "trickle::routes"
  | .assembly => "trickle::builder"
  | .engine => "trickle_runtime::engine"
  | .feeding => "trickle"

/-- A log record on a line of its own. Where it comes from is told for the less important ones. -/
def recordLine (record : Log.Record) : String :=
  let place := match record.level with
    | .debug | .trace => s!"(1) {sourceLabel record.source}: "
    | _ => ""
  s!" [{record.level.text}] {place}{record.text}\n"

/-- The log records that the threshold keeps, line by line. -/
def logText (threshold : Log.Threshold) (records : List Log.Record) : String :=
  String.join ((Log.keep threshold records).map recordLine)

def errorText (message : String) : String := "Error: " ++ message ++ "\n"

/-- An error and its cause, whose lines are indented. -/
def errorTextWithCause (message cause : String) : String :=
  errorText message ++ "\nCaused by:\n" ++
    String.join ((cause.splitOn "\n").map fun line => "    " ++ line ++ "\n")

/-- Why an input cannot be read. -/
inductive ReadFault where
  | notFound
  | permissionDenied
  /-- The path goes on after something that is no directory. -/
  | notDirectory
  | isDirectory
  /-- The path or one of its names is longer than the system allows. -/
  | nameTooLong
  | other (reason : String)
deriving DecidableEq, Repr

/-- What a message says of the fault: the system's wording and number, where it has one. -/
def ReadFault.message : ReadFault → String
  | .notFound => "No such file or directory (os error 2)"
  | .permissionDenied => "Permission denied (os error 13)"
  | .notDirectory => "Not a directory (os error 20)"
  | .isDirectory => "Is a directory (os error 21)"
  | .nameTooLong => "File name too long (os error 36)"
  | .other reason => reason

def thresholdNames : List (String × Log.Threshold) :=
  [("OFF", none), ("ERROR", some .error), ("WARN", some .warn), ("INFO", some .info),
    ("DEBUG", some .debug), ("TRACE", some .trace)]

/-- The threshold of the given name, in upper or lower case. -/
def threshold? (name : String) : Option Log.Threshold :=
  thresholdNames.lookup (String.ofList (name.toList.map Char.toUpper))

end StreamGrammar.CommandLine
