import StreamGrammar.CommandLine.Arguments
import StreamGrammar.CommandLine.Report
import StreamGrammar.Encoding.Utf16
import StreamGrammar.Encoding.Utf8
import StreamGrammar.Feeding
import StreamGrammar.Grammar.RouteTable
import StreamGrammar.Printer

/-!
# The command line program

The program parses a file or the standard input by one of the bundled grammars and
prints what is published. A run has two halves: `prepare` does all that can be done
before the input is read, and `Job.run` the rest.
-/

namespace StreamGrammar.CommandLine

/-- The name by which messages mention the standard input. -/
def standardInputName : String := "<stdin>"

/-- A run whose input has still to be read. -/
structure Job where
  threshold : Log.Threshold
  arguments : Arguments
  chunk_pos : 0 < arguments.chunk
  grammar : Grammar
  /-- What has been written to the standard error output so far. -/
  log : String

/-- What is told about a command line that is not understood. -/
def usage : String :=
  "Usage: [--grammar csv|ini|numbers] [--chunk NUMBER] [--utf16] [--routes] [--strict] [--quiet] " ++
    "[--stats] [FILE]\n"

/-- Builds the grammar that the arguments ask for. The route table needs no input. -/
def prepareJob (threshold : Log.Threshold) (arguments : Arguments)
    (chunk_pos : 0 < arguments.chunk) : Except Outcome Job :=
  let report := arguments.grammar.build arguments.strict
  let log := logText threshold report.log
  match report.result with
  | .error errors =>
      let error := errorTextWithCause s!"Failed to build the {arguments.grammar.title} grammar"
        (BuildError.messages errors)
      .error { code := 1, stderr := log ++ error }
  | .ok grammar =>
      if arguments.routes then .error { code := 0, stdout := grammar.routeTable, stderr := log }
      else .ok { threshold, arguments, chunk_pos, grammar, log }

/-- Begins a run with the wanted level of log records, if one is wanted, and the arguments. Gives
the outcome if no input is needed. -/
def prepare (level : Option String) (arguments : List String) : Except Outcome Job :=
  match threshold? (level.getD "WARN") with
  | none =>
      let error := errorTextWithCause "Invalid RUST_LOG level"
        "attempted to convert a string that doesn't match an existing log level"
      .error { code := 1, stderr := error }
  | some threshold =>
      match Arguments.ofList? arguments with
      | none => .error { code := 2, stderr := usage }
      | some arguments =>
          if chunk_pos : 0 < arguments.chunk then prepareJob threshold arguments chunk_pos
          else .error { code := 1, stderr := errorText "--chunk must be at least 1" }

namespace Job

def inputName (job : Job) : String := job.arguments.file.getD standardInputName

/-- The outcome when the input cannot be read. -/
def refuse (job : Job) (fault : ReadFault) : Outcome :=
  let message := match job.arguments.file with
    | some file => s!"Failed to read `{file}`"
    | none => "Failed to read standard input"
  { code := 1, stderr := job.log ++ errorTextWithCause message fault.message }

def statsLine (engine : Engine) (feeding : Feeding) (printer : Printer) : String :=
  s!"{engine.location.offset} code points in {feeding.calls} chunks, " ++
    s!"{printer.publications} publications, {printer.events} events\n"

def parseErrorText (job : Job) (error : CallError) : String :=
  match error.location? with
  | some location => errorText s!"{job.inputName}:{location.text}: {error.message}"
  | none => errorText s!"{job.inputName}: {error.message}"

def parse {Unit : Type} (job : Job) (encoding : Encoding Unit) (units : List Unit) : Outcome :=
  let (feeding, engine) := (Engine.ofGrammar job.grammar).feedAll job.grammar .patient encoding
    job.arguments.chunk job.chunk_pos units
  let printer := ({ quiet := job.arguments.quiet : Printer }).receiveAll engine.callbacks
  let occurred := engine.journal.toList.filterMap (Occurrence.logRecord? job.grammar.toGraph)
  let log := job.log ++ logText job.threshold (occurred ++ feeding.log)
  let stats := if job.arguments.stats then statsLine engine feeding printer else ""
  match feeding.error? with
  | none => { code := 0, stdout := printer.sink.text, stderr := log ++ stats }
  | some error =>
      { code := 1
        stdout := printer.sink.text
        stderr := log ++ stats ++ job.parseErrorText error }

def run (job : Job) (input : List UInt8) : Outcome :=
  if job.arguments.utf16 then
    match Utf8.decodeAll input with
    | .ok text => job.parse .utf16 (Utf16.encode text)
    | .error invalid =>
        let message := s!"`{job.inputName}` is not valid UTF-8"
        { code := 1, stderr := job.log ++ errorTextWithCause message invalid.message }
  else job.parse .utf8 input

end Job

end StreamGrammar.CommandLine
