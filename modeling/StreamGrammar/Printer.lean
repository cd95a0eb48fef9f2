import StreamGrammar.Callback

/-!
# Printing what is published

A printer writes a line for every publication and every event, and counts both.
The first write that fails is kept and nothing more is written until
`Printer.finish` has reported it.
-/

namespace StreamGrammar

/-- Where lines are written to. -/
structure Sink where
  /-- Everything written so far. -/
  text : String := ""
  /-- Why the next write will be refused, if it will be. -/
  refusal : Option String := none
deriving DecidableEq, Repr

namespace Sink

/-- Writes a text, or tells why that is refused. A refusal happens once. -/
def write (sink : Sink) (text : String) : Option String × Sink :=
  match sink.refusal with
  | some reason => (some reason, { sink with refusal := none })
  | none => (none, { sink with text := sink.text ++ text })

end Sink

/-- Writes what a parse publishes. -/
structure Printer where
  /-- Nothing is written, only counted. -/
  quiet : Bool := false
  publications : Nat := 0
  events : Nat := 0
  /-- The first write failed and has not been reported yet. -/
  error : Option String := none
  sink : Sink := {}
deriving DecidableEq, Repr

namespace Printer

/-- Writes a line, unless the printer is quiet or an earlier write failed. -/
def line (printer : Printer) (text : String) : Printer :=
  if printer.quiet || printer.error.isSome then printer
  else
    let (error, sink) := printer.sink.write text
    { printer with error, sink }

def receive (printer : Printer) : Callback → Printer
  | .publish name text =>
      { printer with publications := printer.publications + 1 }.line
        (name ++ "\t" ++ Text.quoted text ++ "\n")
  | .event name =>
      { printer with events := printer.events + 1 }.line ("<" ++ name ++ ">\n")
  | _ => printer

def receiveAll (printer : Printer) (callbacks : List Callback) : Printer :=
  callbacks.foldl receive printer

/-- Reports the failed write, once, or that everything is written. -/
def finish (printer : Printer) : Except String PUnit × Printer :=
  match printer.error with
  | some reason => (.error reason, { printer with error := none })
  | none => (.ok (), printer)

end Printer

end StreamGrammar
