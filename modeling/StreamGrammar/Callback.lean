import StreamGrammar.Text.Quoted

/-!
# Callbacks

What a consumer of a parse is told, in the order of the document: when a capture
begins, what is published, which events are announced, and how the parse ends.
-/

namespace StreamGrammar

/-- One call to the consumer of a parse. -/
inductive Callback where
  | captureStart
  | publish (name text : String)
  | event (name : String)
  /-- The parse failed. It is told once, before the failure is reported to the caller. -/
  | fatalError (message : String)
  /-- The start rule ended where the input did. -/
  | success
deriving DecidableEq, Repr

namespace Callback

/-- The published name and text, if the callback publishes. -/
def publication? : Callback → Option (String × String)
  | .publish name text => some (name, text)
  | _ => none

/-- The callback on a line of its own. -/
def line : Callback → String
  | .captureStart => "capture\n"
  | .publish name text => name ++ " " ++ Text.quoted text ++ "\n"
  | .event name => "event " ++ name ++ "\n"
  | .fatalError message => "error " ++ message ++ "\n"
  | .success => "success\n"

end Callback

/-- Every callback of a parse so far. -/
structure Trace where
  callbacks : Array Callback := #[]
deriving DecidableEq, Repr

namespace Trace

def record (trace : Trace) (callback : Callback) : Trace :=
  ⟨trace.callbacks.push callback⟩

/-- The published names and texts, in order. -/
def publications (trace : Trace) : List (String × String) :=
  trace.callbacks.toList.filterMap Callback.publication?

def succeeded (trace : Trace) : Bool :=
  trace.callbacks.back? == some .success

/-- The callbacks, each on a line of its own. -/
def text (trace : Trace) : String :=
  String.join (trace.callbacks.toList.map Callback.line)

end Trace

end StreamGrammar
