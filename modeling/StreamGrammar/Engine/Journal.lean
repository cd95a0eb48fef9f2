import StreamGrammar.Callback
import StreamGrammar.Engine.Failure
import StreamGrammar.Graph
import StreamGrammar.Log

/-!
# The journal of a parse

An engine notes everything that happens during a parse. The journal has several
readings: the callbacks that the consumer receives, the movements that an observer
of the rule graph sees, and the log records.
-/

namespace StreamGrammar

/-- Something that happens during a parse. -/
inductive Occurrence where
  | nodeEntered (frame : Frame)
  | rulePushed (rule : RuleId)
  | rulePopped (rule : RuleId)
  | captureStarted
  | published (name text : String)
  | eventAnnounced (name : String)
  | failed (failure : Failure)
  | succeeded (location : Location)
  /-- A call ended early at the consumer's request, after it had taken some units. -/
  | cancelled (units : Nat)
deriving DecidableEq, Repr

namespace Occurrence

/-- What the consumer is told of it. -/
def callback? : Occurrence → Option Callback
  | .captureStarted => some .captureStart
  | .published name text => some (.publish name text)
  | .eventAnnounced name => some (.event name)
  | .failed failure => some (.fatalError failure.message)
  | .succeeded _ => some .success
  | _ => none

def logRecord? (graph : Graph) : Occurrence → Option Log.Record
  | .rulePushed rule => some ⟨.trace, .engine, "push " ++ graph.ruleName rule⟩
  | .rulePopped rule => some ⟨.trace, .engine, "pop " ++ graph.ruleName rule⟩
  | .failed failure =>
      some ⟨.debug, .engine, s!"failed at {failure.location.text}: {failure.message}"⟩
  | .succeeded location => some ⟨.trace, .engine, "succeeded at " ++ location.text⟩
  | .cancelled units => some ⟨.trace, .engine, s!"cancelled after {units} units"⟩
  | _ => none

end Occurrence

/-- The consumer of a parse, who may ask the engine to stop. -/
structure Consumer where
  /-- Whether the consumer asks the engine to stop when it receives a callback after everything
  that happened before. -/
  cancels : Array Occurrence → Callback → Bool

/-- A consumer who never asks the engine to stop. -/
def Consumer.patient : Consumer := ⟨fun _ _ => false⟩

end StreamGrammar
