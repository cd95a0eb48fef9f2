/-!
# Log records

What assembling a grammar and running one report besides their results: short
texts, each with a level of importance and the activity that it comes from.
-/

namespace StreamGrammar

namespace Log

/-- The importance of a record, the most important first. -/
inductive Level where
  | error
  | warn
  | info
  | debug
  | trace
deriving DecidableEq, Repr

/-- The number of levels up to and including this one. -/
def Level.rank : Level → Nat
  | .error => 1
  | .warn => 2
  | .info => 3
  | .debug => 4
  | .trace => 5

def Level.text : Level → String
  | .error => "ERROR"
  | .warn => "WARN"
  | .info => "INFO"
  | .debug => "DEBUG"
  | .trace => "TRACE"

/-- The records that are kept: those up to a level, or none. -/
abbrev Threshold := Option Level

/-- Whether records of the level are kept. -/
def Threshold.admits (threshold : Threshold) (level : Level) : Bool :=
  match threshold with
  | some limit => level.rank ≤ limit.rank
  | none => false

/-- The activity that a record comes from. -/
inductive Source where
  /-- Finding faults in a graph. -/
  | faults
  /-- Searching a graph for what cannot be reached. -/
  | reachability
  /-- Resolving the decisions of a graph. -/
  | resolution
  /-- Assembling a grammar. -/
  | assembly
  /-- Running a grammar. -/
  | engine
  /-- Feeding input to an engine. -/
  | feeding
deriving DecidableEq, Repr

/-- One reported text. -/
structure Record where
  level : Level
  source : Source
  text : String
deriving DecidableEq, Repr

def keep (threshold : Threshold) (records : List Record) : List Record :=
  records.filter fun record => threshold.admits record.level

end Log

end StreamGrammar
