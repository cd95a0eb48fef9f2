/-!
# Faults of a grammar

The reasons why a graph is no grammar: names and references that do not fit
together, and decisions that cannot be resolved.
-/

namespace StreamGrammar

/-- Why a graph is no grammar. -/
inductive BuildError where
  | emptyRule (rule : String)
  | duplicateRule (name : String)
  | duplicateMatcher (name : String)
  | unknownStartRule (name : String)
  | zeroLookahead
  | danglingNode (rule : String) (node : Nat)
  | unknownMatcher (rule : String) (matcher : Nat)
  | undefinedRule (rule : String) (callee : String)
  /-- A node can be reached again before any input is consumed, or ever more nodes can be. -/
  | epsilonCycle (rule : String) (node : String)
  /-- Alternatives that no admissible lookahead tells apart. -/
  | ambiguous (rule : String) (node : String) (alternatives : List String)
  /-- More than one way to leave the rule before any input is consumed. -/
  | ambiguousExit (rule : String) (node : String)
deriving DecidableEq, Repr

namespace BuildError

def message : BuildError → String
  | .emptyRule rule => s!"rule '{rule}' has no nodes"
  | .duplicateRule name => s!"rule '{name}' is declared twice"
  | .duplicateMatcher name => s!"matcher '{name}' is declared twice"
  | .unknownStartRule name => s!"start rule '{name}' does not exist"
  | .zeroLookahead => "maximum lookahead must be at least 1"
  | .danglingNode rule node =>
      s!"rule '{rule}' has an edge to node {node}, which it does not contain"
  | .unknownMatcher rule matcher =>
      s!"rule '{rule}' uses matcher {matcher}, which was never registered"
  | .undefinedRule rule callee => s!"rule '{rule}' calls '{callee}', which is never defined"
  | .epsilonCycle rule node =>
      s!"node {node} of rule '{rule}' can reach itself without consuming input"
  | .ambiguous rule node alternatives =>
      s!"node {node} of rule '{rule}' cannot be decided within the lookahead limit between " ++
        " and ".intercalate alternatives
  | .ambiguousExit rule node =>
      s!"node {node} of rule '{rule}' can leave the rule without consuming input in more than " ++
        "one way"

/-- The messages of several faults, one to a line. -/
def messages (errors : List BuildError) : String :=
  "\n".intercalate (errors.map message)

end BuildError

end StreamGrammar
