import StreamGrammar.BuildError
import StreamGrammar.Graph

/-!
# Sound names and references

Before the decisions of a graph are resolved, its names have to be different, and
its edges have to lead to nodes, matchers and rules that exist. A called rule also
needs a node to begin at.
-/

namespace StreamGrammar

/-- The members of a list that occur earlier in it, one for each such occurrence. -/
def repeated (seen : List String) : List String → List String
  | [] => []
  | name :: rest =>
      if seen.contains name then name :: repeated seen rest else repeated (name :: seen) rest

namespace Graph

/-- The names that are declared more than once. -/
def nameFaults (graph : Graph) : List BuildError :=
  let ruleNames := graph.rules.toList.map Rule.name
  let matcherNames := graph.matchers.toList.filterMap MatcherDef.name
  (repeated [] ruleNames).map .duplicateRule ++ (repeated [] matcherNames).map .duplicateMatcher

/-- The matcher that an edge uses or the rule that it calls, if there is no such thing. -/
def kindFaults (graph : Graph) (rule : Rule) : EdgeKind → List BuildError
  | .consume matcher =>
      if matcher < graph.matchers.size then [] else [.unknownMatcher rule.name matcher]
  | .call callee =>
      match graph.rules[callee]? with
      | some found =>
          if found.nodes.isEmpty then [.undefinedRule rule.name found.name] else []
      | none => [.undefinedRule rule.name ("#" ++ toString callee)]
  | .goto => []

/-- The ends of an edge that are not nodes of its rule, and what is wrong with its kind. -/
def edgeFaults (graph : Graph) (rule : Rule) (edge : Edge) : List BuildError :=
  let missing := [edge.source, edge.target].filter fun node => rule.nodes.size ≤ node
  missing.map (.danglingNode rule.name) ++ graph.kindFaults rule edge.kind

def ruleFaults (graph : Graph) (rule : Rule) : List BuildError :=
  let empty := if rule.nodes.isEmpty then [.emptyRule rule.name] else []
  empty ++ rule.edges.toList.flatMap (graph.edgeFaults rule)

/-- The references of every rule that lead nowhere, in order of declaration. -/
def referenceFaults (graph : Graph) : List BuildError :=
  graph.rules.toList.flatMap graph.ruleFaults

def faults (graph : Graph) : List BuildError :=
  graph.nameFaults ++ graph.referenceFaults

end Graph

end StreamGrammar
