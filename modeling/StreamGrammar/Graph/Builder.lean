import StreamGrammar.Graph

/-!
# Assembling rule graphs

A graph is assembled step by step: rules, matchers, nodes and edges are declared
one at a time, and each declaration answers with the position of what it added.
Nothing is checked meanwhile. An edge may name nodes, matchers and rules that are
declared later or never, but it is listed among the outgoing edges of its source
only if that node exists by then.
-/

namespace StreamGrammar

/-- A graph being assembled. -/
structure Builder extends Graph where
  /-- The matchers declared for single code points, each of which is declared once. -/
  charMatchers : List (Char × MatcherId) := []

/-- A sequence of declarations. -/
abbrev Assembly := StateM Builder

namespace Builder

def modifyRule (builder : Builder) (rule : RuleId) (change : Rule → Rule) : Builder :=
  { builder with rules := builder.rules.modify rule change }

def nodeCount (builder : Builder) (rule : RuleId) : Nat :=
  match builder.rules[rule]? with
  | some found => found.nodes.size
  | none => 0

def edgeCount (builder : Builder) (rule : RuleId) : Nat :=
  match builder.rules[rule]? with
  | some found => found.edges.size
  | none => 0

end Builder

namespace Rule

/-- Declares one more node. -/
def addNode (rule : Rule) (node : Node) : Rule :=
  { rule with nodes := rule.nodes.push node }

/-- Declares one more edge, and lists it at its source if that node exists. -/
def addEdge (rule : Rule) (edge : Edge) : Rule :=
  let list (node : Node) : Node := { node with edges := node.edges.push rule.edges.size }
  { rule with edges := rule.edges.push edge, nodes := rule.nodes.modify edge.source list }

end Rule

namespace Assembly

def rule (name : String) : Assembly RuleId :=
  modifyGet fun builder =>
    (builder.rules.size, { builder with rules := builder.rules.push { name } })

def define (definition : MatcherDef) : Assembly MatcherId :=
  modifyGet fun builder =>
    (builder.matchers.size, { builder with matchers := builder.matchers.push definition })

/-- Declares a matcher without a name. -/
def matcher (matcher : Matcher) : Assembly MatcherId :=
  define { matcher }

/-- Declares a matcher that messages mention by its name. -/
def namedMatcher (name : String) (matcher : Matcher) : Assembly MatcherId :=
  define { name := some name, matcher }

/-- The matcher for a single code point, declared when it is first asked for. -/
def charMatcher (character : Char) : Assembly MatcherId := do
  match (← get).charMatchers.lookup character with
  | some found => return found
  | none =>
      let added ← matcher (.char character)
      modify fun builder =>
        { builder with charMatchers := (character, added) :: builder.charMatchers }
      return added

/-- Declares a node of a rule. The first one is the rule's entry. -/
def addNode (rule : RuleId) (node : Node) : Assembly NodeId :=
  modifyGet fun builder =>
    (builder.nodeCount rule, builder.modifyRule rule (·.addNode node))

/-- Declares a node without a name. -/
def node (rule : RuleId) (action : Action := .none) : Assembly NodeId :=
  addNode rule { action }

/-- Declares a node that messages mention by its name. -/
def namedNode (rule : RuleId) (name : String) (action : Action := .none) : Assembly NodeId :=
  addNode rule { name := some name, action }

def edge (rule : RuleId) (source : NodeId) (kind : EdgeKind) (target : NodeId) :
    Assembly EdgeId :=
  modifyGet fun builder =>
    (builder.edgeCount rule, builder.modifyRule rule (·.addEdge ⟨source, target, kind⟩))

/-- Declares an edge that consumes what a matcher accepts. -/
def consumeEdge (rule : RuleId) (source : NodeId) (matcher : MatcherId) (target : NodeId) :
    Assembly EdgeId :=
  edge rule source (.consume matcher) target

/-- Declares an edge that consumes one given code point. -/
def charEdge (rule : RuleId) (source : NodeId) (character : Char) (target : NodeId) :
    Assembly EdgeId := do
  consumeEdge rule source (← charMatcher character) target

def callEdge (rule : RuleId) (source : NodeId) (callee : RuleId) (target : NodeId) :
    Assembly EdgeId :=
  edge rule source (.call callee) target

def gotoEdge (rule : RuleId) (source target : NodeId) : Assembly EdgeId :=
  edge rule source .goto target

/-- Declares edges that consume the given code points one after the other, with a new node between
each two of them. -/
def spell (rule : RuleId) (source : NodeId) (text : List Char) (target : NodeId) :
    Assembly Unit :=
  match text with
  | [] => if source = target then pure () else do let _ ← gotoEdge rule source target
  | [last] => do let _ ← charEdge rule source last target
  | first :: second :: rest => do
      let between ← node rule
      let _ ← charEdge rule source first between
      spell rule between (second :: rest) target

/-- Declares edges that consume a text. The empty text is a single edge that falls through, or none
at all if it would lead back to its source. -/
def literal (rule : RuleId) (source : NodeId) (text : String) (target : NodeId) :
    Assembly Unit :=
  spell rule source text.toList target

/-- The graph that a sequence of declarations assembles, with their answer. -/
def assemble {Answer : Type} (assembly : Assembly Answer) : Answer × Graph :=
  let (answer, builder) := assembly.run {}
  (answer, builder.toGraph)

end Assembly

end StreamGrammar
