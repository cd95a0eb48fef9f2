import StreamGrammar.Matcher.Definition

/-!
# Rule graphs

The rules of a grammar are graphs. The nodes of a rule are joined by edges that
consume one code point, call another rule and continue where it ends, or fall
through without doing either. A rule begins at its first node and ends at any
node without outgoing edges. Entering a node performs its action.

Rules, matchers, and the nodes and edges of one rule are known by their position
in the order of declaration.
-/

namespace StreamGrammar

/-- The position of a rule in its graph. -/
abbrev RuleId := Nat

/-- The position of a node in its rule. -/
abbrev NodeId := Nat

/-- The position of an edge in its rule. -/
abbrev EdgeId := Nat

/-- The position of a matcher in its graph. -/
abbrev MatcherId := Nat

/-- What happens when a node is entered. -/
inductive Action where
  | none
  /-- Opens a region of captured text. -/
  | beginCapture
  /-- Closes the innermost region and publishes its text under a name, without the first
  `trimStart` and the last `trimEnd` code points. -/
  | publish (name : String) (trimStart trimEnd : Nat)
  /-- Announces an event. -/
  | event (name : String)
deriving DecidableEq, Repr

/-- What taking an edge does before its target is entered. -/
inductive EdgeKind where
  /-- Consumes one code point that the matcher accepts. -/
  | consume (matcher : MatcherId)
  /-- Runs a rule. -/
  | call (callee : RuleId)
  /-- Nothing. -/
  | goto
deriving DecidableEq, Repr

/-- An edge of a rule. -/
structure Edge where
  source : NodeId
  target : NodeId
  kind : EdgeKind
deriving DecidableEq, Repr

/-- A node of a rule, with its outgoing edges in order of declaration. -/
structure Node where
  name : Option String := none
  action : Action := .none
  edges : Array EdgeId := #[]
deriving DecidableEq, Repr

/-- A named graph of nodes, the first of which is its entry. -/
structure Rule where
  name : String
  nodes : Array Node := #[]
  edges : Array Edge := #[]
deriving DecidableEq, Repr

namespace Rule

/-- The node at which every rule begins. -/
def entry : NodeId := 0

/-- The edges listed at a node, in order of declaration. -/
def outgoing (rule : Rule) (node : NodeId) : List Edge :=
  match rule.nodes[node]? with
  | some found => found.edges.toList.filterMap (rule.edges[·]?)
  | none => []

/-- The name of a node, or its position where it has none. -/
def nodeName (rule : Rule) (node : NodeId) : String :=
  match rule.nodes[node]? with
  | some { name := some name, .. } => name
  | _ => "#" ++ toString node

def isExit (rule : Rule) (node : NodeId) : Bool :=
  (rule.outgoing node).isEmpty

end Rule

/-- A node of some rule. -/
structure Frame where
  rule : RuleId
  node : NodeId
deriving DecidableEq, Repr

/-- The rules and the matchers that a grammar is made of. -/
structure Graph where
  rules : Array Rule := #[]
  matchers : Array MatcherDef := #[]

namespace Graph

/-- The name of a rule, empty if there is no such rule. -/
def ruleName (graph : Graph) (rule : RuleId) : String :=
  match graph.rules[rule]? with
  | some found => found.name
  | none => ""

/-- The name of a node in its rule. -/
def nodeName (graph : Graph) (frame : Frame) : String :=
  match graph.rules[frame.rule]? with
  | some rule => rule.nodeName frame.node
  | none => "#" ++ toString frame.node

/-- The first rule of the given name. -/
def ruleByName? (graph : Graph) (name : String) : Option RuleId :=
  graph.rules.findIdx? (·.name == name)

/-- The edges that leave a node, in order of declaration. -/
def outgoing (graph : Graph) (frame : Frame) : List Edge :=
  match graph.rules[frame.rule]? with
  | some rule => rule.outgoing frame.node
  | none => []

def action (graph : Graph) (frame : Frame) : Action :=
  match graph.rules[frame.rule]? with
  | some rule =>
      match rule.nodes[frame.node]? with
      | some node => node.action
      | none => .none
  | none => .none

/-- The set of code points that a matcher accepts. -/
def charSet (graph : Graph) (matcher : MatcherId) : CharSet :=
  match graph.matchers[matcher]? with
  | some definition => definition.charSet
  | none => .empty

def accepts (graph : Graph) (matcher : MatcherId) (symbol : Symbol) : Bool :=
  match graph.matchers[matcher]? with
  | some definition => definition.matchesSymbol symbol
  | none => false

/-- How messages mention a matcher. -/
def describe (graph : Graph) (matcher : MatcherId) : String :=
  match graph.matchers[matcher]? with
  | some definition => definition.describe
  | none => ""

end Graph

end StreamGrammar
