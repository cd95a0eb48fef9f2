import StreamGrammar.Graph

/-!
# Reachability

A node is live in its rule if a chain of listed edges leads to it from the entry.
A rule is live if it is the start rule, or if an edge out of a live node of a live
rule calls it. What is not live is no fault, but most likely a mistake.

Both searches go depth first. Each of them lists a member at most once, when it is
first met, so the number of the members bounds the number of its steps.
-/

namespace StreamGrammar.Graph

/-- Something that a search met. -/
structure Visited where
  /-- What was met so far, the latest first. -/
  met : List Nat
  /-- What was met and has still to be searched, the latest first. -/
  waiting : List Nat
deriving Repr

/-- Notes a member that a search comes upon. -/
def Visited.meet (visited : Visited) (member : Nat) : Visited :=
  if visited.met.contains member then visited
  else ⟨member :: visited.met, member :: visited.waiting⟩

/-- Follows one edge: the called rule and the target are met. -/
def followEdge (search : Visited × Visited) (edge : Edge) : Visited × Visited :=
  let (rules, nodes) := search
  let rules := match edge.kind with
    | .call callee => rules.meet callee
    | _ => rules
  (rules, nodes.meet edge.target)

/-- Searches the nodes of a rule, in at most `steps` steps. Gives the rules met and the live nodes. -/
def searchNodes (rule : Rule) : (steps : Nat) → Visited → Visited → Visited × List NodeId
  | 0, rules, nodes => (rules, nodes.met)
  | steps + 1, rules, nodes =>
      match nodes.waiting with
      | [] => (rules, nodes.met)
      | node :: waiting =>
          let (rules, nodes) :=
            (rule.outgoing node).foldl followEdge (rules, ⟨nodes.met, waiting⟩)
          searchNodes rule steps rules nodes

/-- The rules met when the nodes of a rule are searched from its entry, and the live nodes. -/
def searchRule (rule : Rule) (rules : Visited) : Visited × List NodeId :=
  searchNodes rule rule.nodes.size rules ⟨[Rule.entry], [Rule.entry]⟩

/-- What a search of the whole graph finds. -/
structure Reached where
  /-- The live rules. -/
  rules : List RuleId := []
  /-- The live rules with their live nodes, in the order of the search. -/
  nodes : List (RuleId × List NodeId) := []
deriving Repr

/-- Searches the rules, in at most `steps` steps. -/
def searchRules (graph : Graph) : (steps : Nat) → Visited → Reached
  | 0, rules => { rules := rules.met }
  | steps + 1, rules =>
      match rules.waiting with
      | [] => { rules := rules.met }
      | id :: waiting =>
          match graph.rules[id]? with
          | none => graph.searchRules steps ⟨rules.met, waiting⟩
          | some rule =>
              let (rules, live) := searchRule rule ⟨rules.met, waiting⟩
              let reached := graph.searchRules steps rules
              { reached with nodes := (id, live) :: reached.nodes }

/-- The live rules and nodes of a graph. -/
def reached (graph : Graph) (start : RuleId) : Reached :=
  graph.searchRules graph.rules.size ⟨[start], [start]⟩

/-- The nodes of the live rules that are not live, in the order of the search. -/
def unreachableNodes (graph : Graph) (start : RuleId) : List Frame :=
  (graph.reached start).nodes.flatMap fun (id, live) =>
    match graph.rules[id]? with
    | some rule =>
        ((List.range rule.nodes.size).filter fun node => !live.contains node).map (⟨id, ·⟩)
    | none => []

/-- The rules that are not live, in order of declaration. -/
def unusedRules (graph : Graph) (start : RuleId) : List RuleId :=
  let live := (graph.reached start).rules
  (List.range graph.rules.size).filter fun rule => !live.contains rule

end StreamGrammar.Graph
