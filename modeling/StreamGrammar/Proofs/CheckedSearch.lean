import StreamGrammar.Proofs.SoundGraphs

/-!
# Searching with every lookup checked

What a graph refers to is looked up by position, and a lookup of something that is not
there gives some default. This file and those that follow it run the same computations
with every lookup checked: a function with a question mark fails as soon as something
looked up is not there, and otherwise does what the function without it does. That such
a function succeeds shows that no lookup ever misses.

Here it is the searches for what cannot be reached.
-/

namespace StreamGrammar

section Loops

theorem bind_of_eq_some {First Result : Type} {check : Option First} {answer : First}
    (check_eq : check = some answer) (next : First → Option Result) :
    (check >>= next) = next answer := by
  rw [check_eq]
  rfl

variable {Member Result : Type} {members : List Member}

theorem mapM_eq_some_map {check : Member → Option Result} {total : Member → Result}
    (succeeds : ∀ member ∈ members, check member = some (total member)) :
    members.mapM check = some (members.map total) := by
  induction members with
  | nil => rfl
  | cons first rest ih =>
      rcases List.forall_mem_cons.mp succeeds with ⟨first_eq, rest_eq⟩
      rw [List.mapM_cons, first_eq, ih rest_eq]
      rfl

theorem anyM_eq_some_any {check : Member → Option Bool} {total : Member → Bool}
    (succeeds : ∀ member ∈ members, check member = some (total member)) :
    members.anyM check = some (members.any total) := by
  induction members with
  | nil => rfl
  | cons first rest ih =>
      rcases List.forall_mem_cons.mp succeeds with ⟨first_eq, rest_eq⟩
      rw [List.anyM_cons, first_eq, ih rest_eq, List.any_cons]
      cases total first <;> rfl

theorem allM_eq_some_all {check : Member → Option Bool} {total : Member → Bool}
    (succeeds : ∀ member ∈ members, check member = some (total member)) :
    members.allM check = some (members.all total) := by
  induction members with
  | nil => rfl
  | cons first rest ih =>
      rcases List.forall_mem_cons.mp succeeds with ⟨first_eq, rest_eq⟩
      rw [List.allM_cons, first_eq, ih rest_eq, List.all_cons]
      cases total first <;> rfl

end Loops

/-- The edges listed at a node. -/
def Rule.outgoing? (rule : Rule) (node : NodeId) : Option (List Edge) := do
  let found ← rule.nodes[node]?
  found.edges.toList.mapM (rule.edges[·]?)

theorem Rule.outgoing?_eq {rule : Rule} (lists : rule.ListsEdges) {node : NodeId}
    (inside : node < rule.nodes.size) : rule.outgoing? node = some (rule.outgoing node) := by
  have node_eq : rule.nodes[node]? = some rule.nodes[node] := Array.getElem?_eq_getElem inside
  have listed := lists rule.nodes[node] (Array.getElem_mem inside)
  simp only [outgoing?, outgoing, node_eq, Option.bind_eq_bind, Option.bind_some]
  have edges_eq : ∀ id ∈ rule.nodes[node].edges.toList,
      rule.edges[id]? = some (rule.edges[id]?.getD ⟨0, 0, .goto⟩) := by
    intro id id_mem
    have known := listed id (Array.mem_def.mpr id_mem)
    rw [Array.getElem?_eq_getElem known, Option.getD_some]
  rw [mapM_eq_some_map edges_eq, List.filterMap_congr edges_eq, List.filterMap_eq_map']

namespace Graph

def outgoing? (graph : Graph) (frame : Frame) : Option (List Edge) := do
  let rule ← graph.rules[frame.rule]?
  rule.outgoing? frame.node

def ruleName? (graph : Graph) (id : RuleId) : Option String := do
  let rule ← graph.rules[id]?
  return rule.name

def nodeName? (graph : Graph) (frame : Frame) : Option String := do
  let rule ← graph.rules[frame.rule]?
  let _ ← rule.nodes[frame.node]?
  return rule.nodeName frame.node

variable {graph : Graph}

theorem ruleName?_eq {id : RuleId} (known : id < graph.rules.size) :
    graph.ruleName? id = some (graph.ruleName id) := by
  simp [ruleName?, ruleName, Array.getElem?_eq_getElem known]

theorem HasNode.ruleName?_eq {frame : Frame} (exist : graph.HasNode frame) :
    graph.ruleName? frame.rule = some (graph.ruleName frame.rule) := by
  rcases exist with ⟨rule, rule_eq, _⟩
  exact graph.ruleName?_eq (Array.getElem?_eq_some_iff.mp rule_eq).1

theorem HasNode.nodeName?_eq {frame : Frame} (exist : graph.HasNode frame) :
    graph.nodeName? frame = some (graph.nodeName frame) := by
  rcases exist with ⟨rule, rule_eq, inside⟩
  simp [nodeName?, nodeName, rule_eq, Array.getElem?_eq_getElem inside]

theorem IsSound.outgoing?_eq (sound : graph.IsSound) {frame : Frame} (exist : graph.HasNode frame) :
    graph.outgoing? frame = some (graph.outgoing frame) := by
  rcases exist with ⟨rule, rule_eq, inside⟩
  simp only [outgoing?, outgoing, rule_eq, Option.bind_eq_bind, Option.bind_some]
  exact Rule.outgoing?_eq (sound.listed rule (Array.mem_of_getElem? rule_eq)) inside

def searchNodes? (rule : Rule) : (steps : Nat) → Visited → Visited →
    Option (Visited × List NodeId)
  | 0, rules, nodes => some (rules, nodes.met)
  | steps + 1, rules, nodes =>
      match nodes.waiting with
      | [] => some (rules, nodes.met)
      | node :: waiting => do
          let edges ← rule.outgoing? node
          let (rules, nodes) := edges.foldl followEdge (rules, ⟨nodes.met, waiting⟩)
          searchNodes? rule steps rules nodes

def searchRule? (rule : Rule) (rules : Visited) : Option (Visited × List NodeId) :=
  searchNodes? rule rule.nodes.size rules ⟨[Rule.entry], [Rule.entry]⟩

def searchRules? (graph : Graph) : (steps : Nat) → Visited → Option Reached
  | 0, rules => some { rules := rules.met }
  | steps + 1, rules =>
      match rules.waiting with
      | [] => some { rules := rules.met }
      | id :: waiting => do
          let rule ← graph.rules[id]?
          let (rules, live) ← searchRule? rule ⟨rules.met, waiting⟩
          let reached ← graph.searchRules? steps rules
          return { reached with nodes := (id, live) :: reached.nodes }

def reached? (graph : Graph) (start : RuleId) : Option Reached :=
  graph.searchRules? graph.rules.size ⟨[start], [start]⟩

/-- What is reported of a live rule with its live nodes. -/
def unreachableLines? (graph : Graph) (found : RuleId × List NodeId) : Option (List String) := do
  let rule ← graph.rules[found.1]?
  return ((List.range rule.nodes.size).filter fun node => !found.2.contains node).map fun node =>
    s!"node {rule.nodeName node} of rule '{rule.name}' is unreachable"

/-- What is reported of a rule that is not live. -/
def unusedLine? (graph : Graph) (id : RuleId) : Option String := do
  let name ← graph.ruleName? id
  return s!"rule '{name}' is never used"

def reachabilityRecords? (graph : Graph) (start : RuleId) : Option (List Log.Record) := do
  let reached ← graph.reached? start
  let nodes ← reached.nodes.mapM graph.unreachableLines?
  let rules ← ((List.range graph.rules.size).filter fun id =>
    !reached.rules.contains id).mapM graph.unusedLine?
  return (nodes.flatten ++ rules).map (⟨.warn, .reachability, ·⟩)

/-- Everything that has still to be searched is below a bound. -/
def Visited.IsBelow (visited : Visited) (bound : Nat) : Prop :=
  ∀ member ∈ visited.waiting, member < bound

theorem Visited.IsBelow.meet {visited : Visited} {bound : Nat} (below : visited.IsBelow bound)
    {member : Nat} (member_lt : member < bound) : (visited.meet member).IsBelow bound := by
  simp only [Visited.meet]
  split
  next => exact below
  next => exact List.forall_mem_cons.mpr ⟨member_lt, below⟩

namespace IsSound

variable (sound : graph.IsSound) {rule : Rule} (rule_mem : rule ∈ graph.rules)

include sound rule_mem

/-- Following edges of a rule, a search meets only rules of the graph and nodes of the rule. -/
theorem isBelow_foldl_followEdge (edges : List Edge) (known : ∀ edge ∈ edges, edge ∈ rule.edges)
    {rules nodes : Visited} (rulesBelow : rules.IsBelow graph.rules.size)
    (nodesBelow : nodes.IsBelow rule.nodes.size) :
    (edges.foldl followEdge (rules, nodes)).1.IsBelow graph.rules.size ∧
      (edges.foldl followEdge (rules, nodes)).2.IsBelow rule.nodes.size := by
  induction edges generalizing rules nodes with
  | nil => exact ⟨rulesBelow, nodesBelow⟩
  | cons edge rest ih =>
      rcases List.forall_mem_cons.mp known with ⟨edge_mem, rest_known⟩
      have target_lt := sound.target rule rule_mem edge edge_mem
      refine ih rest_known ?_ (nodesBelow.meet target_lt)
      cases kind_eq : edge.kind with
      | consume => exact rulesBelow
      | goto => exact rulesBelow
      | call callee =>
          exact rulesBelow.meet (sound.callee rule rule_mem edge edge_mem callee kind_eq)

theorem searchNodes?_eq (steps : Nat) {rules nodes : Visited}
    (rulesBelow : rules.IsBelow graph.rules.size) (nodesBelow : nodes.IsBelow rule.nodes.size) :
    searchNodes? rule steps rules nodes = some (searchNodes rule steps rules nodes) ∧
      (searchNodes rule steps rules nodes).1.IsBelow graph.rules.size := by
  induction steps generalizing rules nodes with
  | zero => exact ⟨rfl, rulesBelow⟩
  | succ steps ih =>
      cases waiting_eq : nodes.waiting with
      | nil => simp [searchNodes?, searchNodes, waiting_eq, rulesBelow]
      | cons node waiting =>
          rw [Visited.IsBelow, waiting_eq, List.forall_mem_cons] at nodesBelow
          have edges_eq := Rule.outgoing?_eq (sound.listed rule rule_mem) nodesBelow.1
          have further := sound.isBelow_foldl_followEdge rule_mem (rule.outgoing node)
            (fun _ => rule.mem_edges_of_mem_outgoing) rulesBelow
            (show Visited.IsBelow ⟨nodes.met, waiting⟩ _ from nodesBelow.2)
          simp only [searchNodes?, searchNodes, waiting_eq, edges_eq]
          exact ih further.1 further.2

end IsSound

theorem IsSound.searchRules?_eq (sound : graph.IsSound) (steps : Nat) {rules : Visited}
    (below : rules.IsBelow graph.rules.size) :
    graph.searchRules? steps rules = some (graph.searchRules steps rules) ∧
      ∀ found ∈ (graph.searchRules steps rules).nodes, found.1 < graph.rules.size := by
  induction steps generalizing rules with
  | zero => simp [searchRules?, searchRules]
  | succ steps ih =>
      cases waiting_eq : rules.waiting with
      | nil => simp [searchRules?, searchRules, waiting_eq]
      | cons id waiting =>
          rw [Visited.IsBelow, waiting_eq, List.forall_mem_cons] at below
          have rule_eq : graph.rules[id]? = some graph.rules[id] :=
            Array.getElem?_eq_getElem below.1
          have rule_mem := Array.getElem_mem below.1
          have entry_below : Visited.IsBelow ⟨[Rule.entry], [Rule.entry]⟩
              graph.rules[id].nodes.size :=
            List.forall_mem_singleton.mpr (sound.begins _ rule_mem)
          have searched := sound.searchNodes?_eq rule_mem graph.rules[id].nodes.size
            (show Visited.IsBelow ⟨rules.met, waiting⟩ _ from below.2) entry_below
          have further := ih searched.2
          simp only [searchRules?, searchRules, waiting_eq, rule_eq, Option.bind_eq_bind,
            Option.bind_some, searchRule?, searchRule, searched.1, further.1]
          exact ⟨rfl, List.forall_mem_cons.mpr ⟨below.1, further.2⟩⟩

/-- Nothing is looked up in vain when a sound graph is searched for what cannot be reached. -/
theorem IsSound.reachabilityRecords?_eq (sound : graph.IsSound) {start : RuleId}
    (known : start < graph.rules.size) :
    graph.reachabilityRecords? start = some (graph.reachabilityRecords start) := by
  have searched := sound.searchRules?_eq graph.rules.size
    (show Visited.IsBelow ⟨[start], [start]⟩ _ from List.forall_mem_singleton.mpr known)
  have reached_eq : graph.reached? start = some (graph.reached start) := searched.1
  have unused_eq : ∀ id ∈ graph.unusedRules start, graph.unusedLine? id =
      some s!"rule '{graph.ruleName id}' is never used" := by
    intro id id_mem
    have id_lt := List.mem_range.mp (List.mem_filter.mp id_mem).1
    simp [unusedLine?, ruleName?_eq id_lt]
  have unreachable_eq : ∀ found ∈ (graph.reached start).nodes, graph.unreachableLines? found =
      some ((graph.unreachableLines? found).getD []) := by
    intro found found_mem
    simp [unreachableLines?, Array.getElem?_eq_getElem (searched.2 found found_mem)]
  have lines_eq : ((graph.unreachableNodes start).map fun frame =>
      s!"node {graph.nodeName frame} of rule '{graph.ruleName frame.rule}' is unreachable") =
        ((graph.reached start).nodes.map fun found =>
          (graph.unreachableLines? found).getD []).flatten := by
    rw [unreachableNodes, List.map_flatMap, ← List.flatMap_def]
    refine List.flatMap_congr fun found found_mem => ?_
    have id_lt : found.1 < graph.rules.size := searched.2 found found_mem
    have rule_eq := Array.getElem?_eq_getElem id_lt
    simp [unreachableLines?, ruleName, nodeName, rule_eq, Function.comp_def]
  rw [reachabilityRecords?, bind_of_eq_some reached_eq,
    bind_of_eq_some (mapM_eq_some_map unreachable_eq), ← unusedRules,
    bind_of_eq_some (mapM_eq_some_map unused_eq), reachabilityRecords, lines_eq]
  rfl

end Graph

end StreamGrammar
