import StreamGrammar.Proofs.CheckedEngine

/-!
# No lookup ever misses

Handles may be used before what they stand for is declared, and nothing is checked until
a grammar is built. What is checked then suffices for everything that follows: building
succeeds or fails without a lookup that misses, and so does every use of a grammar that
was built.
-/

namespace StreamGrammar

/-- A node of a sound grammar is without routes exactly if it lists no edges. -/
theorem Grammar.IsSound.routes?_eq_none_iff {grammar : Grammar} {limits : ResolutionLimits}
    (isSound : grammar.IsSound limits) {frame : Frame} {rule : Rule} {node : Node}
    (rule_eq : grammar.rules[frame.rule]? = some rule)
    (node_eq : rule.nodes[frame.node]? = some node) :
    grammar.routes? frame = none ↔ node.edges = #[] := by
  have lists := isSound.sound.listed rule (Array.mem_of_getElem? rule_eq) node
    (Array.mem_of_getElem? node_eq)
  have outgoing_eq : grammar.outgoing frame = node.edges.toList.filterMap (rule.edges[·]?) := by
    simp [Graph.outgoing, rule_eq, Rule.outgoing, node_eq]
  have edgeless : grammar.outgoing frame = [] ↔ node.edges = #[] := by
    rw [outgoing_eq, List.filterMap_eq_nil_iff]
    constructor
    · intro missing
      refine Array.eq_empty_iff_forall_not_mem.mpr fun id id_mem => ?_
      have none_eq := missing id (Array.mem_def.mp id_mem)
      rw [Array.getElem?_eq_getElem (lists id id_mem)] at none_eq
      cases none_eq
    · intro none id id_mem
      simp [none] at id_mem
  rw [← edgeless]
  rcases isSound.resolved.decided frame with
    ⟨ends, none_eq⟩ | ⟨goesOn, routes, _, _, routes_eq, _⟩
  · simp [ends, none_eq]
  · simp [goesOn, routes_eq]

/-- Building from declarations never looks up anything that is not there, whatever nodes, matchers
and rules they name. Of a grammar that was built, neither the route table nor any operations on an
engine do; captured text is sliced only at boundaries of code points inside it; a node is without
routes exactly if it lists no edges; and a decision moves only to nodes of the rule that is
innermost when it does. -/
theorem Builder.lookups_never_miss {builder : Builder} (assembled : builder.IsAssembled)
    (config : GrammarConfig) :
    builder.toGraph.build? config = some (builder.toGraph.build config) ∧
    ∀ grammar, (builder.toGraph.build config).result = .ok grammar →
      grammar.routeTable? = some grammar.routeTable ∧
      (∀ start operations, start < grammar.rules.size →
        (∀ operation ∈ operations, ∀ other, operation = .resetTo other →
          other < grammar.rules.size) →
        ByteEngine.run? grammar start operations =
          some ((Engine.ofRule start).afterOperations grammar operations).inBytes) ∧
      (∀ (frame : Frame) (rule : Rule) (node : Node), grammar.rules[frame.rule]? = some rule →
        rule.nodes[frame.node]? = some node →
        (grammar.routes? frame = none ↔ node.edges = #[])) ∧
      ∀ frame routes, grammar.routes? frame = some routes →
        ∀ path ∈ routes.paths ++ routes.exit.toList, ∀ below,
          grammar.MovesInside (frame :: below) path := by
  refine ⟨Graph.build?_eq assembled config, fun grammar built => ?_⟩
  have isSound := Graph.isSound_of_build assembled built
  refine ⟨isSound.routeTable?_eq, ?_, ?_, ?_⟩
  · intro start operations start_lt known
    exact Engine.run?_eq isSound start_lt known
  · intro frame rule node rule_eq node_eq
    exact isSound.routes?_eq_none_iff rule_eq node_eq
  · intro frame routes routes_eq path path_mem below
    rcases isSound.resolved.exists_settles routes_eq with ⟨ways, division, settles⟩
    rcases settles.exists_walk path_mem below with ⟨final, walk⟩
    exact isSound.sound.movesInside walk

/-- A grammar is built from the declarations of a rule that publishes a word in parentheses, and an
engine that reads one runs to its end with everything checked. -/
theorem Builder.lookups_never_miss_parenthesized : ∃ builder : Builder, builder.IsAssembled ∧
    builder.toGraph = .parenthesized ∧
    (Graph.parenthesized.build? ⟨"main", 1, false⟩).isSome = true ∧
    Grammar.parenthesized.routeTable?.isSome = true ∧
    (∃ state, ByteEngine.run? .parenthesized 0
      [.calls (.consume .patient .chars ['(', 'a', ')']), .calls (.endInput .patient)] =
        some state ∧ state.engine.status = .succeeded) ∧
    Grammar.parenthesized.routes? ⟨0, 2⟩ = none := by
  have assembled : Builder.IsAssembled _ :=
    (((((((Builder.IsAssembled.empty.declare (.rule "main") (by simp [Declaration.rule?])).declare
      (.node 0 .beginCapture) (by rintro _ ⟨⟩; decide)).declare
      (.node 0 .none) (by rintro _ ⟨⟩; decide)).declare
      (.node 0 (.publish "word" 1 0)) (by rintro _ ⟨⟩; decide)).declare
      (.charEdge 0 0 '(' 1) (by rintro _ ⟨⟩; decide)).declare
      (.charEdge 0 1 'a' 1) (by rintro _ ⟨⟩; decide)).declare
      (.charEdge 0 1 ')' 2) (by rintro _ ⟨⟩; decide))
  have isOk : (Graph.parenthesized.build ⟨"main", 1, false⟩).result.isOk = true := by
    decide +kernel
  have built : (Graph.parenthesized.build ⟨"main", 1, false⟩).result = .ok .parenthesized :=
    Graph.build_eq_builtGrammar isOk
  rcases Builder.lookups_never_miss assembled ⟨"main", 1, false⟩ with ⟨builds, uses⟩
  rcases uses _ built with ⟨table, runs, ends, _⟩
  have graph_eq : Grammar.parenthesized.toGraph = .parenthesized := (Graph.build_ok built).1
  have known : 0 < Grammar.parenthesized.rules.size := by
    rw [graph_eq]
    exact Nat.zero_lt_one
  refine ⟨_, assembled, rfl, ?_, ?_, ⟨_, runs 0 _ known ?_, by cbv⟩, ?_⟩
  · exact Option.isSome_iff_exists.mpr ⟨_, builds⟩
  · exact Option.isSome_iff_exists.mpr ⟨_, table⟩
  · simp
  · exact (ends ⟨0, 2⟩ _ _ (by rw [graph_eq]; rfl) rfl).mpr rfl

end StreamGrammar
