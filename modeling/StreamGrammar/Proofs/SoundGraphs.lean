import Mathlib.Tactic.Common
import StreamGrammar.Grammar
import StreamGrammar.Proofs.WayEnumeration

/-!
# Graphs in which every reference leads somewhere

A graph is sound if whatever a node lists, an edge leads to or uses, and a rule begins
with is there. Declarations list only edges that were declared, and a graph without
reference faults has everything else. Every step that a sound graph allows keeps the
rules being run at nodes that exist, and so does every walk. What a declaration preserves
is proved of the few changes that all declarations are made of.
-/

namespace StreamGrammar

/-- One call for assembling a graph. Nodes, matchers and called rules may be named before they are
declared, or without ever being declared. -/
inductive Declaration where
  | rule (name : String)
  | matcher (definition : Matcher)
  | namedMatcher (name : String) (definition : Matcher)
  | charMatcher (character : Char)
  | node (rule : RuleId) (action : Action)
  | namedNode (rule : RuleId) (name : String) (action : Action)
  | edge (rule : RuleId) (source : NodeId) (kind : EdgeKind) (target : NodeId)
  | charEdge (rule : RuleId) (source : NodeId) (character : Char) (target : NodeId)
  | literal (rule : RuleId) (source : NodeId) (text : String) (target : NodeId)

namespace Declaration

def perform : Declaration → Assembly Unit
  | .rule name => do let _ ← Assembly.rule name
  | .matcher definition => do let _ ← Assembly.matcher definition
  | .namedMatcher name definition => do let _ ← Assembly.namedMatcher name definition
  | .charMatcher character => do let _ ← Assembly.charMatcher character
  | .node id action => do let _ ← Assembly.node id action
  | .namedNode id name action => do let _ ← Assembly.namedNode id name action
  | .edge id source kind target => do let _ ← Assembly.edge id source kind target
  | .charEdge id source character target => do
      let _ ← Assembly.charEdge id source character target
  | .literal id source text target => Assembly.literal id source text target

/-- The rule that a declaration adds to. -/
def rule? : Declaration → Option RuleId
  | .node id _ | .namedNode id _ _ | .edge id _ _ _ | .charEdge id _ _ _ | .literal id _ _ _ =>
      some id
  | _ => none

end Declaration

/-- The builder was made by declarations, each of which adds to a rule that was declared before. -/
inductive Builder.IsAssembled : Builder → Prop
  | empty : IsAssembled {}
  | declare {builder : Builder} (assembled : IsAssembled builder) (declaration : Declaration)
      (declared : ∀ rule, declaration.rule? = some rule → rule < builder.rules.size) :
      IsAssembled (declaration.perform.run builder).2

section Changes

/-- The relation holds between a builder and whatever declarations make of it: it does for every
elementary change, and changes can be made one after the other. -/
structure Builder.CoversChanges (relation : Builder → Builder → Prop) : Prop where
  refl (builder : Builder) : relation builder builder
  trans {first second third : Builder} (before : relation first second)
    (after : relation second third) : relation first third
  addRule (builder : Builder) (name : String) :
    relation builder { builder with rules := builder.rules.push { name } }
  define (builder : Builder) (definition : MatcherDef) :
    relation builder { builder with matchers := builder.matchers.push definition }
  share (builder : Builder) {character : Char}
    (unshared : builder.charMatchers.lookup character = none) :
    relation builder { builder with
      matchers := builder.matchers.push { matcher := .char character }
      charMatchers := (character, builder.matchers.size) :: builder.charMatchers }
  addNode (builder : Builder) (id : RuleId) (node : Node) (fresh : node.edges = #[]) :
    relation builder (builder.modifyRule id (·.addNode node))
  addEdge (builder : Builder) (id : RuleId) (edge : Edge) :
    relation builder (builder.modifyRule id (·.addEdge edge))

namespace Builder.CoversChanges

variable {relation : Builder → Builder → Prop} (covers : CoversChanges relation)

include covers

theorem charMatcher (builder : Builder) (character : Char) :
    relation builder ((Assembly.charMatcher character).run builder).2 := by
  simp only [Assembly.charMatcher, StateT.run_bind, StateT.run_get, pure_bind]
  cases found : builder.charMatchers.lookup character with
  | some matcher => exact covers.refl builder
  | none => exact covers.share builder found

theorem charEdge (builder : Builder) (id : RuleId) (source : NodeId) (character : Char)
    (target : NodeId) :
    relation builder ((Assembly.charEdge id source character target).run builder).2 :=
  covers.trans (covers.charMatcher builder character) (covers.addEdge _ id _)

theorem spell (builder : Builder) (id : RuleId) (source : NodeId) (text : List Char)
    (target : NodeId) :
    relation builder ((Assembly.spell id source text target).run builder).2 := by
  induction text generalizing builder source with
  | nil =>
      rw [Assembly.spell]
      split
      next => exact covers.refl builder
      next => exact covers.addEdge builder id _
  | cons first rest ih =>
      cases rest with
      | nil => exact covers.charEdge builder id source first target
      | cons second rest =>
          refine covers.trans (covers.addNode builder id {} rfl) ?_
          exact covers.trans (covers.charEdge _ id source first _) (ih _ _)

theorem perform (builder : Builder) (declaration : Declaration) :
    relation builder (declaration.perform.run builder).2 := by
  cases declaration with
  | rule name => exact covers.addRule builder name
  | matcher definition => exact covers.define builder _
  | namedMatcher name definition => exact covers.define builder _
  | charMatcher character => exact covers.charMatcher builder character
  | node id action => exact covers.addNode builder id _ rfl
  | namedNode id name action => exact covers.addNode builder id _ rfl
  | edge id source kind target => exact covers.addEdge builder id _
  | charEdge id source character target => exact covers.charEdge builder id source character target
  | literal id source text target => exact covers.spell builder id source text.toList target

end Builder.CoversChanges

end Changes

section Listing

theorem mem_or_eq_of_mem_modify {Member : Type} {members : Array Member} {index : Nat}
    {change : Member → Member} {member : Member}
    (member_mem : member ∈ members.modify index change) :
    member ∈ members ∨ ∃ old ∈ members, member = change old := by
  rcases Array.mem_iff_getElem?.mp member_mem with ⟨position, position_eq⟩
  rw [Array.getElem?_modify] at position_eq
  split at position_eq
  next =>
    rcases Option.map_eq_some_iff.mp position_eq with ⟨old, old_eq, rfl⟩
    exact .inr ⟨old, Array.mem_of_getElem? old_eq, rfl⟩
  next => exact .inl (Array.mem_of_getElem? position_eq)

/-- The nodes of the rule list only edges that it has. -/
def Rule.ListsEdges (rule : Rule) : Prop :=
  ∀ node ∈ rule.nodes, ∀ id ∈ node.edges, id < rule.edges.size

theorem Rule.ListsEdges.addNode {rule : Rule} (lists : rule.ListsEdges) {node : Node}
    (fresh : node.edges = #[]) : (rule.addNode node).ListsEdges := by
  intro member member_mem id id_mem
  rcases Array.mem_push.mp member_mem with old | rfl
  · exact lists member old id id_mem
  · simp [fresh] at id_mem

theorem Rule.ListsEdges.addEdge {rule : Rule} (lists : rule.ListsEdges) (edge : Edge) :
    (rule.addEdge edge).ListsEdges := by
  intro member member_mem id id_mem
  simp only [Rule.addEdge, Array.size_push] at member_mem ⊢
  rcases mem_or_eq_of_mem_modify member_mem with old | ⟨old, old_mem, rfl⟩
  · exact Nat.lt_succ_of_lt (lists member old id id_mem)
  · rcases Array.mem_push.mp id_mem with earlier | rfl
    · exact Nat.lt_succ_of_lt (lists old old_mem id earlier)
    · exact Nat.lt_succ_self _

/-- The nodes of every rule list only edges that the rule has. -/
def Builder.ListsEdges (builder : Builder) : Prop :=
  ∀ rule ∈ builder.rules, rule.ListsEdges

/-- The declarations keep to listing only edges that a rule has. -/
def Assembly.KeepsListing {Answer : Type} (assembly : Assembly Answer) : Prop :=
  ∀ builder : Builder, builder.ListsEdges → (assembly.run builder).2.ListsEdges

theorem Builder.ListsEdges.modifyRule {builder : Builder} (lists : builder.ListsEdges)
    (id : RuleId) {change : Rule → Rule}
    (keeps : ∀ found : Rule, found.ListsEdges → (change found).ListsEdges) :
    (builder.modifyRule id change).ListsEdges := by
  intro found found_mem
  rcases mem_or_eq_of_mem_modify found_mem with old | ⟨old, old_mem, rfl⟩
  · exact lists found old
  · exact keeps old (lists old old_mem)

theorem Builder.ListsEdges.addRule {builder : Builder} (lists : builder.ListsEdges)
    (name : String) : ListsEdges { builder with rules := builder.rules.push { name } } := by
  intro found found_mem
  rcases Array.mem_push.mp found_mem with old | rfl
  · exact lists found old
  · intro node node_mem
    simp at node_mem

theorem Builder.ListsEdges.coversChanges :
    CoversChanges fun builder after => builder.ListsEdges → after.ListsEdges where
  refl _ lists := lists
  trans before after lists := after (before lists)
  addRule _ name lists := lists.addRule name
  define _ _ lists := lists
  share _ _ _ lists := lists
  addNode _ id _ fresh lists := lists.modifyRule id fun _ ruleLists => ruleLists.addNode fresh
  addEdge _ id edge lists := lists.modifyRule id fun _ ruleLists => ruleLists.addEdge edge

theorem Assembly.KeepsListing.perform (declaration : Declaration) :
    declaration.perform.KeepsListing :=
  fun builder => Builder.ListsEdges.coversChanges.perform builder declaration

theorem Builder.IsAssembled.listsEdges {builder : Builder} (assembled : builder.IsAssembled) :
    builder.ListsEdges := by
  induction assembled with
  | empty =>
      intro rule rule_mem
      simp at rule_mem
  | declare _ declaration _ ih => exact Assembly.KeepsListing.perform declaration _ ih

end Listing

theorem Rule.mem_edges_of_mem_outgoing (rule : Rule) {node : NodeId} {edge : Edge}
    (edge_mem : edge ∈ rule.outgoing node) : edge ∈ rule.edges := by
  simp only [outgoing] at edge_mem
  split at edge_mem
  next =>
    rcases List.mem_filterMap.mp edge_mem with ⟨id, _, id_eq⟩
    exact Array.mem_of_getElem? id_eq
  next => simp at edge_mem

namespace Graph

/-- Whatever the nodes and edges of a graph refer to is there, and every rule has an entry. -/
structure IsSound (graph : Graph) : Prop where
  listed : ∀ rule ∈ graph.rules, rule.ListsEdges
  begins : ∀ rule ∈ graph.rules, Rule.entry < rule.nodes.size
  target : ∀ rule ∈ graph.rules, ∀ edge ∈ rule.edges, edge.target < rule.nodes.size
  matcher : ∀ rule ∈ graph.rules, ∀ edge ∈ rule.edges, ∀ id, edge.kind = .consume id →
    id < graph.matchers.size
  callee : ∀ rule ∈ graph.rules, ∀ edge ∈ rule.edges, ∀ id, edge.kind = .call id →
    id < graph.rules.size

/-- The graph has such a node. -/
def HasNode (graph : Graph) (frame : Frame) : Prop :=
  ∃ rule, graph.rules[frame.rule]? = some rule ∧ frame.node < rule.nodes.size

/-- All the rules being run are at nodes of the graph. -/
def HasStack (graph : Graph) (stack : List Frame) : Prop := ∀ frame ∈ stack, graph.HasNode frame

variable {graph : Graph}

theorem isSound_of_referenceFaults_eq_nil (listed : ∀ rule ∈ graph.rules, rule.ListsEdges)
    (faultless : graph.referenceFaults = []) : graph.IsSound := by
  have ruleFaultless : ∀ rule ∈ graph.rules, graph.ruleFaults rule = [] := fun rule rule_mem =>
    List.flatMap_eq_nil_iff.mp faultless rule (Array.mem_def.mp rule_mem)
  have edgeFaultless : ∀ rule ∈ graph.rules, ∀ edge ∈ rule.edges,
      graph.edgeFaults rule edge = [] := by
    intro rule rule_mem edge edge_mem
    have faults := ruleFaultless rule rule_mem
    simp only [ruleFaults, List.append_eq_nil_iff] at faults
    exact List.flatMap_eq_nil_iff.mp faults.2 edge (Array.mem_def.mp edge_mem)
  have kindFaultless : ∀ rule ∈ graph.rules, ∀ edge ∈ rule.edges,
      graph.kindFaults rule edge.kind = [] := by
    intro rule rule_mem edge edge_mem
    have faults := edgeFaultless rule rule_mem edge edge_mem
    simp only [edgeFaults, List.append_eq_nil_iff] at faults
    exact faults.2
  refine ⟨listed, ?_, ?_, ?_, ?_⟩
  · intro rule rule_mem
    have faults := ruleFaultless rule rule_mem
    simp only [ruleFaults, List.append_eq_nil_iff] at faults
    have nonempty := faults.1
    split at nonempty
    next => cases nonempty
    next filled => simpa [Rule.entry, Array.size_pos_iff] using filled
  · intro rule rule_mem edge edge_mem
    have faults := edgeFaultless rule rule_mem edge edge_mem
    simp only [edgeFaults, List.append_eq_nil_iff, List.map_eq_nil_iff, List.filter_eq_nil_iff,
      decide_eq_true_eq, Nat.not_le] at faults
    exact faults.1 edge.target (by simp)
  · intro rule rule_mem edge edge_mem id kind_eq
    have faults := kindFaultless rule rule_mem edge edge_mem
    simp only [kind_eq, kindFaults] at faults
    split at faults
    next known => exact known
    next => cases faults
  · intro rule rule_mem edge edge_mem id kind_eq
    have faults := kindFaultless rule rule_mem edge edge_mem
    simp only [kind_eq, kindFaults] at faults
    split at faults
    next found found_eq => exact (Array.getElem?_eq_some_iff.mp found_eq).1
    next => cases faults

/-- A graph that was assembled by declarations and has no reference faults is sound. -/
theorem isSound_of_faultless {builder : Builder} (assembled : builder.IsAssembled)
    {config : GrammarConfig} (faultless : builder.toGraph.initialFaults config = []) :
    builder.toGraph.IsSound := by
  simp only [initialFaults, faults, List.append_eq_nil_iff] at faultless
  exact isSound_of_referenceFaults_eq_nil assembled.listsEdges faultless.1.2.2

section Existence

theorem exists_rule_of_mem_outgoing {frame : Frame} {edge : Edge}
    (edge_mem : edge ∈ graph.outgoing frame) :
    ∃ rule, graph.rules[frame.rule]? = some rule ∧ rule ∈ graph.rules ∧ edge ∈ rule.edges := by
  cases rule_eq : graph.rules[frame.rule]? with
  | none => simp [outgoing, rule_eq] at edge_mem
  | some rule =>
      simp only [outgoing, rule_eq] at edge_mem
      exact ⟨rule, rfl, Array.mem_of_getElem? rule_eq, rule.mem_edges_of_mem_outgoing edge_mem⟩

namespace IsSound

variable (sound : graph.IsSound)

include sound

/-- An edge leads to a node of its rule. -/
theorem hasNode_target {frame : Frame} {edge : Edge} (edge_mem : edge ∈ graph.outgoing frame) :
    graph.HasNode ⟨frame.rule, edge.target⟩ := by
  rcases exists_rule_of_mem_outgoing edge_mem with ⟨rule, rule_eq, rule_mem, found_mem⟩
  exact ⟨rule, rule_eq, sound.target rule rule_mem edge found_mem⟩

theorem hasNode_entry {id : RuleId} (known : id < graph.rules.size) :
    graph.HasNode ⟨id, Rule.entry⟩ :=
  ⟨graph.rules[id], Array.getElem?_eq_getElem known, sound.begins _ (Array.getElem_mem known)⟩

theorem matcher_lt {frame : Frame} {edge : Edge} (edge_mem : edge ∈ graph.outgoing frame)
    {matcher : MatcherId} (kind_eq : edge.kind = .consume matcher) :
    matcher < graph.matchers.size := by
  rcases exists_rule_of_mem_outgoing edge_mem with ⟨rule, _, rule_mem, found_mem⟩
  exact sound.matcher rule rule_mem edge found_mem matcher kind_eq

theorem callee_lt {frame : Frame} {edge : Edge} (edge_mem : edge ∈ graph.outgoing frame)
    {callee : RuleId} (kind_eq : edge.kind = .call callee) : callee < graph.rules.size := by
  rcases exists_rule_of_mem_outgoing edge_mem with ⟨rule, _, rule_mem, found_mem⟩
  exact sound.callee rule rule_mem edge found_mem callee kind_eq

/-- A step that the graph allows leads from nodes of the graph to nodes of the graph. -/
theorem hasStack_apply {stack : List Frame} {step : Step} (enabled : step.IsEnabled graph stack)
    (exist : graph.HasStack stack) : graph.HasStack (step.apply stack) := by
  cases stack with
  | nil => exact (Step.not_isEnabled_nil step enabled).elim
  | cons top below =>
      have belowExist : graph.HasStack below := fun frame frame_mem =>
        exist frame (List.mem_cons_of_mem _ frame_mem)
      cases step with
      | leave => exact belowExist
      | goto node =>
          rcases enabled with ⟨edge, edge_mem, _, rfl⟩
          exact List.forall_mem_cons.mpr ⟨sound.hasNode_target edge_mem, belowExist⟩
      | consume matcher target =>
          rcases enabled with ⟨edge, edge_mem, _, rfl⟩
          exact List.forall_mem_cons.mpr ⟨sound.hasNode_target edge_mem, belowExist⟩
      | call callee resume =>
          rcases enabled with ⟨edge, edge_mem, kind_eq, rfl⟩
          exact List.forall_mem_cons.mpr ⟨sound.hasNode_entry (sound.callee_lt edge_mem kind_eq),
            List.forall_mem_cons.mpr ⟨sound.hasNode_target edge_mem, belowExist⟩⟩

theorem hasStack_of_walk {stack final : List Frame} {steps : Path}
    (walk : Walk graph stack steps final) (exist : graph.HasStack stack) :
    graph.HasStack final := by
  induction walk with
  | refl => exact exist
  | step enabled _ ih => exact ih (sound.hasStack_apply enabled exist)

/-- The matchers that a walk consumes by are there. -/
theorem matchers_lt_of_walk {stack final : List Frame} {steps : Path}
    (walk : Walk graph stack steps final) :
    ∀ matcher ∈ Path.matchers steps, matcher < graph.matchers.size := by
  induction walk with
  | refl => simp
  | @step stack final step steps enabled _ ih =>
      cases step with
      | leave | goto | call => exact ih
      | consume matcher target =>
          rw [Path.matchers_consume, List.forall_mem_cons]
          refine ⟨?_, ih⟩
          cases stack with
          | nil => exact (Step.not_isEnabled_nil _ enabled).elim
          | cons top below =>
              rcases enabled with ⟨edge, edge_mem, kind_eq, _⟩
              exact sound.matcher_lt edge_mem kind_eq

end IsSound

end Existence

end Graph

end StreamGrammar
