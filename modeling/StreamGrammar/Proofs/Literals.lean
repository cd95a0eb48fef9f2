import StreamGrammar.Proofs.SharedMatchers

/-!
# Literals

A literal is a chain of edges through new nodes, one edge for each code point of a text.
Whatever was declared before, it adds this one way to read the text and changes nothing
else. The rule is compared before and after: the chain is added by steps, each of which
declares a node and an edge that leads to it. Then all runs are followed that leave the
source by the first edge of the chain, until they are back at a node that was there before.
-/

namespace StreamGrammar

/-- The node with more outgoing edges after the others. -/
def Node.listing (node : Node) (added : List EdgeId) : Node :=
  { node with edges := node.edges ++ added }

@[simp]
theorem Node.listing_nil (node : Node) : node.listing [] = node := by simp [Node.listing]

namespace Rule

/-- Declares a node and an edge that leads to it. -/
def grow (rule : Rule) (source : NodeId) (kind : EdgeKind) : Rule :=
  (rule.addNode {}).addEdge ⟨source, rule.nodes.size, kind⟩

/-- Declares edges of the given kinds one after the other, with a new node between each two of
them. -/
def chain (rule : Rule) (source : NodeId) (kinds : List EdgeKind) (target : NodeId) : Rule :=
  match kinds with
  | [] => rule
  | [last] => rule.addEdge ⟨source, target, last⟩
  | first :: second :: rest =>
      (rule.grow source first).chain rule.nodes.size (second :: rest) target

variable {rule : Rule} {source node : NodeId} {edge : EdgeId}

theorem getElem?_edges_addEdge (added : Edge) (edge_lt : edge < rule.edges.size) :
    (rule.addEdge added).edges[edge]? = rule.edges[edge]? := by
  rw [addEdge, Array.getElem?_push_lt edge_lt, Array.getElem?_eq_getElem edge_lt]

theorem getElem?_nodes_addEdge (added : Edge) {found : Node}
    (found_eq : rule.nodes[node]? = some found) :
    (rule.addEdge added).nodes[node]? =
      some (found.listing (if node = added.source then [rule.edges.size] else [])) := by
  rw [addEdge, Array.getElem?_modify, found_eq]
  by_cases same : added.source = node
  · simp [same, Node.listing]
  · simp [same, Ne.symm same]

@[simp]
theorem size_nodes_grow (rule : Rule) (source : NodeId) (kind : EdgeKind) :
    (rule.grow source kind).nodes.size = rule.nodes.size + 1 := by
  simp [grow, addEdge, addNode]

@[simp]
theorem size_edges_grow (rule : Rule) (source : NodeId) (kind : EdgeKind) :
    (rule.grow source kind).edges.size = rule.edges.size + 1 :=
  Array.size_push _

theorem getElem?_edges_grow (kind : EdgeKind) (edge_lt : edge < rule.edges.size) :
    (rule.grow source kind).edges[edge]? = rule.edges[edge]? :=
  getElem?_edges_addEdge _ edge_lt

theorem getElem?_edges_grow_size (rule : Rule) (source : NodeId) (kind : EdgeKind) :
    (rule.grow source kind).edges[rule.edges.size]? = some ⟨source, rule.nodes.size, kind⟩ :=
  Array.getElem?_push_size

theorem getElem?_nodes_grow (kind : EdgeKind) {found : Node}
    (found_eq : rule.nodes[node]? = some found) :
    (rule.grow source kind).nodes[node]? =
      some (found.listing (if node = source then [rule.edges.size] else [])) :=
  getElem?_nodes_addEdge _ (getElem?_push_of_eq_some found_eq _)

theorem getElem?_nodes_grow_size (source_lt : source < rule.nodes.size) (kind : EdgeKind) :
    (rule.grow source kind).nodes[rule.nodes.size]? = some {} := by
  have added := @getElem?_nodes_addEdge (rule.addNode {}) rule.nodes.size
    ⟨source, rule.nodes.size, kind⟩ {} Array.getElem?_push_size
  rwa [if_neg (Nat.ne_of_gt source_lt), Node.listing_nil] at added

end Rule

namespace Assembly

variable {builder : Builder} {id : RuleId} {rule : Rule}

theorem rules_modifyRule (rule_eq : builder.rules[id]? = some rule) (change : Rule → Rule) :
    (builder.modifyRule id change).rules = builder.rules.setIfInBounds id (change rule) := by
  rcases Array.getElem?_eq_some_iff.mp rule_eq with ⟨inside, rfl⟩
  refine Array.ext_getElem? fun other => ?_
  rw [Builder.modifyRule, Array.getElem?_modify, Array.getElem?_setIfInBounds]
  split
  next same =>
    subst same
    simp [inside]
  next => rfl

theorem getElem?_of_eq_setIfInBounds {after : Builder} {changed : Rule}
    (rule_eq : builder.rules[id]? = some rule)
    (rules_eq : after.rules = builder.rules.setIfInBounds id changed) :
    after.rules[id]? = some changed := by
  rw [rules_eq]
  exact Array.getElem?_setIfInBounds_self_of_lt (Array.getElem?_eq_some_iff.mp rule_eq).1

theorem rules_charEdge (rule_eq : builder.rules[id]? = some rule) (source : NodeId)
    (character : Char) (target : NodeId) :
    ((charEdge id source character target).run builder).2.rules =
      builder.rules.setIfInBounds id (rule.addEdge ⟨source, target,
        .consume ((charMatcher character).run builder).1⟩) := by
  have rules_eq := rules_charMatcher builder character
  rw [← rules_eq] at rule_eq ⊢
  exact rules_modifyRule rule_eq _

theorem lookup_charEdge (source : NodeId) (character : Char) (target : NodeId) :
    ((charEdge id source character target).run builder).2.charMatchers.lookup character =
      some ((charMatcher character).run builder).1 :=
  Builder.lookup_charMatcher builder character

/-- A text that is not empty is spelled by a chain. -/
theorem exists_chain_of_spell (rule_eq : builder.rules[id]? = some rule) (source : NodeId)
    (first : Char) (rest : List Char) (target : NodeId) :
    let after := ((spell id source (first :: rest) target).run builder).2
    ∃ kinds, List.Forall₂ (fun character kind => ∃ matcher, kind = .consume matcher ∧
        after.charMatchers.lookup character = some matcher) (first :: rest) kinds ∧
      after.rules = builder.rules.setIfInBounds id (rule.chain source kinds target) := by
  induction rest generalizing builder rule source first with
  | nil =>
      refine ⟨[_], .cons ⟨_, rfl, ?_⟩ .nil, rules_charEdge rule_eq source first target⟩
      exact lookup_charEdge source first target
  | cons second rest ih =>
      intro after
      let noded := ((node id).run builder).2
      let joined := ((charEdge id source first (builder.nodeCount id)).run noded).2
      have noded_eq : noded.rules = builder.rules.setIfInBounds id (rule.addNode {}) :=
        rules_modifyRule rule_eq _
      have noded_rule_eq := getElem?_of_eq_setIfInBounds rule_eq noded_eq
      have joined_eq := rules_charEdge noded_rule_eq source first (builder.nodeCount id)
      have joined_rule_eq := getElem?_of_eq_setIfInBounds noded_rule_eq joined_eq
      rcases ih joined_rule_eq (builder.nodeCount id) second with ⟨kinds, spelled, rules_eq⟩
      have keeps := Builder.KeepsMatchers.coversChanges.spell joined id (builder.nodeCount id)
        (second :: rest) target
      have shared := keeps.shared first _ (lookup_charEdge source first (builder.nodeCount id))
      refine ⟨_ :: kinds, .cons ⟨_, rfl, shared⟩ spelled, ?_⟩
      rw [joined_eq, noded_eq, Array.setIfInBounds_setIfInBounds,
        Array.setIfInBounds_setIfInBounds] at rules_eq
      cases kinds with
      | nil => cases spelled
      | cons kind kinds =>
          rw [Rule.chain, Rule.grow, ← Builder.nodeCount_eq rule_eq]
          exact rules_eq

end Assembly

namespace Rule

variable {rule extended : Rule} {source target node : NodeId} {kinds : List EdgeKind}

/-- The edge is the first one of a chain by edges of the given kinds that ends at the target. In
between, the chain passes nodes that are not among the first `count` ones, and each of them lists
just the next edge. -/
inductive Leads (rule : Rule) (count : Nat) (target : NodeId) : Edge → List EdgeKind → Prop
  | last {edge : Edge} (ends : edge.target = target) : Leads rule count target edge [edge.kind]
  | next {edge following : Edge} {kinds : List EdgeKind} (beyond : count ≤ edge.target)
      (listed : rule.outgoing edge.target = [following])
      (rest : Leads rule count target following kinds) :
      Leads rule count target edge (edge.kind :: kinds)

theorem Leads.mono {count smaller : Nat} {edge : Edge} (leads : rule.Leads count target edge kinds)
    (smaller_le : smaller ≤ count) : rule.Leads smaller target edge kinds := by
  induction leads with
  | last ends => exact .last ends
  | next beyond listed _ ih => exact .next (smaller_le.trans beyond) listed ih

theorem outgoing_of_singleton {found : Node} {edge : EdgeId} {leaving : Edge}
    (found_eq : rule.nodes[node]? = some found) (edges_eq : found.edges = #[edge])
    (leaving_eq : rule.edges[edge]? = some leaving) : rule.outgoing node = [leaving] := by
  simp [outgoing, found_eq, edges_eq, leaving_eq]

/-- What a chain changes in a rule. All nodes and edges that were there stay as they are, but the
source lists the first edge of the chain in addition. -/
structure GainsChain (rule extended : Rule) (source : NodeId) (kinds : List EdgeKind)
    (target : NodeId) : Prop where
  name_eq : extended.name = rule.name
  nodes_size : extended.nodes.size = rule.nodes.size + (kinds.length - 1)
  edges_size : extended.edges.size = rule.edges.size + kinds.length
  edge_eq : ∀ edge < rule.edges.size, extended.edges[edge]? = rule.edges[edge]?
  node_eq : ∀ (node : NodeId) (found : Node), rule.nodes[node]? = some found →
    extended.nodes[node]? =
      some (found.listing (if node = source ∧ kinds ≠ [] then [rule.edges.size] else []))
  fresh : ∀ node, rule.nodes.size ≤ node → node < extended.nodes.size →
    ∃ edge leaving, extended.nodes[node]? = some { edges := #[edge] } ∧
      extended.edges[edge]? = some leaving ∧ leaving.source = node
  leads : kinds ≠ [] → ∃ leaving, extended.edges[rule.edges.size]? = some leaving ∧
    leaving.source = source ∧ extended.Leads rule.nodes.size target leaving kinds

namespace GainsChain

theorem refl (rule : Rule) (source target : NodeId) : rule.GainsChain rule source [] target where
  name_eq := rfl
  nodes_size := rfl
  edges_size := rfl
  edge_eq _ _ := rfl
  node_eq node found found_eq := by simpa using found_eq
  fresh node beyond inside := absurd inside (Nat.not_lt_of_le beyond)
  leads nonempty := absurd rfl nonempty

theorem addEdge (rule : Rule) (source target : NodeId) (kind : EdgeKind) :
    rule.GainsChain (rule.addEdge ⟨source, target, kind⟩) source [kind] target where
  name_eq := rfl
  nodes_size := Array.size_modify
  edges_size := Array.size_push _
  edge_eq edge edge_lt := getElem?_edges_addEdge _ edge_lt
  node_eq node found found_eq := by simpa using getElem?_nodes_addEdge _ found_eq
  fresh node beyond inside := by
    rw [Rule.addEdge, Array.size_modify] at inside
    exact absurd inside (Nat.not_lt_of_le beyond)
  leads _ := ⟨_, Array.getElem?_push_size, rfl, .last rfl⟩

/-- A chain that goes on from the new node at which its first edge ends. -/
theorem grow {first : EdgeKind} (source_lt : source < rule.nodes.size) (nonempty : kinds ≠ [])
    (gains : (rule.grow source first).GainsChain extended rule.nodes.size kinds target) :
    rule.GainsChain extended source (first :: kinds) target := by
  have edges_lt : ∀ edge, edge < rule.edges.size + 1 → edge < (rule.grow source first).edges.size :=
    fun edge edge_lt => by rwa [size_edges_grow]
  have between_eq := gains.node_eq _ {} (getElem?_nodes_grow_size source_lt first)
  rw [if_pos ⟨rfl, nonempty⟩, size_edges_grow] at between_eq
  rcases gains.leads nonempty with ⟨following, following_eq, following_source, rest⟩
  rw [size_edges_grow] at following_eq
  refine ⟨gains.name_eq, ?_, ?_, ?_, ?_, ?_, ?_⟩
  · have positive := List.length_pos_of_ne_nil nonempty
    rw [gains.nodes_size, size_nodes_grow, List.length_cons]
    omega
  · rw [gains.edges_size, size_edges_grow, List.length_cons, Nat.add_assoc, Nat.add_comm 1]
  · intro edge edge_lt
    rw [gains.edge_eq edge (edges_lt edge (Nat.lt_succ_of_lt edge_lt)),
      getElem?_edges_grow first edge_lt]
  · intro node found found_eq
    have elsewhere : ¬(node = rule.nodes.size ∧ kinds ≠ []) := fun same =>
      Nat.ne_of_lt (Array.getElem?_eq_some_iff.mp found_eq).1 same.1
    have known := gains.node_eq node _ (getElem?_nodes_grow first found_eq)
    rw [if_neg elsewhere, Node.listing_nil] at known
    simpa using known
  · intro node beyond inside
    rcases Nat.eq_or_lt_of_le beyond with rfl | later
    · exact ⟨_, following, between_eq, following_eq, following_source⟩
    · exact gains.fresh node (by rwa [size_nodes_grow]) inside
  · intro _
    have first_eq := gains.edge_eq rule.edges.size (edges_lt _ (Nat.lt_succ_self _))
    rw [getElem?_edges_grow_size] at first_eq
    have listed := outgoing_of_singleton between_eq rfl following_eq
    rw [size_nodes_grow] at rest
    exact ⟨_, first_eq, rfl, .next (Nat.le_refl _) listed (rest.mono (Nat.le_succ _))⟩

theorem mem_outgoing (gains : rule.GainsChain extended source kinds target)
    (source_lt : source < rule.nodes.size) (nonempty : kinds ≠ []) {first : Edge}
    (first_eq : extended.edges[rule.edges.size]? = some first) :
    first ∈ extended.outgoing source := by
  have source_eq := gains.node_eq source _ (Array.getElem?_eq_getElem source_lt)
  rw [if_pos ⟨rfl, nonempty⟩] at source_eq
  simp only [outgoing, source_eq]
  exact List.mem_filterMap.mpr ⟨rule.edges.size, by simp [Node.listing], first_eq⟩

end GainsChain

theorem gainsChain_chain (source_lt : source < rule.nodes.size) (kinds : List EdgeKind)
    (target : NodeId) :
    rule.GainsChain (rule.chain source kinds target) source kinds target := by
  induction kinds generalizing rule source with
  | nil => exact .refl rule source target
  | cons first rest ih =>
      cases rest with
      | nil => exact .addEdge rule source target first
      | cons second rest =>
          refine .grow source_lt (List.cons_ne_nil _ _) (ih ?_)
          rw [size_nodes_grow]
          exact Nat.lt_succ_self _

end Rule

/-- The matcher that such an edge consumes by, if it does. -/
def EdgeKind.matchers : EdgeKind → List MatcherId
  | .consume matcher => [matcher]
  | _ => []

/-- Following the edge does not run another rule. -/
def EdgeKind.StaysInRule : EdgeKind → Prop
  | .call _ => False
  | _ => True

section Steps

variable {edge : Edge} {top : Frame} {below : List Frame} {graph : Graph}

theorem Edge.reads_step {read : List Char} :
    edge.step.Reads graph read ↔ graph.Spells edge.kind.matchers read := by
  rw [Step.reads_iff_spells]
  rcases edge with ⟨source, target, kind⟩
  cases kind <;> exact Iff.rfl

theorem Edge.apply_step (stays : edge.kind.StaysInRule) :
    edge.step.apply (top :: below) = { top with node := edge.target } :: below := by
  rcases edge with ⟨source, target, kind⟩
  cases kind with
  | call callee => exact stays.elim
  | consume matcher => rfl
  | goto => rfl

theorem Graph.outgoing_of_rule {id : RuleId} {rule : Rule} (rule_eq : graph.rules[id]? = some rule)
    (node : NodeId) : graph.outgoing ⟨id, node⟩ = rule.outgoing node := by
  simp only [outgoing, rule_eq]

theorem Edge.isEnabled_step (edge_mem : edge ∈ graph.outgoing top) :
    edge.step.IsEnabled graph (top :: below) := by
  rw [Step.IsEnabled, edge.edge?_step]
  exact ⟨edge, edge_mem, rfl, rfl⟩

theorem Step.eq_of_isEnabled {step : Step} (enabled : step.IsEnabled graph (top :: below))
    (outgoing_eq : graph.outgoing top = [edge]) : step = edge.step := by
  have choice_mem := Graph.mem_choicesAt_iff.mpr enabled
  rw [Graph.choicesAt_of_ne_nil (by simp [outgoing_eq]), outgoing_eq] at choice_mem
  exact List.mem_singleton.mp choice_mem

end Steps

/-- A run of at least one step that ends as soon as the innermost node is not one of the new
ones. -/
inductive Excursion (graph : Graph) (isNew : Frame → Prop) :
    (stack : List Frame) → Path → List Char → (final : List Frame) → Prop
  | back {stack : List Frame} {step : Step} {read : List Char}
      (enabled : step.IsEnabled graph stack) (reads : step.Reads graph read)
      (known : ∀ top ∈ (step.apply stack).head?, ¬isNew top) :
      Excursion graph isNew stack [step] read (step.apply stack)
  | pass {stack final : List Frame} {step : Step} {steps : Path} {read text : List Char}
      (enabled : step.IsEnabled graph stack) (reads : step.Reads graph read)
      (new : ∃ top ∈ (step.apply stack).head?, isNew top)
      (rest : Excursion graph isNew (step.apply stack) steps text final) :
      Excursion graph isNew stack (step :: steps) (read ++ text) final

namespace Excursion

variable {graph : Graph} {isNew : Frame → Prop} {edge : Edge} {top : Frame}
  {below stack final : List Frame} {steps : Path} {text : List Char}

theorem isEnabled {step : Step}
    (excursion : Excursion graph isNew stack (step :: steps) text final) :
    step.IsEnabled graph stack := by
  cases excursion with
  | back enabled _ _ => exact enabled
  | pass enabled _ _ _ => exact enabled

theorem back_iff (edge_mem : edge ∈ graph.outgoing top) (stays : edge.kind.StaysInRule)
    (known : ¬isNew { top with node := edge.target }) :
    Excursion graph isNew (top :: below) (edge.step :: steps) text final ↔
      steps = [] ∧ graph.Spells edge.kind.matchers text ∧
        final = { top with node := edge.target } :: below := by
  rw [← Edge.reads_step]
  have applied := @Edge.apply_step edge top below stays
  constructor
  · intro excursion
    cases excursion with
    | back enabled reads _ => exact ⟨rfl, reads, applied⟩
    | pass _ _ new _ =>
        rw [applied] at new
        rcases new with ⟨_, ⟨⟩, new⟩
        exact absurd new known
  · rintro ⟨rfl, reads, rfl⟩
    rw [← applied]
    refine .back (Edge.isEnabled_step edge_mem) reads ?_
    rw [applied]
    rintro _ ⟨⟩
    exact known

theorem pass_iff (edge_mem : edge ∈ graph.outgoing top) (stays : edge.kind.StaysInRule)
    (new : isNew { top with node := edge.target }) :
    Excursion graph isNew (top :: below) (edge.step :: steps) text final ↔
      ∃ read rest, text = read ++ rest ∧ graph.Spells edge.kind.matchers read ∧
        Excursion graph isNew ({ top with node := edge.target } :: below) steps rest final := by
  simp only [← Edge.reads_step]
  have applied := @Edge.apply_step edge top below stays
  constructor
  · intro excursion
    cases excursion with
    | back _ _ known =>
        rw [applied] at known
        exact absurd new (known _ rfl)
    | pass _ reads _ rest =>
        rw [applied] at rest
        exact ⟨_, _, rfl, reads, rest⟩
  · rintro ⟨read, rest, rfl, reads, excursion⟩
    rw [← applied] at excursion
    refine .pass (Edge.isEnabled_step edge_mem) reads ?_ excursion
    rw [applied]
    exact ⟨_, rfl, new⟩

end Excursion

/-- The node is one of a rule that is not among its first ones. -/
def Frame.IsBeyond (id : RuleId) (count : Nat) (frame : Frame) : Prop :=
  frame.rule = id ∧ count ≤ frame.node

/-- The runs along a chain take its edges one after the other, and nothing else. -/
theorem Rule.Leads.exists_following {graph : Graph} {id : RuleId} {rule : Rule} {count : Nat}
    {target : NodeId} {first : Edge} {kinds : List EdgeKind}
    (rule_eq : graph.rules[id]? = some rule) (leads : rule.Leads count target first kinds)
    (target_lt : target < count) (stay : ∀ kind ∈ kinds, kind.StaysInRule) :
    ∃ following : List Edge, (first :: following).map Edge.kind = kinds ∧
      ∀ node below steps text final, first ∈ graph.outgoing ⟨id, node⟩ →
        (Excursion graph (Frame.IsBeyond id count) (⟨id, node⟩ :: below) (first.step :: steps) text
            final ↔
          steps = following.map Edge.step ∧
            graph.Spells (kinds.flatMap EdgeKind.matchers) text ∧
            final = ⟨id, target⟩ :: below) := by
  induction leads with
  | @last edge ends =>
      refine ⟨[], rfl, fun node below steps text final edge_mem => ?_⟩
      have known : ¬Frame.IsBeyond id count ⟨id, edge.target⟩ := fun beyond =>
        Nat.not_lt_of_le beyond.2 (ends ▸ target_lt)
      rw [Excursion.back_iff edge_mem (stay _ (List.mem_singleton_self _)) known, ends,
        List.flatMap_singleton, List.map_nil]
  | @next edge following kinds beyond listed _ ih =>
      rw [List.forall_mem_cons] at stay
      rcases ih stay.2 with ⟨others, kinds_eq, excursion_iff⟩
      have outgoing_eq : graph.outgoing ⟨id, edge.target⟩ = [following] := by
        rwa [Graph.outgoing_of_rule rule_eq]
      have following_mem : following ∈ graph.outgoing ⟨id, edge.target⟩ := by simp [outgoing_eq]
      have new : Frame.IsBeyond id count ⟨id, edge.target⟩ := ⟨rfl, beyond⟩
      refine ⟨following :: others, by rw [List.map_cons, kinds_eq], ?_⟩
      intro node below steps text final edge_mem
      rw [Excursion.pass_iff edge_mem stay.1 new, List.flatMap_cons]
      constructor
      · rintro ⟨read, rest, rfl, reads, excursion⟩
        cases steps with
        | nil => cases excursion
        | cons step steps =>
            -- The node that was reached leaves no choice.
            obtain rfl := Step.eq_of_isEnabled excursion.isEnabled outgoing_eq
            rcases (excursion_iff _ _ _ _ _ following_mem).mp excursion with ⟨rfl, spells, rfl⟩
            exact ⟨rfl, reads.append spells, rfl⟩
      · rintro ⟨rfl, spells, rfl⟩
        rcases Graph.Spells.append_iff.mp spells with ⟨read, rest, rfl, reads, restSpells⟩
        refine ⟨read, rest, rfl, reads, ?_⟩
        exact (excursion_iff _ _ _ _ _ following_mem).mpr ⟨rfl, restSpells, rfl⟩

section Spelling

/-- The edges of this kind consume just the code point, by its shared matcher. -/
def Builder.ConsumesBy (builder : Builder) (character : Char) (kind : EdgeKind) : Prop :=
  ∃ matcher, kind = .consume matcher ∧ builder.Shares character matcher

/-- The text is spelled by edges of the given kinds: for each code point there is one that consumes
it. The empty text takes one edge that falls through, or none if that edge would lead back to its
source. -/
def Builder.IsSpelledBy (builder : Builder) (source target : NodeId) (text : List Char)
    (kinds : List EdgeKind) : Prop :=
  match text with
  | [] => kinds = if source = target then [] else [.goto]
  | text => List.Forall₂ builder.ConsumesBy text kinds

theorem Builder.Shares.accepts_iff {builder : Builder} {character other : Char}
    {matcher : MatcherId} (shares : builder.Shares character matcher) :
    builder.toGraph.accepts matcher (.char other) = true ↔ other = character := by
  simp only [Graph.accepts, shares.2, MatcherDef.matchesSymbol, Matcher.matchesSymbol,
    Matcher.accepts, beq_iff_eq]
  exact eq_comm

/-- Edges that consume the code points of a text one by one consume just that text. -/
theorem Builder.spells_iff_of_consumesBy {builder : Builder} {text read : List Char}
    {kinds : List EdgeKind} (consumed : List.Forall₂ builder.ConsumesBy text kinds) :
    builder.toGraph.Spells (kinds.flatMap EdgeKind.matchers) read ↔ read = text := by
  induction consumed generalizing read with
  | nil => exact List.forall₂_nil_left_iff
  | cons consumes _ ih =>
      obtain ⟨matcher, rfl, shares⟩ := consumes
      rw [List.flatMap_cons, EdgeKind.matchers, List.singleton_append, Graph.Spells,
        List.forall₂_cons_left_iff]
      constructor
      · rintro ⟨other, rest, accepts, spells, rfl⟩
        rw [shares.accepts_iff.mp accepts, ih.mp spells]
      · rintro rfl
        exact ⟨_, _, shares.accepts_iff.mpr rfl, ih.mpr rfl, rfl⟩

theorem Builder.staysInRule_of_consumesBy {builder : Builder} {text : List Char}
    {kinds : List EdgeKind} (consumed : List.Forall₂ builder.ConsumesBy text kinds) :
    ∀ kind ∈ kinds, kind.StaysInRule := by
  induction consumed with
  | nil => exact List.forall_mem_nil _
  | cons consumes _ ih =>
      obtain ⟨matcher, rfl, _⟩ := consumes
      exact List.forall_mem_cons.mpr ⟨trivial, ih⟩

namespace Builder.IsSpelledBy

variable {builder : Builder} {source target : NodeId} {text : List Char} {kinds : List EdgeKind}

theorem length_pred (spelled : builder.IsSpelledBy source target text kinds) :
    kinds.length - 1 = text.length - 1 := by
  cases text with
  | nil =>
      rw [IsSpelledBy] at spelled
      rw [spelled]
      split <;> rfl
  | cons first rest => rw [← List.Forall₂.length_eq spelled]

theorem kinds_eq_nil_iff (spelled : builder.IsSpelledBy source target text kinds) :
    kinds = [] ↔ text = [] ∧ source = target := by
  cases text with
  | nil =>
      rw [IsSpelledBy] at spelled
      rw [spelled]
      split <;> simp [*]
  | cons first rest =>
      cases spelled with
      | cons => simp

theorem staysInRule (spelled : builder.IsSpelledBy source target text kinds) :
    ∀ kind ∈ kinds, kind.StaysInRule := by
  cases text with
  | nil =>
      rw [IsSpelledBy] at spelled
      rw [spelled]
      split
      next => exact List.forall_mem_nil _
      next => exact List.forall_mem_singleton.mpr trivial
  | cons first rest => exact staysInRule_of_consumesBy spelled

theorem spells_iff (spelled : builder.IsSpelledBy source target text kinds) {read : List Char} :
    builder.toGraph.Spells (kinds.flatMap EdgeKind.matchers) read ↔ read = text := by
  cases text with
  | nil =>
      rw [IsSpelledBy] at spelled
      rw [spelled]
      split <;> exact List.forall₂_nil_left_iff
  | cons first rest => exact spells_iff_of_consumesBy spelled

end Builder.IsSpelledBy

/-- A literal is a chain that spells its text. -/
theorem Assembly.exists_chain_of_literal {builder : Builder} (shares : builder.SharesMatchers)
    {id : RuleId} {rule : Rule} (rule_eq : builder.rules[id]? = some rule)
    (source target : NodeId) (text : String) :
    let after := ((literal id source text target).run builder).2
    ∃ kinds, after.IsSpelledBy source target text.toList kinds ∧
      after.rules = builder.rules.setIfInBounds id (rule.chain source kinds target) := by
  intro after
  have afterShares : after.SharesMatchers :=
    Builder.SharesMatchers.coversChanges.spell builder id source text.toList target shares
  simp only [after, literal] at afterShares ⊢
  generalize text.toList = letters at afterShares ⊢
  cases letters with
  | nil =>
      refine ⟨_, rfl, ?_⟩
      rw [spell]
      split
      next =>
        rcases Array.getElem?_eq_some_iff.mp rule_eq with ⟨inside, rfl⟩
        rw [Rule.chain, Array.setIfInBounds_def, dif_pos inside, Array.set_getElem_self]
        rfl
      next => exact rules_modifyRule rule_eq _
  | cons first rest =>
      rcases exists_chain_of_spell rule_eq source first rest target with ⟨kinds, looked, rules_eq⟩
      refine ⟨kinds, looked.imp ?_, rules_eq⟩
      rintro character _ ⟨matcher, rfl, found⟩
      exact ⟨matcher, rfl, afterShares.shares found⟩

/-- Whatever was declared before, a literal from one node of a rule to another adds a single way
to read its text. It changes no other rule, nor any matcher or which ones are shared. In the rule
it adds one node fewer than there are code points, each without a name or an action and with one
outgoing edge, and the edges in order, one for each code point, which consumes it by its shared
matcher. Of the nodes that were there the source lists the first of these edges at the end, and the
others list what they did. A run that leaves by that edge and ends as soon as it is back at one of
those nodes ends at the target, has taken just these edges and consumed just the text. The empty
text adds one edge that falls through, or none from a node to itself. -/
theorem Assembly.literal_adds_one_spelling {builder : Builder} (assembled : builder.IsAssembled)
    {id : RuleId} {rule : Rule} (rule_eq : builder.rules[id]? = some rule) {source target : NodeId}
    (source_lt : source < rule.nodes.size) (target_lt : target < rule.nodes.size)
    (text : String) :
    let after := ((literal id source text target).run builder).2
    let isNothing := text = "" ∧ source = target
    ∃ (extended : Rule) (kinds : List EdgeKind),
      after.rules = builder.rules.setIfInBounds id extended ∧
      builder.KeepsMatchers after ∧
      after.IsSpelledBy source target text.toList kinds ∧
      extended.name = rule.name ∧
      extended.nodes.size = rule.nodes.size + (text.length - 1) ∧
      extended.edges.size = rule.edges.size + kinds.length ∧
      (∀ edge < rule.edges.size, extended.edges[edge]? = rule.edges[edge]?) ∧
      (∀ (node : NodeId) (found : Node), rule.nodes[node]? = some found →
        extended.nodes[node]? =
          some (found.listing (if node = source ∧ ¬isNothing then [rule.edges.size] else []))) ∧
      (∀ node, rule.nodes.size ≤ node → node < extended.nodes.size →
        ∃ edge leaving, extended.nodes[node]? = some { edges := #[edge] } ∧
          extended.edges[edge]? = some leaving ∧ leaving.source = node) ∧
      (¬isNothing → ∃ first following, extended.edges[rule.edges.size]? = some first ∧
        first.source = source ∧ (first :: following).map Edge.kind = kinds ∧
        ∀ below steps read final,
          Excursion after.toGraph (Frame.IsBeyond id rule.nodes.size) (⟨id, source⟩ :: below)
              (first.step :: steps) read final ↔
            steps = following.map Edge.step ∧ read = text.toList ∧
              final = ⟨id, target⟩ :: below) := by
  intro after isNothing
  rcases exists_chain_of_literal assembled.sharesMatchers rule_eq source target text with
    ⟨kinds, spelled, rules_eq⟩
  have keeps : builder.KeepsMatchers after :=
    Builder.KeepsMatchers.coversChanges.spell builder id source text.toList target
  have gains := Rule.gainsChain_chain source_lt kinds target
  have adds_iff : kinds ≠ [] ↔ ¬isNothing := by
    rw [Ne, spelled.kinds_eq_nil_iff, String.toList_eq_nil_iff]
  refine ⟨_, kinds, rules_eq, keeps, spelled, gains.name_eq, ?_, gains.edges_size, gains.edge_eq,
    ?_, gains.fresh, fun adds => ?_⟩
  · rw [gains.nodes_size, spelled.length_pred, String.length_toList]
  · intro node found found_eq
    simp only [← adds_iff]
    exact gains.node_eq node found found_eq
  · rcases gains.leads (adds_iff.mpr adds) with
      ⟨first, first_eq, first_source, leads⟩
    have after_rule_eq := getElem?_of_eq_setIfInBounds rule_eq rules_eq
    rcases leads.exists_following after_rule_eq target_lt spelled.staysInRule with
      ⟨following, kinds_eq, excursion_iff⟩
    have first_mem : first ∈ after.outgoing ⟨id, source⟩ := by
      rw [Graph.outgoing_of_rule after_rule_eq]
      exact gains.mem_outgoing source_lt (adds_iff.mpr adds) first_eq
    refine ⟨first, following, first_eq, first_source, kinds_eq, ?_⟩
    intro below steps read final
    rw [excursion_iff source below steps read final first_mem, spelled.spells_iff]

/-- A rule of two nodes, of which a literal leads from the first one to the second. The matcher for
its second letter was shared before it was spelled. -/
def Declaration.spelledWord : List Declaration :=
  [.rule "main", .node 0 .none, .node 0 .none, .charMatcher 'b', .literal 0 0 "ab" 1]

/-- The rule that it consists of. -/
def Rule.spelledWord : Rule where
  name := "main"
  nodes := #[⟨none, .none, #[0]⟩, ⟨none, .none, #[]⟩, ⟨none, .none, #[1]⟩]
  edges := #[⟨0, 2, .consume 1⟩, ⟨2, 1, .consume 0⟩]

/-- A second word, from the end of the first one to itself, takes two more nodes. -/
theorem Assembly.literal_adds_one_spelling_again :
    let builder := ({} : Builder).performAll Declaration.spelledWord
    let after := ((literal 0 1 "bab" 1).run builder).2
    builder.IsAssembled ∧ builder.rules[0]? = some .spelledWord ∧
      1 < Rule.spelledWord.nodes.size ∧
      ∃ (extended : Rule) (first : Edge) (steps : Path),
        after.rules = builder.rules.setIfInBounds 0 extended ∧ extended.nodes.size = 5 ∧
        extended.nodes[1]? = some ⟨none, .none, #[2]⟩ ∧ extended.edges[2]? = some first ∧
        Excursion after.toGraph (Frame.IsBeyond 0 3) [⟨0, 1⟩] (first.step :: steps) ['b', 'a', 'b']
          [⟨0, 1⟩] := by
  intro builder after
  have assembled : builder.IsAssembled := Builder.IsAssembled.empty.performAll (by decide)
  have rule_eq : builder.rules[0]? = some .spelledWord := by decide
  have inside : 1 < Rule.spelledWord.nodes.size := by decide
  rcases literal_adds_one_spelling assembled rule_eq inside inside "bab" with
    ⟨extended, _, rules_eq, _, _, _, nodes_size, _, _, node_eq, _, runs⟩
  rcases runs (by decide) with ⟨first, following, first_eq, _, _, excursion_iff⟩
  refine ⟨assembled, rule_eq, inside, extended, first, _, rules_eq, nodes_size, ?_, first_eq,
    (excursion_iff [] _ _ _).mpr ⟨rfl, rfl, rfl⟩⟩
  exact node_eq 1 _ rfl

end Spelling

end StreamGrammar
