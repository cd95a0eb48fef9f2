import StreamGrammar.Proofs.Resolution
import StreamGrammar.Proofs.SoundGraphs
import StreamGrammar.Proofs.WayOrder

/-!
# Which edges are listed

An edge counts only if the node that it leaves lists it. Declaring an edge lists it at
once, and so misses a node that is declared later. Here we follow all declarations and
keep account of the edges that were declared too early for that. Each of the others is
listed where it leaves, once and in the order of declaration, and begins something that
is decided there. The early ones are never listed and are no fault either, since all
references are checked only when every node has been declared.
-/

namespace StreamGrammar

namespace Builder

def perform (builder : Builder) (declaration : Declaration) : Builder :=
  (declaration.perform.run builder).2

def performAll (builder : Builder) (declarations : List Declaration) : Builder :=
  declarations.foldl perform builder

/-- Each of the declarations adds to a rule that was declared before. -/
def Accepts : Builder → List Declaration → Prop
  | _, [] => True
  | builder, declaration :: rest =>
      (∀ rule ∈ declaration.rule?, rule < builder.rules.size) ∧
        Accepts (builder.perform declaration) rest

instance decidableAccepts : (builder : Builder) → (declarations : List Declaration) →
    Decidable (builder.Accepts declarations)
  | _, [] => .isTrue trivial
  | builder, declaration :: rest =>
      have := decidableAccepts (builder.perform declaration) rest
      inferInstanceAs (Decidable (_ ∧ _))

theorem IsAssembled.performAll {builder : Builder} (assembled : builder.IsAssembled)
    {declarations : List Declaration} (accepted : builder.Accepts declarations) :
    (builder.performAll declarations).IsAssembled := by
  induction declarations generalizing builder with
  | nil => exact assembled
  | cons declaration rest ih => exact ih (assembled.declare declaration accepted.1) accepted.2

/-- The edge that a rule is given next, unless the node that it leaves is among the first `nodes`
ones. -/
def earlyEdge? (builder : Builder) (rule : RuleId) (source : NodeId) (nodes : Nat) :
    Option (RuleId × EdgeId) :=
  if nodes ≤ source then some (rule, builder.edgeCount rule) else none

end Builder

/-- The edge that a declaration adds before the node that it leaves was declared. A text adds
several edges, but those after the first one leave nodes that are declared with them. -/
def Declaration.earlyEdge? (builder : Builder) : Declaration → Option (RuleId × EdgeId)
  | .edge id source _ _ | .charEdge id source _ _ =>
      builder.earlyEdge? id source (builder.nodeCount id)
  | .literal id source text target =>
      match text.toList with
      | [] => if source = target then none else builder.earlyEdge? id source (builder.nodeCount id)
      | [_] => builder.earlyEdge? id source (builder.nodeCount id)
      | _ => builder.earlyEdge? id source (builder.nodeCount id + 1)
  | _ => none

/-- The edges that declarations add before the nodes that they leave were declared. -/
def Builder.earlyEdges : Builder → List Declaration → List (RuleId × EdgeId)
  | _, [] => []
  | builder, declaration :: rest =>
      (declaration.earlyEdge? builder).toList ++ (builder.perform declaration).earlyEdges rest

namespace Rule

/-- The edges that leave a node, in order of declaration, whether they are listed or not. -/
def edgesFrom (rule : Rule) (node : NodeId) : List EdgeId :=
  (List.range rule.edges.size).filter fun edge => rule.edges[edge]?.any (·.source == node)

theorem mem_edgesFrom_iff {rule : Rule} {node : NodeId} {edge : EdgeId} :
    edge ∈ rule.edgesFrom node ↔ ∃ found, rule.edges[edge]? = some found ∧ found.source = node := by
  simp only [edgesFrom, List.mem_filter, List.mem_range, Option.any_eq_true, beq_iff_eq]
  refine and_iff_right_of_imp ?_
  rintro ⟨found, found_eq, _⟩
  exact (Array.getElem?_eq_some_iff.mp found_eq).1

theorem edgesFrom_addEdge (rule : Rule) (added : Edge) (node : NodeId) :
    (rule.addEdge added).edgesFrom node =
      rule.edgesFrom node ++ if added.source = node then [rule.edges.size] else [] := by
  have older : ∀ edge ∈ List.range rule.edges.size,
      (rule.edges.push added)[edge]? = rule.edges[edge]? := by
    intro edge edge_mem
    rw [Array.getElem?_push, if_neg (Nat.ne_of_lt (List.mem_range.mp edge_mem))]
  simp only [edgesFrom, Rule.addEdge, Array.size_push, List.range_succ, List.filter_append]
  refine congrArg₂ (· ++ ·) (List.filter_congr fun edge edge_mem => by rw [older edge edge_mem]) ?_
  by_cases same : added.source = node <;> simp [same]

/-- The nodes of the rule list the edges that leave them, all but the early ones. Those are edges of
the rule too, and an edge is among them if it leaves a node that was not declared yet. -/
structure ListsAllBut (rule : Rule) (id : RuleId) (early : List (RuleId × EdgeId)) : Prop where
  lists : ∀ node found, rule.nodes[node]? = some found →
    found.edges.toList = (rule.edgesFrom node).filter fun edge => (id, edge) ∉ early
  known : ∀ edge, (id, edge) ∈ early → edge < rule.edges.size
  beyond : ∀ edge found, rule.edges[edge]? = some found → rule.nodes.size ≤ found.source →
    (id, edge) ∈ early

namespace ListsAllBut

variable {rule : Rule} {id : RuleId} {early : List (RuleId × EdgeId)}

theorem addNode (lists : rule.ListsAllBut id early) {added : Node} (fresh : added.edges = #[]) :
    (rule.addNode added).ListsAllBut id early where
  lists node found found_eq := by
    rw [Rule.addNode, Array.getElem?_push] at found_eq
    split at found_eq
    next last =>
      -- Whatever leaves the new node was declared before it.
      obtain rfl := Option.some.inj found_eq
      rw [fresh, eq_comm, List.filter_eq_nil_iff]
      intro edge edge_mem
      rcases mem_edgesFrom_iff.mp edge_mem with ⟨leaving, leaving_eq, source_eq⟩
      simpa using lists.beyond edge leaving leaving_eq (source_eq.trans last).ge
    next => exact lists.lists node found found_eq
  known := lists.known
  beyond edge found found_eq missing := by
    refine lists.beyond edge found found_eq (Nat.le_of_succ_le ?_)
    simpa [Rule.addNode] using missing

/-- An edge is listed if the node that it leaves was declared before. -/
theorem addEdge (lists : rule.ListsAllBut id early) {added : Edge}
    (declared : added.source < rule.nodes.size) : (rule.addEdge added).ListsAllBut id early where
  lists node found found_eq := by
    have unknown : (id, rule.edges.size) ∉ early := fun isEarly =>
      Nat.lt_irrefl _ (lists.known _ isEarly)
    rw [edgesFrom_addEdge, List.filter_append]
    rw [Rule.addEdge, Array.getElem?_modify] at found_eq
    split at found_eq
    next same =>
      rcases Option.map_eq_some_iff.mp found_eq with ⟨old, old_eq, rfl⟩
      simp [lists.lists node old old_eq, same, unknown]
    next differs => simp [lists.lists node found found_eq, differs]
  known edge isEarly := by
    simpa [Rule.addEdge] using Nat.lt_succ_of_lt (lists.known edge isEarly)
  beyond edge found found_eq missing := by
    simp only [Rule.addEdge, Array.size_modify, Array.getElem?_push] at found_eq missing
    split at found_eq
    next =>
      obtain rfl := Option.some.inj found_eq
      exact absurd declared (Nat.not_lt_of_le missing)
    next => exact lists.beyond edge found found_eq missing

/-- An edge is early if the node that it leaves was not declared before. -/
theorem addEarlyEdge (lists : rule.ListsAllBut id early) {added : Edge}
    (undeclared : rule.nodes.size ≤ added.source) :
    (rule.addEdge added).ListsAllBut id (early ++ [(id, rule.edges.size)]) where
  lists node found found_eq := by
    rw [Rule.addEdge, Array.getElem?_modify] at found_eq
    have differs : added.source ≠ node := by
      rintro rfl
      simp [undeclared] at found_eq
    rw [if_neg differs] at found_eq
    rw [lists.lists node found found_eq, edgesFrom_addEdge, if_neg differs, List.append_nil]
    refine List.filter_congr fun edge edge_mem => ?_
    rcases mem_edgesFrom_iff.mp edge_mem with ⟨leaving, leaving_eq, _⟩
    have older : edge ≠ rule.edges.size :=
      Nat.ne_of_lt (Array.getElem?_eq_some_iff.mp leaving_eq).1
    simp [older]
  known edge isEarly := by
    simp only [Rule.addEdge, Array.size_push]
    rcases List.mem_append.mp isEarly with before | added_mem
    · exact Nat.lt_succ_of_lt (lists.known edge before)
    · cases List.mem_singleton.mp added_mem
      exact Nat.lt_succ_self _
  beyond edge found found_eq missing := by
    simp only [Rule.addEdge, Array.size_modify, Array.getElem?_push] at found_eq missing
    split at found_eq
    next last => simp [last]
    next => exact List.mem_append_left _ (lists.beyond edge found found_eq missing)

theorem mem_outgoing {graph : Graph} (lists : rule.ListsAllBut id early)
    (rule_eq : graph.rules[id]? = some rule) {edge : EdgeId} {leaving : Edge}
    (leaving_eq : rule.edges[edge]? = some leaving) (declared : leaving.source < rule.nodes.size)
    (onTime : (id, edge) ∉ early) : leaving ∈ graph.outgoing ⟨id, leaving.source⟩ := by
  have node_eq := Array.getElem?_eq_getElem declared
  have listed : edge ∈ rule.nodes[leaving.source].edges.toList := by
    rw [lists.lists _ _ node_eq, List.mem_filter]
    exact ⟨mem_edgesFrom_iff.mpr ⟨leaving, leaving_eq, rfl⟩, decide_eq_true onTime⟩
  simp only [Graph.outgoing, rule_eq, Rule.outgoing, node_eq]
  exact List.mem_filterMap.mpr ⟨edge, listed, leaving_eq⟩

/-- Early edges of other rules do not matter. -/
theorem append (lists : rule.ListsAllBut id early) {further : List (RuleId × EdgeId)}
    (others : ∀ edge, (id, edge) ∉ further) : rule.ListsAllBut id (early ++ further) := by
  have same : ∀ edge, (id, edge) ∈ early ++ further ↔ (id, edge) ∈ early := by
    intro edge
    simp [others edge]
  refine ⟨?_, ?_, ?_⟩
  · simpa only [same] using lists.lists
  · simpa only [same] using lists.known
  · simpa only [same] using lists.beyond

end ListsAllBut

end Rule

namespace Builder

variable {builder other : Builder} {id : RuleId} {early : List (RuleId × EdgeId)}

theorem nodeCount_eq {rule : Rule} (rule_eq : builder.rules[id]? = some rule) :
    builder.nodeCount id = rule.nodes.size := by
  simp [nodeCount, rule_eq]

theorem edgeCount_eq {rule : Rule} (rule_eq : builder.rules[id]? = some rule) :
    builder.edgeCount id = rule.edges.size := by
  simp [edgeCount, rule_eq]

@[simp]
theorem size_rules_modifyRule (change : Rule → Rule) :
    (builder.modifyRule id change).rules.size = builder.rules.size :=
  Array.size_modify

theorem nodeCount_addNode (inside : id < builder.rules.size) (added : Node) :
    (builder.modifyRule id (·.addNode added)).nodeCount id = builder.nodeCount id + 1 := by
  have rule_eq := Array.getElem?_eq_getElem inside
  have added_eq : (builder.modifyRule id (·.addNode added)).rules[id]? =
      some (builder.rules[id].addNode added) := by
    simp [modifyRule, Array.getElem?_modify, rule_eq]
  rw [nodeCount_eq rule_eq, nodeCount_eq added_eq]
  exact Array.size_push added

theorem nodeCount_addEdge (added : Edge) :
    (builder.modifyRule id (·.addEdge added)).nodeCount id = builder.nodeCount id := by
  simp only [nodeCount, modifyRule, Array.getElem?_modify, if_true]
  cases builder.rules[id]? <;> simp [Rule.addEdge]

theorem edgeCount_addNode (added : Node) :
    (builder.modifyRule id (·.addNode added)).edgeCount id = builder.edgeCount id := by
  simp only [edgeCount, modifyRule, Array.getElem?_modify, if_true]
  cases builder.rules[id]? <;> simp [Rule.addNode]

theorem nodeCount_congr (rules_eq : other.rules = builder.rules) :
    other.nodeCount id = builder.nodeCount id := by
  rw [nodeCount, rules_eq, nodeCount]

theorem earlyEdge?_congr (rules_eq : other.rules = builder.rules) (source : NodeId) (nodes : Nat) :
    other.earlyEdge? id source nodes = builder.earlyEdge? id source nodes := by
  rw [earlyEdge?, edgeCount, rules_eq, earlyEdge?, edgeCount]

theorem lt_of_lt_nodeCount {node : NodeId} (declared : node < builder.nodeCount id) :
    id < builder.rules.size := by
  rw [nodeCount] at declared
  split at declared
  next rule rule_eq => exact (Array.getElem?_eq_some_iff.mp rule_eq).1
  next => cases declared

/-- Whatever rules there are list their edges, all but the early ones, which are of those rules. -/
structure ListsAllBut (builder : Builder) (early : List (RuleId × EdgeId)) : Prop where
  lists : ∀ id (rule : Rule), builder.rules[id]? = some rule → rule.ListsAllBut id early
  known : ∀ id edge, (id, edge) ∈ early → id < builder.rules.size

namespace ListsAllBut

theorem empty : ListsAllBut {} [] where
  lists id rule rule_eq := by simp at rule_eq
  known id edge isEarly := by cases isEarly

theorem of_rules_eq (lists : builder.ListsAllBut early) (rules_eq : other.rules = builder.rules) :
    other.ListsAllBut early := by
  refine ⟨?_, ?_⟩
  · rw [rules_eq]
    exact lists.lists
  · rw [rules_eq]
    exact lists.known

/-- An edge that leaves one of the nodes is not early. -/
theorem of_declared {source nodes : Nat}
    (lists : other.ListsAllBut (early ++ (builder.earlyEdge? id source nodes).toList))
    (declared : source < nodes) : other.ListsAllBut early := by
  rwa [earlyEdge?, if_neg (Nat.not_le_of_lt declared), Option.toList_none,
    List.append_nil] at lists

theorem modifyRule (lists : builder.ListsAllBut early) {change : Rule → Rule}
    {further : List (RuleId × EdgeId)} (own : ∀ entry ∈ further, entry.1 = id)
    (inside : id < builder.rules.size)
    (keeps : ∀ rule : Rule, builder.rules[id]? = some rule →
      (change rule).ListsAllBut id (early ++ further)) :
    (builder.modifyRule id change).ListsAllBut (early ++ further) where
  lists other rule rule_eq := by
    rw [Builder.modifyRule, Array.getElem?_modify] at rule_eq
    split at rule_eq
    next same =>
      subst same
      rcases Option.map_eq_some_iff.mp rule_eq with ⟨old, old_eq, rfl⟩
      exact keeps old old_eq
    next differs =>
      exact (lists.lists other rule rule_eq).append fun edge edge_mem =>
        differs (own _ edge_mem).symm
  known other edge isEarly := by
    simp only [Builder.modifyRule, Array.size_modify]
    rcases List.mem_append.mp isEarly with before | further_mem
    · exact lists.known other edge before
    · rw [show other = id from own _ further_mem]
      exact inside

/-- A rule that is declared has no edges yet. -/
theorem addRule (lists : builder.ListsAllBut early) (name : String) :
    ListsAllBut { builder with rules := builder.rules.push { name } } early where
  lists other rule rule_eq := by
    rw [Array.getElem?_push] at rule_eq
    split at rule_eq
    next last =>
      obtain rfl := Option.some.inj rule_eq
      refine ⟨by simp, ?_, by simp⟩
      intro edge isEarly
      exact absurd (lists.known other edge isEarly) (Nat.not_lt_of_le last.ge)
    next => exact lists.lists other rule rule_eq
  known other edge isEarly := by
    simpa using Nat.lt_succ_of_lt (lists.known other edge isEarly)

theorem addNode (lists : builder.ListsAllBut early) (inside : id < builder.rules.size)
    (added : Node) (fresh : added.edges = #[]) :
    (builder.modifyRule id (·.addNode added)).ListsAllBut early := by
  rw [← List.append_nil early]
  refine lists.modifyRule (by simp) inside fun rule rule_eq => ?_
  rw [List.append_nil]
  exact (lists.lists id rule rule_eq).addNode fresh

theorem addEdge (lists : builder.ListsAllBut early) (inside : id < builder.rules.size)
    (added : Edge) : (builder.modifyRule id (·.addEdge added)).ListsAllBut
      (early ++ (builder.earlyEdge? id added.source (builder.nodeCount id)).toList) := by
  refine lists.modifyRule ?_ inside fun rule rule_eq => ?_
  · intro entry entry_mem
    rw [earlyEdge?] at entry_mem
    split at entry_mem
    next => rw [List.mem_singleton.mp entry_mem]
    next => cases entry_mem
  · rw [earlyEdge?, nodeCount_eq rule_eq, edgeCount_eq rule_eq]
    split
    next undeclared => exact (lists.lists id rule rule_eq).addEarlyEdge undeclared
    next declared =>
      rw [Option.toList_none, List.append_nil]
      exact (lists.lists id rule rule_eq).addEdge (Nat.lt_of_not_le declared)

/-- The early edges are edges nevertheless. -/
theorem exists_rule_of_mem (lists : builder.ListsAllBut early) {edge : EdgeId}
    (isEarly : (id, edge) ∈ early) :
    ∃ rule : Rule, builder.rules[id]? = some rule ∧ edge < rule.edges.size := by
  have rule_eq := Array.getElem?_eq_getElem (lists.known id edge isEarly)
  exact ⟨_, rule_eq, (lists.lists id _ rule_eq).known edge isEarly⟩

/-- Once all nodes are declared that edges leave, every edge is listed unless it was early. -/
theorem lists_all_iff (lists : builder.ListsAllBut early)
    (declared : ∀ (id : RuleId) (rule : Rule), builder.rules[id]? = some rule →
      ∀ edge ∈ rule.edges, edge.source < rule.nodes.size) :
    (∀ (id : RuleId) (rule : Rule), builder.rules[id]? = some rule →
      ∀ node (found : Node), rule.nodes[node]? = some found →
        found.edges.toList = rule.edgesFrom node) ↔ early = [] := by
  constructor
  · intro all
    refine List.eq_nil_iff_forall_not_mem.mpr ?_
    rintro ⟨id, edge⟩ isEarly
    rcases lists.exists_rule_of_mem isEarly with ⟨rule, rule_eq, edge_lt⟩
    have edge_eq := Array.getElem?_eq_getElem edge_lt
    have node_eq := Array.getElem?_eq_getElem
      (declared id rule rule_eq _ (Array.getElem_mem edge_lt))
    have listed := Rule.mem_edgesFrom_iff.mpr ⟨_, edge_eq, rfl⟩
    rw [← all id rule rule_eq _ _ node_eq,
      (lists.lists id rule rule_eq).lists _ _ node_eq] at listed
    exact of_decide_eq_true (List.mem_filter.mp listed).2 isEarly
  · intro none id rule rule_eq node found node_eq
    simp [(lists.lists id rule rule_eq).lists node found node_eq, none]

end ListsAllBut

end Builder

namespace Assembly

variable {builder : Builder} {id : RuleId} {early : List (RuleId × EdgeId)} {source : NodeId}

theorem rules_charMatcher (builder : Builder) (character : Char) :
    ((charMatcher character).run builder).2.rules = builder.rules := by
  simp only [charMatcher, StateT.run_bind, StateT.run_get, pure_bind]
  cases builder.charMatchers.lookup character <;> rfl

theorem nodeCount_charEdge (character : Char) (target : NodeId) :
    ((charEdge id source character target).run builder).2.nodeCount id = builder.nodeCount id :=
  (Builder.nodeCount_addEdge _).trans
    (Builder.nodeCount_congr (rules_charMatcher builder character))

/-- Declaring an edge keeps account of it. -/
theorem listsAllBut_charEdge (lists : builder.ListsAllBut early)
    (inside : id < builder.rules.size) (source : NodeId) (character : Char) (target : NodeId) :
    ((charEdge id source character target).run builder).2.ListsAllBut
      (early ++ (builder.earlyEdge? id source (builder.nodeCount id)).toList) := by
  have rules_eq := rules_charMatcher builder character
  rw [← Builder.nodeCount_congr rules_eq, ← Builder.earlyEdge?_congr rules_eq]
  refine (lists.of_rules_eq rules_eq).addEdge ?_ _
  rw [rules_eq]
  exact inside

/-- The first letter of a longer text leads to a node that is declared for it. -/
theorem listsAllBut_between (lists : builder.ListsAllBut early)
    (inside : id < builder.rules.size) (source : NodeId) (first : Char) :
    let further := ((charEdge id source first (builder.nodeCount id)).run
      ((node id).run builder).2).2
    further.ListsAllBut
      (early ++ (builder.earlyEdge? id source (builder.nodeCount id + 1)).toList) ∧
    further.nodeCount id = builder.nodeCount id + 1 := by
  intro further
  have added := listsAllBut_charEdge (lists.addNode inside {} rfl)
    (by simpa using inside) source first (builder.nodeCount id)
  rw [Builder.nodeCount_addNode inside, Builder.earlyEdge?, Builder.edgeCount_addNode] at added
  exact ⟨added, (nodeCount_charEdge first _).trans (Builder.nodeCount_addNode inside _)⟩

/-- From a node that was declared, a text is spelled without early edges. -/
theorem listsAllBut_spell (lists : builder.ListsAllBut early)
    (declared : source < builder.nodeCount id) (text : List Char) (target : NodeId) :
    ((spell id source text target).run builder).2.ListsAllBut early := by
  have inside := Builder.lt_of_lt_nodeCount declared
  induction text generalizing source builder with
  | nil =>
      rw [spell]
      split
      next => exact lists
      next =>
        exact (lists.addEdge inside ⟨source, target, .goto⟩).of_declared declared
  | cons first rest ih =>
      cases rest with
      | nil =>
          exact (listsAllBut_charEdge lists inside source first target).of_declared declared
      | cons second rest =>
          rcases listsAllBut_between lists inside source first with ⟨added, count_eq⟩
          have between_declared := Nat.lt_of_lt_of_eq (Nat.lt_succ_self _) count_eq.symm
          exact ih (added.of_declared (Nat.lt_succ_of_lt declared)) between_declared
            (Builder.lt_of_lt_nodeCount between_declared)

end Assembly

theorem Builder.ListsAllBut.perform {builder : Builder} {early : List (RuleId × EdgeId)}
    (lists : builder.ListsAllBut early) (declaration : Declaration)
    (declared : ∀ id ∈ declaration.rule?, id < builder.rules.size) :
    (builder.perform declaration).ListsAllBut
      (early ++ (declaration.earlyEdge? builder).toList) := by
  have unchanged {further : Builder} (kept : further.ListsAllBut early) :
      further.ListsAllBut (early ++ (none : Option (RuleId × EdgeId)).toList) := by
    rwa [Option.toList_none, List.append_nil]
  cases declaration with
  | rule name => exact unchanged (lists.addRule name)
  | matcher definition => exact unchanged (lists.of_rules_eq rfl)
  | namedMatcher name definition => exact unchanged (lists.of_rules_eq rfl)
  | charMatcher character =>
      exact unchanged (lists.of_rules_eq (Assembly.rules_charMatcher builder character))
  | node id action => exact unchanged (lists.addNode (declared id rfl) { action } rfl)
  | namedNode id name action =>
      exact unchanged (lists.addNode (declared id rfl) { name := some name, action } rfl)
  | edge id source kind target => exact lists.addEdge (declared id rfl) ⟨source, target, kind⟩
  | charEdge id source character target =>
      exact Assembly.listsAllBut_charEdge lists (declared id rfl) source character target
  | literal id source text target =>
      have inside := declared id rfl
      simp only [Builder.perform, Declaration.perform, Assembly.literal, Declaration.earlyEdge?]
      cases text.toList with
      | nil =>
          rw [Assembly.spell]
          dsimp only
          split
          next => exact unchanged lists
          next => exact lists.addEdge inside ⟨source, target, .goto⟩
      | cons first rest =>
          cases rest with
          | nil => exact Assembly.listsAllBut_charEdge lists inside source first target
          | cons second rest =>
              -- Only the first letter can leave a node that is missing, the others leave new ones.
              rcases Assembly.listsAllBut_between lists inside source first with
                ⟨added, count_eq⟩
              have between_declared := Nat.lt_of_lt_of_eq (Nat.lt_succ_self _) count_eq.symm
              exact Assembly.listsAllBut_spell added between_declared (second :: rest) target

theorem Builder.ListsAllBut.performAll {builder : Builder} {early : List (RuleId × EdgeId)}
    (lists : builder.ListsAllBut early) {declarations : List Declaration}
    (accepted : builder.Accepts declarations) :
    (builder.performAll declarations).ListsAllBut
      (early ++ builder.earlyEdges declarations) := by
  induction declarations generalizing builder early with
  | nil =>
      rw [earlyEdges, List.append_nil]
      exact lists
  | cons declaration rest ih =>
      rw [earlyEdges, ← List.append_assoc]
      exact ih (lists.perform declaration accepted.1) accepted.2

namespace Graph

variable {graph : Graph}

theorem source_lt_of_referenceFaults_eq_nil (faultless : graph.referenceFaults = []) {rule : Rule}
    (rule_mem : rule ∈ graph.rules) {edge : Edge} (edge_mem : edge ∈ rule.edges) :
    edge.source < rule.nodes.size := by
  have ruleFaultless := List.flatMap_eq_nil_iff.mp faultless rule (Array.mem_def.mp rule_mem)
  simp only [ruleFaults, List.append_eq_nil_iff] at ruleFaultless
  have edgeFaultless :=
    List.flatMap_eq_nil_iff.mp ruleFaultless.2 edge (Array.mem_def.mp edge_mem)
  simp only [edgeFaults, List.append_eq_nil_iff, List.map_eq_nil_iff, List.filter_eq_nil_iff,
    decide_eq_true_eq, Nat.not_le] at edgeFaultless
  exact edgeFaultless.1 edge.source (by simp)

theorem EdgeWays.head?_steps {waysFrom : Place → List Way → Prop} {place : Place} {edge : Edge}
    {ways : List Way} (edgeWays : EdgeWays waysFrom place edge ways) {way : Way}
    (way_mem : way ∈ ways) : way.steps.head? = some edge.step := by
  cases edgeWays with
  | consume kind_eq =>
      rw [List.mem_singleton.mp way_mem]
      simp [Way.steps, Edge.step, kind_eq]
  | goto kind_eq =>
      rcases List.mem_map.mp way_mem with ⟨rest, _, rfl⟩
      simp [Edge.step, kind_eq]
  | call kind_eq =>
      rcases List.mem_map.mp way_mem with ⟨rest, _, rfl⟩
      simp [Edge.step, kind_eq]

/-- Whatever edge is listed at a node begins some way to go on from it. -/
theorem exists_way_of_mem_outgoing {place : Place} {ways : List Way}
    (found : graph.ways place = .ok ways) {edge : Edge}
    (edge_mem : edge ∈ graph.outgoing place.top) :
    ∃ way ∈ ways, way.steps.head? = some edge.step := by
  rcases waysWithin_succ_ok found with
    ⟨none, _⟩ | ⟨_, _, _, none, _⟩ | ⟨list, rfl, _, edgeWays⟩
  · simp [none] at edge_mem
  · simp [none] at edge_mem
  · have edge_ways := edgeWays edge edge_mem
    rcases List.exists_mem_of_ne_nil _ (edge_ways.ne_nil waysWithin_ne_nil) with ⟨way, way_mem⟩
    exact ⟨way, List.mem_flatMap.mpr ⟨edge, edge_mem, way_mem⟩, edge_ways.head?_steps way_mem⟩

/-- The edge takes part in what is decided at a node: a path begins with it, or a way to leave the
rule does, and the rule can be left there. -/
def TakesPart (graph : Graph) (frame : Frame) (routes : Routes) (edge : Edge) : Prop :=
  (∃ path ∈ routes.paths, path.head? = some edge.step) ∨
    routes.exit.isSome = true ∧
      ∃ steps, (Way.leaving (edge.step :: steps)).IsTakenFrom graph { top := frame }

theorem Settles.takesPart {limits : ResolutionLimits} {frame : Frame} {ways : List Way}
    {division : Division} {routes : Routes}
    (settles : graph.Settles limits frame ways division routes) {edge : Edge}
    (edge_mem : edge ∈ graph.outgoing frame) : graph.TakesPart frame routes edge := by
  rcases exists_way_of_mem_outgoing settles.ways_eq edge_mem with ⟨way, way_mem, begins⟩
  have taken := (mem_ways_iff settles.ways_eq).mp way_mem
  cases way with
  | consuming path matcher next =>
      exact .inl ⟨path, settles.path_mem_iff.mpr ⟨matcher, next, taken⟩, begins⟩
  | leaving path =>
      refine .inr ⟨?_, ?_⟩
      · by_contra missing
        rw [Option.not_isSome_iff_eq_none] at missing
        exact settles.not_isTakenFrom_of_exit_none missing path taken
      · rcases List.head?_eq_some_iff.mp begins with ⟨steps, rfl⟩
        exact ⟨steps, taken⟩

end Graph

theorem Grammar.IsResolved.exists_takesPart {grammar : Grammar} {limits : ResolutionLimits}
    (resolved : grammar.IsResolved limits) {frame : Frame} {edge : Edge}
    (edge_mem : edge ∈ grammar.outgoing frame) :
    ∃ routes, grammar.routes? frame = some routes ∧ grammar.TakesPart frame routes edge := by
  rcases resolved.decided frame with ⟨none, _⟩ | ⟨_, routes, _, _, routes_eq, settles⟩
  · simp [none] at edge_mem
  · exact ⟨routes, routes_eq, settles.takesPart edge_mem⟩

/-- In a grammar that was built, every node lists the edges that leave it, each once and in the
order of declaration, except for those that were declared before the node. What it lists takes part
in what is decided there. The nodes that the others leave exist as well in the end, so that nothing
is wrong with those edges, and they are not listed anywhere. So all edges are listed exactly if none
was declared too early. -/
theorem Builder.edges_are_listed_unless_early {declarations : List Declaration}
    (accepted : ({} : Builder).Accepts declarations) {config : GrammarConfig} {grammar : Grammar}
    (built : ((({} : Builder).performAll declarations).toGraph.build config).result = .ok grammar) :
    let early := ({} : Builder).earlyEdges declarations
    (∀ id (rule : Rule), grammar.rules[id]? = some rule →
      (∀ node found, rule.nodes[node]? = some found →
        found.edges.toList = (rule.edgesFrom node).filter fun edge => (id, edge) ∉ early) ∧
      ∀ edge leaving, rule.edges[edge]? = some leaving →
        leaving.source < rule.nodes.size ∧
        ((id, edge) ∉ early → ∃ routes, grammar.routes? ⟨id, leaving.source⟩ = some routes ∧
          grammar.TakesPart ⟨id, leaving.source⟩ routes leaving)) ∧
    (∀ id edge, (id, edge) ∈ early →
      ∃ rule : Rule, grammar.rules[id]? = some rule ∧ edge < rule.edges.size) ∧
    ((∀ (id : RuleId) (rule : Rule), grammar.rules[id]? = some rule →
      ∀ node (found : Node), rule.nodes[node]? = some found →
        found.edges.toList = rule.edgesFrom node) ↔ early = []) := by
  intro early
  rcases Graph.build_eq_ok_iff.mp built with ⟨faultless, _⟩
  simp only [Graph.initialFaults, Graph.faults, List.append_eq_nil_iff] at faultless
  rcases Graph.build_ok built with ⟨graph_eq, resolved⟩
  have lists : (({} : Builder).performAll declarations).ListsAllBut early :=
    ListsAllBut.empty.performAll accepted
  have declared : ∀ (id : RuleId) (rule : Rule),
      (({} : Builder).performAll declarations).rules[id]? = some rule →
        ∀ edge ∈ rule.edges, edge.source < rule.nodes.size := fun id rule rule_eq edge edge_mem =>
    Graph.source_lt_of_referenceFaults_eq_nil faultless.1.2.2 (Array.mem_of_getElem? rule_eq)
      edge_mem
  refine ⟨?_, ?_, ?_⟩
  · intro id rule rule_eq
    have ruleLists : rule.ListsAllBut id early := lists.lists id rule (graph_eq ▸ rule_eq)
    refine ⟨ruleLists.lists, fun edge leaving leaving_eq => ?_⟩
    have source_lt := declared id rule (graph_eq ▸ rule_eq) leaving
      (Array.mem_of_getElem? leaving_eq)
    refine ⟨source_lt, fun onTime => ?_⟩
    exact resolved.exists_takesPart (ruleLists.mem_outgoing rule_eq leaving_eq source_lt onTime)
  · intro id edge isEarly
    rw [graph_eq]
    exact lists.exists_rule_of_mem isEarly
  · rw [graph_eq]
    exact lists.lists_all_iff declared

/-- A rule for two texts, in which the node in the middle of the first one is declared last. -/
def Declaration.lateNode : List Declaration :=
  [.rule "main", .node 0 .none, .node 0 .none, .charEdge 0 0 'a' 2, .charEdge 0 2 'b' 1,
    .charEdge 0 0 'c' 1, .node 0 .none]

/-- The graph that these declarations assemble. -/
def Graph.lateNode : Graph := (({} : Builder).performAll Declaration.lateNode).toGraph

theorem Graph.build_lateNode :
    (lateNode.build ⟨"main", 1, false⟩).result =
      .ok (lateNode.builtGrammar ⟨"main", 1, false⟩) := by
  apply build_eq_builtGrammar
  decide +kernel

/-- The other edges are listed, and the two that leave the entry take part in what is decided
there. -/
theorem Builder.edges_are_listed_unless_early_lateNode :
    ({} : Builder).Accepts Declaration.lateNode ∧
    ({} : Builder).earlyEdges Declaration.lateNode = [(0, 1)] ∧
    ∃ grammar, (Graph.lateNode.build ⟨"main", 1, false⟩).result = .ok grammar ∧
      ∃ routes, grammar.routes? ⟨0, 0⟩ = some routes ∧
        Graph.lateNode.TakesPart ⟨0, 0⟩ routes ⟨0, 1, .consume 2⟩ := by
  have accepted : ({} : Builder).Accepts Declaration.lateNode := by decide
  have early_eq : ({} : Builder).earlyEdges Declaration.lateNode = [(0, 1)] := by decide
  have graph_eq : (Graph.lateNode.builtGrammar ⟨"main", 1, false⟩).toGraph = .lateNode :=
    (Graph.build_ok Graph.build_lateNode).1
  rcases Builder.edges_are_listed_unless_early accepted Graph.build_lateNode with ⟨listed, _⟩
  rw [early_eq, graph_eq] at listed
  refine ⟨accepted, early_eq, _, Graph.build_lateNode, ?_⟩
  exact ((listed 0 _ rfl).2 2 ⟨0, 1, .consume 2⟩ rfl).2 (by decide)

/-- The rule that it consists of. -/
def Rule.lateNode : Rule where
  name := "main"
  nodes := #[⟨none, .none, #[0, 2]⟩, ⟨none, .none, #[]⟩, ⟨none, .none, #[]⟩]
  edges := #[⟨0, 2, .consume 0⟩, ⟨2, 1, .consume 1⟩, ⟨0, 1, .consume 2⟩]

/-- The middle node exists in the end and an edge leaves it, but it lists none. So the rule can end
there, and nothing is reported. -/
theorem Builder.early_edge_is_not_listed :
    ({} : Builder).Accepts Declaration.lateNode ∧
    ∃ grammar, (Graph.lateNode.build ⟨"main", 1, false⟩).result = .ok grammar ∧
      grammar.rules = #[.lateNode] ∧
      Rule.lateNode.edgesFrom 2 = [1] ∧ Rule.lateNode.nodes[2]? = some ⟨none, .none, #[]⟩ ∧
      grammar.routes? ⟨0, 2⟩ = none ∧
      ∀ record ∈ (Graph.lateNode.build ⟨"main", 1, false⟩).log, record.level ≠ .warn := by
  have graph_eq : (Graph.lateNode.builtGrammar ⟨"main", 1, false⟩).toGraph = .lateNode :=
    (Graph.build_ok Graph.build_lateNode).1
  refine ⟨by decide, _, Graph.build_lateNode, ?_, ?_⟩
  · rw [graph_eq]
    rfl
  · decide +kernel

end StreamGrammar
