import Mathlib.Data.List.Nodup
import Mathlib.Data.List.Perm.Subperm
import StreamGrammar.Proofs.SoundGraphs

/-!
# What can be reached

The records on what cannot be reached come from two searches, one of them inside the
other: the rules that are met are searched, and each of them by searching the nodes that
are met from its entry. Here both searches are taken without a bound on their steps, and
shown to end where the references of the graph lead somewhere, since no step is about
anything that an earlier step was about. What they have met by then is exactly what is
live. So each node and each rule that is not live is reported, and that once.
-/

namespace StreamGrammar

/-- The rule that an edge calls. -/
def Edge.callee? (edge : Edge) : Option RuleId :=
  match edge.kind with
  | .call callee => some callee
  | _ => none

theorem Edge.callee?_eq_some_iff {edge : Edge} {callee : RuleId} :
    edge.callee? = some callee ↔ edge.kind = .call callee := by
  cases kind_eq : edge.kind <;> simp [callee?, kind_eq]

/-- A chain of listed edges leads to the node from the entry of its rule. -/
inductive Rule.IsLive (rule : Rule) : NodeId → Prop
  | entry : IsLive rule Rule.entry
  | follows {node : NodeId} {edge : Edge} (live : IsLive rule node)
      (edge_mem : edge ∈ rule.outgoing node) : IsLive rule edge.target

/-- An edge out of a live node calls the other rule. -/
def Rule.Calls (rule : Rule) (callee : RuleId) : Prop :=
  ∃ node edge, rule.IsLive node ∧ edge ∈ rule.outgoing node ∧ edge.kind = .call callee

namespace Graph

/-- The rule is the start rule, or a live rule calls it. -/
inductive IsLive (graph : Graph) (start : RuleId) : RuleId → Prop
  | start : IsLive graph start start
  | called {caller callee : RuleId} {rule : Rule} (live : IsLive graph start caller)
      (rule_eq : graph.rules[caller]? = some rule) (calls : rule.Calls callee) :
      IsLive graph start callee

namespace Visited

variable {visited : Visited} {members : List Nat} {member other : Nat}

/-- What was met and does not wait any more. -/
def IsSearched (visited : Visited) (member : Nat) : Prop :=
  member ∈ visited.met ∧ member ∉ visited.waiting

/-- Nothing was met twice, and only what was met waits. -/
structure IsTidy (visited : Visited) : Prop where
  nodup : visited.met.Nodup
  waits : visited.waiting.Sublist visited.met

/-- Notes some members, one after the other. -/
def meetAll (visited : Visited) (members : List Nat) : Visited :=
  members.foldl meet visited

theorem mem_met_meet : other ∈ (visited.meet member).met ↔
    other = member ∨ other ∈ visited.met := by
  rw [meet]
  split
  next known =>
    have met : member ∈ visited.met := by simpa using known
    refine ⟨.inr, ?_⟩
    rintro (rfl | found)
    · exact met
    · exact found
  next => exact List.mem_cons

theorem mem_met_meetAll : other ∈ (visited.meetAll members).met ↔
    other ∈ members ∨ other ∈ visited.met := by
  induction members generalizing visited with
  | nil => simp [meetAll]
  | cons first rest ih =>
      rw [meetAll, List.foldl_cons, ← meetAll, ih, mem_met_meet, List.mem_cons]
      exact or_left_comm.trans or_assoc.symm

/-- What is met for the first time has still to be searched. -/
theorem isSearched_meet_iff : (visited.meet member).IsSearched other ↔
    visited.IsSearched other := by
  rw [meet]
  split
  next => exact Iff.rfl
  next unknown =>
    have fresh : member ∉ visited.met := by simpa using unknown
    simp only [IsSearched, List.mem_cons, not_or]
    constructor
    · rintro ⟨rfl | met, differs, searched⟩
      · exact absurd rfl differs
      · exact ⟨met, searched⟩
    · rintro ⟨met, searched⟩
      exact ⟨.inr met, fun same => fresh (same ▸ met), searched⟩

theorem isSearched_meetAll_iff : (visited.meetAll members).IsSearched other ↔
    visited.IsSearched other := by
  induction members generalizing visited with
  | nil => exact Iff.rfl
  | cons first rest ih => exact ih.trans isSearched_meet_iff

namespace IsTidy

theorem meet (tidy : visited.IsTidy) (member : Nat) : (visited.meet member).IsTidy := by
  rw [Visited.meet]
  split
  next => exact tidy
  next unknown =>
    have fresh : member ∉ visited.met := by simpa using unknown
    exact ⟨List.nodup_cons.mpr ⟨fresh, tidy.nodup⟩, tidy.waits.cons_cons member⟩

theorem meetAll (tidy : visited.IsTidy) (members : List Nat) :
    (visited.meetAll members).IsTidy := by
  induction members generalizing visited with
  | nil => exact tidy
  | cons first rest ih => exact ih (tidy.meet first)

theorem next {waiting : List Nat} (tidy : visited.IsTidy)
    (waiting_eq : visited.waiting = member :: waiting) : IsTidy ⟨visited.met, waiting⟩ := by
  refine ⟨tidy.nodup, ?_⟩
  have waits := tidy.waits
  rw [waiting_eq] at waits
  exact (List.sublist_cons_self member waiting).trans waits

/-- What was met and is below a bound is not more than the bound. -/
theorem length_le {bound : Nat} (tidy : visited.IsTidy)
    (below : ∀ member ∈ visited.met, member < bound) : visited.met.length ≤ bound := by
  have among : visited.met ⊆ List.range bound := fun member member_mem =>
    List.mem_range.mpr (below member member_mem)
  simpa using (tidy.nodup.subperm among).length_le

end IsTidy

/-- As much more waits as was met for the first time. -/
theorem length_meetAll (visited : Visited) (members : List Nat) :
    (visited.meetAll members).met.length + visited.waiting.length =
      (visited.meetAll members).waiting.length + visited.met.length := by
  induction members generalizing visited with
  | nil => exact Nat.add_comm _ _
  | cons first rest ih =>
      have further := ih (visited.meet first)
      rw [meetAll, List.foldl_cons, ← meetAll]
      simp only [meet] at further ⊢
      split at further
      next known =>
        rw [if_pos known]
        exact further
      next unknown =>
        rw [if_neg unknown]
        simp only [List.length_cons] at further
        omega

end Visited

/-- Following edges is meeting what they call and where they lead. -/
theorem foldl_followEdge (edges : List Edge) (rules nodes : Visited) :
    edges.foldl followEdge (rules, nodes) =
      (rules.meetAll (edges.filterMap Edge.callee?), nodes.meetAll (edges.map Edge.target)) := by
  induction edges generalizing rules nodes with
  | nil => rfl
  | cons edge rest ih =>
      rw [List.foldl_cons, followEdge, ih, List.filterMap_cons, List.map_cons, Edge.callee?]
      cases edge.kind <;> rfl

/-- The search of the nodes of a rule, for as many steps as it takes, ends with the result: the
rules that were met, and the nodes. -/
inductive SearchesNodes (rule : Rule) : (rules nodes : Visited) → Visited × List NodeId → Prop
  | ends {rules nodes : Visited} (nothing : nodes.waiting = []) :
      SearchesNodes rule rules nodes (rules, nodes.met)
  | goesOn {rules nodes furtherRules furtherNodes : Visited} {node : NodeId}
      {waiting : List NodeId} {result : Visited × List NodeId}
      (waiting_eq : nodes.waiting = node :: waiting)
      (followed : (rule.outgoing node).foldl followEdge (rules, ⟨nodes.met, waiting⟩) =
        (furtherRules, furtherNodes))
      (rest : SearchesNodes rule furtherRules furtherNodes result) :
      SearchesNodes rule rules nodes result

/-- The search of the rules, for as many steps as it takes, ends with what it finds. -/
inductive SearchesRules (graph : Graph) : Visited → Reached → Prop
  | ends {rules : Visited} (nothing : rules.waiting = []) :
      SearchesRules graph rules { rules := rules.met }
  | goesOn {rules further : Visited} {id : RuleId} {waiting : List RuleId} {rule : Rule}
      {live : List NodeId} {reached : Reached} (waiting_eq : rules.waiting = id :: waiting)
      (rule_eq : graph.rules[id]? = some rule)
      (searches : SearchesNodes rule ⟨rules.met, waiting⟩ ⟨[Rule.entry], [Rule.entry]⟩
        (further, live))
      (rest : SearchesRules graph further reached) :
      SearchesRules graph rules { reached with nodes := (id, live) :: reached.nodes }

section Nodes

variable {rule : Rule} {begun rules nodes further : Visited} {live : List NodeId}

/-- The steps that are allowed for suffice, since each of them searches another node. -/
theorem searchesNodes_searchNodes
    (inside : ∀ node, ∀ edge ∈ rule.outgoing node, edge.target < rule.nodes.size) {steps : Nat}
    (tidy : nodes.IsTidy) (below : ∀ node ∈ nodes.met, node < rule.nodes.size)
    (enough : rule.nodes.size + nodes.waiting.length ≤ steps + nodes.met.length) :
    SearchesNodes rule rules nodes (searchNodes rule steps rules nodes) := by
  induction steps generalizing rules nodes with
  | zero =>
      have length_le := tidy.length_le below
      exact .ends (List.length_eq_zero_iff.mp (by omega))
  | succ steps ih =>
      cases waiting_eq : nodes.waiting with
      | nil =>
          simp only [searchNodes, waiting_eq]
          exact .ends waiting_eq
      | cons node waiting =>
          simp only [searchNodes, waiting_eq]
          refine .goesOn waiting_eq rfl (ih ?_ ?_ ?_)
          · rw [foldl_followEdge]
            exact (tidy.next waiting_eq).meetAll _
          · rw [foldl_followEdge]
            intro member member_mem
            rcases Visited.mem_met_meetAll.mp member_mem with target_mem | met
            · rcases List.mem_map.mp target_mem with ⟨edge, edge_mem, rfl⟩
              exact inside node edge edge_mem
            · exact below member met
          · have length_eq := Visited.length_meetAll ⟨nodes.met, waiting⟩
              ((rule.outgoing node).map Edge.target)
            rw [foldl_followEdge]
            rw [waiting_eq, List.length_cons] at enough
            simp only at length_eq ⊢
            omega

/-- How far the search of a rule has come that began with some rules met: the nodes that were met
are live, and whatever the edges out of those that were searched lead to or call was met too. -/
structure Explores (rule : Rule) (begun rules nodes : Visited) : Prop where
  tidy : nodes.IsTidy
  entry_mem : Rule.entry ∈ nodes.met
  live : ∀ node ∈ nodes.met, rule.IsLive node
  called : ∃ callees, rules = begun.meetAll callees ∧ ∀ callee ∈ callees, rule.Calls callee
  closed : ∀ node, nodes.IsSearched node → ∀ edge ∈ rule.outgoing node,
    edge.target ∈ nodes.met ∧ ∀ callee, edge.kind = .call callee → callee ∈ rules.met

namespace Explores

theorem begin (rule : Rule) (begun : Visited) :
    Explores rule begun begun ⟨[Rule.entry], [Rule.entry]⟩ where
  tidy := ⟨List.nodup_singleton _, .refl _⟩
  entry_mem := List.mem_singleton_self _
  live node node_mem := by
    obtain rfl := List.mem_singleton.mp node_mem
    exact .entry
  called := ⟨[], rfl, by simp⟩
  closed node searched := absurd searched.1 searched.2

/-- Searching one more node. -/
theorem step (explores : Explores rule begun rules nodes) {node : NodeId} {waiting : List NodeId}
    (waiting_eq : nodes.waiting = node :: waiting) :
    Explores rule begun (rules.meetAll ((rule.outgoing node).filterMap Edge.callee?))
      (Visited.meetAll ⟨nodes.met, waiting⟩ ((rule.outgoing node).map Edge.target)) := by
  have nodeLive : rule.IsLive node :=
    explores.live node (explores.tidy.waits.mem (by simp [waiting_eq]))
  refine ⟨(explores.tidy.next waiting_eq).meetAll _, ?_, ?_, ?_, ?_⟩
  · exact Visited.mem_met_meetAll.mpr (.inr explores.entry_mem)
  · intro member member_mem
    rcases Visited.mem_met_meetAll.mp member_mem with target_mem | met
    · rcases List.mem_map.mp target_mem with ⟨edge, edge_mem, rfl⟩
      exact .follows nodeLive edge_mem
    · exact explores.live member met
  · rcases explores.called with ⟨callees, rfl, calls⟩
    refine ⟨callees ++ (rule.outgoing node).filterMap Edge.callee?, ?_, ?_⟩
    · exact List.foldl_append.symm
    · refine List.forall_mem_append.mpr ⟨calls, ?_⟩
      intro callee callee_mem
      rcases List.mem_filterMap.mp callee_mem with ⟨edge, edge_mem, callee_eq⟩
      exact ⟨node, edge, nodeLive, edge_mem, Edge.callee?_eq_some_iff.mp callee_eq⟩
  · intro member searched edge edge_mem
    simp only [Visited.mem_met_meetAll, List.mem_map, List.mem_filterMap]
    rcases Visited.isSearched_meetAll_iff.mp searched with ⟨met, unwaiting⟩
    by_cases same : member = node
    · subst same
      refine ⟨.inl ⟨edge, edge_mem, rfl⟩, fun callee kind_eq => .inl ⟨edge, edge_mem, ?_⟩⟩
      exact Edge.callee?_eq_some_iff.mpr kind_eq
    · have earlier : nodes.IsSearched member := by
        refine ⟨met, ?_⟩
        rw [waiting_eq, List.mem_cons, not_or]
        exact ⟨same, unwaiting⟩
      rcases explores.closed member earlier edge edge_mem with ⟨target_met, callees_met⟩
      exact ⟨.inr target_met, fun callee kind_eq => .inr (callees_met callee kind_eq)⟩

theorem run (explores : Explores rule begun rules nodes)
    (searches : SearchesNodes rule rules nodes (further, live)) :
    Explores rule begun further ⟨live, []⟩ := by
  generalize result_eq : (further, live) = result at searches
  induction searches with
  | @ends rules nodes nothing =>
      cases result_eq
      rw [← nothing]
      exact explores
  | goesOn waiting_eq followed _ ih =>
      rw [foldl_followEdge] at followed
      cases followed
      exact ih (explores.step waiting_eq) result_eq

/-- When nothing waits any more, exactly the live nodes were met. -/
theorem mem_iff (explores : Explores rule begun further ⟨live, []⟩) {node : NodeId} :
    node ∈ live ↔ rule.IsLive node := by
  refine ⟨explores.live node, ?_⟩
  intro nodeLive
  induction nodeLive with
  | entry => exact explores.entry_mem
  | follows _ edge_mem ih =>
      exact (explores.closed _ ⟨ih, List.not_mem_nil⟩ _ edge_mem).1

theorem mem_met_of_calls (explores : Explores rule begun further ⟨live, []⟩) {callee : RuleId}
    (calls : rule.Calls callee) : callee ∈ further.met := by
  rcases calls with ⟨node, edge, nodeLive, edge_mem, kind_eq⟩
  have searched : Visited.IsSearched ⟨live, []⟩ node :=
    ⟨explores.mem_iff.mpr nodeLive, List.not_mem_nil⟩
  exact (explores.closed node searched edge edge_mem).2 callee kind_eq

end Explores

end Nodes

section Rules

variable {graph : Graph} {start : RuleId} {rules : Visited} {reached : Reached}

theorem IsSound.searchesNodes (sound : graph.IsSound) {rule : Rule} (rule_mem : rule ∈ graph.rules)
    (begun : Visited) :
    SearchesNodes rule begun ⟨[Rule.entry], [Rule.entry]⟩ (searchRule rule begun) := by
  have inside : ∀ node, ∀ edge ∈ rule.outgoing node, edge.target < rule.nodes.size :=
    fun node edge edge_mem =>
      sound.target rule rule_mem edge (rule.mem_edges_of_mem_outgoing edge_mem)
  refine searchesNodes_searchNodes inside (Explores.begin rule begun).tidy ?_ (Nat.le_refl _)
  exact List.forall_mem_singleton.mpr (sound.begins rule rule_mem)

theorem IsSound.lt_of_calls (sound : graph.IsSound) {rule : Rule} (rule_mem : rule ∈ graph.rules)
    {callee : RuleId} (calls : rule.Calls callee) : callee < graph.rules.size := by
  rcases calls with ⟨node, edge, _, edge_mem, kind_eq⟩
  exact sound.callee rule rule_mem edge (rule.mem_edges_of_mem_outgoing edge_mem) callee kind_eq

/-- The steps that are allowed for suffice, since each of them searches another rule. -/
theorem IsSound.searchesRules_searchRules (sound : graph.IsSound) {steps : Nat}
    (tidy : rules.IsTidy) (below : ∀ id ∈ rules.met, id < graph.rules.size)
    (enough : graph.rules.size + rules.waiting.length ≤ steps + rules.met.length) :
    SearchesRules graph rules (graph.searchRules steps rules) := by
  induction steps generalizing rules with
  | zero =>
      have length_le := tidy.length_le below
      exact .ends (List.length_eq_zero_iff.mp (by omega))
  | succ steps ih =>
      cases waiting_eq : rules.waiting with
      | nil =>
          simp only [searchRules, waiting_eq]
          exact .ends waiting_eq
      | cons id waiting =>
          have known : id < graph.rules.size := below id (tidy.waits.mem (by simp [waiting_eq]))
          have rule_eq := Array.getElem?_eq_getElem known
          have rule_mem := Array.getElem_mem known
          have searches := sound.searchesNodes rule_mem ⟨rules.met, waiting⟩
          simp only [searchRules, waiting_eq, rule_eq]
          generalize searchRule graph.rules[id] ⟨rules.met, waiting⟩ = result at searches
          rcases result with ⟨further, live⟩
          rcases ((Explores.begin _ _).run searches).called with ⟨callees, rfl, calls⟩
          refine .goesOn waiting_eq rule_eq searches (ih ((tidy.next waiting_eq).meetAll _) ?_ ?_)
          · intro member member_mem
            rcases Visited.mem_met_meetAll.mp member_mem with callee_mem | met
            · exact sound.lt_of_calls rule_mem (calls member callee_mem)
            · exact below member met
          · have length_eq := Visited.length_meetAll ⟨rules.met, waiting⟩ callees
            rw [waiting_eq, List.length_cons] at enough
            simp only at length_eq
            omega

/-- How far the search of the rules has come: those that were met are live, and whatever those call
that were searched was met too. -/
structure Uncovers (graph : Graph) (start : RuleId) (rules : Visited) : Prop where
  tidy : rules.IsTidy
  start_mem : start ∈ rules.met
  live : ∀ id ∈ rules.met, graph.IsLive start id
  closed : ∀ id, rules.IsSearched id → ∀ rule, graph.rules[id]? = some rule →
    ∀ callee, rule.Calls callee → callee ∈ rules.met

/-- What the search has found in the end: each live rule that had not been searched before, once,
and with its live nodes. -/
structure Reached.IsComplete (reached : Reached) (graph : Graph) (start : RuleId)
    (rules : Visited) : Prop where
  mem_rules_iff : ∀ id, id ∈ reached.rules ↔ graph.IsLive start id
  nodup : (reached.nodes.map Prod.fst).Nodup
  mem_iff : ∀ id, id ∈ reached.nodes.map Prod.fst ↔
    id ∈ reached.rules ∧ ¬rules.IsSearched id
  nodes : ∀ id live, (id, live) ∈ reached.nodes → ∃ rule, graph.rules[id]? = some rule ∧
    ∀ node, node ∈ live ↔ rule.IsLive node

namespace Uncovers

theorem begin (graph : Graph) (start : RuleId) : graph.Uncovers start ⟨[start], [start]⟩ where
  tidy := ⟨List.nodup_singleton _, .refl _⟩
  start_mem := List.mem_singleton_self _
  live id id_mem := by
    obtain rfl := List.mem_singleton.mp id_mem
    exact .start
  closed id searched := absurd searched.1 searched.2

/-- Searching one more rule. -/
theorem step (uncovers : graph.Uncovers start rules) {id : RuleId} {waiting : List RuleId}
    {rule : Rule} {further : Visited} {live : List NodeId}
    (waiting_eq : rules.waiting = id :: waiting) (rule_eq : graph.rules[id]? = some rule)
    (explores : Explores rule ⟨rules.met, waiting⟩ further ⟨live, []⟩) :
    graph.Uncovers start further := by
  have idLive : graph.IsLive start id :=
    uncovers.live id (uncovers.tidy.waits.mem (by simp [waiting_eq]))
  rcases explores.called with ⟨callees, rfl, calls⟩
  refine ⟨(uncovers.tidy.next waiting_eq).meetAll _, ?_, ?_, ?_⟩
  · exact Visited.mem_met_meetAll.mpr (.inr uncovers.start_mem)
  · intro member member_mem
    rcases Visited.mem_met_meetAll.mp member_mem with callee_mem | met
    · exact .called idLive rule_eq (calls member callee_mem)
    · exact uncovers.live member met
  · intro member searched found found_eq callee foundCalls
    rcases Visited.isSearched_meetAll_iff.mp searched with ⟨met, unwaiting⟩
    by_cases same : member = id
    · subst same
      obtain rfl : rule = found := Option.some.inj (rule_eq.symm.trans found_eq)
      exact explores.mem_met_of_calls foundCalls
    · have earlier : rules.IsSearched member := by
        refine ⟨met, ?_⟩
        rw [waiting_eq, List.mem_cons, not_or]
        exact ⟨same, unwaiting⟩
      exact Visited.mem_met_meetAll.mpr
        (.inr (uncovers.closed member earlier found found_eq callee foundCalls))

/-- When nothing waits any more, exactly the live rules were met. -/
theorem mem_iff (uncovers : graph.Uncovers start rules) (nothing : rules.waiting = [])
    {id : RuleId} : id ∈ rules.met ↔ graph.IsLive start id := by
  refine ⟨uncovers.live id, ?_⟩
  intro idLive
  induction idLive with
  | start => exact uncovers.start_mem
  | called _ rule_eq calls ih =>
      exact uncovers.closed _ ⟨ih, by simp [nothing]⟩ _ rule_eq _ calls

theorem run (uncovers : graph.Uncovers start rules)
    (searches : SearchesRules graph rules reached) :
    reached.IsComplete graph start rules := by
  induction searches with
  | @ends rules nothing =>
      refine ⟨fun id => uncovers.mem_iff nothing, .nil, ?_, by simp⟩
      simp [Visited.IsSearched, nothing]
  | @goesOn rules further id waiting rule live reached waiting_eq rule_eq searches _ ih =>
      have explores := (Explores.begin rule ⟨rules.met, waiting⟩).run searches
      have complete := ih (uncovers.step waiting_eq rule_eq explores)
      have searched_iff : ∀ other, further.IsSearched other ↔
          other ∈ rules.met ∧ other ∉ waiting := by
        rcases explores.called with ⟨callees, rfl, _⟩
        exact fun other => Visited.isSearched_meetAll_iff
      have id_met : id ∈ rules.met := uncovers.tidy.waits.mem (by simp [waiting_eq])
      have id_unwaiting : id ∉ waiting := by
        have distinct := uncovers.tidy.nodup.sublist uncovers.tidy.waits
        rw [waiting_eq] at distinct
        exact (List.nodup_cons.mp distinct).1
      refine ⟨complete.mem_rules_iff, ?_, ?_, ?_⟩
      · refine List.nodup_cons.mpr ⟨?_, complete.nodup⟩
        rw [complete.mem_iff, searched_iff]
        exact fun again => again.2 ⟨id_met, id_unwaiting⟩
      · intro other
        rw [List.map_cons, List.mem_cons, complete.mem_iff, searched_iff, Visited.IsSearched,
          waiting_eq, List.mem_cons]
        by_cases same : other = id
        · subst same
          have idReached := (complete.mem_rules_iff other).mpr (uncovers.live other id_met)
          simp [idReached]
        · simp [same]
      · intro other found found_mem
        rcases List.mem_cons.mp found_mem with same | later
        · cases same
          exact ⟨rule, rule_eq, fun node => explores.mem_iff⟩
        · exact complete.nodes other found later

end Uncovers

/-- The search of a sound graph comes to its end, and finds what is live. -/
theorem IsSound.isComplete_reached (sound : graph.IsSound) (known : start < graph.rules.size) :
    SearchesRules graph ⟨[start], [start]⟩ (graph.reached start) ∧
      (graph.reached start).IsComplete graph start ⟨[start], [start]⟩ := by
  have begins := Uncovers.begin graph start
  have searches : SearchesRules graph ⟨[start], [start]⟩ (graph.reached start) :=
    sound.searchesRules_searchRules begins.tidy (List.forall_mem_singleton.mpr known)
      (Nat.le_refl _)
  exact ⟨searches, begins.run searches⟩

theorem Reached.IsComplete.mem_unusedRules_iff
    (complete : (graph.reached start).IsComplete graph start rules) {id : RuleId} :
    id ∈ graph.unusedRules start ↔ id < graph.rules.size ∧ ¬graph.IsLive start id := by
  simp [unusedRules, complete.mem_rules_iff]

theorem nodup_unusedRules (graph : Graph) (start : RuleId) : (graph.unusedRules start).Nodup :=
  List.nodup_range.filter _

theorem Reached.IsComplete.mem_unreachableNodes_iff
    (complete : (graph.reached start).IsComplete graph start ⟨[start], [start]⟩) {frame : Frame} :
    frame ∈ graph.unreachableNodes start ↔ graph.IsLive start frame.rule ∧
      ∃ rule, graph.rules[frame.rule]? = some rule ∧ frame.node < rule.nodes.size ∧
        ¬rule.IsLive frame.node := by
  have searched_iff : ∀ id, id ∈ (graph.reached start).nodes.map Prod.fst ↔
      graph.IsLive start id := by
    intro id
    rw [complete.mem_iff, complete.mem_rules_iff]
    simp [Visited.IsSearched]
  rw [unreachableNodes, List.mem_flatMap]
  constructor
  · rintro ⟨⟨id, live⟩, found_mem, frame_mem⟩
    rcases complete.nodes id live found_mem with ⟨rule, rule_eq, live_iff⟩
    simp only [rule_eq, List.mem_map, List.mem_filter, List.mem_range] at frame_mem
    rcases frame_mem with ⟨node, ⟨node_lt, missing⟩, rfl⟩
    refine ⟨(searched_iff id).mp (List.mem_map_of_mem found_mem), rule, rule_eq, node_lt, ?_⟩
    rw [← live_iff]
    simpa using missing
  · rintro ⟨ruleLive, rule, rule_eq, node_lt, dead⟩
    rcases List.mem_map.mp ((searched_iff frame.rule).mpr ruleLive) with
      ⟨⟨id, live⟩, found_mem, id_eq⟩
    obtain rfl : id = frame.rule := id_eq
    rcases complete.nodes _ live found_mem with ⟨found, found_eq, live_iff⟩
    obtain rfl : rule = found := Option.some.inj (rule_eq.symm.trans found_eq)
    refine ⟨_, found_mem, ?_⟩
    simp only [rule_eq, List.mem_map, List.mem_filter, List.mem_range]
    refine ⟨frame.node, ⟨node_lt, ?_⟩, rfl⟩
    rw [← live_iff] at dead
    simpa using dead

/-- Frames of different rules are different. -/
theorem nodup_flatMap_of_rule_eq {found : List (RuleId × List NodeId)}
    {frames : RuleId × List NodeId → List Frame} (distinct : (found.map Prod.fst).Nodup)
    (nodup : ∀ entry ∈ found, (frames entry).Nodup)
    (rule_eq : ∀ entry ∈ found, ∀ frame ∈ frames entry, frame.rule = entry.1) :
    (found.flatMap frames).Nodup := by
  refine List.nodup_flatMap.mpr ⟨nodup, (List.pairwise_map.mp distinct).imp_of_mem ?_⟩
  intro first second first_mem second_mem differ frame of_first of_second
  have first_eq := rule_eq first first_mem frame of_first
  have second_eq := rule_eq second second_mem frame of_second
  exact differ (first_eq.symm.trans second_eq)

theorem Reached.IsComplete.nodup_unreachableNodes
    (complete : (graph.reached start).IsComplete graph start rules) :
    (graph.unreachableNodes start).Nodup := by
  refine nodup_flatMap_of_rule_eq complete.nodup ?_ ?_
  · rintro ⟨id, live⟩ _
    simp only
    split
    next => exact (List.nodup_range.filter _).map fun _ _ same => congrArg Frame.node same
    next => exact .nil
  · rintro ⟨id, live⟩ _ frame frame_mem
    simp only at frame_mem
    split at frame_mem
    next =>
      rcases List.mem_map.mp frame_mem with ⟨node, _, rfl⟩
      rfl
    next => cases frame_mem

end Rules

end Graph

/-- Where nothing is wrong with names and references, the search for what cannot be reached comes to
an end. What it records is about exactly the nodes of live rules that are not live and the rules
that are not live, and about each of them once. -/
theorem Builder.reachability_records_are_exact {builder : Builder}
    (assembled : builder.IsAssembled) (faultless : builder.toGraph.faults = []) {start : RuleId}
    (known : start < builder.rules.size) :
    let graph := builder.toGraph
    Graph.SearchesRules graph ⟨[start], [start]⟩ (graph.reached start) ∧
      graph.reachabilityRecords start =
        (graph.unreachableNodes start).map (fun frame => (⟨.warn, .reachability,
          s!"node {graph.nodeName frame} of rule '{graph.ruleName frame.rule}' is unreachable"⟩ :
            Log.Record)) ++
        (graph.unusedRules start).map (fun id =>
          ⟨.warn, .reachability, s!"rule '{graph.ruleName id}' is never used"⟩) ∧
      (graph.unreachableNodes start).Nodup ∧ (graph.unusedRules start).Nodup ∧
      (∀ frame, frame ∈ graph.unreachableNodes start ↔ graph.IsLive start frame.rule ∧
        ∃ rule, graph.rules[frame.rule]? = some rule ∧ frame.node < rule.nodes.size ∧
          ¬rule.IsLive frame.node) ∧
      ∀ id, id ∈ graph.unusedRules start ↔ id < graph.rules.size ∧ ¬graph.IsLive start id := by
  intro graph
  have sound : graph.IsSound :=
    Graph.isSound_of_referenceFaults_eq_nil assembled.listsEdges
      (List.append_eq_nil_iff.mp faultless).2
  rcases sound.isComplete_reached known with ⟨searches, complete⟩
  refine ⟨searches, ?_, complete.nodup_unreachableNodes, graph.nodup_unusedRules start,
    fun frame => complete.mem_unreachableNodes_iff, fun id => complete.mem_unusedRules_iff⟩
  simp [Graph.reachabilityRecords, Function.comp_def]

/-- A graph of three rules. Of the first one, the last node leads back to the entry and calls the
last rule, but nothing leads to that node. The second rule calls the first one. -/
def Graph.withIsland : Graph :=
  (Assembly.assemble do
    let main ← Assembly.rule "main"
    let helper ← Assembly.rule "helper"
    let spare ← Assembly.rule "spare"
    let first ← Assembly.node main
    let last ← Assembly.node main
    let island ← Assembly.node main
    let inner ← Assembly.node helper
    let done ← Assembly.node helper
    let lonely ← Assembly.node spare
    let _ ← Assembly.callEdge main first helper last
    let _ ← Assembly.gotoEdge main island first
    let _ ← Assembly.callEdge main island spare last
    let _ ← Assembly.callEdge helper inner main done
    let _ ← Assembly.charEdge helper inner 'x' inner
    Assembly.callEdge spare lonely spare lonely).2

/-- Of the graph with an island, that node is reported, and the rule that is called only there. -/
theorem Builder.reachability_records_are_exact_withIsland : ∃ builder : Builder,
    builder.IsAssembled ∧ builder.toGraph = .withIsland ∧ Graph.withIsland.faults = [] ∧
    Graph.withIsland.reachabilityRecords 0 =
      [⟨.warn, .reachability, "node #2 of rule 'main' is unreachable"⟩,
        ⟨.warn, .reachability, "rule 'spare' is never used"⟩] ∧
    Graph.withIsland.IsLive 0 1 ∧ ¬Graph.withIsland.IsLive 0 2 := by
  have assembled : Builder.IsAssembled _ :=
    ((((((((((((((((Builder.IsAssembled.empty.declare
      (.rule "main") (by simp [Declaration.rule?])).declare
      (.rule "helper") (by simp [Declaration.rule?])).declare
      (.rule "spare") (by simp [Declaration.rule?])).declare
      (.node 0 .none) (by rintro _ ⟨⟩; decide)).declare
      (.node 0 .none) (by rintro _ ⟨⟩; decide)).declare
      (.node 0 .none) (by rintro _ ⟨⟩; decide)).declare
      (.node 1 .none) (by rintro _ ⟨⟩; decide)).declare
      (.node 1 .none) (by rintro _ ⟨⟩; decide)).declare
      (.node 2 .none) (by rintro _ ⟨⟩; decide)).declare
      (.edge 0 0 (.call 1) 1) (by rintro _ ⟨⟩; decide)).declare
      (.edge 0 2 .goto 0) (by rintro _ ⟨⟩; decide)).declare
      (.edge 0 2 (.call 2) 1) (by rintro _ ⟨⟩; decide)).declare
      (.edge 1 0 (.call 0) 1) (by rintro _ ⟨⟩; decide)).declare
      (.charEdge 1 0 'x' 0) (by rintro _ ⟨⟩; decide)).declare
      (.edge 2 0 (.call 2) 0) (by rintro _ ⟨⟩; decide)))
  have faultless : Graph.withIsland.faults = [] := by decide
  rcases Builder.reachability_records_are_exact assembled
    faultless (show 0 < _ from by decide) with
    ⟨_, records_eq, _, _, _, unused_iff⟩
  have unused_eq : Graph.withIsland.unusedRules 0 = [2] := by decide
  refine ⟨_, assembled, rfl, faultless, ?_, ?_, ?_⟩
  · exact records_eq.trans (by decide)
  · by_contra dead
    have unused : 1 ∈ Graph.withIsland.unusedRules 0 := (unused_iff 1).mpr ⟨by decide, dead⟩
    rw [unused_eq] at unused
    exact absurd unused (by decide)
  · have unused : 2 ∈ Graph.withIsland.unusedRules 0 := by
      rw [unused_eq]
      exact List.mem_singleton_self 2
    exact ((unused_iff 2).mp unused).2

end StreamGrammar
