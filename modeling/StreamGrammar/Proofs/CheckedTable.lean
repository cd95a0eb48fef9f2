import StreamGrammar.Grammar.RouteTable
import StreamGrammar.Proofs.CheckedBuild
import StreamGrammar.Proofs.Settling

/-!
# Route tables with every lookup checked

What is decided at the nodes of a built grammar refers to paths by alternatives and to
matchers by lookaheads, and the steps of a path to rules and nodes, each in the rule that
is being run when the step is taken. The paths are walks from their nodes, so that all
of this is there to be written down.
-/

namespace StreamGrammar

namespace Grammar

section Definitions

variable (grammar : Grammar)

/-- What is decided at a node, which has to be there. -/
def tabledRoutes? (frame : Frame) : Option (Option Routes) := do
  let table ← grammar.tables[frame.rule]?
  table[frame.node]?

def stepText? (rule : RuleId) : Step → Option String
  | .call callee _ => return " call " ++ (← grammar.ruleName? callee)
  | .goto node => return " goto " ++ (← grammar.nodeName? ⟨rule, node⟩)
  | .leave => some " return"
  | .consume matcher target => do
      let description ← grammar.describe? matcher
      let name ← grammar.nodeName? ⟨rule, target⟩
      return " match " ++ description ++ " -> " ++ name

def pathText? (outermost : RuleId) : List RuleId → Path → Option String
  | _, [] => some ""
  | rules, step :: rest => do
      let text ← grammar.stepText? (rules.head?.getD outermost) step
      let further ← pathText? outermost (rulesAfter rules step) rest
      return text ++ further

def routeLine? (rule : RuleId) (routes : Routes) (label : String) (route : Route) :
    Option String := do
  let descriptions ← route.lookahead.mapM grammar.describe?
  let path ← routes.paths[route.alternative]?
  let steps ← grammar.pathText? rule [rule] path
  let lookahead := " ".intercalate descriptions
  let ending := if route.isOpen then " .." else ""
  return s!"    {label}[{route.depth}] {lookahead}{ending} =>" ++ steps ++ "\n"

def shadowedLine? (rule : RuleId) (routes : Routes) (alternative : Nat) : Option String := do
  let path ← routes.paths[alternative]?
  let steps ← grammar.pathText? rule [rule] path
  return "    shadowed =>" ++ steps ++ "\n"

def exitLine? (rule : RuleId) (exit : Path) : Option String := do
  let steps ← grammar.pathText? rule [rule] exit
  return "    exit =>" ++ steps ++ "\n"

def decisionLines? (rule : RuleId) (routes : Routes) : Option (List String) := do
  let determinate ← routes.determinate.mapM (grammar.routeLine? rule routes "")
  let horizon ← routes.horizon.mapM (grammar.routeLine? rule routes "ordered ")
  let indeterminate ← routes.indeterminate.toList.mapM (grammar.routeLine? rule routes "greedy ")
  let shadowed ← routes.shadowed.mapM (grammar.shadowedLine? rule routes)
  let exit ← routes.exit.toList.mapM (grammar.exitLine? rule)
  return determinate ++ horizon ++ indeterminate ++ shadowed ++ exit ++
    ["    expected: " ++ " OR ".intercalate routes.expected ++ "\n"]

def nodeLines? (frame : Frame) : Option (List String) := do
  let name ← grammar.nodeName? frame
  match ← grammar.tabledRoutes? frame with
  | none => return [s!"  {name}: exit\n"]
  | some routes =>
      let lines ← grammar.decisionLines? frame.rule routes
      return s!"  {name}:\n" :: lines

def ruleLines? (id : RuleId) (rule : Rule) : Option (List String) := do
  let mark := if id = grammar.start then " (start)" else ""
  let lines ← (List.range rule.nodes.size).mapM fun node => grammar.nodeLines? ⟨id, node⟩
  return s!"rule {rule.name}{mark}\n" :: lines.flatten

def routeTable? : Option String := do
  let lines ← grammar.rules.toList.zipIdx.mapM fun (rule, id) => grammar.ruleLines? id rule
  return String.join lines.flatten

end Definitions

/-- The graph of the grammar is sound, and the tables hold what is decided at each of its nodes. -/
structure IsSound (grammar : Grammar) (limits : ResolutionLimits) : Prop where
  sound : grammar.toGraph.IsSound
  resolved : grammar.IsResolved limits
  tabled : ∀ frame, grammar.HasNode frame →
    grammar.tabledRoutes? frame = some (grammar.routes? frame)

end Grammar

theorem Graph.tabledRoutes?_resolvedGrammar (graph : Graph) (config : GrammarConfig)
    (start : RuleId) {frame : Frame} (exist : graph.HasNode frame) :
    (graph.resolvedGrammar config start).tabledRoutes? frame =
      some ((graph.resolvedGrammar config start).routes? frame) := by
  rcases exist with ⟨rule, rule_eq, inside⟩
  rw [routes?_resolvedGrammar]
  simp [Grammar.tabledRoutes?, resolvedGrammar, resolveAll, rule_eq, resolveRule_getElem?, inside]

/-- A grammar that was built from an assembled graph is sound. -/
theorem Graph.isSound_of_build {builder : Builder} (assembled : builder.IsAssembled)
    {config : GrammarConfig} {grammar : Grammar}
    (built : (builder.toGraph.build config).result = .ok grammar) :
    grammar.IsSound ⟨config.maxLookahead, config.strict⟩ := by
  have resolved := (build_ok built).2
  rcases build_eq_ok_iff.mp built with ⟨faultless, start, _, _, rfl⟩
  exact ⟨isSound_of_faultless assembled faultless, resolved,
    fun frame exist => tabledRoutes?_resolvedGrammar _ config start exist⟩

namespace Grammar

variable {grammar : Grammar}

section Texts

variable (sound : grammar.toGraph.IsSound)

include sound

/-- A step that the graph allows can be written down. -/
theorem stepText?_eq {top : Frame} {below : List Frame} {step : Step}
    (enabled : step.IsEnabled grammar.toGraph (top :: below)) :
    grammar.stepText? top.rule step = some (grammar.stepText top.rule step) := by
  cases step with
  | leave => rfl
  | call callee resume =>
      rcases enabled with ⟨edge, edge_mem, kind_eq, _⟩
      simp [stepText?, stepText, Graph.ruleName?_eq (sound.callee_lt edge_mem kind_eq)]
  | goto node =>
      rcases enabled with ⟨edge, edge_mem, _, rfl⟩
      simp [stepText?, stepText, (sound.hasNode_target edge_mem).nodeName?_eq]
  | consume matcher target =>
      rcases enabled with ⟨edge, edge_mem, kind_eq, rfl⟩
      simp [stepText?, stepText, (sound.hasNode_target edge_mem).nodeName?_eq,
        Graph.describe?_eq (sound.matcher_lt edge_mem kind_eq)]

theorem pathText?_eq (outermost : RuleId) {stack final : List Frame} {path : Path}
    (walk : Walk grammar.toGraph stack path final) :
    grammar.pathText? outermost (stack.map Frame.rule) path =
      some (grammar.pathText outermost (stack.map Frame.rule) path) := by
  induction walk with
  | refl => rfl
  | @step stack final step steps enabled _ ih =>
      cases stack with
      | nil => exact (Step.not_isEnabled_nil step enabled).elim
      | cons top below =>
          -- The rules that the text keeps track of are those of the walk.
          have rules_eq : (step.apply (top :: below)).map Frame.rule =
              rulesAfter ((top :: below).map Frame.rule) step := by
            cases step <;> rfl
          rw [rules_eq] at ih
          simp only [List.map_cons] at ih ⊢
          simp [pathText?, pathText, stepText?_eq sound enabled, ih]

end Texts

section Lines

variable {limits : ResolutionLimits} {frame : Frame} {routes : Routes} {ways : List Way}
  {division : Division} (sound : grammar.toGraph.IsSound)
  (settles : grammar.Settles limits frame ways division routes)

include sound settles

theorem pathText?_of_mem_paths {path : Path} (path_mem : path ∈ routes.paths) :
    grammar.pathText? frame.rule [frame.rule] path =
      some (grammar.pathText frame.rule [frame.rule] path) := by
  rcases settles.path_mem_iff.mp path_mem with ⟨_, _, taken⟩
  exact pathText?_eq sound frame.rule taken.1

theorem routeLine?_eq (label : String) {route : Route} (route_mem : route ∈ routes.all) :
    grammar.routeLine? frame.rule routes label route =
      some (grammar.routeLine frame.rule routes label route) := by
  have descriptions_eq : route.lookahead.mapM grammar.describe? =
      some (route.lookahead.map grammar.describe) := mapM_eq_some_map fun matcher matcher_mem =>
    Graph.describe?_eq (settles.hasMatchers_route sound route_mem matcher matcher_mem)
  rcases settles.route_begins route_mem with ⟨path, _, _, path_eq, _, _⟩
  have text_eq := pathText?_of_mem_paths sound settles (List.mem_of_getElem? path_eq)
  simp [routeLine?, routeLine, Routes.path, descriptions_eq, path_eq, text_eq]

theorem shadowedLine?_eq {alternative : Nat} (alternative_mem : alternative ∈ routes.shadowed) :
    grammar.shadowedLine? frame.rule routes alternative =
      some ("    shadowed =>" ++ grammar.pathText frame.rule [frame.rule]
        (routes.paths[alternative]?.getD []) ++ "\n") := by
  have overlaps : alternative ∈ (grammar.prefer division).shadowed := by
    rw [settles.routes_eq] at alternative_mem
    exact alternative_mem
  rcases settles.exists_path_of_mem_shadowed overlaps with ⟨path, path_eq⟩
  have text_eq := pathText?_of_mem_paths sound settles (List.mem_of_getElem? path_eq)
  simp [shadowedLine?, path_eq, text_eq]

theorem exitLine?_eq {exit : Path} (exit_eq : routes.exit = some exit) :
    grammar.exitLine? frame.rule exit =
      some ("    exit =>" ++ grammar.pathText frame.rule [frame.rule] exit ++ "\n") := by
  have walk := (settles.isTakenFrom_exit exit_eq).1
  have text_eq : grammar.pathText? frame.rule [frame.rule] exit =
      some (grammar.pathText frame.rule [frame.rule] exit) := pathText?_eq sound frame.rule walk
  simp [exitLine?, text_eq]

theorem decisionLines?_eq : grammar.decisionLines? frame.rule routes =
    some (grammar.decisionLines frame.rule routes) := by
  have determinate_eq : routes.determinate.mapM (grammar.routeLine? frame.rule routes "") =
      some (routes.determinate.map (grammar.routeLine frame.rule routes "")) :=
    mapM_eq_some_map fun route route_mem => routeLine?_eq sound settles ""
      (List.mem_append_left _ (List.mem_append_left _ route_mem))
  have horizon_eq : routes.horizon.mapM (grammar.routeLine? frame.rule routes "ordered ") =
      some (routes.horizon.map (grammar.routeLine frame.rule routes "ordered ")) :=
    mapM_eq_some_map fun route route_mem => routeLine?_eq sound settles "ordered "
      (List.mem_append_left _ (List.mem_append_right _ route_mem))
  have indeterminate_eq : routes.indeterminate.toList.mapM
      (grammar.routeLine? frame.rule routes "greedy ") =
        some (routes.indeterminate.toList.map (grammar.routeLine frame.rule routes "greedy ")) :=
    mapM_eq_some_map fun route route_mem => routeLine?_eq sound settles "greedy "
      (List.mem_append_right _ route_mem)
  have shadowed_eq := mapM_eq_some_map fun alternative (alternative_mem : alternative ∈ _) =>
    shadowedLine?_eq sound settles alternative_mem
  have exit_eq := mapM_eq_some_map fun exit exit_mem =>
    exitLine?_eq sound settles (Option.mem_toList.mp exit_mem)
  simp only [decisionLines?, determinate_eq, horizon_eq, indeterminate_eq, shadowed_eq, exit_eq,
    Option.bind_eq_bind, Option.bind_some]
  rfl

end Lines

namespace IsSound

variable {limits : ResolutionLimits} (isSound : grammar.IsSound limits)

include isSound

theorem nodeLines?_eq {frame : Frame} (exist : grammar.HasNode frame) :
    grammar.nodeLines? frame = some (grammar.nodeLines frame) := by
  rw [nodeLines?, bind_of_eq_some exist.nodeName?_eq,
    bind_of_eq_some (isSound.tabled frame exist), nodeLines]
  cases routes_eq : grammar.routes? frame with
  | none => rfl
  | some routes =>
      rcases isSound.resolved.exists_settles routes_eq with ⟨ways, division, settles⟩
      dsimp only
      rw [decisionLines?_eq isSound.sound settles]
      rfl

/-- Everything that the route table of a built grammar refers to is there. -/
theorem routeTable?_eq : grammar.routeTable? = some grammar.routeTable := by
  have lines_eq : (grammar.rules.toList.zipIdx.mapM fun (rule, id) => grammar.ruleLines? id rule) =
      some (grammar.rules.toList.zipIdx.map fun (rule, id) => grammar.ruleLines id rule) := by
    refine mapM_eq_some_map fun (rule, id) rule_mem => ?_
    have rule_eq : grammar.rules[id]? = some rule := by
      simpa [List.mk_mem_zipIdx_iff_getElem?] using rule_mem
    have nodes_eq : (List.range rule.nodes.size).mapM (fun node => grammar.nodeLines? ⟨id, node⟩) =
        some ((List.range rule.nodes.size).map fun node => grammar.nodeLines ⟨id, node⟩) :=
      mapM_eq_some_map fun node node_mem =>
        isSound.nodeLines?_eq ⟨rule, rule_eq, List.mem_range.mp node_mem⟩
    simp only [ruleLines?, nodes_eq]
    rw [ruleLines, List.flatMap_def]
    rfl
  rw [routeTable?, lines_eq, routeTable, List.flatMap_def]
  rfl

end IsSound

end Grammar

end StreamGrammar
