import StreamGrammar.Grammar

/-!
# Route tables

A readable account of everything that a grammar decides: for each node of each
rule its routes with the matchers they look at and the path they select, what is
shadowed, how the rule is left, and what messages say could come.
-/

namespace StreamGrammar.Grammar

/-- One step of a path, taken in the innermost of the rules being run. -/
def stepText (grammar : Grammar) (rule : RuleId) : Step → String
  | .call callee _ => " call " ++ grammar.ruleName callee
  | .goto node => " goto " ++ grammar.nodeName ⟨rule, node⟩
  | .leave => " return"
  | .consume matcher target =>
      " match " ++ grammar.describe matcher ++ " -> " ++ grammar.nodeName ⟨rule, target⟩

def rulesAfter (rules : List RuleId) : Step → List RuleId
  | .call callee _ => callee :: rules
  | .leave => rules.tail
  | _ => rules

/-- The steps of a path that begins in `outermost` while `rules` are being run. -/
def pathText (grammar : Grammar) (outermost : RuleId) : List RuleId → Path → String
  | _, [] => ""
  | rules, step :: rest =>
      grammar.stepText (rules.head?.getD outermost) step ++
        grammar.pathText outermost (rulesAfter rules step) rest

/-- The line of a route, after a label. -/
def routeLine (grammar : Grammar) (rule : RuleId) (routes : Routes) (label : String)
    (route : Route) : String :=
  let lookahead := " ".intercalate (route.lookahead.map grammar.describe)
  let ending := if route.isOpen then " .." else ""
  s!"    {label}[{route.depth}] {lookahead}{ending} =>" ++
    grammar.pathText rule [rule] (routes.path route) ++ "\n"

/-- The lines of what is decided at a node. -/
def decisionLines (grammar : Grammar) (rule : RuleId) (routes : Routes) : List String :=
  let shadowed := routes.shadowed.map fun alternative =>
    "    shadowed =>" ++
      grammar.pathText rule [rule] (routes.paths[alternative]?.getD []) ++ "\n"
  let exit := routes.exit.toList.map fun path =>
    "    exit =>" ++ grammar.pathText rule [rule] path ++ "\n"
  routes.determinate.map (grammar.routeLine rule routes "") ++
    routes.horizon.map (grammar.routeLine rule routes "ordered ") ++
    routes.indeterminate.toList.map (grammar.routeLine rule routes "greedy ") ++
    shadowed ++ exit ++ ["    expected: " ++ " OR ".intercalate routes.expected ++ "\n"]

def nodeLines (grammar : Grammar) (frame : Frame) : List String :=
  match grammar.routes? frame with
  | none => [s!"  {grammar.nodeName frame}: exit\n"]
  | some routes =>
      s!"  {grammar.nodeName frame}:\n" :: grammar.decisionLines frame.rule routes

def ruleLines (grammar : Grammar) (id : RuleId) (rule : Rule) : List String :=
  let mark := if id = grammar.start then " (start)" else ""
  s!"rule {rule.name}{mark}\n" ::
    (List.range rule.nodes.size).flatMap fun node => grammar.nodeLines ⟨id, node⟩

/-- Everything that a grammar decides. -/
def routeTable (grammar : Grammar) : String :=
  String.join <| grammar.rules.toList.zipIdx.flatMap fun (rule, id) => grammar.ruleLines id rule

end StreamGrammar.Grammar
