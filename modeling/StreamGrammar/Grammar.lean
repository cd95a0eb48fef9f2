import StreamGrammar.Graph.Builder
import StreamGrammar.Graph.Reachability
import StreamGrammar.Graph.Validity
import StreamGrammar.Route.Resolution

/-!
# Grammars

A grammar is a graph without faults, with a start rule and every decision
resolved. `Graph.build` checks a graph and resolves it; whatever it finds wrong is
reported all together, the faults in names and references before those in
decisions, which are only looked for when there are none of the former.
-/

namespace StreamGrammar

/-- What a grammar is to be built with. -/
structure GrammarConfig where
  /-- The name of the start rule. -/
  start : String
  /-- The largest number of code points that a decision may look at. -/
  maxLookahead : Nat := 1
  /-- Whether needing the order of declaration is a fault. -/
  strict : Bool := false
deriving DecidableEq, Repr

/-- A graph with a start rule and what is decided at each of its nodes. -/
structure Grammar extends Graph where
  start : RuleId
  maxLookahead : Nat
  /-- The decisions of each rule, node by node; nothing is decided where a rule ends. -/
  tables : Array (Array (Option Routes))

/-- What is decided at a node. -/
def Grammar.routes? (grammar : Grammar) (frame : Frame) : Option Routes :=
  match grammar.tables[frame.rule]? with
  | some table => (table[frame.node]?).join
  | none => none

/-- The outcome of building a grammar, with the log records of the attempt. -/
structure BuildReport where
  log : List Log.Record
  result : Except (List BuildError) Grammar

namespace Graph

/-- The faults that are looked for before decisions are resolved. -/
def initialFaults (graph : Graph) (config : GrammarConfig) : List BuildError :=
  let lookahead := if config.maxLookahead = 0 then [.zeroLookahead] else []
  let start := match graph.ruleByName? config.start with
    | some _ => []
    | none => [.unknownStartRule config.start]
  lookahead ++ graph.faults ++ start

/-- The log records on what cannot be reached from the start rule. -/
def reachabilityRecords (graph : Graph) (start : RuleId) : List Log.Record :=
  let nodes := (graph.unreachableNodes start).map fun frame =>
    s!"node {graph.nodeName frame} of rule '{graph.ruleName frame.rule}' is unreachable"
  let rules := (graph.unusedRules start).map fun rule =>
    s!"rule '{graph.ruleName rule}' is never used"
  (nodes ++ rules).map (⟨.warn, .reachability, ·⟩)

def resolveRule (graph : Graph) (limits : ResolutionLimits) (id : RuleId) (rule : Rule) :
    Array (Resolution (Option Routes)) :=
  (Array.range rule.nodes.size).map fun node => graph.resolve limits ⟨id, node⟩

def resolveAll (graph : Graph) (limits : ResolutionLimits) :
    Array (Array (Resolution (Option Routes))) :=
  graph.rules.mapIdx (graph.resolveRule limits)

def resolutionFaults (resolutions : List (Resolution (Option Routes))) : List BuildError :=
  resolutions.filterMap fun resolution =>
    match resolution.result with
    | .error error => some error
    | .ok _ => none

def decision (resolution : Resolution (Option Routes)) : Option Routes :=
  match resolution.result with
  | .ok routes => routes
  | .error _ => none

/-- Resolves a graph without initial faults. -/
def buildFrom (graph : Graph) (config : GrammarConfig) (start : RuleId) : BuildReport :=
  let resolved := graph.resolveAll ⟨config.maxLookahead, config.strict⟩
  let resolutions := (resolved.map Array.toList).toList.flatten
  let log := graph.reachabilityRecords start ++
    resolutions.flatMap fun resolution => resolution.notes.map graph.noteRecord
  match resolutionFaults resolutions with
  | [] =>
      let built : Log.Record := ⟨.debug, .assembly,
        s!"built grammar with {graph.rules.size} rules, {graph.matchers.size} matchers, " ++
          s!"start '{graph.ruleName start}'"⟩
      let tables := resolved.map (·.map decision)
      ⟨log ++ [built],
        .ok { graph with start, maxLookahead := config.maxLookahead, tables }⟩
  | errors => ⟨log, .error errors⟩

/-- Builds a grammar from a graph, or tells everything that is wrong with it. -/
def build (graph : Graph) (config : GrammarConfig) : BuildReport :=
  match graph.initialFaults config, graph.ruleByName? config.start with
  | [], some start => graph.buildFrom config start
  | errors, _ => ⟨errors.map .ofFault, .error errors⟩

end Graph

end StreamGrammar
