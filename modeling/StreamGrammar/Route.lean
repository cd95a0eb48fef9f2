import StreamGrammar.Graph

/-!
# Routes

At a node with several outgoing edges something has to be decided. Every way to
go on until one code point is consumed is an *alternative*, and a *path* lists its
steps. A *route* is a condition on the coming code points, one matcher for each of
them, that selects an alternative. `Routes` holds all that is decided at one node.
-/

namespace StreamGrammar

/-- One step through a rule graph. -/
inductive Step where
  /-- Runs a rule, after which the current one continues at `resume`. -/
  | call (rule : RuleId) (resume : NodeId)
  /-- Falls through to a node. -/
  | goto (node : NodeId)
  /-- Leaves the current rule. -/
  | leave
  /-- Consumes the next code point, which the matcher accepts, and moves to `target`. -/
  | consume (matcher : MatcherId) (target : NodeId)
deriving DecidableEq, Repr

/-- The steps that a decision takes, of which at most the last one consumes input. -/
abbrev Path := List Step

namespace Path

/-- The matcher of the consuming step, if the path ends with one. -/
def matcher? (path : Path) : Option MatcherId :=
  match path.getLast? with
  | some (.consume matcher _) => some matcher
  | _ => none

def consumes (path : Path) : Bool := (Path.matcher? path).isSome

end Path

/-- A condition on the coming code points that selects an alternative. -/
structure Route where
  /-- The number of code points that have to arrive, unless the input ends, before the route is
  tested. -/
  depth : Nat
  /-- The matchers of the coming code points, one after the other. -/
  lookahead : List MatcherId
  /-- The rule is left after the lookahead; whatever follows is not looked at. -/
  isOpen : Bool
  /-- The position of the selected path. -/
  alternative : Nat
deriving DecidableEq, Repr

/-- Whether the coming symbols fulfil the condition of a route. -/
def Route.selects (graph : Graph) (symbolAt : Nat → Symbol) (route : Route) : Bool :=
  route.lookahead.zipIdx.all fun (matcher, position) =>
    graph.accepts matcher (symbolAt position)

/-- All that is decided at one node. -/
structure Routes where
  /-- The path of each alternative, in order of declaration. -/
  paths : List Path
  /-- Routes of which no two that select different alternatives are ever fulfilled at once, the
  shallow ones first. -/
  determinate : List Route
  /-- Routes at the lookahead limit that overlap. The first one that is fulfilled counts. -/
  horizon : List Route
  /-- The one alternative that is left when no lookahead separates it from the rest. Its first
  matcher alone decides. -/
  indeterminate : Option Route
  /-- The alternatives that are never taken, since earlier ones are chosen in their place. -/
  shadowed : List Nat
  /-- Leaves the rule without consuming input, at the end of the input or as a last resort. -/
  exit : Option Path
  /-- What messages say could have come. -/
  expected : List String
  /-- The depths of the determinate and horizon routes, in ascending order. -/
  levels : List Nat
deriving DecidableEq, Repr

namespace Routes

def path (routes : Routes) (route : Route) : Path :=
  routes.paths[route.alternative]?.getD []

/-- The routes that wait for enough code points to arrive. -/
def leveled (routes : Routes) : List Route :=
  routes.determinate ++ routes.horizon

def all (routes : Routes) : List Route :=
  routes.leveled ++ routes.indeterminate.toList

/-- The largest number of code points that a decision looks at. -/
def maxDepth (routes : Routes) : Nat :=
  routes.levels.getLast?.getD 1

/-- The routes of one depth, in the order in which they are tested. -/
def atLevel (routes : Routes) (depth : Nat) : List Route :=
  routes.leveled.filter (·.depth == depth)

end Routes

end StreamGrammar
