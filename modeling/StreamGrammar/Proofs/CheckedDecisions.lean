import StreamGrammar.Proofs.CheckedTable

/-!
# Decisions with every lookup checked

A decision tests routes by their matchers and takes the path of the one that is
fulfilled. All routes of a node refer to matchers and paths that are there, whatever
symbols wait. The paths and the exit are walks from the node, so that each of their
steps leads to a node of the rule that is being run when the step is taken.
-/

namespace StreamGrammar

theorem findM?_eq_some_find? {Member : Type} {members : List Member}
    {check : Member → Option Bool} {total : Member → Bool}
    (succeeds : ∀ member ∈ members, check member = some (total member)) :
    members.findM? check = some (members.find? total) := by
  induction members with
  | nil => rfl
  | cons first rest ih =>
      rcases List.forall_mem_cons.mp succeeds with ⟨first_eq, rest_eq⟩
      rw [List.findM?, first_eq, ih rest_eq, List.find?_cons]
      cases total first <;> rfl

/-- The path that a route selects, which has to be there. -/
def Routes.path? (routes : Routes) (route : Route) : Option Path := routes.paths[route.alternative]?

namespace Graph

section Definitions

variable (graph : Graph)

def accepts? (matcher : MatcherId) (symbol : Symbol) : Option Bool := do
  let definition ← graph.matchers[matcher]?
  return definition.matchesSymbol symbol

/-- Whether the matchers accept the symbols at their positions. -/
def acceptsAll? (matchers : List MatcherId) (symbolAt : Nat → Symbol) : Option Bool :=
  matchers.zipIdx.allM fun (matcher, position) => graph.accepts? matcher (symbolAt position)

def deeperPossible? (lookahead : Lookahead) (routes : Routes) (depth : Nat) : Option Bool :=
  routes.leveled.anyM fun route =>
    if depth ≤ route.depth then
      graph.acceptsAll? (route.lookahead.take lookahead.length) lookahead.symbolAt
    else some false

def decideLast? (lookahead : Lookahead) (routes : Routes) : Option Decision := do
  let lastResort := match routes.exit with
    | some exit => .take exit
    | none => .reject
  match routes.indeterminate with
  | some route =>
      if ← graph.acceptsAll? route.lookahead lookahead.symbolAt then
        return .take (← routes.path? route)
      else return lastResort
  | none => return lastResort

def decideLevels? (lookahead : Lookahead) (routes : Routes) : List Nat → Option Decision
  | [] => graph.decideLast? lookahead routes
  | depth :: deeper => do
      if lookahead.satisfies depth then
        let selected ← (routes.atLevel depth).findM? fun route =>
          graph.acceptsAll? route.lookahead lookahead.symbolAt
        match selected with
        | some route => return .take (← routes.path? route)
        | none => decideLevels? lookahead routes deeper
      else if ← graph.deeperPossible? lookahead routes depth then return .needMore
      else graph.decideLast? lookahead routes

def decide? (lookahead : Lookahead) (routes : Routes) : Option Decision :=
  match lookahead.front?, routes.exit with
  | some .endOfInput, some exit => some (.take exit)
  | _, _ => graph.decideLevels? lookahead routes routes.levels

end Definitions

variable {graph : Graph}

theorem acceptsAll?_eq {matchers : List MatcherId} (known : graph.HasMatchers matchers)
    (symbolAt : Nat → Symbol) : graph.acceptsAll? matchers symbolAt =
      some (matchers.zipIdx.all fun (matcher, position) =>
        graph.accepts matcher (symbolAt position)) := by
  refine allM_eq_some_all fun (matcher, position) matcher_mem => ?_
  have matcher_lt := known matcher (List.fst_mem_of_mem_zipIdx matcher_mem)
  simp [accepts?, accepts, Array.getElem?_eq_getElem matcher_lt]

/-- The routes of a node look at matchers of the graph and select paths of the node. -/
def HasRoutes (graph : Graph) (routes : Routes) : Prop :=
  ∀ route ∈ routes.all, graph.HasMatchers route.lookahead ∧
    routes.path? route = some (routes.path route)

theorem Settles.hasRoutes {limits : ResolutionLimits} {frame : Frame} {ways : List Way}
    {division : Division} {routes : Routes}
    (settles : graph.Settles limits frame ways division routes) (sound : graph.IsSound) :
    graph.HasRoutes routes := by
  intro route route_mem
  rcases settles.route_begins route_mem with ⟨path, _, _, path_eq, _, _⟩
  refine ⟨settles.hasMatchers_route sound route_mem, ?_⟩
  rw [Routes.path?, Routes.path, path_eq, Option.getD_some]

namespace HasRoutes

variable {routes : Routes} (hasRoutes : graph.HasRoutes routes) (lookahead : Lookahead)

include hasRoutes

theorem acceptsAll?_eq {route : Route} (route_mem : route ∈ routes.all) :
    graph.acceptsAll? route.lookahead lookahead.symbolAt =
      some (route.selects graph lookahead.symbolAt) :=
  Graph.acceptsAll?_eq (hasRoutes route route_mem).1 _

theorem deeperPossible?_eq (depth : Nat) : graph.deeperPossible? lookahead routes depth =
    some (graph.deeperPossible lookahead routes depth) := by
  refine anyM_eq_some_any fun route route_mem => ?_
  have known := (hasRoutes route (List.mem_append_left _ route_mem)).1
  rw [Graph.acceptsAll?_eq fun matcher matcher_mem =>
    known matcher (List.mem_of_mem_take matcher_mem)]
  by_cases deep : depth ≤ route.depth
  · simp [deep, remainsPossible]
  · simp [deep]

theorem decideLast?_eq :
    graph.decideLast? lookahead routes = some (graph.decideLast lookahead routes) := by
  simp only [decideLast?, decideLast]
  cases indeterminate_eq : routes.indeterminate with
  | none => cases routes.exit <;> rfl
  | some route =>
      have route_mem : route ∈ routes.all := by
        simp [Routes.all, indeterminate_eq]
      have accepts_eq := hasRoutes.acceptsAll?_eq lookahead route_mem
      have path_eq := (hasRoutes route route_mem).2
      cases selected : route.selects graph lookahead.symbolAt with
      | false =>
          simp only [accepts_eq, selected, Option.filter_some]
          cases routes.exit <;> rfl
      | true =>
          simp only [accepts_eq, selected, path_eq, Option.filter_some]
          rfl

theorem decideLevels?_eq (levels : List Nat) : graph.decideLevels? lookahead routes levels =
    some (graph.decideLevels lookahead routes levels) := by
  induction levels with
  | nil => exact hasRoutes.decideLast?_eq lookahead
  | cons depth deeper ih =>
      have mem_all : ∀ route ∈ routes.atLevel depth, route ∈ routes.all := fun route route_mem =>
        List.mem_append_left _ (List.mem_filter.mp route_mem).1
      have selected_eq := findM?_eq_some_find? fun route route_mem =>
        hasRoutes.acceptsAll?_eq lookahead (mem_all route route_mem)
      rw [decideLevels?, decideLevels]
      split
      next =>
        rw [bind_of_eq_some selected_eq]
        cases selected : (routes.atLevel depth).find? (·.selects graph lookahead.symbolAt) with
        | none => exact ih
        | some route =>
            have path_eq := (hasRoutes route (mem_all route (List.mem_of_find?_eq_some selected))).2
            simp [path_eq]
      next =>
        rw [hasRoutes.deeperPossible?_eq, hasRoutes.decideLast?_eq]
        cases graph.deeperPossible lookahead routes depth <;> rfl

/-- Whatever waits, a decision looks up only matchers and paths that are there. -/
theorem decide?_eq : graph.decide? lookahead routes = some (graph.decide lookahead routes) := by
  have levels_eq := hasRoutes.decideLevels?_eq lookahead routes.levels
  rw [decide?, decide]
  cases lookahead.front? with
  | none => exact levels_eq
  | some symbol =>
      cases symbol with
      | char character => exact levels_eq
      | endOfInput =>
          cases routes.exit with
          | none => exact levels_eq
          | some exit => rfl

variable {lookahead} {path : Path}

theorem path_mem {route : Route} (route_mem : route ∈ routes.all) :
    routes.path route ∈ routes.paths ++ routes.exit.toList :=
  List.mem_append_left _ (List.mem_of_getElem? (hasRoutes route route_mem).2)

theorem mem_of_decideLast (decided : graph.decideLast lookahead routes = .take path) :
    path ∈ routes.paths ++ routes.exit.toList := by
  rw [decideLast] at decided
  split at decided
  next route selected =>
    cases decided
    have indeterminate_eq := (Option.filter_eq_some_iff.mp selected).1
    exact hasRoutes.path_mem (List.mem_append_right _ (Option.mem_toList.mpr indeterminate_eq))
  next =>
    split at decided
    next exit exit_eq =>
      cases decided
      exact List.mem_append_right _ (Option.mem_toList.mpr exit_eq)
    next => cases decided

theorem mem_of_decideLevels {levels : List Nat}
    (decided : graph.decideLevels lookahead routes levels = .take path) :
    path ∈ routes.paths ++ routes.exit.toList := by
  induction levels with
  | nil => exact hasRoutes.mem_of_decideLast decided
  | cons depth deeper ih =>
      rw [decideLevels] at decided
      split at decided
      next =>
        split at decided
        next route found =>
          cases decided
          have route_mem := (List.mem_filter.mp (List.mem_of_find?_eq_some found)).1
          exact hasRoutes.path_mem (List.mem_append_left _ route_mem)
        next => exact ih decided
      next =>
        split at decided
        next => cases decided
        next => exact hasRoutes.mem_of_decideLast decided

/-- A decision takes one of the paths of the node or its exit. -/
theorem mem_of_decide (decided : graph.decide lookahead routes = .take path) :
    path ∈ routes.paths ++ routes.exit.toList := by
  rw [decide] at decided
  split at decided
  next exit _ exit_eq =>
    cases decided
    exact List.mem_append_right _ (Option.mem_toList.mpr exit_eq)
  next => exact hasRoutes.mem_of_decideLevels decided

end HasRoutes

end Graph

/-- The node of the innermost rule that a step moves to, unless it changes the innermost rule. -/
def Step.target? : Step → Option NodeId
  | .goto node => some node
  | .consume _ target => some target
  | _ => none

namespace Graph

/-- Each step that moves to a node moves to one of the rule that is innermost when the step is
taken. -/
def MovesInside (graph : Graph) : (stack : List Frame) → Path → Prop
  | _, [] => True
  | stack, step :: rest =>
      (∀ target, step.target? = some target →
        ∃ top below, stack = top :: below ∧ graph.HasNode { top with node := target }) ∧
      MovesInside graph (step.apply stack) rest

theorem IsSound.movesInside (sound : graph.IsSound) {stack final : List Frame} {path : Path}
    (walk : Walk graph stack path final) : graph.MovesInside stack path := by
  induction walk with
  | refl => trivial
  | @step stack final step steps enabled _ ih =>
      refine ⟨?_, ih⟩
      intro target target_eq
      cases stack with
      | nil => exact (Step.not_isEnabled_nil step enabled).elim
      | cons top below =>
          refine ⟨top, below, rfl, ?_⟩
          cases step with
          | call | leave => cases target_eq
          | goto node =>
              rcases enabled with ⟨edge, edge_mem, _, rfl⟩
              cases target_eq
              exact sound.hasNode_target edge_mem
          | consume matcher node =>
              rcases enabled with ⟨edge, edge_mem, _, rfl⟩
              cases target_eq
              exact sound.hasNode_target edge_mem

/-- What a node decides to do is a walk, whatever rules are being run below. -/
theorem Settles.exists_walk {limits : ResolutionLimits} {frame : Frame} {ways : List Way}
    {division : Division} {routes : Routes}
    (settles : graph.Settles limits frame ways division routes) {path : Path}
    (path_mem : path ∈ routes.paths ++ routes.exit.toList) (below : List Frame) :
    ∃ final, Walk graph (frame :: below) path final := by
  rcases List.mem_append.mp path_mem with path_mem | exit_mem
  · rcases settles.path_mem_iff.mp path_mem with ⟨_, _, taken⟩
    exact ⟨_, taken.1.onTop below⟩
  · have taken := settles.isTakenFrom_exit (Option.mem_toList.mp exit_mem)
    exact ⟨_, taken.1.onTop below⟩

end Graph

end StreamGrammar
