import StreamGrammar.Grammar
import StreamGrammar.Input.Lookahead

/-!
# Taking decisions

At a node with routes the waiting symbols decide how to go on. The routes are
tested level by level, each level once enough symbols wait for it. A decision is
put off only while a route that looks at more symbols than wait could still be
fulfilled. If no route is fulfilled, the rule is left without consuming input, if
it can be; at the end of the input that is done in any case.
-/

namespace StreamGrammar

/-- What is decided at a node. -/
inductive Decision where
  /-- More symbols have to arrive. -/
  | needMore
  | take (path : Path)
  /-- The waiting symbols are none of what could have come. -/
  | reject
deriving DecidableEq, Repr

namespace Lookahead

/-- The symbol at a position, where nothing waits the end of the input. -/
def symbolAt (lookahead : Lookahead) (position : Nat) : Symbol :=
  (lookahead.get? position).getD .endOfInput

end Lookahead

namespace Graph

/-- Whether the symbols that wait fulfil the condition of a route as far as they go. -/
def remainsPossible (graph : Graph) (lookahead : Lookahead) (route : Route) : Bool :=
  (route.lookahead.take lookahead.length).zipIdx.all fun (matcher, position) =>
    graph.accepts matcher (lookahead.symbolAt position)

/-- Whether a route that looks at `depth` or more symbols can still be fulfilled. -/
def deeperPossible (graph : Graph) (lookahead : Lookahead) (routes : Routes) (depth : Nat) :
    Bool :=
  routes.leveled.any fun route =>
    depth ≤ route.depth && graph.remainsPossible lookahead route

/-- What is decided when no route of any level is fulfilled. -/
def decideLast (graph : Graph) (lookahead : Lookahead) (routes : Routes) : Decision :=
  match routes.indeterminate.filter (·.selects graph lookahead.symbolAt) with
  | some route => .take (routes.path route)
  | none =>
      match routes.exit with
      | some exit => .take exit
      | none => .reject

/-- What the routes of the given levels decide. -/
def decideLevels (graph : Graph) (lookahead : Lookahead) (routes : Routes) :
    List Nat → Decision
  | [] => graph.decideLast lookahead routes
  | depth :: deeper =>
      if lookahead.satisfies depth then
        match (routes.atLevel depth).find? (·.selects graph lookahead.symbolAt) with
        | some route => .take (routes.path route)
        | none => graph.decideLevels lookahead routes deeper
      else if graph.deeperPossible lookahead routes depth then .needMore
      else graph.decideLast lookahead routes

def decide (graph : Graph) (lookahead : Lookahead) (routes : Routes) : Decision :=
  match lookahead.front?, routes.exit with
  | some .endOfInput, some exit => .take exit
  | _, _ => graph.decideLevels lookahead routes routes.levels

end Graph

end StreamGrammar
