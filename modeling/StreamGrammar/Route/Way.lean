import StreamGrammar.BuildError
import StreamGrammar.Route

/-!
# Ways to go on without consuming input

A `Place` is a node of the graph, with the nodes at which the rules that are being
run will continue. From a place one can fall through, call rules and return from
them, until an edge consumes a code point or the outermost rule is left.
`Graph.ways` lists all these ways in the order in which the edges are declared, the
whole of what one edge leads to before the next edge.

There must be finitely many. The search gives up at a place that repeats one on the
way to it, possibly with more rules being run in between, because the way could
then be repeated for ever; and it gives up on a way of more than `maxWayLength`
steps.
-/

namespace StreamGrammar

/-- A node, and the nodes at which the calling rules continue, the innermost first. -/
structure Place where
  top : Frame
  below : List Frame := []
deriving DecidableEq, Repr

namespace Place

/-- The place at another node of the same rule. -/
def moveTo (place : Place) (node : NodeId) : Place :=
  { place with top := { place.top with node } }

/-- The place at the entry of a called rule. -/
def enter (place : Place) (callee : RuleId) : Place :=
  ⟨⟨callee, Rule.entry⟩, place.top :: place.below⟩

/-- Whether `later` is at the same node as `place`, with the same rules being run below it and
possibly more of them in between. -/
def repeatsIn (place later : Place) : Bool :=
  place.top == later.top &&
    later.below.drop (later.below.length - place.below.length) == place.below

theorem repeatsIn_iff {place later : Place} :
    place.repeatsIn later = true ↔ place.top = later.top ∧ place.below <:+ later.below := by
  simp only [repeatsIn, Bool.and_eq_true, beq_iff_eq, List.suffix_iff_eq_drop]
  exact and_congr_right fun _ => eq_comm

end Place

/-- A way to go on without consuming input, up to where it ends. -/
inductive Way where
  /-- The last step consumes a code point. -/
  | consuming (steps : Path) (matcher : MatcherId) (next : Place)
  /-- The last step leaves the outermost rule. -/
  | leaving (steps : Path)
deriving DecidableEq, Repr

/-- The way that takes one more step at first. -/
def Way.after (step : Step) : Way → Way
  | .consuming steps matcher next => .consuming (step :: steps) matcher next
  | .leaving steps => .leaving (step :: steps)

/-- The largest number of steps that a way is followed for. -/
def maxWayLength : Nat := 4096

namespace Graph

def epsilonCycle (graph : Graph) (frame : Frame) : BuildError :=
  .epsilonCycle (graph.ruleName frame.rule) (graph.nodeName frame)

/-- The ways to go on from a place. `trail` holds the places on the way to it, and `remaining`
is the number of places that may still be added. -/
def waysWithin (graph : Graph) :
    (remaining : Nat) → (trail : List Place) → Place → Except BuildError (List Way)
  | 0, _, place => .error (graph.epsilonCycle place.top)
  | remaining + 1, trail, place =>
      if trail.any (·.repeatsIn place) then .error (graph.epsilonCycle place.top)
      else
        match graph.outgoing place.top, place.below with
        | [], [] => .ok [.leaving [.leave]]
        | [], caller :: below => do
            let ways ← graph.waysWithin remaining (place :: trail) ⟨caller, below⟩
            return ways.map (Way.after .leave)
        | edges, _ =>
            edges.flatMapM fun edge => do
              let moved := place.moveTo edge.target
              match edge.kind with
              | .consume matcher =>
                  return [.consuming [.consume matcher edge.target] matcher moved]
              | .goto =>
                  let ways ← graph.waysWithin remaining (place :: trail) moved
                  return ways.map (Way.after (.goto edge.target))
              | .call callee =>
                  let ways ← graph.waysWithin remaining (place :: trail) (moved.enter callee)
                  return ways.map (Way.after (.call callee edge.target))

/-- The ways to go on from a place, in order of declaration. -/
def ways (graph : Graph) (place : Place) : Except BuildError (List Way) :=
  graph.waysWithin (maxWayLength + 1) [] place

end Graph

end StreamGrammar
