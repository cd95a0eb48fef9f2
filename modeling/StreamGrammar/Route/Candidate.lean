import StreamGrammar.Route.Way

/-!
# Telling alternatives apart

A `Candidate` is an alternative followed along one sequence of matchers. Two
candidates are told apart by a position at which their matchers accept no common
code point. Candidates that are told apart from every other alternative become
routes; the others are followed for one more code point each, until all are
decided, none can be followed further, or the lookahead limit is reached.
-/

namespace StreamGrammar

/-- An alternative, followed along a sequence of matchers. -/
structure Candidate where
  alternative : Nat
  lookahead : List MatcherId
  /-- Where the alternative has led to, or nothing once it has left the rule. -/
  next : Option Place
deriving DecidableEq, Repr

namespace Candidate

/-- Whether the alternative has left the rule, so that it cannot be followed further. -/
def isOpen (candidate : Candidate) : Bool := candidate.next.isNone

/-- The candidate as a route that is tested once `depth` code points have arrived. -/
def toRoute (candidate : Candidate) (depth : Nat) : Route where
  depth
  lookahead := candidate.lookahead
  isOpen := candidate.isOpen
  alternative := candidate.alternative

/-- The candidate after one of the ways to go on from where it has led to. -/
def follow (candidate : Candidate) : Way → Candidate
  | .consuming _ matcher next =>
      { candidate with lookahead := candidate.lookahead ++ [matcher], next := some next }
  | .leaving _ => { candidate with next := none }

end Candidate

/-- What following the candidates up to some depth results in. -/
structure Division where
  /-- The routes of the candidates that are told apart from all others. -/
  determinate : List Route
  /-- The candidates that are not. -/
  overlapping : List Candidate
  /-- The number of code points up to which the overlapping candidates were followed. -/
  depth : Nat

namespace Graph

/-- Whether some position tells two sequences of matchers apart. -/
def separated (graph : Graph) (left right : List MatcherId) : Bool :=
  (left.zip right).any fun (first, second) =>
    (graph.charSet first).isDisjoint (graph.charSet second)

/-- Whether every text that fulfils `later` fulfils `earlier`. -/
def covers (graph : Graph) (earlier later : List MatcherId) : Bool :=
  earlier.length ≤ later.length &&
    (earlier.zip later).all fun (first, second) =>
      (graph.charSet second).isSubset (graph.charSet first)

/-- Whether a candidate is told apart from those of every other alternative. -/
def isDistinct (graph : Graph) (candidates : List Candidate) (candidate : Candidate) : Bool :=
  candidates.all fun other =>
    other.alternative == candidate.alternative ||
      graph.separated candidate.lookahead other.lookahead

/-- The candidates that take the place of one: itself if it has left the rule, else one for each
way to go on. -/
def continuations (graph : Graph) (candidate : Candidate) : Except BuildError (List Candidate) :=
  match candidate.next with
  | none => return [candidate]
  | some place => return (← graph.ways place).map candidate.follow

/-- Follows every candidate for one more code point. Equal candidates are kept once. -/
def followAll (graph : Graph) (candidates : List Candidate) : Except BuildError (List Candidate) := do
  let continued ← candidates.flatMapM graph.continuations
  return continued.eraseDups

/-- Divides the candidates, which were followed for `depth` code points, into routes and those that
still overlap when they have been followed for up to `remaining` more. -/
def divide (graph : Graph) :
    (remaining : Nat) → (depth : Nat) → List Candidate → Except BuildError Division
  | remaining, depth, candidates => do
      let (distinct, overlapping) := candidates.partition (graph.isDistinct candidates)
      let determinate := distinct.map (·.toRoute depth)
      if overlapping.all Candidate.isOpen then
        return { determinate, overlapping, depth }
      match remaining with
      | 0 => return { determinate, overlapping, depth }
      | remaining + 1 =>
          let division ← graph.divide remaining (depth + 1) (← graph.followAll overlapping)
          return { division with determinate := determinate ++ division.determinate }

end Graph

end StreamGrammar
