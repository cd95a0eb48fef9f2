import StreamGrammar.Log
import StreamGrammar.Route.Candidate

/-!
# Resolving decisions

`Graph.resolve` works out what is decided at one node. The ways to go on from the
node are its alternatives and, if it can leave its rule without consuming input,
its exit. The alternatives are divided into determinate routes and candidates that
overlap within the lookahead limit. A strict grammar refuses the latter; otherwise
the order of declaration decides between them, and alternatives for which it
leaves nothing are shadowed.
-/

namespace StreamGrammar

/-- How decisions are to be resolved. -/
structure ResolutionLimits where
  /-- The largest number of code points that a decision may look at. -/
  maxLookahead : Nat
  /-- Whether it is a fault to need the order of declaration. -/
  strict : Bool
deriving DecidableEq, Repr

/-- What resolving the decisions of a graph reports besides its result. -/
inductive ResolutionNote where
  /-- The rule can be left in more than one way. -/
  | furtherExit (frame : Frame)
  /-- An alternative is shadowed by earlier ones. -/
  | shadowed (frame : Frame) (matcher : MatcherId)
  /-- Overlapping candidates are decided by their order at some depth. -/
  | ordered (frame : Frame) (depth : Nat)
  /-- A node is resolved. -/
  | resolved (frame : Frame) (alternatives : Nat) (depth : Nat)
  /-- A node cannot be resolved. -/
  | failed (error : BuildError)
deriving DecidableEq, Repr

/-- The outcome of resolving something, with what was reported on the way. -/
structure Resolution (Result : Type) where
  notes : List ResolutionNote
  result : Except BuildError Result

namespace Resolution

/-- Puts notes before those of a resolution. -/
def noting {Result : Type} (notes : List ResolutionNote) (resolution : Resolution Result) :
    Resolution Result :=
  { resolution with notes := notes ++ resolution.notes }

end Resolution

/-- How overlapping candidates are decided. -/
structure Preference where
  horizon : List Route := []
  indeterminate : Option Route := none
  shadowed : List Nat := []

namespace Graph

/-- The fault of a node that can leave its rule in more than one way. -/
def ambiguousExit (graph : Graph) (frame : Frame) : BuildError :=
  .ambiguousExit (graph.ruleName frame.rule) (graph.nodeName frame)

/-- A sequence of matchers as messages mention it. Single code points are written together. -/
def describeSequence (graph : Graph) (lookahead : List MatcherId) : String :=
  let pieces := lookahead.map graph.describe
  if pieces.all (·.length == 1) then String.join pieces else " ".intercalate pieces

def ambiguity (graph : Graph) (frame : Frame) (overlapping : List Candidate) : BuildError :=
  let descriptions := overlapping.map fun candidate => graph.describeSequence candidate.lookahead
  .ambiguous (graph.ruleName frame.rule) (graph.nodeName frame) descriptions.eraseDups

/-- Whether a candidate kept before this one is chosen whenever this one could be. -/
def isCovered (graph : Graph) (kept : List Candidate) (candidate : Candidate) : Bool :=
  kept.any fun earlier =>
    earlier.alternative != candidate.alternative &&
      graph.covers earlier.lookahead candidate.lookahead

/-- The candidates that are not covered by earlier ones of other alternatives. -/
def survivors (graph : Graph) (overlapping : List Candidate) : List Candidate :=
  overlapping.foldl (fun kept candidate =>
    if graph.isCovered kept candidate then kept else kept ++ [candidate]) []

/-- Decides overlapping candidates by their order. If one alternative is all that survives, it is
chosen by its first matcher; if there are more, the first candidate that is fulfilled counts. -/
def prefer (graph : Graph) (division : Division) : Preference :=
  let survivors := graph.survivors division.overlapping
  let surviving := (survivors.map Candidate.alternative).eraseDups
  let decided := division.determinate.map Route.alternative
  let shadowed := (division.overlapping.map Candidate.alternative).eraseDups.filter
    fun alternative => !surviving.contains alternative && !decided.contains alternative
  match survivors, surviving with
  | first :: _, [alternative] =>
      let lookahead := first.lookahead.take 1
      { indeterminate := some { depth := 1, lookahead, isOpen := true, alternative }, shadowed }
  | _, _ => { horizon := survivors.map (·.toRoute division.depth), shadowed }

/-- What deciding candidates by their order reports. -/
def preferenceNotes (frame : Frame) (paths : List Path) (division : Division)
    (preference : Preference) : List ResolutionNote :=
  let matchers := preference.shadowed.filterMap fun alternative =>
    paths[alternative]?.bind Path.matcher?
  let ordered := if preference.indeterminate.isSome then [] else [.ordered frame division.depth]
  matchers.map (.shadowed frame) ++ ordered

/-- What messages say an alternative begins with: the whole sequence of matchers if a single route
selects it, otherwise the first one. An alternative without routes is not mentioned. -/
def expectation? (graph : Graph) (routes : List Route) (alternative : Nat) : Option String :=
  match routes.filter (·.alternative == alternative) with
  | [] => none
  | [route] => some (graph.describeSequence route.lookahead)
  | route :: _ => some (graph.describeSequence (route.lookahead.take 1))

/-- The routes of a node, from its paths, its exit, and what decides between them. -/
def assembleRoutes (graph : Graph) (paths : List Path) (exit : Option Path)
    (determinate : List Route) (preference : Preference) : Routes :=
  let leveled := determinate ++ preference.horizon
  let routes := leveled ++ preference.indeterminate.toList
  { paths, exit, determinate
    horizon := preference.horizon
    indeterminate := preference.indeterminate
    shadowed := preference.shadowed
    expected := ((List.range paths.length).filterMap (graph.expectation? routes)).eraseDups
    levels := (leveled.map Route.depth).eraseDups }

/-- Resolves the alternatives of a node, each of which is a path, a first matcher, and the place
where the path leads to. -/
def resolveAlternatives (graph : Graph) (limits : ResolutionLimits) (frame : Frame)
    (alternatives : List (Path × MatcherId × Place)) (exit : Option Path) : Resolution Routes :=
  let paths := alternatives.map Prod.fst
  let candidates := alternatives.zipIdx.map fun ((_, matcher, next), alternative) =>
    { alternative, lookahead := [matcher], next := some next : Candidate }
  match graph.divide (limits.maxLookahead - 1) 1 candidates with
  | .error error => ⟨[], .error error⟩
  | .ok division =>
      if division.overlapping.isEmpty then
        ⟨[], .ok (graph.assembleRoutes paths exit division.determinate {})⟩
      else if limits.strict then
        ⟨[], .error (graph.ambiguity frame division.overlapping)⟩
      else
        let preference := graph.prefer division
        ⟨preferenceNotes frame paths division preference,
          .ok (graph.assembleRoutes paths exit division.determinate preference)⟩

/-- Resolves the ways to go on from a node. -/
def resolveWays (graph : Graph) (limits : ResolutionLimits) (frame : Frame)
    (ways : List Way) : Resolution Routes :=
  let alternatives := ways.filterMap fun
    | .consuming steps matcher next => some (steps, matcher, next)
    | .leaving _ => none
  let exits := ways.filterMap fun
    | .consuming .. => none
    | .leaving steps => some steps
  if limits.strict && exits.length > 1 then ⟨[], .error (graph.ambiguousExit frame)⟩
  else
    (graph.resolveAlternatives limits frame alternatives exits.head?).noting
      (List.replicate (exits.length - 1) (.furtherExit frame))

def resolveNode (graph : Graph) (limits : ResolutionLimits) (frame : Frame) : Resolution Routes :=
  match graph.ways { top := frame } with
  | .error error => ⟨[], .error error⟩
  | .ok ways => graph.resolveWays limits frame ways

/-- Resolves a node, or nothing if a rule ends there, and reports how it went. -/
def resolve (graph : Graph) (limits : ResolutionLimits) (frame : Frame) :
    Resolution (Option Routes) :=
  if (graph.outgoing frame).isEmpty then ⟨[], .ok none⟩
  else
    let resolution := graph.resolveNode limits frame
    match resolution.result with
    | .ok routes =>
        let note := .resolved frame routes.paths.length routes.maxDepth
        ⟨resolution.notes ++ [note], .ok (some routes)⟩
    | .error error => ⟨resolution.notes ++ [.failed error], .error error⟩

end Graph

def Log.Record.ofFault (error : BuildError) : Log.Record :=
  ⟨.debug, .faults, "grammar error: " ++ error.message⟩

namespace Graph

def noteRecord (graph : Graph) (note : ResolutionNote) : Log.Record :=
  let node (frame : Frame) :=
    s!"node {graph.nodeName frame} of rule '{graph.ruleName frame.rule}'"
  match note with
  | .furtherExit frame =>
      ⟨.warn, .resolution,
        (graph.ambiguousExit frame).message ++ ", the first declared one is used"⟩
  | .shadowed frame matcher =>
      ⟨.warn, .resolution,
        s!"{node frame}: an alternative starting with {graph.describe matcher} is shadowed by " ++
          "an earlier one"⟩
  | .ordered frame depth =>
      ⟨.debug, .resolution, s!"{node frame} relies on declaration order at depth {depth}"⟩
  | .resolved frame alternatives depth =>
      ⟨.debug, .resolution,
        s!"resolved {graph.ruleName frame.rule}:{graph.nodeName frame} into {alternatives} " ++
          s!"alternatives, max depth {depth}"⟩
  | .failed error => .ofFault error

end Graph

end StreamGrammar
