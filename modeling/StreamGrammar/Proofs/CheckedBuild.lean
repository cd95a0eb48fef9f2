import StreamGrammar.Proofs.CheckedResolution

/-!
# Building with every lookup checked

When candidates have been divided, the order of declaration decides between those that
overlap, alternatives are described, and what was decided is noted. All this looks up
paths by the alternatives of candidates and routes, and the first matchers of either.
Candidates stand for walks that begin with the path of their alternative and consume
something, so that none of these lookups misses, and a grammar is built from every graph
that was assembled, or refused, without one that does.
-/

namespace StreamGrammar

namespace Graph

section Definitions

variable (graph : Graph)

def ambiguousExit? (frame : Frame) : Option BuildError := do
  return .ambiguousExit (← graph.ruleName? frame.rule) (← graph.nodeName? frame)

def describeSequence? (lookahead : List MatcherId) : Option String := do
  let pieces ← lookahead.mapM graph.describe?
  return if pieces.all (·.length == 1) then String.join pieces else " ".intercalate pieces

def ambiguity? (frame : Frame) (overlapping : List Candidate) : Option BuildError := do
  let descriptions ← overlapping.mapM fun candidate => graph.describeSequence? candidate.lookahead
  let ruleName ← graph.ruleName? frame.rule
  let nodeName ← graph.nodeName? frame
  return .ambiguous ruleName nodeName descriptions.eraseDups

def isCovered? (kept : List Candidate) (candidate : Candidate) : Option Bool :=
  kept.anyM fun earlier =>
    if earlier.alternative != candidate.alternative then
      graph.covers? earlier.lookahead candidate.lookahead
    else some false

def survivors? (overlapping : List Candidate) : Option (List Candidate) :=
  overlapping.foldlM (fun kept candidate => do
    let covered ← graph.isCovered? kept candidate
    return if covered then kept else kept ++ [candidate]) []

def prefer? (division : Division) : Option Preference := do
  let survivors ← graph.survivors? division.overlapping
  let surviving := (survivors.map Candidate.alternative).eraseDups
  let decided := division.determinate.map Route.alternative
  let shadowed := (division.overlapping.map Candidate.alternative).eraseDups.filter
    fun alternative => !surviving.contains alternative && !decided.contains alternative
  match surviving with
  | [_] =>
      let first ← survivors[0]?
      let matcher ← first.lookahead[0]?
      let route := { depth := 1, lookahead := [matcher], isOpen := true,
                     alternative := first.alternative : Route }
      return { indeterminate := some route, shadowed }
  | _ => return { horizon := survivors.map (·.toRoute division.depth), shadowed }

def preferenceNotes? (frame : Frame) (paths : List Path) (division : Division)
    (preference : Preference) : Option (List ResolutionNote) := do
  let shadowed ← preference.shadowed.mapM (paths[·]?)
  let ordered := if preference.indeterminate.isSome then [] else [.ordered frame division.depth]
  return (shadowed.filterMap Path.matcher?).map (.shadowed frame) ++ ordered

/-- What messages say an alternative begins with, if a route selects it. -/
def expectationFor? (paths : List Path) (routes : List Route) (alternative : Nat) :
    Option (Option String) := do
  match routes.filter (·.alternative == alternative) with
  | [] => return none
  | [route] =>
      let _ ← paths[route.alternative]?
      return some (← graph.describeSequence? route.lookahead)
  | route :: _ =>
      let path ← paths[route.alternative]?
      match path.matcher? with
      | some matcher => return some (← graph.describe? matcher)
      | none =>
          let first ← route.lookahead[0]?
          return some (← graph.describeSequence? [first])

def assembleRoutes? (paths : List Path) (exit : Option Path) (determinate : List Route)
    (preference : Preference) : Option Routes := do
  let leveled := determinate ++ preference.horizon
  let routes := leveled ++ preference.indeterminate.toList
  let _ ← routes.mapM fun route => paths[route.alternative]?
  let expectations ← (List.range paths.length).mapM (graph.expectationFor? paths routes)
  return { paths, exit, determinate
           horizon := preference.horizon
           indeterminate := preference.indeterminate
           shadowed := preference.shadowed
           expected := (expectations.filterMap id).eraseDups
           levels := (leveled.map Route.depth).eraseDups }

def resolveAlternatives? (limits : ResolutionLimits) (frame : Frame)
    (alternatives : List (Path × MatcherId × Place)) (exit : Option Path) :
    Option (Resolution Routes) := do
  let paths := alternatives.map Prod.fst
  let candidates := Candidate.firstOnes alternatives
  match ← (graph.divide? (limits.maxLookahead - 1) 1 candidates).run with
  | .error error => return ⟨[], .error error⟩
  | .ok division =>
      if division.overlapping.isEmpty then
        let routes ← graph.assembleRoutes? paths exit division.determinate {}
        return ⟨[], .ok routes⟩
      else if limits.strict then
        let error ← graph.ambiguity? frame division.overlapping
        return ⟨[], .error error⟩
      else
        let preference ← graph.prefer? division
        let notes ← preferenceNotes? frame paths division preference
        let routes ← graph.assembleRoutes? paths exit division.determinate preference
        return ⟨notes, .ok routes⟩

def resolveWays? (limits : ResolutionLimits) (frame : Frame) (ways : List Way) :
    Option (Resolution Routes) := do
  let exits := ways.filterMap Way.exit?
  if limits.strict && exits.length > 1 then
    let error ← graph.ambiguousExit? frame
    return ⟨[], .error error⟩
  else
    let resolution ←
      graph.resolveAlternatives? limits frame (ways.filterMap Way.alternative?) exits.head?
    return resolution.noting (List.replicate (exits.length - 1) (.furtherExit frame))

def resolveNode? (limits : ResolutionLimits) (frame : Frame) : Option (Resolution Routes) := do
  match ← (graph.ways? { top := frame }).run with
  | .error error => return ⟨[], .error error⟩
  | .ok ways => graph.resolveWays? limits frame ways

def resolve? (limits : ResolutionLimits) (frame : Frame) :
    Option (Resolution (Option Routes)) := do
  let edges ← graph.outgoing? frame
  if edges.isEmpty then return ⟨[], .ok none⟩
  else
    let resolution ← graph.resolveNode? limits frame
    match resolution.result with
    | .ok routes =>
        let note := .resolved frame routes.paths.length routes.maxDepth
        return ⟨resolution.notes ++ [note], .ok (some routes)⟩
    | .error error => return ⟨resolution.notes ++ [.failed error], .error error⟩

def nodeText? (frame : Frame) : Option String := do
  let ruleName ← graph.ruleName? frame.rule
  let nodeName ← graph.nodeName? frame
  return s!"node {nodeName} of rule '{ruleName}'"

def noteRecord? : ResolutionNote → Option Log.Record
  | .furtherExit frame => do
      let error ← graph.ambiguousExit? frame
      return ⟨.warn, .resolution, error.message ++ ", the first declared one is used"⟩
  | .shadowed frame matcher => do
      let node ← graph.nodeText? frame
      let description ← graph.describe? matcher
      return ⟨.warn, .resolution,
        s!"{node}: an alternative starting with {description} is shadowed by " ++
          "an earlier one"⟩
  | .ordered frame depth => do
      let node ← graph.nodeText? frame
      return ⟨.debug, .resolution, s!"{node} relies on declaration order at depth {depth}"⟩
  | .resolved frame alternatives depth => do
      let ruleName ← graph.ruleName? frame.rule
      let nodeName ← graph.nodeName? frame
      return ⟨.debug, .resolution,
        s!"resolved {ruleName}:{nodeName} into {alternatives} " ++
          s!"alternatives, max depth {depth}"⟩
  | .failed error => some (.ofFault error)

def buildFrom? (config : GrammarConfig) (start : RuleId) : Option BuildReport := do
  let limits := ⟨config.maxLookahead, config.strict⟩
  let unreached ← graph.reachabilityRecords? start
  let resolved ← graph.rules.toList.zipIdx.mapM fun (rule, id) =>
    (List.range rule.nodes.size).mapM fun node => graph.resolve? limits ⟨id, node⟩
  let noted ← (resolved.flatten.flatMap Resolution.notes).mapM graph.noteRecord?
  match resolutionFaults resolved.flatten with
  | [] =>
      let startName ← graph.ruleName? start
      let built : Log.Record := ⟨.debug, .assembly,
        s!"built grammar with {graph.rules.size} rules, {graph.matchers.size} matchers, " ++
          s!"start '{startName}'"⟩
      let tables := (resolved.map fun table => (table.map decision).toArray).toArray
      return ⟨unreached ++ noted ++ [built],
        .ok { graph with start, maxLookahead := config.maxLookahead, tables }⟩
  | errors => return ⟨unreached ++ noted, .error errors⟩

def build? (config : GrammarConfig) : Option BuildReport :=
  match graph.initialFaults config, graph.ruleByName? config.start with
  | [], some start => graph.buildFrom? config start
  | errors, _ => some ⟨errors.map .ofFault, .error errors⟩

end Definitions

variable {graph : Graph}

section Deciding

theorem HasNode.ambiguousExit?_eq {frame : Frame} (exist : graph.HasNode frame) :
    graph.ambiguousExit? frame = some (graph.ambiguousExit frame) := by
  simp [ambiguousExit?, ambiguousExit, exist.ruleName?_eq, exist.nodeName?_eq]

theorem describeSequence?_eq {lookahead : List MatcherId} (known : graph.HasMatchers lookahead) :
    graph.describeSequence? lookahead = some (graph.describeSequence lookahead) := by
  have pieces_eq : lookahead.mapM graph.describe? = some (lookahead.map graph.describe) :=
    mapM_eq_some_map fun matcher matcher_mem => describe?_eq (known matcher matcher_mem)
  rw [describeSequence?, pieces_eq]
  rfl

variable {overlapping : List Candidate}
  (known : ∀ candidate ∈ overlapping, graph.HasMatchers candidate.lookahead)

include known

theorem HasNode.ambiguity?_eq {frame : Frame} (exist : graph.HasNode frame) :
    graph.ambiguity? frame overlapping = some (graph.ambiguity frame overlapping) := by
  have descriptions_eq : (overlapping.mapM fun candidate =>
      graph.describeSequence? candidate.lookahead) =
        some (overlapping.map fun candidate => graph.describeSequence candidate.lookahead) :=
    mapM_eq_some_map fun candidate candidate_mem =>
      describeSequence?_eq (known candidate candidate_mem)
  simp [ambiguity?, ambiguity, descriptions_eq, exist.ruleName?_eq, exist.nodeName?_eq]

theorem survivors?_eq : graph.survivors? overlapping = some (graph.survivors overlapping) := by
  induction overlapping using List.reverseRecOn with
  | nil => rfl
  | append_singleton before last ih =>
      rcases List.forall_mem_append.mp known with ⟨beforeKnown, lastKnown⟩
      have covered_eq : graph.isCovered? (graph.survivors before) last =
          some (graph.isCovered (graph.survivors before) last) := by
        refine anyM_eq_some_any fun earlier earlier_mem => ?_
        rw [covers?_eq (beforeKnown earlier ((survivors_sublist before).mem earlier_mem))
          (lastKnown last (List.mem_singleton_self last))]
        cases earlier.alternative != last.alternative <;> rfl
      have before_eq := ih beforeKnown
      rw [survivors?] at before_eq ⊢
      rw [List.foldlM_append, before_eq, survivors_concat]
      simp [covered_eq]

end Deciding

/-- What a node would be resolved into if the grammar were not strict. -/
theorem settles_of_divide {maxLookahead : Nat} {frame : Frame} {ways : List Way}
    {division : Division} (ways_eq : graph.ways { top := frame } = .ok ways)
    (found : graph.divide (maxLookahead - 1) 1
      (Candidate.firstOnes (ways.filterMap Way.alternative?)) = .ok division) :
    graph.Settles ⟨maxLookahead, false⟩ frame ways division
      (graph.assembleRoutes ((ways.filterMap Way.alternative?).map Prod.fst)
        (ways.filterMap Way.exit?).head? division.determinate (graph.prefer division)) :=
  ⟨ways_eq, divides_of_divide found, by simp, rfl⟩

namespace Settles

variable {limits : ResolutionLimits} {frame : Frame} {ways : List Way} {division : Division}
  {routes : Routes} (settles : graph.Settles limits frame ways division routes)

include settles

theorem hasMatchers_overlapping (sound : graph.IsSound) :
    ∀ last ∈ division.overlapping, graph.HasMatchers last.lookahead := fun last last_mem =>
  sound.hasMatchers_of_isFollowed (settles.overlapping_isFollowed last last_mem)

theorem prefer?_eq (sound : graph.IsSound) :
    graph.prefer? division = some (graph.prefer division) := by
  simp only [prefer?, prefer, survivors?_eq (settles.hasMatchers_overlapping sound),
    Option.bind_eq_bind, Option.bind_some]
  cases survivors_eq : graph.survivors division.overlapping with
  | nil => rfl
  | cons first rest =>
      have first_mem : first ∈ graph.survivors division.overlapping := by
        rw [survivors_eq]
        exact List.mem_cons_self
      have followed := settles.overlapping_isFollowed first ((survivors_sublist _).mem first_mem)
      rcases settles.begins_of_isFollowed followed with ⟨_, matcher, others, _, _, lookahead_eq⟩
      split
      next alternative surviving_eq =>
        have alternative_eq : first.alternative = alternative := by
          rw [← List.mem_singleton, ← surviving_eq, List.mem_eraseDups]
          exact List.mem_map_of_mem List.mem_cons_self
        rw [surviving_eq]
        simp [lookahead_eq, alternative_eq]
      next several =>
        split
        next alternative _ surviving_eq => exact (several alternative surviving_eq).elim
        next => rfl

theorem preferenceNotes?_eq : preferenceNotes? frame routes.paths division (graph.prefer division) =
    some (preferenceNotes frame routes.paths division (graph.prefer division)) := by
  have shadowed_eq : ∀ alternative ∈ (graph.prefer division).shadowed,
      routes.paths[alternative]? = some (routes.paths[alternative]?.getD []) := by
    intro alternative alternative_mem
    rcases settles.exists_path_of_mem_shadowed alternative_mem with ⟨path, path_eq⟩
    rw [path_eq, Option.getD_some]
  rw [preferenceNotes?, mapM_eq_some_map shadowed_eq]
  have matchers_eq : ((graph.prefer division).shadowed.filterMap fun alternative =>
      routes.paths[alternative]?.bind Path.matcher?) =
        ((graph.prefer division).shadowed.map
          fun alternative => routes.paths[alternative]?.getD []).filterMap Path.matcher? := by
    rw [List.filterMap_map]
    refine List.filterMap_congr fun alternative alternative_mem => ?_
    rw [shadowed_eq alternative alternative_mem]
    rfl
  rw [preferenceNotes, matchers_eq]
  rfl

theorem hasMatchers_route (sound : graph.IsSound) {route : Route} (route_mem : route ∈ routes.all) :
    graph.HasMatchers route.lookahead := by
  rcases List.mem_append.mp route_mem with leveled_mem | indeterminate_mem
  · rcases settles.leveled_isFollowed leveled_mem with ⟨candidate, followed, route_eq⟩
    rw [← route_eq]
    exact sound.hasMatchers_of_isFollowed followed
  · rw [Option.mem_toList] at indeterminate_mem
    rcases settles.indeterminate_cases indeterminate_mem with ⟨first, first_mem, _, _, rfl⟩
    intro matcher matcher_mem
    exact settles.hasMatchers_overlapping sound first ((survivors_sublist _).mem first_mem) matcher
      (List.mem_of_mem_take matcher_mem)

/-- Whatever routes select an alternative, it can be described. -/
theorem expectationFor?_eq (sound : graph.IsSound) (alternative : Nat) :
    graph.expectationFor? routes.paths routes.all alternative =
      some (graph.expectation? routes.all alternative) := by
  simp only [expectationFor?, expectation?]
  cases selected : routes.all.filter (·.alternative == alternative) with
  | nil => rfl
  | cons route others =>
      have route_mem : route ∈ routes.all := by
        have selected_mem : route ∈ routes.all.filter (·.alternative == alternative) := by
          rw [selected]
          exact List.mem_cons_self
        exact (List.mem_filter.mp selected_mem).1
      have known := settles.hasMatchers_route sound route_mem
      rcases settles.route_begins route_mem with
        ⟨path, matcher, rest, path_eq, matchers_eq, route_eq⟩
      cases others with
      | nil => simp [path_eq, describeSequence?_eq known]
      | cons =>
          -- Several routes share the first matcher, which is the one that the path consumes.
          rcases settles.matcher?_of_mem_paths (List.mem_of_getElem? path_eq) with
            ⟨last, last_eq, last_matchers⟩
          have same : last = matcher := by simpa [last_matchers] using matchers_eq
          rw [same] at last_eq
          have matcher_known : matcher < graph.matchers.size :=
            known matcher (by simp [route_eq])
          have described : graph.describeSequence [matcher] = graph.describe matcher := by
            simp [describeSequence]
          simp [path_eq, last_eq, route_eq, describe?_eq matcher_known, described]

theorem assembleRoutes?_eq (sound : graph.IsSound) :
    graph.assembleRoutes? routes.paths routes.exit division.determinate (graph.prefer division) =
      some routes := by
  have all_eq : routes.all = division.determinate ++ (graph.prefer division).horizon ++
      (graph.prefer division).indeterminate.toList := by
    rw [Routes.all, Routes.leveled, settles.determinate_eq, settles.horizon_eq,
      settles.indeterminate_eq]
  have path_eq : ∀ route ∈ routes.all, routes.paths[route.alternative]? =
      some (routes.path route) := by
    intro route route_mem
    rcases settles.route_begins route_mem with ⟨path, _, _, path_eq, _, _⟩
    rw [Routes.path, path_eq, Option.getD_some]
  have expectations_eq : (List.range routes.paths.length).mapM
      (graph.expectationFor? routes.paths routes.all) =
        some ((List.range routes.paths.length).map (graph.expectation? routes.all)) :=
    mapM_eq_some_map fun alternative _ => settles.expectationFor?_eq sound alternative
  rw [assembleRoutes?, ← all_eq, bind_of_eq_some (mapM_eq_some_map path_eq),
    bind_of_eq_some expectations_eq, List.filterMap_map]
  conv_rhs =>
    rw [settles.routes_eq, assembleRoutes, ← settles.paths_eq, ← settles.exit_eq, ← all_eq]
  rfl

end Settles

section Resolving

variable {limits : ResolutionLimits} {frame : Frame} {ways : List Way}
  (sound : graph.IsSound) (exist : graph.HasNode frame)

include sound exist

theorem IsSound.resolveAlternatives?_eq (ways_eq : graph.ways { top := frame } = .ok ways) :
    graph.resolveAlternatives? limits frame (ways.filterMap Way.alternative?)
        (ways.filterMap Way.exit?).head? =
      some (graph.resolveAlternatives limits frame (ways.filterMap Way.alternative?)
        (ways.filterMap Way.exit?).head?) := by
  have divide_eq := sound.divide?_eq exist (limits.maxLookahead - 1) (isFollowed_firstOnes ways_eq)
  rw [resolveAlternatives?, bind_of_eq_some divide_eq, resolveAlternatives]
  rw [← Candidate.firstOnes]
  cases found : graph.divide (limits.maxLookahead - 1) 1
      (Candidate.firstOnes (ways.filterMap Way.alternative?)) with
  | error fault => rfl
  | ok division =>
      have settles := settles_of_divide ways_eq found
      have routes_eq := settles.assembleRoutes?_eq sound
      have notes_eq := settles.preferenceNotes?_eq
      rw [settles.paths_eq, settles.exit_eq] at routes_eq
      rw [settles.paths_eq] at notes_eq
      dsimp only
      cases isEmpty : division.overlapping.isEmpty with
      | true =>
          rw [prefer_of_overlapping_nil (List.isEmpty_iff.mp isEmpty)] at routes_eq
          rw [if_pos rfl, routes_eq]
          rfl
      | false =>
          rw [if_neg Bool.false_ne_true, if_neg Bool.false_ne_true]
          cases limits.strict with
          | true =>
              rw [if_pos rfl, exist.ambiguity?_eq (settles.hasMatchers_overlapping sound)]
              rfl
          | false =>
              rw [if_neg Bool.false_ne_true, bind_of_eq_some (settles.prefer?_eq sound),
                bind_of_eq_some notes_eq, routes_eq]
              rfl

theorem IsSound.resolveNode?_eq :
    graph.resolveNode? limits frame = some (graph.resolveNode limits frame) := by
  have ways_eq : (graph.ways? { top := frame }).run = some (graph.ways { top := frame }) :=
    sound.ways?_eq (List.forall_mem_singleton.mpr exist)
  rw [resolveNode?, bind_of_eq_some ways_eq, resolveNode]
  cases found : graph.ways { top := frame } with
  | error fault => rfl
  | ok ways =>
      dsimp only
      rw [resolveWays_eq, resolveWays?]
      split
      next => rw [exist.ambiguousExit?_eq]; rfl
      next => rw [sound.resolveAlternatives?_eq exist found]; rfl

/-- Nothing is looked up in vain when a node is resolved. -/
theorem IsSound.resolve?_eq : graph.resolve? limits frame = some (graph.resolve limits frame) := by
  rw [resolve?, bind_of_eq_some (sound.outgoing?_eq exist), resolve]
  split
  next => rfl
  next =>
    rw [bind_of_eq_some (sound.resolveNode?_eq exist)]
    cases result_eq : (graph.resolveNode limits frame).result with
    | ok routes => simp [result_eq]
    | error fault => simp [result_eq]

end Resolving

section Notes

/-- The note is about a node of the graph and, if it names one, a matcher of it. -/
def HasNoted (graph : Graph) : ResolutionNote → Prop
  | .furtherExit frame | .ordered frame _ | .resolved frame _ _ => graph.HasNode frame
  | .shadowed frame matcher => graph.HasNode frame ∧ matcher < graph.matchers.size
  | .failed _ => True

theorem noteRecord?_eq {note : ResolutionNote} (known : graph.HasNoted note) :
    graph.noteRecord? note = some (graph.noteRecord note) := by
  have nodeText?_eq : ∀ {frame : Frame}, graph.HasNode frame → graph.nodeText? frame =
      some s!"node {graph.nodeName frame} of rule '{graph.ruleName frame.rule}'" := by
    intro frame exist
    simp [nodeText?, exist.ruleName?_eq, exist.nodeName?_eq]
  cases note with
  | furtherExit frame =>
      have exist : graph.HasNode frame := known
      simp [noteRecord?, noteRecord, exist.ambiguousExit?_eq]
  | shadowed frame matcher =>
      rcases known with ⟨exist, known⟩
      simp [noteRecord?, noteRecord, describe?_eq known, nodeText?_eq exist]
  | ordered frame depth =>
      have exist : graph.HasNode frame := known
      simp [noteRecord?, noteRecord, nodeText?_eq exist]
  | resolved frame alternatives depth =>
      have exist : graph.HasNode frame := known
      simp [noteRecord?, noteRecord, exist.ruleName?_eq, exist.nodeName?_eq]
  | failed error => rfl

theorem Settles.hasNoted_preferenceNotes {limits : ResolutionLimits} {frame : Frame}
    {ways : List Way} {division : Division} {routes : Routes}
    (settles : graph.Settles limits frame ways division routes) (sound : graph.IsSound)
    (exist : graph.HasNode frame) :
    ∀ note ∈ preferenceNotes frame routes.paths division (graph.prefer division),
      graph.HasNoted note := by
  intro note note_mem
  rcases List.mem_append.mp note_mem with shadowed_mem | ordered_mem
  · rcases List.mem_map.mp shadowed_mem with ⟨matcher, matcher_mem, rfl⟩
    rcases List.mem_filterMap.mp matcher_mem with ⟨alternative, _, matcher_eq⟩
    rcases Option.bind_eq_some_iff.mp matcher_eq with ⟨path, path_eq, matcher_eq⟩
    have path_mem := List.mem_of_getElem? path_eq
    rcases settles.matcher?_of_mem_paths path_mem with ⟨last, last_eq, last_matchers⟩
    rcases settles.path_mem_iff.mp path_mem with ⟨_, _, taken⟩
    rw [last_eq, Option.some.injEq] at matcher_eq
    refine ⟨exist, sound.matchers_lt_of_walk taken.1 matcher ?_⟩
    simp [last_matchers, matcher_eq]
  · split at ordered_mem
    next => simp at ordered_mem
    next =>
      obtain rfl := List.mem_singleton.mp ordered_mem
      exact exist

variable {limits : ResolutionLimits} {frame : Frame} {ways : List Way}

theorem IsSound.hasNoted_resolveAlternatives (sound : graph.IsSound) (exist : graph.HasNode frame)
    (ways_eq : graph.ways { top := frame } = .ok ways) :
    ∀ note ∈ (graph.resolveAlternatives limits frame (ways.filterMap Way.alternative?)
      (ways.filterMap Way.exit?).head?).notes, graph.HasNoted note := by
  rw [resolveAlternatives, ← Candidate.firstOnes]
  cases found : graph.divide (limits.maxLookahead - 1) 1
      (Candidate.firstOnes (ways.filterMap Way.alternative?)) with
  | error fault => simp
  | ok division =>
      have noted := (settles_of_divide ways_eq found).hasNoted_preferenceNotes sound exist
      dsimp only
      split
      next => simp
      next =>
        split
        next => simp
        next => exact noted

/-- What resolving a node reports is about the node. -/
theorem IsSound.hasNoted_resolve (sound : graph.IsSound) (exist : graph.HasNode frame) :
    ∀ note ∈ (graph.resolve limits frame).notes, graph.HasNoted note := by
  have resolved : ∀ note ∈ (graph.resolveNode limits frame).notes, graph.HasNoted note := by
    rw [resolveNode]
    cases found : graph.ways { top := frame } with
    | error fault => simp
    | ok ways =>
        dsimp only
        rw [resolveWays_eq]
        split
        next => simp
        next =>
          refine List.forall_mem_append.mpr ⟨?_, sound.hasNoted_resolveAlternatives exist found⟩
          intro note note_mem
          obtain rfl := List.eq_of_mem_replicate note_mem
          exact exist
  rw [resolve]
  split
  next => simp
  next =>
    dsimp only
    split
    next => exact List.forall_mem_append.mpr ⟨resolved, List.forall_mem_singleton.mpr exist⟩
    next => exact List.forall_mem_append.mpr ⟨resolved, List.forall_mem_singleton.mpr trivial⟩

end Notes

section Building

theorem IsSound.resolveAll?_eq (sound : graph.IsSound) (limits : ResolutionLimits) :
    (graph.rules.toList.zipIdx.mapM fun (rule, id) =>
        (List.range rule.nodes.size).mapM fun node => graph.resolve? limits ⟨id, node⟩) =
      some ((graph.resolveAll limits).map Array.toList).toList := by
  rw [resolveAll_toList]
  refine mapM_eq_some_map fun (rule, id) rule_mem => ?_
  refine mapM_eq_some_map fun node node_mem => sound.resolve?_eq ⟨rule, ?_, ?_⟩
  · simpa [List.mk_mem_zipIdx_iff_getElem?] using rule_mem
  · exact List.mem_range.mp node_mem

/-- A grammar is built from a sound graph, or refused, without a lookup of anything that is not
there. -/
theorem IsSound.buildFrom?_eq (sound : graph.IsSound) (config : GrammarConfig) {start : RuleId}
    (known : start < graph.rules.size) :
    graph.buildFrom? config start = some (graph.buildFrom config start) := by
  have noted_eq : (((graph.resolveAll ⟨config.maxLookahead, config.strict⟩).map
        Array.toList).toList.flatten.flatMap Resolution.notes).mapM graph.noteRecord? =
      some ((((graph.resolveAll ⟨config.maxLookahead, config.strict⟩).map
        Array.toList).toList.flatten.flatMap Resolution.notes).map graph.noteRecord) := by
    refine mapM_eq_some_map fun note note_mem => noteRecord?_eq ?_
    rcases List.mem_flatMap.mp note_mem with ⟨resolution, resolution_mem, note_mem⟩
    rcases exists_node_of_mem_resolveAll resolution_mem with ⟨frame, exist, rfl⟩
    exact sound.hasNoted_resolve exist note note_mem
  simp only [buildFrom?, sound.reachabilityRecords?_eq known, sound.resolveAll?_eq, noted_eq,
    ruleName?_eq known, Option.bind_eq_bind, Option.bind_some, buildFrom]
  have tables_eq : (((graph.resolveAll ⟨config.maxLookahead, config.strict⟩).map
        Array.toList).toList.map fun table => (table.map decision).toArray).toArray =
      (graph.resolveAll ⟨config.maxLookahead, config.strict⟩).map (·.map decision) := by
    apply Array.ext'
    simp [Function.comp_def, ← Array.toList_map]
  rw [tables_eq, List.map_flatMap]
  cases resolutionFaults ((graph.resolveAll ⟨config.maxLookahead, config.strict⟩).map
    Array.toList).toList.flatten <;> rfl

theorem build?_eq {builder : Builder} (assembled : builder.IsAssembled) (config : GrammarConfig) :
    builder.toGraph.build? config = some (builder.toGraph.build config) := by
  cases faults_eq : builder.toGraph.initialFaults config with
  | cons => simp [build?, build, faults_eq]
  | nil =>
      cases start_eq : builder.toGraph.ruleByName? config.start with
      | none => simp [build?, build, faults_eq, start_eq]
      | some start =>
          have known : start < builder.toGraph.rules.size :=
            (Array.findIdx?_eq_some_iff_getElem.mp start_eq).1
          have sound := isSound_of_faultless assembled faults_eq
          simp [build?, build, faults_eq, start_eq, sound.buildFrom?_eq config known]

end Building

end Graph

end StreamGrammar
