import Mathlib.Data.List.Nodup
import StreamGrammar.Proofs.LifeCycle
import StreamGrammar.Proofs.RouteTables

/-!
# What messages say could come

The error about symbols that nothing accepts lists what could have come in their place.
The list of a node is made from its alternatives, in their order, and each of them that
is not shadowed has a part in it. Something is left of the alternatives whenever there
are any, and there are some at every node where the rule cannot be left. So whoever
reads the error learns at least one thing, and no thing twice.
-/

namespace StreamGrammar

section Lists

variable {Member Value : Type} [BEq Value] [LawfulBEq Value] {before : Member → Member → Prop}

/-- Without its repetitions, a list of values stands in the order in which the values come about
first. -/
theorem pairwise_firsts_eraseDups {members : List Member} (value? : Member → Option Value)
    (ordered : members.Pairwise before) :
    (members.filterMap value?).eraseDups.Pairwise fun earlier later =>
      ∃ first ∈ members, value? first = some earlier ∧
        ∀ member ∈ members, value? member = some later → before first member := by
  induction members generalizing value? with
  | nil => exact .nil
  | cons member rest ih =>
      rcases List.pairwise_cons.mp ordered with ⟨before_rest, restOrdered⟩
      cases value_eq : value? member with
      | none =>
          rw [List.filterMap_cons_none value_eq]
          refine (ih value? restOrdered).imp ?_
          rintro earlier later ⟨first, first_mem, first_eq, least⟩
          refine ⟨first, List.mem_cons_of_mem _ first_mem, first_eq, ?_⟩
          intro other other_mem other_eq
          rcases List.mem_cons.mp other_mem with rfl | rest_mem
          · rw [value_eq] at other_eq
            cases other_eq
          · exact least other rest_mem other_eq
      | some value =>
          -- What follows is the rest of the values without this one, so the function leaves it out.
          let other? (member : Member) : Option Value :=
            (value? member).filter fun other => !other == value
          have other?_iff : ∀ {member other}, other? member = some other ↔
              value? member = some other ∧ other ≠ value := by
            intro member other
            simp [other?, Option.filter_eq_some_iff]
          have differs : ∀ other ∈ (rest.filterMap other?).eraseDups, other ≠ value := by
            intro other other_mem
            rcases List.mem_filterMap.mp (List.mem_eraseDups.mp other_mem) with ⟨_, _, other_eq⟩
            exact (other?_iff.mp other_eq).2
          rw [List.filterMap_cons_some value_eq, List.eraseDups_cons, List.filter_filterMap]
          refine List.pairwise_cons.mpr ⟨?_, (ih other? restOrdered).imp_of_mem ?_⟩
          · intro later later_mem
            refine ⟨member, List.mem_cons_self, value_eq, ?_⟩
            intro other other_mem other_eq
            have later_ne := differs later later_mem
            rcases List.mem_cons.mp other_mem with rfl | rest_mem
            · exact absurd (Option.some.inj (other_eq.symm.trans value_eq)) later_ne
            · exact before_rest other rest_mem
          · rintro earlier later _ later_mem ⟨first, first_mem, first_eq, least⟩
            refine ⟨first, List.mem_cons_of_mem _ first_mem, (other?_iff.mp first_eq).1, ?_⟩
            intro other other_mem other_eq
            have later_ne := differs later later_mem
            rcases List.mem_cons.mp other_mem with rfl | rest_mem
            · exact absurd (Option.some.inj (other_eq.symm.trans value_eq)) later_ne
            · exact least other rest_mem (other?_iff.mpr ⟨other_eq, later_ne⟩)

end Lists

namespace Routes

/-- The routes that select an alternative. -/
def routesOf (routes : Routes) (alternative : Nat) : List Route :=
  routes.all.filter (·.alternative == alternative)

/-- What an alternative that is not shadowed adds to what messages say: all that the one route looks
at which selects it, or the first matcher if there are several. -/
inductive Contributes (graph : Graph) (routes : Routes) (alternative : Nat) : String → Prop
  | sequence {route : Route} (unshadowed : alternative ∉ routes.shadowed)
      (alone : routes.routesOf alternative = [route]) :
      Contributes graph routes alternative (graph.describeSequence route.lookahead)
  | first {path : Path} {matcher : MatcherId} (unshadowed : alternative ∉ routes.shadowed)
      (several : (routes.routesOf alternative).length ≠ 1)
      (path_eq : routes.paths[alternative]? = some path)
      (matcher_eq : Path.matcher? path = some matcher) :
      Contributes graph routes alternative (graph.describe matcher)

/-- What messages say could come is what the alternatives add to it, each thing once and in the
order in which they add it first. -/
structure ExplainsAlternatives (graph : Graph) (routes : Routes) : Prop where
  nodup : routes.expected.Nodup
  length_le : routes.expected.length ≤ routes.paths.length
  eq_nil_iff : routes.expected = [] ↔ routes.paths = []
  /-- Every alternative that is not shadowed adds one thing. -/
  contributes : ∀ alternative < routes.paths.length, alternative ∉ routes.shadowed →
    ∃ description ∈ routes.expected, ∀ other,
      routes.Contributes graph alternative other ↔ other = description
  mem_iff : ∀ description, description ∈ routes.expected ↔
    ∃ alternative < routes.paths.length, routes.Contributes graph alternative description
  ordered : routes.expected.Pairwise fun earlier later =>
    ∃ first, routes.Contributes graph first earlier ∧
      ∀ alternative, routes.Contributes graph alternative later → first < alternative

end Routes

namespace Graph

variable {graph : Graph} {limits : ResolutionLimits} {frame : Frame} {ways : List Way}
  {division : Division} {routes : Routes} {alternative : Nat} {description : String}

theorem describeSequence_singleton (graph : Graph) (matcher : MatcherId) :
    graph.describeSequence [matcher] = graph.describe matcher := by
  simp [describeSequence, String.join]

theorem expectation?_eq (graph : Graph) (routes : Routes) (alternative : Nat) :
    graph.expectation? routes.all alternative =
      match routes.routesOf alternative with
      | [] => none
      | [route] => some (graph.describeSequence route.lookahead)
      | route :: _ => some (graph.describeSequence (route.lookahead.take 1)) := rfl

namespace Settles

theorem expected_eq (settles : graph.Settles limits frame ways division routes) :
    routes.expected =
      ((List.range routes.paths.length).filterMap (graph.expectation? routes.all)).eraseDups := by
  rw [settles.routes_eq]
  rfl

theorem lt_of_mem_routesOf (settles : graph.Settles limits frame ways division routes)
    {route : Route} (route_mem : route ∈ routes.routesOf alternative) :
    alternative < routes.paths.length := by
  rcases List.mem_filter.mp route_mem with ⟨all_mem, same⟩
  obtain rfl : route.alternative = alternative := by simpa using same
  rcases settles.route_begins all_mem with ⟨_, _, _, path_eq, _⟩
  exact (List.getElem?_eq_some_iff.mp path_eq).1

theorem lt_of_contributes (settles : graph.Settles limits frame ways division routes)
    (contributes : routes.Contributes graph alternative description) :
    alternative < routes.paths.length := by
  cases contributes with
  | sequence _ alone => exact settles.lt_of_mem_routesOf (alone ▸ List.mem_singleton_self _)
  | first _ _ path_eq => exact (List.getElem?_eq_some_iff.mp path_eq).1

theorem routesOf_eq_nil_iff (settles : graph.Settles limits frame ways division routes)
    (inside : alternative < routes.paths.length) :
    routes.routesOf alternative = [] ↔ alternative ∈ routes.shadowed := by
  rw [settles.mem_shadowed_iff_no_route inside, Routes.routesOf, List.filter_eq_nil_iff]
  simp

/-- What is said about an alternative is what it adds. -/
theorem expectation?_eq_some_iff (settles : graph.Settles limits frame ways division routes)
    (inside : alternative < routes.paths.length) :
    graph.expectation? routes.all alternative = some description ↔
      routes.Contributes graph alternative description := by
  have nil_iff := settles.routesOf_eq_nil_iff inside
  rw [expectation?_eq]
  rcases routes_eq : routes.routesOf alternative with _ | ⟨route, _ | ⟨second, further⟩⟩
  · have isShadowed := nil_iff.mp routes_eq
    simp only [reduceCtorEq, false_iff]
    intro contributes
    cases contributes with
    | sequence unshadowed | first unshadowed => exact unshadowed isShadowed
  · have unshadowed : alternative ∉ routes.shadowed := by simp [← nil_iff, routes_eq]
    constructor
    · rintro ⟨⟩
      exact .sequence unshadowed routes_eq
    · intro contributes
      cases contributes with
      | sequence _ alone =>
          rw [routes_eq] at alone
          cases alone
          rfl
      | first _ several => simp [routes_eq] at several
  · -- Each of the several routes begins with the first matcher.
    have unshadowed : alternative ∉ routes.shadowed := by simp [← nil_iff, routes_eq]
    have route_mem : route ∈ routes.routesOf alternative := by simp [routes_eq]
    rcases List.mem_filter.mp route_mem with ⟨all_mem, same⟩
    obtain rfl : route.alternative = alternative := by simpa using same
    rcases settles.route_head?_eq all_mem with ⟨path, matcher, path_eq, matcher_eq, head_eq⟩
    have first_eq : graph.describeSequence (route.lookahead.take 1) = graph.describe matcher := by
      rw [List.take_one, head_eq, Option.toList_some, describeSequence_singleton]
    simp only [first_eq, Option.some.injEq]
    constructor
    · rintro rfl
      exact .first unshadowed (by simp [routes_eq]) path_eq matcher_eq
    · intro contributes
      cases contributes with
      | sequence _ alone => simp [routes_eq] at alone
      | first _ _ other_eq other_matcher_eq =>
          rw [path_eq] at other_eq
          cases other_eq
          rw [matcher_eq] at other_matcher_eq
          cases other_matcher_eq
          rfl

/-- Something is left of the alternatives if there are any. -/
theorem exists_unshadowed (settles : graph.Settles limits frame ways division routes)
    (some_path : routes.paths ≠ []) :
    ∃ alternative < routes.paths.length, alternative ∉ routes.shadowed := by
  have first_lt : 0 < routes.paths.length := List.length_pos_iff.mpr some_path
  have someRoute : ∃ alternative, ∃ route ∈ routes.all, route.alternative = alternative := by
    rcases settles.exists_candidate_of_lt first_lt with ⟨candidate, candidate_mem, _⟩
    rcases settles.divides.keeps_alternative candidate_mem with
      ⟨route, route_mem, _⟩ | ⟨last, last_mem, _⟩
    · exact ⟨_, settles.exists_route_iff.mpr (.inl ⟨route, route_mem, rfl⟩)⟩
    · -- Something survives of what overlaps, since only a survivor covers others.
      have inOrder := settles.divides.inOrder (inOrder_firstOnes _)
      rcases mem_survivors_or_covered graph inOrder last_mem with
        survives | ⟨earlier, survives, _⟩
      · exact ⟨_, settles.exists_route_iff.mpr (.inr ⟨last, survives, rfl⟩)⟩
      · exact ⟨_, settles.exists_route_iff.mpr (.inr ⟨earlier, survives, rfl⟩)⟩
  rcases someRoute with ⟨_, route, route_mem, rfl⟩
  rcases settles.route_begins route_mem with ⟨_, _, _, path_eq, _⟩
  have inside := (List.getElem?_eq_some_iff.mp path_eq).1
  refine ⟨route.alternative, inside, ?_⟩
  rw [settles.mem_shadowed_iff_no_route inside, not_not]
  exact ⟨route, route_mem, rfl⟩

theorem mem_expected_iff (settles : graph.Settles limits frame ways division routes) :
    description ∈ routes.expected ↔
      ∃ alternative < routes.paths.length, routes.Contributes graph alternative description := by
  rw [settles.expected_eq, List.mem_eraseDups, List.mem_filterMap]
  simp only [List.mem_range]
  exact exists_congr fun alternative => and_congr_right fun inside =>
    settles.expectation?_eq_some_iff inside

theorem exists_contribution (settles : graph.Settles limits frame ways division routes)
    (inside : alternative < routes.paths.length) (unshadowed : alternative ∉ routes.shadowed) :
    ∃ description ∈ routes.expected, ∀ other,
      routes.Contributes graph alternative other ↔ other = description := by
  have said : ∃ description, graph.expectation? routes.all alternative = some description := by
    rw [expectation?_eq]
    split
    next nothing => exact absurd ((settles.routesOf_eq_nil_iff inside).mp nothing) unshadowed
    next => exact ⟨_, rfl⟩
    next => exact ⟨_, rfl⟩
  rcases said with ⟨description, description_eq⟩
  have contributes := (settles.expectation?_eq_some_iff inside).mp description_eq
  refine ⟨description, settles.mem_expected_iff.mpr ⟨alternative, inside, contributes⟩, ?_⟩
  intro other
  rw [← settles.expectation?_eq_some_iff inside, description_eq, Option.some.injEq]
  exact eq_comm

theorem explainsAlternatives (settles : graph.Settles limits frame ways division routes) :
    routes.ExplainsAlternatives graph := by
  have ordered : routes.expected.Pairwise fun earlier later =>
      ∃ first, routes.Contributes graph first earlier ∧
        ∀ alternative, routes.Contributes graph alternative later → first < alternative := by
    rw [settles.expected_eq]
    refine (pairwise_firsts_eraseDups _ List.pairwise_lt_range).imp ?_
    rintro earlier later ⟨first, first_mem, first_eq, least⟩
    refine ⟨first, ?_, ?_⟩
    · exact (settles.expectation?_eq_some_iff (List.mem_range.mp first_mem)).mp first_eq
    · intro alternative contributes
      have inside := settles.lt_of_contributes contributes
      exact least alternative (List.mem_range.mpr inside)
        ((settles.expectation?_eq_some_iff inside).mpr contributes)
  refine ⟨?_, ?_, ?_, fun _ => settles.exists_contribution, fun _ => settles.mem_expected_iff,
    ordered⟩
  · refine ordered.imp ?_
    rintro earlier later ⟨first, first_contributes, least⟩ rfl
    exact Nat.lt_irrefl _ (least first first_contributes)
  · rw [settles.expected_eq]
    refine ((sublist_eraseDups _).length_le.trans (List.length_filterMap_le _ _)).trans ?_
    rw [List.length_range]
  · constructor
    · intro none
      by_contra some_path
      rcases settles.exists_unshadowed some_path with ⟨alternative, inside, unshadowed⟩
      rcases settles.exists_contribution inside unshadowed with ⟨description, description_mem, _⟩
      simp [none] at description_mem
    · intro none
      simp [settles.expected_eq, none]

/-- Where the rule cannot be left, there are alternatives. -/
theorem paths_ne_nil_of_exit_none (settles : graph.Settles limits frame ways division routes)
    (missing : routes.exit = none) : routes.paths ≠ [] := by
  rcases List.exists_mem_of_ne_nil _ (waysWithin_ne_nil settles.ways_eq) with ⟨way, way_mem⟩
  have taken := (mem_ways_iff settles.ways_eq).mp way_mem
  cases way with
  | leaving steps => exact absurd taken (settles.not_isTakenFrom_of_exit_none missing steps)
  | consuming path matcher next =>
      exact List.ne_nil_of_mem (settles.path_mem_iff.mpr ⟨matcher, next, taken⟩)

end Settles

theorem exit_eq_none_of_decideLast {lookahead : Lookahead}
    (decided : graph.decideLast lookahead routes = .reject) : routes.exit = none := by
  simp only [decideLast] at decided
  split at decided
  next => cases decided
  next =>
    split at decided
    next => cases decided
    next missing => exact missing

theorem exit_eq_none_of_decideLevels {lookahead : Lookahead} {levels : List Nat}
    (decided : graph.decideLevels lookahead routes levels = .reject) : routes.exit = none := by
  induction levels with
  | nil => exact exit_eq_none_of_decideLast decided
  | cons depth deeper ih =>
      simp only [decideLevels] at decided
      split at decided
      next =>
        split at decided
        next => cases decided
        next => exact ih decided
      next =>
        split at decided
        next => cases decided
        next => exact exit_eq_none_of_decideLast decided

/-- What waits is rejected only where the rule cannot be left. -/
theorem exit_eq_none_of_decide {lookahead : Lookahead}
    (decided : graph.decide lookahead routes = .reject) : routes.exit = none := by
  simp only [decide] at decided
  split at decided
  next => cases decided
  next => exact exit_eq_none_of_decideLevels decided

end Graph

/-- Where the waiting symbols are none of what could have come, the cause tells at least one thing
that could, and none twice. -/
def FailureCause.IsInformative : FailureCause → Prop
  | .syntaxError _ expected => expected ≠ [] ∧ expected.Nodup
  | _ => True

namespace Engine

/-- If the parse has failed, its cause is informative. -/
def Informs (engine : Engine) : Prop :=
  ∀ failure, engine.status = .failed failure → failure.cause.IsInformative

variable {grammar : Grammar} {consumer : Consumer} {limits : ResolutionLimits}
  {engine after : Engine}

theorem Informs.of_running (running : engine.status = .running) : engine.Informs := by
  intro failure failed
  rw [running] at failed
  cases failed

theorem Informs.of_failed {failure : Failure} (failed : engine.status = .failed failure)
    (informative : failure.cause.IsInformative) : engine.Informs := by
  intro other other_eq
  rw [failed] at other_eq
  cases other_eq
  exact informative

theorem Underflowed.informs {graph : Graph} {node : Frame}
    (underflowed : engine.Underflowed graph node after) : after.Informs := by
  rcases underflowed.failed with ⟨_, _, _, _, failed, _⟩
  exact .of_failed failed trivial

theorem informs_enter (grammar : Grammar) (consumer : Consumer)
    (running : engine.status = .running) (node : Frame) :
    (engine.enter grammar consumer node).Informs := by
  rcases (enter_spec grammar consumer running node).2 with performed | underflowed
  · exact .of_running performed.running
  · exact underflowed.informs

theorem informs_finish (engine : Engine) (consumer : Consumer) (symbol : Symbol) :
    (engine.finish consumer symbol).Informs := by
  cases symbol with
  | char character => exact .of_failed rfl ⟨List.cons_ne_nil _ _, List.nodup_singleton _⟩
  | endOfInput =>
      simp only [finish]
      split
      next => exact .of_failed rfl trivial
      next =>
        intro failure failed
        cases failed

/-- The last decision ends the parse informatively, if it ends it. -/
theorem Awaits.informs_of_settled {ended : Bool} (awaits : engine.Awaits ended)
    (resolved : grammar.IsResolved limits)
    (settled : engine.advance grammar consumer = .settled after) : after.Informs := by
  rcases awaits.waits with ⟨text, waiting⟩
  have decides : Decides grammar consumer engine (engine.advance grammar consumer) :=
    advance_decides resolved awaits.running waiting
  rw [settled] at decides
  generalize progress_eq : Progress.settled after = progress at decides
  cases decides with
  | idles | putsOff =>
      cases progress_eq
      exact .of_running awaits.running
  | finishes =>
      cases progress_eq
      exact informs_finish engine consumer _
  | proceeds _ proceeds =>
      rcases progress_eq_settled progress_eq.symm with ⟨rfl, hasEnded⟩
      rcases takePath_spec consumer awaits.running proceeds.run proceeds.waits with
        took | ⟨_, _, _, _, _, _, _, broke⟩
      · exact .of_running took.performed.running
      · rcases broke.underflowed with ⟨_, _, underflowed⟩
        exact underflowed.informs
  | rejects _ _ routes_eq decided =>
      cases progress_eq
      rcases resolved.exists_settles routes_eq with ⟨ways, division, settles⟩
      have explains := settles.explainsAlternatives
      have some_path := settles.paths_ne_nil_of_exit_none (Graph.exit_eq_none_of_decide decided)
      exact .of_failed rfl ⟨explains.eq_nil_iff.not.mpr some_path, explains.nodup⟩

theorem Awaits.informs_settle {ended : Bool} (awaits : engine.Awaits ended)
    (resolved : grammar.IsResolved limits) (consumer : Consumer) :
    (engine.settle grammar consumer).Informs := by
  rcases awaits.exists_last resolved consumer with ⟨count, last, inLoop, settled⟩
  exact (awaits.inLoop resolved inLoop).informs_of_settled resolved settled

theorem informs_arrive (running : engine.status = .running) (grammar : Grammar)
    (consumer : Consumer) (symbols : List Symbol) :
    (engine.arrive grammar consumer symbols).Informs := by
  have begun : ({ engine.withMore symbols with entered := true } : Engine).status = .running :=
    running
  simp only [arrive, enterStart]
  split
  next => exact .of_running running
  next =>
    split
    next => exact .of_running running
    next top _ _ => exact informs_enter grammar consumer begun top

theorem informs_feed (resolved : grammar.IsResolved limits) (running : engine.status = .running)
    {text : List Char} (waiting : engine.lookahead = .holding text false) (consumer : Consumer)
    (symbol : Symbol) : (engine.feed grammar consumer symbol).Informs := by
  have feed_eq : engine.feed grammar consumer symbol =
      if (engine.arrive grammar consumer [symbol]).status.isRunning then
        (engine.arrive grammar consumer [symbol]).settle grammar consumer
      else engine.arrive grammar consumer [symbol] := rfl
  rw [feed_eq]
  split
  next begins => exact (awaits_arrive waiting symbol begins).informs_settle resolved consumer
  next => exact informs_arrive running grammar consumer [symbol]

theorem Takes.informs {Unit : Type} {encoding : Encoding Unit} {units : List Unit} {count : Nat}
    (takes : Takes grammar consumer encoding engine units count after)
    (resolved : grammar.IsResolved limits) (rests : engine.Rests limits.maxLookahead)
    (running : engine.status = .running) : after.Informs := by
  induction takes with
  | exhausts => exact .of_running running
  | malforms => exact .of_failed rfl trivial
  | ends | cancels =>
      rcases rests running with ⟨text, waiting, _⟩
      exact informs_feed resolved running waiting consumer _
  | continues _ stillRunning _ _ ih =>
      rcases rests running with ⟨text, waiting, _⟩
      exact ih (rests_feed resolved consumer waiting _).1 stillRunning

theorem Informs.afterCall (informs : engine.Informs) (rests : engine.Rests limits.maxLookahead)
    (resolved : grammar.IsResolved limits) (call : Call) :
    (engine.afterCall grammar call).Informs := by
  cases ongoing : engine.status.isRunning with
  | false =>
      rw [(afterCall_of_ended grammar ongoing call).1]
      exact informs
  | true =>
      have running := status_of_isRunning ongoing
      cases call with
      | consume consumer encoding units =>
          rcases exists_takes_of_consume running consumer encoding units with
            ⟨count, after, consume_eq, _, takes⟩
          have uncancelled : { engine with cancelled := false }.Rests limits.maxLookahead := rests
          rw [Engine.afterCall, consume_eq]
          exact takes.informs resolved uncancelled running
      | endInput consumer =>
          rcases rests running with ⟨text, waiting, _⟩
          simp only [Engine.afterCall, endInput, ongoing, if_true]
          exact informs_feed resolved running waiting consumer .endOfInput

theorem Reachable.informs (reachable : engine.Reachable grammar)
    (resolved : grammar.IsResolved limits) : engine.Informs := by
  induction reachable with
  | ofRule | resetTo => exact .of_running rfl
  | cancel _ ih => exact ih
  | afterCall before call ih => exact ih.afterCall (before.rests resolved) resolved call

theorem Reachable.afterOperation (reachable : engine.Reachable grammar) (operation : Operation) :
    (engine.afterOperation grammar operation).Reachable grammar := by
  cases operation with
  | calls call => exact reachable.afterCall call
  | cancel => exact reachable.cancel
  | reset => exact reachable.resetTo engine.start
  | resetTo start => exact reachable.resetTo start

/-- A call that fails is answered by an informative cause, whatever has been done before. -/
theorem Reachable.isInformative_of_answer (reachable : engine.Reachable grammar)
    (resolved : grammar.IsResolved limits) {call : Call} {failure : Failure}
    (answer_eq : engine.answerTo grammar call = .error (.parseFailed failure)) :
    failure.cause.IsInformative := by
  cases ongoing : engine.status.isRunning with
  | false =>
      have ended : engine.status ≠ .running := by
        intro running
        rw [running] at ongoing
        cases ongoing
      rw [answerTo_of_ended ended] at answer_eq
      cases answer_eq
  | true =>
      have failed := (answerTo_eq_error_iff ongoing call failure).mp answer_eq
      exact (reachable.afterCall call).informs resolved failure failed

theorem Reachable.isInformative_of_mem_answers (reachable : engine.Reachable grammar)
    (resolved : grammar.IsResolved limits) {operations : List Operation} {failure : Failure}
    (answer_mem : some (.error (.parseFailed failure)) ∈ engine.answers grammar operations) :
    failure.cause.IsInformative := by
  induction operations generalizing engine with
  | nil => cases answer_mem
  | cons operation rest ih =>
      rcases List.mem_cons.mp answer_mem with now | later
      · cases operation with
        | calls call => exact reachable.isInformative_of_answer resolved (Option.some.inj now).symm
        | cancel | reset | resetTo => cases now
      · exact ih (reachable.afterOperation operation) later

end Engine

/-- In a grammar that was built, what messages say could come is what the alternatives of a node add
to it, and it is empty only where there are none. Whatever is done with an engine, an answer that
the waiting symbols are none of what could have come tells at least one thing that could, and none
twice. -/
theorem Grammar.expectations_are_meaningful {graph : Graph} {config : GrammarConfig}
    {grammar : Grammar} (built : (graph.build config).result = .ok grammar) :
    (∀ frame routes, grammar.routes? frame = some routes →
      routes.ExplainsAlternatives grammar.toGraph) ∧
    ∀ (start : RuleId) (operations : List Operation) (found : String) (expected : List String)
      (location : Location),
      some (.error (.parseFailed ⟨.syntaxError found expected, location⟩)) ∈
        (Engine.ofRule start).answers grammar operations →
      expected ≠ [] ∧ expected.Nodup := by
  have resolved := (Graph.build_ok built).2
  refine ⟨?_, ?_⟩
  · intro frame routes routes_eq
    rcases resolved.exists_settles routes_eq with ⟨ways, division, settles⟩
    exact settles.explainsAlternatives
  · intro start operations found expected location answer_mem
    exact (Engine.Reachable.ofRule start).isInformative_of_mem_answers resolved answer_mem

/-- The table of mixed choices is explained by its alternatives, of which the shadowed pair adds
nothing. A word that does not begin with its letter is answered by that letter and the dot that
could have come at once. -/
theorem Grammar.expectations_are_meaningful_mixedChoices :
    ∃ grammar, (Graph.mixedChoices.build ⟨"main", 2, false⟩).result = .ok grammar ∧
      grammar.routes? ⟨0, 0⟩ = some .ofMixedChoices ∧
      Routes.ofMixedChoices.ExplainsAlternatives Graph.mixedChoices ∧
      (Graph.closedWord.build ⟨"main", 1, false⟩).result = .ok closedWord ∧
      (Engine.ofRule 0).answers closedWord [.calls (.consume .patient .chars ['b'])] =
        [some (.error (.parseFailed ⟨.syntaxError "b" ["a", "."], .start⟩))] ∧
      ["a", "."] ≠ [] ∧ ["a", "."].Nodup := by
  have graph_eq : (Graph.mixedChoices.builtGrammar ⟨"main", 2, false⟩).toGraph = .mixedChoices :=
    (Graph.build_ok Graph.build_mixedChoices).1
  have explains := (Grammar.expectations_are_meaningful Graph.build_mixedChoices).1 _ _
    Graph.routes?_mixedChoices
  rw [graph_eq] at explains
  have isOk : (Graph.closedWord.build ⟨"main", 1, false⟩).result.isOk = true := by decide +kernel
  have built : (Graph.closedWord.build ⟨"main", 1, false⟩).result = .ok closedWord :=
    Graph.build_eq_builtGrammar isOk
  have answers_eq : (Engine.ofRule 0).answers closedWord
      [.calls (.consume .patient .chars ['b'])] =
        [some (.error (.parseFailed ⟨.syntaxError "b" ["a", "."], .start⟩))] := by cbv
  refine ⟨_, Graph.build_mixedChoices, Graph.routes?_mixedChoices, explains, built, answers_eq, ?_⟩
  refine (Grammar.expectations_are_meaningful built).2 0
    [.calls (.consume .patient .chars ['b'])] "b" ["a", "."] .start ?_
  rw [answers_eq]
  exact List.mem_singleton_self _

end StreamGrammar
