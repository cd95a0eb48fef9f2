import StreamGrammar.Proofs.Erasure
import StreamGrammar.Proofs.Simulation

/-!
# The language of a strict grammar

In a strict grammar no alternatives overlap. If moreover its rules end only at nodes
without outgoing edges, a text determines the run that derives it: at every node one
alternative at most allows the rest of the text, and the run begins with its path.
A decision either waits or takes that path, so that the engine takes the run step by
step, and it succeeds on exactly those texts that have a run whose captures are
opened before they are published and all published at the end.
-/

namespace StreamGrammar

theorem Graph.FirstAdmits.path_unique {graph : Graph} {frame : Frame} {maxLookahead : Nat}
    {paths : List Path} {text : List Char} {alternative otherAlternative : Nat} {path other : Path}
    (first : graph.FirstAdmits frame maxLookahead paths alternative path text)
    (otherFirst : graph.FirstAdmits frame maxLookahead paths otherAlternative other text) :
    path = other := by
  have notBefore : ¬otherAlternative < alternative := by
    intro before
    exact first.least otherAlternative before other otherFirst.path_eq otherFirst.admits
  have notAfter : ¬alternative < otherAlternative := by
    intro after
    exact otherFirst.least alternative after path first.path_eq first.admits
  have same : alternative = otherAlternative := by omega
  apply Option.some.inj
  rw [← first.path_eq, ← otherFirst.path_eq, same]

namespace Graph.Settles

variable {graph : Graph} {limits : ResolutionLimits} {frame : Frame} {ways : List Way}
  {division : Division} {routes : Routes}

theorem alternative_unique (settles : graph.Settles limits frame ways division routes)
    (positive : 1 ≤ limits.maxLookahead) (strict : limits.strict = true)
    {alternative otherAlternative : Nat} {path other : Path} {text : List Char}
    (path_eq : routes.paths[alternative]? = some path)
    (admits : graph.Admits frame limits.maxLookahead path text)
    (other_eq : routes.paths[otherAlternative]? = some other)
    (otherAdmits : graph.Admits frame limits.maxLookahead other text) :
    alternative = otherAlternative := by
  have apart := (settles.represents positive other_eq otherAdmits).1
  rcases (settles.represents positive path_eq admits).2 with
    ⟨route, route_mem, route_eq, fits, _⟩ | ⟨last, last_mem, _⟩
  · rw [← route_eq]
    exact apart route route_mem fits
  · rw [settles.strict strict] at last_mem
    exact absurd last_mem List.not_mem_nil

/-- A run that leaves a rule begins with an alternative that allows what it consumes, if the node
has no exit. -/
theorem exists_admits_of_run (settles : graph.Settles limits frame ways division routes)
    (positive : 1 ≤ limits.maxLookahead) (noExit : routes.exit = none) {steps : Path}
    {read text : List Char} (run : Run graph [frame] steps read []) (begins : read <+: text) :
    ∃ path rest, steps = path ++ rest ∧ path ∈ routes.paths ∧
      graph.Admits frame limits.maxLookahead path text := by
  rcases Run.iff_walk.mp run with ⟨walk, spells⟩
  have consumes : Path.matchers steps ≠ [] := by
    intro silent
    exact settles.not_isTakenFrom_of_exit_none noExit steps ⟨walk, silent⟩
  have walkFrom : Walk graph (Place.stack { top := frame }) steps [] := walk
  rcases walkFrom.exists_first_way consumes with
    ⟨path, matcher, next, rest, taken, rfl, _, matchers_eq⟩
  refine ⟨path, rest, rfl, settles.path_mem_iff.mpr ⟨matcher, next, taken⟩, ?_⟩
  have length_eq := spells.length_eq
  rw [Path.matchers_append, matchers_eq, List.length_append, List.length_singleton] at length_eq
  by_cases short : read.length ≤ limits.maxLookahead
  · refine ⟨rest, read, [], run, begins, .inr ⟨?_, short, rfl⟩⟩
    omega
  · rcases Run.append_iff.mp run with ⟨middle, first, further, rfl, firstRun, restRun⟩
    have first_length : first.length = 1 := by
      have first_eq := (Run.iff_walk.mp firstRun).2.length_eq
      rw [matchers_eq] at first_eq
      exact first_eq.symm
    rw [List.length_append] at short
    have reaches : limits.maxLookahead - 1 ≤ further.length := by omega
    rcases restRun.exists_cut reaches with
      ⟨before, after, reached, rfl, beforeRun, _⟩
    refine ⟨before, first ++ further.take (limits.maxLookahead - 1), reached,
      firstRun.trans beforeRun, ?_, .inl ?_⟩
    · apply List.IsPrefix.trans ?_ begins
      rw [List.prefix_append_right_inj]
      exact List.take_prefix _ _
    · rw [List.length_append, List.length_take]
      omega

/-- A run that empties the stack begins with the one path that allows its text. -/
theorem exists_firstAdmits_of_run (settles : graph.Settles limits frame ways division routes)
    (positive : 1 ≤ limits.maxLookahead) (strict : limits.strict = true)
    (noExit : routes.exit = none) {below : List Frame} {steps : Path} {text : List Char}
    (run : Run graph (frame :: below) steps text []) :
    ∃ alternative path rest, steps = path ++ rest ∧
      graph.FirstAdmits frame limits.maxLookahead routes.paths alternative path text := by
  have runOnTop : Run graph ([frame] ++ below) steps text [] := run
  rcases runOnTop.empties_upper with
    ⟨first, second, read, further, rfl, rfl, firstRun, _⟩
  rcases settles.exists_admits_of_run positive noExit firstRun (List.prefix_append read further)
    with ⟨path, rest, rfl, path_mem, admits⟩
  rcases exists_firstAdmits ⟨path, path_mem, admits⟩ with ⟨alternative, other, otherFirst⟩
  rcases List.mem_iff_getElem?.mp path_mem with ⟨index, path_eq⟩
  have same : index = alternative :=
    settles.alternative_unique positive strict path_eq admits otherFirst.path_eq otherFirst.admits
  have other_eq : path = other := by
    apply Option.some.inj
    rw [← path_eq, ← otherFirst.path_eq, same]
  refine ⟨alternative, path, rest ++ second, List.append_assoc path rest second, ?_⟩
  rw [other_eq]
  exact otherFirst

end Graph.Settles

/-- No node of the grammar can leave its rule without consuming input, except where the rule
ends. -/
def Grammar.HasNoExit (grammar : Grammar) : Prop :=
  ∀ frame routes, grammar.routes? frame = some routes → routes.exit = none

theorem Grammar.hasNoExit_of_tables {grammar : Grammar}
    (checked : (grammar.tables.all fun table => table.all fun routes? =>
      routes?.all fun routes => routes.exit.isNone) = true) : grammar.HasNoExit := by
  intro frame routes routes_eq
  simp only [Grammar.routes?] at routes_eq
  cases table_eq : grammar.tables[frame.rule]? with
  | none => simp [table_eq] at routes_eq
  | some table =>
      simp only [table_eq, Option.join_eq_some_iff] at routes_eq
      have table_mem := Array.mem_of_getElem? table_eq
      have routes_mem := Array.mem_of_getElem? routes_eq
      have exit_isNone := Array.all_eq_true_iff_forall_mem.mp
        (Array.all_eq_true_iff_forall_mem.mp checked table table_mem) _ routes_mem
      exact Option.isNone_iff_eq_none.mp exit_isNone

section Uniqueness

variable {grammar : Grammar} {limits : ResolutionLimits}

/-- What a run does first: it leaves the rule where the rule ends, and otherwise takes the path of
the one alternative that allows the text. -/
theorem Grammar.first_steps_of_run (resolved : grammar.IsResolved limits)
    (strict : limits.strict = true) (noExit : grammar.HasNoExit) {top : Frame}
    {below : List Frame} {steps : Path} {text : List Char}
    (run : Run grammar.toGraph (top :: below) steps text []) :
    (grammar.outgoing top = [] ∧ grammar.routes? top = none ∧
      ∃ rest, steps = .leave :: rest ∧ Run grammar.toGraph below rest text []) ∨
    ∃ routes ways division alternative path rest, grammar.routes? top = some routes ∧
      grammar.Settles limits top ways division routes ∧ steps = path ++ rest ∧
      grammar.FirstAdmits top limits.maxLookahead routes.paths alternative path text := by
  rcases resolved.decided top with
    ⟨none_eq, routes_eq⟩ | ⟨_, routes, ways, division, routes_eq, settles⟩
  · refine .inl ⟨none_eq, routes_eq, ?_⟩
    cases run with
    | @step _ _ step rest read further enabled reads restRun =>
        have leaves : step = .leave := by
          by_contra stays
          rcases Step.exists_edge_of_isEnabled enabled stays with ⟨edge, edge_mem, _⟩
          rw [none_eq] at edge_mem
          exact absurd edge_mem List.not_mem_nil
        subst leaves
        obtain rfl : read = [] := reads
        exact ⟨rest, rfl, restRun⟩
  · rcases settles.exists_firstAdmits_of_run resolved.positive strict (noExit top routes routes_eq)
      run with ⟨alternative, path, rest, steps_eq, first⟩
    exact .inr ⟨routes, ways, division, alternative, path, rest, routes_eq, settles, steps_eq,
      first⟩

/-- A text has at most one run that empties the stack. -/
theorem Run.steps_unique {grammar : Grammar} {limits : ResolutionLimits}
    (resolved : grammar.IsResolved limits) (strict : limits.strict = true)
    (noExit : grammar.HasNoExit) {stack : List Frame} {steps other : Path} {text : List Char}
    (run : Run grammar.toGraph stack steps text [])
    (otherRun : Run grammar.toGraph stack other text []) : steps = other := by
  cases stack with
  | nil => rw [run.eq_nil_of_empty.1, otherRun.eq_nil_of_empty.1]
  | cons top below =>
      rcases Grammar.first_steps_of_run resolved strict noExit run with
        ⟨none_eq, routes_eq, rest, steps_eq, restRun⟩ |
        ⟨routes, ways, division, alternative, path, rest, routes_eq, settles, steps_eq, first⟩
      · rcases Grammar.first_steps_of_run resolved strict noExit otherRun with
          ⟨_, _, otherRest, other_eq, otherRestRun⟩ | ⟨_, _, _, _, _, _, found, _⟩
        · have shorter : rest.length < steps.length := by simp [steps_eq]
          have rest_eq : rest = otherRest :=
            Run.steps_unique resolved strict noExit restRun otherRestRun
          rw [steps_eq, other_eq, rest_eq]
        · simp [routes_eq] at found
      · rcases Grammar.first_steps_of_run resolved strict noExit otherRun with
          ⟨_, found, _⟩ | ⟨_, _, _, _, otherPath, otherRest, found, _, other_eq, otherFirst⟩
        · simp [routes_eq] at found
        · obtain rfl := Option.some.inj (routes_eq.symm.trans found)
          obtain rfl := first.path_unique otherFirst
          have wholeRun : Run grammar.toGraph (top :: below) (path ++ rest) text [] := by
            rw [← steps_eq]
            exact run
          have otherWholeRun : Run grammar.toGraph (top :: below) (path ++ otherRest) text [] := by
            rw [← other_eq]
            exact otherRun
          have shorter : rest.length < steps.length := by
            rcases settles.path_matchers (List.mem_of_getElem? first.path_eq) with
              ⟨matcher, matchers_eq⟩
            have path_ne : path ≠ [] := by
              rintro rfl
              simp at matchers_eq
            have := List.length_pos_iff.mpr path_ne
            rw [steps_eq, List.length_append]
            omega
          have rest_eq : rest = otherRest :=
            Run.steps_unique resolved strict noExit wholeRun.rest_of_append
              otherWholeRun.rest_of_append
          rw [steps_eq, other_eq, rest_eq]
termination_by steps.length
decreasing_by all_goals exact shorter

end Uniqueness

namespace Engine

/-- The nodes that are still to be entered when some steps are left. -/
def ahead (engine : Engine) (steps : Path) : List Frame :=
  (if engine.entered then [] else engine.stack.head?.toList) ++ Path.entered engine.stack steps

/-- The engine is where the steps are left of a run over the rest of the input, of which `unfed` has
not arrived. Entering the nodes ahead leaves no capture open. -/
structure OnCourse (engine : Engine) (graph : Graph) (steps : Path) (unfed : List Char)
    (ended : Bool) : Prop where
  running : engine.status = .running
  waits : ∃ waiting, engine.lookahead = .holding waiting ended ∧
    Run graph engine.stack steps (waiting ++ unfed) []
  captures : graph.captureDepth? engine.capture.depth (engine.ahead steps) = some 0

variable {grammar : Grammar} {consumer : Consumer} {limits : ResolutionLimits} {engine : Engine}
  {graph : Graph} {unfed : List Char} {ended : Bool}

theorem ahead_of_entered (entered : engine.entered = true) (steps : Path) :
    engine.ahead steps = Path.entered engine.stack steps := by
  simp [ahead, entered]

namespace OnCourse

theorem took {first rest : Path} {read : List Char} {after : Engine}
    (onCourse : engine.OnCourse graph (first ++ rest) unfed ended)
    (entered : engine.entered = true) (took : engine.Took graph first read after) :
    after.OnCourse graph rest unfed ended := by
  rcases onCourse.waits with ⟨waiting, lookahead_eq, run⟩
  rcases Run.iff_walk.mp took.run with ⟨walk, spells⟩
  refine ⟨took.performed.running, ?_, ?_⟩
  · have symbols_eq := took.lookahead
    rw [lookahead_eq] at symbols_eq
    rcases Lookahead.exists_holding_of_symbols symbols_eq with ⟨others, rfl, others_eq⟩
    refine ⟨others, others_eq, ?_⟩
    have restRun := run.rest_of_append
    rw [← took.run.final_eq, spells.length_eq, List.append_assoc, List.drop_left] at restRun
    exact restRun
  · have captures := onCourse.captures
    rw [ahead_of_entered entered, Path.entered_append walk, Graph.captureDepth?_append,
      took.performed.depth] at captures
    rw [ahead_of_entered (took.entered.trans entered)]
    exact captures

theorem not_broke {step : Step} {rest : Path} {after : Engine}
    (onCourse : engine.OnCourse graph (step :: rest) unfed ended)
    (entered : engine.entered = true) : ¬engine.Broke graph step after := by
  intro broke
  rcases broke.underflowed with ⟨node, node_eq, underflowed⟩
  have captures := onCourse.captures
  rw [ahead_of_entered entered, Path.entered, node_eq, Option.toList_some, List.singleton_append,
    underflowed.captureDepth?_eq_none] at captures
  cases captures

end OnCourse

/-- How an engine on course stands after one decision. -/
inductive StaysOnCourse (graph : Graph) (unfed : List Char) (ended : Bool) (engine : Engine) :
    Progress → Prop
  | waits (unended : ended = false) : StaysOnCourse graph unfed ended engine (.settled engine)
  | moves {next : Engine} {rest : Path} (entered : next.entered = true)
      (onCourse : next.OnCourse graph rest unfed ended) (closer : next.IsCloser engine) :
      StaysOnCourse graph unfed ended engine (.ongoing next)
  | succeeds {last : Engine} (succeeded : last.status = .succeeded) (isEnd : ended = true) :
      StaysOnCourse graph unfed ended engine (.settled last)

/-- Taking the first path of the run keeps the engine on course. -/
theorem OnCourse.takePath {path rest : Path} {read : List Char} {final : List Frame}
    (onCourse : engine.OnCourse grammar.toGraph (path ++ rest) unfed ended)
    (entered : engine.entered = true) (consumer : Consumer)
    (proceeds : engine.Proceeds grammar path read final) :
    StaysOnCourse grammar.toGraph unfed ended engine
      (engine.takePath grammar consumer path).progress := by
  have outcome : Outcome grammar.toGraph consumer engine
      (engine.takePath grammar consumer path).progress :=
    proceeds.outcome onCourse.running
  rcases takePath_spec consumer onCourse.running proceeds.run proceeds.waits with
    took | ⟨before, step, later, firstRead, middle, rfl, took, broke⟩
  · have ongoing : (engine.takePath grammar consumer path).progress =
        .ongoing (engine.takePath grammar consumer path) := by
      simp [progress, took.performed.running, Status.isRunning]
    rw [ongoing] at outcome ⊢
    cases outcome with
    | moves _ isCloser =>
        exact .moves (took.entered.trans entered) (onCourse.took entered took) isCloser
  · rw [List.append_assoc] at onCourse
    have there := onCourse.took entered took
    exact (there.not_broke (took.entered.trans entered) broke).elim

/-- With a first alternative that allows the rest of the input, a decision waits or takes it. -/
theorem decide_of_arrived {frame : Frame} {ways : List Way} {division : Division} {routes : Routes}
    (settles : graph.Settles limits frame ways division routes)
    (positive : 1 ≤ limits.maxLookahead) {alternative : Nat} {path : Path} {waiting : List Char}
    (first : graph.FirstAdmits frame limits.maxLookahead routes.paths alternative path
      (waiting ++ unfed)) (whole : ended = true → unfed = [])
    (arrived : (Lookahead.holding waiting ended).front? ≠ none) :
    graph.decide (.holding waiting ended) routes = .needMore ∧ ended = false ∨
      graph.decide (.holding waiting ended) routes = .take path := by
  have taken := settles.decide_of_firstAdmits positive first
  cases ended with
  | true =>
      rw [whole rfl, List.append_nil] at taken
      exact .inr taken
  | false =>
      have waiting_ne : waiting ≠ [] := by
        rintro rfl
        exact arrived rfl
      rcases settles.decide_holding_append waiting_ne unfed true with putOff | same
      · exact .inl ⟨putOff, rfl⟩
      · exact .inr (same.trans taken)

theorem OnCourse.finish {symbol : Symbol} (onCourse : engine.OnCourse graph [] unfed ended)
    (entered : engine.entered = true)
    (front_eq : engine.lookahead.front? = some symbol) :
    StaysOnCourse graph unfed ended engine (.settled (engine.finish consumer symbol)) := by
  rcases onCourse.waits with ⟨waiting, lookahead_eq, run⟩
  have nothing := (Run.iff_walk.mp run).2.length_eq
  have waiting_eq : waiting = [] := by
    apply List.length_eq_zero_iff.mp
    simp only [Path.matchers_nil, List.length_nil, List.length_append] at nothing
    omega
  rw [lookahead_eq, waiting_eq] at front_eq
  cases ended with
  | false => cases front_eq
  | true =>
      cases front_eq
      have captures := onCourse.captures
      rw [ahead_of_entered entered] at captures
      have closed : engine.capture.isCapturing = false := by
        simpa [Path.entered, Graph.captureDepth?, CaptureBuffer.depth,
          CaptureBuffer.isCapturing] using captures
      simp only [Engine.finish, closed, Bool.false_eq_true, if_false]
      exact .succeeds rfl rfl

/-- In a strict grammar without exits every decision keeps the engine on course. -/
theorem OnCourse.advance {steps : Path} (resolved : grammar.IsResolved limits)
    (strict : limits.strict = true) (noExit : grammar.HasNoExit)
    (onCourse : engine.OnCourse grammar.toGraph steps unfed ended)
    (entered : engine.entered = true) (whole : ended = true → unfed = []) (consumer : Consumer) :
    StaysOnCourse grammar.toGraph unfed ended engine (engine.advance grammar consumer) := by
  rcases onCourse.waits with ⟨waiting, lookahead_eq, run⟩
  simp only [Engine.advance]
  cases front_eq : engine.lookahead.front? with
  | none =>
      apply StaysOnCourse.waits
      rw [lookahead_eq] at front_eq
      cases ended with
      | false => rfl
      | true => cases waiting <;> cases front_eq
  | some symbol =>
      have arrived : (Lookahead.holding waiting ended).front? ≠ none := by
        rw [← lookahead_eq, front_eq]
        exact Option.some_ne_none symbol
      cases stack_eq : engine.stack with
      | nil =>
          rw [stack_eq] at run
          obtain rfl := run.eq_nil_of_empty.1
          exact onCourse.finish entered front_eq
      | cons top below =>
          rw [stack_eq] at run
          rcases Grammar.first_steps_of_run resolved strict noExit run with
            ⟨none_eq, routes_eq, rest, rfl, _⟩ |
            ⟨routes, ways, division, alternative, path, rest, routes_eq, settles, rfl, first⟩
          · have proceeds : engine.Proceeds grammar [.leave] [] below :=
              .ends stack_eq none_eq routes_eq
            simp only [routes_eq, leave_eq_takePath onCourse.running]
            exact onCourse.takePath entered consumer proceeds
          · simp only [routes_eq]
            have decided := decide_of_arrived settles resolved.positive first whole arrived
            rw [← lookahead_eq] at decided
            rcases decided with ⟨putOff, unended⟩ | taken
            · rw [putOff]
              exact .waits unended
            · rcases Proceeds.of_decide resolved lookahead_eq stack_eq routes_eq taken with
                ⟨read, final, proceeds⟩
              rw [taken]
              exact onCourse.takePath entered consumer proceeds

/-- An engine on course settles either on course, or successfully if the input has ended. -/
theorem OnCourse.settle {steps : Path} (resolved : grammar.IsResolved limits)
    (strict : limits.strict = true) (noExit : grammar.HasNoExit)
    (onCourse : engine.OnCourse grammar.toGraph steps unfed ended)
    (entered : engine.entered = true) (whole : ended = true → unfed = []) (consumer : Consumer) :
    (ended = false ∧
      ∃ rest, (engine.settle grammar consumer).OnCourse grammar.toGraph rest unfed false) ∨
      ended = true ∧ (engine.settle grammar consumer).status = .succeeded := by
  let Holds (current : Engine) : Prop := current.entered = true ∧
    ∃ rest, current.OnCourse grammar.toGraph rest unfed ended
  have stays : ∀ current : Engine, Holds current →
      StaysOnCourse grammar.toGraph unfed ended current (current.advance grammar consumer) := by
    rintro current ⟨currentEntered, rest, currentOnCourse⟩
    exact currentOnCourse.advance resolved strict noExit currentEntered whole consumer
  have goesOn : ∀ before next : Engine, Holds before →
      before.advance grammar consumer = .ongoing next → Holds next ∧ next.IsCloser before := by
    intro before next holds advance_eq
    have progress := stays before holds
    rw [advance_eq] at progress
    cases progress with
    | moves nextEntered nextOnCourse closer => exact ⟨⟨nextEntered, _, nextOnCourse⟩, closer⟩
  have holds : Holds engine := ⟨entered, steps, onCourse⟩
  rcases exists_settled holds goesOn with ⟨last, lastHolds, advance_eq⟩
  have progress := stays last lastHolds
  rw [advance_eq] at progress
  rcases lastHolds with ⟨_, rest, lastOnCourse⟩
  cases progress with
  | waits unended =>
      rw [unended] at lastOnCourse
      exact .inl ⟨unended, rest, lastOnCourse⟩
  | succeeds succeeded isEnd => exact .inr ⟨isEnd, succeeded⟩

theorem onCourse_enter (begun : Engine) {steps : Path} {top : Frame}
    (running : begun.status = .running) (entered : begun.entered = true)
    (waits : ∃ waiting, begun.lookahead = .holding waiting ended ∧
      Run grammar.toGraph begun.stack steps (waiting ++ unfed) [])
    (captures : grammar.captureDepth? begun.capture.depth
      (top :: Path.entered begun.stack steps) = some 0) (consumer : Consumer) :
    (begun.enter grammar consumer top).entered = true ∧
      (begun.enter grammar consumer top).OnCourse grammar.toGraph steps unfed ended := by
  rcases enter_spec grammar consumer running top with ⟨kept, performed | underflowed⟩
  · have afterEntered := kept.entered.trans entered
    refine ⟨afterEntered, performed.running, ?_, ?_⟩
    · rw [kept.lookahead, kept.stack]
      exact waits
    · rw [← List.singleton_append, Graph.captureDepth?_append, performed.depth] at captures
      rw [ahead_of_entered afterEntered, kept.stack]
      exact captures
  · rw [underflowed.captureDepth?_eq_none] at captures
    cases captures

theorem OnCourse.enterStart {steps : Path} (consumer : Consumer)
    (onCourse : engine.OnCourse grammar.toGraph steps unfed ended) :
    (engine.enterStart grammar consumer).entered = true ∧
      (engine.enterStart grammar consumer).OnCourse grammar.toGraph steps unfed ended := by
  cases entered : engine.entered with
  | true =>
      rw [enterStart_of_entered entered]
      exact ⟨entered, onCourse⟩
  | false =>
      have captures := onCourse.captures
      cases stack_eq : engine.stack with
      | nil =>
          have arrived_eq : engine.enterStart grammar consumer =
              { engine with entered := true } := by
            simp [Engine.enterStart, entered, stack_eq]
          simp only [ahead, entered, stack_eq] at captures
          rw [arrived_eq]
          refine ⟨rfl, onCourse.running, onCourse.waits, ?_⟩
          simp only [ahead, stack_eq]
          exact captures
      | cons top below =>
          have nodes_eq : engine.ahead steps = top :: Path.entered engine.stack steps := by
            simp [ahead, entered, stack_eq]
          rw [nodes_eq] at captures
          rw [enterStart_of_unentered engine entered stack_eq]
          exact onCourse_enter { engine with entered := true } onCourse.running rfl onCourse.waits
            captures consumer

/-- Taking in the next symbol of the input keeps an engine on course until the input ends. -/
theorem OnCourse.feed {steps : Path} {symbol : Symbol} (resolved : grammar.IsResolved limits)
    (strict : limits.strict = true) (noExit : grammar.HasNoExit)
    (onCourse : engine.OnCourse grammar.toGraph steps (addedText symbol ++ unfed) false)
    (whole : symbol = .endOfInput → unfed = []) (consumer : Consumer) :
    (symbol ≠ .endOfInput ∧
      ∃ rest, (engine.feed grammar consumer symbol).OnCourse grammar.toGraph rest unfed false) ∨
      symbol = .endOfInput ∧ (engine.feed grammar consumer symbol).status = .succeeded := by
  have pushed : { engine with lookahead := engine.lookahead.push symbol }.OnCourse grammar.toGraph
      steps unfed (symbol == Symbol.endOfInput) := by
    rcases onCourse.waits with ⟨waiting, lookahead_eq, run⟩
    refine ⟨onCourse.running, ⟨waiting ++ addedText symbol, ?_, ?_⟩, onCourse.captures⟩
    · rw [← push_holding, ← lookahead_eq]
    · rw [List.append_assoc]
      exact run
  rcases pushed.enterStart consumer with ⟨entered, arrived⟩
  have isWhole : (symbol == Symbol.endOfInput) = true → unfed = [] := by
    intro isEnd
    exact whole (beq_iff_eq.mp isEnd)
  simp only [Engine.feed, arrived.running, Status.isRunning, if_true]
  rcases arrived.settle resolved strict noExit entered isWhole consumer with
    ⟨unended, rest, restOnCourse⟩ | ⟨isEnd, succeeded⟩
  · refine .inl ⟨?_, rest, restOnCourse⟩
    rintro rfl
    cases unended
  · exact .inr ⟨beq_iff_eq.mp isEnd, succeeded⟩

theorem OnCourse.feed_char {text : List Char} {character : Char} {size : Nat} {steps : Path}
    (decoded : Encoding.chars.decode text = .char character size)
    (resolved : grammar.IsResolved limits) (strict : limits.strict = true)
    (noExit : grammar.HasNoExit) (onCourse : engine.OnCourse grammar.toGraph steps text false)
    (consumer : Consumer) :
    ∃ rest, (engine.feed grammar consumer (.char character)).OnCourse grammar.toGraph rest
      (text.drop size) false := by
  have text_eq : text = addedText (.char character) ++ text.drop size :=
    Encoding.eq_cons_of_decode_chars decoded
  have goesOn : Symbol.char character = .endOfInput → text.drop size = [] := by simp
  rw [text_eq] at onCourse
  rcases onCourse.feed resolved strict noExit goesOn consumer with ⟨_, fedOnCourse⟩ | ⟨isEnd, _⟩
  · exact fedOnCourse
  · cases isEnd

/-- A call with the rest of the input takes all of it, and keeps the engine on course. -/
theorem Takes.onCourse {text : List Char} {count : Nat} {after : Engine} {steps : Path}
    (takes : Takes grammar .patient .chars engine text count after)
    (resolved : grammar.IsResolved limits) (strict : limits.strict = true)
    (noExit : grammar.HasNoExit) (onCourse : engine.OnCourse grammar.toGraph steps text false)
    (uncancelled : engine.cancelled = false) :
    ∃ rest, after.OnCourse grammar.toGraph rest [] false := by
  induction takes generalizing steps with
  | exhausts decoded =>
      obtain rfl := Encoding.eq_nil_of_decode_chars decoded
      exact ⟨steps, onCourse⟩
  | @malforms _ text malformation decoded => cases text <;> cases decoded
  | ends decoded ended =>
      rcases onCourse.feed_char decoded resolved strict noExit .patient with ⟨rest, fedOnCourse⟩
      rw [fedOnCourse.running] at ended
      cases ended
  | cancels decoded _ cancelled =>
      rw [cancelled_feed_patient grammar uncancelled] at cancelled
      cases cancelled
  | continues decoded _ fedUncancelled _ ih =>
      rcases onCourse.feed_char decoded resolved strict noExit .patient with ⟨rest, fedOnCourse⟩
      exact ih fedOnCourse fedUncancelled

/-- The engine after a text as a whole and the end of the input. -/
def parse (grammar : Grammar) (engine : Engine) (text : List Char) : Engine :=
  ((engine.consume grammar .patient .chars text).2.endInput grammar .patient).2

section Parsing

variable {grammar : Grammar} {limits : ResolutionLimits}

theorem endInput_snd (grammar : Grammar) (consumer : Consumer) (engine : Engine) :
    (engine.endInput grammar consumer).2 =
      if engine.status.isRunning then engine.feed grammar consumer .endOfInput else engine := by
  simp only [endInput]
  split
  · rfl
  · rfl

/-- A parse takes in units of the text, and then tells the engine that the input has ended if it is
still running. -/
theorem exists_takes_of_parse (grammar : Grammar) (engine : Engine) (start : RuleId)
    (text : List Char) :
    ∃ count after,
      Takes grammar .patient .chars { engine.resetTo start with cancelled := false } text count
          after ∧
        (engine.resetTo start).parse grammar text =
          if after.status.isRunning then after.feed grammar .patient .endOfInput else after := by
  rcases takes_takeUnits grammar .patient .chars text 0
      { engine.resetTo start with cancelled := false } with ⟨count, after, takeUnits_eq, takes⟩
  refine ⟨count, after, takes, ?_⟩
  have after_eq : ((engine.resetTo start).consume grammar .patient .chars text).2 = after :=
    congrArg Prod.snd takeUnits_eq
  rw [parse, after_eq, endInput_snd]

/-- The engine succeeds on every text that is parsed by a run. -/
theorem parse_of_parses (resolved : grammar.IsResolved limits) (strict : limits.strict = true)
    (noExit : grammar.HasNoExit) (engine : Engine) {start : RuleId} {steps : Path}
    {text : List Char} (parses : grammar.Parses start steps text) :
    ((engine.resetTo start).parse grammar text).status = .succeeded := by
  rcases exists_takes_of_parse grammar engine start text with ⟨count, after, takes, parse_eq⟩
  have begun : { engine.resetTo start with cancelled := false }.OnCourse grammar.toGraph steps text
      false := ⟨rfl, ⟨[], rfl, parses.run⟩, parses.captures⟩
  rcases takes.onCourse resolved strict noExit begun rfl with ⟨rest, onCourse⟩
  have atEnd : addedText .endOfInput ++ [] = [] := rfl
  rw [← atEnd] at onCourse
  rw [parse_eq, onCourse.running]
  rcases onCourse.feed resolved strict noExit (fun _ => rfl) .patient with
    ⟨goesOn, _⟩ | ⟨_, succeeded⟩
  · exact absurd rfl goesOn
  · exact succeeded

/-- Every text that the engine succeeds on is parsed by a run. -/
theorem exists_parses_of_succeeded (resolved : grammar.IsResolved limits) (engine : Engine)
    {start : RuleId} {text : List Char}
    (succeeded : ((engine.resetTo start).parse grammar text).status = .succeeded) :
    ∃ steps, grammar.Parses start steps text := by
  rcases exists_takes_of_parse grammar engine start text with ⟨count, after, takes, parse_eq⟩
  have begun := (engine.tracks_resetTo grammar.toGraph start).of_journal false engine.journal rfl
  rcases takes.tracks resolved begun rfl with ⟨tracks, notSucceeded⟩
  rw [parse_eq] at succeeded
  cases running : after.status.isRunning with
  | false =>
      simp only [running, Bool.false_eq_true, if_false] at succeeded
      exact absurd succeeded notSucceeded
  | true =>
      have isRunning := status_of_isRunning running
      -- Nobody has asked for a stop, so that the call has taken the whole text.
      have read_all : Encoding.chars.textOf text count = text := by
        rcases takes.stops rfl with ⟨count_le, stops⟩
        rcases stops isRunning with cancelled | exhausted
        · rw [takes.uncancelled_of_patient rfl] at cancelled
          cases cancelled
        · have left := List.drop_eq_nil_iff.mp (Encoding.eq_nil_of_decode_chars exhausted)
          have count_eq : count = text.length := by omega
          rw [count_eq, Encoding.textOf_chars]
      rw [List.nil_append, read_all] at tracks
      simp only [running, if_true] at succeeded
      rcases tracks.follows_of_running isRunning with ⟨_, _, textFollows⟩
      have endTracks := (textFollows.tracks_feed resolved .patient isRunning .endOfInput).1
      rw [addedText, List.append_nil] at endTracks
      exact endTracks.exists_parses succeeded

end Parsing

end Engine

/-- In a strict grammar without exits the engine succeeds on exactly those texts that are parsed by
a run of the start rule, and a text has no more than one run. -/
theorem Grammar.parse_succeeds_iff {graph : Graph} {config : GrammarConfig} {grammar : Grammar}
    (built : (graph.build config).result = .ok grammar) (strict : config.strict = true)
    (noExit : grammar.HasNoExit) (engine : Engine) (start : RuleId) (text : List Char) :
    (((engine.resetTo start).parse grammar text).status = .succeeded ↔
      ∃ steps, graph.Parses start steps text) ∧
    ∀ steps other, Run graph [⟨start, Rule.entry⟩] steps text [] →
      Run graph [⟨start, Rule.entry⟩] other text [] → steps = other := by
  rcases Graph.build_ok built with ⟨rfl, resolved⟩
  refine ⟨⟨?_, ?_⟩, ?_⟩
  · intro succeeded
    exact engine.exists_parses_of_succeeded resolved succeeded
  · rintro ⟨steps, parses⟩
    exact engine.parse_of_parses resolved strict noExit parses
  · intro steps other run otherRun
    exact run.steps_unique resolved strict noExit otherRun

/-- A rule that captures one of two words between brackets. Where they begin, two code points decide
which of them comes. -/
def Graph.bracketed : Graph :=
  (Assembly.assemble do
    let main ← Assembly.rule "main"
    let word ← Assembly.rule "word"
    let start ← Assembly.node main
    let opened ← Assembly.node main
    let read ← Assembly.node main
    let closed ← Assembly.node main
    let begun ← Assembly.node word .beginCapture
    let first ← Assembly.node word
    let second ← Assembly.node word
    let done ← Assembly.node word (.publish "word" 0 0)
    let _ ← Assembly.charEdge main start '(' opened
    let _ ← Assembly.callEdge main opened word read
    let _ ← Assembly.charEdge main read ')' closed
    let _ ← Assembly.charEdge word begun 'a' first
    let _ ← Assembly.charEdge word begun 'a' second
    let _ ← Assembly.charEdge word first 'b' done
    Assembly.charEdge word second 'c' done).2

theorem Grammar.parse_bracketed :
    ∃ grammar, (Graph.bracketed.build ⟨"main", 2, true⟩).result = .ok grammar ∧
      grammar.HasNoExit ∧
      ((Engine.ofGrammar grammar |>.resetTo 0).parse grammar ['(', 'a', 'c', ')']).status =
        .succeeded ∧
      ∃ steps, Graph.bracketed.Parses 0 steps ['(', 'a', 'c', ')'] := by
  have isOk : (Graph.bracketed.build ⟨"main", 2, true⟩).result.isOk = true := by decide +kernel
  have built := Graph.build_eq_builtGrammar isOk
  have noExit : (Graph.bracketed.builtGrammar ⟨"main", 2, true⟩).HasNoExit := by
    apply Grammar.hasNoExit_of_tables
    decide +kernel
  have succeeded : ((Engine.ofGrammar (Graph.bracketed.builtGrammar ⟨"main", 2, true⟩)
      |>.resetTo 0).parse (Graph.bracketed.builtGrammar ⟨"main", 2, true⟩)
        ['(', 'a', 'c', ')']).status = .succeeded := by cbv
  refine ⟨_, built, noExit, succeeded, ?_⟩
  exact (Grammar.parse_succeeds_iff built rfl noExit (Engine.ofGrammar _) 0
    ['(', 'a', 'c', ')']).1.mp succeeded

end StreamGrammar
