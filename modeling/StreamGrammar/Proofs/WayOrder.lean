import Mathlib.Data.List.Lex
import StreamGrammar.Proofs.Resolution

/-!
# The order of the ways

At every node of a walk there is a choice: one step along each outgoing edge, in the
order in which the edges are declared, or leaving the rule if there is none. A walk is
known by its choices, even where several edges do the same. The ways that are listed at
a place, each known by its choices, stand in the order of the choices, the first one
counting most. So none is listed twice, and all that one edge leads to comes before
anything that the next one does.

The paths and the exit of a node are taken from that list.
-/

namespace StreamGrammar

/-- The step along an edge. -/
def Edge.step (edge : Edge) : Step :=
  match edge.kind with
  | .consume matcher => .consume matcher edge.target
  | .call callee => .call callee edge.target
  | .goto => .goto edge.target

theorem Edge.edge?_step (edge : Edge) : edge.step.edge? = some (edge.kind, edge.target) := by
  unfold step
  split
  next kind_eq => rw [kind_eq]; rfl
  next kind_eq => rw [kind_eq]; rfl
  next kind_eq => rw [kind_eq]; rfl

namespace Graph

variable {graph : Graph}

/-- The steps to choose from at a node: one along each outgoing edge, in order of declaration, or
leaving the rule if there is none. -/
def choicesAt (graph : Graph) (frame : Frame) : List Step :=
  match graph.outgoing frame with
  | [] => [.leave]
  | edges => edges.map Edge.step

/-- The path that takes one step after the other, each at the chosen position. -/
def pathAlong (graph : Graph) : List Frame → List Nat → Option Path
  | _, [] => some []
  | [], _ :: _ => none
  | top :: below, choice :: choices => do
      let step ← (graph.choicesAt top)[choice]?
      let rest ← graph.pathAlong (step.apply (top :: below)) choices
      return step :: rest

theorem choicesAt_of_nil {frame : Frame} (outgoing_eq : graph.outgoing frame = []) :
    graph.choicesAt frame = [.leave] := by
  simp [choicesAt, outgoing_eq]

theorem choicesAt_of_ne_nil {frame : Frame} (outgoing_ne : graph.outgoing frame ≠ []) :
    graph.choicesAt frame = (graph.outgoing frame).map Edge.step := by
  unfold choicesAt
  split
  next outgoing_eq => exact (outgoing_ne outgoing_eq).elim
  next => rfl

theorem mem_choicesAt_iff {top : Frame} {below : List Frame} {step : Step} :
    step ∈ graph.choicesAt top ↔ step.IsEnabled graph (top :: below) := by
  by_cases outgoing_eq : graph.outgoing top = []
  · rw [choicesAt_of_nil outgoing_eq, List.mem_singleton]
    cases step with
    | leave => simp [Step.IsEnabled, Step.edge?, outgoing_eq]
    | call | goto | consume => simp [Step.IsEnabled, Step.edge?, outgoing_eq]
  · rw [choicesAt_of_ne_nil outgoing_eq, List.mem_map]
    constructor
    · rintro ⟨edge, edge_mem, rfl⟩
      simp only [Step.IsEnabled, edge.edge?_step]
      exact ⟨edge, edge_mem, rfl, rfl⟩
    · intro enabled
      cases step with
      | leave => exact (outgoing_eq enabled).elim
      | call | goto | consume =>
          rcases enabled with ⟨edge, edge_mem, kind_eq, rfl⟩
          exact ⟨edge, edge_mem, by simp [Edge.step, kind_eq]⟩

theorem pathAlong_cons_iff {top : Frame} {below : List Frame} {choice : Nat} {choices : List Nat}
    {path : Path} : graph.pathAlong (top :: below) (choice :: choices) = some path ↔
      ∃ step rest, (graph.choicesAt top)[choice]? = some step ∧ path = step :: rest ∧
        graph.pathAlong (step.apply (top :: below)) choices = some rest := by
  simp only [pathAlong, Option.bind_eq_bind, Option.bind_eq_some_iff, Option.pure_def,
    Option.some.injEq]
  constructor
  · rintro ⟨step, step_eq, rest, rest_eq, rfl⟩
    exact ⟨step, rest, step_eq, rfl, rest_eq⟩
  · rintro ⟨step, rest, step_eq, rfl, rest_eq⟩
    exact ⟨step, step_eq, rest, rest_eq, rfl⟩

theorem choices_eq_nil {stack : List Frame} {choices : List Nat}
    (along : graph.pathAlong stack choices = some []) : choices = [] := by
  cases choices with
  | nil => rfl
  | cons choice choices =>
      cases stack with
      | nil => cases along
      | cons top below =>
          rcases pathAlong_cons_iff.mp along with ⟨_, _, _, impossible, _⟩
          cases impossible

end Graph

namespace Way

variable {graph : Graph} {place : Place} {way : Way}

@[simp]
theorem steps_after (step : Step) (way : Way) : (way.after step).steps = step :: way.steps := by
  cases way <;> rfl

/-- The way comes about by the choices, each of which is the position of a step among those to
choose from. -/
structure IsChosen (graph : Graph) (place : Place) (choices : List Nat) (way : Way) : Prop where
  taken : way.IsTakenFrom graph place
  along : graph.pathAlong place.stack choices = some way.steps

/-- The way begins with the step, and the choices are those after it. -/
structure IsChosenAfter (graph : Graph) (place : Place) (step : Step) (choices : List Nat)
    (way : Way) : Prop where
  taken : way.IsTakenFrom graph place
  along : ∃ rest, way.steps = step :: rest ∧
    graph.pathAlong (step.apply place.stack) choices = some rest

theorem isChosen_iff {choices : List Nat} : way.IsChosen graph place choices ↔
    ∃ choice rest step, choices = choice :: rest ∧ (graph.choicesAt place.top)[choice]? = some step ∧
      way.IsChosenAfter graph place step rest := by
  constructor
  · rintro ⟨taken, along⟩
    cases choices with
    | nil =>
        have steps_eq : way.steps = [] := (Option.some.inj along).symm
        rcases taken.first_step with
          ⟨_, _, rfl, _⟩ | ⟨rfl, _, _⟩ | ⟨step, _, rest, rfl, _⟩
        · cases steps_eq
        · cases steps_eq
        · simp at steps_eq
    | cons choice rest =>
        rcases Graph.pathAlong_cons_iff.mp along with ⟨step, path, step_eq, steps_eq, path_eq⟩
        exact ⟨choice, rest, step, rfl, step_eq, taken, path, steps_eq, path_eq⟩
  · rintro ⟨choice, rest, step, rfl, step_eq, taken, path, steps_eq, path_eq⟩
    exact ⟨taken, Graph.pathAlong_cons_iff.mpr ⟨step, path, step_eq, steps_eq, path_eq⟩⟩

/-- Consuming at once leaves nothing more to choose. -/
theorem isChosenAfter_consume_iff {matcher : MatcherId} {target : NodeId} {choices : List Nat}
    (enabled : (Step.consume matcher target).IsEnabled graph place.stack) :
    way.IsChosenAfter graph place (.consume matcher target) choices ↔
      choices = [] ∧ way = .consuming [.consume matcher target] matcher (place.moveTo target) := by
  constructor
  · rintro ⟨taken, rest, steps_eq, along⟩
    rcases taken.first_step with
      ⟨other, otherTarget, rfl, _⟩ | ⟨rfl, _, _⟩ | ⟨step, next, further, rfl, _, _, silent, _⟩
    · cases steps_eq
      exact ⟨Graph.choices_eq_nil along, rfl⟩
    · cases steps_eq
    · rw [steps_after, List.cons.injEq] at steps_eq
      rw [steps_eq.1] at silent
      cases silent
  · rintro ⟨rfl, rfl⟩
    refine ⟨⟨.step enabled (.refl _), [], target, rfl, rfl⟩, [], rfl, ?_⟩
    exact rfl

/-- Leaving the outermost rule leaves nothing more to choose. -/
theorem isChosenAfter_leave_iff {choices : List Nat} (below_eq : place.below = [])
    (enabled : Step.leave.IsEnabled graph place.stack) :
    way.IsChosenAfter graph place .leave choices ↔ choices = [] ∧ way = .leaving [.leave] := by
  constructor
  · rintro ⟨taken, rest, steps_eq, along⟩
    rcases taken.first_step with
      ⟨_, _, rfl, _⟩ | ⟨rfl, _, _⟩ | ⟨step, next, further, rfl, _, next_eq, _, _⟩
    · cases steps_eq
    · cases steps_eq
      exact ⟨Graph.choices_eq_nil along, rfl⟩
    · rw [steps_after, List.cons.injEq] at steps_eq
      rw [steps_eq.1] at next_eq
      change place.below = next.stack at next_eq
      exact (next.stack_ne_nil (next_eq.symm.trans below_eq)).elim
  · rintro ⟨rfl, rfl⟩
    refine ⟨⟨.step enabled ?_, rfl⟩, [], rfl, ?_⟩
    · change Walk graph place.below [] []
      exact Walk.nil_iff.mpr below_eq.symm
    · exact rfl

/-- After any other step, the choices are those of a way from where the step leads to. -/
theorem isChosenAfter_iff {step : Step} {next : Place} {choices : List Nat}
    (enabled : step.IsEnabled graph place.stack) (next_eq : step.apply place.stack = next.stack)
    (silent : step.matcher? = none) : way.IsChosenAfter graph place step choices ↔
      ∃ further : Way, further.IsChosen graph next choices ∧ way = further.after step := by
  constructor
  · rintro ⟨taken, rest, steps_eq, along⟩
    rcases taken.first_step with
      ⟨_, _, rfl, _⟩ | ⟨rfl, below_eq, _⟩ | ⟨other, otherNext, further, rfl, _, other_eq, _, restTaken⟩
    · cases steps_eq
      cases silent
    · cases steps_eq
      exact (next.stack_ne_nil (next_eq.symm.trans below_eq)).elim
    · rw [steps_after, List.cons.injEq] at steps_eq
      rcases steps_eq with ⟨rfl, rfl⟩
      obtain rfl : otherNext = next := Place.stack_injective (other_eq.symm.trans next_eq)
      rw [next_eq] at along
      exact ⟨further, ⟨restTaken, along⟩, rfl⟩
  · rintro ⟨further, ⟨furtherTaken, along⟩, rfl⟩
    refine ⟨isTakenFrom_after enabled next_eq silent furtherTaken, further.steps, ?_, ?_⟩
    · rw [steps_after]
    · rw [next_eq]
      exact along

end Way

namespace Graph

variable {graph : Graph}

/-- The runs are the ways from a place with their choices, each of them once, in the order of the
choices. -/
structure Enumerates (graph : Graph) (place : Place) (runs : List (List Nat × Way)) : Prop where
  mem_iff : ∀ choices way, (choices, way) ∈ runs ↔ way.IsChosen graph place choices
  ascending : runs.Pairwise fun first second => first.1 < second.1

/-- The runs are those that begin with one step, with the choices after it, in the order of the
choices. -/
structure EnumeratesAfter (graph : Graph) (place : Place) (step : Step)
    (runs : List (List Nat × Way)) : Prop where
  mem_iff : ∀ choices way, (choices, way) ∈ runs ↔ way.IsChosenAfter graph place step choices
  ascending : runs.Pairwise fun first second => first.1 < second.1

theorem enumeratesAfter_single {place : Place} {step : Step} {only : Way}
    (alone : ∀ choices way, way.IsChosenAfter graph place step choices ↔ choices = [] ∧ way = only) :
    graph.EnumeratesAfter place step [([], only)] := by
  constructor
  · intro choices way
    rw [alone, List.mem_singleton, Prod.mk.injEq]
  · exact List.pairwise_singleton _ _

theorem Enumerates.after {place next : Place} {step : Step} {runs : List (List Nat × Way)}
    (enumerates : graph.Enumerates next runs) (enabled : step.IsEnabled graph place.stack)
    (next_eq : step.apply place.stack = next.stack) (silent : step.matcher? = none) :
    graph.EnumeratesAfter place step (runs.map fun run => (run.1, run.2.after step)) := by
  constructor
  · intro choices way
    rw [Way.isChosenAfter_iff enabled next_eq silent, List.mem_map]
    constructor
    · rintro ⟨⟨rest, further⟩, run_mem, run_eq⟩
      cases run_eq
      exact ⟨further, (enumerates.mem_iff rest further).mp run_mem, rfl⟩
    · rintro ⟨further, chosen, rfl⟩
      exact ⟨(choices, further), (enumerates.mem_iff choices further).mpr chosen, rfl⟩
  · exact List.pairwise_map.mpr enumerates.ascending

/-- What each of the steps to choose from begins, put one after the other behind the position of
the step. -/
theorem exists_enumerates {Member : Type} {place : Place} {members : List Member}
    {stepOf : Member → Step} {waysOf : Member → List Way}
    (steps_eq : graph.choicesAt place.top = members.map stepOf)
    (after : ∀ member ∈ members, ∃ runs, graph.EnumeratesAfter place (stepOf member) runs ∧
      waysOf member = runs.map Prod.snd) :
    ∃ runs, graph.Enumerates place runs ∧ members.flatMap waysOf = runs.map Prod.snd := by
  choose! runsOf runsOf_spec using after
  -- Members may be equal, so their positions and not they themselves number the choices.
  let numbered : List (List Nat × Way) := members.zipIdx.flatMap fun (member, choice) =>
    (runsOf member).map fun run => (choice :: run.1, run.2)
  refine ⟨numbered, ⟨?_, ?_⟩, ?_⟩
  · intro choices way
    rw [Way.isChosen_iff, List.mem_flatMap]
    simp only [Prod.exists, List.mk_mem_zipIdx_iff_getElem?, List.mem_map, Prod.mk.injEq, steps_eq,
      List.getElem?_map, Option.map_eq_some_iff]
    constructor
    · rintro ⟨member, choice, member_eq, rest, _, run_mem, rfl, rfl⟩
      have member_mem := List.mem_of_getElem? member_eq
      exact ⟨choice, rest, stepOf member, rfl, ⟨member, member_eq, rfl⟩,
        ((runsOf_spec member member_mem).1.mem_iff rest _).mp run_mem⟩
    · rintro ⟨choice, rest, _, rfl, ⟨member, member_eq, rfl⟩, chosen⟩
      have member_mem := List.mem_of_getElem? member_eq
      exact ⟨member, choice, member_eq, rest, way,
        ((runsOf_spec member member_mem).1.mem_iff rest way).mpr chosen, rfl, rfl⟩
  · have ascending : members.zipIdx.Pairwise fun first second => first.2 < second.2 := by
      rw [← List.pairwise_map (f := Prod.snd), List.zipIdx_map_snd]
      exact List.pairwise_lt_range'
    refine List.pairwise_flatMap.mpr ⟨?_, ascending.imp ?_⟩
    · rintro ⟨member, choice⟩ member_mem
      have member_mem' := List.mem_of_getElem? (List.mk_mem_zipIdx_iff_getElem?.mp member_mem)
      refine List.pairwise_map.mpr ((runsOf_spec member member_mem').1.ascending.imp ?_)
      intro first second less
      exact List.cons_lt_cons_iff.mpr (.inr ⟨rfl, less⟩)
    · rintro ⟨member, choice⟩ ⟨other, later⟩ less first first_mem second second_mem
      rcases List.mem_map.mp first_mem with ⟨_, _, rfl⟩
      rcases List.mem_map.mp second_mem with ⟨_, _, rfl⟩
      exact List.cons_lt_cons_iff.mpr (.inl less)
  · calc members.flatMap waysOf
        = (members.zipIdx.map Prod.fst).flatMap waysOf := by rw [List.zipIdx_map_fst]
      _ = members.zipIdx.flatMap fun numbered => (runsOf numbered.1).map Prod.snd := by
          rw [List.flatMap_map]
          apply List.flatMap_congr
          rintro ⟨member, choice⟩ member_mem
          have member_mem' := List.mem_of_getElem? (List.mk_mem_zipIdx_iff_getElem?.mp member_mem)
          exact (runsOf_spec member member_mem').2
      _ = numbered.map Prod.snd := by
          rw [List.map_flatMap]
          simp only [List.map_map, Function.comp_def]

/-- Where the rule ends there is nothing to choose. -/
theorem exists_enumerates_of_leave {place : Place} {runs : List (List Nat × Way)}
    (ends : graph.outgoing place.top = []) (after : graph.EnumeratesAfter place .leave runs) :
    ∃ numbered, graph.Enumerates place numbered ∧ runs.map Prod.snd = numbered.map Prod.snd := by
  have only : ∀ member ∈ [Step.leave], ∃ runs', graph.EnumeratesAfter place (id member) runs' ∧
      runs.map Prod.snd = runs'.map Prod.snd := by
    intro member member_mem
    obtain rfl := List.mem_singleton.mp member_mem
    exact ⟨runs, after, rfl⟩
  have enumerated := exists_enumerates (choicesAt_of_nil ends) only
  rw [List.flatMap_singleton] at enumerated
  exact enumerated

theorem EdgeWays.exists_runs {waysFrom : Place → List Way → Prop} {place : Place} {edge : Edge}
    {ways : List Way} (edgeWays : EdgeWays waysFrom place edge ways)
    (edge_mem : edge ∈ graph.outgoing place.top)
    (enumerated : ∀ {next further}, waysFrom next further →
      ∃ runs, graph.Enumerates next runs ∧ further = runs.map Prod.snd) :
    ∃ runs, graph.EnumeratesAfter place edge.step runs ∧ ways = runs.map Prod.snd := by
  have enabled : edge.step.IsEnabled graph place.stack := by
    simp only [Place.stack, Step.IsEnabled, edge.edge?_step]
    exact ⟨edge, edge_mem, rfl, rfl⟩
  cases edgeWays with
  | @consume matcher kind_eq =>
      have step_eq : edge.step = .consume matcher edge.target := by simp [Edge.step, kind_eq]
      rw [step_eq] at enabled ⊢
      exact ⟨_, enumeratesAfter_single fun _ _ => Way.isChosenAfter_consume_iff enabled, rfl⟩
  | goto kind_eq found =>
      have step_eq : edge.step = .goto edge.target := by simp [Edge.step, kind_eq]
      rw [step_eq] at enabled ⊢
      rcases enumerated found with ⟨runs, enumerates, rfl⟩
      refine ⟨_, enumerates.after enabled rfl rfl, ?_⟩
      simp only [List.map_map, Function.comp_def]
  | @call callee _ kind_eq found =>
      have step_eq : edge.step = .call callee edge.target := by simp [Edge.step, kind_eq]
      rw [step_eq] at enabled ⊢
      rcases enumerated found with ⟨runs, enumerates, rfl⟩
      refine ⟨_, enumerates.after enabled rfl rfl, ?_⟩
      simp only [List.map_map, Function.comp_def]

/-- A search that does not give up lists the ways in the order of their choices. -/
theorem exists_enumerates_of_waysWithin {remaining : Nat} {trail : List Place} {place : Place}
    {ways : List Way} (found : graph.waysWithin remaining trail place = .ok ways) :
    ∃ runs, graph.Enumerates place runs ∧ ways = runs.map Prod.snd := by
  induction remaining generalizing trail place ways with
  | zero => cases found
  | succ remaining ih =>
      rcases waysWithin_succ_ok found with
        ⟨outgoing_eq, below_eq, rfl⟩ |
        ⟨caller, below, further, outgoing_eq, below_eq, further_eq, rfl⟩ |
          ⟨list, rfl, outgoing_ne, edgeWays⟩
      · exact exists_enumerates_of_leave outgoing_eq (enumeratesAfter_single fun _ _ =>
          Way.isChosenAfter_leave_iff below_eq outgoing_eq)
      · rcases ih further_eq with ⟨runs, enumerates, rfl⟩
        have next_eq : Step.leave.apply place.stack = Place.stack ⟨caller, below⟩ := below_eq
        have enumerated := exists_enumerates_of_leave outgoing_eq
          (enumerates.after outgoing_eq next_eq rfl)
        simpa only [List.map_map, Function.comp_def] using enumerated
      · exact exists_enumerates (choicesAt_of_ne_nil outgoing_ne) fun edge edge_mem =>
          (edgeWays edge edge_mem).exists_runs edge_mem fun further_eq => ih further_eq

theorem EdgeWays.ne_nil {waysFrom : Place → List Way → Prop} {place : Place} {edge : Edge}
    {ways : List Way} (edgeWays : EdgeWays waysFrom place edge ways)
    (goesOn : ∀ {next further}, waysFrom next further → further ≠ []) : ways ≠ [] := by
  cases edgeWays with
  | consume => simp
  | goto _ found => simpa using goesOn found
  | call _ found => simpa using goesOn found

/-- From every place there is some way to go on. -/
theorem waysWithin_ne_nil {remaining : Nat} {trail : List Place} {place : Place}
    {ways : List Way} (found : graph.waysWithin remaining trail place = .ok ways) : ways ≠ [] := by
  induction remaining generalizing trail place ways with
  | zero => cases found
  | succ remaining ih =>
      rcases waysWithin_succ_ok found with
        ⟨_, _, rfl⟩ | ⟨_, _, further, _, _, further_eq, rfl⟩ | ⟨list, rfl, outgoing_ne, edgeWays⟩
      · simp
      · simpa using ih further_eq
      · rcases List.exists_mem_of_ne_nil _ outgoing_ne with ⟨edge, edge_mem⟩
        have edge_ne := (edgeWays edge edge_mem).ne_nil fun found => ih found
        intro none
        exact edge_ne (List.flatMap_eq_nil_iff.mp none edge edge_mem)

/-- The ways that are listed at a place are all that can be taken from it, each of them once for
each choice of edges that brings it about, in the order of the choices, and there is at least one.
The paths of a node are its consuming ways, and its exit is the first one that leaves the rule. -/
theorem ways_are_runs_in_order (graph : Graph) :
    (∀ place ways, graph.ways place = .ok ways → ways ≠ [] ∧
      (∀ way, way ∈ ways ↔ way.IsTakenFrom graph place) ∧
      ∃ runs, graph.Enumerates place runs ∧ ways = runs.map Prod.snd) ∧
    ∀ config grammar, (graph.build config).result = .ok grammar →
      ∀ frame routes, grammar.routes? frame = some routes →
        ∃ runs, graph.Enumerates { top := frame } runs ∧
          routes.paths = (runs.filterMap fun run => run.2.alternative?).map Prod.fst ∧
          (∀ path ∈ routes.paths, ∃ silent matcher target,
            path = silent ++ [.consume matcher target] ∧ Path.matchers silent = []) ∧
          routes.exit = (runs.filterMap fun run => run.2.exit?).head? := by
  refine ⟨?_, ?_⟩
  · intro place ways found
    exact ⟨waysWithin_ne_nil found, fun way => mem_ways_iff found,
      exists_enumerates_of_waysWithin found⟩
  · intro config grammar built frame routes routes_eq
    rcases build_ok built with ⟨rfl, resolved⟩
    rcases resolved.decided frame with
      ⟨_, none_eq⟩ | ⟨_, other, ways, division, other_eq, settles⟩
    · simp [none_eq] at routes_eq
    · obtain rfl : other = routes := by simpa [other_eq] using routes_eq
      rcases exists_enumerates_of_waysWithin settles.ways_eq with ⟨runs, enumerates, rfl⟩
      refine ⟨runs, enumerates, ?_, ?_, ?_⟩
      · rw [settles.paths_eq, List.filterMap_map]
        rfl
      · intro path path_mem
        rcases settles.path_mem_iff.mp path_mem with ⟨matcher, next, taken⟩
        rcases Way.isTakenFrom_consuming_iff.mp taken with ⟨_, silent, target, path_eq, silent_eq⟩
        exact ⟨silent, matcher, target, path_eq, silent_eq⟩
      · rw [settles.exit_eq, List.filterMap_map]
        rfl

/-- A rule that reads an optional letter, which two edges provide for, or falls through. -/
def optionalLetter : Graph :=
  (Assembly.assemble do
    let main ← Assembly.rule "main"
    let letter ← Assembly.rule "letter"
    let start ← Assembly.node main
    let done ← Assembly.node main
    let opened ← Assembly.node letter
    let closed ← Assembly.node letter
    let _ ← Assembly.callEdge main start letter done
    let _ ← Assembly.gotoEdge main start done
    let _ ← Assembly.charEdge letter opened 'x' closed
    let _ ← Assembly.charEdge letter opened 'x' closed
    Assembly.gotoEdge letter opened closed).2

/-- The two edges of the letter give two ways, before the ways that leave the rule. -/
theorem ways_are_runs_in_order_optionalLetter :
    ∃ ways grammar routes, optionalLetter.ways { top := ⟨0, 0⟩ } = .ok ways ∧
      (optionalLetter.build ⟨"main", 1, false⟩).result = .ok grammar ∧
      grammar.routes? ⟨0, 0⟩ = some routes ∧
      ways = [.consuming [.call 1 1, .consume 0 1] 0 ⟨⟨1, 1⟩, [⟨0, 1⟩]⟩,
        .consuming [.call 1 1, .consume 0 1] 0 ⟨⟨1, 1⟩, [⟨0, 1⟩]⟩,
        .leaving [.call 1 1, .goto 1, .leave, .leave], .leaving [.goto 1, .leave]] ∧
      (∃ runs, optionalLetter.Enumerates { top := ⟨0, 0⟩ } runs ∧ ways = runs.map Prod.snd) ∧
      ∃ runs, optionalLetter.Enumerates { top := ⟨0, 0⟩ } runs ∧
        routes.exit = (runs.filterMap fun run => run.2.exit?).head? := by
  have isOk : (optionalLetter.build ⟨"main", 1, false⟩).result.isOk = true := by decide +kernel
  have built := build_eq_builtGrammar isOk
  have decided : ((optionalLetter.builtGrammar ⟨"main", 1, false⟩).routes? ⟨0, 0⟩).isSome = true := by
    decide +kernel
  rcases Option.isSome_iff_exists.mp decided with ⟨routes, routes_eq⟩
  rcases ways_are_runs_in_order optionalLetter with ⟨enumerated, resolved⟩
  rcases resolved _ _ built _ _ routes_eq with ⟨runs, enumerates, _, _, exit_eq⟩
  have ways_eq : optionalLetter.ways { top := ⟨0, 0⟩ } = .ok _ := rfl
  exact ⟨_, _, routes, ways_eq, built, routes_eq, rfl, (enumerated _ _ ways_eq).2.2, runs, enumerates,
    exit_eq⟩

end Graph

end StreamGrammar
