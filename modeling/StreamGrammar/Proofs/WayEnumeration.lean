import StreamGrammar.Proofs.Walks
import StreamGrammar.Route.Way

/-!
# The enumeration of ways is exact

`Graph.ways` searches the graph depth first and gives up on anything that could go
on for ever. If it does not give up, its result lists exactly the walks from the
place that consume nothing and then either consume one code point or leave the
outermost rule: none is missing and none is made up.
-/

namespace StreamGrammar

/-- What a computation that may fail has to do to answer after two stages. -/
theorem exists_ok_of_bind_eq_ok {Fault Answer Result : Type} {first : Except Fault Answer}
    {second : Answer → Except Fault Result} {result : Result}
    (both : (first >>= second) = .ok result) :
    ∃ answer, first = .ok answer ∧ second answer = .ok result := by
  cases first with
  | error fault => cases both
  | ok answer => exact ⟨answer, rfl, both⟩

/-- The results for the members of a list are put one after the other, and none is a fault. -/
theorem exists_lists_of_flatMapM_eq_ok {Fault Member Result : Type}
    {search : Member → Except Fault (List Result)} {members : List Member} {results : List Result}
    (found : members.flatMapM search = .ok results) :
    ∃ list : Member → List Result, (∀ member ∈ members, search member = .ok (list member)) ∧
      results = members.flatMap list := by
  refine ⟨fun member => (search member).toOption.getD [], ?_⟩
  induction members generalizing results with
  | nil =>
      cases found
      simp
  | cons member rest ih =>
      rw [List.flatMapM_cons] at found
      rcases exists_ok_of_bind_eq_ok found with ⟨first, first_eq, found⟩
      rcases exists_ok_of_bind_eq_ok found with ⟨others, others_eq, found⟩
      cases found
      rcases ih others_eq with ⟨rest_ok, rfl⟩
      have first_ok : search member = .ok ((search member).toOption.getD []) := by
        rw [first_eq]
        rfl
      refine ⟨?_, ?_⟩
      · simp only [List.mem_cons, forall_eq_or_imp]
        exact ⟨first_ok, rest_ok⟩
      · rw [List.flatMap_cons, first_eq]
        rfl

namespace Place

/-- The frames of a place, the innermost first. -/
def stack (place : Place) : List Frame := place.top :: place.below

theorem stack_ne_nil (place : Place) : place.stack ≠ [] := by simp [stack]

theorem stack_injective {place other : Place} (same : place.stack = other.stack) :
    place = other := by
  cases place
  cases other
  simp_all [stack]

theorem exists_stack_eq {stack : List Frame} (stack_ne : stack ≠ []) :
    ∃ place : Place, place.stack = stack := by
  cases stack with
  | nil => contradiction
  | cons top below => exact ⟨⟨top, below⟩, rfl⟩

end Place

namespace Way

def steps : Way → Path
  | .consuming steps _ _ => steps
  | .leaving steps => steps

/-- The way is a walk from the place that consumes nothing before its end, and at its end one code
point unless it leaves the outermost rule. -/
def IsTakenFrom (graph : Graph) (place : Place) : Way → Prop
  | .consuming steps matcher next =>
      Walk graph place.stack steps next.stack ∧
        ∃ silent target, steps = silent ++ [.consume matcher target] ∧ Path.matchers silent = []
  | .leaving steps => Walk graph place.stack steps [] ∧ Path.matchers steps = []

variable {graph : Graph} {place : Place}

/-- Taking a silent step first turns a way from where it leads to into one from where it begins. -/
theorem isTakenFrom_after {next : Place} {step : Step} {way : Way}
    (enabled : step.IsEnabled graph place.stack) (next_eq : step.apply place.stack = next.stack)
    (silent : step.matcher? = none) (taken : way.IsTakenFrom graph next) :
    (way.after step).IsTakenFrom graph place := by
  cases way with
  | consuming steps matcher further =>
      rcases taken with ⟨walk, before, target, rfl, before_silent⟩
      refine ⟨.step enabled (next_eq ▸ walk), step :: before, target, rfl, ?_⟩
      rw [Path.matchers_cons, silent, before_silent]
      rfl
  | leaving steps =>
      rcases taken with ⟨walk, steps_silent⟩
      refine ⟨.step enabled (next_eq ▸ walk), ?_⟩
      rw [Path.matchers_cons, silent, steps_silent]
      rfl

/-- Every way either consumes at once, or leaves the outermost rule at once, or takes a silent step
to another place first. -/
theorem IsTakenFrom.first_step {way : Way} (taken : way.IsTakenFrom graph place) :
    (∃ matcher target, way = .consuming [.consume matcher target] matcher (place.moveTo target) ∧
      (Step.consume matcher target).IsEnabled graph place.stack) ∨
    (way = .leaving [.leave] ∧ place.below = [] ∧ Step.leave.IsEnabled graph place.stack) ∨
    ∃ (step : Step) (next : Place) (rest : Way), way = rest.after step ∧
      step.IsEnabled graph place.stack ∧ step.apply place.stack = next.stack ∧
      step.matcher? = none ∧ rest.IsTakenFrom graph next := by
  cases way with
  | consuming steps matcher further =>
      rcases taken with ⟨walk, before, target, rfl, before_silent⟩
      cases before with
      | nil =>
          rcases Walk.cons_iff.mp walk with ⟨enabled, rest⟩
          have further_eq : further.stack = (place.moveTo target).stack := Walk.nil_iff.mp rest
          obtain rfl := Place.stack_injective further_eq
          exact .inl ⟨matcher, target, rfl, enabled⟩
      | cons step before =>
          rcases Walk.cons_iff.mp walk with ⟨enabled, rest⟩
          rw [Path.matchers_cons, List.append_eq_nil_iff] at before_silent
          have next_ne : step.apply place.stack ≠ [] := by
            intro empty
            rw [empty] at rest
            exact further.stack_ne_nil rest.eq_nil_of_empty.2
          rcases Place.exists_stack_eq next_ne with ⟨next, next_eq⟩
          refine .inr (.inr ⟨step, next,
            .consuming (before ++ [.consume matcher target]) matcher further,
            rfl, enabled, next_eq.symm, by simpa using before_silent.1, ?_⟩)
          exact ⟨next_eq ▸ rest, before, target, rfl, before_silent.2⟩
  | leaving steps =>
      rcases taken with ⟨walk, steps_silent⟩
      cases steps with
      | nil => exact (place.stack_ne_nil (Walk.nil_iff.mp walk).symm).elim
      | cons step rest =>
          rcases Walk.cons_iff.mp walk with ⟨enabled, restWalk⟩
          rw [Path.matchers_cons, List.append_eq_nil_iff] at steps_silent
          have step_silent : step.matcher? = none := by simpa using steps_silent.1
          by_cases next_eq : step.apply place.stack = []
          · have leaves : step = .leave ∧ place.below = [] := by
              cases step <;> simp_all [Step.apply, Place.stack]
            rcases leaves with ⟨rfl, below_eq⟩
            rw [next_eq] at restWalk
            obtain rfl := restWalk.eq_nil_of_empty.1
            exact .inr (.inl ⟨rfl, below_eq, enabled⟩)
          · rcases Place.exists_stack_eq next_eq with ⟨next, next_eq⟩
            refine .inr (.inr ⟨step, next, .leaving rest, rfl, enabled, next_eq.symm, step_silent,
              ?_⟩)
            exact ⟨next_eq ▸ restWalk, steps_silent.2⟩

end Way

namespace Graph

variable {graph : Graph}

/-- The ways that begin with one edge, when `waysFrom` gives those from the place that it leads
to. -/
inductive EdgeWays (waysFrom : Place → List Way → Prop) (place : Place) (edge : Edge) :
    List Way → Prop
  | consume {matcher : MatcherId} (kind_eq : edge.kind = .consume matcher) :
      EdgeWays waysFrom place edge
        [.consuming [.consume matcher edge.target] matcher (place.moveTo edge.target)]
  | goto {further : List Way} (kind_eq : edge.kind = .goto)
      (found : waysFrom (place.moveTo edge.target) further) :
      EdgeWays waysFrom place edge (further.map (.after (.goto edge.target)))
  | call {callee : RuleId} {further : List Way} (kind_eq : edge.kind = .call callee)
      (found : waysFrom ((place.moveTo edge.target).enter callee) further) :
      EdgeWays waysFrom place edge (further.map (.after (.call callee edge.target)))

/-- What a search that does not give up finds at a place, in terms of the shorter searches that it
makes. -/
theorem waysWithin_succ_ok {remaining : Nat} {trail : List Place} {place : Place} {ways : List Way}
    (found : graph.waysWithin (remaining + 1) trail place = .ok ways) :
    (graph.outgoing place.top = [] ∧ place.below = [] ∧ ways = [.leaving [.leave]]) ∨
    (∃ caller below further, graph.outgoing place.top = [] ∧ place.below = caller :: below ∧
      graph.waysWithin remaining (place :: trail) ⟨caller, below⟩ = .ok further ∧
      ways = further.map (.after .leave)) ∨
    ∃ list : Edge → List Way, ways = (graph.outgoing place.top).flatMap list ∧
      graph.outgoing place.top ≠ [] ∧ ∀ edge ∈ graph.outgoing place.top,
        EdgeWays (fun next further =>
          graph.waysWithin remaining (place :: trail) next = .ok further) place edge
          (list edge) := by
  simp only [waysWithin] at found
  split at found
  · cases found
  · split at found
    next outgoing_eq below_eq =>
      cases found
      exact .inl ⟨outgoing_eq, below_eq, rfl⟩
    next caller below outgoing_eq below_eq =>
      rcases exists_ok_of_bind_eq_ok found with ⟨further, further_eq, found⟩
      cases found
      exact .inr (.inl ⟨caller, below, further, outgoing_eq, below_eq, further_eq, rfl⟩)
    next edges below notEnd notReturn =>
      rcases exists_lists_of_flatMapM_eq_ok found with ⟨list, list_eq, rfl⟩
      refine .inr (.inr ⟨list, rfl, ?_, ?_⟩)
      · intro none
        cases below_eq : place.below with
        | nil => exact notEnd none below_eq
        | cons caller rest => exact notReturn caller rest none below_eq
      · intro edge edge_mem
        have edge_eq := list_eq edge edge_mem
        split at edge_eq
        next matcher kind_eq =>
          rw [← Except.ok.inj edge_eq]
          exact .consume kind_eq
        next kind_eq =>
          rcases exists_ok_of_bind_eq_ok edge_eq with ⟨further, further_eq, edge_eq⟩
          rw [← Except.ok.inj edge_eq]
          exact .goto kind_eq further_eq
        next callee kind_eq =>
          rcases exists_ok_of_bind_eq_ok edge_eq with ⟨further, further_eq, edge_eq⟩
          rw [← Except.ok.inj edge_eq]
          exact .call kind_eq further_eq

namespace EdgeWays

variable {waysFrom : Place → List Way → Prop} {place : Place} {edge : Edge} {ways : List Way}

theorem isTakenFrom (edgeWays : EdgeWays waysFrom place edge ways)
    (edge_mem : edge ∈ graph.outgoing place.top)
    (sound : ∀ {next further}, waysFrom next further →
      ∀ way ∈ further, way.IsTakenFrom graph next) :
    ∀ way ∈ ways, way.IsTakenFrom graph place := by
  intro way way_mem
  cases edgeWays with
  | consume kind_eq =>
      rw [List.mem_singleton] at way_mem
      subst way_mem
      exact ⟨.step ⟨edge, edge_mem, kind_eq, rfl⟩ (.refl _), [], edge.target, rfl, rfl⟩
  | goto kind_eq found =>
      rcases List.mem_map.mp way_mem with ⟨rest, rest_mem, rfl⟩
      exact Way.isTakenFrom_after ⟨edge, edge_mem, kind_eq, rfl⟩ rfl rfl (sound found rest rest_mem)
  | call kind_eq found =>
      rcases List.mem_map.mp way_mem with ⟨rest, rest_mem, rfl⟩
      exact Way.isTakenFrom_after ⟨edge, edge_mem, kind_eq, rfl⟩ rfl rfl (sound found rest rest_mem)

theorem mem_of_consume (edgeWays : EdgeWays waysFrom place edge ways) {matcher : MatcherId}
    (kind_eq : edge.kind = .consume matcher) :
    .consuming [.consume matcher edge.target] matcher (place.moveTo edge.target) ∈ ways := by
  cases edgeWays with
  | consume other_eq =>
      rw [kind_eq] at other_eq
      cases other_eq
      exact List.mem_singleton_self _
  | goto other_eq _ => simp [kind_eq] at other_eq
  | call other_eq _ => simp [kind_eq] at other_eq

theorem exists_found (edgeWays : EdgeWays waysFrom place edge ways) {step : Step} {next : Place}
    (step_eq : step.edge? = some (edge.kind, edge.target)) (silent : step.matcher? = none)
    (next_eq : step.apply place.stack = next.stack) :
    ∃ further, waysFrom next further ∧ ways = further.map (.after step) := by
  cases step with
  | consume => simp [Step.matcher?] at silent
  | leave => simp [Step.edge?] at step_eq
  | goto node =>
      simp only [Step.edge?, Option.some.injEq, Prod.mk.injEq] at step_eq
      rcases step_eq with ⟨kind_eq, rfl⟩
      have next_place : place.moveTo edge.target = next := Place.stack_injective next_eq
      cases edgeWays with
      | consume other_eq => simp [← kind_eq] at other_eq
      | call other_eq _ => simp [← kind_eq] at other_eq
      | goto _ found => exact ⟨_, next_place ▸ found, rfl⟩
  | call callee resume =>
      simp only [Step.edge?, Option.some.injEq, Prod.mk.injEq] at step_eq
      rcases step_eq with ⟨kind_eq, rfl⟩
      have next_place : (place.moveTo edge.target).enter callee = next :=
        Place.stack_injective next_eq
      cases edgeWays with
      | consume other_eq => simp [← kind_eq] at other_eq
      | goto other_eq _ => simp [← kind_eq] at other_eq
      | call other_eq found =>
          rw [← kind_eq] at other_eq
          cases other_eq
          exact ⟨_, next_place ▸ found, rfl⟩

end EdgeWays

/-- Whatever a search that does not give up lists can be taken. -/
theorem isTakenFrom_of_mem_waysWithin {remaining : Nat} {trail : List Place} {place : Place}
    {ways : List Way} (found : graph.waysWithin remaining trail place = .ok ways) :
    ∀ way ∈ ways, way.IsTakenFrom graph place := by
  induction remaining generalizing trail place ways with
  | zero => cases found
  | succ remaining ih =>
      intro way way_mem
      rcases waysWithin_succ_ok found with
        ⟨outgoing_eq, below_eq, rfl⟩ |
        ⟨caller, below, further, outgoing_eq, below_eq, further_eq, rfl⟩ |
          ⟨list, rfl, _, edgeWays⟩
      · rw [List.mem_singleton] at way_mem
        subst way_mem
        refine ⟨.step outgoing_eq ?_, rfl⟩
        change Walk graph place.below [] []
        exact Walk.nil_iff.mpr below_eq.symm
      · rcases List.mem_map.mp way_mem with ⟨rest, rest_mem, rfl⟩
        have next_eq : Step.leave.apply place.stack = Place.stack ⟨caller, below⟩ := below_eq
        exact Way.isTakenFrom_after outgoing_eq next_eq rfl (ih further_eq rest rest_mem)
      · rcases List.mem_flatMap.mp way_mem with ⟨edge, edge_mem, way_mem⟩
        exact (edgeWays edge edge_mem).isTakenFrom edge_mem (fun further_eq => ih further_eq) way
          way_mem

theorem outgoing_ne_nil_of_isEnabled {place : Place} {step : Step}
    (enabled : step.IsEnabled graph place.stack) (stays : step ≠ .leave) :
    graph.outgoing place.top ≠ [] := by
  intro none
  rcases Step.exists_edge_of_isEnabled enabled stays with ⟨edge, edge_mem, _⟩
  simp [none] at edge_mem

/-- A search that does not give up goes on wherever a silent step leads to, and lists the ways that
it finds there behind the step. -/
theorem waysWithin_ok_of_step {remaining : Nat} {trail : List Place} {place : Place}
    {ways : List Way} (found : graph.waysWithin (remaining + 1) trail place = .ok ways) {step : Step}
    {next : Place} (enabled : step.IsEnabled graph place.stack) (silent : step.matcher? = none)
    (next_eq : step.apply place.stack = next.stack) :
    ∃ further, graph.waysWithin remaining (place :: trail) next = .ok further ∧
      ∀ rest ∈ further, rest.after step ∈ ways := by
  by_cases leaves : step = .leave
  · subst leaves
    rcases waysWithin_succ_ok found with
      ⟨_, below_eq, _⟩ | ⟨caller, below, further, _, below_eq, further_eq, rfl⟩ |
        ⟨_, _, outgoing_ne, _⟩
    · change place.below = next.stack at next_eq
      simp [below_eq, Place.stack] at next_eq
    · have next_place : (⟨caller, below⟩ : Place) = next :=
        Place.stack_injective (below_eq.symm.trans next_eq)
      refine ⟨further, next_place ▸ further_eq, ?_⟩
      intro rest rest_mem
      exact List.mem_map_of_mem rest_mem
    · exact (outgoing_ne enabled).elim
  · have outgoing_ne := outgoing_ne_nil_of_isEnabled enabled leaves
    rcases waysWithin_succ_ok found with
      ⟨outgoing_eq, _⟩ | ⟨_, _, _, outgoing_eq, _⟩ | ⟨list, rfl, _, edgeWays⟩
    · contradiction
    · contradiction
    · rcases Step.exists_edge_of_isEnabled enabled leaves with ⟨edge, edge_mem, step_eq⟩
      rcases (edgeWays edge edge_mem).exists_found step_eq silent next_eq with
        ⟨further, further_eq, list_eq⟩
      refine ⟨further, further_eq, ?_⟩
      intro rest rest_mem
      apply List.mem_flatMap.mpr
      refine ⟨edge, edge_mem, ?_⟩
      rw [list_eq]
      exact List.mem_map_of_mem rest_mem

/-- Whatever can be taken is listed by a search that does not give up. -/
theorem mem_waysWithin_of_isTakenFrom {remaining : Nat} {trail : List Place} {place : Place}
    {ways : List Way} (found : graph.waysWithin remaining trail place = .ok ways) {way : Way}
    (taken : way.IsTakenFrom graph place) : way ∈ ways := by
  induction remaining generalizing trail place ways way with
  | zero => cases found
  | succ remaining ih =>
      rcases taken.first_step with
        ⟨matcher, target, rfl, enabled⟩ | ⟨rfl, below_none, leaves⟩ |
          ⟨step, next, rest, rfl, enabled, next_eq, silent, restTaken⟩
      · have outgoing_ne := outgoing_ne_nil_of_isEnabled enabled (by simp)
        rcases waysWithin_succ_ok found with
          ⟨outgoing_eq, _⟩ | ⟨_, _, _, outgoing_eq, _⟩ | ⟨list, rfl, _, edgeWays⟩
        · contradiction
        · contradiction
        · rcases enabled with ⟨edge, edge_mem, kind_eq, rfl⟩
          exact List.mem_flatMap.mpr
            ⟨edge, edge_mem, (edgeWays edge edge_mem).mem_of_consume kind_eq⟩
      · rcases waysWithin_succ_ok found with
          ⟨_, _, rfl⟩ | ⟨_, _, _, _, below_eq, _⟩ | ⟨_, _, outgoing_ne, _⟩
        · exact List.mem_singleton_self _
        · simp [below_none] at below_eq
        · exact (outgoing_ne leaves).elim
      · rcases waysWithin_ok_of_step found enabled silent next_eq with
          ⟨further, further_eq, after_mem⟩
        exact after_mem rest (ih further_eq restTaken)

/-- The ways listed at a place are exactly those that can be taken from it. -/
theorem mem_ways_iff {place : Place} {ways : List Way} (found : graph.ways place = .ok ways)
    {way : Way} : way ∈ ways ↔ way.IsTakenFrom graph place :=
  ⟨isTakenFrom_of_mem_waysWithin found way, mem_waysWithin_of_isTakenFrom found⟩

end Graph

/-- A walk that consumes something begins with a way that consumes one code point. -/
theorem Walk.exists_first_way {graph : Graph} {place : Place} {steps : Path} {final : List Frame}
    (walk : Walk graph place.stack steps final) (consumes : Path.matchers steps ≠ []) :
    ∃ first matcher next rest, (Way.consuming first matcher next).IsTakenFrom graph place ∧
      steps = first ++ rest ∧ Walk graph next.stack rest final ∧
      Path.matchers first = [matcher] := by
  rcases Path.exists_first_consume consumes with ⟨silent, matcher, target, rest, rfl, silent_eq⟩
  rw [List.append_cons] at walk
  rcases Walk.append_iff.mp walk with ⟨middle, firstWalk, restWalk⟩
  have middle_ne : middle ≠ [] := by
    rcases Walk.append_iff.mp firstWalk with ⟨before, _, lastWalk⟩
    rcases Walk.cons_iff.mp lastWalk with ⟨enabled, nothing⟩
    obtain rfl := Walk.nil_iff.mp nothing
    cases before with
    | nil => exact (Step.not_isEnabled_nil _ enabled).elim
    | cons top below => simp [Step.apply]
  rcases Place.exists_stack_eq middle_ne with ⟨next, rfl⟩
  refine ⟨silent ++ [.consume matcher target], matcher, next, rest, ?_, by simp, restWalk, ?_⟩
  · exact ⟨firstWalk, silent, target, rfl, silent_eq⟩
  · simp [silent_eq]

end StreamGrammar
