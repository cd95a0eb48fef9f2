import StreamGrammar.Proofs.WayEnumeration

/-!
# Silent walks and the end of the search

A silent walk leads from one place to another without consuming anything and without
leaving the outermost rule. The search for ways follows every silent walk from its
place and gives up exactly on what it takes for endless: a walk of more than
`maxWayLength` steps, or one that comes to a place which repeats an earlier one with
more rules being run in between.

What it takes for endless need not be so. It is if the walk never returns out of the
rule of the earlier place: the steps between the two places can then be taken over and
over again. If the walk does return, it may have come to the same node by another call,
after which it goes on elsewhere.
-/

namespace StreamGrammar

theorem error_of_bind_eq_error {Fault Answer Result : Type} {first : Except Fault Answer}
    {second : Answer → Except Fault Result} {fault : Fault}
    (failed : (first >>= second) = .error fault) :
    first = .error fault ∨ ∃ answer, first = .ok answer ∧ second answer = .error fault := by
  cases first with
  | error other =>
      cases failed
      exact .inl rfl
  | ok answer => exact .inr ⟨answer, rfl, failed⟩

/-- The fault of a list is that of the first member that has one. -/
theorem exists_error_of_flatMapM_eq_error {Fault Member Result : Type}
    {search : Member → Except Fault (List Result)} {members : List Member} {fault : Fault}
    (failed : members.flatMapM search = .error fault) :
    ∃ before member after, members = before ++ member :: after ∧
      (∀ earlier ∈ before, ∃ results, search earlier = .ok results) ∧
        search member = .error fault := by
  induction members with
  | nil => cases failed
  | cons member rest ih =>
      rw [List.flatMapM_cons] at failed
      rcases error_of_bind_eq_error failed with first_eq | ⟨results, first_eq, failed⟩
      · exact ⟨[], member, rest, rfl, by simp, first_eq⟩
      · rcases error_of_bind_eq_error failed with rest_eq | ⟨_, _, impossible⟩
        · rcases ih rest_eq with ⟨before, other, after, rfl, before_ok, other_eq⟩
          refine ⟨member :: before, other, after, rfl, ?_, other_eq⟩
          intro earlier earlier_mem
          rcases List.mem_cons.mp earlier_mem with rfl | earlier_mem
          · exact ⟨results, first_eq⟩
          · exact before_ok earlier earlier_mem
        · cases impossible

/-- The graph allows the steps from one place to another. None of them consumes anything or leaves
the outermost rule. -/
structure SilentWalk (graph : Graph) (place : Place) (steps : Path) (next : Place) : Prop where
  walk : Walk graph place.stack steps next.stack
  silent : Path.matchers steps = []

namespace SilentWalk

variable {graph : Graph} {place next final : Place} {step : Step} {steps first second : Path}

theorem refl (graph : Graph) (place : Place) : SilentWalk graph place [] place :=
  ⟨.refl _, rfl⟩

theorem eq_of_nil (stays : SilentWalk graph place [] next) : next = place :=
  Place.stack_injective (Walk.nil_iff.mp stays.walk)

theorem trans (before : SilentWalk graph place first next)
    (after : SilentWalk graph next second final) :
    SilentWalk graph place (first ++ second) final := by
  constructor
  · exact before.walk.trans after.walk
  · rw [Path.matchers_append, before.silent, after.silent]
    rfl

theorem cons (enabled : step.IsEnabled graph place.stack)
    (next_eq : step.apply place.stack = next.stack) (silent : step.matcher? = none)
    (rest : SilentWalk graph next steps final) : SilentWalk graph place (step :: steps) final := by
  constructor
  · exact .step enabled (next_eq ▸ rest.walk)
  · rw [Path.matchers_cons, silent, rest.silent]
    rfl

theorem exists_first (walk : SilentWalk graph place (step :: steps) final) :
    ∃ next, step.IsEnabled graph place.stack ∧ step.apply place.stack = next.stack ∧
      step.matcher? = none ∧ SilentWalk graph next steps final := by
  rcases Walk.cons_iff.mp walk.walk with ⟨enabled, rest⟩
  have silent := walk.silent
  rw [Path.matchers_cons, List.append_eq_nil_iff] at silent
  have stack_ne : step.apply place.stack ≠ [] := by
    intro empty
    rw [empty] at rest
    exact final.stack_ne_nil rest.eq_nil_of_empty.2
  rcases Place.exists_stack_eq stack_ne with ⟨next, next_eq⟩
  refine ⟨next, enabled, next_eq.symm, by simpa using silent.1, ?_, silent.2⟩
  rw [next_eq]
  exact rest

end SilentWalk

namespace Graph

variable {graph : Graph} {place next : Place} {remaining : Nat} {trail : List Place}
  {ways : List Way} {steps : Path} {fault : BuildError}

section GivingUp

theorem waysWithin_ok_fresh (found : graph.waysWithin remaining trail place = .ok ways) :
    0 < remaining ∧ ∀ earlier ∈ trail, ¬earlier.repeatsIn place = true := by
  cases remaining with
  | zero => cases found
  | succ remaining =>
      simp only [waysWithin] at found
      split at found
      · cases found
      next fresh => exact ⟨Nat.succ_pos remaining, by simpa using fresh⟩

/-- A search that does not give up comes to every place that a silent walk leads to. The places on
the walk before it are in its trail then. -/
theorem exists_search_of_silentWalk (found : graph.waysWithin remaining trail place = .ok ways)
    (walk : SilentWalk graph place steps next) :
    ∃ left passed further, graph.waysWithin left passed next = .ok further ∧
      remaining = left + steps.length ∧ (∀ earlier ∈ trail, earlier ∈ passed) ∧
        (steps ≠ [] → place ∈ passed) := by
  induction steps generalizing place remaining trail ways with
  | nil =>
      obtain rfl := walk.eq_of_nil
      exact ⟨remaining, trail, ways, found, rfl, fun _ => id, absurd rfl⟩
  | cons step steps ih =>
      rcases walk.exists_first with ⟨second, enabled, second_eq, silent, rest⟩
      cases remaining with
      | zero => cases found
      | succ remaining =>
          rcases waysWithin_ok_of_step found enabled silent second_eq with ⟨_, secondFound, _⟩
          rcases ih secondFound rest with ⟨left, passed, further, further_eq, left_eq, kept, _⟩
          refine ⟨left, passed, further, further_eq, ?_, ?_, ?_⟩
          · rw [left_eq, List.length_cons, Nat.add_assoc]
          · intro earlier earlier_mem
            exact kept earlier (List.mem_cons_of_mem place earlier_mem)
          · intro _
            exact kept place List.mem_cons_self

/-- A search that gives up does so at its place, or where some silent step leads to. -/
theorem waysWithin_succ_error
    (gaveUp : graph.waysWithin (remaining + 1) trail place = .error fault) :
    (fault = graph.epsilonCycle place.top ∧ ∃ earlier ∈ trail, earlier.repeatsIn place = true) ∨
      ∃ (step : Step) (next : Place), step.IsEnabled graph place.stack ∧
        step.apply place.stack = next.stack ∧ step.matcher? = none ∧
          graph.waysWithin remaining (place :: trail) next = .error fault := by
  simp only [waysWithin] at gaveUp
  split at gaveUp
  next repeated =>
    cases gaveUp
    exact .inl ⟨rfl, List.any_eq_true.mp repeated⟩
  next =>
    right
    split at gaveUp
    next => cases gaveUp
    next caller below outgoing_eq below_eq =>
      rcases error_of_bind_eq_error gaveUp with found | ⟨_, _, impossible⟩
      · exact ⟨.leave, ⟨caller, below⟩, outgoing_eq, below_eq, rfl, found⟩
      · cases impossible
    next =>
      rcases exists_error_of_flatMapM_eq_error gaveUp with
        ⟨before, edge, after, edges_eq, _, edge_failed⟩
      have edge_mem : edge ∈ graph.outgoing place.top := by
        rw [edges_eq]
        exact List.mem_append_right before List.mem_cons_self
      split at edge_failed
      next => cases edge_failed
      next kind_eq =>
        rcases error_of_bind_eq_error edge_failed with found | ⟨_, _, impossible⟩
        · exact ⟨.goto edge.target, place.moveTo edge.target, ⟨edge, edge_mem, kind_eq, rfl⟩,
            rfl, rfl, found⟩
        · cases impossible
      next callee kind_eq =>
        rcases error_of_bind_eq_error edge_failed with found | ⟨_, _, impossible⟩
        · exact ⟨.call callee edge.target, (place.moveTo edge.target).enter callee,
            ⟨edge, edge_mem, kind_eq, rfl⟩, rfl, rfl, found⟩
        · cases impossible

/-- Where a search gives up: at the end of a silent walk that is too long, or that comes to a place
which repeats one in the trail or one on the walk. -/
theorem exists_silentWalk_of_waysWithin_error
    (gaveUp : graph.waysWithin remaining trail place = .error fault) :
    ∃ steps next, SilentWalk graph place steps next ∧ fault = graph.epsilonCycle next.top ∧
      (steps.length = remaining ∨ (∃ earlier ∈ trail, earlier.repeatsIn next = true) ∨
        ∃ first second earlier, SilentWalk graph place first earlier ∧
          SilentWalk graph earlier second next ∧ second ≠ [] ∧
            earlier.repeatsIn next = true) := by
  induction remaining generalizing trail place with
  | zero =>
      cases gaveUp
      exact ⟨[], place, .refl graph place, rfl, .inl rfl⟩
  | succ remaining ih =>
      rcases waysWithin_succ_error gaveUp with
        ⟨rfl, repeated⟩ | ⟨step, second, enabled, second_eq, silent, gaveUp⟩
      · exact ⟨[], place, .refl graph place, rfl, .inr (.inl repeated)⟩
      · rcases ih gaveUp with ⟨steps, next, walk, fault_eq, cause⟩
        have whole := walk.cons enabled second_eq silent
        refine ⟨step :: steps, next, whole, fault_eq, ?_⟩
        rcases cause with
          length_eq | ⟨earlier, earlier_mem, repeated⟩ |
            ⟨first, between, earlier, before, after, moves, repeated⟩
        · left
          rw [List.length_cons, length_eq]
        · right
          -- The search has added the place itself to the trail, and it lies on the walk.
          rcases List.mem_cons.mp earlier_mem with rfl | earlier_mem
          · exact .inr ⟨[], step :: steps, earlier, .refl graph earlier, whole, by simp, repeated⟩
          · exact .inl ⟨earlier, earlier_mem, repeated⟩
        · right
          right
          exact ⟨step :: first, between, earlier, before.cons enabled second_eq silent, after,
            moves, repeated⟩

end GivingUp

/-- What the search from a place takes for endless: a silent walk that is too long, or that comes to
a place which repeats an earlier one. -/
inductive SeemsEndless (graph : Graph) (place : Place) : Prop
  | long {steps : Path} {next : Place} (walk : SilentWalk graph place steps next)
      (tooLong : maxWayLength < steps.length) : SeemsEndless graph place
  | repeats {first second : Path} {earlier later : Place}
      (before : SilentWalk graph place first earlier)
      (between : SilentWalk graph earlier second later) (moves : second ≠ [])
      (repeated : earlier.repeatsIn later = true) : SeemsEndless graph place

theorem seemsEndless_of_ways_error (gaveUp : graph.ways place = .error fault) :
    (∃ frame, fault = graph.epsilonCycle frame) ∧ graph.SeemsEndless place := by
  rcases exists_silentWalk_of_waysWithin_error gaveUp with
    ⟨steps, next, walk, fault_eq, cause⟩
  refine ⟨⟨next.top, fault_eq⟩, ?_⟩
  rcases cause with length_eq | ⟨_, none_mem, _⟩ | ⟨_, _, _, before, between, moves, repeated⟩
  · apply SeemsEndless.long walk
    omega
  · exact absurd none_mem List.not_mem_nil
  · exact .repeats before between moves repeated

theorem not_seemsEndless_of_ways_ok (found : graph.ways place = .ok ways) :
    ¬graph.SeemsEndless place := by
  intro endless
  cases endless with
  | long walk tooLong =>
      rcases exists_search_of_silentWalk found walk with ⟨left, _, _, leftFound, left_eq, _⟩
      have positive := (waysWithin_ok_fresh leftFound).1
      omega
  | repeats before between moves repeated =>
      rcases exists_search_of_silentWalk found before with ⟨_, _, _, earlierFound, _⟩
      rcases exists_search_of_silentWalk earlierFound between with
        ⟨_, _, _, laterFound, _, _, passed⟩
      exact (waysWithin_ok_fresh laterFound).2 _ (passed moves) repeated

/-- The search gives up exactly on what it takes for endless. -/
theorem ways_error_iff :
    (∃ frame, graph.ways place = .error (graph.epsilonCycle frame)) ↔
      graph.SeemsEndless place := by
  constructor
  · rintro ⟨frame, gaveUp⟩
    exact (seemsEndless_of_ways_error gaveUp).2
  · intro endless
    cases found : graph.ways place with
    | ok ways => exact (not_seemsEndless_of_ways_ok found endless).elim
    | error fault =>
        rcases (seemsEndless_of_ways_error found).1 with ⟨frame, rfl⟩
        exact ⟨frame, rfl⟩

/-- There are silent walks of any length from the place. -/
def IsEndless (graph : Graph) (place : Place) : Prop :=
  ∀ count, ∃ steps next, SilentWalk graph place steps next ∧ count ≤ steps.length

theorem IsEndless.seemsEndless (endless : graph.IsEndless place) : graph.SeemsEndless place := by
  rcases endless (maxWayLength + 1) with ⟨steps, next, walk, long⟩
  exact .long walk long

section Bounds

/-- The places to which a silent step leads. -/
def silentNexts (graph : Graph) (place : Place) : List Place :=
  match graph.outgoing place.top, place.below with
  | [], [] => []
  | [], caller :: below => [⟨caller, below⟩]
  | edges, _ =>
      edges.filterMap fun edge =>
        let moved := place.moveTo edge.target
        match edge.kind with
        | .consume _ => none
        | .goto => some moved
        | .call callee => some (moved.enter callee)

/-- Whether every silent walk from the place has fewer than `count` steps. -/
def endsWithin (graph : Graph) : (count : Nat) → Place → Bool
  | 0, _ => false
  | count + 1, place => (graph.silentNexts place).all (graph.endsWithin count)

theorem mem_silentNexts {step : Step} (enabled : step.IsEnabled graph place.stack)
    (next_eq : step.apply place.stack = next.stack) (silent : step.matcher? = none) :
    next ∈ graph.silentNexts place := by
  simp only [silentNexts]
  cases step with
  | consume => simp [Step.matcher?] at silent
  | leave =>
      have outgoing_eq : graph.outgoing place.top = [] := enabled
      change place.below = next.stack at next_eq
      simp [outgoing_eq, next_eq, Place.stack]
  | goto node =>
      rcases enabled with ⟨edge, edge_mem, kind_eq, rfl⟩
      have next_place : place.moveTo edge.target = next := Place.stack_injective next_eq
      split
      next none_eq _ => simp [none_eq] at edge_mem
      next none_eq _ => simp [none_eq] at edge_mem
      next => exact List.mem_filterMap.mpr ⟨edge, edge_mem, by simp [kind_eq, next_place]⟩
  | call callee resume =>
      rcases enabled with ⟨edge, edge_mem, kind_eq, rfl⟩
      have next_place : (place.moveTo edge.target).enter callee = next :=
        Place.stack_injective next_eq
      split
      next none_eq _ => simp [none_eq] at edge_mem
      next none_eq _ => simp [none_eq] at edge_mem
      next => exact List.mem_filterMap.mpr ⟨edge, edge_mem, by simp [kind_eq, next_place]⟩

theorem length_lt_of_endsWithin {count : Nat} (ends : graph.endsWithin count place = true)
    (walk : SilentWalk graph place steps next) : steps.length < count := by
  induction count generalizing place steps with
  | zero => cases ends
  | succ count ih =>
      cases steps with
      | nil => exact Nat.succ_pos count
      | cons step steps =>
          rcases walk.exists_first with ⟨second, enabled, second_eq, silent, rest⟩
          have second_ends := List.all_eq_true.mp ends second
            (mem_silentNexts enabled second_eq silent)
          exact Nat.succ_lt_succ (ih second_ends rest)

end Bounds

section Pumping

/-- A walk from a frame to the same frame on top of others can be taken over and over again. -/
theorem exists_walk_of_pumping {top : Frame} {above : List Frame}
    (walk : Walk graph [top] steps (top :: above)) (silent : Path.matchers steps = [])
    (moves : steps ≠ []) (count : Nat) :
    ∃ pumped higher, Walk graph [top] pumped (top :: higher) ∧ Path.matchers pumped = [] ∧
      count ≤ pumped.length := by
  induction count with
  | zero => exact ⟨[], [], .refl _, rfl, Nat.zero_le _⟩
  | succ count ih =>
      rcases ih with ⟨pumped, higher, pumpedWalk, pumpedSilent, long⟩
      have positive := List.length_pos_iff.mpr moves
      refine ⟨pumped ++ steps, above ++ higher, ?_, ?_, ?_⟩
      · exact pumpedWalk.trans (walk.onTop higher)
      · rw [Path.matchers_append, pumpedSilent, silent]
        rfl
      · rw [List.length_append]
        omega

/-- Where a silent walk comes to a place that repeats an earlier one, it either can be continued for
ever, or has returned out of the rule of the earlier place on the way. -/
theorem isEndless_or_returns {first second : Path} {earlier later : Place}
    (before : SilentWalk graph place first earlier)
    (between : SilentWalk graph earlier second later) (moves : second ≠ [])
    (repeated : earlier.repeatsIn later = true) :
    graph.IsEndless place ∨ ∃ out again, second = out ++ again ∧
      Walk graph [earlier.top] out [] ∧ Walk graph earlier.below again later.stack := by
  rcases Place.repeatsIn_iff.mp repeated with ⟨top_eq, above, below_eq⟩
  have walk : Walk graph ([earlier.top] ++ earlier.below) second later.stack := between.walk
  rcases walk.keeps_or_empties with
    ⟨kept, later_eq, _, keeps⟩ | ⟨out, again, rfl, leaves, comesBack⟩
  · left
    -- The frames below stay as they are, so the walk leads from a node to itself above them.
    have kept_eq : kept = earlier.top :: above := by
      rw [← List.append_left_inj earlier.below, ← later_eq, Place.stack, ← top_eq, ← below_eq]
      rfl
    rw [kept_eq] at keeps
    intro count
    rcases exists_walk_of_pumping keeps between.silent moves count with
      ⟨pumped, higher, pumpedWalk, pumpedSilent, long⟩
    have further : SilentWalk graph earlier pumped ⟨earlier.top, higher ++ earlier.below⟩ :=
      ⟨pumpedWalk.onTop earlier.below, pumpedSilent⟩
    refine ⟨first ++ pumped, _, before.trans further, ?_⟩
    rw [List.length_append]
    omega
  · exact .inr ⟨out, again, rfl, leaves, comesBack⟩

end Pumping

end Graph

end StreamGrammar
