import StreamGrammar.Proofs.WayOrder

/-!
# What a strict grammar decides

A strict grammar can be built exactly if, without being strict, nothing in it is left to
the order of declaration: lookahead tells all alternatives of every node apart, and no
node can leave its rule in more than one way. Then neither a larger lookahead limit nor
giving up strictness changes any decision. The reason is that dividing the candidates of
a node is over as soon as none of them overlap, and looks at the limit only after that.
-/

namespace StreamGrammar.Graph

variable {graph : Graph} {frame : Frame} {routes : Routes}

/-- Once all candidates are told apart, it does not matter how far they might have been followed. -/
theorem divide_add {remaining depth : Nat} {candidates : List Candidate} {division : Division}
    (divided : graph.divide remaining depth candidates = .ok division)
    (apart : division.overlapping = []) (more : Nat) :
    graph.divide (remaining + more) depth candidates = .ok division := by
  induction remaining generalizing depth candidates division with
  | zero =>
      rw [divide_zero] at divided
      cases divided
      -- With nothing left that overlaps, the larger limit is never asked for.
      have allLeft : ∀ candidate ∈ graph.overlappingOnes candidates, candidate.next = none := by
        intro candidate candidate_mem
        simp only at apart
        simp [apart] at candidate_mem
      exact divide_of_left allLeft _ _
  | succ remaining ih =>
      rcases graph.left_or_unfinished candidates with allLeft | unfinished
      · rw [divide_of_left allLeft] at divided ⊢
        exact divided
      · rw [divide_succ unfinished] at divided
        rcases exists_ok_of_bind_eq_ok divided with ⟨continued, continued_eq, divided⟩
        rcases exists_ok_of_bind_eq_ok divided with ⟨further, further_eq, divided⟩
        cases divided
        rw [Nat.add_right_comm, divide_succ unfinished, continued_eq]
        change (graph.divide (remaining + more) (depth + 1) continued >>= _) = _
        rw [ih further_eq apart]
        rfl

/-- The order of declaration decides something wherever candidates overlap. -/
theorem overlapping_eq_nil_of_prefer {division : Division} (inOrder : InOrder division.overlapping)
    (horizon_eq : (graph.prefer division).horizon = [])
    (indeterminate_eq : (graph.prefer division).indeterminate = none) :
    division.overlapping = [] := by
  rcases prefer_cases graph division with ⟨_, tested⟩ | ⟨_, _, _, _, chosen⟩
  · rw [horizon_eq, eq_comm, List.map_eq_nil_iff] at tested
    by_contra overlap
    rcases List.exists_mem_of_ne_nil _ overlap with ⟨candidate, candidate_mem⟩
    rcases graph.mem_survivors_or_covered inOrder candidate_mem with survives | ⟨_, survives, _⟩
    · simp [tested] at survives
    · simp [tested] at survives
  · simp [indeterminate_eq] at chosen

section Exits

/-- The choices lead from the node out of its rule without consuming anything. -/
def LeavesAlong (graph : Graph) (frame : Frame) (choices : List Nat) : Prop :=
  ∃ steps, (Way.leaving steps).IsChosen graph { top := frame } choices

/-- There is no more than one way to leave the rule of the node without consuming anything. -/
def LeavesOnce (graph : Graph) (frame : Frame) : Prop :=
  ∀ first second, graph.LeavesAlong frame first → graph.LeavesAlong frame second → first = second

theorem length_le_one_iff {runs : List (List Nat × Way)}
    (ascending : runs.Pairwise fun first second => first.1 < second.1) :
    runs.length ≤ 1 ↔ ∀ first ∈ runs, ∀ second ∈ runs, first.1 = second.1 := by
  match runs with
  | [] => simp
  | [only] => simp
  | first :: second :: rest =>
      have less := (List.pairwise_cons.mp ascending).1 second List.mem_cons_self
      simp only [List.length_cons]
      refine iff_of_false (by omega) ?_
      intro same
      have equal := same first List.mem_cons_self second (List.mem_cons_of_mem _ List.mem_cons_self)
      exact List.lt_irrefl second.1 (equal ▸ less)

/-- The ways of a node that leave its rule are as many as the choices that bring them about. -/
theorem exits_le_one_iff {ways : List Way} (found : graph.ways { top := frame } = .ok ways) :
    (ways.filterMap Way.exit?).length ≤ 1 ↔ graph.LeavesOnce frame := by
  rcases exists_enumerates_of_waysWithin found with ⟨runs, enumerates, rfl⟩
  have mem_iff : ∀ choices way, (choices, way) ∈ runs.filter (fun run => run.2.exit?.isSome) ↔
      way.IsChosen graph { top := frame } choices ∧ way.exit?.isSome = true := by
    intro choices way
    rw [List.mem_filter, enumerates.mem_iff]
  have ascending := enumerates.ascending.filter fun run => run.2.exit?.isSome
  rw [List.filterMap_map, List.length_filterMap_eq_countP, List.countP_eq_length_filter]
  refine (length_le_one_iff ascending).trans ⟨?_, ?_⟩
  · rintro same first second ⟨steps, chosen⟩ ⟨otherSteps, otherChosen⟩
    exact same _ ((mem_iff _ _).mpr ⟨chosen, rfl⟩) _ ((mem_iff _ _).mpr ⟨otherChosen, rfl⟩)
  · rintro once ⟨first, way⟩ first_mem ⟨second, other⟩ second_mem
    rcases (mem_iff _ _).mp first_mem with ⟨chosen, leaves⟩
    rcases (mem_iff _ _).mp second_mem with ⟨otherChosen, otherLeaves⟩
    cases way with
    | consuming => cases leaves
    | leaving steps =>
        cases other with
        | consuming => cases otherLeaves
        | leaving otherSteps => exact once first second ⟨steps, chosen⟩ ⟨otherSteps, otherChosen⟩

end Exits

section Nodes

/-- Lookahead alone decides at the node, which has at most one exit. -/
def IsUnambiguous (graph : Graph) (maxLookahead : Nat) (frame : Frame) (routes : Routes) : Prop :=
  ∃ ways division, graph.ways { top := frame } = .ok ways ∧
    graph.divide (maxLookahead - 1) 1 (Candidate.firstOnes (ways.filterMap Way.alternative?)) =
      .ok division ∧
    (ways.filterMap Way.exit?).length ≤ 1 ∧ division.overlapping = [] ∧
    routes = graph.assembleRoutes ((ways.filterMap Way.alternative?).map Prod.fst)
      (ways.filterMap Way.exit?).head? division.determinate {}

variable {maxLookahead : Nat}

theorem resolveNode_strict_iff :
    (graph.resolveNode ⟨maxLookahead, true⟩ frame).result = .ok routes ↔
    graph.IsUnambiguous maxLookahead frame routes := by
  rw [resolveNode_eq_ok_iff]
  constructor
  · rintro ⟨ways, division, ways_eq, divide_eq, strict, rfl⟩
    rcases strict rfl with ⟨few, apart⟩
    rw [prefer_of_overlapping_nil apart]
    exact ⟨ways, division, ways_eq, divide_eq, few, apart, rfl⟩
  · rintro ⟨ways, division, ways_eq, divide_eq, few, apart, rfl⟩
    refine ⟨ways, division, ways_eq, divide_eq, fun _ => ⟨few, apart⟩, ?_⟩
    rw [prefer_of_overlapping_nil apart]

namespace IsUnambiguous

/-- What lookahead decides is decided with any larger limit, strict or not. -/
theorem resolveNode (unambiguous : graph.IsUnambiguous maxLookahead frame routes)
    {larger : Nat} (le_larger : maxLookahead ≤ larger) (strict : Bool) :
    (graph.resolveNode ⟨larger, strict⟩ frame).result = .ok routes := by
  rcases unambiguous with ⟨ways, division, ways_eq, divide_eq, few, apart, rfl⟩
  have divided := divide_add divide_eq apart ((larger - 1) - (maxLookahead - 1))
  rw [Nat.add_sub_cancel' (by omega)] at divided
  rw [resolveNode_eq_ok_iff]
  refine ⟨ways, division, ways_eq, divided, fun _ => ⟨few, apart⟩, ?_⟩
  rw [prefer_of_overlapping_nil apart]

/-- Nothing is left to the order of declaration. -/
theorem order_unused (unambiguous : graph.IsUnambiguous maxLookahead frame routes) :
    routes.horizon = [] ∧ routes.indeterminate = none ∧ routes.shadowed = [] := by
  rcases unambiguous with ⟨_, _, _, _, _, _, rfl⟩
  exact ⟨rfl, rfl, rfl⟩

theorem leavesOnce (unambiguous : graph.IsUnambiguous maxLookahead frame routes) :
    graph.LeavesOnce frame := by
  rcases unambiguous with ⟨ways, _, ways_eq, _, few, _⟩
  exact (exits_le_one_iff ways_eq).mp few

end IsUnambiguous

theorem isUnambiguous_of_lenient
    (resolved : (graph.resolveNode ⟨maxLookahead, false⟩ frame).result = .ok routes)
    (horizon_eq : routes.horizon = []) (indeterminate_eq : routes.indeterminate = none)
    (once : graph.LeavesOnce frame) : graph.IsUnambiguous maxLookahead frame routes := by
  rcases resolveNode_eq_ok_iff.mp resolved with ⟨ways, division, ways_eq, divide_eq, _, rfl⟩
  have inOrder := (divides_of_divide divide_eq).inOrder (inOrder_firstOnes _)
  have apart := overlapping_eq_nil_of_prefer inOrder horizon_eq indeterminate_eq
  refine ⟨ways, division, ways_eq, divide_eq, (exits_le_one_iff ways_eq).mpr once, apart, ?_⟩
  rw [prefer_of_overlapping_nil apart]

theorem leavesOnce_of_outgoing_nil (ends : graph.outgoing frame = []) : graph.LeavesOnce frame := by
  have found : graph.ways { top := frame } = .ok [.leaving [.leave]] := by
    simp [ways, waysWithin, ends]
  exact (exits_le_one_iff found).mp (by simp [Way.exit?])

end Nodes

section Builds

variable {limit : Nat} {routes? : Option Routes}

theorem resolve_eq_ok_iff {limits : ResolutionLimits} :
    (graph.resolve limits frame).result = .ok routes? ↔
      (graph.outgoing frame = [] ∧ routes? = none) ∨
      graph.outgoing frame ≠ [] ∧ ∃ routes, routes? = some routes ∧
        (graph.resolveNode limits frame).result = .ok routes := by
  simp only [resolve]
  split
  next isEmpty => simp [List.isEmpty_iff.mp isEmpty, eq_comm]
  next notEmpty =>
    have goesOn : graph.outgoing frame ≠ [] := fun ends => notEmpty (List.isEmpty_iff.mpr ends)
    split
    next routes routes_eq => simp [goesOn, routes_eq, eq_comm]
    next failed => simp [goesOn, failed]

/-- What a strict grammar decides at a node is decided with any larger limit, strict or not. -/
theorem resolve_of_strict (resolved : (graph.resolve ⟨limit, true⟩ frame).result = .ok routes?)
    {further : Nat} (le_further : limit ≤ further) (strict : Bool) :
    (graph.resolve ⟨further, strict⟩ frame).result = .ok routes? := by
  rw [resolve_eq_ok_iff] at resolved ⊢
  rcases resolved with ends | ⟨goesOn, routes, routes_eq, resolved⟩
  · exact .inl ends
  · have unambiguous := resolveNode_strict_iff.mp resolved
    exact .inr ⟨goesOn, routes, routes_eq, unambiguous.resolveNode le_further strict⟩

theorem unordered_of_strict (resolved : (graph.resolve ⟨limit, true⟩ frame).result = .ok routes?) :
    graph.LeavesOnce frame ∧ ∀ routes, routes? = some routes →
      routes.horizon = [] ∧ routes.indeterminate = none ∧ routes.shadowed = [] := by
  rcases resolve_eq_ok_iff.mp resolved with ⟨ends, rfl⟩ | ⟨_, routes, rfl, nodeResolved⟩
  · exact ⟨leavesOnce_of_outgoing_nil ends, by simp⟩
  · have unambiguous := resolveNode_strict_iff.mp nodeResolved
    refine ⟨unambiguous.leavesOnce, ?_⟩
    rintro _ ⟨rfl⟩
    exact unambiguous.order_unused

theorem strict_of_unordered
    (resolved : (graph.resolve ⟨limit, false⟩ frame).result = .ok routes?)
    (unordered : ∀ routes, routes? = some routes →
      routes.horizon = [] ∧ routes.indeterminate = none) (once : graph.LeavesOnce frame) :
    (graph.resolve ⟨limit, true⟩ frame).result = .ok routes? := by
  rw [resolve_eq_ok_iff] at resolved ⊢
  rcases resolved with ends | ⟨goesOn, routes, routes_eq, resolved⟩
  · exact .inl ends
  · rcases unordered routes routes_eq with ⟨horizon_eq, indeterminate_eq⟩
    have unambiguous := isUnambiguous_of_lenient resolved horizon_eq indeterminate_eq once
    exact .inr ⟨goesOn, routes, routes_eq, resolveNode_strict_iff.mpr unambiguous⟩

/-- Being without initial faults depends on the limit only in that it has to be positive. -/
theorem initialFaults_of_le {config further : GrammarConfig}
    (faultless : graph.initialFaults config = []) (start_eq : further.start = config.start)
    (le : config.maxLookahead ≤ further.maxLookahead) : graph.initialFaults further = [] := by
  have positive := one_le_maxLookahead_of_faultless faultless
  have furtherPositive : further.maxLookahead ≠ 0 := by omega
  simp only [initialFaults, List.append_eq_nil_iff] at faultless
  simp only [initialFaults, if_neg furtherPositive, start_eq, List.append_eq_nil_iff, true_and]
  exact ⟨faultless.1.2, faultless.2⟩

theorem decision_eq_of_result {resolution : Resolution (Option Routes)}
    (resolved : resolution.result = .ok routes?) : decision resolution = routes? := by
  simp [decision, resolved]

variable {start : String} {grammar : Grammar}

/-- A strict grammar leaves nothing to the order of declaration. -/
theorem unordered_of_strict_build (built : (graph.build ⟨start, limit, true⟩).result = .ok grammar) :
    (∀ frame, graph.LeavesOnce frame) ∧ ∀ frame routes, grammar.routes? frame = some routes →
      routes.horizon = [] ∧ routes.indeterminate = none ∧ routes.shadowed = [] := by
  rcases build_eq_ok_iff.mp built with ⟨_, id, _, resolved, rfl⟩
  refine ⟨?_, ?_⟩
  · intro frame
    rcases resolved frame with ⟨routes?, result_eq⟩
    exact (unordered_of_strict result_eq).1
  · intro frame
    rcases resolved frame with ⟨routes?, result_eq⟩
    rw [routes?_resolvedGrammar, decision_eq_of_result result_eq]
    exact (unordered_of_strict result_eq).2

/-- A larger limit changes nothing in a strict grammar, nor does giving up strictness. -/
theorem exists_build_of_strict (built : (graph.build ⟨start, limit, true⟩).result = .ok grammar)
    {further : Nat} (le_further : limit ≤ further) (strict : Bool) :
    ∃ other, (graph.build ⟨start, further, strict⟩).result = .ok other ∧
      ∀ frame, other.routes? frame = grammar.routes? frame := by
  rcases build_eq_ok_iff.mp built with ⟨faultless, id, id_eq, resolved, rfl⟩
  refine ⟨graph.resolvedGrammar ⟨start, further, strict⟩ id, build_eq_ok_iff.mpr
    ⟨initialFaults_of_le faultless rfl le_further, id, id_eq, ?_, rfl⟩, ?_⟩
  · intro frame
    rcases resolved frame with ⟨routes?, result_eq⟩
    exact ⟨routes?, resolve_of_strict result_eq le_further strict⟩
  · intro frame
    rcases resolved frame with ⟨routes?, result_eq⟩
    rw [routes?_resolvedGrammar, routes?_resolvedGrammar, decision_eq_of_result result_eq]
    exact decision_eq_of_result (resolve_of_strict result_eq le_further strict)

theorem exists_strict_build (built : (graph.build ⟨start, limit, false⟩).result = .ok grammar)
    (unordered : ∀ frame routes, grammar.routes? frame = some routes →
      routes.horizon = [] ∧ routes.indeterminate = none)
    (once : ∀ frame, graph.LeavesOnce frame) :
    ∃ other, (graph.build ⟨start, limit, true⟩).result = .ok other := by
  rcases build_eq_ok_iff.mp built with ⟨faultless, id, id_eq, resolved, rfl⟩
  refine ⟨_, build_eq_ok_iff.mpr
    ⟨initialFaults_of_le faultless rfl (Nat.le_refl limit), id, id_eq, ?_, rfl⟩⟩
  intro frame
  rcases resolved frame with ⟨routes?, result_eq⟩
  refine ⟨routes?, strict_of_unordered result_eq ?_ (once frame)⟩
  intro routes routes_eq
  apply unordered frame routes
  rw [routes?_resolvedGrammar, decision_eq_of_result result_eq, routes_eq]

end Builds

/-- A strict grammar can be built exactly if the grammar can be built without being strict, decides
nothing by the order of declaration, and has no node with two ways to leave its rule without
consuming input. Its decisions are then those that every larger limit leads to, strict or not. -/
theorem strict_build_fixes_routes (graph : Graph) (start : String) (limit : Nat) :
    ((∃ grammar, (graph.build ⟨start, limit, true⟩).result = .ok grammar) ↔
      ∃ grammar, (graph.build ⟨start, limit, false⟩).result = .ok grammar ∧
        (∀ frame routes, grammar.routes? frame = some routes →
          routes.horizon = [] ∧ routes.indeterminate = none) ∧
        ∀ frame, graph.LeavesOnce frame) ∧
    ∀ grammar, (graph.build ⟨start, limit, true⟩).result = .ok grammar →
      (∀ frame routes, grammar.routes? frame = some routes →
        routes.horizon = [] ∧ routes.indeterminate = none ∧ routes.shadowed = []) ∧
      ∀ further, limit ≤ further → ∀ strict, ∃ other,
        (graph.build ⟨start, further, strict⟩).result = .ok other ∧
          ∀ frame, other.routes? frame = grammar.routes? frame := by
  refine ⟨⟨?_, ?_⟩, ?_⟩
  · rintro ⟨grammar, built⟩
    rcases unordered_of_strict_build built with ⟨once, unordered⟩
    rcases exists_build_of_strict built (Nat.le_refl limit) false with ⟨other, otherBuilt, same⟩
    refine ⟨other, otherBuilt, ?_, once⟩
    intro frame routes routes_eq
    rcases unordered frame routes (same frame ▸ routes_eq) with ⟨horizon_eq, indeterminate_eq, _⟩
    exact ⟨horizon_eq, indeterminate_eq⟩
  · rintro ⟨grammar, built, unordered, once⟩
    exact exists_strict_build built unordered once
  · intro grammar built
    exact ⟨(unordered_of_strict_build built).2,
      fun _ le_further strict => exists_build_of_strict built le_further strict⟩

/-- A rule that reads one of two words, which their second code points tell apart. -/
def twoWords : Graph :=
  (Assembly.assemble do
    let main ← Assembly.rule "main"
    let start ← Assembly.node main
    let done ← Assembly.node main
    let _ ← Assembly.literal main start "ab" done
    Assembly.literal main start "ac" done).2

/-- One code point does not suffice, and three change nothing. -/
theorem strict_build_fixes_routes_twoWords :
    (twoWords.build ⟨"main", 1, true⟩).result.isOk = false ∧
    ∃ grammar other, (twoWords.build ⟨"main", 2, true⟩).result = .ok grammar ∧
      (twoWords.build ⟨"main", 3, false⟩).result = .ok other ∧
      (other.routes? ⟨0, 0⟩).isSome = true ∧
      ∀ frame, other.routes? frame = grammar.routes? frame := by
  have isOk : (twoWords.build ⟨"main", 2, true⟩).result.isOk = true := by decide +kernel
  have built := build_eq_builtGrammar isOk
  rcases ((strict_build_fixes_routes twoWords "main" 2).2 _ built).2 3 (by decide) false with
    ⟨other, otherBuilt, same⟩
  refine ⟨by decide +kernel, _, other, built, otherBuilt, ?_, same⟩
  rw [same]
  decide +kernel

end StreamGrammar.Graph
