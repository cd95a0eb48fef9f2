import StreamGrammar.Proofs.Resolution
import StreamGrammar.Proofs.SilentWalks

/-!
# Faults for endless walks

A grammar that can be built has no endless silent walks: from every node, every silent
walk is bounded and comes to no place twice. A graph with an endless one cannot be
built, and that is reported as a cycle unless there are faults in names, references,
the start rule or the lookahead limit, which are looked for first and then reported
alone.

The converse does not hold. `Graph.Expands` tells from which places ways are searched
for when a graph is built. A cycle is reported if the search gives up at one of them,
which can happen although every silent walk from each of them soon ends: a walk may
return out of a rule that consumes nothing, and enter it again at the beginning of
another one. If all those walks are bounded, such a return is the only reason for a
report.
-/

namespace StreamGrammar

/-- The fault is one of names, references, the start rule or the lookahead limit. Other faults are
found only when decisions are resolved. -/
def BuildError.IsStructural : BuildError → Prop
  | .epsilonCycle .. | .ambiguous .. | .ambiguousExit .. => False
  | _ => True

namespace Graph

variable {graph : Graph} {config : GrammarConfig} {limits : ResolutionLimits} {frame : Frame}
  {fault : BuildError}

/-- The fault is among those that building a grammar from the graph reports. -/
def Reports (graph : Graph) (config : GrammarConfig) (fault : BuildError) : Prop :=
  ∃ faults, (graph.build config).result = .error faults ∧ fault ∈ faults

/-- Building a grammar from the graph reports that nodes can be reached again for ever. -/
def ReportsCycle (graph : Graph) (config : GrammarConfig) : Prop :=
  ∃ rule node, graph.Reports config (.epsilonCycle rule node)

section Structure

theorem isStructural_of_mem_nameFaults (fault_mem : fault ∈ graph.nameFaults) :
    fault.IsStructural := by
  rcases List.mem_append.mp fault_mem with rule_mem | matcher_mem
  · rcases List.mem_map.mp rule_mem with ⟨name, _, rfl⟩
    trivial
  · rcases List.mem_map.mp matcher_mem with ⟨name, _, rfl⟩
    trivial

theorem isStructural_of_mem_kindFaults {rule : Rule} {kind : EdgeKind}
    (fault_mem : fault ∈ graph.kindFaults rule kind) : fault.IsStructural := by
  cases kind with
  | goto => cases fault_mem
  | consume matcher =>
      simp only [kindFaults, List.mem_ite_nil_left, List.mem_singleton] at fault_mem
      rw [fault_mem.2]
      trivial
  | call callee =>
      simp only [kindFaults] at fault_mem
      split at fault_mem
      next =>
        rw [List.mem_ite_nil_right, List.mem_singleton] at fault_mem
        rw [fault_mem.2]
        trivial
      next =>
        rw [List.mem_singleton.mp fault_mem]
        trivial

theorem isStructural_of_mem_referenceFaults (fault_mem : fault ∈ graph.referenceFaults) :
    fault.IsStructural := by
  rcases List.mem_flatMap.mp fault_mem with ⟨rule, _, rule_mem⟩
  rcases List.mem_append.mp rule_mem with empty_mem | edges_mem
  · rw [List.mem_ite_nil_right, List.mem_singleton] at empty_mem
    rw [empty_mem.2]
    trivial
  · rcases List.mem_flatMap.mp edges_mem with ⟨edge, _, edge_mem⟩
    rcases List.mem_append.mp edge_mem with end_mem | kind_mem
    · rcases List.mem_map.mp end_mem with ⟨node, _, rfl⟩
      trivial
    · exact isStructural_of_mem_kindFaults kind_mem

/-- Before decisions are resolved, only structural faults are found. -/
theorem isStructural_of_mem_initialFaults (fault_mem : fault ∈ graph.initialFaults config) :
    fault.IsStructural := by
  rcases List.mem_append.mp fault_mem with others_mem | start_mem
  · rcases List.mem_append.mp others_mem with lookahead_mem | graph_mem
    · rw [List.mem_ite_nil_right, List.mem_singleton] at lookahead_mem
      rw [lookahead_mem.2]
      trivial
    · rcases List.mem_append.mp graph_mem with name_mem | reference_mem
      · exact isStructural_of_mem_nameFaults name_mem
      · exact isStructural_of_mem_referenceFaults reference_mem
  · split at start_mem
    next => cases start_mem
    next =>
      rw [List.mem_singleton.mp start_mem]
      trivial

end Structure

section Reports

theorem build_of_faulty (faulty : graph.initialFaults config ≠ []) :
    (graph.build config).result = .error (graph.initialFaults config) := by
  simp only [build]
  split
  next faultless _ => exact (faulty faultless).elim
  next => rfl

theorem build_of_faultless (faultless : graph.initialFaults config = []) :
    ∃ start, graph.build config = graph.buildFrom config start := by
  cases start_eq : graph.ruleByName? config.start with
  | none => simp [initialFaults, start_eq] at faultless
  | some start => exact ⟨start, by simp [build, faultless, start_eq]⟩

theorem resolve_error_iff : (graph.resolve limits frame).result = .error fault ↔
    graph.outgoing frame ≠ [] ∧ (graph.resolveNode limits frame).result = .error fault := by
  simp only [resolve]
  split
  next isEmpty => simp [List.isEmpty_iff.mp isEmpty]
  next notEmpty =>
    have goesOn : graph.outgoing frame ≠ [] := fun none => notEmpty (List.isEmpty_iff.mpr none)
    simp only [goesOn, ne_eq, not_false_eq_true, true_and]
    split
    next routes routes_eq => simp [routes_eq]
    next other other_eq => simp [other_eq]

/-- Unless something else is wrong with a graph, the faults of its nodes are reported. -/
theorem reports_iff (faultless : graph.initialFaults config = []) :
    graph.Reports config fault ↔ ∃ frame, graph.outgoing frame ≠ [] ∧
      (graph.resolveNode ⟨config.maxLookahead, config.strict⟩ frame).result = .error fault := by
  rcases build_of_faultless faultless with ⟨start, build_eq⟩
  have reported : graph.Reports config fault ↔ fault ∈ resolutionFaults
      ((graph.resolveAll ⟨config.maxLookahead, config.strict⟩).map
        Array.toList).toList.flatten := by
    simp only [Reports, build_eq, buildFrom]
    split
    next clean =>
      rw [clean]
      simp
    next => simp
  rw [reported, resolutionFaults, List.mem_filterMap]
  constructor
  · rintro ⟨resolution, resolution_mem, failed⟩
    rcases exists_node_of_mem_resolveAll resolution_mem with ⟨frame, _, rfl⟩
    refine ⟨frame, resolve_error_iff.mp ?_⟩
    split at failed
    next other other_eq => rw [other_eq, Option.some.inj failed]
    next => cases failed
  · rintro ⟨frame, goesOn, failed⟩
    rcases exists_rule_of_outgoing goesOn with ⟨rule, rule_eq, inside⟩
    refine ⟨_, resolve_mem_resolveAll rule_eq inside, ?_⟩
    rw [resolve_error_iff.mpr ⟨goesOn, failed⟩]

end Reports

theorem resolveNode_of_ways_error (gaveUp : graph.ways { top := frame } = .error fault) :
    (graph.resolveNode limits frame).result = .error fault := by
  simp [resolveNode, gaveUp]

section Expansion

/-- The candidates with which a round of dividing the alternatives of a node begins. -/
inductive Round (graph : Graph) (limits : ResolutionLimits) (frame : Frame) :
    (depth : Nat) → List Candidate → Prop
  | first {ways : List Way} (ways_eq : graph.ways { top := frame } = .ok ways)
      (exits : ¬(limits.strict = true ∧ 1 < (ways.filterMap Way.exit?).length)) :
      Round graph limits frame 1 (Candidate.firstOnes (ways.filterMap Way.alternative?))
  | next {depth : Nat} {candidates continued : List Candidate}
      (round : Round graph limits frame depth candidates) (deeper : depth < limits.maxLookahead)
      (goesOn : ∃ candidate ∈ graph.overlappingOnes candidates, candidate.next ≠ none)
      (followed : graph.followAll (graph.overlappingOnes candidates) = .ok continued) :
      Round graph limits frame (depth + 1) continued

/-- The ways to go on from the place are searched for when the graph is resolved: the place is a
node, or a candidate that still overlaps has led to it. If the search gives up for a candidate,
those after it are not followed any more. -/
inductive Expands (graph : Graph) (limits : ResolutionLimits) : Place → Prop
  | node {frame : Frame} (goesOn : graph.outgoing frame ≠ []) :
      Expands graph limits { top := frame }
  | candidate {frame : Frame} {depth : Nat} {candidates before after : List Candidate}
      {candidate : Candidate} {place : Place} (goesOn : graph.outgoing frame ≠ [])
      (round : Round graph limits frame depth candidates) (deeper : depth < limits.maxLookahead)
      (overlapping_eq : graph.overlappingOnes candidates = before ++ candidate :: after)
      (before_ok : ∀ earlier ∈ before, ∃ continued, graph.continuations earlier = .ok continued)
      (next_eq : candidate.next = some place) : Expands graph limits place

theorem Round.one_le {depth : Nat} {candidates : List Candidate}
    (round : Round graph limits frame depth candidates) : 1 ≤ depth := by
  induction round with
  | first => exact Nat.le_refl 1
  | next => exact Nat.succ_pos _

theorem continuations_error {candidate : Candidate}
    (failed : graph.continuations candidate = .error fault) :
    ∃ place, candidate.next = some place ∧ graph.ways place = .error fault := by
  simp only [continuations] at failed
  split at failed
  next => cases failed
  next place next_eq =>
    rcases error_of_bind_eq_error failed with gaveUp | ⟨_, _, impossible⟩
    · exact ⟨place, next_eq, gaveUp⟩
    · cases impossible

theorem followAll_error {candidates : List Candidate}
    (failed : graph.followAll candidates = .error fault) :
    ∃ before candidate after place, candidates = before ++ candidate :: after ∧
      (∀ earlier ∈ before, ∃ continued, graph.continuations earlier = .ok continued) ∧
        candidate.next = some place ∧ graph.ways place = .error fault := by
  rcases error_of_bind_eq_error failed with gaveUp | ⟨_, _, impossible⟩
  · rcases exists_error_of_flatMapM_eq_error gaveUp with
      ⟨before, candidate, after, rfl, before_ok, candidate_failed⟩
    rcases continuations_error candidate_failed with ⟨place, next_eq, place_failed⟩
    exact ⟨before, candidate, after, place, rfl, before_ok, next_eq, place_failed⟩
  · cases impossible

theorem divide_zero_ne_error {depth : Nat} {candidates : List Candidate} :
    graph.divide 0 depth candidates ≠ .error fault := by
  rw [divide_zero]
  rintro ⟨⟩

/-- Dividing fails where it goes on, in that round or in a later one. -/
theorem divide_succ_error_iff {remaining depth : Nat} {candidates : List Candidate} :
    graph.divide (remaining + 1) depth candidates = .error fault ↔
      (∃ candidate ∈ graph.overlappingOnes candidates, candidate.next ≠ none) ∧
        (graph.followAll (graph.overlappingOnes candidates) = .error fault ∨
          ∃ continued, graph.followAll (graph.overlappingOnes candidates) = .ok continued ∧
            graph.divide remaining (depth + 1) continued = .error fault) := by
  rcases graph.left_or_unfinished candidates with allLeft | unfinished
  · rw [divide_of_left allLeft]
    simp only [reduceCtorEq, false_iff, not_and]
    rintro ⟨candidate, candidate_mem, goesOn⟩
    exact (goesOn (allLeft candidate candidate_mem)).elim
  · simp only [divide_succ unfinished, unfinished, true_and]
    constructor
    · intro failed
      rcases error_of_bind_eq_error failed with gaveUp | ⟨continued, continued_eq, failed⟩
      · exact .inl gaveUp
      · rcases error_of_bind_eq_error failed with further | ⟨_, _, impossible⟩
        · exact .inr ⟨continued, continued_eq, further⟩
        · cases impossible
    · rintro (gaveUp | ⟨continued, continued_eq, further⟩)
      · rw [gaveUp]
        rfl
      · rw [continued_eq]
        change (graph.divide remaining (depth + 1) continued >>= _) = _
        rw [further]
        rfl

theorem exists_expands_of_divide_error {remaining depth : Nat} {candidates : List Candidate}
    (goesOn : graph.outgoing frame ≠ []) (round : Round graph limits frame depth candidates)
    (within : depth + remaining ≤ limits.maxLookahead)
    (failed : graph.divide remaining depth candidates = .error fault) :
    ∃ place, graph.Expands limits place ∧ graph.ways place = .error fault := by
  induction remaining generalizing depth candidates with
  | zero => exact (divide_zero_ne_error failed).elim
  | succ remaining ih =>
      have deeper : depth < limits.maxLookahead := by omega
      rcases divide_succ_error_iff.mp failed with
        ⟨unfinished, gaveUp | ⟨continued, continued_eq, further⟩⟩
      · rcases followAll_error gaveUp with
          ⟨before, candidate, after, place, overlapping_eq, before_ok, next_eq, place_failed⟩
        exact ⟨place, .candidate goesOn round deeper overlapping_eq before_ok next_eq,
          place_failed⟩
      · exact ih (.next round deeper unfinished continued_eq) (by omega) further

theorem resolveAlternatives_of_divide_error {alternatives : List (Path × MatcherId × Place)}
    (exit : Option Path) (failed : graph.divide (limits.maxLookahead - 1) 1
      (Candidate.firstOnes alternatives) = .error fault) :
    (graph.resolveAlternatives limits frame alternatives exit).result = .error fault := by
  simp only [Candidate.firstOnes] at failed
  simp only [resolveAlternatives, failed]

theorem resolveAlternatives_error {alternatives : List (Path × MatcherId × Place)}
    {exit : Option Path}
    (failed : (graph.resolveAlternatives limits frame alternatives exit).result = .error fault) :
    graph.divide (limits.maxLookahead - 1) 1 (Candidate.firstOnes alternatives) = .error fault ∨
      ∃ overlapping, fault = graph.ambiguity frame overlapping := by
  simp only [resolveAlternatives] at failed
  split at failed
  next other other_eq =>
    cases failed
    exact .inl other_eq
  next division _ =>
    split at failed
    next => cases failed
    next =>
      split at failed
      next =>
        cases failed
        exact .inr ⟨division.overlapping, rfl⟩
      next => cases failed

/-- If dividing fails in some round, the node cannot be resolved. -/
theorem resolveNode_of_divide_error {depth : Nat} {candidates : List Candidate}
    (round : Round graph limits frame depth candidates)
    (failed : graph.divide (limits.maxLookahead - depth) depth candidates = .error fault) :
    (graph.resolveNode limits frame).result = .error fault := by
  induction round with
  | @first ways ways_eq exits =>
      have decided : (limits.strict && (ways.filterMap Way.exit?).length > 1 : Bool) = false := by
        simpa using exits
      simp only [resolveNode, ways_eq, resolveWays_eq, decided, Bool.false_eq_true, if_false]
      exact resolveAlternatives_of_divide_error _ failed
  | @next depth candidates continued _ deeper goesOn followed ih =>
      apply ih
      have remaining_eq : limits.maxLookahead - depth = limits.maxLookahead - (depth + 1) + 1 := by
        omega
      rw [remaining_eq, divide_succ_error_iff]
      exact ⟨goesOn, .inr ⟨continued, followed, failed⟩⟩

/-- A node is reported as a cycle only if the search gives up at some place that is expanded. -/
theorem exists_expands_of_resolveNode_error (positive : 1 ≤ limits.maxLookahead)
    (goesOn : graph.outgoing frame ≠ []) {rule node : String}
    (failed : (graph.resolveNode limits frame).result = .error (.epsilonCycle rule node)) :
    ∃ place, graph.Expands limits place ∧ graph.SeemsEndless place := by
  simp only [resolveNode] at failed
  split at failed
  next other other_eq => exact ⟨_, .node goesOn, (seemsEndless_of_ways_error other_eq).2⟩
  next ways ways_eq =>
    rw [resolveWays_eq] at failed
    split at failed
    next => cases failed
    next exits =>
      rcases resolveAlternatives_error failed with divided | ⟨overlapping, impossible⟩
      · have first : Round graph limits frame 1 _ := .first ways_eq (by simpa using exits)
        rcases exists_expands_of_divide_error goesOn first (by omega) divided with
          ⟨place, expands, gaveUp⟩
        exact ⟨place, expands, (seemsEndless_of_ways_error gaveUp).2⟩
      · cases impossible

/-- Where the search gives up at a candidate, following the candidates fails. -/
theorem exists_followAll_error {candidates : List Candidate} {candidate : Candidate}
    {place : Place} (candidate_mem : candidate ∈ candidates)
    (next_eq : candidate.next = some place) (endless : graph.SeemsEndless place) :
    ∃ node, graph.followAll candidates = .error (graph.epsilonCycle node) := by
  cases followed : graph.followAll candidates with
  | error fault =>
      -- Another candidate may be the first to fail, so the node that is reported is not known.
      rcases followAll_error followed with ⟨_, _, _, other, _, _, _, gaveUp⟩
      rcases (seemsEndless_of_ways_error gaveUp).1 with ⟨node, rfl⟩
      exact ⟨node, rfl⟩
  | ok continued =>
      rcases exists_ok_of_bind_eq_ok followed with ⟨all, all_eq, _⟩
      rcases exists_lists_of_flatMapM_eq_ok all_eq with ⟨list, list_eq, _⟩
      have continued_eq := list_eq candidate candidate_mem
      simp only [continuations, next_eq] at continued_eq
      rcases exists_ok_of_bind_eq_ok continued_eq with ⟨ways, ways_eq, _⟩
      exact (not_seemsEndless_of_ways_ok ways_eq endless).elim

theorem exists_resolveNode_error_of_expands {place : Place} (expands : graph.Expands limits place)
    (endless : graph.SeemsEndless place) :
    ∃ frame node, graph.outgoing frame ≠ [] ∧
      (graph.resolveNode limits frame).result = .error (graph.epsilonCycle node) := by
  cases expands with
  | @node frame goesOn =>
      rcases ways_error_iff.mpr endless with ⟨node, gaveUp⟩
      exact ⟨frame, node, goesOn, resolveNode_of_ways_error gaveUp⟩
  | @candidate frame depth candidates before after candidate place goesOn round deeper
      overlapping_eq _ next_eq =>
      have candidate_mem : candidate ∈ graph.overlappingOnes candidates := by
        rw [overlapping_eq]
        exact List.mem_append_right before List.mem_cons_self
      rcases exists_followAll_error candidate_mem next_eq endless with ⟨node, gaveUp⟩
      refine ⟨frame, node, goesOn, resolveNode_of_divide_error round ?_⟩
      have remaining_eq : limits.maxLookahead - depth = limits.maxLookahead - (depth + 1) + 1 := by
        omega
      rw [remaining_eq, divide_succ_error_iff]
      exact ⟨⟨candidate, candidate_mem, by simp [next_eq]⟩, .inl gaveUp⟩

end Expansion

/-- A cycle is reported exactly if the search gives up at some place that is expanded. -/
theorem reportsCycle_iff (faultless : graph.initialFaults config = []) :
    graph.ReportsCycle config ↔ ∃ place,
      graph.Expands ⟨config.maxLookahead, config.strict⟩ place ∧ graph.SeemsEndless place := by
  constructor
  · rintro ⟨rule, node, reported⟩
    rcases (reports_iff faultless).mp reported with ⟨frame, goesOn, failed⟩
    have positive := one_le_maxLookahead_of_faultless faultless
    exact exists_expands_of_resolveNode_error positive goesOn failed
  · rintro ⟨place, expands, endless⟩
    rcases exists_resolveNode_error_of_expands expands endless with ⟨frame, node, goesOn, failed⟩
    exact ⟨_, _, (reports_iff faultless).mpr ⟨frame, goesOn, failed⟩⟩

theorem outgoing_ne_nil_of_silentWalk {steps : Path} {next : Place} (moves : steps ≠ [])
    (walk : SilentWalk graph { top := frame } steps next) : graph.outgoing frame ≠ [] := by
  cases steps with
  | nil => exact (moves rfl).elim
  | cons step steps =>
      rcases walk.exists_first with ⟨second, enabled, second_eq, _, _⟩
      apply outgoing_ne_nil_of_isEnabled enabled
      rintro rfl
      cases second_eq

/-- A silent walk that is too long, or comes to a place twice, begins at a node where the search
gives up. -/
theorem seemsEndless_or_bounded {first second : Path} {earlier later : Place}
    (before : SilentWalk graph { top := frame } first earlier)
    (between : SilentWalk graph earlier second later) :
    (graph.outgoing frame ≠ [] ∧ graph.SeemsEndless { top := frame }) ∨
      (first ++ second).length ≤ maxWayLength ∧ (earlier = later → second = []) := by
  have whole := before.trans between
  by_cases tooLong : maxWayLength < (first ++ second).length
  · left
    refine ⟨outgoing_ne_nil_of_silentWalk ?_ whole, .long whole tooLong⟩
    rintro empty
    simp [empty] at tooLong
  · by_cases moves : second = []
    · exact .inr ⟨Nat.le_of_not_lt tooLong, fun _ => moves⟩
    · by_cases same : earlier = later
      · subst same
        have repeated : earlier.repeatsIn earlier = true :=
          Place.repeatsIn_iff.mpr ⟨rfl, List.suffix_rfl⟩
        exact .inl ⟨outgoing_ne_nil_of_silentWalk (by simp [moves]) whole,
          .repeats before between moves repeated⟩
      · exact .inr ⟨Nat.le_of_not_lt tooLong, fun same' => (same same').elim⟩

theorem IsEndless.outgoing_ne_nil (endless : graph.IsEndless { top := frame }) :
    graph.outgoing frame ≠ [] := by
  rcases endless 1 with ⟨steps, next, walk, long⟩
  apply outgoing_ne_nil_of_silentWalk _ walk
  rintro rfl
  simp at long

/-- A node that falls through to itself. -/
def circle : Graph :=
  (Assembly.assemble do
    let main ← Assembly.rule "main"
    let start ← Assembly.node main
    Assembly.gotoEdge main start start).2

theorem circle_isEndless : circle.IsEndless { top := ⟨0, 0⟩ } := by
  intro count
  induction count with
  | zero => exact ⟨[], _, .refl circle _, Nat.le_refl 0⟩
  | succ count ih =>
      rcases ih with ⟨steps, next, walk, long⟩
      have enabled : (Step.goto 0).IsEnabled circle (Place.stack { top := ⟨0, 0⟩ }) := by decide
      exact ⟨.goto 0 :: steps, next, walk.cons enabled rfl rfl, Nat.succ_le_succ long⟩

theorem circle_initialFaults : circle.initialFaults ⟨"main", 0, false⟩ = [.zeroLookahead] := by
  decide +kernel

/-- An endless walk is not reported as a cycle if something else is wrong with the graph. -/
theorem exists_endless_unreported :
    circle.IsEndless { top := ⟨0, 0⟩ } ∧ ¬circle.ReportsCycle ⟨"main", 0, false⟩ := by
  refine ⟨circle_isEndless, ?_⟩
  rintro ⟨rule, node, faults, result_eq, fault_mem⟩
  rw [build_of_faulty (by simp [circle_initialFaults]), circle_initialFaults,
    Except.error.injEq] at result_eq
  simp [← result_eq] at fault_mem

/-- If a grammar can be built from the graph, every silent walk from a node has at most
`maxWayLength` steps and comes to no place twice. If there is an endless one from some node, no
grammar can be built. That is reported as a cycle unless there are structural faults, which are then
all that is reported. -/
theorem build_excludes_endless_walks (graph : Graph) (config : GrammarConfig) :
    ((graph.build config).result.isOk = true → ∀ (frame : Frame) (first second : Path)
      (earlier later : Place), SilentWalk graph { top := frame } first earlier →
        SilentWalk graph earlier second later →
          (first ++ second).length ≤ maxWayLength ∧ (earlier = later → second = [])) ∧
    ∀ frame : Frame, graph.IsEndless { top := frame } →
      (graph.build config).result.isOk = false ∧
        (graph.initialFaults config = [] → graph.ReportsCycle config) ∧
        (graph.initialFaults config ≠ [] →
          (graph.build config).result = .error (graph.initialFaults config) ∧
            ∀ fault ∈ graph.initialFaults config, fault.IsStructural) := by
  have faultless_of_isOk : (graph.build config).result.isOk = true →
      graph.initialFaults config = [] := by
    intro isOk
    by_contra faulty
    rw [build_of_faulty faulty] at isOk
    cases isOk
  have not_isOk_of_reports : graph.ReportsCycle config →
      (graph.build config).result.isOk = false := by
    rintro ⟨rule, node, faults, result_eq, _⟩
    rw [result_eq]
    rfl
  refine ⟨?_, ?_⟩
  · intro isOk frame first second earlier later before between
    rcases seemsEndless_or_bounded before between with ⟨goesOn, endless⟩ | bounded
    · have reported := (reportsCycle_iff (faultless_of_isOk isOk)).mpr ⟨_, .node goesOn, endless⟩
      rw [not_isOk_of_reports reported] at isOk
      cases isOk
    · exact bounded
  · intro frame endless
    have reported : graph.initialFaults config = [] → graph.ReportsCycle config := by
      intro faultless
      apply (reportsCycle_iff faultless).mpr
      exact ⟨_, .node endless.outgoing_ne_nil, endless.seemsEndless⟩
    refine ⟨?_, reported, ?_⟩
    · by_contra notFailed
      have isOk : (graph.build config).result.isOk = true := by simpa using notFailed
      rw [not_isOk_of_reports (reported (faultless_of_isOk isOk))] at isOk
      cases isOk
    · intro faulty
      exact ⟨build_of_faulty faulty, fun _ => isStructural_of_mem_initialFaults⟩

/-- A node that falls through to another one. -/
def skip : Graph :=
  (Assembly.assemble do
    let main ← Assembly.rule "main"
    let start ← Assembly.node main
    let letter ← Assembly.node main
    let done ← Assembly.node main
    let _ ← Assembly.gotoEdge main start letter
    Assembly.charEdge main letter 'a' done).2

theorem build_excludes_endless_walks_circle :
    (skip.build ⟨"main", 1, false⟩).result.isOk = true ∧
      SilentWalk skip { top := ⟨0, 0⟩ } [.goto 1] { top := ⟨0, 1⟩ } ∧
      (∀ steps next, SilentWalk skip { top := ⟨0, 1⟩ } steps next →
        1 + steps.length ≤ maxWayLength ∧ ({ top := ⟨0, 1⟩ } = next → steps = [])) ∧
    circle.IsEndless { top := ⟨0, 0⟩ } ∧
      circle.initialFaults ⟨"main", 1, false⟩ = [] ∧ circle.ReportsCycle ⟨"main", 1, false⟩ ∧
      (circle.build ⟨"main", 0, false⟩).result = .error [.zeroLookahead] := by
  have isOk : (skip.build ⟨"main", 1, false⟩).result.isOk = true := by decide +kernel
  have hop : SilentWalk skip { top := ⟨0, 0⟩ } [.goto 1] { top := ⟨0, 1⟩ } :=
    ⟨by decide +kernel, rfl⟩
  have faultless : circle.initialFaults ⟨"main", 1, false⟩ = [] := by decide +kernel
  have faulty : circle.initialFaults ⟨"main", 0, false⟩ ≠ [] := by simp [circle_initialFaults]
  refine ⟨isOk, hop, ?_, circle_isEndless, faultless, ?_, ?_⟩
  · intro steps next walk
    have bounded := (build_excludes_endless_walks skip ⟨"main", 1, false⟩).1 isOk _ _ _ _ _ hop walk
    rw [List.length_append, List.length_singleton] at bounded
    exact bounded
  · exact ((build_excludes_endless_walks circle _).2 _ circle_isEndless).2.1 faultless
  · rw [← circle_initialFaults]
    exact (((build_excludes_endless_walks circle _).2 _ circle_isEndless).2.2 faulty).1

/-- A silent walk from the place returns out of the rule of a place on the way, and later comes to
a place that repeats that one. -/
def Reenters (graph : Graph) (place : Place) : Prop :=
  ∃ first out again earlier later, SilentWalk graph place first earlier ∧
    Walk graph [earlier.top] out [] ∧ Walk graph earlier.below again later.stack ∧
      Path.matchers (out ++ again) = [] ∧ earlier.repeatsIn later = true

theorem Reenters.seemsEndless {place : Place} (reenters : graph.Reenters place) :
    graph.SeemsEndless place := by
  rcases reenters with ⟨first, out, again, earlier, later, before, leaves, comesBack, silent,
    repeated⟩
  have between : SilentWalk graph earlier (out ++ again) later :=
    ⟨(leaves.onTop earlier.below).trans comesBack, silent⟩
  have moves : out ++ again ≠ [] := by
    intro empty
    rw [(List.append_eq_nil_iff.mp empty).1] at leaves
    cases Walk.nil_iff.mp leaves
  exact .repeats before between moves repeated

/-- If all silent walks from the places that are expanded are short, a cycle is reported exactly if
one of those walks returns out of a rule and enters it again. -/
theorem reportsCycle_iff_reenters (faultless : graph.initialFaults config = [])
    (bounded : ∀ place, graph.Expands ⟨config.maxLookahead, config.strict⟩ place →
      ∀ steps next, SilentWalk graph place steps next → steps.length < maxWayLength) :
    graph.ReportsCycle config ↔ ∃ place,
      graph.Expands ⟨config.maxLookahead, config.strict⟩ place ∧ graph.Reenters place := by
  rw [reportsCycle_iff faultless]
  constructor
  · rintro ⟨place, expands, endless⟩
    cases endless with
    | @long steps next walk tooLong =>
        have short := bounded place expands steps next walk
        omega
    | repeats before between moves repeated =>
        rcases isEndless_or_returns before between moves repeated with
          endless | ⟨out, again, rfl, leaves, comesBack⟩
        · rcases endless maxWayLength with ⟨steps, next, walk, long⟩
          have short := bounded place expands steps next walk
          omega
        · exact ⟨place, expands, _, out, again, _, _, before, leaves, comesBack, between.silent,
            repeated⟩
  · rintro ⟨place, expands, reenters⟩
    exact ⟨place, expands, reenters.seemsEndless⟩

/-- A rule that announces a mark, and then reads items until a dot comes. Every item begins with a
mark too. -/
def markedItems : Graph :=
  (Assembly.assemble do
    let main ← Assembly.rule "main"
    let mark ← Assembly.rule "mark"
    let item ← Assembly.rule "item"
    let start ← Assembly.node main
    let items ← Assembly.node main
    let done ← Assembly.node main
    let _ ← Assembly.node mark (.event "mark")
    let opened ← Assembly.node item
    let marked ← Assembly.node item
    let closed ← Assembly.node item
    let _ ← Assembly.callEdge main start mark items
    let _ ← Assembly.callEdge main items item items
    let _ ← Assembly.charEdge main items '.' done
    let _ ← Assembly.callEdge item opened mark marked
    Assembly.charEdge item marked 'x' closed).2

theorem markedItems_faultless : markedItems.initialFaults ⟨"main", 1, false⟩ = [] := by
  decide +kernel

/-- The walk announces the first mark, returns, begins an item, and comes to its mark. -/
theorem markedItems_reenters : markedItems.Reenters { top := ⟨0, 0⟩ } := by
  refine ⟨[.call 1 1], [.leave], [.call 2 1, .call 1 1], ⟨⟨1, 0⟩, [⟨0, 1⟩]⟩,
    ⟨⟨1, 0⟩, [⟨2, 1⟩, ⟨0, 1⟩]⟩, ⟨?_, rfl⟩, ?_, ?_, rfl, ?_⟩
  · decide +kernel
  · decide +kernel
  · decide +kernel
  · decide

/-- Every silent walk through the graph ends after at most five steps. -/
theorem markedItems_bounded {place : Place} (expands : markedItems.Expands ⟨1, false⟩ place)
    {steps : Path} {next : Place} (walk : SilentWalk markedItems place steps next) :
    steps.length < maxWayLength := by
  cases expands with
  | @node frame goesOn =>
      have bounded : ∀ rule < 3, ∀ node < 3,
          markedItems.endsWithin 6 { top := ⟨rule, node⟩ } = true := by decide +kernel
      have few : ∀ rule ∈ markedItems.rules, rule.nodes.size ≤ 3 := by decide +kernel
      have size_eq : markedItems.rules.size = 3 := by decide +kernel
      rcases exists_rule_of_outgoing goesOn with ⟨rule, rule_eq, inside⟩
      have rule_lt : frame.rule < 3 := by
        rw [← size_eq]
        exact (Array.getElem?_eq_some_iff.mp rule_eq).1
      have node_lt : frame.node < 3 :=
        Nat.lt_of_lt_of_le inside (few rule (Array.mem_of_getElem? rule_eq))
      have short := length_lt_of_endsWithin (bounded frame.rule rule_lt frame.node node_lt) walk
      simp only [maxWayLength]
      omega
  | @candidate _ depth _ _ _ _ _ _ round deeper =>
      have := round.one_le
      change depth < 1 at deeper
      omega

theorem markedItems_expands : markedItems.Expands ⟨1, false⟩ { top := ⟨0, 0⟩ } :=
  .node (by decide +kernel)

/-- A cycle can be reported although all silent walks soon end. -/
theorem exists_report_without_cycle :
    markedItems.initialFaults ⟨"main", 1, false⟩ = [] ∧
      (∀ place, markedItems.Expands ⟨1, false⟩ place → ∀ steps next,
        SilentWalk markedItems place steps next → steps.length < maxWayLength) ∧
      markedItems.ReportsCycle ⟨"main", 1, false⟩ := by
  refine ⟨markedItems_faultless, ?_, ?_⟩
  · intro place expands steps next walk
    exact markedItems_bounded expands walk
  · apply (reportsCycle_iff markedItems_faultless).mpr
    exact ⟨_, markedItems_expands, markedItems_reenters.seemsEndless⟩

theorem reportsCycle_iff_reenters_markedItems :
    markedItems.initialFaults ⟨"main", 1, false⟩ = [] ∧
      (∀ place, markedItems.Expands ⟨1, false⟩ place → ∀ steps next,
        SilentWalk markedItems place steps next → steps.length < maxWayLength) ∧
      (markedItems.ReportsCycle ⟨"main", 1, false⟩ ↔ ∃ place,
        markedItems.Expands ⟨1, false⟩ place ∧ markedItems.Reenters place) ∧
      markedItems.Expands ⟨1, false⟩ { top := ⟨0, 0⟩ } ∧
        markedItems.Reenters { top := ⟨0, 0⟩ } := by
  have bounded : ∀ place, markedItems.Expands ⟨1, false⟩ place → ∀ steps next,
      SilentWalk markedItems place steps next → steps.length < maxWayLength := by
    intro place expands steps next walk
    exact markedItems_bounded expands walk
  have reported := reportsCycle_iff_reenters markedItems_faultless bounded
  exact ⟨markedItems_faultless, bounded, reported, markedItems_expands, markedItems_reenters⟩

end Graph

end StreamGrammar
