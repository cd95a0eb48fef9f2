import Mathlib.Data.List.Induction
import StreamGrammar.Grammar
import StreamGrammar.Proofs.Division

/-!
# What is resolved at a node

Resolving a node takes its ways apart into alternatives and exits, divides the
candidates of the alternatives, and lets the order of declaration decide between
those that overlap. The order never changes the meaning: a candidate is dropped
only for one of an earlier alternative that is fulfilled whenever it is.

`Graph.Settles` states what became of a node in a grammar that was built. What is
proved about decisions starts from there.
-/

namespace StreamGrammar

namespace Way

def alternative? : Way → Option (Path × MatcherId × Place)
  | .consuming steps matcher next => some (steps, matcher, next)
  | .leaving _ => none

def exit? : Way → Option Path
  | .consuming .. => none
  | .leaving steps => some steps

end Way

/-- The candidates that dividing the alternatives of a node begins with. -/
def Candidate.firstOnes (alternatives : List (Path × MatcherId × Place)) : List Candidate :=
  alternatives.zipIdx.map fun ((_, matcher, next), alternative) =>
    { alternative, lookahead := [matcher], next := some next }

namespace Graph

variable {graph : Graph}

section Survivors

theorem survivors_concat (before : List Candidate) (candidate : Candidate) :
    graph.survivors (before ++ [candidate]) =
      if graph.isCovered (graph.survivors before) candidate then graph.survivors before
      else graph.survivors before ++ [candidate] := by
  rw [survivors, List.foldl_append]
  rfl

theorem survivors_sublist (overlapping : List Candidate) :
    (graph.survivors overlapping).Sublist overlapping := by
  induction overlapping using List.reverseRecOn with
  | nil => exact List.Sublist.refl []
  | append_singleton before candidate ih =>
      rw [survivors_concat]
      split
      · exact ih.trans (List.sublist_append_left _ _)
      · exact ih.append (List.Sublist.refl _)

/-- A candidate that does not survive is covered by a survivor of an earlier alternative. -/
theorem mem_survivors_or_covered (graph : Graph) {overlapping : List Candidate}
    (inOrder : InOrder overlapping) {candidate : Candidate}
    (candidate_mem : candidate ∈ overlapping) :
    candidate ∈ graph.survivors overlapping ∨ ∃ earlier ∈ graph.survivors overlapping,
      earlier.alternative < candidate.alternative ∧
        graph.covers earlier.lookahead candidate.lookahead = true := by
  induction overlapping using List.reverseRecOn with
  | nil => simp at candidate_mem
  | append_singleton before last ih =>
      rcases List.pairwise_append.mp inOrder with ⟨beforeInOrder, _, le_last⟩
      have stays : ∀ member ∈ graph.survivors before,
          member ∈ graph.survivors (before ++ [last]) := by
        intro member member_mem
        rw [survivors_concat]
        split
        · exact member_mem
        · exact List.mem_append_left _ member_mem
      rcases List.mem_append.mp candidate_mem with earlier_mem | last_mem
      · rcases ih beforeInOrder earlier_mem with survives | ⟨earlier, survives, earlier_lt, covers⟩
        · exact .inl (stays candidate survives)
        · exact .inr ⟨earlier, stays earlier survives, earlier_lt, covers⟩
      · obtain rfl := List.mem_singleton.mp last_mem
        cases covered : graph.isCovered (graph.survivors before) candidate with
        | false =>
            apply Or.inl
            simp [survivors_concat, covered]
        | true =>
            rcases List.any_eq_true.mp covered with ⟨earlier, survives, apart⟩
            simp only [Bool.and_eq_true, bne_iff_ne, ne_eq] at apart
            have earlier_le := le_last earlier ((survivors_sublist before).mem survives) candidate
              (List.mem_singleton_self candidate)
            exact .inr ⟨earlier, stays earlier survives, by omega, apart.2⟩

end Survivors

/-- Overlapping candidates are either decided by the first matcher of the one alternative that
survives, or tested one after the other. -/
theorem prefer_cases (graph : Graph) (division : Division) :
    ((graph.prefer division).indeterminate = none ∧ (graph.prefer division).horizon =
      (graph.survivors division.overlapping).map (·.toRoute division.depth)) ∨
    ∃ first ∈ graph.survivors division.overlapping,
      (∀ survivor ∈ graph.survivors division.overlapping,
        survivor.alternative = first.alternative) ∧ (graph.prefer division).horizon = [] ∧
      (graph.prefer division).indeterminate =
        some ⟨1, first.lookahead.take 1, true, first.alternative⟩ := by
  simp only [prefer]
  split
  next first others alternative survivors_eq surviving_eq =>
    have alternative_eq : ∀ survivor ∈ graph.survivors division.overlapping,
        survivor.alternative = alternative := by
      intro survivor survivor_mem
      have surviving : survivor.alternative ∈
          ((graph.survivors division.overlapping).map Candidate.alternative).eraseDups :=
        List.mem_eraseDups.mpr (List.mem_map_of_mem survivor_mem)
      rw [surviving_eq, List.mem_singleton] at surviving
      exact surviving
    have first_mem : first ∈ graph.survivors division.overlapping := by
      rw [survivors_eq]
      exact List.mem_cons_self
    refine .inr ⟨first, first_mem, ?_, rfl, ?_⟩
    · intro survivor survivor_mem
      rw [alternative_eq survivor survivor_mem, alternative_eq first first_mem]
    · simp [alternative_eq first first_mem]
  next => exact .inl ⟨rfl, rfl⟩

theorem shadowed_prefer (graph : Graph) (division : Division) :
    (graph.prefer division).shadowed =
      (division.overlapping.map Candidate.alternative).eraseDups.filter fun alternative =>
        !((graph.survivors division.overlapping).map Candidate.alternative).eraseDups.contains
            alternative &&
          !(division.determinate.map Route.alternative).contains alternative := by
  simp only [prefer]
  split
  next => rfl
  next => rfl

/-- What is shadowed overlaps to the end, and has neither a survivor nor a route of its own. -/
theorem mem_shadowed_iff {division : Division} {alternative : Nat} :
    alternative ∈ (graph.prefer division).shadowed ↔
    (∃ last ∈ division.overlapping, last.alternative = alternative) ∧
    (¬∃ survivor ∈ graph.survivors division.overlapping, survivor.alternative = alternative) ∧
    ¬∃ route ∈ division.determinate, route.alternative = alternative := by
  rw [shadowed_prefer]
  simp [List.mem_filter]

theorem prefer_of_overlapping_nil {division : Division} (none_eq : division.overlapping = []) :
    graph.prefer division = {} := by
  simp [prefer, none_eq, survivors]

/-- What resolving a node with outgoing edges came to: what its routes were made of. -/
structure Settles (graph : Graph) (limits : ResolutionLimits) (frame : Frame) (ways : List Way)
    (division : Division) (routes : Routes) : Prop where
  ways_eq : graph.ways { top := frame } = .ok ways
  divides : graph.Divides (limits.maxLookahead - 1) 1
    (Candidate.firstOnes (ways.filterMap Way.alternative?)) division
  strict : limits.strict = true → division.overlapping = []
  routes_eq : routes = graph.assembleRoutes ((ways.filterMap Way.alternative?).map Prod.fst)
    (ways.filterMap Way.exit?).head? division.determinate (graph.prefer division)

theorem resolveAlternatives_eq_ok_iff {limits : ResolutionLimits} {frame : Frame}
    {alternatives : List (Path × MatcherId × Place)} {exit : Option Path} {routes : Routes} :
    (graph.resolveAlternatives limits frame alternatives exit).result = .ok routes ↔
      ∃ division, graph.divide (limits.maxLookahead - 1) 1 (Candidate.firstOnes alternatives) =
          .ok division ∧ (limits.strict = true → division.overlapping = []) ∧
        routes = graph.assembleRoutes (alternatives.map Prod.fst) exit division.determinate
          (graph.prefer division) := by
  simp only [resolveAlternatives]
  split
  next fault failed =>
    have divide_eq : graph.divide (limits.maxLookahead - 1) 1 (Candidate.firstOnes alternatives) =
        .error fault := failed
    simp [divide_eq]
  next division found =>
    have divide_eq : graph.divide (limits.maxLookahead - 1) 1 (Candidate.firstOnes alternatives) =
        .ok division := found
    simp only [divide_eq, Except.ok.injEq, exists_eq_left']
    split
    next isEmpty =>
      have none_eq : division.overlapping = [] := List.isEmpty_iff.mp isEmpty
      simp only [prefer_of_overlapping_nil none_eq, none_eq, implies_true, true_and,
        Except.ok.injEq]
      exact eq_comm
    next notEmpty =>
      split
      next strict => simp [strict, List.isEmpty_iff.not.mp notEmpty]
      next notStrict =>
        simp only [notStrict, Bool.false_eq_true, false_implies, true_and, Except.ok.injEq]
        exact eq_comm

theorem resolveWays_eq (graph : Graph) (limits : ResolutionLimits) (frame : Frame)
    (ways : List Way) : graph.resolveWays limits frame ways =
      if limits.strict && (ways.filterMap Way.exit?).length > 1 then
        ⟨[], .error (graph.ambiguousExit frame)⟩
      else
        (graph.resolveAlternatives limits frame (ways.filterMap Way.alternative?)
          (ways.filterMap Way.exit?).head?).noting
            (List.replicate ((ways.filterMap Way.exit?).length - 1) (.furtherExit frame)) := rfl

/-- A node can be resolved exactly if no search from it gives up and, in a strict grammar, neither
the order of its exits nor that of its alternatives matters. -/
theorem resolveNode_eq_ok_iff {limits : ResolutionLimits} {frame : Frame} {routes : Routes} :
    (graph.resolveNode limits frame).result = .ok routes ↔ ∃ ways division,
      graph.ways { top := frame } = .ok ways ∧
      graph.divide (limits.maxLookahead - 1) 1
        (Candidate.firstOnes (ways.filterMap Way.alternative?)) = .ok division ∧
      (limits.strict = true →
        (ways.filterMap Way.exit?).length ≤ 1 ∧ division.overlapping = []) ∧
      routes = graph.assembleRoutes ((ways.filterMap Way.alternative?).map Prod.fst)
        (ways.filterMap Way.exit?).head? division.determinate (graph.prefer division) := by
  simp only [resolveNode]
  split
  next failed => simp [failed]
  next ways ways_eq =>
    simp only [ways_eq, Except.ok.injEq, exists_and_left, exists_eq_left']
    rw [resolveWays_eq]
    split
    next refused =>
      simp only [Bool.and_eq_true, decide_eq_true_eq] at refused
      simp only [reduceCtorEq, false_iff, not_exists, not_and]
      intro division _ agreed
      have few := (agreed refused.1).1
      omega
    next allowed =>
      simp only [Bool.and_eq_true, decide_eq_true_eq, not_and, Nat.not_lt] at allowed
      simp only [Resolution.noting, resolveAlternatives_eq_ok_iff]
      refine exists_congr fun division => and_congr_right fun _ => and_congr_left fun _ => ?_
      exact forall_congr' fun strict => (and_iff_right (allowed strict)).symm

theorem resolveNode_ok {limits : ResolutionLimits} {frame : Frame} {routes : Routes}
    (resolved : (graph.resolveNode limits frame).result = .ok routes) :
    ∃ ways division, graph.Settles limits frame ways division routes := by
  rcases resolveNode_eq_ok_iff.mp resolved with
    ⟨ways, division, ways_eq, divide_eq, strict, routes_eq⟩
  exact ⟨ways, division, ways_eq, divides_of_divide divide_eq, fun isStrict => (strict isStrict).2,
    routes_eq⟩

/-- A node has routes exactly if it has outgoing edges. -/
theorem resolve_ok {limits : ResolutionLimits} {frame : Frame} {routes? : Option Routes}
    (resolved : (graph.resolve limits frame).result = .ok routes?) :
    (graph.outgoing frame = [] ∧ routes? = none) ∨
      graph.outgoing frame ≠ [] ∧ ∃ routes ways division, routes? = some routes ∧
        graph.Settles limits frame ways division routes := by
  simp only [resolve] at resolved
  split at resolved
  next isEmpty =>
    exact .inl ⟨List.isEmpty_iff.mp isEmpty, (Except.ok.inj resolved).symm⟩
  next notEmpty =>
    have outgoing_ne : graph.outgoing frame ≠ [] := fun none => notEmpty (List.isEmpty_iff.mpr none)
    split at resolved
    next routes routes_eq =>
      rcases resolveNode_ok routes_eq with ⟨ways, division, settles⟩
      exact .inr ⟨outgoing_ne, routes, ways, division, (Except.ok.inj resolved).symm, settles⟩
    · cases resolved

end Graph

theorem Candidate.mem_firstOnes {alternatives : List (Path × MatcherId × Place)}
    {candidate : Candidate} : candidate ∈ Candidate.firstOnes alternatives ↔
      ∃ alternative path matcher next, alternatives[alternative]? = some (path, matcher, next) ∧
        candidate = ⟨alternative, [matcher], some next⟩ := by
  simp only [firstOnes, List.mem_map, Prod.exists, List.mk_mem_zipIdx_iff_getElem?]
  constructor
  · rintro ⟨path, matcher, next, alternative, alternative_eq, rfl⟩
    exact ⟨alternative, path, matcher, next, alternative_eq, rfl⟩
  · rintro ⟨alternative, path, matcher, next, alternative_eq, rfl⟩
    exact ⟨path, matcher, next, alternative, alternative_eq, rfl⟩

theorem Graph.inOrder_firstOnes (alternatives : List (Path × MatcherId × Place)) :
    InOrder (Candidate.firstOnes alternatives) := by
  have numbered : (Candidate.firstOnes alternatives).map Candidate.alternative =
      List.range' 0 alternatives.length := by
    rw [Candidate.firstOnes, List.map_map, ← List.zipIdx_map_snd 0]
    rfl
  have ascending : ((Candidate.firstOnes alternatives).map Candidate.alternative).Pairwise
      (· < ·) := by
    rw [numbered]
    exact List.pairwise_lt_range'
  exact (List.pairwise_map.mp ascending).imp Nat.le_of_lt

/-- A path that consumes and what it leads to: a walk from the node that consumes exactly one code
point, at its end. -/
theorem Way.isTakenFrom_consuming_iff {graph : Graph} {frame : Frame} {path : Path}
    {matcher : MatcherId} {next : Place} :
    (Way.consuming path matcher next).IsTakenFrom graph { top := frame } ↔
      Walk graph [frame] path next.stack ∧
        ∃ silent target, path = silent ++ [.consume matcher target] ∧ Path.matchers silent = [] :=
  Iff.rfl

section FirstOnes

variable {graph : Graph} {frame : Frame} {ways : List Way}

theorem Graph.mem_alternatives_iff_of_ways (ways_eq : graph.ways { top := frame } = .ok ways)
    {path : Path} {matcher : MatcherId} {next : Place} :
    (path, matcher, next) ∈ ways.filterMap Way.alternative? ↔
      (Way.consuming path matcher next).IsTakenFrom graph { top := frame } := by
  rw [List.mem_filterMap, ← mem_ways_iff ways_eq]
  constructor
  · rintro ⟨way, way_mem, way_eq⟩
    cases way with
    | consuming steps other further =>
        cases way_eq
        exact way_mem
    | leaving => cases way_eq
  · intro way_mem
    exact ⟨_, way_mem, rfl⟩

/-- The candidates that dividing begins with stand for the paths of the alternatives. -/
theorem Graph.isFollowed_firstOnes (ways_eq : graph.ways { top := frame } = .ok ways) :
    ∀ candidate ∈ Candidate.firstOnes (ways.filterMap Way.alternative?),
      candidate.IsFollowed graph frame ((ways.filterMap Way.alternative?).map Prod.fst) 1 := by
  intro candidate candidate_mem
  rcases Candidate.mem_firstOnes.mp candidate_mem with
    ⟨alternative, path, matcher, next, alternative_eq, rfl⟩
  have taken := (mem_alternatives_iff_of_ways ways_eq).mp (List.mem_of_getElem? alternative_eq)
  rcases Way.isTakenFrom_consuming_iff.mp taken with ⟨walk, silent, target, path_eq, silent_eq⟩
  refine ⟨⟨path, [], ?_, ?_, ?_⟩, ?_, ?_⟩
  · rw [List.getElem?_map, alternative_eq]
    rfl
  · rw [List.append_nil]
    exact walk
  · simp [path_eq, silent_eq]
  · simp
  · simp

end FirstOnes

/-- The alternative allows the text: some run from the node begins with its path and either
consumes as many code points as a decision may look at, or fewer and then leaves the rule. -/
def Graph.Admits (graph : Graph) (frame : Frame) (maxLookahead : Nat) (path : Path)
    (text : List Char) : Prop :=
  ∃ rest read final, Run graph [frame] (path ++ rest) read final ∧ read <+: text ∧
    (read.length = maxLookahead ∨ (1 ≤ read.length ∧ read.length ≤ maxLookahead ∧ final = []))

namespace Graph.Settles

variable {graph : Graph} {limits : ResolutionLimits} {frame : Frame} {ways : List Way}
  {division : Division} {routes : Routes}

theorem paths_eq (settles : graph.Settles limits frame ways division routes) :
    routes.paths = (ways.filterMap Way.alternative?).map Prod.fst := by
  rw [settles.routes_eq]
  rfl

theorem exit_eq (settles : graph.Settles limits frame ways division routes) :
    routes.exit = (ways.filterMap Way.exit?).head? := by
  rw [settles.routes_eq]
  rfl

theorem determinate_eq (settles : graph.Settles limits frame ways division routes) :
    routes.determinate = division.determinate := by
  rw [settles.routes_eq]
  rfl

theorem horizon_eq (settles : graph.Settles limits frame ways division routes) :
    routes.horizon = (graph.prefer division).horizon := by
  rw [settles.routes_eq]
  rfl

theorem indeterminate_eq (settles : graph.Settles limits frame ways division routes) :
    routes.indeterminate = (graph.prefer division).indeterminate := by
  rw [settles.routes_eq]
  rfl

theorem shadowed_eq (settles : graph.Settles limits frame ways division routes) :
    routes.shadowed = (graph.prefer division).shadowed := by
  rw [settles.routes_eq]
  rfl

theorem levels_eq (settles : graph.Settles limits frame ways division routes) :
    routes.levels = (routes.leveled.map Route.depth).eraseDups := by
  rw [settles.routes_eq]
  rfl

theorem mem_alternatives_iff (settles : graph.Settles limits frame ways division routes)
    {path : Path} {matcher : MatcherId} {next : Place} :
    (path, matcher, next) ∈ ways.filterMap Way.alternative? ↔
      (Way.consuming path matcher next).IsTakenFrom graph { top := frame } :=
  mem_alternatives_iff_of_ways settles.ways_eq

theorem exists_alternative (settles : graph.Settles limits frame ways division routes)
    {alternative : Nat} {path : Path} (path_eq : routes.paths[alternative]? = some path) :
    ∃ matcher next,
      (ways.filterMap Way.alternative?)[alternative]? = some (path, matcher, next) := by
  rw [settles.paths_eq, List.getElem?_map, Option.map_eq_some_iff] at path_eq
  rcases path_eq with ⟨⟨_, matcher, next⟩, alternative_eq, rfl⟩
  exact ⟨matcher, next, alternative_eq⟩

/-- The paths are exactly those that consume one code point, at their end. -/
theorem path_mem_iff (settles : graph.Settles limits frame ways division routes) {path : Path} :
    path ∈ routes.paths ↔ ∃ matcher next,
      (Way.consuming path matcher next).IsTakenFrom graph { top := frame } := by
  rw [settles.paths_eq, List.mem_map]
  constructor
  · rintro ⟨⟨_, matcher, next⟩, alternative_mem, rfl⟩
    exact ⟨matcher, next, settles.mem_alternatives_iff.mp alternative_mem⟩
  · rintro ⟨matcher, next, taken⟩
    exact ⟨(path, matcher, next), settles.mem_alternatives_iff.mpr taken, rfl⟩

theorem isTakenFrom_exit (settles : graph.Settles limits frame ways division routes) {exit : Path}
    (found : routes.exit = some exit) :
    (Way.leaving exit).IsTakenFrom graph { top := frame } := by
  rw [settles.exit_eq] at found
  rcases List.mem_filterMap.mp (List.mem_of_head? found) with ⟨way, way_mem, way_eq⟩
  rw [← mem_ways_iff settles.ways_eq]
  cases way with
  | consuming => cases way_eq
  | leaving steps =>
      cases way_eq
      exact way_mem

/-- A node without an exit cannot leave its rule without consuming something. -/
theorem not_isTakenFrom_of_exit_none (settles : graph.Settles limits frame ways division routes)
    (missing : routes.exit = none) (steps : Path) :
    ¬(Way.leaving steps).IsTakenFrom graph { top := frame } := by
  intro taken
  rw [settles.exit_eq, List.head?_eq_none_iff] at missing
  have exit_mem : steps ∈ ways.filterMap Way.exit? :=
    List.mem_filterMap.mpr ⟨_, (mem_ways_iff settles.ways_eq).mpr taken, rfl⟩
  simp [missing] at exit_mem

theorem firstOnes_isFollowed (settles : graph.Settles limits frame ways division routes) :
    ∀ candidate ∈ Candidate.firstOnes (ways.filterMap Way.alternative?),
      candidate.IsFollowed graph frame routes.paths 1 := by
  rw [settles.paths_eq]
  exact isFollowed_firstOnes settles.ways_eq

theorem overlapping_isFollowed (settles : graph.Settles limits frame ways division routes) :
    ∀ last ∈ division.overlapping, last.IsFollowed graph frame routes.paths division.depth :=
  (settles.divides.isFollowed settles.firstOnes_isFollowed).2

/-- What is shadowed is an alternative that overlaps, and thus one of the paths. -/
theorem exists_path_of_mem_shadowed (settles : graph.Settles limits frame ways division routes)
    {alternative : Nat} (alternative_mem : alternative ∈ (graph.prefer division).shadowed) :
    ∃ path, routes.paths[alternative]? = some path := by
  rcases (mem_shadowed_iff.mp alternative_mem).1 with ⟨last, last_mem, rfl⟩
  rcases (settles.overlapping_isFollowed last last_mem).walk with ⟨path, _, path_eq, _⟩
  exact ⟨path, path_eq⟩

theorem horizon_subset (settles : graph.Settles limits frame ways division routes) {route : Route}
    (route_mem : route ∈ routes.horizon) :
    ∃ last ∈ division.overlapping, last.toRoute division.depth = route := by
  rw [settles.horizon_eq] at route_mem
  rcases prefer_cases graph division with ⟨_, horizon_eq⟩ | ⟨_, _, _, horizon_eq, _⟩
  · rw [horizon_eq] at route_mem
    rcases List.mem_map.mp route_mem with ⟨last, last_mem, rfl⟩
    exact ⟨last, (survivors_sublist _).mem last_mem, rfl⟩
  · simp [horizon_eq] at route_mem

theorem horizon_ascending (settles : graph.Settles limits frame ways division routes) :
    routes.horizon.Pairwise fun earlier later => earlier.alternative ≤ later.alternative := by
  rw [settles.horizon_eq]
  rcases prefer_cases graph division with ⟨_, horizon_eq⟩ | ⟨_, _, _, horizon_eq, _⟩
  · rw [horizon_eq, List.pairwise_map]
    exact List.Pairwise.sublist (survivors_sublist _)
      (settles.divides.inOrder (inOrder_firstOnes _))
  · rw [horizon_eq]
    exact .nil

/-- Every route that waits for its symbols stands for a walk. -/
theorem leveled_isFollowed (settles : graph.Settles limits frame ways division routes)
    {route : Route} (route_mem : route ∈ routes.leveled) :
    ∃ candidate : Candidate, candidate.IsFollowed graph frame routes.paths route.depth ∧
      candidate.toRoute route.depth = route := by
  have followed := settles.divides.isFollowed settles.firstOnes_isFollowed
  rcases List.mem_append.mp route_mem with determinate_mem | horizon_mem
  · rw [settles.determinate_eq] at determinate_mem
    exact followed.1 route determinate_mem
  · rcases settles.horizon_subset horizon_mem with ⟨last, last_mem, rfl⟩
    exact ⟨last, followed.2 last last_mem, rfl⟩

theorem indeterminate_cases (settles : graph.Settles limits frame ways division routes)
    {route : Route} (found : routes.indeterminate = some route) :
    ∃ first ∈ graph.survivors division.overlapping,
      (∀ survivor ∈ graph.survivors division.overlapping,
        survivor.alternative = first.alternative) ∧
      routes.horizon = [] ∧ route = ⟨1, first.lookahead.take 1, true, first.alternative⟩ := by
  rw [settles.indeterminate_eq] at found
  rw [settles.horizon_eq]
  rcases prefer_cases graph division with
    ⟨missing, _⟩ | ⟨first, first_mem, alone, horizon_eq, indeterminate_eq⟩
  · simp [missing] at found
  · rw [indeterminate_eq, Option.some.injEq] at found
    exact ⟨first, first_mem, alone, horizon_eq, found.symm⟩

theorem matcher?_of_mem_paths (settles : graph.Settles limits frame ways division routes)
    {path : Path} (path_mem : path ∈ routes.paths) :
    ∃ matcher, Path.matcher? path = some matcher ∧ Path.matchers path = [matcher] := by
  rcases settles.path_mem_iff.mp path_mem with ⟨matcher, next, taken⟩
  rcases Way.isTakenFrom_consuming_iff.mp taken with ⟨_, silent, target, rfl, silent_eq⟩
  exact ⟨matcher, by simp [Path.matcher?], by simp [silent_eq]⟩

theorem path_matchers (settles : graph.Settles limits frame ways division routes) {path : Path}
    (path_mem : path ∈ routes.paths) : ∃ matcher, Path.matchers path = [matcher] := by
  rcases settles.matcher?_of_mem_paths path_mem with ⟨matcher, _, matchers_eq⟩
  exact ⟨matcher, matchers_eq⟩

theorem begins_of_isFollowed (settles : graph.Settles limits frame ways division routes)
    {depth : Nat} {candidate : Candidate}
    (followed : candidate.IsFollowed graph frame routes.paths depth) :
    ∃ path matcher rest, routes.paths[candidate.alternative]? = some path ∧
      Path.matchers path = [matcher] ∧ candidate.lookahead = matcher :: rest := by
  rcases followed.walk with ⟨path, rest, path_eq, _, matchers_eq⟩
  rcases settles.path_matchers (List.mem_of_getElem? path_eq) with ⟨matcher, path_matchers⟩
  refine ⟨path, matcher, Path.matchers rest, path_eq, path_matchers, ?_⟩
  rw [← matchers_eq, Path.matchers_append, path_matchers]
  rfl

/-- Every route looks first at the code point that its path consumes. -/
theorem route_begins (settles : graph.Settles limits frame ways division routes)
    {route : Route} (route_mem : route ∈ routes.all) :
    ∃ path matcher rest, routes.paths[route.alternative]? = some path ∧
      Path.matchers path = [matcher] ∧ route.lookahead = matcher :: rest := by
  rcases List.mem_append.mp route_mem with leveled_mem | indeterminate_mem
  · rcases settles.leveled_isFollowed leveled_mem with ⟨candidate, followed, route_eq⟩
    have begins := settles.begins_of_isFollowed followed
    rw [← route_eq]
    exact begins
  · rw [Option.mem_toList] at indeterminate_mem
    rcases settles.indeterminate_cases indeterminate_mem with ⟨first, first_mem, _, _, rfl⟩
    have followed := settles.overlapping_isFollowed first ((survivors_sublist _).mem first_mem)
    rcases settles.begins_of_isFollowed followed with
      ⟨path, matcher, rest, path_eq, path_matchers, lookahead_eq⟩
    refine ⟨path, matcher, [], path_eq, path_matchers, ?_⟩
    simp [lookahead_eq]

theorem mem_levels (settles : graph.Settles limits frame ways division routes) {route : Route}
    (route_mem : route ∈ routes.leveled) : route.depth ∈ routes.levels := by
  rw [settles.levels_eq, List.mem_eraseDups]
  exact List.mem_map_of_mem route_mem

theorem leveled_ascending (settles : graph.Settles limits frame ways division routes) :
    (routes.leveled.map Route.depth).Pairwise (· ≤ ·) := by
  have depths := settles.divides.depths
  have horizon_depth : ∀ route ∈ routes.horizon, route.depth = division.depth := by
    intro route route_mem
    rcases settles.horizon_subset route_mem with ⟨last, _, rfl⟩
    rfl
  rw [List.pairwise_map, Routes.leveled, List.pairwise_append, settles.determinate_eq]
  refine ⟨depths.2, List.pairwise_of_forall_mem_list ?_, ?_⟩
  · intro first first_mem second second_mem
    have first_eq := horizon_depth first first_mem
    have second_eq := horizon_depth second second_mem
    omega
  · intro first first_mem second second_mem
    rw [horizon_depth second second_mem]
    exact (depths.1 first first_mem).2

theorem levels_ascending (settles : graph.Settles limits frame ways division routes) :
    routes.levels.Pairwise (· < ·) := by
  rw [settles.levels_eq]
  exact pairwise_lt_eraseDups settles.leveled_ascending

/-- No route looks at more symbols than allowed. -/
theorem depth_le (settles : graph.Settles limits frame ways division routes)
    (positive : 1 ≤ limits.maxLookahead) {depth : Nat} (depth_mem : depth ∈ routes.levels) :
    depth ≤ limits.maxLookahead := by
  have division_le := settles.divides.depth_le.2
  rw [settles.levels_eq, List.mem_eraseDups] at depth_mem
  rcases List.mem_map.mp depth_mem with ⟨route, route_mem, rfl⟩
  rcases List.mem_append.mp route_mem with determinate_mem | horizon_mem
  · rw [settles.determinate_eq] at determinate_mem
    have route_le := (settles.divides.depths.1 route determinate_mem).2
    omega
  · rcases settles.horizon_subset horizon_mem with ⟨last, _, rfl⟩
    simp only [Candidate.toRoute]
    omega

/-- A route is only tested when as many symbols wait as it looks at. -/
theorem lookahead_length_le (settles : graph.Settles limits frame ways division routes)
    {route : Route} (route_mem : route ∈ routes.leveled) :
    route.lookahead.length ≤ route.depth := by
  rcases settles.leveled_isFollowed route_mem with ⟨candidate, followed, route_eq⟩
  have length_le := followed.length_le
  rw [← route_eq]
  exact length_le

/-- An overlapping candidate that fits a text stands for an alternative that allows it. -/
theorem admits_of_fits (settles : graph.Settles limits frame ways division routes)
    (positive : 1 ≤ limits.maxLookahead) {last : Candidate} (last_mem : last ∈ division.overlapping)
    {text : List Char} (fits : graph.Fits last.lookahead text) :
    ∃ path, routes.paths[last.alternative]? = some path ∧
      graph.Admits frame limits.maxLookahead path text := by
  have followed := settles.overlapping_isFollowed last last_mem
  have depth_le := settles.divides.depth_le.2
  rcases settles.begins_of_isFollowed followed with ⟨_, matcher, others, _, _, lookahead_eq⟩
  rcases followed.walk with ⟨path, rest, path_eq, walk, matchers_eq⟩
  rcases fits with ⟨read, readPrefix, spells⟩
  have read_length := spells.length_eq
  have length_le := followed.length_le
  refine ⟨path, path_eq, rest, read, last.stack, Run.iff_walk.mpr ⟨walk, ?_⟩, readPrefix, ?_⟩
  · rw [matchers_eq]
    exact spells
  · cases next_eq : last.next with
    | none =>
        have stack_eq : last.stack = [] := by simp [Candidate.stack, next_eq]
        refine .inr ⟨?_, by omega, stack_eq⟩
        rw [← read_length, lookahead_eq]
        simp
    | some place =>
        have full : last.lookahead.length = division.depth := followed.length_eq (by simp [next_eq])
        rcases settles.divides.ended with allLeft | depth_eq
        · simp [allLeft last last_mem] at next_eq
        · exact .inl (by omega)

/-- A text that an alternative allows is represented when dividing ends. -/
theorem represents (settles : graph.Settles limits frame ways division routes)
    (positive : 1 ≤ limits.maxLookahead) {alternative : Nat} {path : Path} {text : List Char}
    (path_eq : routes.paths[alternative]? = some path)
    (admits : graph.Admits frame limits.maxLookahead path text) :
    (∀ route ∈ division.determinate, graph.Fits route.lookahead text →
      route.alternative = alternative) ∧
    ((∃ route ∈ division.determinate, route.alternative = alternative ∧
        graph.Fits route.lookahead text ∧ ∀ last ∈ division.overlapping,
          graph.Fits last.lookahead text → last.alternative = alternative) ∨
      ∃ last ∈ division.overlapping, last.alternative = alternative ∧
        graph.Fits last.lookahead text) := by
  rcases admits with ⟨rest, read, final, run, readPrefix, extent⟩
  rcases Run.iff_walk.mp run with ⟨walk, spells⟩
  have fits := spells.fits readPrefix
  rcases settles.exists_alternative path_eq with ⟨matcher, next, alternative_eq⟩
  have taken := settles.mem_alternatives_iff.mp (List.mem_of_getElem? alternative_eq)
  rcases Way.isTakenFrom_consuming_iff.mp taken with ⟨pathWalk, silent, target, path_eq, silent_eq⟩
  have first_mem : ⟨alternative, [matcher], some next⟩ ∈
      Candidate.firstOnes (ways.filterMap Way.alternative?) :=
    Candidate.mem_firstOnes.mpr ⟨alternative, path, matcher, next, alternative_eq, rfl⟩
  have liesOn : Candidate.LiesOn graph (path ++ rest) final
      ⟨alternative, [matcher], some next⟩ := by
    rcases Walk.append_iff.mp walk with ⟨middle, before, after⟩
    obtain rfl := before.final_unique pathWalk
    refine ⟨rest, after, ?_⟩
    rw [Path.matchers_append, path_eq]
    simp [silent_eq]
  have reaches : 1 + (limits.maxLookahead - 1) ≤ (Path.matchers (path ++ rest)).length ∨
      final = [] := by
    rw [spells.length_eq]
    rcases extent with full | ⟨_, _, left⟩
    · exact .inl (by omega)
    · exact .inr left
  rcases settles.divides.represents settles.firstOnes_isFollowed first_mem liesOn reaches fits with
    ⟨apart, determined | ⟨last, last_mem, last_eq, lastLiesOn⟩⟩
  · exact ⟨apart, .inl determined⟩
  · exact ⟨apart, .inr ⟨last, last_mem, last_eq,
      fits.of_lookaheadPrefix lastLiesOn.lookahead_isPrefix⟩⟩

end Graph.Settles

namespace Graph

variable {graph : Graph}

theorem resolutionFaults_eq_nil {resolutions : List (Resolution (Option Routes))}
    (clean : resolutionFaults resolutions = []) {resolution : Resolution (Option Routes)}
    (resolution_mem : resolution ∈ resolutions) :
    resolution.result = .ok (decision resolution) := by
  have unfaulty := List.filterMap_eq_nil_iff.mp clean resolution resolution_mem
  cases result_eq : resolution.result with
  | error fault => simp [result_eq] at unfaulty
  | ok routes => simp [decision, result_eq]

theorem resolveRule_getElem? {limits : ResolutionLimits} {id : RuleId} {rule : Rule}
    {node : NodeId} : (graph.resolveRule limits id rule)[node]? =
      if node < rule.nodes.size then some (graph.resolve limits ⟨id, node⟩) else none := by
  by_cases inside : node < rule.nodes.size
  · simp [resolveRule, inside]
  · simp [resolveRule, inside]

theorem resolve_mem_resolveAll {limits : ResolutionLimits} {frame : Frame} {rule : Rule}
    (rule_eq : graph.rules[frame.rule]? = some rule) (inside : frame.node < rule.nodes.size) :
    graph.resolve limits frame ∈ ((graph.resolveAll limits).map Array.toList).toList.flatten := by
  have resolved : (graph.resolveAll limits)[frame.rule]? =
      some (graph.resolveRule limits frame.rule rule) := by
    simp [resolveAll, Array.getElem?_mapIdx, rule_eq]
  have found : (graph.resolveRule limits frame.rule rule)[frame.node]? =
      some (graph.resolve limits frame) := by
    simp [resolveRule_getElem?, inside]
  rw [List.mem_flatten]
  refine ⟨(graph.resolveRule limits frame.rule rule).toList, ?_, ?_⟩
  · rw [Array.toList_map]
    exact List.mem_map_of_mem (Array.mem_def.mp (Array.mem_of_getElem? resolved))
  · exact Array.mem_def.mp (Array.mem_of_getElem? found)

theorem exists_rule_of_outgoing {frame : Frame} (goesOn : graph.outgoing frame ≠ []) :
    ∃ rule, graph.rules[frame.rule]? = some rule ∧ frame.node < rule.nodes.size := by
  cases rule_eq : graph.rules[frame.rule]? with
  | none => simp [outgoing, rule_eq] at goesOn
  | some rule =>
      refine ⟨rule, rfl, ?_⟩
      by_contra outside
      apply goesOn
      simp [outgoing, rule_eq, Rule.outgoing, Nat.le_of_not_lt outside]

/-- The resolutions of all nodes, as a list of lists. -/
theorem resolveAll_toList (graph : Graph) (limits : ResolutionLimits) :
    ((graph.resolveAll limits).map Array.toList).toList =
      graph.rules.toList.zipIdx.map fun (rule, id) =>
        (List.range rule.nodes.size).map fun node => graph.resolve limits ⟨id, node⟩ := by
  simp [resolveAll, resolveRule, List.mapIdx_eq_zipIdx_map, Function.comp_def]

theorem exists_node_of_mem_resolveAll {limits : ResolutionLimits}
    {resolution : Resolution (Option Routes)}
    (resolution_mem : resolution ∈ ((graph.resolveAll limits).map Array.toList).toList.flatten) :
    ∃ frame, (∃ rule, graph.rules[frame.rule]? = some rule ∧ frame.node < rule.nodes.size) ∧
      resolution = graph.resolve limits frame := by
  rw [resolveAll_toList, List.mem_flatten] at resolution_mem
  rcases resolution_mem with ⟨table, table_mem, resolution_mem⟩
  rcases List.mem_map.mp table_mem with ⟨⟨rule, id⟩, rule_mem, rfl⟩
  rcases List.mem_map.mp resolution_mem with ⟨node, node_mem, rfl⟩
  refine ⟨⟨id, node⟩, ⟨rule, ?_, List.mem_range.mp node_mem⟩, rfl⟩
  simpa [List.mk_mem_zipIdx_iff_getElem?] using rule_mem

end Graph

/-- What is decided in a grammar: nothing where a rule ends, and at every other node what resolving
it came to. -/
structure Grammar.IsResolved (grammar : Grammar) (limits : ResolutionLimits) : Prop where
  positive : 1 ≤ limits.maxLookahead
  decided : ∀ frame, (grammar.outgoing frame = [] ∧ grammar.routes? frame = none) ∨
    grammar.outgoing frame ≠ [] ∧ ∃ routes ways division, grammar.routes? frame = some routes ∧
      grammar.Settles limits frame ways division routes

theorem Grammar.IsResolved.exists_settles {grammar : Grammar} {limits : ResolutionLimits}
    (resolved : grammar.IsResolved limits) {frame : Frame} {routes : Routes}
    (routes_eq : grammar.routes? frame = some routes) :
    ∃ ways division, grammar.Settles limits frame ways division routes := by
  rcases resolved.decided frame with
    ⟨_, missing⟩ | ⟨_, found, ways, division, found_eq, settles⟩
  · rw [routes_eq] at missing
    cases missing
  · obtain rfl : routes = found := Option.some.inj (routes_eq.symm.trans found_eq)
    exact ⟨ways, division, settles⟩

/-- The grammar that is built from a graph, without any decisions if it cannot be built. -/
def Graph.builtGrammar (graph : Graph) (config : GrammarConfig) : Grammar :=
  match (graph.build config).result with
  | .ok grammar => grammar
  | .error _ => { graph with start := 0, maxLookahead := 0, tables := #[] }

theorem Graph.build_eq_builtGrammar {graph : Graph} {config : GrammarConfig}
    (isOk : (graph.build config).result.isOk = true) :
    (graph.build config).result = .ok (graph.builtGrammar config) := by
  cases built : (graph.build config).result with
  | error faults =>
      rw [built] at isOk
      cases isOk
  | ok grammar => simp [builtGrammar, built]

theorem Graph.one_le_maxLookahead_of_faultless {graph : Graph} {config : GrammarConfig}
    (faultless : graph.initialFaults config = []) : 1 ≤ config.maxLookahead := by
  simp only [initialFaults, List.append_eq_nil_iff] at faultless
  have lookahead := faultless.1.1
  split at lookahead
  · cases lookahead
  · omega

/-- The graph with a start rule and what is decided at each node, as far as that can be resolved. -/
def Graph.resolvedGrammar (graph : Graph) (config : GrammarConfig) (start : RuleId) : Grammar :=
  { graph with
    start
    maxLookahead := config.maxLookahead
    tables := (graph.resolveAll ⟨config.maxLookahead, config.strict⟩).map (·.map decision) }

theorem Graph.routes?_resolvedGrammar (graph : Graph) (config : GrammarConfig) (start : RuleId)
    (frame : Frame) : (graph.resolvedGrammar config start).routes? frame =
      decision (graph.resolve ⟨config.maxLookahead, config.strict⟩ frame) := by
  simp only [resolvedGrammar, Grammar.routes?, resolveAll, Array.getElem?_map,
    Array.getElem?_mapIdx]
  cases rule_eq : graph.rules[frame.rule]? with
  | none => simp [resolve, outgoing, rule_eq, decision]
  | some rule =>
      simp only [Option.map_some, Array.getElem?_map, resolveRule_getElem?]
      by_cases inside : frame.node < rule.nodes.size
      · simp [inside]
      · simp [inside, resolve, outgoing, Rule.outgoing, rule_eq, decision]

/-- A grammar can be built from a graph exactly if nothing is wrong with its names and references
and every node can be resolved. -/
theorem Graph.build_eq_ok_iff {graph : Graph} {config : GrammarConfig} {grammar : Grammar} :
    (graph.build config).result = .ok grammar ↔ graph.initialFaults config = [] ∧
      ∃ start, graph.ruleByName? config.start = some start ∧
        (∀ frame, ∃ routes?,
          (graph.resolve ⟨config.maxLookahead, config.strict⟩ frame).result = .ok routes?) ∧
        grammar = graph.resolvedGrammar config start := by
  simp only [build]
  split
  next start faultless start_eq =>
    have clean_iff : resolutionFaults ((graph.resolveAll ⟨config.maxLookahead, config.strict⟩).map
        Array.toList).toList.flatten = [] ↔ ∀ frame, ∃ routes?,
          (graph.resolve ⟨config.maxLookahead, config.strict⟩ frame).result = .ok routes? := by
      constructor
      · intro clean frame
        by_cases goesOn : graph.outgoing frame = []
        · exact ⟨none, by simp [resolve, goesOn]⟩
        · rcases exists_rule_of_outgoing goesOn with ⟨rule, rule_eq, inside⟩
          exact ⟨_, resolutionFaults_eq_nil clean (resolve_mem_resolveAll rule_eq inside)⟩
      · intro resolved
        apply List.filterMap_eq_nil_iff.mpr
        intro resolution resolution_mem
        rcases exists_node_of_mem_resolveAll resolution_mem with ⟨frame, _, rfl⟩
        rcases resolved frame with ⟨routes?, result_eq⟩
        rw [result_eq]
    simp only [buildFrom, faultless, start_eq, Option.some.injEq, exists_eq_left', true_and,
      ← clean_iff]
    split
    next clean =>
      simp only [clean, true_and, Except.ok.injEq]
      exact eq_comm
    next _ _ faults_ne =>
      simp only [reduceCtorEq, false_iff, not_and]
      intro clean
      exact (faults_ne clean).elim
  next notReady =>
    simp only [reduceCtorEq, false_iff, not_and, not_exists]
    intro faultless start start_eq
    exact (notReady start faultless start_eq).elim

/-- A grammar that was built is its graph with everything resolved. -/
theorem Graph.build_ok {graph : Graph} {config : GrammarConfig} {grammar : Grammar}
    (built : (graph.build config).result = .ok grammar) :
    grammar.toGraph = graph ∧ grammar.IsResolved ⟨config.maxLookahead, config.strict⟩ := by
  rcases build_eq_ok_iff.mp built with ⟨faultless, start, _, resolved, rfl⟩
  refine ⟨rfl, one_le_maxLookahead_of_faultless faultless, ?_⟩
  intro frame
  rcases resolved frame with ⟨routes?, result_eq⟩
  rw [routes?_resolvedGrammar, decision, result_eq]
  exact resolve_ok result_eq

end StreamGrammar
