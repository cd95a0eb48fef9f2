import StreamGrammar.Proofs.Decisions
import StreamGrammar.Proofs.WayOrder

/-!
# Tables of routes

Resolving a node leaves a table behind: routes of several depths, and what the order of
declaration decides. Decisions take from it whatever is fulfilled first. Two things make
that right. Routes that dividing told apart from all others stay apart from whatever the
others become in later rounds, so that it does not matter in which order they are tested.
And no alternative is lost on the way, since a candidate that is followed always goes on
somewhere: each one is selected by some route, or the table says that it is shadowed.
-/

namespace StreamGrammar

namespace Symbol

/-- The code points that a stream of symbols begins with, at most so many, and none after the end
of the input. -/
def leadingText : (stream : Nat → Symbol) → (count : Nat) → List Char
  | _, 0 => []
  | stream, count + 1 =>
      match stream 0 with
      | .char character => character :: leadingText (fun position => stream (position + 1)) count
      | .endOfInput => []

end Symbol

namespace Routes

/-- The same routes to the same paths, with the levels in any order, and the routes of each level
too. -/
structure IsReorderingOf (reordered routes : Routes) : Prop where
  paths_eq : reordered.paths = routes.paths
  leveled : reordered.leveled.Perm routes.leveled
  levels : reordered.levels.Perm routes.levels

/-- What decisions rely on in a table, for lookahead up to some limit. -/
structure IsWellFormed (maxLookahead : Nat) (routes : Routes) : Prop where
  nonempty : ∀ route ∈ routes.leveled, 1 ≤ route.lookahead.length
  length_le : ∀ route ∈ routes.leveled, route.lookahead.length ≤ route.depth
  depth_le : ∀ route ∈ routes.leveled, route.depth ≤ maxLookahead
  isOpen_iff : ∀ route ∈ routes.leveled,
    route.isOpen = true ↔ route.lookahead.length < route.depth
  begins : ∀ route ∈ routes.leveled,
    route.lookahead.head? = routes.paths[route.alternative]?.bind Path.matcher?
  levels_ascending : routes.levels.Pairwise (· < ·)
  mem_levels_iff : ∀ depth, depth ∈ routes.levels ↔ ∃ route ∈ routes.leveled, route.depth = depth
  horizon_ascending : routes.horizon.Pairwise fun earlier later =>
    earlier.alternative ≤ later.alternative
  horizon_level : ∀ first ∈ routes.horizon, ∀ second ∈ routes.horizon, first.depth = second.depth
  horizon_or_indeterminate : routes.horizon = [] ∨ routes.indeterminate = none
  alternative_lt : ∀ route ∈ routes.all, route.alternative < routes.paths.length
  shadowed_lt : ∀ alternative ∈ routes.shadowed, alternative < routes.paths.length
  shadowed_ascending : routes.shadowed.Pairwise (· < ·)
  /-- Every alternative has a route or is shadowed, and none is both. -/
  shadowed_iff : ∀ alternative < routes.paths.length,
    alternative ∈ routes.shadowed ↔ ¬∃ route ∈ routes.all, route.alternative = alternative

end Routes

namespace Lookahead

theorem front?_ne_endOfInput_of_selects {graph : Graph} {lookahead : Lookahead} {route : Route}
    {matcher : MatcherId} {rest : List MatcherId} (lookahead_eq : route.lookahead = matcher :: rest)
    (selects : route.selects graph lookahead.symbolAt = true) :
    lookahead.front? ≠ some .endOfInput := by
  intro ended
  have first_eq : lookahead.symbolAt 0 = .endOfInput := by
    cases symbols_eq : lookahead.symbols with
    | nil => simp [front?, symbols_eq] at ended
    | cons symbol others =>
        have symbol_eq : symbol = .endOfInput := by simpa [front?, symbols_eq] using ended
        simp [symbolAt, get?, symbols_eq, symbol_eq]
  rw [Route.selects, lookahead_eq, List.zipIdx_cons, List.all_cons, Bool.and_eq_true] at selects
  have accepted : graph.accepts matcher (lookahead.symbolAt 0) = true := selects.1
  simp [first_eq, Graph.not_accepts_endOfInput] at accepted

end Lookahead

namespace Candidate

/-- The candidate represents a walk. If it has left the rule, it looks at fewer code points than it
has been followed for. -/
structure IsTracked (graph : Graph) (frame : Frame) (paths : List Path) (depth : Nat)
    (candidate : Candidate) : Prop extends candidate.IsFollowed graph frame paths depth where
  length_lt : candidate.next = none → candidate.lookahead.length < depth

namespace IsTracked

variable {graph : Graph} {frame : Frame} {paths : List Path} {depth : Nat}
  {candidate continued : Candidate}

theorem continues (tracked : candidate.IsTracked graph frame paths depth)
    (continues : candidate.Continues graph continued) :
    continued.IsTracked graph frame paths (depth + 1) := by
  refine ⟨continues.isFollowed tracked.toIsFollowed, ?_⟩
  intro left
  have length_le := tracked.length_le
  cases continues with
  | stays => omega
  | @follows _ way =>
      cases way with
      | consuming => cases left
      | leaving =>
          simp only [follow]
          omega

theorem isOpen_iff (tracked : candidate.IsTracked graph frame paths depth) :
    candidate.isOpen = true ↔ candidate.lookahead.length < depth := by
  rw [isOpen, Option.isNone_iff_eq_none]
  refine ⟨tracked.length_lt, ?_⟩
  intro shorter
  cases next_eq : candidate.next with
  | none => rfl
  | some place =>
      have length_eq := tracked.length_eq (by simp [next_eq])
      omega

end IsTracked

end Candidate

namespace Graph

variable {graph : Graph}

theorem decide_of_front?_ne {lookahead : Lookahead} {routes : Routes}
    (unended : lookahead.front? ≠ some .endOfInput) :
    graph.decide lookahead routes = graph.decideLevels lookahead routes routes.levels := by
  simp only [decide]
  split
  next ended _ => exact (unended ended).elim
  next => rfl

/-- Matchers accept the symbols of a stream from some position on if they fit the text there. -/
theorem fits_leadingText_iff {lookahead : List MatcherId} {stream : Nat → Symbol}
    {count position : Nat} (long : lookahead.length ≤ count) :
    (lookahead.zipIdx position).all (fun (matcher, index) =>
      graph.accepts matcher (stream index)) = true ↔
        graph.Fits lookahead
          (Symbol.leadingText (fun index => stream (index + position)) count) := by
  induction lookahead generalizing position count with
  | nil => simp
  | cons matcher rest ih =>
      cases count with
      | zero => simp at long
      | succ count =>
          have further : (fun index => stream (index + 1 + position)) =
              fun index => stream (index + (position + 1)) := by
            funext index
            rw [Nat.add_right_comm, Nat.add_assoc]
          rw [List.zipIdx_cons, List.all_cons, Bool.and_eq_true,
            ih (Nat.le_of_succ_le_succ long), Symbol.leadingText, Nat.zero_add, further]
          cases stream_eq : stream position with
          | char character => simp only [stream_eq, fits_cons_cons]
          | endOfInput => simp [stream_eq, not_accepts_endOfInput]

theorem selects_iff_fits {route : Route} {stream : Nat → Symbol} {count : Nat}
    (long : route.lookahead.length ≤ count) :
    route.selects graph stream = true ↔
      graph.Fits route.lookahead (Symbol.leadingText stream count) :=
  fits_leadingText_iff long

section Divisions

variable {remaining depth : Nat} {candidates : List Candidate} {division : Division}

namespace Divides

theorem alternative_eq_of_distinct (divides : graph.Divides remaining depth candidates division)
    {route : Route} (route_mem : route ∈ graph.distinctRoutes depth candidates)
    {text : List Char} (fits : graph.Fits route.lookahead text) :
    (∀ other ∈ division.determinate, graph.Fits other.lookahead text →
      other.alternative = route.alternative) ∧
    ∀ last ∈ division.overlapping, graph.Fits last.lookahead text →
      last.alternative = route.alternative := by
  rcases mem_distinctRoutes.mp route_mem with ⟨candidate, candidate_mem, distinct, rfl⟩
  rcases divides.represents_of_isDistinct candidate_mem distinct fits with
    ⟨apart, _, _, _, _, lastApart⟩
  exact ⟨apart, lastApart⟩

/-- No text fits a route and anything of another alternative that dividing results in. -/
theorem alternative_eq_of_fits (divides : graph.Divides remaining depth candidates division)
    {route : Route} (route_mem : route ∈ division.determinate) {text : List Char}
    (fits : graph.Fits route.lookahead text) :
    (∀ other ∈ division.determinate, graph.Fits other.lookahead text →
      other.alternative = route.alternative) ∧
    ∀ last ∈ division.overlapping, graph.Fits last.lookahead text →
      last.alternative = route.alternative := by
  induction divides with
  | stops ended => exact (Divides.stops ended).alternative_eq_of_distinct route_mem fits
  | goesOn followed further ih =>
      have whole := Divides.goesOn followed further
      rcases List.mem_append.mp route_mem with early_mem | late_mem
      · exact whole.alternative_eq_of_distinct early_mem fits
      · rcases ih late_mem with ⟨apart, lastApart⟩
        refine ⟨?_, lastApart⟩
        intro other other_mem otherFits
        rcases List.mem_append.mp other_mem with early_mem | otherLate_mem
        · -- The two were never compared, but the later one goes on from a candidate that the
          -- earlier one was told apart from.
          have earlyApart := (whole.alternative_eq_of_distinct early_mem otherFits).1
          exact (earlyApart route (List.mem_append_right _ late_mem) fits).symm
        · exact apart other otherLate_mem otherFits

end Divides

theorem Divides.isTracked {frame : Frame} {paths : List Path}
    (divides : graph.Divides remaining depth candidates division)
    (tracked : ∀ candidate ∈ candidates, candidate.IsTracked graph frame paths depth) :
    (∀ route ∈ division.determinate, ∃ candidate : Candidate,
      candidate.IsTracked graph frame paths route.depth ∧ candidate.toRoute route.depth = route) ∧
    ∀ last ∈ division.overlapping, last.IsTracked graph frame paths division.depth :=
  divides.preserves tracked Candidate.IsTracked.continues

theorem continuations_ne_nil {candidate : Candidate} {continued : List Candidate}
    (found : graph.continuations candidate = .ok continued) : continued ≠ [] := by
  simp only [continuations] at found
  split at found
  next =>
    cases found
    simp
  next place _ =>
    rcases exists_ok_of_bind_eq_ok found with ⟨ways, ways_eq, found⟩
    cases found
    simpa using waysWithin_ne_nil ways_eq

theorem exists_continues_of_followAll {continued : List Candidate}
    (found : graph.followAll candidates = .ok continued) {candidate : Candidate}
    (candidate_mem : candidate ∈ candidates) :
    ∃ next ∈ continued, candidate.Continues graph next := by
  have mem_continued := (followAll_ok found).1
  rcases exists_ok_of_bind_eq_ok found with ⟨all, all_eq, _⟩
  rcases exists_lists_of_flatMapM_eq_ok all_eq with ⟨list, list_eq, _⟩
  have followed := list_eq candidate candidate_mem
  rcases List.exists_mem_of_ne_nil _ (continuations_ne_nil followed) with ⟨next, next_mem⟩
  have continues := (continuations_ok followed next).mp next_mem
  exact ⟨next, (mem_continued next).mpr ⟨candidate, candidate_mem, continues⟩, continues⟩

/-- Whatever alternative there is a candidate for at first is in the result. -/
theorem Divides.keeps_alternative (divides : graph.Divides remaining depth candidates division)
    {candidate : Candidate} (candidate_mem : candidate ∈ candidates) :
    (∃ route ∈ division.determinate, route.alternative = candidate.alternative) ∨
      ∃ last ∈ division.overlapping, last.alternative = candidate.alternative := by
  induction divides generalizing candidate with
  | @stops _ depth candidates _ =>
      cases distinct : graph.isDistinct candidates candidate with
      | true =>
          left
          exact ⟨candidate.toRoute depth,
            mem_distinctRoutes.mpr ⟨candidate, candidate_mem, distinct, rfl⟩, rfl⟩
      | false =>
          right
          exact ⟨candidate, mem_overlappingOnes.mpr ⟨candidate_mem, distinct⟩, rfl⟩
  | @goesOn _ depth candidates _ _ followed _ ih =>
      cases distinct : graph.isDistinct candidates candidate with
      | true =>
          left
          refine ⟨candidate.toRoute depth, List.mem_append_left _ ?_, rfl⟩
          exact mem_distinctRoutes.mpr ⟨candidate, candidate_mem, distinct, rfl⟩
      | false =>
          -- What takes the place of the candidate is of its alternative, and is divided further.
          rcases exists_continues_of_followAll followed
            (mem_overlappingOnes.mpr ⟨candidate_mem, distinct⟩) with ⟨next, next_mem, continues⟩
          rw [← continues.alternative_eq]
          refine (ih next_mem).imp_left ?_
          rintro ⟨route, route_mem, route_eq⟩
          exact ⟨route, List.mem_append_right _ route_mem, route_eq⟩

end Divisions

namespace Settles

variable {limits : ResolutionLimits} {frame : Frame} {ways : List Way} {division : Division}
  {routes : Routes} {alternative : Nat}

/-- No text fits a determinate route and any other route of another alternative. -/
theorem alternative_eq_of_fits (settles : graph.Settles limits frame ways division routes)
    {route other : Route} (route_mem : route ∈ routes.determinate)
    (other_mem : other ∈ routes.leveled) {text : List Char}
    (fits : graph.Fits route.lookahead text) (otherFits : graph.Fits other.lookahead text) :
    other.alternative = route.alternative := by
  rw [settles.determinate_eq] at route_mem
  rcases settles.divides.alternative_eq_of_fits route_mem fits with ⟨apart, lastApart⟩
  rcases List.mem_append.mp other_mem with determinate_mem | horizon_mem
  · rw [settles.determinate_eq] at determinate_mem
    exact apart other determinate_mem otherFits
  · rcases settles.horizon_subset horizon_mem with ⟨last, last_mem, rfl⟩
    exact lastApart last last_mem otherFits

theorem alternative_eq_of_selects (settles : graph.Settles limits frame ways division routes)
    {route other : Route} (route_mem : route ∈ routes.determinate)
    (other_mem : other ∈ routes.leveled) {stream : Nat → Symbol}
    (selects : route.selects graph stream = true)
    (otherSelects : other.selects graph stream = true) :
    other.alternative = route.alternative := by
  have enough : route.lookahead.length ≤ max route.lookahead.length other.lookahead.length ∧
      other.lookahead.length ≤ max route.lookahead.length other.lookahead.length :=
    ⟨Nat.le_max_left _ _, Nat.le_max_right _ _⟩
  exact settles.alternative_eq_of_fits route_mem other_mem
    ((selects_iff_fits enough.1).mp selects) ((selects_iff_fits enough.2).mp otherSelects)

/-- A table decides for the alternative of a determinate route that is fulfilled, whatever the order
in which its routes are tested. -/
theorem decide_reordering (settles : graph.Settles limits frame ways division routes)
    {reordered : Routes} (reordering : reordered.IsReorderingOf routes) {lookahead : Lookahead}
    (arrived : ∀ depth ∈ routes.levels, lookahead.satisfies depth = true) {route : Route}
    (route_mem : route ∈ routes.determinate)
    (selects : route.selects graph lookahead.symbolAt = true) :
    graph.decide lookahead reordered = .take (routes.path route) := by
  have leveled_mem : route ∈ routes.leveled := List.mem_append_left _ route_mem
  have unended : lookahead.front? ≠ some .endOfInput := by
    rcases settles.route_begins (List.mem_append_left _ leveled_mem) with
      ⟨_, matcher, rest, _, _, lookahead_eq⟩
    exact lookahead.front?_ne_endOfInput_of_selects lookahead_eq selects
  rw [decide_of_front?_ne unended]
  have satisfied : ∀ depth ∈ reordered.levels, lookahead.satisfies depth = true :=
    fun depth depth_mem => arrived depth (reordering.levels.mem_iff.mp depth_mem)
  rcases graph.decideLevels_of_satisfied reordered satisfied with
    ⟨depth, _, chosen, found, decided⟩ | ⟨unselected, _⟩
  · have chosen_mem := (mem_atLevel.mp (List.mem_of_find?_eq_some found)).1
    have same := settles.alternative_eq_of_selects route_mem
      (reordering.leveled.mem_iff.mp chosen_mem) selects (List.find?_some found)
    rw [decided, Routes.path, Routes.path, reordering.paths_eq, same]
  · have level_mem := reordering.levels.mem_iff.mpr (settles.mem_levels leveled_mem)
    have tested := mem_atLevel.mpr ⟨reordering.leveled.mem_iff.mpr leveled_mem, rfl⟩
    exact (unselected route.depth level_mem route tested selects).elim

theorem firstOnes_isTracked (settles : graph.Settles limits frame ways division routes) :
    ∀ candidate ∈ Candidate.firstOnes (ways.filterMap Way.alternative?),
      candidate.IsTracked graph frame routes.paths 1 := by
  intro candidate candidate_mem
  refine ⟨settles.firstOnes_isFollowed candidate candidate_mem, ?_⟩
  rcases Candidate.mem_firstOnes.mp candidate_mem with ⟨_, _, _, _, _, rfl⟩
  intro left
  cases left

theorem route_isOpen_iff (settles : graph.Settles limits frame ways division routes)
    {route : Route} (route_mem : route ∈ routes.leveled) :
    route.isOpen = true ↔ route.lookahead.length < route.depth := by
  have tracked := settles.divides.isTracked settles.firstOnes_isTracked
  rcases List.mem_append.mp route_mem with determinate_mem | horizon_mem
  · rw [settles.determinate_eq] at determinate_mem
    rcases tracked.1 route determinate_mem with ⟨candidate, candidateTracked, route_eq⟩
    rw [← route_eq]
    exact candidateTracked.isOpen_iff
  · rcases settles.horizon_subset horizon_mem with ⟨last, last_mem, rfl⟩
    exact (tracked.2 last last_mem).isOpen_iff

theorem route_head?_eq (settles : graph.Settles limits frame ways division routes)
    {route : Route} (route_mem : route ∈ routes.all) :
    ∃ path matcher, routes.paths[route.alternative]? = some path ∧
      Path.matcher? path = some matcher ∧ route.lookahead.head? = some matcher := by
  rcases settles.route_begins route_mem with
    ⟨path, matcher, rest, path_eq, path_matchers, lookahead_eq⟩
  rcases settles.matcher?_of_mem_paths (List.mem_of_getElem? path_eq) with
    ⟨last, last_eq, last_matchers⟩
  obtain rfl : last = matcher := by simpa [path_matchers] using last_matchers.symm
  exact ⟨path, last, path_eq, last_eq, by simp [lookahead_eq]⟩

theorem horizon_or_indeterminate (settles : graph.Settles limits frame ways division routes) :
    routes.horizon = [] ∨ routes.indeterminate = none := by
  rw [settles.horizon_eq, settles.indeterminate_eq]
  rcases prefer_cases graph division with ⟨indeterminate_eq, _⟩ | ⟨_, _, _, horizon_eq, _⟩
  · exact .inr indeterminate_eq
  · exact .inl horizon_eq

/-- An alternative keeps a route exactly if it was told apart once or survives in the end. -/
theorem exists_route_iff (settles : graph.Settles limits frame ways division routes) :
    (∃ route ∈ routes.all, route.alternative = alternative) ↔
      (∃ route ∈ division.determinate, route.alternative = alternative) ∨
      ∃ survivor ∈ graph.survivors division.overlapping, survivor.alternative = alternative := by
  simp only [Routes.all, Routes.leveled, settles.determinate_eq, settles.horizon_eq,
    settles.indeterminate_eq, List.mem_append, or_and_right, exists_or, or_assoc]
  refine or_congr_right ?_
  rcases prefer_cases graph division with
    ⟨indeterminate_eq, horizon_eq⟩ | ⟨first, first_mem, alone, horizon_eq, indeterminate_eq⟩
  · simp [indeterminate_eq, horizon_eq, Candidate.toRoute]
  · simp only [indeterminate_eq, horizon_eq]
    constructor
    · rintro (⟨_, route_mem, _⟩ | ⟨_, route_mem, rfl⟩)
      · cases route_mem
      · obtain rfl := List.mem_singleton.mp route_mem
        exact ⟨first, first_mem, rfl⟩
    · rintro ⟨survivor, survivor_mem, rfl⟩
      exact .inr ⟨_, List.mem_singleton_self _, (alone survivor survivor_mem).symm⟩

theorem exists_candidate_of_lt (settles : graph.Settles limits frame ways division routes)
    (inside : alternative < routes.paths.length) :
    ∃ candidate ∈ Candidate.firstOnes (ways.filterMap Way.alternative?),
      candidate.alternative = alternative := by
  rcases settles.exists_alternative (List.getElem?_eq_getElem inside) with
    ⟨matcher, next, alternative_eq⟩
  exact ⟨⟨alternative, [matcher], some next⟩,
    Candidate.mem_firstOnes.mpr ⟨_, _, _, _, alternative_eq, rfl⟩, rfl⟩

/-- An alternative is shadowed exactly if it has no route: it was followed to the end, but is
covered by earlier ones there. -/
theorem mem_shadowed_iff_no_route (settles : graph.Settles limits frame ways division routes)
    (inside : alternative < routes.paths.length) :
    alternative ∈ routes.shadowed ↔ ¬∃ route ∈ routes.all, route.alternative = alternative := by
  rw [settles.shadowed_eq, mem_shadowed_iff, settles.exists_route_iff, not_or, and_comm, and_assoc]
  rcases settles.exists_candidate_of_lt inside with ⟨candidate, candidate_mem, rfl⟩
  constructor
  · rintro ⟨notSurviving, notDecided, _⟩
    exact ⟨notDecided, notSurviving⟩
  · rintro ⟨notDecided, notSurviving⟩
    exact ⟨notSurviving, notDecided,
      (settles.divides.keeps_alternative candidate_mem).resolve_left notDecided⟩

theorem shadowed_lt (settles : graph.Settles limits frame ways division routes)
    (alternative_mem : alternative ∈ routes.shadowed) : alternative < routes.paths.length := by
  rw [settles.shadowed_eq] at alternative_mem
  rcases settles.exists_path_of_mem_shadowed alternative_mem with ⟨path, path_eq⟩
  exact (List.getElem?_eq_some_iff.mp path_eq).1

theorem shadowed_ascending (settles : graph.Settles limits frame ways division routes) :
    routes.shadowed.Pairwise (· < ·) := by
  have inOrder : (division.overlapping.map Candidate.alternative).Pairwise (· ≤ ·) :=
    List.pairwise_map.mpr (settles.divides.inOrder (inOrder_firstOnes _))
  rw [settles.shadowed_eq, shadowed_prefer]
  exact (pairwise_lt_eraseDups inOrder).sublist List.filter_sublist

theorem isWellFormed (settles : graph.Settles limits frame ways division routes)
    (positive : 1 ≤ limits.maxLookahead) : routes.IsWellFormed limits.maxLookahead where
  nonempty route route_mem := by
    rcases settles.route_begins (List.mem_append_left _ route_mem) with
      ⟨_, _, _, _, _, lookahead_eq⟩
    simp [lookahead_eq]
  length_le _ := settles.lookahead_length_le
  depth_le _ route_mem := settles.depth_le positive (settles.mem_levels route_mem)
  isOpen_iff _ := settles.route_isOpen_iff
  begins _ route_mem := by
    rcases settles.route_head?_eq (List.mem_append_left _ route_mem) with
      ⟨path, matcher, path_eq, matcher_eq, head_eq⟩
    simp [path_eq, matcher_eq, head_eq]
  levels_ascending := settles.levels_ascending
  mem_levels_iff depth := by simp [settles.levels_eq]
  horizon_ascending := settles.horizon_ascending
  horizon_level first first_mem second second_mem := by
    rcases settles.horizon_subset first_mem with ⟨_, _, rfl⟩
    rcases settles.horizon_subset second_mem with ⟨_, _, rfl⟩
    rfl
  horizon_or_indeterminate := settles.horizon_or_indeterminate
  alternative_lt _ route_mem := by
    rcases settles.route_begins route_mem with ⟨_, _, _, path_eq, _⟩
    exact (List.getElem?_eq_some_iff.mp path_eq).1
  shadowed_lt _ := settles.shadowed_lt
  shadowed_ascending := settles.shadowed_ascending
  shadowed_iff _ := settles.mem_shadowed_iff_no_route

end Settles

end Graph

/-- Determinate routes exclude each other: a stream of symbols that fulfils one of them fulfils no
determinate route of another alternative and no horizon route of another alternative. So a decision
that has the symbols that it looks at is for its alternative, in whatever order the levels, and the
routes of each level, are tested. -/
theorem Grammar.determinate_routes_exclude {graph : Graph} {config : GrammarConfig}
    {grammar : Grammar} (built : (graph.build config).result = .ok grammar) {frame : Frame}
    {routes : Routes} (found : grammar.routes? frame = some routes) :
    (∀ (stream : Nat → Symbol), ∀ route ∈ routes.determinate,
      ∀ other ∈ routes.determinate ++ routes.horizon, route.selects graph stream = true →
        other.selects graph stream = true → other.alternative = route.alternative) ∧
    ∀ (lookahead : Lookahead), (∀ depth ∈ routes.levels, lookahead.satisfies depth = true) →
      ∀ route ∈ routes.determinate, route.selects graph lookahead.symbolAt = true →
        ∀ reordered : Routes, reordered.IsReorderingOf routes →
          graph.decide lookahead reordered = .take (routes.path route) := by
  rcases Graph.build_ok built with ⟨rfl, resolved⟩
  rcases resolved.exists_settles found with ⟨ways, division, settles⟩
  refine ⟨?_, ?_⟩
  · intro stream route route_mem other other_mem selects otherSelects
    exact settles.alternative_eq_of_selects route_mem other_mem selects otherSelects
  · intro lookahead arrived route route_mem selects reordered reordering
    exact settles.decide_reordering reordering arrived route_mem selects

/-- A rule that reads one letter or one of five pairs of letters. The letter is told apart by the
first code point and one of the pairs by the second one. The order decides between the others, and
leaves nothing for the pair that is declared again. -/
def Graph.mixedChoices : Graph :=
  (Assembly.assemble do
    let main ← Assembly.rule "main"
    let start ← Assembly.node main
    let done ← Assembly.node main
    let second ← Assembly.node main
    let third ← Assembly.node main
    let lower ← Assembly.matcher (.range 'b' 'd')
    let upper ← Assembly.matcher (.range 'c' 'e')
    let _ ← Assembly.charEdge main start 'x' done
    Assembly.literal main start "ab" done
    let _ ← Assembly.charEdge main start 'a' second
    let _ ← Assembly.consumeEdge main second lower done
    let _ ← Assembly.charEdge main start 'a' third
    let _ ← Assembly.consumeEdge main third upper done
    Assembly.literal main start "ab" done
    Assembly.literal main start "az" done).2

/-- What is decided where that rule begins, with two code points of lookahead. -/
def Routes.ofMixedChoices : Routes where
  paths := [[.consume 2 1], [.consume 3 4], [.consume 3 2], [.consume 3 3], [.consume 3 5],
    [.consume 3 6]]
  determinate := [⟨1, [2], false, 0⟩, ⟨2, [3, 5], false, 5⟩]
  horizon := [⟨2, [3, 4], false, 1⟩, ⟨2, [3, 0], false, 2⟩, ⟨2, [3, 1], false, 3⟩]
  indeterminate := none
  shadowed := [4]
  exit := none
  expected := ["x", "ab", "a [b-d]", "a [c-e]", "az"]
  levels := [1, 2]

theorem Graph.build_mixedChoices : (mixedChoices.build ⟨"main", 2, false⟩).result =
    .ok (mixedChoices.builtGrammar ⟨"main", 2, false⟩) := by
  apply build_eq_builtGrammar
  decide +kernel

theorem Graph.routes?_mixedChoices :
    (mixedChoices.builtGrammar ⟨"main", 2, false⟩).routes? ⟨0, 0⟩ = some .ofMixedChoices := by
  decide +kernel

/-- The second level may be tested before the first one, and the horizon from its end. -/
theorem Grammar.determinate_routes_exclude_mixedChoices :
    ∃ grammar, (Graph.mixedChoices.build ⟨"main", 2, false⟩).result = .ok grammar ∧
      grammar.routes? ⟨0, 0⟩ = some .ofMixedChoices ∧
      Route.selects Graph.mixedChoices (Lookahead.holding ['a', 'z'] false).symbolAt
        ⟨2, [3, 5], false, 5⟩ = true ∧
      (∀ other ∈ Routes.ofMixedChoices.leveled,
        other.selects Graph.mixedChoices (Lookahead.holding ['a', 'z'] false).symbolAt = true →
          other.alternative = 5) ∧
      Graph.mixedChoices.decide (.holding ['a', 'z'] false)
        { Routes.ofMixedChoices with
          horizon := Routes.ofMixedChoices.horizon.reverse
          levels := [2, 1] } = .take [.consume 3 6] := by
  have selects : Route.selects Graph.mixedChoices (Lookahead.holding ['a', 'z'] false).symbolAt
      ⟨2, [3, 5], false, 5⟩ = true := by decide +kernel
  have route_mem : ⟨2, [3, 5], false, 5⟩ ∈ Routes.ofMixedChoices.determinate := by decide
  have arrived : ∀ depth ∈ Routes.ofMixedChoices.levels,
      (Lookahead.holding ['a', 'z'] false).satisfies depth = true := by decide
  rcases Grammar.determinate_routes_exclude Graph.build_mixedChoices
    Graph.routes?_mixedChoices with ⟨exclude, decided⟩
  refine ⟨_, Graph.build_mixedChoices, Graph.routes?_mixedChoices, selects, ?_, ?_⟩
  · intro other other_mem otherSelects
    exact exclude _ _ route_mem other other_mem selects otherSelects
  · refine decided _ arrived _ route_mem selects _ ⟨rfl, ?_, ?_⟩
    · exact (List.reverse_perm _).append_left _
    · exact List.Perm.swap 1 2 []

/-- Every table in a grammar that was built is well-formed. -/
theorem Grammar.route_tables_are_well_formed {graph : Graph} {config : GrammarConfig}
    {grammar : Grammar} (built : (graph.build config).result = .ok grammar) {frame : Frame}
    {routes : Routes} (found : grammar.routes? frame = some routes) :
    routes.IsWellFormed config.maxLookahead := by
  rcases Graph.build_ok built with ⟨rfl, resolved⟩
  rcases resolved.exists_settles found with ⟨ways, division, settles⟩
  exact settles.isWellFormed resolved.positive

theorem Grammar.route_tables_are_well_formed_mixedChoices :
    ∃ grammar, (Graph.mixedChoices.build ⟨"main", 2, false⟩).result = .ok grammar ∧
      grammar.routes? ⟨0, 0⟩ = some .ofMixedChoices ∧ Routes.ofMixedChoices.IsWellFormed 2 :=
  ⟨_, Graph.build_mixedChoices, Graph.routes?_mixedChoices,
    Grammar.route_tables_are_well_formed Graph.build_mixedChoices Graph.routes?_mixedChoices⟩

end StreamGrammar
