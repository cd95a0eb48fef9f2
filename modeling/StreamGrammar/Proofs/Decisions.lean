import Mathlib.Data.List.Find
import Mathlib.Data.Nat.Find
import StreamGrammar.Proofs.Resolution

/-!
# Decisions against the graph

When the rest of the input waits as a whole, a decision picks the first declared
alternative that the rule graph allows: the one whose path begins a run over the
coming code points. When only a part of it waits, a decision either is put off or
is the one that would be taken if all of it waited.
-/

namespace StreamGrammar

namespace Graph

variable {graph : Graph}

/-- The alternative is the first one declared that allows the text. -/
structure FirstAdmits (graph : Graph) (frame : Frame) (maxLookahead : Nat) (paths : List Path)
    (alternative : Nat) (path : Path) (text : List Char) : Prop where
  path_eq : paths[alternative]? = some path
  admits : graph.Admits frame maxLookahead path text
  least : ∀ earlier < alternative, ∀ other, paths[earlier]? = some other →
    ¬graph.Admits frame maxLookahead other text

theorem exists_firstAdmits {frame : Frame} {maxLookahead : Nat} {paths : List Path}
    {text : List Char} (someAdmits : ∃ path ∈ paths, graph.Admits frame maxLookahead path text) :
    ∃ alternative path, graph.FirstAdmits frame maxLookahead paths alternative path text := by
  classical
  have declared : ∃ alternative : Nat, ∃ path, paths[alternative]? = some path ∧
      graph.Admits frame maxLookahead path text := by
    rcases someAdmits with ⟨path, path_mem, admits⟩
    rcases List.mem_iff_getElem?.mp path_mem with ⟨alternative, path_eq⟩
    exact ⟨alternative, path, path_eq, admits⟩
  rcases Nat.find_spec declared with ⟨path, path_eq, admits⟩
  refine ⟨Nat.find declared, path, path_eq, admits, ?_⟩
  intro earlier earlier_lt other other_eq otherAdmits
  exact Nat.find_min declared earlier_lt ⟨other, other_eq, otherAdmits⟩

/-- Where members are sorted, the first one with some property is not after any other one. -/
theorem le_of_find? {Member : Type} (rank : Member → Nat) {property : Member → Bool}
    {members : List Member} {first other : Member}
    (sorted : members.Pairwise fun earlier later => rank earlier ≤ rank later)
    (found : members.find? property = some first) (other_mem : other ∈ members)
    (holds : property other = true) : rank first ≤ rank other := by
  induction members with
  | nil => simp at other_mem
  | cons member rest ih =>
      rcases List.pairwise_cons.mp sorted with ⟨le_rest, restSorted⟩
      by_cases member_holds : property member = true
      · rw [List.find?_cons_of_pos member_holds, Option.some.injEq] at found
        subst found
        rcases List.mem_cons.mp other_mem with rfl | rest_mem
        · exact Nat.le_refl _
        · exact le_rest other rest_mem
      · rw [List.find?_cons_of_neg member_holds] at found
        rcases List.mem_cons.mp other_mem with rfl | rest_mem
        · contradiction
        · exact ih restSorted found rest_mem

/-- Once enough symbols wait for every level, the first fulfilled route of some level is taken,
unless no route of any level is fulfilled. -/
theorem decideLevels_of_satisfied (graph : Graph) {lookahead : Lookahead} (routes : Routes)
    {levels : List Nat}
    (satisfied : ∀ depth ∈ levels, lookahead.satisfies depth = true) :
    (∃ depth ∈ levels, ∃ route,
      (routes.atLevel depth).find? (·.selects graph lookahead.symbolAt) = some route ∧
        graph.decideLevels lookahead routes levels = .take (routes.path route)) ∨
    (∀ depth ∈ levels, ∀ route ∈ routes.atLevel depth,
      ¬route.selects graph lookahead.symbolAt = true) ∧
        graph.decideLevels lookahead routes levels = graph.decideLast lookahead routes := by
  induction levels with
  | nil => exact .inr ⟨by simp, rfl⟩
  | cons depth deeper ih =>
      rw [List.forall_mem_cons] at satisfied
      simp only [decideLevels, satisfied.1, if_true]
      cases found : (routes.atLevel depth).find? (·.selects graph lookahead.symbolAt) with
      | some route => exact .inl ⟨depth, List.mem_cons_self, route, found, rfl⟩
      | none =>
          have unselected : ∀ route ∈ routes.atLevel depth,
              ¬route.selects graph lookahead.symbolAt = true := List.find?_eq_none.mp found
          rcases ih satisfied.2 with ⟨other, other_mem, decided⟩ | ⟨others, decided⟩
          · exact .inl ⟨other, List.mem_cons_of_mem _ other_mem, decided⟩
          · exact .inr ⟨List.forall_mem_cons.mpr ⟨unselected, others⟩, decided⟩

/-- If no route of any level is fulfilled, and none that has to wait for more symbols can still be,
the routes of the levels decide nothing. -/
theorem decideLevels_of_unselected (graph : Graph) {lookahead : Lookahead} (routes : Routes)
    {levels : List Nat}
    (unselected : ∀ depth ∈ levels, ∀ route ∈ routes.atLevel depth,
      ¬route.selects graph lookahead.symbolAt = true)
    (decided : ∀ depth ∈ levels, lookahead.satisfies depth = true ∨
      graph.deeperPossible lookahead routes depth = false) :
    graph.decideLevels lookahead routes levels = graph.decideLast lookahead routes := by
  induction levels with
  | nil => rfl
  | cons depth deeper ih =>
      rw [List.forall_mem_cons] at unselected decided
      simp only [decideLevels]
      split
      next =>
        rw [List.find?_eq_none.mpr unselected.1]
        exact ih unselected.2 decided.2
      next unsatisfied =>
        rw [decided.1.resolve_left unsatisfied]
        rfl

theorem decide_holding_cons {first : Char} {rest : List Char} {ended : Bool} {routes : Routes} :
    graph.decide (.holding (first :: rest) ended) routes =
      graph.decideLevels (.holding (first :: rest) ended) routes routes.levels := rfl

/-- What a decision can be: a path whose route is fulfilled, the exit, or nothing. It is put off
only before the end of the input has arrived. -/
inductive Justifies (graph : Graph) (lookahead : Lookahead) (routes : Routes) : Decision → Prop
  | selected {route : Route} (route_mem : route ∈ routes.all)
      (selects : route.selects graph lookahead.symbolAt = true) :
      Justifies graph lookahead routes (.take (routes.path route))
  | left {exit : Path} (exit_eq : routes.exit = some exit) :
      Justifies graph lookahead routes (.take exit)
  | rejected : Justifies graph lookahead routes .reject
  | putOff (unended : lookahead.hasEnd = false) : Justifies graph lookahead routes .needMore

theorem decideLast_justified (lookahead : Lookahead) (routes : Routes) :
    graph.Justifies lookahead routes (graph.decideLast lookahead routes) := by
  simp only [decideLast]
  split
  next route selected =>
    rcases Option.filter_eq_some_iff.mp selected with ⟨route_eq, selects⟩
    refine .selected ?_ selects
    exact List.mem_append_right _ (Option.mem_toList.mpr route_eq)
  next =>
    split
    next exit exit_eq => exact .left exit_eq
    next => exact .rejected

theorem decideLevels_justified (lookahead : Lookahead) (routes : Routes) (levels : List Nat) :
    graph.Justifies lookahead routes (graph.decideLevels lookahead routes levels) := by
  induction levels with
  | nil => exact decideLast_justified lookahead routes
  | cons depth deeper ih =>
      simp only [decideLevels]
      split
      next =>
        split
        next route found =>
          have route_mem := List.mem_of_mem_filter (List.mem_of_find?_eq_some found)
          exact .selected (List.mem_append_left _ route_mem) (List.find?_some found)
        next => exact ih
      next unsatisfied =>
        split
        next =>
          apply Justifies.putOff
          simp only [Lookahead.satisfies, Bool.or_eq_true, not_or, Bool.not_eq_true]
            at unsatisfied
          exact unsatisfied.2
        next => exact decideLast_justified lookahead routes

theorem decide_justified (lookahead : Lookahead) (routes : Routes) :
    graph.Justifies lookahead routes (graph.decide lookahead routes) := by
  simp only [decide]
  split
  next exit _ exit_eq => exact .left exit_eq
  next => exact decideLevels_justified lookahead routes routes.levels

theorem mem_atLevel {routes : Routes} {depth : Nat} {route : Route} :
    route ∈ routes.atLevel depth ↔ route ∈ routes.leveled ∧ route.depth = depth := by
  simp [Routes.atLevel]

/-- What follows the waiting text does not matter for a route that looks at no more than waits. -/
theorem selects_holding_append {route : Route} {text : List Char}
    (short : route.lookahead.length ≤ text.length)
    (rest : List Char) (ended otherEnded : Bool) :
    route.selects graph (Lookahead.holding text ended).symbolAt =
      route.selects graph (Lookahead.holding (text ++ rest) otherEnded).symbolAt := by
  have textPrefix : text <+: text ++ rest := List.prefix_append text rest
  rw [Bool.eq_iff_iff, Route.selects_holding_iff, Route.selects_holding_iff]
  constructor
  · intro fits
    exact fits.of_textPrefix textPrefix
  · intro fits
    exact fits.of_take textPrefix short

/-- A route that looks at more code points than wait is fulfilled only if it remains possible. -/
theorem not_selects_of_deeperPossible_false {routes : Routes} {text : List Char}
    {depth : Nat} (impossible : graph.deeperPossible (.holding text false) routes depth = false)
    (rest : List Char) (otherEnded : Bool) {route : Route} (route_mem : route ∈ routes.leveled)
    (depth_le : depth ≤ route.depth) :
    ¬route.selects graph (Lookahead.holding (text ++ rest) otherEnded).symbolAt = true := by
  intro selects
  have fits := Route.selects_holding_iff.mp selects
  have remains : graph.Fits (route.lookahead.take text.length) text :=
    (fits.of_lookaheadPrefix (List.take_prefix _ _)).of_take (List.prefix_append text rest)
      (List.length_take_le _ _)
  have unfulfilled := List.any_eq_false.mp impossible route route_mem
  apply unfulfilled
  simp only [Bool.and_eq_true, decide_eq_true_eq]
  exact ⟨depth_le, remainsPossible_holding_iff.mpr remains⟩

theorem satisfies_holding_append {text : List Char} {depth : Nat}
    (satisfied : (Lookahead.holding text false).satisfies depth = true) (rest : List Char)
    (ended : Bool) : (Lookahead.holding (text ++ rest) ended).satisfies depth = true := by
  cases ended with
  | true => exact Lookahead.satisfies_holding_true (text ++ rest) depth
  | false =>
      rw [Lookahead.satisfies_holding_false] at satisfied ⊢
      rw [List.length_append]
      omega

/-- What cannot be fulfilled any more stays so when more symbols arrive. -/
theorem deeperPossible_holding_append {routes : Routes} {text : List Char} {depth deeper : Nat}
    (impossible : graph.deeperPossible (.holding text false) routes depth = false)
    (depth_le : depth ≤ deeper) (rest : List Char) :
    graph.deeperPossible (.holding (text ++ rest) false) routes deeper = false := by
  apply List.any_eq_false.mpr
  intro route route_mem remains
  simp only [Bool.and_eq_true, decide_eq_true_eq] at remains
  have fits := remainsPossible_holding_iff.mp remains.2
  have shorter : route.lookahead.take text.length <+:
      route.lookahead.take (text ++ rest).length := by
    apply List.take_prefix_take_left
    simp
  have shortFits : graph.Fits (route.lookahead.take text.length) text :=
    (fits.of_lookaheadPrefix shorter).of_take (List.prefix_append text rest)
      (List.length_take_le _ _)
  apply List.any_eq_false.mp impossible route route_mem
  simp only [Bool.and_eq_true, decide_eq_true_eq]
  exact ⟨by omega, remainsPossible_holding_iff.mpr shortFits⟩

namespace Settles

variable {limits : ResolutionLimits} {frame : Frame} {ways : List Way} {division : Division}
  {routes : Routes} {alternative : Nat} {path : Path} {text : List Char}

theorem take_one_eq (settles : graph.Settles limits frame ways division routes)
    {first second : Candidate} (first_mem : first ∈ division.overlapping)
    (second_mem : second ∈ division.overlapping)
    (same : first.alternative = second.alternative) :
    first.lookahead.take 1 = second.lookahead.take 1 := by
  have followed := settles.overlapping_isFollowed
  rcases settles.begins_of_isFollowed (followed first first_mem) with
    ⟨path, matcher, rest, path_eq, path_matchers, lookahead_eq⟩
  rcases settles.begins_of_isFollowed (followed second second_mem) with
    ⟨other, otherMatcher, otherRest, other_eq, other_matchers, otherLookahead_eq⟩
  rw [← same, path_eq, Option.some.injEq] at other_eq
  rw [← other_eq, path_matchers, List.singleton_inj] at other_matchers
  simp [lookahead_eq, otherLookahead_eq, other_matchers]

/-- The first alternative that allows the text overlaps to the end only with its candidate kept. -/
theorem mem_survivors (settles : graph.Settles limits frame ways division routes)
    (positive : 1 ≤ limits.maxLookahead)
    (first : graph.FirstAdmits frame limits.maxLookahead routes.paths alternative path text)
    {last : Candidate} (last_mem : last ∈ division.overlapping)
    (last_eq : last.alternative = alternative) (fits : graph.Fits last.lookahead text) :
    last ∈ graph.survivors division.overlapping := by
  have inOrder := settles.divides.inOrder (inOrder_firstOnes _)
  rcases mem_survivors_or_covered graph inOrder last_mem with
    survives | ⟨earlier, earlier_mem, earlier_lt, covers⟩
  · exact survives
  · have earlier_overlaps := (survivors_sublist division.overlapping).mem earlier_mem
    rcases settles.admits_of_fits positive earlier_overlaps (fits.of_covers covers) with
      ⟨other, other_eq, admits⟩
    exact (first.least earlier.alternative (last_eq ▸ earlier_lt) other other_eq admits).elim

/-- The first candidate on the horizon that is fulfilled is of no later alternative than any other
one that is fulfilled. -/
theorem le_of_horizon_find? (settles : graph.Settles limits frame ways division routes)
    {depth : Nat} {chosen last : Candidate}
    (found : (routes.horizon.filter (·.depth == depth)).find?
      (·.selects graph (Lookahead.holding text true).symbolAt) =
        some (chosen.toRoute division.depth))
    (last_mem : last ∈ graph.survivors division.overlapping)
    (fits : graph.Fits last.lookahead text) : chosen.alternative ≤ last.alternative := by
  have chosen_mem := List.mem_filter.mp (List.mem_of_find?_eq_some found)
  have depth_eq : division.depth = depth := beq_iff_eq.mp chosen_mem.2
  rcases prefer_cases graph division with ⟨_, horizon_eq⟩ | ⟨_, _, _, horizon_eq, _⟩
  · rw [← settles.horizon_eq] at horizon_eq
    have last_horizon : last.toRoute division.depth ∈
        routes.horizon.filter (·.depth == depth) := by
      rw [horizon_eq, List.mem_filter]
      exact ⟨List.mem_map_of_mem last_mem, beq_iff_eq.mpr depth_eq⟩
    exact le_of_find? Route.alternative (settles.horizon_ascending.sublist List.filter_sublist)
      found last_horizon (Route.selects_holding_iff.mpr fits)
  · rw [← settles.horizon_eq] at horizon_eq
    simp [horizon_eq] at chosen_mem

/-- A route that is chosen at some level is one of the first alternative that allows the text. -/
theorem alternative_of_atLevel_find? (settles : graph.Settles limits frame ways division routes)
    (positive : 1 ≤ limits.maxLookahead)
    (first : graph.FirstAdmits frame limits.maxLookahead routes.paths alternative path text)
    {depth : Nat} {route : Route}
    (found : (routes.atLevel depth).find?
      (·.selects graph (Lookahead.holding text true).symbolAt) = some route) :
    route.alternative = alternative := by
  rcases settles.represents positive first.path_eq first.admits with ⟨apart, settled⟩
  have fits := Route.selects_holding_iff.mp (List.find?_some found)
  rw [Routes.atLevel, Routes.leveled, List.filter_append, List.find?_append,
    Option.or_eq_some_iff] at found
  rcases found with found | ⟨_, found⟩
  · have determinate_mem := List.mem_of_mem_filter (List.mem_of_find?_eq_some found)
    rw [settles.determinate_eq] at determinate_mem
    exact apart route determinate_mem fits
  · have horizon_mem := List.mem_of_mem_filter (List.mem_of_find?_eq_some found)
    rcases settles.horizon_subset horizon_mem with ⟨chosen, chosen_mem, rfl⟩
    rcases settled with ⟨_, _, _, _, others⟩ | ⟨last, last_mem, last_eq, lastFits⟩
    · exact others chosen chosen_mem fits
    · have chosen_le := settles.le_of_horizon_find? found
        (settles.mem_survivors positive first last_mem last_eq lastFits) lastFits
      rw [last_eq] at chosen_le
      rcases settles.admits_of_fits positive chosen_mem fits with ⟨other, other_eq, admits⟩
      rcases Nat.lt_or_eq_of_le chosen_le with earlier | same
      · exact (first.least _ earlier other other_eq admits).elim
      · exact same

/-- If no route of any level is fulfilled, the one alternative that survives allows the text. -/
theorem decideLast_of_firstAdmits (settles : graph.Settles limits frame ways division routes)
    (positive : 1 ≤ limits.maxLookahead)
    (first : graph.FirstAdmits frame limits.maxLookahead routes.paths alternative path text)
    (notFits : ∀ route ∈ routes.leveled, ¬graph.Fits route.lookahead text) :
    graph.decideLast (.holding text true) routes = .take path := by
  rcases settles.represents positive first.path_eq first.admits with
    ⟨_, ⟨route, route_mem, _, fits, _⟩ | ⟨last, last_mem, last_eq, lastFits⟩⟩
  · rw [← settles.determinate_eq] at route_mem
    exact (notFits route (List.mem_append_left _ route_mem) fits).elim
  · have survives := settles.mem_survivors positive first last_mem last_eq lastFits
    rcases prefer_cases graph division with
      ⟨_, horizon_eq⟩ | ⟨kept, kept_mem, alone, _, indeterminate_eq⟩
    · rw [← settles.horizon_eq] at horizon_eq
      have last_horizon : last.toRoute division.depth ∈ routes.horizon := by
        rw [horizon_eq]
        exact List.mem_map_of_mem survives
      exact (notFits _ (List.mem_append_right _ last_horizon) lastFits).elim
    · rw [← settles.indeterminate_eq] at indeterminate_eq
      have kept_eq : kept.alternative = alternative := (alone last survives).symm.trans last_eq
      have keptFits : graph.Fits (kept.lookahead.take 1) text := by
        rw [settles.take_one_eq ((survivors_sublist _).mem kept_mem) last_mem
          (kept_eq.trans last_eq.symm)]
        exact lastFits.of_lookaheadPrefix (List.take_prefix _ _)
      have selects : Route.selects graph (Lookahead.holding text true).symbolAt
          ⟨1, kept.lookahead.take 1, true, kept.alternative⟩ = true :=
        Route.selects_holding_iff.mpr keptFits
      simp only [decideLast, indeterminate_eq, Option.filter_some, selects, if_true]
      simp [Routes.path, kept_eq, first.path_eq]

/-- With the rest of the input waiting, the first alternative that allows it is taken. -/
theorem decide_of_firstAdmits (settles : graph.Settles limits frame ways division routes)
    (positive : 1 ≤ limits.maxLookahead)
    (first : graph.FirstAdmits frame limits.maxLookahead routes.paths alternative path text) :
    graph.decide (.holding text true) routes = .take path := by
  have waits : ∃ character rest, text = character :: rest := by
    rcases first.admits with ⟨_, read, _, _, readPrefix, extent⟩
    apply List.exists_cons_of_length_pos
    have := readPrefix.length_le
    omega
  rcases waits with ⟨character, rest, rfl⟩
  rw [decide_holding_cons]
  rcases decideLevels_of_satisfied graph routes
      (fun depth _ => Lookahead.satisfies_holding_true (character :: rest) depth) with
    ⟨depth, _, route, found, decided⟩ | ⟨unselected, decided⟩
  · rw [decided]
    apply congrArg Decision.take
    simp [Routes.path, settles.alternative_of_atLevel_find? positive first found, first.path_eq]
  · rw [decided]
    apply settles.decideLast_of_firstAdmits positive first
    intro route route_mem fits
    exact unselected route.depth (settles.mem_levels route_mem) route
      (mem_atLevel.mpr ⟨route_mem, rfl⟩) (Route.selects_holding_iff.mpr fits)

theorem decideLast_holding_append (settles : graph.Settles limits frame ways division routes)
    (text_ne : text ≠ []) (rest : List Char) (ended otherEnded : Bool) :
    graph.decideLast (.holding text ended) routes =
      graph.decideLast (.holding (text ++ rest) otherEnded) routes := by
  have same : routes.indeterminate.filter
        (·.selects graph (Lookahead.holding text ended).symbolAt) =
      routes.indeterminate.filter
        (·.selects graph (Lookahead.holding (text ++ rest) otherEnded).symbolAt) := by
    cases found : routes.indeterminate with
    | none => rfl
    | some route =>
        rcases settles.indeterminate_cases found with ⟨first, _, _, _, rfl⟩
        have short : (first.lookahead.take 1).length ≤ text.length := by
          have waits := List.length_pos_iff.mpr text_ne
          have taken := List.length_take_le 1 first.lookahead
          omega
        have selects_eq : Route.selects graph (Lookahead.holding text ended).symbolAt
              ⟨1, first.lookahead.take 1, true, first.alternative⟩ =
            Route.selects graph (Lookahead.holding (text ++ rest) otherEnded).symbolAt
              ⟨1, first.lookahead.take 1, true, first.alternative⟩ :=
          selects_holding_append short rest ended otherEnded
        simp only [Option.filter_some, selects_eq]
  simp only [decideLast, same]

theorem decideLevels_holding_append (settles : graph.Settles limits frame ways division routes)
    (text_ne : text ≠ []) (rest : List Char) (ended : Bool) {levels : List Nat}
    (ascending : levels.Pairwise (· ≤ ·)) :
    graph.decideLevels (.holding text false) routes levels = .needMore ∨
      graph.decideLevels (.holding text false) routes levels =
        graph.decideLevels (.holding (text ++ rest) ended) routes levels := by
  induction levels with
  | nil => exact .inr (settles.decideLast_holding_append text_ne rest false ended)
  | cons depth deeper ih =>
      rcases List.pairwise_cons.mp ascending with ⟨depth_le, deeperAscending⟩
      by_cases satisfied : (Lookahead.holding text false).satisfies depth = true
      · have waits := Lookahead.satisfies_holding_false.mp satisfied
        have found_eq : (routes.atLevel depth).find?
              (·.selects graph (Lookahead.holding text false).symbolAt) =
            (routes.atLevel depth).find?
              (·.selects graph (Lookahead.holding (text ++ rest) ended).symbolAt) := by
          apply List.find?_congr
          intro route route_mem
          rcases mem_atLevel.mp route_mem with ⟨leveled_mem, rfl⟩
          have short := settles.lookahead_length_le leveled_mem
          exact selects_holding_append (short.trans waits) rest false ended
        simp only [decideLevels]
        rw [if_pos satisfied, if_pos (satisfies_holding_append satisfied rest ended), found_eq]
        cases (routes.atLevel depth).find?
            (·.selects graph (Lookahead.holding (text ++ rest) ended).symbolAt) with
        | some route => exact .inr rfl
        | none => exact ih deeperAscending
      · cases possible : graph.deeperPossible (.holding text false) routes depth with
        | true =>
            left
            simp only [decideLevels, if_neg satisfied, possible, if_true]
        | false =>
            right
            have level_le : ∀ level ∈ depth :: deeper, depth ≤ level :=
              List.forall_mem_cons.mpr ⟨Nat.le_refl depth, depth_le⟩
            have whole : graph.decideLevels (.holding (text ++ rest) ended) routes
                (depth :: deeper) = graph.decideLast (.holding (text ++ rest) ended) routes := by
              apply decideLevels_of_unselected
              · intro level level_mem route route_mem
                rcases mem_atLevel.mp route_mem with ⟨leveled_mem, rfl⟩
                exact not_selects_of_deeperPossible_false possible rest ended leveled_mem
                  (level_le _ level_mem)
              · intro level level_mem
                cases ended with
                | true => exact .inl (Lookahead.satisfies_holding_true (text ++ rest) level)
                | false =>
                    right
                    exact deeperPossible_holding_append possible (level_le level level_mem) rest
            rw [whole, ← settles.decideLast_holding_append text_ne rest false ended]
            simp only [decideLevels, if_neg satisfied, possible, Bool.false_eq_true, if_false]

/-- While only a part of the input waits, a decision is put off or does not depend on what
follows. -/
theorem decide_holding_append (settles : graph.Settles limits frame ways division routes)
    (text_ne : text ≠ []) (rest : List Char) (ended : Bool) :
    graph.decide (.holding text false) routes = .needMore ∨
      graph.decide (.holding text false) routes =
        graph.decide (.holding (text ++ rest) ended) routes := by
  rcases List.exists_cons_of_ne_nil text_ne with ⟨character, others, rfl⟩
  rw [List.cons_append, decide_holding_cons, decide_holding_cons]
  exact settles.decideLevels_holding_append text_ne rest ended
    (settles.levels_ascending.imp Nat.le_of_lt)

/-- A path that is taken consumes the first waiting code point, unless it is the exit. -/
theorem decide_take (settles : graph.Settles limits frame ways division routes) {ended : Bool}
    (decided : graph.decide (.holding text ended) routes = .take path) :
    routes.exit = some path ∨ ∃ character rest matcher, text = character :: rest ∧
      path ∈ routes.paths ∧ Path.matchers path = [matcher] ∧
        graph.accepts matcher (.char character) = true := by
  have justified := graph.decide_justified (.holding text ended) routes
  rw [decided] at justified
  cases justified with
  | left exit_eq => exact .inl exit_eq
  | @selected route route_mem selects =>
      rcases settles.route_begins route_mem with
        ⟨path, matcher, further, path_eq, path_matchers, lookahead_eq⟩
      have fits := Route.selects_holding_iff.mp selects
      rw [lookahead_eq] at fits
      have route_path : routes.path route = path := by simp [Routes.path, path_eq]
      rw [route_path]
      cases text with
      | nil => simp at fits
      | cons character rest =>
          rw [fits_cons_cons] at fits
          exact .inr ⟨character, rest, matcher, rfl, List.mem_of_getElem? path_eq, path_matchers,
            fits.1⟩

theorem exit_not_mem_paths (settles : graph.Settles limits frame ways division routes)
    {exit : Path} (found : routes.exit = some exit) : exit ∉ routes.paths := by
  intro exit_mem
  rcases settles.path_matchers exit_mem with ⟨matcher, matchers_eq⟩
  have silent := (settles.isTakenFrom_exit found).2
  simp [silent] at matchers_eq

end Settles

end Graph

/-- The decisions of a grammar agree with its graph. At a node that does not end its rule, with the
rest of the input waiting, the first declared alternative that the graph allows is taken. The input
is rejected, or the rule left without consuming anything, only if the graph allows no
alternative. -/
theorem Grammar.decide_agrees_with_graph {graph : Graph} {config : GrammarConfig}
    {grammar : Grammar} (built : (graph.build config).result = .ok grammar) {frame : Frame}
    (goesOn : graph.outgoing frame ≠ []) :
    ∃ routes, grammar.routes? frame = some routes ∧ ∀ text : List Char,
      ((∃ path ∈ routes.paths, graph.Admits frame config.maxLookahead path text) →
        ∃ alternative path,
          graph.FirstAdmits frame config.maxLookahead routes.paths alternative path text ∧
            grammar.decide (.holding text true) routes = .take path) ∧
      (grammar.decide (.holding text true) routes = .reject ∨
          (∃ exit, routes.exit = some exit ∧
            grammar.decide (.holding text true) routes = .take exit) →
        ∀ path ∈ routes.paths, ¬graph.Admits frame config.maxLookahead path text) := by
  rcases Graph.build_ok built with ⟨rfl, resolved⟩
  rcases resolved.decided frame with ⟨none_eq, _⟩ | ⟨_, routes, ways, division, routes_eq, settles⟩
  · contradiction
  refine ⟨routes, routes_eq, ?_⟩
  intro text
  have takesFirst : (∃ path ∈ routes.paths,
      grammar.Admits frame config.maxLookahead path text) → ∃ alternative path,
        grammar.FirstAdmits frame config.maxLookahead routes.paths alternative path text ∧
          grammar.decide (.holding text true) routes = .take path := by
    intro someAdmits
    rcases Graph.exists_firstAdmits someAdmits with ⟨alternative, path, first⟩
    exact ⟨alternative, path, first, settles.decide_of_firstAdmits resolved.positive first⟩
  refine ⟨takesFirst, ?_⟩
  intro refused path path_mem admits
  rcases takesFirst ⟨path, path_mem, admits⟩ with ⟨alternative, taken, first, decision_eq⟩
  rcases refused with rejected | ⟨exit, exit_eq, left⟩
  · simp [decision_eq] at rejected
  · rw [decision_eq, Decision.take.injEq] at left
    apply settles.exit_not_mem_paths exit_eq
    rw [← left]
    exact List.mem_of_getElem? first.path_eq

/-- A rule that reads a pair of letters, by two alternatives that begin alike. The second one also
allows what the first one does. -/
def Graph.sharedStart : Graph :=
  (Assembly.assemble do
    let main ← Assembly.rule "main"
    let start ← Assembly.node main
    let narrow ← Assembly.node main
    let wide ← Assembly.node main
    let done ← Assembly.node main
    let letter ← Assembly.matcher (.range 'b' 'd')
    let _ ← Assembly.charEdge main start 'a' narrow
    let _ ← Assembly.charEdge main start 'a' wide
    let _ ← Assembly.charEdge main narrow 'b' done
    Assembly.consumeEdge main wide letter done).2

def Grammar.sharedStart : Grammar := Graph.sharedStart.builtGrammar ⟨"main", 2, false⟩

/-- Of two alternatives for the text the first one is taken, and the second one where only that
allows the text. -/
theorem Grammar.decide_agrees_with_sharedStart :
    (Graph.sharedStart.build ⟨"main", 2, false⟩).result = .ok sharedStart ∧
      Graph.sharedStart.outgoing ⟨0, 0⟩ ≠ [] ∧
      ∃ routes, sharedStart.routes? ⟨0, 0⟩ = some routes ∧
        routes.paths = [[.consume 1 1], [.consume 1 2]] ∧
        Graph.sharedStart.Admits ⟨0, 0⟩ 2 [.consume 1 1] ['a', 'b'] ∧
        Graph.sharedStart.Admits ⟨0, 0⟩ 2 [.consume 1 2] ['a', 'b'] ∧
        sharedStart.decide (.holding ['a', 'b'] true) routes = .take [.consume 1 1] ∧
        Graph.sharedStart.FirstAdmits ⟨0, 0⟩ 2 routes.paths 1 [.consume 1 2] ['a', 'c'] ∧
        sharedStart.decide (.holding ['a', 'c'] true) routes = .take [.consume 1 2] ∧
        sharedStart.decide (.holding ['a', 'x'] true) routes = .reject ∧
        ∀ path ∈ routes.paths, ¬Graph.sharedStart.Admits ⟨0, 0⟩ 2 path ['a', 'x'] := by
  have isOk : (Graph.sharedStart.build ⟨"main", 2, false⟩).result.isOk = true := by decide +kernel
  have goesOn : Graph.sharedStart.outgoing ⟨0, 0⟩ ≠ [] := by decide
  have built : (Graph.sharedStart.build ⟨"main", 2, false⟩).result = .ok sharedStart :=
    Graph.build_eq_builtGrammar isOk
  have narrow : Graph.sharedStart.Admits ⟨0, 0⟩ 2 [.consume 1 1] ['a', 'b'] :=
    ⟨[.consume 2 3], ['a', 'b'], [⟨0, 3⟩],
      Run.iff_walk.mpr ⟨by decide, .cons rfl (.cons rfl .nil)⟩, List.prefix_rfl, .inl rfl⟩
  have wide : ∀ letter, Graph.sharedStart.accepts 0 (.char letter) = true →
      Graph.sharedStart.Admits ⟨0, 0⟩ 2 [.consume 1 2] ['a', letter] := by
    intro letter accepted
    exact ⟨[.consume 0 3], ['a', letter], [⟨0, 3⟩],
      Run.iff_walk.mpr ⟨by decide, .cons rfl (.cons accepted .nil)⟩, List.prefix_rfl, .inl rfl⟩
  have paths_eq : (sharedStart.routes? ⟨0, 0⟩).map Routes.paths =
      some [[.consume 1 1], [.consume 1 2]] := by decide +kernel
  have second : (sharedStart.routes? ⟨0, 0⟩).map (sharedStart.decide (.holding ['a', 'c'] true)) =
      some (.take [.consume 1 2]) := by decide +kernel
  have neither : (sharedStart.routes? ⟨0, 0⟩).map (sharedStart.decide (.holding ['a', 'x'] true)) =
      some .reject := by decide +kernel
  rcases decide_agrees_with_graph built goesOn with ⟨routes, routes_eq, agrees⟩
  rw [routes_eq, Option.map_some, Option.some_inj] at paths_eq second neither
  have narrow_mem : [.consume 1 1] ∈ routes.paths := by simp [paths_eq]
  have wide_mem : [.consume 1 2] ∈ routes.paths := by simp [paths_eq]
  refine ⟨built, goesOn, routes, routes_eq, paths_eq, narrow, wide 'b' rfl, ?_, ?_, second,
    neither, (agrees ['a', 'x']).2 (.inl neither)⟩
  · rcases (agrees ['a', 'b']).1 ⟨_, narrow_mem, narrow⟩ with ⟨alternative, path, first, taken⟩
    cases alternative with
    | zero =>
        have path_eq := first.path_eq
        rw [paths_eq] at path_eq
        cases path_eq
        exact taken
    | succ alternative =>
        exact absurd narrow (first.least 0 (Nat.succ_pos _) _ (by simp [paths_eq]))
  · rcases (agrees ['a', 'c']).1 ⟨_, wide_mem, wide 'c' rfl⟩ with
      ⟨alternative, path, first, taken⟩
    have path_eq := first.path_eq
    rw [second] at taken
    cases taken
    rw [paths_eq] at path_eq
    match alternative, path_eq with
    | 1, _ => exact first

end StreamGrammar
