import StreamGrammar.Proofs.LookaheadFit
import StreamGrammar.Proofs.WayEnumeration
import StreamGrammar.Route.Candidate

/-!
# How candidates are divided

Dividing the candidates of a node follows all alternatives at once, one code point
further in every round, and lets go of a candidate as soon as it is told apart from
those of all other alternatives. Two facts carry everything that is decided from it.
Every candidate stands for a walk from the node that begins with the path of its
alternative. And every walk that is long enough, or leaves the rule, is still
represented at the end, by a route that no other alternative shares a text with or
by a candidate that overlaps.
-/

namespace StreamGrammar

namespace Candidate

/-- The frames that the candidate has led to, none if it has left the rule. -/
def stack (candidate : Candidate) : List Frame :=
  match candidate.next with
  | some place => place.stack
  | none => []

/-- The candidate represents a walk from the node that begins with the path of its alternative, and
has been followed for `depth` code points unless it left the rule before. -/
structure IsFollowed (graph : Graph) (frame : Frame) (paths : List Path) (depth : Nat)
    (candidate : Candidate) : Prop where
  walk : ∃ path rest, paths[candidate.alternative]? = some path ∧
    Walk graph [frame] (path ++ rest) candidate.stack ∧
      Path.matchers (path ++ rest) = candidate.lookahead
  length_le : candidate.lookahead.length ≤ depth
  length_eq : candidate.next.isSome = true → candidate.lookahead.length = depth

/-- The candidate has been followed along a walk, which can go on from where it has led to. -/
def LiesOn (graph : Graph) (steps : Path) (final : List Frame) (candidate : Candidate) : Prop :=
  ∃ rest, Walk graph candidate.stack rest final ∧
    Path.matchers steps = candidate.lookahead ++ Path.matchers rest

/-- One candidate takes the place of another one in the next round. -/
inductive Continues (graph : Graph) (candidate : Candidate) : Candidate → Prop
  | stays (left : candidate.next = none) : Continues graph candidate candidate
  | follows {place : Place} {way : Way} (next_eq : candidate.next = some place)
      (taken : way.IsTakenFrom graph place) : Continues graph candidate (candidate.follow way)

variable {graph : Graph} {frame : Frame} {paths : List Path} {depth : Nat}
  {candidate continued : Candidate} {steps : Path} {final : List Frame}

theorem stack_of_next {place : Place} (next_eq : candidate.next = some place) :
    candidate.stack = place.stack := by
  simp [stack, next_eq]

theorem LiesOn.lookahead_isPrefix (liesOn : candidate.LiesOn graph steps final) :
    candidate.lookahead <+: Path.matchers steps := by
  rcases liesOn with ⟨rest, _, matchers_eq⟩
  rw [matchers_eq]
  exact List.prefix_append _ _

namespace Continues

theorem alternative_eq (continues : candidate.Continues graph continued) :
    continued.alternative = candidate.alternative := by
  cases continues with
  | stays => rfl
  | @follows place way => cases way <;> rfl

theorem lookahead_isPrefix (continues : candidate.Continues graph continued) :
    candidate.lookahead <+: continued.lookahead := by
  cases continues with
  | stays => exact List.prefix_refl _
  | @follows place way =>
      cases way with
      | consuming => exact List.prefix_append _ _
      | leaving => exact List.prefix_refl _

theorem isFollowed (continues : candidate.Continues graph continued)
    (followed : candidate.IsFollowed graph frame paths depth) :
    continued.IsFollowed graph frame paths (depth + 1) := by
  cases continues with
  | stays left =>
      refine ⟨followed.walk, Nat.le_succ_of_le followed.length_le, ?_⟩
      simp [left]
  | @follows place way next_eq taken =>
      have length_eq := followed.length_eq (by simp [next_eq])
      rcases followed.walk with ⟨path, rest, path_eq, walk, matchers_eq⟩
      rw [stack_of_next next_eq] at walk
      cases way with
      | consuming further matcher next =>
          rcases taken with ⟨furtherWalk, silent, target, rfl, silent_eq⟩
          refine ⟨⟨path, rest ++ (silent ++ [.consume matcher target]), path_eq, ?_, ?_⟩, ?_, ?_⟩
          · rw [← List.append_assoc]
            exact walk.trans furtherWalk
          · rw [← List.append_assoc, Path.matchers_append, matchers_eq]
            simp [follow, silent_eq]
          · simp [follow, length_eq]
          · simp [follow, length_eq]
      | leaving further =>
          rcases taken with ⟨furtherWalk, further_eq⟩
          refine ⟨⟨path, rest ++ further, path_eq, ?_, ?_⟩, ?_, ?_⟩
          · rw [← List.append_assoc]
            exact walk.trans furtherWalk
          · rw [← List.append_assoc, Path.matchers_append, matchers_eq]
            simp [follow, further_eq]
          · exact Nat.le_succ_of_le followed.length_le
          · simp [follow]

end Continues

/-- The candidate goes on from one of the given ones. -/
def ComesFrom (candidates : List Candidate) (last : Candidate) : Prop :=
  ∃ candidate ∈ candidates,
    candidate.alternative = last.alternative ∧ candidate.lookahead <+: last.lookahead

namespace ComesFrom

variable {candidates : List Candidate}

theorem of_mem (candidate : Candidate) (candidate_mem : candidate ∈ candidates) :
    candidate.ComesFrom candidates :=
  ⟨candidate, candidate_mem, rfl, List.prefix_refl _⟩

theorem continues (comesFrom : candidate.ComesFrom candidates)
    (continues : candidate.Continues graph continued) : continued.ComesFrom candidates := by
  rcases comesFrom with ⟨first, first_mem, same, isPrefix⟩
  exact ⟨first, first_mem, same.trans continues.alternative_eq.symm,
    isPrefix.trans continues.lookahead_isPrefix⟩

end ComesFrom

/-- A walk that goes on, or leaves the rule, is continued by some candidate. -/
theorem LiesOn.exists_continues (liesOn : candidate.LiesOn graph steps final)
    (goesOn : candidate.lookahead.length < (Path.matchers steps).length ∨ final = []) :
    ∃ continued, candidate.Continues graph continued ∧ continued.LiesOn graph steps final := by
  have liesOn' := liesOn
  rcases liesOn with ⟨rest, walk, matchers_eq⟩
  cases next_eq : candidate.next with
  | none => exact ⟨candidate, .stays next_eq, liesOn'⟩
  | some place =>
      rw [stack_of_next next_eq] at walk
      by_cases silent : Path.matchers rest = []
      · have final_eq : final = [] := by
          rcases goesOn with longer | final_eq
          · simp [matchers_eq, silent] at longer
          · exact final_eq
        subst final_eq
        refine ⟨candidate.follow (.leaving rest), .follows next_eq ⟨walk, silent⟩, [], .refl [], ?_⟩
        simp [follow, matchers_eq, silent]
      · rcases walk.exists_first_way silent with
          ⟨first, matcher, next, further, taken, rfl, furtherWalk, first_eq⟩
        refine ⟨candidate.follow (.consuming first matcher next), .follows next_eq taken, further,
          furtherWalk, ?_⟩
        rw [matchers_eq, Path.matchers_append, first_eq]
        simp [follow]

end Candidate

namespace Graph

variable {graph : Graph}

theorem sublist_eraseDups {Member : Type} [BEq Member] (members : List Member) :
    members.eraseDups.Sublist members := by
  match members with
  | [] => exact List.Sublist.refl []
  | member :: rest =>
      have shorter : (rest.filter fun other => !other == member).length < (member :: rest).length :=
        Nat.lt_succ_of_le (List.length_filter_le _ rest)
      rw [List.eraseDups_cons]
      exact ((sublist_eraseDups _).trans List.filter_sublist).cons_cons member
termination_by members.length
decreasing_by exact shorter

/-- In a list in ascending order every member is kept once, and what is left ascends strictly. -/
theorem pairwise_lt_eraseDups {members : List Nat} (ascending : members.Pairwise (· ≤ ·)) :
    members.eraseDups.Pairwise (· < ·) := by
  match members with
  | [] => exact .nil
  | member :: rest =>
      rcases List.pairwise_cons.mp ascending with ⟨le_rest, restAscending⟩
      have shorter : (rest.filter fun other => !other == member).length < (member :: rest).length :=
        Nat.lt_succ_of_le (List.length_filter_le _ rest)
      rw [List.eraseDups_cons]
      refine List.pairwise_cons.mpr
        ⟨?_, pairwise_lt_eraseDups (restAscending.sublist List.filter_sublist)⟩
      intro other other_mem
      rcases List.mem_filter.mp (List.mem_eraseDups.mp other_mem) with ⟨rest_mem, differs⟩
      have le := le_rest other rest_mem
      simp only [Bool.not_eq_eq_eq_not, Bool.not_true, beq_eq_false_iff_ne] at differs
      omega
termination_by members.length
decreasing_by exact shorter

/-- The candidates stand in the order of their alternatives. -/
def InOrder (candidates : List Candidate) : Prop :=
  candidates.Pairwise fun first second => first.alternative ≤ second.alternative

theorem continuations_ok {candidate : Candidate} {continued : List Candidate}
    (found : graph.continuations candidate = .ok continued) (next : Candidate) :
    next ∈ continued ↔ candidate.Continues graph next := by
  simp only [continuations] at found
  split at found
  next left =>
    cases found
    rw [List.mem_singleton]
    constructor
    · rintro rfl
      exact .stays left
    · intro continues
      cases continues with
      | stays => rfl
      | follows next_eq => simp [left] at next_eq
  next place place_eq =>
    rcases exists_ok_of_bind_eq_ok found with ⟨ways, ways_eq, found⟩
    cases found
    rw [List.mem_map]
    constructor
    · rintro ⟨way, way_mem, rfl⟩
      exact .follows place_eq ((mem_ways_iff ways_eq).mp way_mem)
    · intro continues
      cases continues with
      | stays left => simp [place_eq] at left
      | @follows other way next_eq taken =>
          rw [place_eq, Option.some.injEq] at next_eq
          subst next_eq
          exact ⟨way, (mem_ways_iff ways_eq).mpr taken, rfl⟩

/-- The next round holds exactly what takes the place of the candidates of the last one, and keeps
their order. -/
theorem followAll_ok {candidates continued : List Candidate}
    (found : graph.followAll candidates = .ok continued) :
    (∀ next, next ∈ continued ↔ ∃ candidate ∈ candidates, candidate.Continues graph next) ∧
      (InOrder candidates → InOrder continued) := by
  rcases exists_ok_of_bind_eq_ok found with ⟨all, all_eq, found⟩
  cases found
  rcases exists_lists_of_flatMapM_eq_ok all_eq with ⟨list, list_eq, rfl⟩
  have mem_list : ∀ candidate ∈ candidates, ∀ next, next ∈ list candidate ↔
      candidate.Continues graph next := fun candidate candidate_mem =>
    continuations_ok (list_eq candidate candidate_mem)
  have alternative_eq : ∀ candidate ∈ candidates, ∀ next ∈ list candidate,
      next.alternative = candidate.alternative := fun candidate candidate_mem next next_mem =>
    ((mem_list candidate candidate_mem next).mp next_mem).alternative_eq
  refine ⟨?_, ?_⟩
  · intro next
    rw [List.mem_eraseDups, List.mem_flatMap]
    exact exists_congr fun candidate => and_congr_right fun candidate_mem =>
      mem_list candidate candidate_mem next
  · intro inOrder
    refine List.Pairwise.sublist (sublist_eraseDups _) (List.pairwise_flatMap.mpr ⟨?_, ?_⟩)
    · intro candidate candidate_mem
      refine List.pairwise_of_forall_mem_list ?_
      intro first first_mem second second_mem
      have first_eq := alternative_eq candidate candidate_mem first first_mem
      have second_eq := alternative_eq candidate candidate_mem second second_mem
      omega
    · refine List.Pairwise.imp_of_mem ?_ inOrder
      intro earlier later earlier_mem later_mem le first first_mem second second_mem
      rw [alternative_eq earlier earlier_mem first first_mem,
        alternative_eq later later_mem second second_mem]
      exact le

/-- The routes of the candidates that are told apart from those of all other alternatives. -/
def distinctRoutes (graph : Graph) (depth : Nat) (candidates : List Candidate) : List Route :=
  (candidates.filter (graph.isDistinct candidates)).map (·.toRoute depth)

/-- The candidates that are not. -/
def overlappingOnes (graph : Graph) (candidates : List Candidate) : List Candidate :=
  candidates.filter fun candidate => !graph.isDistinct candidates candidate

/-- How dividing goes: after each round the candidates that overlap are followed further, until the
lookahead limit is reached or all of them have left the rule. -/
inductive Divides (graph : Graph) : (remaining depth : Nat) → List Candidate → Division → Prop
  | stops {remaining depth : Nat} {candidates : List Candidate}
      (ended : remaining = 0 ∨
        ∀ candidate ∈ graph.overlappingOnes candidates, candidate.next = none) :
      Divides graph remaining depth candidates
        ⟨graph.distinctRoutes depth candidates, graph.overlappingOnes candidates, depth⟩
  | goesOn {remaining depth : Nat} {candidates continued : List Candidate} {division : Division}
      (followed : graph.followAll (graph.overlappingOnes candidates) = .ok continued)
      (further : Divides graph remaining (depth + 1) continued division) :
      Divides graph (remaining + 1) depth candidates
        ⟨graph.distinctRoutes depth candidates ++ division.determinate, division.overlapping,
          division.depth⟩

theorem divide_of_left {candidates : List Candidate}
    (allLeft : ∀ candidate ∈ graph.overlappingOnes candidates, candidate.next = none)
    (remaining depth : Nat) : graph.divide remaining depth candidates =
      .ok ⟨graph.distinctRoutes depth candidates, graph.overlappingOnes candidates, depth⟩ := by
  have allOpen : (graph.overlappingOnes candidates).all Candidate.isOpen = true :=
    List.all_eq_true.mpr fun candidate candidate_mem => by
      simp [Candidate.isOpen, allLeft candidate candidate_mem]
  unfold divide
  simp only [List.partition_eq_filter_filter]
  exact if_pos allOpen

theorem divide_zero (depth : Nat) (candidates : List Candidate) :
    graph.divide 0 depth candidates =
      .ok ⟨graph.distinctRoutes depth candidates, graph.overlappingOnes candidates, depth⟩ := by
  unfold divide
  simp only [List.partition_eq_filter_filter, ite_self]
  rfl

theorem divide_succ {candidates : List Candidate}
    (unfinished : ∃ candidate ∈ graph.overlappingOnes candidates, candidate.next ≠ none)
    (remaining depth : Nat) : graph.divide (remaining + 1) depth candidates = do
      let continued ← graph.followAll (graph.overlappingOnes candidates)
      let division ← graph.divide remaining (depth + 1) continued
      return { division with
        determinate := graph.distinctRoutes depth candidates ++ division.determinate } := by
  have notOpen : ¬(graph.overlappingOnes candidates).all Candidate.isOpen = true := by
    rcases unfinished with ⟨candidate, candidate_mem, goesOn⟩
    intro allOpen
    exact goesOn (by simpa [Candidate.isOpen] using List.all_eq_true.mp allOpen _ candidate_mem)
  conv_lhs => unfold divide
  simp only [List.partition_eq_filter_filter]
  exact if_neg notOpen

theorem left_or_unfinished (graph : Graph) (candidates : List Candidate) :
    (∀ candidate ∈ graph.overlappingOnes candidates, candidate.next = none) ∨
      ∃ candidate ∈ graph.overlappingOnes candidates, candidate.next ≠ none := by
  by_cases allLeft : ∀ candidate ∈ graph.overlappingOnes candidates, candidate.next = none
  · exact .inl allLeft
  · push Not at allLeft
    exact .inr allLeft

theorem divides_of_divide {remaining depth : Nat} {candidates : List Candidate}
    {division : Division} (found : graph.divide remaining depth candidates = .ok division) :
    graph.Divides remaining depth candidates division := by
  induction remaining generalizing depth candidates division with
  | zero =>
      rw [divide_zero] at found
      cases found
      exact .stops (.inl rfl)
  | succ remaining ih =>
      rcases graph.left_or_unfinished candidates with allLeft | unfinished
      · rw [divide_of_left allLeft] at found
        cases found
        exact .stops (.inr allLeft)
      · rw [divide_succ unfinished] at found
        rcases exists_ok_of_bind_eq_ok found with ⟨continued, continued_eq, found⟩
        rcases exists_ok_of_bind_eq_ok found with ⟨further, further_eq, found⟩
        cases found
        exact .goesOn continued_eq (ih further_eq)

/-- A candidate that is told apart from those of all other alternatives fits no text that one of
those fits. -/
theorem alternative_eq_of_isDistinct {candidates : List Candidate} {candidate other : Candidate}
    {text : List Char} (distinct : graph.isDistinct candidates candidate = true)
    (other_mem : other ∈ candidates) (fits : graph.Fits candidate.lookahead text)
    (otherFits : graph.Fits other.lookahead text) : other.alternative = candidate.alternative := by
  have apart := List.all_eq_true.mp distinct other other_mem
  simp only [Bool.or_eq_true, beq_iff_eq] at apart
  rcases apart with same | separated
  · exact same
  · exact (not_fits_of_separated separated fits otherFits).elim

theorem mem_distinctRoutes {depth : Nat} {candidates : List Candidate} {route : Route} :
    route ∈ graph.distinctRoutes depth candidates ↔ ∃ candidate ∈ candidates,
      graph.isDistinct candidates candidate = true ∧ candidate.toRoute depth = route := by
  simp [distinctRoutes, and_assoc]

theorem mem_overlappingOnes {candidates : List Candidate} {candidate : Candidate} :
    candidate ∈ graph.overlappingOnes candidates ↔
      candidate ∈ candidates ∧ graph.isDistinct candidates candidate = false := by
  simp [overlappingOnes]

namespace Divides

variable {remaining depth : Nat} {candidates : List Candidate} {division : Division}

theorem depth_le (divides : graph.Divides remaining depth candidates division) :
    depth ≤ division.depth ∧ division.depth ≤ depth + remaining := by
  induction divides with
  | stops => simp
  | goesOn _ _ ih =>
      simp only at ih ⊢
      omega

/-- The candidates that overlap in the end were followed as far as allowed, unless all of them
have left the rule. -/
theorem ended (divides : graph.Divides remaining depth candidates division) :
    (∀ candidate ∈ division.overlapping, candidate.next = none) ∨
      division.depth = depth + remaining := by
  induction divides with
  | stops ended =>
      rcases ended with rfl | allLeft
      · exact .inr rfl
      · exact .inl allLeft
  | goesOn _ _ ih =>
      refine ih.imp_right ?_
      intro depth_eq
      simp only at depth_eq ⊢
      omega

theorem inOrder (divides : graph.Divides remaining depth candidates division)
    (inOrder : InOrder candidates) : InOrder division.overlapping := by
  induction divides with
  | stops => exact List.Pairwise.sublist List.filter_sublist inOrder
  | goesOn followed _ ih =>
      exact ih ((followAll_ok followed).2 (List.Pairwise.sublist List.filter_sublist inOrder))

/-- Shallow routes come first, and none is deeper than the overlapping candidates. -/
theorem depths (divides : graph.Divides remaining depth candidates division) :
    (∀ route ∈ division.determinate, depth ≤ route.depth ∧ route.depth ≤ division.depth) ∧
      division.determinate.Pairwise fun first second => first.depth ≤ second.depth := by
  induction divides with
  | @stops _ depth candidates _ =>
      have depth_eq : ∀ route ∈ graph.distinctRoutes depth candidates, route.depth = depth := by
        intro route route_mem
        rcases mem_distinctRoutes.mp route_mem with ⟨candidate, _, _, rfl⟩
        rfl
      refine ⟨?_, List.pairwise_of_forall_mem_list ?_⟩
      · intro route route_mem
        simp [depth_eq route route_mem]
      · intro first first_mem second second_mem
        simp [depth_eq first first_mem, depth_eq second second_mem]
  | @goesOn _ depth candidates continued division followed further ih =>
      have depth_eq : ∀ route ∈ graph.distinctRoutes depth candidates, route.depth = depth := by
        intro route route_mem
        rcases mem_distinctRoutes.mp route_mem with ⟨candidate, _, _, rfl⟩
        rfl
      have bounds := further.depth_le
      refine ⟨?_, List.pairwise_append.mpr ⟨List.pairwise_of_forall_mem_list ?_, ih.2, ?_⟩⟩
      · intro route route_mem
        rcases List.mem_append.mp route_mem with route_mem | route_mem
        · simp only [depth_eq route route_mem]
          omega
        · have := ih.1 route route_mem
          simp only
          omega
      · intro first first_mem second second_mem
        simp [depth_eq first first_mem, depth_eq second second_mem]
      · intro first first_mem second second_mem
        have := ih.1 second second_mem
        rw [depth_eq first first_mem]
        omega

/-- What holds of the candidates at first, and of every candidate that takes the place of one of
which it holds, holds of everything that dividing results in. -/
theorem preserves {property : Nat → Candidate → Prop}
    (divides : graph.Divides remaining depth candidates division)
    (holds : ∀ candidate ∈ candidates, property depth candidate)
    (step : ∀ {depth : Nat} {candidate continued : Candidate}, property depth candidate →
      candidate.Continues graph continued → property (depth + 1) continued) :
    (∀ route ∈ division.determinate, ∃ candidate : Candidate,
      property route.depth candidate ∧ candidate.toRoute route.depth = route) ∧
    ∀ last ∈ division.overlapping, property division.depth last := by
  induction divides with
  | stops =>
      refine ⟨?_, ?_⟩
      · intro route route_mem
        rcases mem_distinctRoutes.mp route_mem with ⟨candidate, candidate_mem, _, rfl⟩
        exact ⟨candidate, holds candidate candidate_mem, rfl⟩
      · intro last last_mem
        exact holds last (mem_overlappingOnes.mp last_mem).1
  | goesOn continued_eq _ ih =>
      have further := ih fun next next_mem => by
        rcases ((followAll_ok continued_eq).1 next).mp next_mem with
          ⟨candidate, candidate_mem, continues⟩
        exact step (holds candidate (mem_overlappingOnes.mp candidate_mem).1) continues
      refine ⟨?_, further.2⟩
      intro route route_mem
      rcases List.mem_append.mp route_mem with route_mem | route_mem
      · rcases mem_distinctRoutes.mp route_mem with ⟨candidate, candidate_mem, _, rfl⟩
        exact ⟨candidate, holds candidate candidate_mem, rfl⟩
      · exact further.1 route route_mem

/-- Everything that dividing results in goes on from one of the candidates that it began with. -/
theorem descends (divides : graph.Divides remaining depth candidates division) :
    (∀ route ∈ division.determinate, ∃ candidate ∈ candidates,
      candidate.alternative = route.alternative ∧ candidate.lookahead <+: route.lookahead) ∧
    ∀ last ∈ division.overlapping, last.ComesFrom candidates := by
  have preserved := divides.preserves Candidate.ComesFrom.of_mem Candidate.ComesFrom.continues
  refine ⟨?_, preserved.2⟩
  intro route route_mem
  rcases preserved.1 route route_mem with ⟨last, comesFrom, route_eq⟩
  rw [← route_eq]
  exact comesFrom

theorem isFollowed {frame : Frame} {paths : List Path}
    (divides : graph.Divides remaining depth candidates division)
    (followed : ∀ candidate ∈ candidates, candidate.IsFollowed graph frame paths depth) :
    (∀ route ∈ division.determinate, ∃ candidate : Candidate,
      candidate.IsFollowed graph frame paths route.depth ∧ candidate.toRoute route.depth = route) ∧
    ∀ last ∈ division.overlapping, last.IsFollowed graph frame paths division.depth :=
  divides.preserves followed fun followed continues => continues.isFollowed followed

theorem alternative_of_mem_distinctRoutes {candidate : Candidate} {route : Route} {text : List Char}
    (route_mem : route ∈ graph.distinctRoutes depth candidates)
    (candidate_mem : candidate ∈ candidates)
    (routeFits : graph.Fits route.lookahead text) (fits : graph.Fits candidate.lookahead text) :
    route.alternative = candidate.alternative := by
  rcases mem_distinctRoutes.mp route_mem with ⟨other, _, distinct, rfl⟩
  exact (alternative_eq_of_isDistinct distinct candidate_mem routeFits fits).symm

/-- What a candidate fits that is told apart from all others is represented by its route, and by
nothing of any other alternative: whatever dividing results in goes on from some candidate. -/
theorem represents_of_isDistinct {candidate : Candidate} {text : List Char}
    (divides : graph.Divides remaining depth candidates division)
    (candidate_mem : candidate ∈ candidates)
    (distinct : graph.isDistinct candidates candidate = true)
    (fits : graph.Fits candidate.lookahead text) :
    (∀ route ∈ division.determinate, graph.Fits route.lookahead text →
      route.alternative = candidate.alternative) ∧
    ∃ route ∈ division.determinate, route.alternative = candidate.alternative ∧
      graph.Fits route.lookahead text ∧ ∀ last ∈ division.overlapping,
        graph.Fits last.lookahead text → last.alternative = candidate.alternative := by
  refine ⟨?_, candidate.toRoute depth, ?_, rfl, fits, ?_⟩
  · intro route route_mem routeFits
    rcases divides.descends.1 route route_mem with ⟨other, other_mem, other_eq, isPrefix⟩
    rw [← other_eq]
    exact alternative_eq_of_isDistinct distinct other_mem fits
      (routeFits.of_lookaheadPrefix isPrefix)
  · have route_mem : candidate.toRoute depth ∈ graph.distinctRoutes depth candidates :=
      mem_distinctRoutes.mpr ⟨candidate, candidate_mem, distinct, rfl⟩
    cases divides with
    | stops => exact route_mem
    | goesOn => exact List.mem_append_left _ route_mem
  · intro last last_mem lastFits
    rcases divides.descends.2 last last_mem with ⟨other, other_mem, other_eq, isPrefix⟩
    rw [← other_eq]
    exact alternative_eq_of_isDistinct distinct other_mem fits
      (lastFits.of_lookaheadPrefix isPrefix)

/-- A walk that is as long as the lookahead limit, or leaves the rule, is never lost: either a route
of its alternative is fulfilled by every text that the walk consumes, and nothing of any other
alternative, or a candidate of its alternative overlaps in the end. Routes of other alternatives are
not fulfilled in any case. -/
theorem represents {frame : Frame} {paths : List Path} {steps : Path} {final : List Frame}
    {text : List Char} {candidate : Candidate}
    (divides : graph.Divides remaining depth candidates division)
    (followed : ∀ candidate ∈ candidates, candidate.IsFollowed graph frame paths depth)
    (candidate_mem : candidate ∈ candidates) (liesOn : candidate.LiesOn graph steps final)
    (reaches : depth + remaining ≤ (Path.matchers steps).length ∨ final = [])
    (fits : graph.Fits (Path.matchers steps) text) :
    (∀ route ∈ division.determinate, graph.Fits route.lookahead text →
      route.alternative = candidate.alternative) ∧
    ((∃ route ∈ division.determinate, route.alternative = candidate.alternative ∧
        graph.Fits route.lookahead text ∧ ∀ last ∈ division.overlapping,
          graph.Fits last.lookahead text → last.alternative = candidate.alternative) ∨
      ∃ last ∈ division.overlapping, last.alternative = candidate.alternative ∧
        last.LiesOn graph steps final) := by
  -- Round by round, the walk passes through a candidate until that is told apart from the others.
  induction divides generalizing candidate with
  | @stops remaining depth candidates ended =>
      have candidateFits := Fits.of_lookaheadPrefix fits liesOn.lookahead_isPrefix
      cases distinct : graph.isDistinct candidates candidate with
      | true =>
          have stopped : graph.Divides remaining depth candidates _ := .stops ended
          have settled := stopped.represents_of_isDistinct candidate_mem distinct candidateFits
          exact ⟨settled.1, .inl settled.2⟩
      | false =>
          have overlaps := mem_overlappingOnes.mpr ⟨candidate_mem, distinct⟩
          refine ⟨?_, .inr ⟨candidate, overlaps, rfl, liesOn⟩⟩
          intro route route_mem routeFits
          exact alternative_of_mem_distinctRoutes route_mem candidate_mem routeFits candidateFits
  | @goesOn remaining depth candidates continued division continued_eq further ih =>
      have candidateFits := Fits.of_lookaheadPrefix fits liesOn.lookahead_isPrefix
      cases distinct : graph.isDistinct candidates candidate with
      | true =>
          have goesOn := Divides.goesOn continued_eq further
          have settled := goesOn.represents_of_isDistinct candidate_mem distinct candidateFits
          exact ⟨settled.1, .inl settled.2⟩
      | false =>
          have mem_continued := (followAll_ok continued_eq).1
          have continuedFollowed : ∀ next ∈ continued,
              next.IsFollowed graph frame paths (depth + 1) := by
            intro next next_mem
            rcases (mem_continued next).mp next_mem with ⟨other, other_mem, continues⟩
            exact continues.isFollowed (followed other (mem_overlappingOnes.mp other_mem).1)
          have length_le := (followed candidate candidate_mem).length_le
          have goesOn : candidate.lookahead.length < (Path.matchers steps).length ∨ final = [] :=
            reaches.imp_left fun long => by omega
          rcases liesOn.exists_continues goesOn with ⟨next, continues, nextLiesOn⟩
          have next_mem : next ∈ continued := (mem_continued next).mpr
            ⟨candidate, mem_overlappingOnes.mpr ⟨candidate_mem, distinct⟩, continues⟩
          have nextReaches : depth + 1 + remaining ≤ (Path.matchers steps).length ∨ final = [] :=
            reaches.imp_left fun long => by omega
          rcases ih continuedFollowed next_mem nextLiesOn nextReaches with ⟨furtherApart, settled⟩
          rw [continues.alternative_eq] at furtherApart settled
          refine ⟨?_, ?_⟩
          · intro route route_mem routeFits
            rcases List.mem_append.mp route_mem with route_mem | route_mem
            · exact alternative_of_mem_distinctRoutes route_mem candidate_mem routeFits
                candidateFits
            · exact furtherApart route route_mem routeFits
          · rcases settled with ⟨route, route_mem, route_eq, routeFits, apart⟩ | overlaps
            · exact .inl ⟨route, List.mem_append_right _ route_mem, route_eq, routeFits, apart⟩
            · exact .inr overlaps

end Divides

end Graph

end StreamGrammar
