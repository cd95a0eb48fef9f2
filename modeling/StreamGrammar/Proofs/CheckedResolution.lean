import StreamGrammar.Proofs.CheckedSearch
import StreamGrammar.Proofs.Resolution

/-!
# Resolving decisions with every lookup checked

The resolver looks up nodes, edges and matchers wherever following candidates leads it,
and paths by the alternatives that routes select. In a sound graph no such lookup
misses: a candidate stands for a walk from the node that is resolved, so that the
places it comes to and the matchers it collects are there, and its alternative is the
position of a path.
-/

namespace StreamGrammar

section Faults

variable {Fault First Result : Type}

theorem run_lift_bind {check : Option First} {answer : First} (check_eq : check = some answer)
    (next : First → ExceptT Fault Option Result) :
    ((liftM check : ExceptT Fault Option First) >>= next).run = (next answer).run := by
  rw [check_eq]
  rfl

theorem run_bind_of_run {first : ExceptT Fault Option First} {outcome : Except Fault First}
    (first_eq : first.run = some outcome) {next : First → ExceptT Fault Option Result}
    {total : First → Except Fault Result}
    (next_eq : ∀ answer, outcome = .ok answer → (next answer).run = some (total answer)) :
    (first >>= next).run = some (outcome >>= total) := by
  rw [ExceptT.run_bind, first_eq]
  cases outcome with
  | error fault => rfl
  | ok answer => exact next_eq answer rfl

theorem run_flatMapM_of_run {Member : Type} {members : List Member}
    {check : Member → ExceptT Fault Option (List Result)}
    {total : Member → Except Fault (List Result)}
    (succeeds : ∀ member ∈ members, (check member).run = some (total member)) :
    (members.flatMapM check).run = some (members.flatMapM total) := by
  induction members with
  | nil => rfl
  | cons first rest ih =>
      rcases List.forall_mem_cons.mp succeeds with ⟨first_eq, rest_eq⟩
      rw [List.flatMapM_cons, List.flatMapM_cons]
      refine run_bind_of_run first_eq fun found _ => ?_
      exact run_bind_of_run (ih rest_eq) fun further _ => rfl

end Faults

namespace Graph

section Definitions

variable (graph : Graph)

def epsilonCycle? (frame : Frame) : Option BuildError := do
  return .epsilonCycle (← graph.ruleName? frame.rule) (← graph.nodeName? frame)

def waysWithin? : (remaining : Nat) → (trail : List Place) → Place →
    ExceptT BuildError Option (List Way)
  | 0, _, place => do throw (← graph.epsilonCycle? place.top)
  | remaining + 1, trail, place => do
      if trail.any (·.repeatsIn place) then throw (← graph.epsilonCycle? place.top)
      else
        match ← graph.outgoing? place.top, place.below with
        | [], [] => return [.leaving [.leave]]
        | [], caller :: below => do
            let ways ← waysWithin? remaining (place :: trail) ⟨caller, below⟩
            return ways.map (Way.after .leave)
        | edges, _ =>
            edges.flatMapM fun edge => do
              let moved := place.moveTo edge.target
              match edge.kind with
              | .consume matcher =>
                  return [.consuming [.consume matcher edge.target] matcher moved]
              | .goto =>
                  let ways ← waysWithin? remaining (place :: trail) moved
                  return ways.map (Way.after (.goto edge.target))
              | .call callee =>
                  let _ ← (graph.rules[callee]? : Option Rule)
                  let ways ← waysWithin? remaining (place :: trail) (moved.enter callee)
                  return ways.map (Way.after (.call callee edge.target))

def ways? (place : Place) : ExceptT BuildError Option (List Way) :=
  graph.waysWithin? (maxWayLength + 1) [] place

def charSet? (matcher : MatcherId) : Option CharSet := do
  let definition ← graph.matchers[matcher]?
  return definition.charSet

def describe? (matcher : MatcherId) : Option String := do
  let definition ← graph.matchers[matcher]?
  return definition.describe

def separated? (left right : List MatcherId) : Option Bool :=
  (left.zip right).anyM fun (first, second) => do
    let firstSet ← graph.charSet? first
    let secondSet ← graph.charSet? second
    return firstSet.isDisjoint secondSet

def covers? (earlier later : List MatcherId) : Option Bool :=
  if earlier.length ≤ later.length then
    (earlier.zip later).allM fun (first, second) => do
      let secondSet ← graph.charSet? second
      let firstSet ← graph.charSet? first
      return secondSet.isSubset firstSet
  else some false

def isDistinct? (candidates : List Candidate) (candidate : Candidate) : Option Bool :=
  candidates.allM fun other =>
    if other.alternative == candidate.alternative then some true
    else graph.separated? candidate.lookahead other.lookahead

def continuations? (candidate : Candidate) : ExceptT BuildError Option (List Candidate) :=
  match candidate.next with
  | none => return [candidate]
  | some place => return (← graph.ways? place).map candidate.follow

def followAll? (candidates : List Candidate) : ExceptT BuildError Option (List Candidate) := do
  let continued ← candidates.flatMapM graph.continuations?
  return continued.eraseDups

/-- Divides candidates for one round: the routes of those that are told apart, and the others. -/
def divideOnce? (depth : Nat) (candidates : List Candidate) :
    Option (List Route × List Candidate) := do
  let distinctness ← candidates.mapM (graph.isDistinct? candidates)
  let (distinct, overlapping) := (candidates.zip distinctness).partition Prod.snd
  return (distinct.map (·.1.toRoute depth), overlapping.map Prod.fst)

def divide? : (remaining : Nat) → (depth : Nat) → List Candidate →
    ExceptT BuildError Option Division
  | remaining, depth, candidates => do
      let (determinate, overlapping) ← graph.divideOnce? depth candidates
      if overlapping.all Candidate.isOpen then
        return { determinate, overlapping, depth }
      match remaining with
      | 0 => return { determinate, overlapping, depth }
      | remaining + 1 =>
          let continued ← graph.followAll? overlapping
          let division ← divide? remaining (depth + 1) continued
          return { division with determinate := determinate ++ division.determinate }

end Definitions

variable {graph : Graph}

section Ways

theorem HasNode.epsilonCycle?_eq {frame : Frame} (exist : graph.HasNode frame) :
    graph.epsilonCycle? frame = some (graph.epsilonCycle frame) := by
  simp [epsilonCycle?, epsilonCycle, exist.ruleName?_eq, exist.nodeName?_eq]

/-- Following edges from places that are there looks nothing up in vain. -/
theorem IsSound.waysWithin?_eq (sound : graph.IsSound) (remaining : Nat) (trail : List Place)
    {place : Place} (exist : graph.HasStack place.stack) :
    (graph.waysWithin? remaining trail place).run =
      some (graph.waysWithin remaining trail place) := by
  induction remaining generalizing trail place with
  | zero =>
      have topExist := exist place.top List.mem_cons_self
      rw [waysWithin?, run_lift_bind topExist.epsilonCycle?_eq]
      rfl
  | succ remaining ih =>
      have topExist := exist place.top List.mem_cons_self
      have belowExist : graph.HasStack place.below := fun frame frame_mem =>
        exist frame (List.mem_cons_of_mem _ frame_mem)
      simp only [waysWithin?, waysWithin]
      split
      next => rw [run_lift_bind topExist.epsilonCycle?_eq]; rfl
      next =>
        rw [run_lift_bind (sound.outgoing?_eq topExist)]
        cases outgoing_eq : graph.outgoing place.top with
        | nil =>
            cases below_eq : place.below with
            | nil => rfl
            | cons caller below =>
                have callerExist : graph.HasStack (Place.mk caller below).stack := by
                  rw [below_eq] at belowExist
                  exact belowExist
                exact run_bind_of_run (ih (place :: trail) callerExist) fun ways _ => rfl
        | cons first rest =>
            refine run_flatMapM_of_run fun edge edge_mem => ?_
            rw [← outgoing_eq] at edge_mem
            have movedExist : graph.HasStack (place.moveTo edge.target).stack :=
              List.forall_mem_cons.mpr ⟨sound.hasNode_target edge_mem, belowExist⟩
            cases kind_eq : edge.kind with
            | consume matcher => rfl
            | goto => exact run_bind_of_run (ih (place :: trail) movedExist) fun ways _ => rfl
            | call callee =>
                have known := sound.callee_lt edge_mem kind_eq
                have enteredExist : graph.HasStack ((place.moveTo edge.target).enter callee).stack :=
                  List.forall_mem_cons.mpr ⟨sound.hasNode_entry known, movedExist⟩
                dsimp only
                rw [run_lift_bind (Array.getElem?_eq_getElem known)]
                exact run_bind_of_run (ih (place :: trail) enteredExist) fun ways _ => rfl

theorem IsSound.ways?_eq (sound : graph.IsSound) {place : Place}
    (exist : graph.HasStack place.stack) :
    (graph.ways? place).run = some (graph.ways place) :=
  sound.waysWithin?_eq (maxWayLength + 1) [] exist

end Ways

section Matchers

/-- The graph has all these matchers. -/
def HasMatchers (graph : Graph) (matchers : List MatcherId) : Prop :=
  ∀ matcher ∈ matchers, matcher < graph.matchers.size

theorem charSet?_eq {matcher : MatcherId} (known : matcher < graph.matchers.size) :
    graph.charSet? matcher = some (graph.charSet matcher) := by
  simp [charSet?, charSet, Array.getElem?_eq_getElem known]

theorem describe?_eq {matcher : MatcherId} (known : matcher < graph.matchers.size) :
    graph.describe? matcher = some (graph.describe matcher) := by
  simp [describe?, describe, Array.getElem?_eq_getElem known]

variable {left right : List MatcherId} (leftKnown : graph.HasMatchers left)
  (rightKnown : graph.HasMatchers right)

include leftKnown rightKnown

theorem separated?_eq : graph.separated? left right = some (graph.separated left right) := by
  refine anyM_eq_some_any fun pair pair_mem => ?_
  rcases pair with ⟨first, second⟩
  rcases List.of_mem_zip pair_mem with ⟨left_mem, right_mem⟩
  simp [charSet?_eq (leftKnown first left_mem), charSet?_eq (rightKnown second right_mem)]

theorem covers?_eq : graph.covers? left right = some (graph.covers left right) := by
  simp only [covers?, covers]
  split
  next short =>
    simp only [short, decide_true, Bool.true_and]
    refine allM_eq_some_all fun pair pair_mem => ?_
    rcases pair with ⟨first, second⟩
    rcases List.of_mem_zip pair_mem with ⟨left_mem, right_mem⟩
    simp [charSet?_eq (leftKnown first left_mem), charSet?_eq (rightKnown second right_mem)]
  next long => simp [long]

end Matchers

section Dividing

variable {candidates : List Candidate}

theorem divideOnce?_eq (known : ∀ candidate ∈ candidates, graph.HasMatchers candidate.lookahead)
    (depth : Nat) : graph.divideOnce? depth candidates =
      some (graph.distinctRoutes depth candidates, graph.overlappingOnes candidates) := by
  have distinct_eq : ∀ candidate ∈ candidates, graph.isDistinct? candidates candidate =
      some (graph.isDistinct candidates candidate) := by
    intro candidate candidate_mem
    refine allM_eq_some_all fun other other_mem => ?_
    rw [separated?_eq (known candidate candidate_mem) (known other other_mem)]
    cases other.alternative == candidate.alternative <;> rfl
  rw [divideOnce?, bind_of_eq_some (mapM_eq_some_map distinct_eq), ← List.map_prod_left_eq_zip]
  simp [List.partition_eq_filter_filter, List.filter_map, Function.comp_def, distinctRoutes,
    overlappingOnes]

variable {frame : Frame} {paths : List Path} {depth : Nat}

theorem IsSound.hasMatchers_of_isFollowed (sound : graph.IsSound) {candidate : Candidate}
    (followed : candidate.IsFollowed graph frame paths depth) :
    graph.HasMatchers candidate.lookahead := by
  rcases followed.walk with ⟨path, rest, _, walk, matchers_eq⟩
  rw [← matchers_eq]
  exact sound.matchers_lt_of_walk walk

theorem IsSound.hasStack_of_isFollowed (sound : graph.IsSound) (exist : graph.HasNode frame)
    {candidate : Candidate} (followed : candidate.IsFollowed graph frame paths depth) :
    graph.HasStack candidate.stack := by
  rcases followed.walk with ⟨path, rest, _, walk, _⟩
  exact sound.hasStack_of_walk walk (List.forall_mem_singleton.mpr exist)

theorem IsSound.followAll?_eq (sound : graph.IsSound)
    (exist : ∀ candidate ∈ candidates, graph.HasStack candidate.stack) :
    (graph.followAll? candidates).run = some (graph.followAll candidates) := by
  have continued_eq : (candidates.flatMapM graph.continuations?).run =
      some (candidates.flatMapM graph.continuations) := by
    refine run_flatMapM_of_run fun candidate candidate_mem => ?_
    have stackExist := exist candidate candidate_mem
    simp only [continuations?, continuations]
    cases next_eq : candidate.next with
    | none => rfl
    | some place =>
        rw [Candidate.stack_of_next next_eq] at stackExist
        exact run_bind_of_run (sound.ways?_eq stackExist) fun ways _ => rfl
  exact run_bind_of_run continued_eq fun continued _ => rfl

theorem all_isOpen_iff : candidates.all Candidate.isOpen = true ↔
    ∀ candidate ∈ candidates, candidate.next = none := by
  simp [Candidate.isOpen]

/-- Dividing candidates that stand for walks looks nothing up in vain. -/
theorem IsSound.divide?_eq (sound : graph.IsSound) (exist : graph.HasNode frame) (remaining : Nat)
    (followed : ∀ candidate ∈ candidates, candidate.IsFollowed graph frame paths depth) :
    (graph.divide? remaining depth candidates).run =
      some (graph.divide remaining depth candidates) := by
  have known : ∀ {depth : Nat} {candidates : List Candidate},
      (∀ candidate ∈ candidates, candidate.IsFollowed graph frame paths depth) →
      ∀ candidate ∈ candidates, graph.HasMatchers candidate.lookahead :=
    fun followed candidate candidate_mem =>
      sound.hasMatchers_of_isFollowed (followed candidate candidate_mem)
  induction remaining generalizing depth candidates with
  | zero =>
      rw [divide?, run_lift_bind (divideOnce?_eq (known followed) depth), divide_zero]
      simp only [ite_self]
      rfl
  | succ remaining ih =>
      rw [divide?, run_lift_bind (divideOnce?_eq (known followed) depth)]
      dsimp only
      rcases graph.left_or_unfinished candidates with allLeft | unfinished
      · rw [divide_of_left allLeft, if_pos (all_isOpen_iff.mpr allLeft)]
        rfl
      · have notOpen : ¬(graph.overlappingOnes candidates).all Candidate.isOpen = true := by
          rw [all_isOpen_iff]
          push Not
          exact unfinished
        rw [divide_succ unfinished, if_neg notOpen]
        -- What is left to tell apart still stands for walks, one code point further on.
        have overlappingFollowed : ∀ candidate ∈ graph.overlappingOnes candidates,
            candidate.IsFollowed graph frame paths depth := fun candidate candidate_mem =>
          followed candidate (mem_overlappingOnes.mp candidate_mem).1
        refine run_bind_of_run (sound.followAll?_eq fun candidate candidate_mem =>
          sound.hasStack_of_isFollowed exist (overlappingFollowed candidate candidate_mem))
          fun continued continued_eq => ?_
        have continuedFollowed : ∀ next ∈ continued,
            next.IsFollowed graph frame paths (depth + 1) := by
          intro next next_mem
          rcases ((followAll_ok continued_eq).1 next).mp next_mem with
            ⟨candidate, candidate_mem, continues⟩
          exact continues.isFollowed (overlappingFollowed candidate candidate_mem)
        exact run_bind_of_run (ih continuedFollowed) fun division _ => rfl

end Dividing

end Graph

end StreamGrammar
