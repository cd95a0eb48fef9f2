import StreamGrammar.Proofs.ListedEdges

/-!
# Shared matchers

The matchers for single code points are shared: each is declared when it is first asked
for and answered again ever after. Other matchers may accept the same code points, but they
are never answered for them. Whatever is declared keeps the matchers that there are and
which of them are shared, and so a shared matcher always accepts just its code point.
-/

namespace StreamGrammar

theorem getElem?_push_of_eq_some {Member : Type} {members : Array Member} {index : Nat}
    {member : Member} (found : members[index]? = some member) (added : Member) :
    (members.push added)[index]? = some member := by
  rcases Array.getElem?_eq_some_iff.mp found with ⟨inside, member_eq⟩
  rw [Array.getElem?_push_lt inside, member_eq]

namespace Builder

/-- The shared matchers accept just the code points that they are shared for. -/
def SharesMatchers (builder : Builder) : Prop :=
  ∀ (character : Char) (matcher : MatcherId),
    builder.charMatchers.lookup character = some matcher →
      builder.matchers[matcher]? = some { matcher := .char character }

/-- Matchers are what they were, and the shared ones are still shared. -/
structure KeepsMatchers (builder after : Builder) : Prop where
  defined : ∀ (matcher : MatcherId) (definition : MatcherDef),
    builder.matchers[matcher]? = some definition → after.matchers[matcher]? = some definition
  shared : ∀ (character : Char) (matcher : MatcherId),
    builder.charMatchers.lookup character = some matcher →
      after.charMatchers.lookup character = some matcher

/-- The matcher accepts just the code point, and is the one that is answered whenever the matcher
for the code point is asked for. -/
def Shares (builder : Builder) (character : Char) (matcher : MatcherId) : Prop :=
  (Assembly.charMatcher character).run builder = (matcher, builder) ∧
    builder.matchers[matcher]? = some { matcher := .char character }

variable {builder after : Builder} {character : Char} {matcher : MatcherId}

namespace KeepsMatchers

theorem of_eq (matchers_eq : after.matchers = builder.matchers)
    (shared_eq : after.charMatchers = builder.charMatchers) : builder.KeepsMatchers after where
  defined matcher definition defined := by rwa [matchers_eq]
  shared character matcher shared := by rwa [shared_eq]

theorem trans {third : Builder} (before : builder.KeepsMatchers after)
    (further : after.KeepsMatchers third) : builder.KeepsMatchers third where
  defined matcher definition defined :=
    further.defined matcher definition (before.defined matcher definition defined)
  shared character matcher shared :=
    further.shared character matcher (before.shared character matcher shared)

theorem coversChanges : CoversChanges KeepsMatchers where
  refl _ := .of_eq rfl rfl
  trans := trans
  addRule _ _ := .of_eq rfl rfl
  define builder definition :=
    ⟨fun _ _ defined => getElem?_push_of_eq_some defined definition, fun _ _ shared => shared⟩
  share builder character unshared := by
    refine ⟨fun _ _ defined => getElem?_push_of_eq_some defined _, ?_⟩
    intro other matcher shared
    have differs : other ≠ character := by
      rintro rfl
      rw [unshared] at shared
      cases shared
    rwa [List.lookup_cons, beq_eq_false_iff_ne.mpr differs]
  addNode _ _ _ _ := .of_eq rfl rfl
  addEdge _ _ _ := .of_eq rfl rfl

end KeepsMatchers

theorem SharesMatchers.coversChanges :
    CoversChanges fun builder after => builder.SharesMatchers → after.SharesMatchers where
  refl _ shares := shares
  trans before after shares := after (before shares)
  addRule _ _ shares := shares
  define _ definition shares character matcher shared :=
    getElem?_push_of_eq_some (shares character matcher shared) definition
  share builder character _ shares := by
    intro other matcher shared
    rw [List.lookup_cons] at shared
    split at shared
    next same =>
      obtain rfl := Option.some.inj shared
      rw [eq_of_beq same]
      exact Array.getElem?_push_size
    next => exact getElem?_push_of_eq_some (shares other matcher shared) _
  addNode _ _ _ _ shares := shares
  addEdge _ _ _ shares := shares

theorem IsAssembled.sharesMatchers (assembled : builder.IsAssembled) :
    builder.SharesMatchers := by
  induction assembled with
  | empty =>
      intro character matcher shared
      cases shared
  | declare _ declaration _ ih => exact SharesMatchers.coversChanges.perform _ declaration ih

theorem SharesMatchers.shares (shares : builder.SharesMatchers)
    (found : builder.charMatchers.lookup character = some matcher) :
    builder.Shares character matcher := by
  refine ⟨?_, shares character matcher found⟩
  simp only [Assembly.charMatcher, StateT.run_bind, StateT.run_get, pure_bind, found]
  rfl

/-- The matcher that is answered is shared from then on. -/
theorem lookup_charMatcher (builder : Builder) (character : Char) :
    ((Assembly.charMatcher character).run builder).2.charMatchers.lookup character =
      some ((Assembly.charMatcher character).run builder).1 := by
  simp only [Assembly.charMatcher, StateT.run_bind, StateT.run_get, pure_bind]
  cases found : builder.charMatchers.lookup character with
  | some matcher => exact found
  | none => exact List.lookup_cons_self

end Builder

end StreamGrammar
