import StreamGrammar.Graph
import StreamGrammar.Proofs.CharSetAlgebra

/-!
# The two readings of a matcher

A matcher tests a code point, and it computes the set of the code points that pass
the test. Both readings agree. Decisions compare the computed sets, so what the
comparison of two sets says is true of the texts that the matchers accept: two
sequences of matchers that are told apart fit no common text, and every text that
fits a covered sequence fits the covering one.
-/

namespace StreamGrammar

/-- The set is canonical, and holds exactly the code points with the property. -/
structure CharSet.Denotes (set : CharSet) (property : Char → Prop) : Prop where
  canonical : set.IsCanonical
  mem_iff : ∀ character, character.toNat ∈ set ↔ property character

namespace CharSet.Denotes

variable {left right : CharSet} {leftProperty rightProperty : Char → Prop}

theorem congr (denotes : left.Denotes leftProperty)
    (same : ∀ character, leftProperty character ↔ rightProperty character) :
    left.Denotes rightProperty :=
  ⟨denotes.canonical, fun character => (denotes.mem_iff character).trans (same character)⟩

theorem full : CharSet.full.Denotes fun _ => True := by
  refine ⟨isCanonical_full, ?_⟩
  intro character
  simp [mem_full, le_maxCodePoint]

theorem empty : CharSet.empty.Denotes fun _ => False :=
  ⟨isCanonical_empty, fun character => by simp [not_mem_empty]⟩

theorem union (leftDenotes : left.Denotes leftProperty)
    (rightDenotes : right.Denotes rightProperty) :
    (left.union right).Denotes fun character =>
      leftProperty character ∨ rightProperty character := by
  refine ⟨isCanonical_union leftDenotes.canonical rightDenotes.canonical, ?_⟩
  intro character
  rw [mem_union leftDenotes.canonical rightDenotes.canonical, leftDenotes.mem_iff,
    rightDenotes.mem_iff]

theorem inter (leftDenotes : left.Denotes leftProperty)
    (rightDenotes : right.Denotes rightProperty) :
    (left.inter right).Denotes fun character =>
      leftProperty character ∧ rightProperty character := by
  refine ⟨isCanonical_inter leftDenotes.canonical rightDenotes.canonical, ?_⟩
  intro character
  rw [mem_inter leftDenotes.canonical rightDenotes.canonical, leftDenotes.mem_iff,
    rightDenotes.mem_iff]

theorem complement (denotes : left.Denotes leftProperty) :
    left.complement.Denotes fun character => ¬leftProperty character := by
  refine ⟨isCanonical_complement denotes.canonical, ?_⟩
  intro character
  rw [mem_complement denotes.canonical, denotes.mem_iff]
  exact and_iff_right (le_maxCodePoint character)

end CharSet.Denotes

namespace Matcher

mutual

/-- The computed set holds exactly the code points that pass the test. -/
theorem denotes_charSet :
    ∀ matcher : Matcher, matcher.charSet.Denotes fun character => matcher.accepts character = true
  | .any => by
      simp only [charSet, accepts]
      exact CharSet.Denotes.full
  | .char expected => by
      refine ⟨CharSet.isCanonical_range expected expected, ?_⟩
      intro character
      simp only [charSet, CharSet.single, CharSet.mem_range, accepts, beq_iff_eq,
        ← Char.toNat_inj]
      omega
  | .range first last => by
      refine ⟨CharSet.isCanonical_range first last, ?_⟩
      intro character
      simp only [charSet, CharSet.mem_range, accepts, Bool.and_eq_true, decide_eq_true_eq]
      exact Iff.rfl
  | .set characters => by
      refine ⟨CharSet.isCanonical_ofChars characters, ?_⟩
      intro character
      simp only [charSet, CharSet.mem_ofChars, accepts, List.contains_iff_mem]
  | .not matcher => by
      refine (denotes_charSet matcher).complement.congr ?_
      intro character
      simp [accepts]
  | .and matchers => by
      refine (denotes_interAll matchers CharSet.Denotes.full).congr ?_
      intro character
      simp [accepts]
  | .or matchers => by
      refine (denotes_unionAll matchers CharSet.Denotes.empty).congr ?_
      intro character
      simp [accepts]

theorem denotes_interAll :
    ∀ (matchers : List Matcher) {set : CharSet} {property : Char → Prop},
      set.Denotes property →
        (interAll set matchers).Denotes fun character =>
          property character ∧ allAccept character matchers = true
  | [], _, _, denotes => by
      simpa [interAll, allAccept] using denotes
  | matcher :: rest, _, _, denotes => by
      refine (denotes_interAll rest (denotes.inter (denotes_charSet matcher))).congr ?_
      intro character
      simp [allAccept, and_assoc]

theorem denotes_unionAll :
    ∀ (matchers : List Matcher) {set : CharSet} {property : Char → Prop},
      set.Denotes property →
        (unionAll set matchers).Denotes fun character =>
          property character ∨ anyAccepts character matchers = true
  | [], _, _, denotes => by
      simpa [unionAll, anyAccepts] using denotes
  | matcher :: rest, _, _, denotes => by
      refine (denotes_unionAll rest (denotes.union (denotes_charSet matcher))).congr ?_
      intro character
      simp [anyAccepts, or_assoc]

end

/-- Looking a code point up in the computed set gives the same answer as testing it. -/
theorem contains_charSet (matcher : Matcher) (character : Char) :
    matcher.charSet.contains character = matcher.accepts character := by
  have denotes := matcher.denotes_charSet
  rw [Bool.eq_iff_iff, CharSet.contains_iff_mem denotes.canonical]
  exact denotes.mem_iff character

end Matcher

namespace Graph

variable {graph : Graph}

theorem denotes_charSet (graph : Graph) (matcher : MatcherId) :
    (graph.charSet matcher).Denotes fun character =>
      graph.accepts matcher (.char character) = true := by
  simp only [charSet, accepts]
  cases graph.matchers[matcher]? with
  | none =>
      refine CharSet.Denotes.empty.congr ?_
      simp
  | some definition =>
      simp only [definition.charSet_eq]
      exact definition.matcher.denotes_charSet

theorem not_accepts_of_isDisjoint {first second : MatcherId} {character : Char}
    (disjoint : (graph.charSet first).isDisjoint (graph.charSet second) = true)
    (accepted : graph.accepts first (.char character) = true) :
    ¬graph.accepts second (.char character) = true := by
  rw [← (graph.denotes_charSet first).mem_iff] at accepted
  rw [← (graph.denotes_charSet second).mem_iff]
  exact CharSet.not_mem_of_isDisjoint (graph.denotes_charSet first).canonical
    (graph.denotes_charSet second).canonical disjoint accepted

theorem accepts_of_isSubset {first second : MatcherId} {character : Char}
    (subset : (graph.charSet first).isSubset (graph.charSet second) = true)
    (accepted : graph.accepts first (.char character) = true) :
    graph.accepts second (.char character) = true := by
  rw [← (graph.denotes_charSet first).mem_iff] at accepted
  rw [← (graph.denotes_charSet second).mem_iff]
  exact CharSet.mem_of_isSubset (graph.denotes_charSet first).canonical
    (graph.denotes_charSet second).canonical subset accepted

theorem not_accepts_endOfInput (graph : Graph) (matcher : MatcherId) :
    graph.accepts matcher .endOfInput = false := by
  simp only [accepts]
  cases graph.matchers[matcher]? with
  | none => rfl
  | some definition => rfl

end Graph

end StreamGrammar
