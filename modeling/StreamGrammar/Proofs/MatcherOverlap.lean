import StreamGrammar.Graph.Builder
import StreamGrammar.Grammar
import StreamGrammar.Proofs.CharSetLaws
import StreamGrammar.Proofs.Decoding
import StreamGrammar.Proofs.MatcherSets

/-!
# Overlap of matchers

Sets are compared by their numbers, matchers by the code points that they accept. The
two differ only by the surrogate numbers, which lie in the universe of the sets but
belong to no code point. A matcher's set holds all of them or none, so whether two
matchers overlap, and whether one covers the other, is decided by what they accept and
by whether their sets hold the surrogate numbers.
-/

namespace StreamGrammar

/-- The numbers that no code point has. -/
def IsSurrogate (number : Nat) : Prop := 0xD800 ≤ number ∧ number ≤ 0xDFFF

theorem isSurrogate_or_exists_char {number : Nat} (bounded : number ≤ CharSet.maxCodePoint) :
    IsSurrogate number ∨ ∃ character : Char, character.toNat = number := by
  by_cases surrogate : IsSurrogate number
  · exact .inl surrogate
  · right
    have valid : number.isValidChar := by
      simp only [IsSurrogate, CharSet.maxCodePoint, Nat.isValidChar] at surrogate bounded ⊢
      omega
    exact ⟨Char.ofNat number, toNat_ofNat_of_isValidChar valid⟩

theorem not_isSurrogate_toNat (character : Char) : ¬IsSurrogate character.toNat := by
  intro surrogate
  have valid : character.toNat.isValidChar := character.valid
  simp only [IsSurrogate, Nat.isValidChar] at surrogate valid
  omega

namespace Matcher

mutual

/-- Whether the computed set holds the surrogate numbers. -/
def holdsSurrogates : Matcher → Bool
  | .any => true
  | .char _ => false
  | .range first last => first.toNat < 0xD800 && 0xDFFF < last.toNat
  | .set _ => false
  | .not matcher => !matcher.holdsSurrogates
  | .and matchers => allHoldSurrogates matchers
  | .or matchers => anyHoldsSurrogates matchers

def allHoldSurrogates : List Matcher → Bool
  | [] => true
  | matcher :: rest => matcher.holdsSurrogates && allHoldSurrogates rest

def anyHoldsSurrogates : List Matcher → Bool
  | [] => false
  | matcher :: rest => matcher.holdsSurrogates || anyHoldsSurrogates rest

end

theorem isCanonical_charSet (matcher : Matcher) : matcher.charSet.IsCanonical :=
  matcher.denotes_charSet.canonical

section Surrogates

variable {number : Nat}

mutual

/-- A computed set holds all the surrogate numbers or none. -/
theorem mem_charSet_of_isSurrogate (surrogate : IsSurrogate number) :
    ∀ matcher : Matcher, number ∈ matcher.charSet ↔ matcher.holdsSurrogates = true
  | .any => by
      simp only [charSet, CharSet.mem_full, holdsSurrogates, iff_true]
      exact surrogate.2.trans (by decide)
  | .char expected => by
      have elsewhere := not_isSurrogate_toNat expected
      simp only [IsSurrogate] at surrogate elsewhere
      simp only [charSet, CharSet.single, CharSet.mem_range, holdsSurrogates, Bool.false_eq_true,
        iff_false]
      omega
  | .range first last => by
      have firstElsewhere := not_isSurrogate_toNat first
      have lastElsewhere := not_isSurrogate_toNat last
      simp only [IsSurrogate] at surrogate firstElsewhere lastElsewhere
      simp only [charSet, CharSet.mem_range, holdsSurrogates, Bool.and_eq_true, decide_eq_true_eq]
      omega
  | .set characters => by
      simp only [charSet, CharSet.mem_ofChars_iff_exists, holdsSurrogates, Bool.false_eq_true,
        iff_false]
      rintro ⟨character, _, rfl⟩
      exact not_isSurrogate_toNat character surrogate
  | .not matcher => by
      have bounded : number ≤ CharSet.maxCodePoint := surrogate.2.trans (by decide)
      simp [charSet, CharSet.mem_complement matcher.isCanonical_charSet, holdsSurrogates, bounded,
        mem_charSet_of_isSurrogate surrogate matcher]
  | .and matchers => by
      have bounded : number ≤ CharSet.maxCodePoint := surrogate.2.trans (by decide)
      simp [charSet, holdsSurrogates, CharSet.mem_full, bounded,
        mem_interAll_of_isSurrogate surrogate matchers CharSet.isCanonical_full]
  | .or matchers => by
      simp [charSet, holdsSurrogates, CharSet.not_mem_empty,
        mem_unionAll_of_isSurrogate surrogate matchers CharSet.isCanonical_empty]

theorem mem_interAll_of_isSurrogate (surrogate : IsSurrogate number) :
    ∀ (matchers : List Matcher) {set : CharSet}, set.IsCanonical →
      (number ∈ interAll set matchers ↔ number ∈ set ∧ allHoldSurrogates matchers = true)
  | [], _, _ => by simp [interAll, allHoldSurrogates]
  | matcher :: rest, _, canonical => by
      have cutDown := CharSet.isCanonical_inter canonical matcher.isCanonical_charSet
      simp only [interAll, allHoldSurrogates, Bool.and_eq_true,
        mem_interAll_of_isSurrogate surrogate rest cutDown,
        CharSet.mem_inter canonical matcher.isCanonical_charSet,
        mem_charSet_of_isSurrogate surrogate matcher, and_assoc]

theorem mem_unionAll_of_isSurrogate (surrogate : IsSurrogate number) :
    ∀ (matchers : List Matcher) {set : CharSet}, set.IsCanonical →
      (number ∈ unionAll set matchers ↔ number ∈ set ∨ anyHoldsSurrogates matchers = true)
  | [], _, _ => by simp [unionAll, anyHoldsSurrogates]
  | matcher :: rest, _, canonical => by
      have widened := CharSet.isCanonical_union canonical matcher.isCanonical_charSet
      simp only [unionAll, anyHoldsSurrogates, Bool.or_eq_true,
        mem_unionAll_of_isSurrogate surrogate rest widened,
        CharSet.mem_union canonical matcher.isCanonical_charSet,
        mem_charSet_of_isSurrogate surrogate matcher, or_assoc]

end

end Surrogates

/-- A relation of two sets that disregards the numbers outside of both holds if it holds at the code
points that the matchers accept and at the surrogate numbers. -/
theorem forall_number_iff (left right : Matcher) (relates : Prop → Prop → Prop)
    (outside : relates False False) :
    (∀ number, relates (number ∈ left.charSet) (number ∈ right.charSet)) ↔
      (∀ character, relates (left.accepts character = true) (right.accepts character = true)) ∧
        relates (left.holdsSurrogates = true) (right.holdsSurrogates = true) := by
  have accepted_eq (matcher : Matcher) (character : Char) :
      (character.toNat ∈ matcher.charSet) = (matcher.accepts character = true) :=
    propext (matcher.denotes_charSet.mem_iff character)
  have held_eq (matcher : Matcher) {number : Nat} (surrogate : IsSurrogate number) :
      (number ∈ matcher.charSet) = (matcher.holdsSurrogates = true) :=
    propext (matcher.mem_charSet_of_isSurrogate surrogate)
  constructor
  · intro related
    constructor
    · intro character
      simpa only [accepted_eq] using related character.toNat
    · have first : IsSurrogate 0xD800 := by simp [IsSurrogate]
      simpa only [held_eq _ first] using related 0xD800
  · rintro ⟨atCharacters, atSurrogates⟩ number
    by_cases bounded : number ≤ CharSet.maxCodePoint
    · rcases isSurrogate_or_exists_char bounded with surrogate | ⟨character, rfl⟩
      · simpa only [held_eq _ surrogate] using atSurrogates
      · simpa only [accepted_eq] using atCharacters character
    · have absent (matcher : Matcher) : (number ∈ matcher.charSet) = False := by
        apply eq_false
        intro held
        exact bounded (CharSet.numbers_subset matcher.isCanonical_charSet held)
      simpa only [absent] using outside

theorem isDisjoint_charSet_iff (left right : Matcher) :
    left.charSet.isDisjoint right.charSet = true ↔
      (∀ character, ¬(left.accepts character = true ∧ right.accepts character = true)) ∧
        ¬(left.holdsSurrogates = true ∧ right.holdsSurrogates = true) := by
  rw [CharSet.isDisjoint_iff left.isCanonical_charSet right.isCanonical_charSet,
    Set.eq_empty_iff_forall_notMem]
  apply forall_number_iff left right fun held other => ¬(held ∧ other)
  simp

theorem isSubset_charSet_iff (left right : Matcher) :
    left.charSet.isSubset right.charSet = true ↔
      (∀ character, left.accepts character = true → right.accepts character = true) ∧
        (left.holdsSurrogates = true → right.holdsSurrogates = true) := by
  rw [CharSet.isSubset_iff left.isCanonical_charSet right.isCanonical_charSet]
  apply forall_number_iff left right fun held other => held → other
  simp

/-- Two sets are told apart exactly if no code point passes both tests and at most one of the sets
holds the surrogate numbers, which no code point has. One covers the other exactly if every code
point that passes the one test passes the other and the surrogate numbers are not held by the one
alone. -/
theorem sets_compare_characters_and_surrogates (left right : Matcher) :
    (left.charSet.isDisjoint right.charSet = true ↔
      (∀ character, ¬(left.accepts character = true ∧ right.accepts character = true)) ∧
        ¬(left.holdsSurrogates = true ∧ right.holdsSurrogates = true)) ∧
    (left.charSet.isSubset right.charSet = true ↔
      (∀ character, left.accepts character = true → right.accepts character = true) ∧
        (left.holdsSurrogates = true → right.holdsSurrogates = true)) :=
  ⟨isDisjoint_charSet_iff left right, isSubset_charSet_iff left right⟩

/-- The code points behind the surrogate numbers, and the same ones as those that are not before. -/
def high : Matcher := .range '\uE000' (.ofNat 0x10FFFF)

def notLow : Matcher := .not (.range '\x00' '\uD7FF')

/-- The code points before the surrogate numbers, as those that are not behind. -/
def notHigh : Matcher := .not high

theorem accepts_high_of_notLow {character : Char} (accepted : notLow.accepts character = true) :
    high.accepts character = true := by
  have elsewhere := not_isSurrogate_toNat character
  have bounded := CharSet.le_maxCodePoint character
  simp only [notLow, high, accepts, Bool.not_eq_true', Bool.and_eq_true, Bool.and_eq_false_iff,
    decide_eq_true_eq, decide_eq_false_iff_not] at accepted ⊢
  change ¬0 ≤ character.toNat ∨ ¬character.toNat ≤ 0xD7FF at accepted
  change 0xE000 ≤ character.toNat ∧ character.toNat ≤ 0x10FFFF
  simp only [IsSurrogate, CharSet.maxCodePoint] at elsewhere bounded
  omega

end Matcher

/-- What is wrong with a graph that was to be built. -/
def BuildReport.faults (report : BuildReport) : List BuildError :=
  match report.result with
  | .ok _ => []
  | .error faults => faults

theorem BuildReport.result_eq_error {report : BuildReport} (faulty : report.faults ≠ []) :
    report.result = .error report.faults := by
  simp only [faults] at faulty ⊢
  split
  next result_eq => simp [result_eq] at faulty
  next faults result_eq => exact result_eq

/-- A rule that reads one code point of either half. -/
def Graph.halves : Graph :=
  (Assembly.assemble do
    let main ← Assembly.rule "main"
    let high ← Assembly.namedMatcher "HIGH" .notLow
    let low ← Assembly.namedMatcher "LOW" .notHigh
    let start ← Assembly.node main
    let done ← Assembly.node main
    let _ ← Assembly.consumeEdge main start high done
    Assembly.consumeEdge main start low done).2

/-- No code point is accepted by both halves, and every one that is not before the surrogate numbers
is behind them. Neither is what the comparison of the sets says, so that a strict grammar is refused
for an ambiguity that it does not have. -/
theorem Graph.exists_overlap_without_character :
    (∀ character, ¬(Matcher.notLow.accepts character = true ∧
        Matcher.notHigh.accepts character = true)) ∧
      Matcher.notLow.charSet.isDisjoint Matcher.notHigh.charSet = false ∧
      (∀ character, Matcher.notLow.accepts character = true →
        Matcher.high.accepts character = true) ∧
      Matcher.notLow.charSet.isSubset Matcher.high.charSet = false ∧
      (halves.build ⟨"main", 1, true⟩).result =
        .error [.ambiguous "main" "#0" ["HIGH", "LOW"]] := by
  have faults_eq : (halves.build ⟨"main", 1, true⟩).faults =
      [.ambiguous "main" "#0" ["HIGH", "LOW"]] := by decide +kernel
  refine ⟨?_, by decide +kernel, ?_, by decide +kernel, ?_⟩
  · rintro character ⟨notLow, notHigh⟩
    have high := Matcher.accepts_high_of_notLow notLow
    simp [Matcher.notHigh, Matcher.accepts, high] at notHigh
  · intro character
    exact Matcher.accepts_high_of_notLow
  · rw [← faults_eq]
    exact BuildReport.result_eq_error (by simp [faults_eq])

end StreamGrammar
