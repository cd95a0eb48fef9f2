import StreamGrammar.Engine.Decision
import StreamGrammar.Proofs.MatcherSets
import StreamGrammar.Proofs.Walks

/-!
# Sequences of matchers and waiting symbols

A route looks at the coming symbols by a sequence of matchers. This file says what
that means for texts: a sequence fits a text that begins with code points which its
matchers accept one by one. Sequences that are told apart fit no common text, what a
sequence covers fits only texts that it fits itself, and a route is fulfilled by the
waiting symbols exactly when its matchers fit the text that waits.
-/

namespace StreamGrammar

namespace Graph

/-- The text begins with code points that the matchers accept one by one. -/
def Fits (graph : Graph) (lookahead : List MatcherId) (text : List Char) : Prop :=
  ∃ read, read <+: text ∧ graph.Spells lookahead read

variable {graph : Graph}

@[simp]
theorem fits_nil (text : List Char) : graph.Fits [] text :=
  ⟨[], List.nil_prefix, .nil⟩

@[simp]
theorem not_fits_cons_nil (matcher : MatcherId) (rest : List MatcherId) :
    ¬graph.Fits (matcher :: rest) [] := by
  rintro ⟨read, readPrefix, spells⟩
  obtain rfl := List.prefix_nil.mp readPrefix
  cases spells

@[simp]
theorem fits_cons_cons {matcher : MatcherId} {rest : List MatcherId} {character : Char}
    {text : List Char} :
    graph.Fits (matcher :: rest) (character :: text) ↔
      graph.accepts matcher (.char character) = true ∧ graph.Fits rest text := by
  constructor
  · rintro ⟨read, readPrefix, spells⟩
    cases spells with
    | cons accepted restSpells =>
        rw [List.cons_prefix_cons] at readPrefix
        rcases readPrefix with ⟨rfl, readPrefix⟩
        exact ⟨accepted, _, readPrefix, restSpells⟩
  · rintro ⟨accepted, read, readPrefix, spells⟩
    exact ⟨character :: read, (List.prefix_cons_inj character).mpr readPrefix,
      .cons accepted spells⟩

theorem Spells.fits {lookahead : List MatcherId} {read text : List Char}
    (spells : graph.Spells lookahead read) (readPrefix : read <+: text) :
    graph.Fits lookahead text :=
  ⟨read, readPrefix, spells⟩

namespace Fits

theorem of_textPrefix {lookahead : List MatcherId} {text longer : List Char}
    (fits : graph.Fits lookahead text) (textPrefix : text <+: longer) :
    graph.Fits lookahead longer := by
  rcases fits with ⟨read, readPrefix, spells⟩
  exact ⟨read, readPrefix.trans textPrefix, spells⟩

theorem of_lookaheadPrefix {shorter lookahead : List MatcherId} {text : List Char}
    (fits : graph.Fits lookahead text) (shorterPrefix : shorter <+: lookahead) :
    graph.Fits shorter text := by
  rcases shorterPrefix with ⟨rest, rfl⟩
  rcases fits with ⟨read, readPrefix, spells⟩
  rcases Spells.append_iff.mp spells with ⟨first, second, rfl, firstSpells, _⟩
  exact ⟨first, (List.prefix_append first second).trans readPrefix, firstSpells⟩

/-- Whether a sequence fits depends only on as much of the text as it is long. -/
theorem of_take {lookahead : List MatcherId} {text longer : List Char}
    (fits : graph.Fits lookahead longer) (textPrefix : text <+: longer)
    (long : lookahead.length ≤ text.length) : graph.Fits lookahead text := by
  rcases fits with ⟨read, readPrefix, spells⟩
  refine ⟨read, List.prefix_of_prefix_length_le readPrefix textPrefix ?_, spells⟩
  rw [← spells.length_eq]
  exact long

end Fits

/-- Sequences that are told apart fit no common text. -/
theorem not_fits_of_separated {left right : List MatcherId} {text : List Char}
    (separated : graph.separated left right = true) (leftFits : graph.Fits left text) :
    ¬graph.Fits right text := by
  induction left generalizing right text with
  | nil => simp [Graph.separated] at separated
  | cons first left ih =>
      cases right with
      | nil => simp [Graph.separated] at separated
      | cons second right =>
          cases text with
          | nil => simp at leftFits
          | cons character text =>
              rw [fits_cons_cons] at leftFits ⊢
              rintro ⟨accepted, rightFits⟩
              simp only [Graph.separated, List.zip_cons_cons, List.any_cons, Bool.or_eq_true]
                at separated
              rcases separated with disjoint | separated
              · exact not_accepts_of_isDisjoint disjoint leftFits.1 accepted
              · exact ih separated leftFits.2 rightFits

theorem Fits.of_covers {earlier later : List MatcherId} {text : List Char}
    (covers : graph.covers earlier later = true) (laterFits : graph.Fits later text) :
    graph.Fits earlier text := by
  induction earlier generalizing later text with
  | nil => exact fits_nil text
  | cons first earlier ih =>
      cases later with
      | nil => simp [Graph.covers] at covers
      | cons second later =>
          cases text with
          | nil => simp at laterFits
          | cons character text =>
              rw [fits_cons_cons] at laterFits ⊢
              simp only [Graph.covers, List.length_cons, Nat.add_le_add_iff_right,
                List.zip_cons_cons, List.all_cons, Bool.and_eq_true, decide_eq_true_eq] at covers
              rcases covers with ⟨short, subset, covers⟩
              refine ⟨accepts_of_isSubset subset laterFits.1, ih ?_ laterFits.2⟩
              simp only [Graph.covers, Bool.and_eq_true, decide_eq_true_eq]
              exact ⟨short, covers⟩

end Graph

namespace Lookahead

/-- A text waits, and after it the end of the input if that has arrived. -/
def holding (text : List Char) (ended : Bool) : Lookahead :=
  ⟨text.map .char ++ if ended then [.endOfInput] else []⟩

variable {text : List Char} {ended : Bool}

theorem hasEnd_holding : (holding text ended).hasEnd = ended := by
  cases ended with
  | true => simp [holding, hasEnd]
  | false =>
      simp only [holding, hasEnd, Bool.false_eq_true, if_false, List.append_nil,
        List.getLast?_map]
      cases text.getLast? with
      | none => rfl
      | some last => rfl

theorem length_holding_false : (holding text false).length = text.length := by
  simp [holding, length]

theorem satisfies_holding_true (text : List Char) (depth : Nat) :
    (holding text true).satisfies depth = true := by
  simp [satisfies, hasEnd_holding]

theorem satisfies_holding_false {depth : Nat} :
    (holding text false).satisfies depth = true ↔ depth ≤ text.length := by
  simp [satisfies, hasEnd_holding, length_holding_false]

@[simp]
theorem front?_holding_cons (character : Char) (rest : List Char) :
    (holding (character :: rest) ended).front? = some (.char character) := rfl

@[simp]
theorem front?_holding_end : (holding [] true).front? = some .endOfInput := rfl

@[simp]
theorem front?_holding_none : (holding [] false).front? = none := rfl

theorem push_char_holding (character : Char) :
    (holding text false).push (.char character) = holding (text ++ [character]) false := by
  simp [holding, push]

theorem push_end_holding : (holding text false).push .endOfInput = holding text true := by
  simp [holding, push]

/-- Beyond the text every position reads as the end of the input, arrived or not. -/
theorem symbolAt_holding (position : Nat) :
    (holding text ended).symbolAt position = (text[position]?).elim .endOfInput .char := by
  by_cases inside : position < text.length
  · have waiting : (holding text ended).symbols[position]? = some (.char text[position]) := by
      rw [holding, List.getElem?_append_left (by simpa using inside)]
      simp [inside]
    simp [symbolAt, get?, waiting, inside]
  · have beyond : text[position]? = none := by simpa using inside
    rw [beyond, symbolAt, get?, hasEnd_holding]
    cases ended with
    | false => simp [holding, beyond]
    | true =>
        simp only [holding, if_true]
        by_cases atEnd : position = text.length
        · simp [atEnd]
        · have outside : (text.map Symbol.char ++ [.endOfInput])[position]? = none := by
            simp
            omega
          simp [outside]

end Lookahead

/-- The matchers accept the symbols of a text from some position on if they fit the rest of it. -/
theorem Graph.fits_drop_iff {graph : Graph} {lookahead : List MatcherId} {text : List Char}
    {position : Nat} :
    (lookahead.zipIdx position).all (fun (matcher, position) =>
      graph.accepts matcher ((text[position]?).elim .endOfInput .char)) = true ↔
        graph.Fits lookahead (text.drop position) := by
  induction lookahead generalizing position with
  | nil => simp
  | cons matcher rest ih =>
      rw [List.zipIdx_cons, List.all_cons, Bool.and_eq_true, ih]
      by_cases inside : position < text.length
      · rw [List.drop_eq_getElem_cons inside, fits_cons_cons]
        simp [inside]
      · have beyond : text[position]? = none := by simpa using inside
        have dropped : text.drop position = [] := by simpa using inside
        simp [beyond, dropped, Graph.not_accepts_endOfInput]

/-- A route is fulfilled by the waiting symbols if its matchers fit the waiting text. -/
theorem Route.selects_holding_iff {graph : Graph} {route : Route} {text : List Char}
    {ended : Bool} :
    route.selects graph (Lookahead.holding text ended).symbolAt = true ↔
      graph.Fits route.lookahead text := by
  simp only [Route.selects, Lookahead.symbolAt_holding]
  rw [Graph.fits_drop_iff, List.drop_zero]

/-- A route may still be fulfilled if the waiting text fits as many of its matchers as it is
long. -/
theorem Graph.remainsPossible_holding_iff {graph : Graph} {route : Route} {text : List Char} :
    graph.remainsPossible (.holding text false) route = true ↔
      graph.Fits (route.lookahead.take text.length) text := by
  simp only [remainsPossible, Lookahead.symbolAt_holding, Lookahead.length_holding_false]
  rw [Graph.fits_drop_iff, List.drop_zero]

end StreamGrammar
