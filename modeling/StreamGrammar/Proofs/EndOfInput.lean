import StreamGrammar.Proofs.Histories

/-!
# The end of the input

However an engine is used, the end of the input arrives at most once in a parse and
is the last symbol to arrive. It is never consumed, and it ends the parse, which
nothing but the end of the input can make succeed.
-/

namespace StreamGrammar

namespace Engine

variable {graph : Graph} {maxLookahead : Nat} {begun engine : Engine} {moments : List Moment}

/-- Only code points are consumed. -/
theorem History.exists_character (history : History graph maxLookahead begun moments engine)
    {front? : Option Symbol} (consumed : .consumed front? ∈ moments) :
    ∃ character, front? = some (.char character) := by
  rcases history.exists_effect_of_mem consumed with ⟨_, _, _, effect, now⟩
  cases effect with
  | asks | begins | moves | arrives | notes | enters | ends => simp at now
  | @consumes _ character =>
      cases List.mem_singleton.mp now
      exact ⟨character, rfl⟩

/-- Nothing arrives after the end of the input. -/
theorem History.unended_of_arrived (history : History graph maxLookahead begun moments engine)
    {waiting : Lookahead} {symbol : Symbol} (arrived : .arrived waiting symbol ∈ moments) :
    waiting.hasEnd = false := by
  rcases history.exists_effect_of_mem arrived with ⟨_, _, _, effect, now⟩
  cases effect with
  | asks | begins | moves | consumes | notes | enters | ends => simp at now
  | arrives _ unended =>
      cases List.mem_singleton.mp now
      exact unended

variable {grammar : Grammar} {limits : ResolutionLimits}

/-- Units never make a parse succeed. -/
theorem Reachable.consume_ne_succeeded (reachable : engine.Reachable grammar)
    (resolved : grammar.IsResolved limits) (unfinished : engine.status ≠ .succeeded)
    {Unit : Type} (consumer : Consumer) (encoding : Encoding Unit) (units : List Unit) :
    (engine.consume grammar consumer encoding units).2.status ≠ .succeeded := by
  cases ongoing : engine.status.isRunning with
  | false =>
      simp only [consume, ongoing, Bool.false_eq_true, if_false]
      exact unfinished
  | true =>
      have running := status_of_isRunning ongoing
      rcases reachable.exists_takes resolved running consumer encoding units with
        ⟨_, _, consume_eq, _, _, _, notSucceeded⟩
      rw [consume_eq]
      exact notSucceeded

/-- The end of the input ends a parse that goes on, and the answer tells how. -/
theorem Reachable.endInput_cases (reachable : engine.Reachable grammar)
    (resolved : grammar.IsResolved limits) (running : engine.status = .running)
    (consumer : Consumer) :
    ((engine.endInput grammar consumer).2.status = .succeeded ∧
        (engine.endInput grammar consumer).1 = .ok ()) ∨
      ∃ failure, (engine.endInput grammar consumer).2.status = .failed failure ∧
        (engine.endInput grammar consumer).1 = .error (.parseFailed failure) := by
  have isRunning : engine.status.isRunning = true := congrArg Status.isRunning running
  rcases reachable.exists_holding resolved running with ⟨text, waiting⟩
  have ends := (rests_feed resolved consumer waiting .endOfInput).2
  simp only [endInput, isRunning, if_true, answer]
  cases status_eq : (engine.feed grammar consumer .endOfInput).status with
  | running => exact absurd rfl (ends status_eq)
  | succeeded => exact .inl ⟨rfl, rfl⟩
  | failed failure => exact .inr ⟨failure, rfl, rfl⟩

end Engine

/-- However an engine is used, units never make a parse succeed, and the end of the input always
makes it succeed or fail, which the answer tells. The end of the input is never consumed, and when
a symbol arrives it has not arrived before. -/
theorem Grammar.endInput_settles {graph : Graph} {config : GrammarConfig} {grammar : Grammar}
    (built : (graph.build config).result = .ok grammar) {told : List Callback}
    {moments : List Moment} {engine : Engine} (session : Session grammar told moments engine) :
    (∀ (Unit : Type) (consumer : Consumer) (encoding : Encoding Unit) (units : List Unit),
        engine.status ≠ .succeeded →
          (engine.consume grammar consumer encoding units).2.status ≠ .succeeded) ∧
      (engine.status = .running → ∀ consumer,
        ((engine.endInput grammar consumer).2.status = .succeeded ∧
            (engine.endInput grammar consumer).1 = .ok ()) ∨
          ∃ failure, (engine.endInput grammar consumer).2.status = .failed failure ∧
            (engine.endInput grammar consumer).1 = .error (.parseFailed failure)) ∧
      (∀ front?, .consumed front? ∈ moments → ∃ character, front? = some (.char character)) ∧
      ∀ waiting symbol, .arrived waiting symbol ∈ moments → waiting.hasEnd = false := by
  rcases Graph.build_ok built with ⟨rfl, resolved⟩
  rcases session.history resolved with ⟨before, start, _, history⟩
  have reachable := session.reachable
  refine ⟨?_, ?_, ?_, ?_⟩
  · intro Unit consumer encoding units unfinished
    exact reachable.consume_ne_succeeded resolved unfinished consumer encoding units
  · intro running consumer
    exact reachable.endInput_cases resolved running consumer
  · intro front? consumed
    exact history.exists_character consumed
  · intro waiting symbol arrived
    exact history.unended_of_arrived arrived

/-- After a word, without the dot, the parse goes on, and the end of the input ends it. -/
theorem Grammar.endInput_settles_closedWord :
    (Graph.closedWord.build ⟨"main", 1, false⟩).result = .ok closedWord ∧
      ∃ moments engine, Session closedWord [] moments engine ∧ engine.status = .running ∧
        Moment.textConsumed moments = ['a'] ∧
        (engine.consume closedWord .patient .chars ['.']).2.status ≠ .succeeded ∧
        ((engine.endInput closedWord .patient).2.status = .succeeded ∧
            (engine.endInput closedWord .patient).1 = .ok () ∨
          ∃ failure, (engine.endInput closedWord .patient).2.status = .failed failure ∧
            (engine.endInput closedWord .patient).1 = .error (.parseFailed failure)) := by
  have isOk : (Graph.closedWord.build ⟨"main", 1, false⟩).result.isOk = true := by decide +kernel
  have built : (Graph.closedWord.build ⟨"main", 1, false⟩).result = .ok closedWord :=
    Graph.build_eq_builtGrammar isOk
  have session : Session closedWord [] ([] ++ (Engine.ofRule 0).callMoments closedWord
      (.consume .patient .chars ['a'])) _ :=
    .calls (.begins 0) (.consume .patient .chars ['a'])
  have running : ((Engine.ofRule 0).afterCall closedWord
      (.consume .patient .chars ['a'])).status = .running := by cbv
  have consumed : Moment.textConsumed ([] ++ (Engine.ofRule 0).callMoments closedWord
      (.consume .patient .chars ['a'])) = ['a'] := by cbv
  rcases Grammar.endInput_settles built session with ⟨units, ends, _⟩
  refine ⟨built, _, _, session, running, consumed, ?_, ends running .patient⟩
  exact units Char .patient .chars ['.'] (by rw [running]; simp)

end StreamGrammar
