import StreamGrammar.Proofs.Histories

/-!
# The input is conserved

No code point gets lost, is taken twice or overtakes another one. What has been fed
since a parse began is what has been consumed and, behind that, what waits. The
location is the one after the consumed part, whatever happens to the parse, and
never more symbols wait than a decision may look at.
-/

namespace StreamGrammar

namespace Lookahead

@[simp]
theorem characters_holding (text : List Char) (ended : Bool) :
    (holding text ended).characters = text := by
  cases ended with
  | true => simp [characters, holding, List.filterMap_map, Function.comp_def, Symbol.character?]
  | false => simp [characters, holding, List.filterMap_map, Function.comp_def, Symbol.character?]

theorem characters_push (lookahead : Lookahead) (symbol : Symbol) :
    (lookahead.push symbol).characters =
      lookahead.characters ++ symbol.character?.toList := by
  simp only [characters, push, List.filterMap_append]
  cases symbol with
  | char character => rfl
  | endOfInput => rfl

end Lookahead

theorem Location.offset_advanceAll (location : Location) (text : List Char) :
    (location.advanceAll text).offset = location.offset + text.length := by
  induction text generalizing location with
  | nil => rfl
  | cons character rest ih =>
      rw [advanceAll_cons, ih, offset_advance, List.length_cons]
      omega

namespace Engine

variable {graph : Graph} {maxLookahead : Nat} {begun engine after : Engine}
  {moments further : List Moment}

/-- The code points that waited at the beginning or have arrived since are those consumed since and
those that wait. -/
structure Conserves (begun : Engine) (maxLookahead : Nat) (moments : List Moment)
    (engine : Engine) : Prop where
  text : begun.lookahead.characters ++ Moment.textArrived moments =
    Moment.textConsumed moments ++ engine.lookahead.characters
  location : engine.location = begun.location.advanceAll (Moment.textConsumed moments)
  bounded : engine.lookahead.length ≤ maxLookahead
  unfilled : ∀ waiting symbol, .arrived waiting symbol ∈ moments → waiting.length < maxLookahead

namespace Conserves

/-- What is noted changes nothing as long as what waits and the location stay as they are. -/
theorem noted (conserves : begun.Conserves maxLookahead moments engine)
    (occurrences : List Occurrence)
    (characters_eq : after.lookahead.characters = engine.lookahead.characters)
    (length_le : after.lookahead.length ≤ engine.lookahead.length)
    (location_eq : after.location = engine.location) :
    begun.Conserves maxLookahead (moments ++ occurrences.map .noted) after := by
  refine ⟨?_, ?_, length_le.trans conserves.bounded, ?_⟩
  · simpa [characters_eq] using conserves.text
  · simpa [location_eq] using conserves.location
  · simpa using conserves.unfilled

theorem arrives (conserves : begun.Conserves maxLookahead moments engine)
    (short : engine.lookahead.length < maxLookahead) (symbol : Symbol) :
    begun.Conserves maxLookahead (moments ++ [.arrived engine.lookahead symbol])
      { engine with lookahead := engine.lookahead.push symbol } := by
  have arrived_eq : Moment.textArrived [.arrived engine.lookahead symbol] =
      symbol.character?.toList := by
    cases symbol <;> rfl
  have consumed_eq : Moment.textConsumed [.arrived engine.lookahead symbol] = [] := rfl
  refine ⟨?_, ?_, ?_, ?_⟩
  · rw [Moment.textArrived_append, Moment.textConsumed_append, arrived_eq, consumed_eq,
      List.append_nil, Lookahead.characters_push, ← List.append_assoc, ← List.append_assoc,
      conserves.text]
  · simpa [consumed_eq] using conserves.location
  · rw [Lookahead.length, Lookahead.push, List.length_append, List.length_singleton]
    exact short
  · intro waiting other arrived
    rcases List.mem_append.mp arrived with earlier | now
    · exact conserves.unfilled waiting other earlier
    · cases List.mem_singleton.mp now
      exact short

theorem consumes (conserves : begun.Conserves maxLookahead moments engine) {character : Char}
    {rest : List Symbol} (waits : engine.lookahead.symbols = .char character :: rest) :
    begun.Conserves maxLookahead (moments ++ [.consumed (some (.char character))])
      engine.commit := by
  have consumed_eq : Moment.textConsumed [.consumed (some (.char character))] = [character] := rfl
  have arrived_eq : Moment.textArrived [.consumed (some (.char character))] = [] := rfl
  have characters_eq : engine.lookahead.characters =
      character :: (⟨rest⟩ : Lookahead).characters := by
    simp [Lookahead.characters, waits, Symbol.character?]
  rw [commit_char waits]
  refine ⟨?_, ?_, ?_, ?_⟩
  · rw [Moment.textArrived_append, Moment.textConsumed_append, arrived_eq, consumed_eq,
      List.append_nil, conserves.text, characters_eq, List.append_assoc, List.singleton_append]
  · rw [Moment.textConsumed_append, consumed_eq, Location.advanceAll_append, ← conserves.location]
    rfl
  · have bounded := conserves.bounded
    simp only [Lookahead.length, waits, List.length_cons] at bounded ⊢
    omega
  · simpa using conserves.unfilled

theorem step (conserves : begun.Conserves maxLookahead moments engine)
    (effect : Effect graph maxLookahead engine further after) :
    begun.Conserves maxLookahead (moments ++ further) after := by
  cases effect with
  | asks | begins | moves => exact conserves.noted [] rfl (Nat.le_refl _) rfl
  | arrives _ _ short symbol => exact conserves.arrives short symbol
  | consumes _ waits => exact conserves.consumes waits
  | @notes _ occurrence => exact conserves.noted [occurrence] rfl (Nat.le_refl _) rfl
  | @enters _ _ _ _ occurrences => exact conserves.noted occurrences rfl (Nat.le_refl _) rfl
  | @ends _ occurrence _ _ ending =>
      cases ending with
      | malformed | rejected | unterminated =>
          exact conserves.noted [_] rfl (Nat.le_refl _) rfl
      | succeeds _ _ ended =>
          have characters_eq : engine.lookahead.characters = [] := by
            rw [ended, Lookahead.characters_holding]
          exact conserves.noted [_] characters_eq.symm (Nat.zero_le _) rfl

end Conserves

theorem History.conserves (history : History graph maxLookahead begun moments engine)
    (bounded : begun.lookahead.length ≤ maxLookahead) :
    begun.Conserves maxLookahead moments engine := by
  induction history with
  | refl => exact ⟨by simp, rfl, bounded, by simp⟩
  | step _ effect ih => exact ih.step effect

section Arrivals

variable {grammar : Grammar} {consumer : Consumer}

@[simp]
theorem arrivals_notedUntil (engine after : Engine) :
    Moment.arrivals (engine.notedUntil after) = [] :=
  Moment.arrivals_noted _

theorem arrivals_stepMoments (engine : Engine) (step : Step) :
    Moment.arrivals (engine.stepMoments grammar consumer step) = [] := by
  cases step with
  | call | goto | leave =>
      simp only [stepMoments, List.append_nil]
      exact arrivals_notedUntil _ _
  | consume matcher target =>
      simp only [stepMoments, Moment.arrivals_append, arrivals_notedUntil, List.nil_append]
      split <;> rfl

theorem arrivals_pathMoments (engine : Engine) (path : Path) :
    Moment.arrivals (engine.pathMoments grammar consumer path) = [] := by
  induction path generalizing engine with
  | nil => rfl
  | cons step rest ih =>
      rw [pathMoments]
      split
      next => rw [Moment.arrivals_append, arrivals_stepMoments, ih, List.append_nil]
      next => rfl

theorem arrivals_roundMoments (engine : Engine) :
    Moment.arrivals (engine.roundMoments grammar consumer) = [] := by
  simp only [roundMoments]
  split
  next => rfl
  next => exact arrivals_notedUntil _ _
  next =>
    split
    next => exact arrivals_notedUntil _ _
    next =>
      split
      next => rfl
      next => exact arrivals_pathMoments _ _
      next => exact arrivals_notedUntil _ _

theorem arrivals_settleMoments (engine : Engine) :
    Moment.arrivals (engine.settleMoments grammar consumer) = [] := by
  rw [settleMoments, Moment.arrivals_append, arrivals_roundMoments, List.nil_append]
  cases engine.advance grammar consumer with
  | settled => rfl
  | ongoing next =>
      by_cases closer : next.lookahead.length < engine.lookahead.length ∨
          next.lookahead.length = engine.lookahead.length ∧
            next.stack.length < engine.stack.length
      · simp only [closer, dite_true]
        exact arrivals_settleMoments next
      · simp only [closer, dite_false]
        rfl
termination_by (engine.lookahead.length, engine.stack.length)
decreasing_by
  rcases closer with fewer | ⟨same, fewer⟩
  · exact Prod.Lex.left _ _ fewer
  · exact Prod.Lex.right' _ (Nat.le_of_eq same) fewer

theorem arrivals_feedMoments (engine : Engine) (symbol : Symbol) :
    Moment.arrivals (engine.feedMoments grammar consumer symbol) = [symbol] := by
  have settled_eq : Moment.arrivals (if (engine.arrive grammar consumer [symbol]).status.isRunning
      then (engine.arrive grammar consumer [symbol]).settleMoments grammar consumer else []) =
        [] := by
    split
    next => exact arrivals_settleMoments _
    next => rfl
  have arrived_eq : Moment.arrivals [.arrived engine.lookahead symbol] = [symbol] := rfl
  rw [feedMoments, ← List.singleton_append, List.append_assoc, Moment.arrivals_append,
    Moment.arrivals_append, arrivals_notedUntil, settled_eq, arrived_eq]
  rfl

/-- What arrives while units are taken in is what they encode. -/
theorem textArrived_unitMoments {Unit : Type} (encoding : Encoding Unit) (units : List Unit)
    (taken : Nat) (engine : Engine) :
    ∃ count, (engine.takeUnits grammar consumer encoding units taken).1 = taken + count ∧
      Moment.textArrived (engine.unitMoments grammar consumer encoding units taken) =
        encoding.textOf units count := by
  cases decoded : encoding.decode units with
  | incomplete =>
      refine ⟨0, ?_, ?_⟩
      · rw [takeUnits_of_incomplete decoded]
        rfl
      · rw [unitMoments_of_incomplete decoded, Encoding.textOf_zero]
        rfl
  | malformed malformation =>
      refine ⟨0, ?_, ?_⟩
      · rw [takeUnits_of_malformed decoded]
        rfl
      · rw [unitMoments_of_malformed decoded, Encoding.textOf_zero, Moment.textArrived,
          arrivals_notedUntil]
        rfl
  | char character size =>
      have shorter := encoding.length_drop_lt decoded
      have fed_eq : Moment.textArrived (engine.feedMoments grammar consumer (.char character)) =
          [character] := by
        rw [Moment.textArrived, arrivals_feedMoments]
        rfl
      rw [takeUnits_of_char decoded, unitMoments_of_char decoded]
      simp only [Moment.textArrived_append, fed_eq]
      split
      next =>
        split
        next =>
          refine ⟨size, rfl, ?_⟩
          rw [Encoding.textOf_size decoded]
          rfl
        next =>
          rcases textArrived_unitMoments encoding (units.drop size) (taken + size)
              (engine.feed grammar consumer (.char character)) with ⟨count, taken_eq, text_eq⟩
          refine ⟨size + count, ?_, ?_⟩
          · rw [taken_eq, Nat.add_assoc]
          · rw [text_eq, Encoding.textOf_of_decode decoded]
            rfl
      next =>
        refine ⟨size, rfl, ?_⟩
        rw [Encoding.textOf_size decoded]
        rfl
termination_by units.length
decreasing_by exact shorter

/-- What arrives during a call is the text of the units that it takes. -/
theorem textArrived_callMoments (grammar : Grammar) (engine : Engine) (call : Call) :
    Moment.textArrived (engine.callMoments grammar call) = engine.textOfCall grammar call := by
  cases ongoing : engine.status.isRunning with
  | false =>
      rw [(afterCall_of_ended grammar ongoing call).2]
      simp [callMoments, ongoing]
  | true =>
      cases call with
      | consume consumer encoding units =>
          have taken : ∃ count,
              ({ engine with cancelled := false }.takeUnits grammar consumer encoding units 0).1 =
                0 + count ∧
              Moment.textArrived ({ engine with cancelled := false }.unitMoments grammar consumer
                encoding units 0) = encoding.textOf units count :=
            textArrived_unitMoments encoding units 0 _
          rcases taken with ⟨count, taken_eq, text_eq⟩
          simp only [callMoments, textOfCall, unitsTaken, ongoing, if_true, taken_eq, text_eq,
            Nat.zero_add]
      | endInput consumer =>
          simp only [callMoments, textOfCall, ongoing, if_true, Moment.textArrived,
            arrivals_feedMoments]
          rfl

end Arrivals

end Engine

theorem Session.conserves {grammar : Grammar} {limits : ResolutionLimits} {told : List Callback}
    {moments : List Moment} {engine : Engine} (session : Session grammar told moments engine)
    (resolved : grammar.IsResolved limits) :
    ∃ start, (Engine.ofRule start).Conserves limits.maxLookahead moments engine := by
  rcases session.history resolved with ⟨before, start, _, history⟩
  have conserves := history.conserves (Nat.zero_le _)
  exact ⟨start, conserves.text, conserves.location, conserves.bounded, conserves.unfilled⟩

/-- A call that is answered without an error leaves room for another symbol. -/
theorem Session.length_lt_of_consume {grammar : Grammar} {limits : ResolutionLimits}
    {told : List Callback} {moments : List Moment} {engine after : Engine}
    (session : Session grammar told moments engine) (resolved : grammar.IsResolved limits)
    {Unit : Type} {consumer : Consumer} {encoding : Encoding Unit} {units : List Unit}
    {count : Nat} (answer : engine.consume grammar consumer encoding units = (.ok count, after)) :
    after.lookahead.length < limits.maxLookahead := by
  rcases session.reachable.takes_of_ok resolved answer with ⟨_, _, afterReachable, status_eq⟩
  rcases afterReachable.rests resolved status_eq with ⟨text, waiting, short⟩
  rw [waiting, Lookahead.length_holding_false]
  exact short

/-- However an engine is used, what has been fed to it since its parse began is what has been
consumed, in the same order, and behind that what waits. The location is the one after the consumed
part, and never goes back. At most `maxLookahead` symbols wait, not even while a call is being
carried out do more, and fewer do after a call that takes in units without an error. -/
theorem Grammar.input_is_conserved {graph : Graph} {config : GrammarConfig} {grammar : Grammar}
    (built : (graph.build config).result = .ok grammar) {told : List Callback}
    {moments : List Moment} {engine : Engine} (session : Session grammar told moments engine) :
    Moment.textArrived moments = Moment.textConsumed moments ++ engine.lookahead.characters ∧
      engine.location = Location.start.advanceAll (Moment.textConsumed moments) ∧
      engine.location.offset = (Moment.textConsumed moments).length ∧
      (∀ call, Moment.textArrived (engine.callMoments grammar call) =
          engine.textOfCall grammar call ∧
        engine.location.offset ≤ (engine.afterCall grammar call).location.offset) ∧
      engine.lookahead.length ≤ config.maxLookahead ∧
      (∀ waiting symbol, .arrived waiting symbol ∈ moments →
        waiting.length < config.maxLookahead) ∧
      ∀ (Unit : Type) (consumer : Consumer) (encoding : Encoding Unit) (units : List Unit) count
        after, engine.consume grammar consumer encoding units = (.ok count, after) →
          after.lookahead.length < config.maxLookahead := by
  rcases Graph.build_ok built with ⟨rfl, resolved⟩
  rcases session.conserves resolved with ⟨start, text, location, bounded, unfilled⟩
  have offset_eq : engine.location.offset = (Moment.textConsumed moments).length := by
    rw [location, Location.offset_advanceAll]
    exact Nat.zero_add _
  refine ⟨text, location, offset_eq, ?_, bounded, unfilled, ?_⟩
  · intro call
    refine ⟨Engine.textArrived_callMoments grammar engine call, ?_⟩
    rcases (session.calls call).conserves resolved with ⟨_, _, afterLocation, _⟩
    rw [afterLocation, Location.offset_advanceAll, Moment.textConsumed_append, List.length_append,
      offset_eq]
    exact Nat.le_trans (Nat.le_add_right _ _) (Nat.le_add_left _ _)
  · intro Unit consumer encoding units count after answer
    exact session.length_lt_of_consume resolved answer

/-- A rule that reads letters, the last of which a mark follows. -/
def Graph.markedLetters : Graph :=
  (Assembly.assemble do
    let main ← Assembly.rule "main"
    let letters ← Assembly.node main
    let last ← Assembly.node main
    let done ← Assembly.node main
    let _ ← Assembly.charEdge main letters 'a' letters
    let _ ← Assembly.charEdge main letters 'a' last
    Assembly.charEdge main last '!' done).2

def Grammar.markedLetters : Grammar := Graph.markedLetters.builtGrammar ⟨"main", 2, false⟩

/-- The second letter waits, because what follows it decides where it leads. -/
theorem Grammar.input_is_conserved_markedLetters :
    (Graph.markedLetters.build ⟨"main", 2, false⟩).result = .ok markedLetters ∧
      ∃ moments engine, Session markedLetters [] moments engine ∧
        engine.lookahead = .holding ['a'] false ∧ Moment.textConsumed moments = ['a'] ∧
        Moment.textArrived moments = Moment.textConsumed moments ++ engine.lookahead.characters ∧
        engine.lookahead.length ≤ 2 := by
  have isOk : (Graph.markedLetters.build ⟨"main", 2, false⟩).result.isOk = true := by
    decide +kernel
  have built : (Graph.markedLetters.build ⟨"main", 2, false⟩).result = .ok markedLetters :=
    Graph.build_eq_builtGrammar isOk
  have session : Session markedLetters [] ([] ++ (Engine.ofRule 0).callMoments markedLetters
      (.consume .patient .chars ['a', 'a'])) _ :=
    .calls (.begins 0) (.consume .patient .chars ['a', 'a'])
  have waits : ((Engine.ofRule 0).afterCall markedLetters
      (.consume .patient .chars ['a', 'a'])).lookahead = .holding ['a'] false := by cbv
  have consumed : Moment.textConsumed ([] ++ (Engine.ofRule 0).callMoments markedLetters
      (.consume .patient .chars ['a', 'a'])) = ['a'] := by cbv
  rcases Grammar.input_is_conserved built session with ⟨text, _, _, _, bounded, _⟩
  exact ⟨built, _, _, session, waits, consumed, text, bounded⟩

end StreamGrammar
