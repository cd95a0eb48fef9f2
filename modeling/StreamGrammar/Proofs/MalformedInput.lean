import StreamGrammar.Proofs.Conservation

/-!
# Where malformed input is reported

The location of an engine is the one of the next code point to be consumed. When units
turn out to be malformed, code points that were decoded before them may still wait for
a decision. The failure is reported where the first of these stands, and at the
malformed units themselves only if none waits.
-/

namespace StreamGrammar

namespace Engine

variable {grammar : Grammar} {graph : Graph} {consumer : Consumer} {limits : ResolutionLimits}
  {engine after : Engine} {start : RuleId} {told : List Callback} {fed : List Char}

theorem Stopped.status_ne_malformed {passed : List Frame} {node : Frame} {read held : List Char}
    (stopped : engine.Stopped graph start told fed passed node read held) (cause : Malformation)
    (location : Location) : engine.status ≠ .failed ⟨.decoding cause, location⟩ := by
  rcases stopped.failed with ⟨_, _, _, _, status_eq⟩
  simp [status_eq]

theorem Outcome.status_ne_malformed (outcome : Outcome graph consumer engine (.settled after))
    (running : engine.status = .running) (cause : Malformation) (location : Location) :
    after.status ≠ .failed ⟨.decoding cause, location⟩ := by
  intro malformed
  cases outcome with
  | waits => simp [running] at malformed
  | breaks _ broke =>
      rcases broke.underflowed with ⟨_, _, underflowed⟩
      rcases underflowed.failed with ⟨_, _, _, _, status_eq, _⟩
      simp [malformed] at status_eq
  | rejects | unterminated | succeeds => cases malformed

/-- A symbol that is fed never makes the parse fail for malformed input. -/
theorem Tracks.feed_status_ne_malformed (tracks : engine.Tracks grammar.toGraph start told fed)
    (resolved : grammar.IsResolved limits) (consumer : Consumer)
    (running : engine.status = .running) (symbol : Symbol) (cause : Malformation)
    (location : Location) :
    (engine.feed grammar consumer symbol).status ≠ .failed ⟨.decoding cause, location⟩ := by
  rcases tracks.follows_of_running running with ⟨steps, read, follows⟩
  rcases follows.enterStart consumer running symbol rfl with
    ⟨arrivedRunning, entered, arrived⟩ | ⟨failed, stopped⟩
  · simp only [feed, arrivedRunning, Status.isRunning, if_true]
    rcases arrived.exists_last resolved consumer arrivedRunning entered with
      ⟨last, _, _, lastRunning, _, _, outcome⟩
    exact outcome.status_ne_malformed lastRunning cause location
  · simp only [feed, failed, Bool.false_eq_true, if_false]
    exact stopped.status_ne_malformed cause location

variable {Unit : Type} {encoding : Encoding Unit} {units : List Unit} {count : Nat}
  {cause : Malformation} {location : Location}

/-- A parse that fails for malformed input does so where the units are malformed and where the
engine stood, which was at rest. -/
theorem Takes.malformed (takes : Takes grammar consumer encoding engine units count after)
    (resolved : grammar.IsResolved limits) (tracks : engine.Tracks grammar.toGraph start told fed)
    (rests : engine.Rests limits.maxLookahead) (running : engine.status = .running)
    (failed : after.status = .failed ⟨.decoding cause, location⟩) :
    encoding.decode (units.drop count) = .malformed cause ∧ location = after.location ∧
      ∃ text, after.lookahead = .holding text false ∧ text.length < limits.maxLookahead := by
  induction takes generalizing fed with
  | exhausts => simp [running] at failed
  | malforms decoded =>
      cases failed
      exact ⟨decoded, rfl, rests running⟩
  | @ends engine _ character =>
      exact absurd failed
        (tracks.feed_status_ne_malformed resolved consumer running (.char character) cause location)
  | cancels _ isRunning => simp [isRunning] at failed
  | @continues engine _ _ character _ _ _ isRunning _ _ ih =>
      rcases tracks.follows_of_running running with ⟨_, _, follows⟩
      rcases rests running with ⟨_, waiting, _⟩
      have fedTracks := (follows.tracks_feed resolved consumer running (.char character)).1
      have fedRests := (rests_feed resolved consumer waiting (.char character)).1
      rw [← List.drop_drop]
      exact ih fedTracks fedRests isRunning failed

theorem Rests.afterCalls (rests : engine.Rests limits.maxLookahead)
    (resolved : grammar.IsResolved limits) (calls : List Call) :
    (engine.afterCalls grammar calls).Rests limits.maxLookahead := by
  induction calls generalizing engine with
  | nil => exact rests
  | cons call rest ih => exact ih (rests.afterCall resolved call)

/-- What has been fed was consumed or waits, and the location is the one after the former. -/
theorem Tracks.exists_consumed (tracks : engine.Tracks graph start told fed) :
    ∃ consumed, fed = consumed ++ engine.lookahead.characters ∧
      engine.location = Location.start.advanceAll consumed := by
  cases tracks with
  | @follows _ _ read follows =>
      rcases follows.waits with ⟨waiting, lookahead_eq, fed_eq⟩
      refine ⟨read, ?_, follows.location⟩
      rw [lookahead_eq, Lookahead.characters_holding]
      exact fed_eq
  | @stopped _ _ read held stopped =>
      rcases stopped.waits with ⟨waiting, ended, lookahead_eq, fed_eq, _⟩
      refine ⟨read, ?_, stopped.location⟩
      rw [lookahead_eq, Lookahead.characters_holding, ← List.append_assoc]
      exact fed_eq

theorem Tracks.malformed_consume (tracks : engine.Tracks grammar.toGraph start told fed)
    (rests : engine.Rests limits.maxLookahead) (resolved : grammar.IsResolved limits)
    {last : Engine} (failed : engine.consume grammar consumer encoding units =
      (.error (.parseFailed ⟨.decoding cause, location⟩), last)) :
    encoding.decode (units.drop (engine.unitsTaken grammar consumer encoding units)) =
        .malformed cause ∧
      ∃ consumed, fed ++ encoding.textOf units (engine.unitsTaken grammar consumer encoding units) =
          consumed ++ last.lookahead.characters ∧
        last.lookahead.characters.length < limits.maxLookahead ∧
        location = Location.start.advanceAll consumed := by
  rcases takes_of_parseFailed failed with ⟨running, takes, status_eq⟩
  have uncancelled : { engine with cancelled := false }.Tracks grammar.toGraph start told fed :=
    tracks.of_journal false engine.journal rfl
  rcases takes.malformed resolved uncancelled rests running status_eq with
    ⟨malformed, rfl, text, waits, short⟩
  rcases (takes.tracks resolved uncancelled running).1.exists_consumed with
    ⟨consumed, fed_eq, location_eq⟩
  refine ⟨malformed, consumed, fed_eq, ?_, location_eq⟩
  rw [waits, Lookahead.characters_holding]
  exact short

end Engine

/-- Only an empty text leads to no other location. -/
theorem Location.advanceAll_append_eq_iff (location : Location) (text more : List Char) :
    location.advanceAll text = location.advanceAll (text ++ more) ↔ more = [] := by
  constructor
  · intro same
    have offset_eq := congrArg Location.offset same
    rw [offset_advanceAll, offset_advanceAll, List.length_append] at offset_eq
    exact List.length_eq_zero_iff.mp (by omega)
  · rintro rfl
    rw [List.append_nil]

/-- A call that fails for malformed input has taken all units before it. What these and the calls
since the last reset held was consumed or still waits, fewer code points than may be looked at, and
the failure is located after what was consumed. That is where the malformed units begin only if
nothing waits. -/
theorem Grammar.malformed_input_location {graph : Graph} {config : GrammarConfig}
    {grammar : Grammar} (built : (graph.build config).result = .ok grammar) (engine : Engine)
    (start : RuleId) (calls : List Call) {Unit : Type} (consumer : Consumer)
    (encoding : Encoding Unit) (units : List Unit) {cause : Malformation} {location : Location}
    {last : Engine}
    (failed : ((engine.resetTo start).afterCalls grammar calls).consume grammar consumer encoding
      units = (.error (.parseFailed ⟨.decoding cause, location⟩), last)) :
    let taken := ((engine.resetTo start).afterCalls grammar calls).unitsTaken grammar consumer
      encoding units
    let decoded := (engine.resetTo start).textOfCalls grammar calls ++ encoding.textOf units taken
    encoding.decode (units.drop taken) = .malformed cause ∧
      ∃ consumed, decoded = consumed ++ last.lookahead.characters ∧
        last.lookahead.characters.length < config.maxLookahead ∧
        location = Location.start.advanceAll consumed ∧
        (location = Location.start.advanceAll decoded ↔ last.lookahead.characters = []) := by
  intro taken decoded
  have resolved := (Graph.build_ok built).2
  have tracks := (engine.tracks_resetTo grammar.toGraph start).afterCalls resolved calls
  have atRest : (engine.resetTo start).Rests config.maxLookahead := by
    intro _
    exact ⟨[], rfl, resolved.positive⟩
  rcases tracks.malformed_consume (atRest.afterCalls resolved calls) resolved failed with
    ⟨malformed, consumed, text_eq, short, location_eq⟩
  have decoded_eq : decoded = consumed ++ last.lookahead.characters := text_eq
  refine ⟨malformed, consumed, decoded_eq, short, location_eq, ?_⟩
  rw [location_eq, decoded_eq]
  exact Location.advanceAll_append_eq_iff _ _ _

/-- A letter that was decoded still waits where the byte behind it is reported. -/
theorem Grammar.exists_malformed_input_before :
    ∃ last location, (Graph.markedLetters.build ⟨"main", 2, false⟩).result = .ok markedLetters ∧
      (Engine.ofGrammar markedLetters).reset.consume markedLetters .patient .utf8 [0x61, 0xFF] =
        (.error (.parseFailed ⟨.decoding .malformedBytes, location⟩), last) ∧
      Encoding.utf8.textOf [0x61, 0xFF] 1 = ['a'] ∧
      Encoding.utf8.decode [0xFF] = .malformed .malformedBytes ∧
      location ≠ Location.start.advanceAll ['a'] := by
  have isOk : (Graph.markedLetters.build ⟨"main", 2, false⟩).result.isOk = true := by
    decide +kernel
  have answer_eq : ((Engine.ofGrammar markedLetters).reset.consume markedLetters .patient .utf8
      [0x61, 0xFF]).1 = .error (.parseFailed ⟨.decoding .malformedBytes, .start⟩) := by cbv
  have text_eq : Encoding.utf8.textOf [0x61, 0xFF] 1 = ['a'] := by cbv
  have malformed : Encoding.utf8.decode [0xFF] = .malformed .malformedBytes := by cbv
  exact ⟨_, .start, Graph.build_eq_builtGrammar isOk, Prod.ext answer_eq rfl, text_eq, malformed,
    by decide⟩

/-- Of two letters the second one waits, and the byte behind it is reported where that stands. -/
theorem Grammar.malformed_input_location_markedLetters :
    ∃ last location, (Graph.markedLetters.build ⟨"main", 2, false⟩).result = .ok markedLetters ∧
      (((Engine.ofRule 0).resetTo 0).afterCalls markedLetters
        [.consume .patient .utf8 [0x61]]).consume markedLetters .patient .utf8 [0x61, 0xFF] =
          (.error (.parseFailed ⟨.decoding .malformedBytes, location⟩), last) ∧
      last.lookahead.characters.length < 2 ∧
      ∃ consumed, ['a', 'a'] = consumed ++ last.lookahead.characters ∧
        location = Location.start.advanceAll consumed := by
  have isOk : (Graph.markedLetters.build ⟨"main", 2, false⟩).result.isOk = true := by
    decide +kernel
  have built : (Graph.markedLetters.build ⟨"main", 2, false⟩).result = .ok markedLetters :=
    Graph.build_eq_builtGrammar isOk
  have answer_eq : ((((Engine.ofRule 0).resetTo 0).afterCalls markedLetters
      [.consume .patient .utf8 [0x61]]).consume markedLetters .patient .utf8 [0x61, 0xFF]).1 =
        .error (.parseFailed ⟨.decoding .malformedBytes, ⟨1, 2, 1, false⟩⟩) := by cbv
  have taken_eq : ((Engine.ofRule 0).resetTo 0).textOfCalls markedLetters
      [.consume .patient .utf8 [0x61]] ++ Encoding.utf8.textOf [0x61, 0xFF]
        ((((Engine.ofRule 0).resetTo 0).afterCalls markedLetters
          [.consume .patient .utf8 [0x61]]).unitsTaken markedLetters .patient .utf8
            [0x61, 0xFF]) = ['a', 'a'] := by cbv
  rcases malformed_input_location built (.ofRule 0) 0 [.consume .patient .utf8 [0x61]] .patient
    .utf8 [0x61, 0xFF] (Prod.ext answer_eq rfl) with
    ⟨_, consumed, text_eq, short, location_eq, _⟩
  rw [taken_eq] at text_eq
  exact ⟨_, _, built, Prod.ext answer_eq rfl, short, consumed, text_eq, location_eq⟩

end StreamGrammar
