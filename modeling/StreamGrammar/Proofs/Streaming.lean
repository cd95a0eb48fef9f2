import StreamGrammar.Proofs.DecisionLoop

/-!
# Decisions taken early

An engine decides as soon as what waits allows it, before it knows what follows. No
parse would go differently if the whole input waited from the beginning. A decision
that is not put off stays the same whatever arrives behind the symbols that it was
taken on, and carrying it out does not touch what waits behind them. The one thing
that shows how much had arrived is the text that a rejection has found.
-/

namespace StreamGrammar

def Callback.withoutMessage : Callback → Callback
  | .fatalError _ => .fatalError ""
  | callback => callback

/-- The cause, with the expected symbols but without those that were found. -/
def FailureCause.withoutFound : FailureCause → FailureCause
  | .syntaxError _ expected => .syntaxError "" expected
  | cause => cause

def Status.withoutFound : Status → Status
  | .failed failure => .failed { failure with cause := failure.cause.withoutFound }
  | status => status

/-- While a part of the input waits, a decision that is not put off is the one that is taken on
every continuation of it. -/
theorem Grammar.IsResolved.decide_append {grammar : Grammar} {limits : ResolutionLimits}
    (resolved : grammar.IsResolved limits) {frame : Frame} {routes : Routes}
    (routes_eq : grammar.routes? frame = some routes) {text : List Char} (waits : text ≠ [])
    (decided : grammar.decide (.holding text false) routes ≠ .needMore) (rest : List Char)
    (ended : Bool) :
    grammar.decide (.holding (text ++ rest) ended) routes =
      grammar.decide (.holding text false) routes := by
  rcases resolved.exists_settles routes_eq with ⟨ways, division, settles⟩
  rcases settles.decide_holding_append waits rest ended with putOff | same
  · contradiction
  · exact same.symm

namespace Engine

/-- The parses stand alike, and have told their consumers the same, but for the symbols that a
rejection has found. -/
structure Concurs (engine other : Engine) : Prop where
  callbacks : engine.callbacks.map Callback.withoutMessage =
    other.callbacks.map Callback.withoutMessage
  stack : engine.stack = other.stack
  capture : engine.capture = other.capture
  location : engine.location = other.location
  status : engine.status.withoutFound = other.status.withoutFound

variable {grammar : Grammar} {consumer : Consumer} {limits : ResolutionLimits}
  {engine : Engine} {more : List Symbol}

theorem Concurs.refl (engine : Engine) : engine.Concurs engine := ⟨rfl, rfl, rfl, rfl, rfl⟩

theorem concurs_withMore (engine : Engine) (more : List Symbol) :
    engine.Concurs (engine.withMore more) := ⟨rfl, rfl, rfl, rfl, rfl⟩

theorem concurs_reject_withMore (engine : Engine) (consumer : Consumer) (more : List Symbol)
    (expected : List String) :
    (engine.reject consumer expected).Concurs
      ((engine.withMore more).reject consumer expected) := by
  refine ⟨?_, rfl, rfl, rfl, rfl⟩
  simp only [reject, fail, callbacks_note, List.map_append]
  rfl

section WithMore

theorem unnoticed_withMore (more : List Symbol) (consumer : Consumer) :
    Unnoticed (fun lookahead => ⟨lookahead.symbols ++ more⟩) id id consumer consumer :=
  fun _ _ _ => rfl

theorem withMore_commit (waits : engine.lookahead.symbols ≠ []) :
    engine.commit.withMore more = (engine.withMore more).commit := by
  rcases List.exists_cons_of_ne_nil waits with ⟨symbol, rest, symbols_eq⟩
  cases symbol with
  | char character => simp [commit, withMore, Lookahead.front?, Lookahead.commit, symbols_eq]
  | endOfInput => simp [commit, withMore, Lookahead.front?, Lookahead.commit, symbols_eq]

/-- A step consumes the first symbol that waits, if any, whatever is behind it. -/
theorem withMore_takeStep (more : List Symbol) (consumer : Consumer)
    (running : engine.status = .running) {step : Step} {read : List Char}
    (enabled : step.IsEnabled grammar.toGraph engine.stack)
    (reads : step.Reads grammar.toGraph read)
    (waits : read.map .char <+: engine.lookahead.symbols) :
    (engine.takeStep grammar consumer step).withMore more =
      (engine.withMore more).takeStep grammar consumer step := by
  apply alter_takeStep (unnoticed_withMore more consumer)
  rintro matcher target rfl
  rcases List.exists_cons_of_ne_nil (Step.stack_ne_nil_of_isEnabled enabled) with
    ⟨top, below, stack_eq⟩
  have kept := (moveTo_spec grammar consumer running stack_eq target).1
  have lookahead_eq : (engine.moveTo grammar consumer target).lookahead = engine.lookahead :=
    kept.lookahead
  apply withMore_commit
  rw [lookahead_eq]
  rcases Step.exists_of_reads_consume reads with ⟨character, rfl, _⟩
  rcases waits with ⟨others, waits_eq⟩
  simp [← waits_eq]

theorem withMore_takePath (more : List Symbol) (consumer : Consumer)
    (running : engine.status = .running) {path : Path} {read : List Char} {final : List Frame}
    (run : Run grammar.toGraph engine.stack path read final)
    (waits : read.map .char <+: engine.lookahead.symbols) :
    (engine.takePath grammar consumer path).withMore more =
      (engine.withMore more).takePath grammar consumer path := by
  induction path generalizing engine read with
  | nil => rfl
  | cons step rest ih =>
      cases run with
      | @step _ _ _ _ first further enabled reads restRun =>
          have stepWaits : first.map .char <+: engine.lookahead.symbols := by
            rw [List.map_append] at waits
            exact (List.prefix_append _ _).trans waits
          have pushedRunning : (engine.withMore more).status = .running := running
          rw [takePath_cons running, takePath_cons pushedRunning,
            ← withMore_takeStep more consumer running enabled reads stepWaits]
          rcases takeStep_spec consumer running enabled reads stepWaits with took | broke
          · rcases took.rest restRun waits with ⟨afterRun, afterWaits⟩
            exact ih took.performed.running afterRun afterWaits
          · have ended : ((engine.takeStep grammar consumer step).withMore more).status.isRunning =
                false := broke.ended
            rw [takePath_of_ended broke.ended, takePath_of_ended ended]

end WithMore

section Advance

variable {symbol : Symbol} {top : Frame} {below : List Frame} {routes : Routes}

theorem advance_of_take (consumer : Consumer) (front_eq : engine.lookahead.front? = some symbol)
    (stack_eq : engine.stack = top :: below) (routes_eq : grammar.routes? top = some routes)
    {path : Path} (decided : grammar.decide engine.lookahead routes = .take path) :
    engine.advance grammar consumer = (engine.takePath grammar consumer path).progress := by
  simp only [advance, front_eq, stack_eq, routes_eq, decided]

theorem advance_of_reject (consumer : Consumer)
    (front_eq : engine.lookahead.front? = some symbol) (stack_eq : engine.stack = top :: below)
    (routes_eq : grammar.routes? top = some routes)
    (decided : grammar.decide engine.lookahead routes = .reject) :
    engine.advance grammar consumer = .settled (engine.reject consumer routes.expected) := by
  simp only [advance, front_eq, stack_eq, routes_eq, decided]

theorem advance_of_edgeless (consumer : Consumer)
    (running : engine.status = .running) (front_eq : engine.lookahead.front? = some symbol)
    (stack_eq : engine.stack = top :: below) (routes_eq : grammar.routes? top = none) :
    engine.advance grammar consumer = (engine.takePath grammar consumer [.leave]).progress := by
  simp only [advance, front_eq, stack_eq, routes_eq, leave_eq_takePath running]

theorem front?_withMore (front_eq : engine.lookahead.front? = some symbol) (more : List Symbol) :
    (engine.withMore more).lookahead.front? = some symbol := by
  simp only [Lookahead.front?, withMore] at front_eq ⊢
  rw [List.head?_append, front_eq]
  rfl

/-- How a decision compares with the one that is taken while more symbols wait behind the others: it
is put off, or both lead to the same, or both end the parse in the same way. -/
inductive Anticipates (engine : Engine) (more : List Symbol) : Progress → Progress → Prop
  | waits {whole : Progress} : Anticipates engine more (.settled engine) whole
  | moves (next : Engine) : Anticipates engine more (.ongoing next) (.ongoing (next.withMore more))
  | ends {last whole : Engine} (ended : last.status.isRunning = false)
      (concurs : last.Concurs whole) :
      Anticipates engine more (.settled last) (.settled whole)

theorem anticipates_progress (engine after : Engine) (more : List Symbol) :
    engine.Anticipates more after.progress (after.withMore more).progress := by
  have status_eq : (after.withMore more).status = after.status := rfl
  simp only [progress, status_eq]
  split
  next => exact .moves after
  next ended => exact .ends (by simpa using ended) (concurs_withMore after more)

theorem decide_withMore (resolved : grammar.IsResolved limits) (awaits : engine.Awaits false)
    (front_eq : engine.lookahead.front? = some symbol)
    (routes_eq : grammar.routes? top = some routes)
    (decided : grammar.decide engine.lookahead routes ≠ .needMore) (rest : List Char)
    (ended : Bool) :
    grammar.decide (engine.withMore (Lookahead.holding rest ended).symbols).lookahead routes =
      grammar.decide engine.lookahead routes := by
  rcases awaits.waits with ⟨text, waiting⟩
  have text_ne : text ≠ [] := by
    rintro rfl
    rw [waiting] at front_eq
    cases front_eq
  have whole_eq : (engine.withMore (Lookahead.holding rest ended).symbols).lookahead =
      .holding (text ++ rest) ended := by
    simp [withMore, waiting, Lookahead.holding]
  rw [waiting] at decided
  rw [whole_eq, waiting, resolved.decide_append routes_eq text_ne decided]

/-- A path is taken whatever waits behind the symbols that it was decided on. -/
theorem advance_withMore_of_take (resolved : grammar.IsResolved limits)
    (awaits : engine.Awaits false) (front_eq : engine.lookahead.front? = some symbol)
    (stack_eq : engine.stack = top :: below) (routes_eq : grammar.routes? top = some routes)
    {path : Path} (decided : grammar.decide engine.lookahead routes = .take path)
    (consumer : Consumer) (rest : List Char) (ended : Bool) :
    (engine.withMore (Lookahead.holding rest ended).symbols).advance grammar consumer =
      ((engine.withMore (Lookahead.holding rest ended).symbols).takePath grammar consumer
        path).progress := by
  have notPutOff : grammar.decide engine.lookahead routes ≠ .needMore := by simp [decided]
  have same := decide_withMore resolved awaits front_eq routes_eq notPutOff rest ended
  exact advance_of_take consumer (front?_withMore front_eq _) stack_eq routes_eq
    (same.trans decided)

theorem Proceeds.advance_withMore {path : Path} {read : List Char} {final : List Frame}
    (proceeds : engine.Proceeds grammar path read final) (resolved : grammar.IsResolved limits)
    (awaits : engine.Awaits false) (front_eq : engine.lookahead.front? = some symbol)
    (consumer : Consumer) (rest : List Char) (ended : Bool) :
    (engine.withMore (Lookahead.holding rest ended).symbols).advance grammar consumer =
      ((engine.takePath grammar consumer path).withMore
        (Lookahead.holding rest ended).symbols).progress := by
  rw [withMore_takePath _ consumer awaits.running proceeds.run proceeds.waits]
  cases proceeds with
  | ends stack_eq _ routes_eq =>
      have running : (engine.withMore (Lookahead.holding rest ended).symbols).status = .running :=
        awaits.running
      exact advance_of_edgeless consumer running (front?_withMore front_eq _) stack_eq routes_eq
  | leaves stack_eq routes_eq decided =>
      exact advance_withMore_of_take resolved awaits front_eq stack_eq routes_eq decided consumer
        rest ended
  | consumes stack_eq routes_eq decided =>
      exact advance_withMore_of_take resolved awaits front_eq stack_eq routes_eq decided consumer
        rest ended

/-- What follows the symbols that a decision is taken on makes no difference to it. -/
theorem advance_anticipates (resolved : grammar.IsResolved limits) (awaits : engine.Awaits false)
    (consumer : Consumer) (rest : List Char) (ended : Bool) :
    engine.Anticipates (Lookahead.holding rest ended).symbols (engine.advance grammar consumer)
      ((engine.withMore (Lookahead.holding rest ended).symbols).advance grammar consumer) := by
  rcases awaits.waits with ⟨text, waiting⟩
  have decides : Decides grammar consumer engine (engine.advance grammar consumer) :=
    advance_decides resolved awaits.running waiting
  generalize engine.advance grammar consumer = after at decides ⊢
  cases decides with
  | idles | putsOff => exact .waits
  | @finishes symbol front_eq left =>
      have whole_eq : (engine.withMore (Lookahead.holding rest ended).symbols).advance grammar
          consumer = .settled ((engine.withMore (Lookahead.holding rest ended).symbols).finish
            consumer symbol) := by
        have wholeLeft : (engine.withMore (Lookahead.holding rest ended).symbols).stack = [] := left
        simp only [advance, front?_withMore front_eq, wholeLeft]
      rw [whole_eq]
      cases symbol with
      | char character => exact .ends rfl (concurs_reject_withMore engine consumer _ _)
      | endOfInput =>
          rw [waiting] at front_eq
          cases text <;> cases front_eq
  | proceeds front_eq proceeds =>
      rw [proceeds.advance_withMore resolved awaits front_eq]
      exact anticipates_progress engine _ _
  | @rejects _ _ _ routes front_eq stack_eq routes_eq decided =>
      have notPutOff : grammar.decide engine.lookahead routes ≠ .needMore := by simp [decided]
      have same := decide_withMore resolved awaits front_eq routes_eq notPutOff rest ended
      rw [advance_of_reject consumer (front?_withMore front_eq _) stack_eq routes_eq
        (same.trans decided)]
      exact .ends rfl (concurs_reject_withMore engine consumer _ _)

theorem IsCloser.withMore {next : Engine} (closer : next.IsCloser engine) (more : List Symbol) :
    (next.withMore more).IsCloser (engine.withMore more) := by
  simp only [IsCloser, Lookahead.length, Engine.withMore, List.length_append] at closer ⊢
  omega

theorem settle_of_ongoing {next : Engine}
    (advance_eq : engine.advance grammar consumer = .ongoing next)
    (closer : next.IsCloser engine) :
    engine.settle grammar consumer = next.settle grammar consumer := by
  rw [settle_eq, advance_eq]
  exact if_pos closer

theorem settle_of_settled {last : Engine}
    (advance_eq : engine.advance grammar consumer = .settled last) :
    engine.settle grammar consumer = last := by
  rw [settle_eq, advance_eq]

/-- An engine that settles while a part of the input waits either has to wait, and with more symbols
would come to the same point and go on from there, or ends the parse as it would with them. -/
theorem settle_anticipates (resolved : grammar.IsResolved limits) (awaits : engine.Awaits false)
    (consumer : Consumer) (rest : List Char) (ended : Bool) :
    ((engine.settle grammar consumer).Awaits false ∧
        (engine.withMore (Lookahead.holding rest ended).symbols).settle grammar consumer =
          ((engine.settle grammar consumer).withMore
            (Lookahead.holding rest ended).symbols).settle grammar consumer) ∨
      (engine.settle grammar consumer).status.isRunning = false ∧
        (engine.settle grammar consumer).Concurs
          ((engine.withMore (Lookahead.holding rest ended).symbols).settle grammar consumer) := by
  let more := (Lookahead.holding rest ended).symbols
  let Holds (current : Engine) : Prop := current.Awaits false ∧
    (engine.withMore more).settle grammar consumer =
      (current.withMore more).settle grammar consumer
  have goesOn : ∀ before next : Engine, Holds before →
      before.advance grammar consumer = .ongoing next → Holds next ∧ next.IsCloser before := by
    rintro before next ⟨beforeAwaits, same⟩ advance_eq
    rcases beforeAwaits.advance resolved advance_eq with ⟨nextAwaits, closer⟩
    have anticipates := advance_anticipates resolved beforeAwaits consumer rest ended
    rw [advance_eq] at anticipates
    generalize whole_eq : (before.withMore (Lookahead.holding rest ended).symbols).advance grammar
      consumer = whole at anticipates
    cases anticipates with
    | moves =>
        exact ⟨⟨nextAwaits, same.trans (settle_of_ongoing whole_eq (closer.withMore more))⟩, closer⟩
  have holds : Holds engine := ⟨awaits, rfl⟩
  -- Up to the last decision both engines do the same. What it is decides how they compare.
  rcases exists_settled holds goesOn with ⟨last, ⟨lastAwaits, same⟩, settled⟩
  have anticipates := advance_anticipates resolved lastAwaits consumer rest ended
  rw [settled] at anticipates
  generalize whole_eq : (last.withMore (Lookahead.holding rest ended).symbols).advance grammar
    consumer = whole at anticipates
  generalize engine.settle grammar consumer = after at anticipates ⊢
  cases anticipates with
  | waits => exact .inl ⟨lastAwaits, same⟩
  | ends hasEnded concurs =>
      right
      rw [same, settle_of_settled whole_eq]
      exact ⟨hasEnded, concurs⟩

end Advance

/-- Takes in symbols that arrive together, so that all of them wait before the first decision. -/
def feedTogether (grammar : Grammar) (consumer : Consumer) (engine : Engine)
    (symbols : List Symbol) : Engine :=
  let arrived := engine.arrive grammar consumer symbols
  if arrived.status.isRunning then arrived.settle grammar consumer else arrived

/-- Takes in one symbol after the other, as long as the parse goes on. -/
def feedEach (grammar : Grammar) (consumer : Consumer) (engine : Engine) (symbols : List Symbol) :
    Engine :=
  symbols.foldl (fun current symbol =>
    if current.status.isRunning then current.feed grammar consumer symbol else current) engine

theorem feedEach_cons (running : engine.status = .running) (symbol : Symbol)
    (symbols : List Symbol) :
    engine.feedEach grammar consumer (symbol :: symbols) =
      (engine.feed grammar consumer symbol).feedEach grammar consumer symbols := by
  simp [feedEach, running, Status.isRunning]

theorem feedEach_of_ended (ended : engine.status.isRunning = false) (symbols : List Symbol) :
    engine.feedEach grammar consumer symbols = engine := by
  induction symbols with
  | nil => rfl
  | cons symbol rest ih =>
      simp only [feedEach, List.foldl_cons, ended, Bool.false_eq_true, if_false] at ih ⊢
      exact ih

theorem arrive_cons (grammar : Grammar) (consumer : Consumer) (engine : Engine)
    (symbol : Symbol) (symbols : List Symbol) :
    engine.arrive grammar consumer (symbol :: symbols) =
      (engine.arrive grammar consumer [symbol]).withMore symbols := by
  have whole_eq : engine.withMore (symbol :: symbols) =
      (engine.withMore [symbol]).withMore symbols := by
    simp [withMore]
  rw [arrive, whole_eq]
  exact (alter_enterStart (unnoticed_withMore symbols consumer)).symm

theorem feed_eq_feedTogether (symbol : Symbol) :
    engine.feed grammar consumer symbol = engine.feedTogether grammar consumer [symbol] := rfl

theorem feedTogether_of_ended {symbols : List Symbol}
    (ended : (engine.arrive grammar consumer symbols).status.isRunning = false) :
    engine.feedTogether grammar consumer symbols = engine.arrive grammar consumer symbols :=
  if_neg (by simp [ended])

theorem feedTogether_of_running {symbols : List Symbol}
    (begins : (engine.arrive grammar consumer symbols).status.isRunning = true) :
    engine.feedTogether grammar consumer symbols =
      (engine.arrive grammar consumer symbols).settle grammar consumer :=
  if_pos begins

theorem Awaits.feedTogether {ended : Bool} (awaits : engine.Awaits ended)
    (symbols : List Symbol) : engine.feedTogether grammar consumer symbols =
      (engine.withMore symbols).settle grammar consumer := by
  have arrived_eq : engine.arrive grammar consumer symbols = engine.withMore symbols :=
    enterStart_of_entered awaits.entered
  have begins : (engine.arrive grammar consumer symbols).status.isRunning = true := by
    rw [arrived_eq]
    exact congrArg Status.isRunning awaits.running
  rw [feedTogether_of_running begins, arrived_eq]

/-- Symbols that arrive one after the other do to the parse what they do together. -/
theorem feedEach_concurs (resolved : grammar.IsResolved limits) (consumer : Consumer)
    (running : engine.status = .running) {text : List Char}
    (waiting : engine.lookahead = .holding text false) (rest : List Char) :
    (engine.feedEach grammar consumer (Lookahead.holding rest true).symbols).Concurs
      (engine.feedTogether grammar consumer (Lookahead.holding rest true).symbols) := by
  induction rest generalizing engine text with
  | nil =>
      have last_eq : engine.feedEach grammar consumer (Lookahead.holding [] true).symbols =
          engine.feed grammar consumer .endOfInput := feedEach_cons running _ []
      rw [last_eq]
      exact .refl _
  | cons character rest ih =>
      have symbols_eq : (Lookahead.holding (character :: rest) true).symbols =
          .char character :: (Lookahead.holding rest true).symbols := rfl
      have arrive_eq := arrive_cons grammar consumer engine (.char character)
        (Lookahead.holding rest true).symbols
      rw [symbols_eq, feedEach_cons running, feed_eq_feedTogether]
      cases begins : (engine.arrive grammar consumer [.char character]).status.isRunning with
      | false =>
          have wholeEnded : (engine.arrive grammar consumer
              (.char character :: (Lookahead.holding rest true).symbols)).status.isRunning =
                false := by
            rw [arrive_eq]
            exact begins
          rw [feedTogether_of_ended begins, feedEach_of_ended begins,
            feedTogether_of_ended wholeEnded, arrive_eq]
          exact concurs_withMore _ _
      | true =>
          have wholeBegins : (engine.arrive grammar consumer
              (.char character :: (Lookahead.holding rest true).symbols)).status.isRunning =
                true := by
            rw [arrive_eq]
            exact begins
          have awaits : (engine.arrive grammar consumer [.char character]).Awaits false :=
            awaits_arrive waiting (.char character) begins
          rw [feedTogether_of_running begins, feedTogether_of_running wholeBegins, arrive_eq]
          rcases settle_anticipates resolved awaits consumer rest true with
            ⟨stillAwaits, whole_eq⟩ | ⟨ended, concurs⟩
          · -- The engine waits, and the rest is taken in from there.
            rcases stillAwaits.waits with ⟨_, stillWaiting⟩
            rw [whole_eq, ← stillAwaits.feedTogether]
            exact ih stillAwaits.running stillWaiting
          · rw [feedEach_of_ended ended]
            exact concurs

theorem parseState_feedTogether (engine : Engine) (symbols : List Symbol) :
    (engine.feedTogether grammar consumer symbols).parseState =
      engine.parseState.feedTogether grammar .patient symbols :=
  erase_settle_enterStart grammar consumer (engine.withMore symbols)
    Occurrence.keepsParse_isOfParse

theorem concurs_of_parseState {other : Engine}
    (concurs : engine.parseState.Concurs other.parseState) : engine.Concurs other := by
  have callbacks_eq := concurs.callbacks
  rw [callbacks_parseState, callbacks_parseState] at callbacks_eq
  exact ⟨callbacks_eq, concurs.stack, concurs.capture, concurs.location, concurs.status⟩

end Engine

/-- Calls that hand over the code points of a text one by one, and then the end of the input. -/
def Call.oneByOne (consumer : Consumer) (text : List Char) : List Call :=
  text.map (fun character => .consume consumer .chars [character]) ++ [.endInput consumer]

namespace Engine

variable {grammar : Grammar}

theorem parseState_takeUnits_char (consumer : Consumer) (engine : Engine) (character : Char) :
    (engine.takeUnits grammar consumer .chars [character] 0).2.parseState =
      engine.parseState.feed grammar .patient (.char character) := by
  have decoded : Encoding.chars.decode [character] = .char character 1 := rfl
  have exhausted : Encoding.chars.decode ([character].drop 1) = .incomplete := rfl
  have fed_eq : (engine.feed grammar consumer (.char character)).parseState =
      engine.parseState.feed grammar .patient (.char character) := parseState_feed _
  rw [← fed_eq, takeUnits_of_char decoded]
  simp only
  split
  next =>
    split
    next => rw [parseState_note_cancelled]
    next => rw [takeUnits_of_incomplete exhausted]
  next => rfl

theorem parseState_afterCall_consume (grammar : Grammar) (consumer : Consumer) (engine : Engine)
    (character : Char) :
    (engine.afterCall grammar (.consume consumer .chars [character])).parseState =
      engine.parseState.feedEach grammar .patient [.char character] := by
  cases ongoing : engine.status.isRunning with
  | false =>
      have ended : engine.parseState.status.isRunning = false := ongoing
      rw [(afterCall_of_ended grammar ongoing _).1, feedEach_of_ended ended]
  | true =>
      have running : engine.parseState.status = .running := status_of_isRunning ongoing
      rw [feedEach_cons running]
      simp only [Engine.afterCall, consume, ongoing, if_true]
      exact parseState_takeUnits_char consumer { engine with cancelled := false } character

theorem parseState_afterCall_endInput (consumer : Consumer) (engine : Engine) :
    (engine.afterCall grammar (.endInput consumer)).parseState =
      engine.parseState.feedEach grammar .patient [.endOfInput] := by
  cases ongoing : engine.status.isRunning with
  | false =>
      have ended : engine.parseState.status.isRunning = false := ongoing
      rw [(afterCall_of_ended grammar ongoing _).1, feedEach_of_ended ended]
  | true =>
      have running : engine.parseState.status = .running := status_of_isRunning ongoing
      rw [feedEach_cons running]
      simp only [Engine.afterCall, endInput, ongoing, if_true]
      exact parseState_feed _

/-- Calls that hand over one code point each take in one symbol after the other. -/
theorem parseState_afterCalls_oneByOne (consumer : Consumer) (engine : Engine)
    (text : List Char) :
    (engine.afterCalls grammar (Call.oneByOne consumer text)).parseState =
      engine.parseState.feedEach grammar .patient (Lookahead.holding text true).symbols := by
  induction text generalizing engine with
  | nil => exact parseState_afterCall_endInput consumer engine
  | cons character rest ih =>
      have first_eq := parseState_afterCall_consume grammar consumer engine character
      have rest_eq := ih (engine.afterCall grammar (.consume consumer .chars [character]))
      rw [first_eq] at rest_eq
      exact rest_eq

end Engine

/-- An engine that is given the code points of a text one by one, and then the end of the input,
tells its consumer the same and comes to the same end as if the whole input waited before the first
decision. In particular, while something waits, a decision that is not put off is the one that is
taken on every continuation of what waits. -/
theorem Grammar.streaming_agrees_with_whole {graph : Graph} {config : GrammarConfig}
    {grammar : Grammar} (built : (graph.build config).result = .ok grammar) :
    (∀ (engine : Engine) (start : RuleId) (consumer : Consumer) (text : List Char),
      ((engine.resetTo start).afterCalls grammar (Call.oneByOne consumer text)).Concurs
        ((engine.resetTo start).feedTogether grammar consumer
          (Lookahead.holding text true).symbols)) ∧
    ∀ frame routes, grammar.routes? frame = some routes → ∀ text : List Char, text ≠ [] →
      grammar.decide (.holding text false) routes ≠ .needMore → ∀ rest ended,
        grammar.decide (.holding (text ++ rest) ended) routes =
          grammar.decide (.holding text false) routes := by
  rcases Graph.build_ok built with ⟨rfl, resolved⟩
  refine ⟨?_, ?_⟩
  · intro engine start consumer text
    apply Engine.concurs_of_parseState
    rw [Engine.parseState_afterCalls_oneByOne, Engine.parseState_feedTogether]
    have running : (engine.resetTo start).parseState.status = .running := rfl
    have waiting : (engine.resetTo start).parseState.lookahead = .holding [] false := rfl
    exact Engine.feedEach_concurs resolved .patient running waiting text
  · intro frame routes routes_eq text waits decided rest ended
    exact resolved.decide_append routes_eq waits decided rest ended

/-- A rule whose second code point tells which of its first ones was meant. -/
def Graph.forked : Graph :=
  (Assembly.assemble do
    let main ← Assembly.rule "main"
    let start ← Assembly.node main
    let left ← Assembly.node main (.event "left")
    let right ← Assembly.node main (.event "right")
    let done ← Assembly.node main
    let _ ← Assembly.charEdge main start 'a' left
    let _ ← Assembly.charEdge main start 'a' right
    let _ ← Assembly.charEdge main left 'b' done
    Assembly.charEdge main right 'c' done).2

def Grammar.forked : Grammar := Graph.forked.builtGrammar ⟨"main", 2, false⟩

/-- After the first code point the decision is put off, after the second it is taken. -/
theorem Grammar.streaming_agrees_with_forked :
    (Graph.forked.build ⟨"main", 2, false⟩).result = .ok forked ∧
      (((Engine.ofRule 0).resetTo 0).afterCalls forked
        (Call.oneByOne .patient ['a', 'c'])).Concurs
          (((Engine.ofRule 0).resetTo 0).feedTogether forked .patient
            [.char 'a', .char 'c', .endOfInput]) ∧
      ∃ routes, forked.routes? ⟨0, 0⟩ = some routes ∧
        forked.decide (.holding ['a'] false) routes = .needMore ∧
        ∀ rest ended, forked.decide (.holding (['a', 'c'] ++ rest) ended) routes =
          .take [.consume 0 2] := by
  have isOk : (Graph.forked.build ⟨"main", 2, false⟩).result.isOk = true := by decide +kernel
  have built : (Graph.forked.build ⟨"main", 2, false⟩).result = .ok forked :=
    Graph.build_eq_builtGrammar isOk
  have first : (forked.routes? ⟨0, 0⟩).map (forked.decide (.holding ['a'] false)) =
      some .needMore := by cbv
  have second : (forked.routes? ⟨0, 0⟩).map (forked.decide (.holding ['a', 'c'] false)) =
      some (.take [.consume 0 2]) := by cbv
  rcases Grammar.streaming_agrees_with_whole built with ⟨agrees, stays⟩
  refine ⟨built, agrees (.ofRule 0) 0 .patient ['a', 'c'], ?_⟩
  cases routes_eq : forked.routes? ⟨0, 0⟩ with
  | none =>
      rw [routes_eq] at first
      cases first
  | some routes =>
      rw [routes_eq, Option.map_some, Option.some_inj] at first second
      have decided : forked.decide (.holding ['a', 'c'] false) routes ≠ .needMore := by
        simp [second]
      refine ⟨routes, rfl, first, ?_⟩
      intro rest ended
      rw [stays _ routes routes_eq ['a', 'c'] (by simp) decided, second]

end StreamGrammar
