import Mathlib
import StreamGrammar.Proofs.Intake
import StreamGrammar.Proofs.Settling

/-!
# The engine follows the graph

From a reset on, whatever calls are made, the engine is where a run of the rule graph
has led: the stack is that of the run, the text that the run consumed is the part of
the input that does not wait any more, and the callbacks are the actions of the start
rule's entry and of the nodes that the run has entered. There is one way to leave
the run: a node that publishes while no capture is open makes the parse fail before
its action and before anything is consumed on the way to it.

Engines are run on fixed inputs by evaluation, here and in the modules after this one.
The equations of library functions that this takes are all over Mathlib, which is why
it is imported as a whole.
-/

namespace StreamGrammar

/-- The steps are a run of the rule that consumes the text and empties the stack. The actions of the
nodes that it enters never publish without an open capture and leave no capture open. -/
structure Graph.Parses (graph : Graph) (start : RuleId) (steps : Path) (text : List Char) :
    Prop where
  run : Run graph [⟨start, Rule.entry⟩] steps text []
  captures : graph.captureDepth? 0
    (⟨start, Rule.entry⟩ :: Path.entered [⟨start, Rule.entry⟩] steps) = some 0

/-- A run of the rule has come to the node, with which it begins or to which its last step leads.
`passed` are the nodes that it has entered before, `read` is what it has consumed until then, and
`held` is what the last step consumes. -/
inductive Graph.ComesTo (graph : Graph) (start : RuleId) :
    (passed : List Frame) → (node : Frame) → (read held : List Char) → (stack : List Frame) → Prop
  | entry : ComesTo graph start [] ⟨start, Rule.entry⟩ [] [] [⟨start, Rule.entry⟩]
  | step {steps : Path} {step : Step} {stack : List Frame} {node : Frame} {read held : List Char}
      (run : Run graph [⟨start, Rule.entry⟩] steps read stack)
      (enabled : step.IsEnabled graph stack) (reads : step.Reads graph held)
      (enters : (step.apply stack).head? = some node) :
      ComesTo graph start (⟨start, Rule.entry⟩ :: Path.entered [⟨start, Rule.entry⟩] steps) node
        read held (step.apply stack)

/-- What a consumer has been told of the end of a parse. -/
def Status.callback? : Status → Option Callback
  | .running => none
  | .succeeded => some .success
  | .failed failure => some (.fatalError failure.message)

theorem Lookahead.eq_nil_of_holding_eq_end {text : List Char} {ended : Bool}
    (holding_eq : holding text ended = holding [] true) : text = [] := by
  have symbols_eq := congrArg symbols holding_eq
  cases text with
  | nil => rfl
  | cons character rest => simp [holding] at symbols_eq

namespace Engine

/-- The nodes that have been entered when a run of the start rule has taken some steps, none before
the first symbol has arrived. -/
def visited (engine : Engine) (start : RuleId) (steps : Path) : List Frame :=
  if engine.entered then ⟨start, Rule.entry⟩ :: Path.entered [⟨start, Rule.entry⟩] steps else []

/-- The engine is where the steps have led, which have consumed the text. `fed` is the input since
the parse began, and `told` are the callbacks before that. -/
structure Follows (engine : Engine) (graph : Graph) (start : RuleId) (told : List Callback)
    (fed : List Char) (ended : Bool) (steps : Path) (read : List Char) : Prop where
  run : Run graph [⟨start, Rule.entry⟩] steps read engine.stack
  waits : ∃ waiting, engine.lookahead = .holding waiting ended ∧ fed = read ++ waiting
  location : engine.location = Location.start.advanceAll read
  unentered : engine.entered = false → steps = [] ∧ fed = [] ∧ ended = false
  unarrived : fed = [] → ended = false → engine.status ≠ .succeeded → engine.entered = false
  depth : graph.captureDepth? 0 (engine.visited start steps) = some engine.capture.depth
  callbacks : ∃ new, Action.Announced ((engine.visited start steps).map graph.action) new ∧
    engine.callbacks = told ++ new ++ engine.status.callback?.toList

/-- The engine has come to a node that publishes while no capture is open. What the last step was to
consume still waits, and the action is not performed. -/
structure Stopped (engine : Engine) (graph : Graph) (start : RuleId) (told : List Callback)
    (fed : List Char) (passed : List Frame) (node : Frame) (read held : List Char) : Prop where
  comes : graph.ComesTo start passed node read held engine.stack
  waits : ∃ waiting ended, engine.lookahead = .holding (held ++ waiting) ended ∧
    fed = read ++ held ++ waiting ∧ (fed = [] → ended = true)
  location : engine.location = Location.start.advanceAll read
  depth : graph.captureDepth? 0 passed = some 0
  failed : ∃ name trimStart trimEnd, graph.action node = .publish name trimStart trimEnd ∧
    engine.status = .failed ⟨.captureUnderflow name, engine.location⟩
  callbacks : ∃ new, Action.Announced (passed.map graph.action) new ∧
    engine.callbacks = told ++ new ++ engine.status.callback?.toList

variable {grammar : Grammar} {consumer : Consumer} {limits : ResolutionLimits}
  {engine after : Engine} {graph : Graph} {start : RuleId} {told : List Callback} {fed : List Char}
  {ended : Bool} {steps : Path} {read : List Char}

theorem Stopped.exists_failed {passed : List Frame} {node : Frame} {held : List Char}
    (stopped : engine.Stopped graph start told fed passed node read held) :
    ∃ failure, engine.status = .failed failure := by
  rcases stopped.failed with ⟨_, _, _, _, status_eq⟩
  exact ⟨_, status_eq⟩

theorem Follows.arrived (follows : engine.Follows graph start told fed ended steps read)
    (running : engine.status = .running) (entered : engine.entered = true) (fed_eq : fed = []) :
    ended = true := by
  cases ended_eq : ended with
  | true => rfl
  | false =>
      have unentered := follows.unarrived fed_eq ended_eq (by simp [running])
      rw [entered] at unentered
      cases unentered

theorem Follows.took (follows : engine.Follows graph start told fed ended steps read)
    (running : engine.status = .running) (entered : engine.entered = true)
    {further : Path} {furtherRead : List Char}
    (took : engine.Took graph further furtherRead after) :
    after.Follows graph start told fed ended (steps ++ further) (read ++ furtherRead) := by
  have afterEntered : after.entered = true := took.entered.trans entered
  have visited_eq : after.visited start (steps ++ further) =
      engine.visited start steps ++ Path.entered engine.stack further := by
    simp [visited, entered, afterEntered, Path.entered_append (Run.iff_walk.mp follows.run).1]
  refine ⟨follows.run.trans took.run, ?_, ?_, ?_, ?_, ?_, ?_⟩
  · rcases follows.waits with ⟨waiting, lookahead_eq, rfl⟩
    have symbols_eq := took.lookahead
    rw [lookahead_eq] at symbols_eq
    rcases Lookahead.exists_holding_of_symbols symbols_eq with ⟨rest, rfl, rest_eq⟩
    exact ⟨rest, rest_eq, (List.append_assoc _ _ _).symm⟩
  · rw [took.location, follows.location, Location.advanceAll_append]
  · simp [afterEntered]
  · intro fed_eq ended_eq _
    exact took.entered.trans (follows.unarrived fed_eq ended_eq (by simp [running]))
  · rw [visited_eq, Graph.captureDepth?_append, follows.depth]
    exact took.performed.depth
  · rcases follows.callbacks with ⟨new, announced, new_eq⟩
    rcases took.performed.callbacks with ⟨furtherNew, furtherAnnounced, further_eq⟩
    refine ⟨new ++ furtherNew, ?_, ?_⟩
    · rw [visited_eq, List.map_append]
      exact announced.append furtherAnnounced
    · rw [further_eq, new_eq, running, took.performed.running]
      simp [Status.callback?]

/-- A step that leads to a publishing node without an open capture stops the engine. -/
theorem Follows.broke (follows : engine.Follows graph start told fed ended steps read)
    (running : engine.status = .running) (entered : engine.entered = true) {step : Step}
    (broke : engine.Broke graph step after) :
    ∃ node held,
      after.Stopped graph start told fed (engine.visited start steps) node read held := by
  rcases broke.reads with ⟨held, reads, held_prefix⟩
  rcases follows.waits with ⟨waiting, lookahead_eq, rfl⟩
  rcases broke.underflowed with ⟨node, node_eq, underflowed⟩
  rcases underflowed.failed with ⟨name, trimStart, trimEnd, action_eq, status_eq, callbacks_eq⟩
  rcases follows.callbacks with ⟨new, announced, new_eq⟩
  have location_eq : after.location = engine.location := broke.keeps.location
  have held_waits : ∃ others, waiting = held ++ others := by
    rcases held_prefix with ⟨rest, symbols_eq⟩
    have holding_eq : (Lookahead.holding waiting ended).symbols =
        held.map .char ++ (⟨rest⟩ : Lookahead).symbols := by
      rw [← lookahead_eq]
      exact symbols_eq.symm
    rcases Lookahead.exists_holding_of_symbols holding_eq with ⟨others, waiting_eq, _⟩
    exact ⟨others, waiting_eq⟩
  rcases held_waits with ⟨others, rfl⟩
  refine ⟨node, held, ?_, ⟨others, ended, ?_, ?_, follows.arrived running entered⟩, ?_, ?_,
    ⟨name, trimStart, trimEnd, action_eq, ?_⟩, new, announced, ?_⟩
  · have stack_eq : after.stack = step.apply engine.stack := broke.keeps.stack
    rw [stack_eq, visited, if_pos entered]
    exact .step follows.run broke.enabled reads node_eq
  · rw [← lookahead_eq]
    exact broke.keeps.lookahead
  · rw [List.append_assoc]
  · rw [location_eq, follows.location]
  · rw [follows.depth, underflowed.depth]
  · rw [location_eq]
    exact status_eq
  · rw [callbacks_eq, new_eq, running, status_eq]
    simp [Status.callback?]

theorem Follows.fail (follows : engine.Follows graph start told fed ended steps read)
    (running : engine.status = .running) (cause : FailureCause) :
    (engine.fail consumer cause).Follows graph start told fed ended steps read := by
  refine ⟨follows.run, follows.waits, follows.location, follows.unentered, ?_, follows.depth, ?_⟩
  · intro fed_eq ended_eq _
    exact follows.unarrived fed_eq ended_eq (by simp [running])
  · rcases follows.callbacks with ⟨new, announced, new_eq⟩
    refine ⟨new, announced, ?_⟩
    rw [Engine.fail, callbacks_note]
    change engine.callbacks ++ _ = _
    rw [new_eq, running]
    simp [Status.callback?, Occurrence.callback?]

/-- The parse stands where a run of the graph has led, or was stopped on the way. -/
inductive Tracks (engine : Engine) (graph : Graph) (start : RuleId) (told : List Callback)
    (fed : List Char) : Prop
  | follows {ended : Bool} {steps : Path} {read : List Char}
      (follows : engine.Follows graph start told fed ended steps read)
      (unended : engine.status = .running → ended = false)
      (whole : engine.status = .succeeded →
        engine.entered = true ∧ engine.stack = [] ∧ read = fed ∧ engine.capture.depth = 0)
      (sound : ∀ name location, engine.status ≠ .failed ⟨.captureUnderflow name, location⟩) :
      Tracks engine graph start told fed
  | stopped {passed : List Frame} {node : Frame} {read held : List Char}
      (stopped : engine.Stopped graph start told fed passed node read held) :
      Tracks engine graph start told fed

theorem Follows.tracks_of_fail (follows : engine.Follows graph start told fed ended steps read)
    (running : engine.status = .running) {cause : FailureCause}
    (other : ∀ name, cause ≠ .captureUnderflow name) :
    (engine.fail consumer cause).Tracks graph start told fed := by
  refine .follows (follows.fail running cause) ?_ ?_ ?_
  · intro still
    cases still
  · intro succeeded
    cases succeeded
  · intro name location status_eq
    have failure_eq := Status.failed.inj status_eq
    exact other name (congrArg Failure.cause failure_eq)

theorem Follows.tracks_of_success (follows : engine.Follows graph start told fed ended steps read)
    (running : engine.status = .running) (entered : engine.entered = true)
    (left : engine.stack = []) (closed : engine.capture.isCapturing = false)
    (ended_eq : engine.lookahead = .holding [] true) :
    ({ engine with lookahead := .empty, status := .succeeded }.note consumer
      (.succeeded engine.location)).Tracks graph start told fed := by
  rcases follows.waits with ⟨waiting, lookahead_eq, rfl⟩
  rw [lookahead_eq] at ended_eq
  obtain rfl := Lookahead.eq_nil_of_holding_eq_end ended_eq
  have atEnd : ({ engine with lookahead := .empty, status := .succeeded }.note consumer
      (.succeeded engine.location)).Follows graph start told (read ++ []) false steps read := by
    refine ⟨follows.run, ⟨[], rfl, rfl⟩, follows.location, ?_, ?_, follows.depth, ?_⟩
    · simp [entered]
    · intro _ _ unfinished
      exact absurd rfl unfinished
    · rcases follows.callbacks with ⟨new, announced, new_eq⟩
      refine ⟨new, announced, ?_⟩
      rw [callbacks_note]
      change engine.callbacks ++ _ = _
      rw [new_eq, running]
      simp [Status.callback?, Occurrence.callback?]
  refine .follows atEnd ?_ ?_ ?_
  · intro _
    rfl
  · intro _
    refine ⟨entered, left, (List.append_nil read).symm, ?_⟩
    simpa [CaptureBuffer.isCapturing, CaptureBuffer.depth] using closed
  · intro name location status_eq
    cases status_eq

/-- Where the last decision leaves an engine that has followed the graph so far. -/
theorem Follows.tracks_of_outcome (follows : engine.Follows graph start told fed ended steps read)
    (running : engine.status = .running) (entered : engine.entered = true)
    (outcome : Outcome graph consumer engine (.settled after)) :
    after.Tracks graph start told fed := by
  cases outcome with
  | waits unended =>
      refine .follows follows ?_ ?_ ?_
      · intro _
        rcases follows.waits with ⟨waiting, lookahead_eq, _⟩
        rw [lookahead_eq, Lookahead.hasEnd_holding] at unended
        exact unended
      · simp [running]
      · simp [running]
  | breaks took broke =>
      have onTheWay := follows.took running entered took
      rcases onTheWay.broke took.performed.running (took.entered.trans entered) broke with
        ⟨_, _, stopped⟩
      exact .stopped stopped
  | rejects expected => exact follows.tracks_of_fail running (by simp)
  | unterminated => exact follows.tracks_of_fail running (by simp)
  | succeeds left closed ended_eq =>
      exact follows.tracks_of_success running entered left closed ended_eq

/-- An engine that settles has followed the graph up to its last decision. -/
theorem Follows.exists_last
    (follows : engine.Follows grammar.toGraph start told fed ended steps read)
    (resolved : grammar.IsResolved limits) (consumer : Consumer)
    (running : engine.status = .running)
    (entered : engine.entered = true) :
    ∃ last steps read, last.status = .running ∧ last.entered = true ∧
      last.Follows grammar.toGraph start told fed ended steps read ∧
      Outcome grammar.toGraph consumer last (.settled (engine.settle grammar consumer)) := by
  let Holds (current : Engine) : Prop := current.status = .running ∧ current.entered = true ∧
    ∃ steps read, current.Follows grammar.toGraph start told fed ended steps read
  have outcome_of_holds : ∀ current : Engine, Holds current →
      Outcome grammar.toGraph consumer current (current.advance grammar consumer) := by
    rintro current ⟨currentRunning, _, _, _, currentFollows⟩
    rcases currentFollows.waits with ⟨waiting, lookahead_eq, _⟩
    exact advance_outcome resolved currentRunning lookahead_eq
  have goesOn : ∀ before next : Engine, Holds before →
      before.advance grammar consumer = .ongoing next → Holds next ∧ next.IsCloser before := by
    intro before next holds advance_eq
    have outcome := outcome_of_holds before holds
    rcases holds with ⟨beforeRunning, beforeEntered, _, _, beforeFollows⟩
    rw [advance_eq] at outcome
    cases outcome with
    | moves took closer =>
        exact ⟨⟨took.performed.running, took.entered.trans beforeEntered, _, _,
          beforeFollows.took beforeRunning beforeEntered took⟩, closer⟩
  have holds : Holds engine := ⟨running, entered, steps, read, follows⟩
  rcases exists_settled holds goesOn with ⟨last, lastHolds, advance_eq⟩
  have outcome := outcome_of_holds last lastHolds
  rcases lastHolds with ⟨lastRunning, lastEntered, lastSteps, lastRead, lastFollows⟩
  rw [advance_eq] at outcome
  exact ⟨last, lastSteps, lastRead, lastRunning, lastEntered, lastFollows, outcome⟩

/-- Only the end of the input makes a parse succeed. -/
theorem Outcome.hasEnd_of_succeeded (outcome : Outcome graph consumer engine (.settled after))
    (running : engine.status = .running) (succeeded : after.status = .succeeded) :
    engine.lookahead.hasEnd = true := by
  cases outcome with
  | waits => simp [running] at succeeded
  | breaks _ broke =>
      rcases broke.underflowed with ⟨_, _, underflowed⟩
      rcases underflowed.failed with ⟨_, _, _, _, status_eq, _⟩
      simp [succeeded] at status_eq
  | rejects => cases succeeded
  | unterminated => cases succeeded
  | succeeds _ _ ended_eq => rw [ended_eq, Lookahead.hasEnd_holding]

/-- The text that a symbol adds to the input. -/
def addedText : Symbol → List Char
  | .char character => [character]
  | .endOfInput => []

theorem ended_of_addedText {symbol : Symbol} (none : addedText symbol = []) :
    (symbol == Symbol.endOfInput) = true := by
  cases symbol with
  | char character => cases none
  | endOfInput => rfl

theorem push_holding (text : List Char) (symbol : Symbol) :
    (Lookahead.holding text false).push symbol =
      .holding (text ++ addedText symbol) (symbol == Symbol.endOfInput) := by
  cases symbol with
  | char character => exact Lookahead.push_char_holding character
  | endOfInput =>
      rw [Lookahead.push_end_holding]
      simp [addedText]

theorem enterStart_of_entered (entered : engine.entered = true) :
    engine.enterStart grammar consumer = engine := by
  simp [enterStart, entered]

theorem enterStart_of_unentered (engine : Engine) (unentered : engine.entered = false)
    {top : Frame} {below : List Frame} (stack_eq : engine.stack = top :: below) :
    engine.enterStart grammar consumer =
      { engine with entered := true }.enter grammar consumer top := by
  simp [enterStart, unentered, stack_eq]

theorem Follows.push (follows : engine.Follows graph start told fed false steps read)
    (entered : engine.entered = true) (symbol : Symbol) :
    { engine with lookahead := engine.lookahead.push symbol }.Follows graph start told
      (fed ++ addedText symbol) (symbol == Symbol.endOfInput) steps read := by
  rcases follows.waits with ⟨waiting, lookahead_eq, fed_eq⟩
  refine ⟨follows.run, ⟨waiting ++ addedText symbol, ?_, ?_⟩, follows.location, ?_, ?_,
    follows.depth, follows.callbacks⟩
  · rw [← push_holding, ← lookahead_eq]
  · rw [fed_eq, List.append_assoc]
  · simp [entered]
  · intro none unended
    rw [ended_of_addedText (List.append_eq_nil_iff.mp none).2] at unended
    cases unended

/-- Entering the entry of the start rule, with which a parse begins when the first symbol has
arrived. -/
theorem enter_start (begun : Engine) {waiting : List Char} (running : begun.status = .running)
    (entered : begun.entered = true) (stack_eq : begun.stack = [⟨start, Rule.entry⟩])
    (lookahead_eq : begun.lookahead = .holding waiting ended)
    (arrived : waiting = [] → ended = true) (location_eq : begun.location = .start)
    (depth_eq : begun.capture.depth = 0) (callbacks_eq : begun.callbacks = told) {after : Engine}
    (after_eq : after = begun.enter grammar consumer ⟨start, Rule.entry⟩) :
    (after.status = .running ∧ after.entered = true ∧
      after.Follows grammar.toGraph start told waiting ended [] []) ∨
    after.status.isRunning = false ∧
      after.Stopped grammar.toGraph start told waiting [] ⟨start, Rule.entry⟩ [] [] := by
  rcases enter_spec grammar consumer running ⟨start, Rule.entry⟩ with ⟨kept, outcome⟩
  rw [← after_eq] at kept outcome
  have afterEntered : after.entered = true := kept.entered.trans entered
  have afterStack : after.stack = [⟨start, Rule.entry⟩] := kept.stack.trans stack_eq
  have afterLookahead := kept.lookahead.trans lookahead_eq
  have afterLocation := kept.location.trans location_eq
  rcases outcome with performed | underflowed
  · refine .inl ⟨performed.running, afterEntered, ?_, ⟨waiting, afterLookahead, rfl⟩,
      afterLocation, ?_, ?_, ?_, ?_⟩
    · rw [afterStack]
      exact .refl _
    · simp [afterEntered]
    · intro none unended
      rw [arrived none] at unended
      cases unended
    · rw [← depth_eq]
      simpa [visited, afterEntered, Path.entered] using performed.depth
    · rcases performed.callbacks with ⟨new, announced, new_eq⟩
      refine ⟨new, ?_, ?_⟩
      · simpa [visited, afterEntered, Path.entered] using announced
      · simp [new_eq, callbacks_eq, performed.running, Status.callback?]
  · rcases underflowed.failed with ⟨name, trimStart, trimEnd, action_eq, status_eq, new_eq⟩
    refine .inr ⟨?_, ?_, ⟨waiting, ended, afterLookahead, rfl, arrived⟩, afterLocation, rfl,
      ⟨name, trimStart, trimEnd, action_eq, ?_⟩, [], .nil, ?_⟩
    · simp [status_eq, Status.isRunning]
    · rw [afterStack]
      exact .entry
    · rw [kept.location]
      exact status_eq
    · simp [new_eq, callbacks_eq, status_eq, Status.callback?]

/-- When a symbol arrives, the parse either goes on along the graph or is stopped. -/
theorem Follows.enterStart
    (follows : engine.Follows grammar.toGraph start told fed false steps read)
    (consumer : Consumer) (running : engine.status = .running) (symbol : Symbol) {arrived : Engine}
    (arrived_eq : arrived =
      { engine with lookahead := engine.lookahead.push symbol }.enterStart grammar consumer) :
    (arrived.status = .running ∧ arrived.entered = true ∧
      arrived.Follows grammar.toGraph start told (fed ++ addedText symbol)
        (symbol == Symbol.endOfInput) steps read) ∨
    arrived.status.isRunning = false ∧
      arrived.Stopped grammar.toGraph start told (fed ++ addedText symbol) [] ⟨start, Rule.entry⟩
        [] [] := by
  cases entered : engine.entered with
  | true =>
      have pushed := follows.push entered symbol
      rw [arrived_eq.trans (enterStart_of_entered entered)]
      exact .inl ⟨running, entered, pushed⟩
  | false =>
      rcases follows.unentered entered with ⟨rfl, rfl, _⟩
      rcases follows.waits with ⟨waiting, lookahead_eq, fed_eq⟩
      rcases List.append_eq_nil_iff.mp fed_eq.symm with ⟨rfl, rfl⟩
      have stack_eq : engine.stack = [⟨start, Rule.entry⟩] := follows.run.final_eq
      have pushed_lookahead : engine.lookahead.push symbol =
          .holding (addedText symbol) (symbol == Symbol.endOfInput) := by
        rw [lookahead_eq, push_holding, List.nil_append]
      have callbacks_eq : engine.callbacks = told := by
        rcases follows.callbacks with ⟨new, announced, new_eq⟩
        simp only [visited, entered, Bool.false_eq_true, if_false, List.map_nil] at announced
        cases announced
        simpa [running, Status.callback?] using new_eq
      have depth_eq : engine.capture.depth = 0 := by
        have depth := follows.depth
        simpa [visited, entered, Graph.captureDepth?, eq_comm] using depth
      exact enter_start { engine with lookahead := engine.lookahead.push symbol, entered := true }
        running rfl stack_eq pushed_lookahead ended_of_addedText follows.location depth_eq
        callbacks_eq
        (arrived_eq.trans (enterStart_of_unentered
          { engine with lookahead := engine.lookahead.push symbol } entered stack_eq))

/-- Taking in a symbol keeps track of the graph. Only the end of the input makes the parse
succeed. -/
theorem Follows.tracks_feed
    (follows : engine.Follows grammar.toGraph start told fed false steps read)
    (resolved : grammar.IsResolved limits) (consumer : Consumer)
    (running : engine.status = .running) (symbol : Symbol) :
    (engine.feed grammar consumer symbol).Tracks grammar.toGraph start told
        (fed ++ addedText symbol) ∧
      ((engine.feed grammar consumer symbol).status = .succeeded → symbol = .endOfInput) := by
  rcases follows.enterStart consumer running symbol rfl with
    ⟨arrivedRunning, entered, arrived⟩ | ⟨failed, stopped⟩
  · simp only [feed, arrivedRunning, Status.isRunning, if_true]
    rcases arrived.exists_last resolved consumer arrivedRunning entered with
      ⟨last, lastSteps, lastRead, lastRunning, lastEntered, lastFollows, outcome⟩
    refine ⟨lastFollows.tracks_of_outcome lastRunning lastEntered outcome, ?_⟩
    intro succeeded
    have hasEnd := outcome.hasEnd_of_succeeded lastRunning succeeded
    rcases lastFollows.waits with ⟨waiting, lookahead_eq, _⟩
    rw [lookahead_eq, Lookahead.hasEnd_holding] at hasEnd
    exact beq_iff_eq.mp hasEnd
  · simp only [feed, failed, Bool.false_eq_true, if_false]
    refine ⟨.stopped stopped, ?_⟩
    intro succeeded
    rcases stopped.exists_failed with ⟨_, status_eq⟩
    simp [succeeded] at status_eq

/-- Where the engine is does not depend on requests to stop, nor on what is noted besides
callbacks. -/
theorem Tracks.of_journal (tracks : engine.Tracks graph start told fed) (cancelled : Bool)
    (journal : Array Occurrence)
    (callbacks_eq : { engine with cancelled, journal }.callbacks = engine.callbacks) :
    { engine with cancelled, journal }.Tracks graph start told fed := by
  cases tracks with
  | @follows ended steps read follows unended whole sound =>
      have same : { engine with cancelled, journal }.Follows graph start told fed ended steps
          read := by
        refine ⟨follows.run, follows.waits, follows.location, follows.unentered,
          follows.unarrived, follows.depth, ?_⟩
        rw [callbacks_eq]
        exact follows.callbacks
      exact .follows same unended whole sound
  | @stopped passed node read held stopped =>
      have same : { engine with cancelled, journal }.Stopped graph start told fed passed node read
          held := by
        refine ⟨stopped.comes, stopped.waits, stopped.location, stopped.depth, stopped.failed, ?_⟩
        rw [callbacks_eq]
        exact stopped.callbacks
      exact .stopped same

theorem Tracks.note_cancelled (tracks : engine.Tracks graph start told fed) (consumer : Consumer)
    (units : Nat) :
    (engine.note consumer (.cancelled units)).Tracks graph start told fed := by
  have callbacks_eq := callbacks_note engine consumer (.cancelled units)
  rw [show (Occurrence.cancelled units).callback?.toList = [] from rfl, List.append_nil]
    at callbacks_eq
  exact tracks.of_journal _ _ callbacks_eq

theorem Tracks.follows_of_running (tracks : engine.Tracks graph start told fed)
    (running : engine.status = .running) :
    ∃ steps read, engine.Follows graph start told fed false steps read := by
  cases tracks with
  | @follows ended steps read follows unended =>
      obtain rfl := unended running
      exact ⟨steps, read, follows⟩
  | stopped stopped =>
      rcases stopped.exists_failed with ⟨_, status_eq⟩
      simp [running] at status_eq

/-- Where the engine has succeeded, it has followed a run over the whole input. -/
theorem Tracks.exists_parses (tracks : engine.Tracks graph start told fed)
    (succeeded : engine.status = .succeeded) : ∃ steps, graph.Parses start steps fed := by
  cases tracks with
  | @follows ended steps read follows _ whole =>
      rcases whole succeeded with ⟨entered, stack_eq, rfl, closed⟩
      have run := follows.run
      have depth := follows.depth
      rw [stack_eq] at run
      rw [visited, if_pos entered, closed] at depth
      exact ⟨steps, run, depth⟩
  | stopped stopped =>
      rcases stopped.exists_failed with ⟨_, status_eq⟩
      simp [succeeded] at status_eq

end Engine

namespace Engine

variable {grammar : Grammar} {consumer : Consumer} {limits : ResolutionLimits} {engine : Engine}
  {start : RuleId} {told : List Callback} {fed : List Char}

/-- Taking in units keeps track of the graph, and does not make the parse succeed. -/
theorem Takes.tracks {Unit : Type} {encoding : Encoding Unit} {units : List Unit} {count : Nat}
    {after : Engine} (takes : Takes grammar consumer encoding engine units count after)
    (resolved : grammar.IsResolved limits) (tracks : engine.Tracks grammar.toGraph start told fed)
    (running : engine.status = .running) :
    after.Tracks grammar.toGraph start told (fed ++ encoding.textOf units count) ∧
      after.status ≠ .succeeded := by
  induction takes generalizing fed with
  | exhausts decoded =>
      rw [Encoding.textOf_zero, List.append_nil]
      refine ⟨tracks, ?_⟩
      simp [running]
  | malforms decoded =>
      rcases tracks.follows_of_running running with ⟨steps, read, follows⟩
      rw [Encoding.textOf_zero, List.append_nil]
      refine ⟨follows.tracks_of_fail running (by simp), ?_⟩
      intro succeeded
      cases succeeded
  | @ends _ _ character size decoded ended =>
      rcases tracks.follows_of_running running with ⟨steps, read, follows⟩
      rcases follows.tracks_feed resolved consumer running (.char character) with
        ⟨fedTracks, onlyAtEnd⟩
      rw [Encoding.textOf_size decoded]
      refine ⟨fedTracks, ?_⟩
      intro succeeded
      cases onlyAtEnd succeeded
  | @cancels _ _ character size decoded isRunning cancelled total =>
      rcases tracks.follows_of_running running with ⟨steps, read, follows⟩
      have fedTracks := (follows.tracks_feed resolved consumer running (.char character)).1
      rw [Encoding.textOf_size decoded]
      refine ⟨fedTracks.note_cancelled consumer total, ?_⟩
      rw [status_note, isRunning]
      simp
  | @continues _ _ _ character size count decoded isRunning _ _ ih =>
      rcases tracks.follows_of_running running with ⟨steps, read, follows⟩
      have fedTracks := (follows.tracks_feed resolved consumer running (.char character)).1
      have further := ih fedTracks isRunning
      rw [Encoding.textOf_of_decode decoded, List.append_cons]
      exact further

end Engine

/-- One call to an engine. Each may come with a consumer of its own. -/
inductive Call : Type 1
  | consume {Unit : Type} (consumer : Consumer) (encoding : Encoding Unit) (units : List Unit)
  | endInput (consumer : Consumer)

namespace Engine

/-- The number of units that a call takes, whether it fails or not. -/
def unitsTaken {Unit : Type} (grammar : Grammar) (consumer : Consumer) (encoding : Encoding Unit)
    (engine : Engine) (units : List Unit) : Nat :=
  if engine.status.isRunning then
    (takeUnits grammar consumer encoding units 0 { engine with cancelled := false }).1
  else 0

def afterCall (grammar : Grammar) (engine : Engine) : Call → Engine
  | .consume consumer encoding units => (engine.consume grammar consumer encoding units).2
  | .endInput consumer => (engine.endInput grammar consumer).2

def textOfCall (grammar : Grammar) (engine : Engine) : Call → List Char
  | .consume consumer encoding units =>
      encoding.textOf units (engine.unitsTaken grammar consumer encoding units)
  | .endInput _ => []

def afterCalls (grammar : Grammar) (engine : Engine) (calls : List Call) : Engine :=
  calls.foldl (afterCall grammar) engine

def textOfCalls (grammar : Grammar) : Engine → List Call → List Char
  | _, [] => []
  | engine, call :: rest =>
      engine.textOfCall grammar call ++ textOfCalls grammar (engine.afterCall grammar call) rest

variable {grammar : Grammar} {limits : ResolutionLimits} {engine : Engine} {start : RuleId}
  {told : List Callback} {fed : List Char}

theorem afterCall_of_ended (grammar : Grammar) (ended : engine.status.isRunning = false)
    (call : Call) :
    engine.afterCall grammar call = engine ∧ engine.textOfCall grammar call = [] := by
  cases call with
  | consume consumer encoding units =>
      simp [afterCall, textOfCall, consume, unitsTaken, ended, Encoding.textOf_zero]
  | endInput consumer => simp [afterCall, textOfCall, endInput, ended]

theorem Tracks.afterCall (tracks : engine.Tracks grammar.toGraph start told fed)
    (resolved : grammar.IsResolved limits) (call : Call) :
    (engine.afterCall grammar call).Tracks grammar.toGraph start told
      (fed ++ engine.textOfCall grammar call) := by
  cases ongoing : engine.status.isRunning with
  | false =>
      rcases afterCall_of_ended grammar ongoing call with ⟨after_eq, text_eq⟩
      rw [after_eq, text_eq, List.append_nil]
      exact tracks
  | true =>
      have running : engine.status = .running := by
        cases status_eq : engine.status <;> simp_all [Status.isRunning]
      cases call with
      | consume consumer encoding units =>
          have uncancelled :
              { engine with cancelled := false }.Tracks grammar.toGraph start told fed :=
            tracks.of_journal false engine.journal rfl
          rcases takes_takeUnits grammar consumer encoding units 0
              { engine with cancelled := false } with ⟨count, after, takeUnits_eq, takes⟩
          simp only [Engine.afterCall, consume, textOfCall, unitsTaken, ongoing, if_true,
            takeUnits_eq, Nat.zero_add]
          exact (takes.tracks resolved uncancelled running).1
      | endInput consumer =>
          rcases tracks.follows_of_running running with ⟨steps, read, follows⟩
          have after := (follows.tracks_feed resolved consumer running .endOfInput).1
          simp only [Engine.afterCall, endInput, textOfCall, ongoing, if_true]
          exact after

theorem Tracks.afterCalls (tracks : engine.Tracks grammar.toGraph start told fed)
    (resolved : grammar.IsResolved limits) (calls : List Call) :
    (engine.afterCalls grammar calls).Tracks grammar.toGraph start told
      (fed ++ engine.textOfCalls grammar calls) := by
  induction calls generalizing engine fed with
  | nil => simpa [Engine.afterCalls, textOfCalls] using tracks
  | cons call rest ih =>
      have further := ih (tracks.afterCall resolved call)
      rw [List.append_assoc] at further
      exact further

theorem tracks_resetTo (engine : Engine) (graph : Graph) (start : RuleId) :
    (engine.resetTo start).Tracks graph start engine.callbacks [] := by
  have atStart : (engine.resetTo start).Follows graph start engine.callbacks [] false [] [] := by
    refine ⟨.refl _, ⟨[], rfl, rfl⟩, rfl, ?_, ?_, rfl, [], .nil, ?_⟩
    · intro _
      exact ⟨rfl, rfl, rfl⟩
    · intro _ _ _
      rfl
    · simp [resetTo, ofRule, Status.callback?, callbacks]
  refine .follows atStart ?_ ?_ ?_
  · intro _
    rfl
  · intro succeeded
    cases succeeded
  · intro name location status_eq
    cases status_eq

end Engine

/-- A rule that publishes what it reads without having opened a capture. -/
def Graph.publishesUnopened : Graph :=
  (Assembly.assemble do
    let main ← Assembly.rule "main"
    let start ← Assembly.node main
    let done ← Assembly.node main (.publish "oops" 0 0)
    Assembly.charEdge main start 'a' done).2

def Grammar.publishesUnopened : Grammar :=
  Graph.publishesUnopened.builtGrammar ⟨"main", 1, false⟩

/-- The engine can stand where no run leads that consumes what the engine has consumed: it moves to
a publishing node before it consumes what led there, and fails in between. -/
theorem Grammar.exists_engine_off_graph :
    ∃ grammar, (Graph.publishesUnopened.build ⟨"main", 1, false⟩).result = .ok grammar ∧
      ∃ calls : List Call, ¬∃ steps read waiting ended,
        Run Graph.publishesUnopened [⟨0, Rule.entry⟩] steps read
          ((Engine.ofRule 0).afterCalls grammar calls).stack ∧
        ((Engine.ofRule 0).afterCalls grammar calls).lookahead = .holding waiting ended ∧
        (Engine.ofRule 0).textOfCalls grammar calls = read ++ waiting := by
  have isOk : (Graph.publishesUnopened.build ⟨"main", 1, false⟩).result.isOk = true := by
    decide +kernel
  refine ⟨publishesUnopened, Graph.build_eq_builtGrammar isOk,
    [.consume .patient .chars ['a']], ?_⟩
  have stack_eq : ((Engine.ofRule 0).afterCalls publishesUnopened
      [.consume .patient .chars ['a']]).stack = [⟨0, 1⟩] := by cbv
  have waits : ((Engine.ofRule 0).afterCalls publishesUnopened
      [.consume .patient .chars ['a']]).lookahead = .holding ['a'] false := by cbv
  have fed_eq : (Engine.ofRule 0).textOfCalls publishesUnopened
      [.consume .patient .chars ['a']] = ['a'] := by cbv
  rintro ⟨steps, read, waiting, ended, run, lookahead_eq, text_eq⟩
  rw [stack_eq] at run
  rw [waits] at lookahead_eq
  rw [fed_eq] at text_eq
  have read_eq : read = [] := by
    cases waiting with
    | nil => cases ended <;> simp [Lookahead.holding] at lookahead_eq
    | cons character rest =>
        have length_eq := congrArg List.length text_eq
        simp only [List.length_append, List.length_cons, List.length_nil] at length_eq
        exact List.length_eq_zero_iff.mp (by omega)
  subst read_eq
  rcases Run.iff_walk.mp run with ⟨walk, spells⟩
  have silent : Path.matchers steps = [] := List.forall₂_nil_right_iff.mp spells
  have outgoing_eq : Graph.publishesUnopened.outgoing ⟨0, Rule.entry⟩ =
      [⟨0, 1, .consume 0⟩] := by decide
  cases steps with
  | nil =>
      have stays := Walk.nil_iff.mp walk
      revert stays
      decide
  | cons step rest =>
      have enabled := (Walk.cons_iff.mp walk).1
      cases step with
      | consume matcher target => simp at silent
      | call | goto | leave => simp [Step.IsEnabled, Step.edge?, outgoing_eq] at enabled

/-- The engine follows the graph, whatever calls are made after a reset, unless a node that
publishes without an open capture has stopped it on the way. What it succeeds on is derived by the
start rule. -/
theorem Grammar.engine_follows_graph {graph : Graph} {config : GrammarConfig} {grammar : Grammar}
    (built : (graph.build config).result = .ok grammar) (engine : Engine) (start : RuleId)
    (calls : List Call) :
    ((engine.resetTo start).afterCalls grammar calls).Tracks graph start engine.callbacks
        ((engine.resetTo start).textOfCalls grammar calls) ∧
      (((engine.resetTo start).afterCalls grammar calls).status = .succeeded →
        graph.Derives start ((engine.resetTo start).textOfCalls grammar calls)) := by
  rcases Graph.build_ok built with ⟨rfl, resolved⟩
  have tracks := (engine.tracks_resetTo grammar.toGraph start).afterCalls resolved calls
  rw [List.nil_append] at tracks
  refine ⟨tracks, ?_⟩
  intro succeeded
  rcases tracks.exists_parses succeeded with ⟨steps, parses⟩
  exact ⟨steps, parses.run⟩

/-- Here the letter that led to the publishing node still waits. -/
theorem Grammar.engine_follows_publishesUnopened :
    ∃ grammar, (Graph.publishesUnopened.build ⟨"main", 1, false⟩).result = .ok grammar ∧
      ∃ after passed node read held,
        ((Engine.ofRule 0).resetTo 0).afterCalls grammar
          [.consume .patient .chars ['a'], .endInput .patient] = after ∧
        after.stack = [⟨0, 1⟩] ∧ after.lookahead = .holding ['a'] false ∧
        after.Stopped Graph.publishesUnopened 0 [] ['a'] passed node read held := by
  have isOk : (Graph.publishesUnopened.build ⟨"main", 1, false⟩).result.isOk = true := by
    decide +kernel
  have built : (Graph.publishesUnopened.build ⟨"main", 1, false⟩).result = .ok publishesUnopened :=
    Graph.build_eq_builtGrammar isOk
  have status_eq : (((Engine.ofRule 0).resetTo 0).afterCalls publishesUnopened
      [.consume .patient .chars ['a'], .endInput .patient]).status =
        .failed ⟨.captureUnderflow "oops", .start⟩ := by cbv
  have fed_eq : ((Engine.ofRule 0).resetTo 0).textOfCalls publishesUnopened
      [.consume .patient .chars ['a'], .endInput .patient] = ['a'] := by cbv
  have tracks := (engine_follows_graph built (Engine.ofRule 0) 0
    [.consume .patient .chars ['a'], .endInput .patient]).1
  rw [fed_eq] at tracks
  refine ⟨publishesUnopened, built, ?_⟩
  cases tracks with
  | follows _ _ _ sound => exact absurd status_eq (sound _ _)
  | stopped stopped =>
      refine ⟨_, _, _, _, _, rfl, ?_, ?_, stopped⟩
      · cbv
      · cbv

end StreamGrammar
