import StreamGrammar.Engine
import StreamGrammar.Proofs.Walks

/-!
# Steps of the engine

A path that the engine takes is a run of the rule graph: the stack changes as the
steps say, what is consumed is removed from the waiting symbols and counted by the
location, and the node that each step enters performs its action. The one thing that
can stop the engine in the middle of a path is an action that publishes while no
capture is open. The engine then has moved already, but what the step was to consume
still waits.
-/

namespace StreamGrammar

namespace Action

/-- The number of open captures after an action, unless it publishes without one. -/
def depthAfter? : Action → Nat → Option Nat
  | .none, depth => some depth
  | .beginCapture, depth => some (depth + 1)
  | .publish .., 0 => Option.none
  | .publish .., depth + 1 => some depth
  | .event _, depth => some depth

/-- The callbacks are those that the actions make, in order, whatever text is published. -/
inductive Announced : List Action → List Callback → Prop
  | nil : Announced [] []
  | none {actions : List Action} {callbacks : List Callback} (rest : Announced actions callbacks) :
      Announced (.none :: actions) callbacks
  | beginCapture {actions : List Action} {callbacks : List Callback}
      (rest : Announced actions callbacks) :
      Announced (.beginCapture :: actions) (.captureStart :: callbacks)
  | publish {actions : List Action} {callbacks : List Callback} {name : String}
      {trimStart trimEnd : Nat} (text : String) (rest : Announced actions callbacks) :
      Announced (.publish name trimStart trimEnd :: actions) (.publish name text :: callbacks)
  | event {actions : List Action} {callbacks : List Callback} {name : String}
      (rest : Announced actions callbacks) :
      Announced (.event name :: actions) (.event name :: callbacks)

theorem Announced.append {first second : List Action}
    {firstCallbacks secondCallbacks : List Callback}
    (firstAnnounced : Announced first firstCallbacks)
    (secondAnnounced : Announced second secondCallbacks) :
    Announced (first ++ second) (firstCallbacks ++ secondCallbacks) := by
  induction firstAnnounced with
  | nil => exact secondAnnounced
  | none _ ih => exact .none ih
  | beginCapture _ ih => exact .beginCapture ih
  | publish text _ ih => exact .publish text ih
  | event _ ih => exact .event ih

end Action

/-- The number of open captures after the actions of some nodes, unless one of them publishes
without an open capture. -/
def Graph.captureDepth? (graph : Graph) : (depth : Nat) → List Frame → Option Nat
  | depth, [] => some depth
  | depth, frame :: rest =>
      ((graph.action frame).depthAfter? depth).bind fun after => graph.captureDepth? after rest

/-- The nodes that the steps enter, one after the other. -/
def Path.entered : List Frame → Path → List Frame
  | _, [] => []
  | stack, step :: rest =>
      (step.apply stack).head?.toList ++ Path.entered (step.apply stack) rest

theorem Path.entered_append {graph : Graph} {stack middle : List Frame} {first second : Path}
    (walk : Walk graph stack first middle) :
    Path.entered stack (first ++ second) =
      Path.entered stack first ++ Path.entered middle second := by
  induction walk with
  | refl => rfl
  | step _ _ ih => simp [Path.entered, ih]

theorem Graph.captureDepth?_append (graph : Graph) (depth : Nat) (first second : List Frame) :
    graph.captureDepth? depth (first ++ second) =
      (graph.captureDepth? depth first).bind fun after => graph.captureDepth? after second := by
  induction first generalizing depth with
  | nil => rfl
  | cons frame rest ih =>
      simp only [List.cons_append, captureDepth?]
      cases (graph.action frame).depthAfter? depth with
      | none => rfl
      | some after => exact ih after

namespace CaptureBuffer

@[simp]
theorem depth_begin (buffer : CaptureBuffer) : buffer.begin.depth = buffer.depth + 1 := rfl

@[simp]
theorem depth_push (buffer : CaptureBuffer) (character : Char) :
    (buffer.push character).depth = buffer.depth := by
  simp only [push]
  split
  · rfl
  · rfl

theorem finish?_eq_none {buffer : CaptureBuffer} {trimStart trimEnd : Nat}
    (missing : buffer.finish? trimStart trimEnd = none) : buffer.depth = 0 := by
  simp only [finish?] at missing
  split at missing
  next starts_eq => simp [depth, starts_eq]
  next => cases missing

theorem depth_of_finish? {buffer rest : CaptureBuffer} {trimStart trimEnd : Nat} {text : String}
    (finished : buffer.finish? trimStart trimEnd = some (text, rest)) :
    buffer.depth = rest.depth + 1 := by
  simp only [finish?] at finished
  split at finished
  next => cases finished
  next start outer starts_eq =>
    cases finished
    simp [depth, starts_eq]

end CaptureBuffer

namespace Engine

section Noting

variable (engine : Engine) (consumer : Consumer) (occurrence : Occurrence)

@[simp]
theorem start_note : (engine.note consumer occurrence).start = engine.start := rfl

@[simp]
theorem stack_note : (engine.note consumer occurrence).stack = engine.stack := rfl

@[simp]
theorem lookahead_note : (engine.note consumer occurrence).lookahead = engine.lookahead := rfl

@[simp]
theorem capture_note : (engine.note consumer occurrence).capture = engine.capture := rfl

@[simp]
theorem location_note : (engine.note consumer occurrence).location = engine.location := rfl

@[simp]
theorem status_note : (engine.note consumer occurrence).status = engine.status := rfl

@[simp]
theorem entered_note : (engine.note consumer occurrence).entered = engine.entered := rfl

@[simp]
theorem callbacks_note : (engine.note consumer occurrence).callbacks =
    engine.callbacks ++ occurrence.callback?.toList := by
  cases callback_eq : occurrence.callback? with
  | none => simp [note, callbacks, callback_eq]
  | some callback => simp [note, callbacks, callback_eq]

theorem callbacks_note_nodeEntered (node : Frame) :
    (engine.note consumer (.nodeEntered node)).callbacks = engine.callbacks := by
  simp [Occurrence.callback?]

end Noting

/-- What stays as it is while actions are performed. -/
structure KeepsPlace (engine after : Engine) : Prop where
  start : after.start = engine.start
  stack : after.stack = engine.stack
  lookahead : after.lookahead = engine.lookahead
  location : after.location = engine.location
  entered : after.entered = engine.entered

/-- The parse goes on after the actions, which have made their callbacks. -/
structure Performed (engine : Engine) (graph : Graph) (nodes : List Frame) (after : Engine) :
    Prop where
  running : after.status = .running
  depth : graph.captureDepth? engine.capture.depth nodes = some after.capture.depth
  callbacks : ∃ new, Action.Announced (nodes.map graph.action) new ∧
    after.callbacks = engine.callbacks ++ new

/-- The parse has failed because the node publishes something and no capture is open. -/
structure Underflowed (engine : Engine) (graph : Graph) (node : Frame) (after : Engine) :
    Prop where
  depth : engine.capture.depth = 0
  failed : ∃ name trimStart trimEnd, graph.action node = .publish name trimStart trimEnd ∧
    after.status = .failed ⟨.captureUnderflow name, engine.location⟩ ∧
      after.callbacks = engine.callbacks ++
        [.fatalError (Failure.message ⟨.captureUnderflow name, engine.location⟩)]

variable {grammar : Grammar} {consumer : Consumer} {engine : Engine}

theorem Performed.trans {graph : Graph} {middle after : Engine} {first second : List Frame}
    (before : engine.Performed graph first middle) (rest : middle.Performed graph second after) :
    engine.Performed graph (first ++ second) after := by
  rcases before.callbacks with ⟨firstNew, firstAnnounced, first_eq⟩
  rcases rest.callbacks with ⟨secondNew, secondAnnounced, second_eq⟩
  refine ⟨rest.running, ?_, firstNew ++ secondNew, ?_, ?_⟩
  · rw [Graph.captureDepth?_append, before.depth]
    exact rest.depth
  · rw [List.map_append]
    exact firstAnnounced.append secondAnnounced
  · rw [second_eq, first_eq, List.append_assoc]

theorem Underflowed.isRunning_eq_false {graph : Graph} {node : Frame} {after : Engine}
    (underflowed : engine.Underflowed graph node after) : after.status.isRunning = false := by
  rcases underflowed.failed with ⟨_, _, _, _, status_eq, _⟩
  simp [status_eq, Status.isRunning]

theorem Underflowed.captureDepth?_eq_none {graph : Graph} {node : Frame} {after : Engine}
    (underflowed : engine.Underflowed graph node after) (rest : List Frame) :
    graph.captureDepth? engine.capture.depth (node :: rest) = none := by
  rcases underflowed.failed with ⟨name, trimStart, trimEnd, action_eq, _⟩
  simp [Graph.captureDepth?, action_eq, underflowed.depth, Action.depthAfter?]

/-- Entering a node performs its action and changes nothing else, or fails. -/
theorem enter_spec (grammar : Grammar) (consumer : Consumer)
    (running : engine.status = .running) (node : Frame) :
    engine.KeepsPlace (engine.enter grammar consumer node) ∧
      (engine.Performed grammar.toGraph [node] (engine.enter grammar consumer node) ∨
        engine.Underflowed grammar.toGraph node (engine.enter grammar consumer node)) := by
  simp only [enter]
  cases action_eq : grammar.action node with
  | none =>
      refine ⟨⟨rfl, rfl, rfl, rfl, rfl⟩, .inl ⟨running, ?_, [], ?_, ?_⟩⟩
      · simp [Graph.captureDepth?, action_eq, Action.depthAfter?, perform]
      · simpa [action_eq] using Action.Announced.none .nil
      · simp [perform, Occurrence.callback?]
  | beginCapture =>
      refine ⟨⟨rfl, rfl, rfl, rfl, rfl⟩, .inl ⟨running, ?_, [.captureStart], ?_, ?_⟩⟩
      · simp [Graph.captureDepth?, action_eq, Action.depthAfter?, perform]
      · simpa [action_eq] using Action.Announced.beginCapture .nil
      · rw [perform, callbacks_note]
        exact congrArg (· ++ _) (callbacks_note_nodeEntered engine consumer node)
  | event name =>
      refine ⟨⟨rfl, rfl, rfl, rfl, rfl⟩, .inl ⟨running, ?_, [.event name], ?_, ?_⟩⟩
      · simp [Graph.captureDepth?, action_eq, Action.depthAfter?, perform]
      · simpa [action_eq] using Action.Announced.event .nil
      · simp [perform, Occurrence.callback?]
  | publish name trimStart trimEnd =>
      simp only [perform, capture_note]
      cases finished : engine.capture.finish? trimStart trimEnd with
      | none =>
          have depth_eq := CaptureBuffer.finish?_eq_none finished
          refine ⟨⟨rfl, rfl, rfl, rfl, rfl⟩,
            .inr ⟨depth_eq, name, trimStart, trimEnd, action_eq, ?_⟩⟩
          refine ⟨rfl, ?_⟩
          rw [fail, callbacks_note]
          exact congrArg (· ++ _) (callbacks_note_nodeEntered engine consumer node)
      | some published =>
          rcases published with ⟨text, rest⟩
          have depth_eq := CaptureBuffer.depth_of_finish? finished
          refine ⟨⟨rfl, rfl, rfl, rfl, rfl⟩, .inl ⟨running, ?_, [.publish name text], ?_, ?_⟩⟩
          · simp [Graph.captureDepth?, action_eq, Action.depthAfter?, depth_eq]
          · simpa [action_eq] using Action.Announced.publish text .nil
          · rw [callbacks_note]
            exact congrArg (· ++ _) (callbacks_note_nodeEntered engine consumer node)

/-- The engine has taken the steps, which read the text, and the parse goes on. -/
structure Took (engine : Engine) (graph : Graph) (steps : Path) (read : List Char)
    (after : Engine) : Prop where
  run : Run graph engine.stack steps read after.stack
  performed : engine.Performed graph (Path.entered engine.stack steps) after
  start : after.start = engine.start
  lookahead : engine.lookahead.symbols = read.map .char ++ after.lookahead.symbols
  location : after.location = engine.location.advanceAll read
  entered : after.entered = engine.entered

/-- The engine has moved as the step says, but the node that it has come to has made the parse
fail. Nothing is consumed. -/
structure Broke (engine : Engine) (graph : Graph) (step : Step) (after : Engine) : Prop where
  enabled : step.IsEnabled graph engine.stack
  reads : ∃ read, step.Reads graph read ∧ read.map .char <+: engine.lookahead.symbols
  keeps : { engine with stack := step.apply engine.stack }.KeepsPlace after
  underflowed : ∃ node, (step.apply engine.stack).head? = some node ∧
    engine.Underflowed graph node after

theorem Took.refl (graph : Graph) (running : engine.status = .running) :
    engine.Took graph [] [] engine :=
  ⟨.refl _, ⟨running, rfl, [], .nil, by simp⟩, rfl, rfl, rfl, rfl⟩

theorem Took.trans {graph : Graph} {middle after : Engine} {steps furtherSteps : Path}
    {read furtherRead : List Char} (first : engine.Took graph steps read middle)
    (second : middle.Took graph furtherSteps furtherRead after) :
    engine.Took graph (steps ++ furtherSteps) (read ++ furtherRead) after := by
  refine ⟨first.run.trans second.run, ?_, second.start.trans first.start, ?_, ?_,
    second.entered.trans first.entered⟩
  · rw [Path.entered_append (Run.iff_walk.mp first.run).1]
    exact first.performed.trans second.performed
  · rw [first.lookahead, second.lookahead, List.map_append, List.append_assoc]
  · rw [second.location, first.location, Location.advanceAll_append]

theorem enter_moved {moved : Engine} {node : Frame} {stack : List Frame}
    (running : moved.status = .running) (keeps : { engine with stack }.KeepsPlace moved)
    (capture_eq : moved.capture = engine.capture)
    (callbacks_eq : moved.callbacks = engine.callbacks) :
    { engine with stack }.KeepsPlace (moved.enter grammar consumer node) ∧
      (engine.Performed grammar.toGraph [node] (moved.enter grammar consumer node) ∨
        engine.Underflowed grammar.toGraph node (moved.enter grammar consumer node)) := by
  have location_eq : moved.location = engine.location := keeps.location
  rcases enter_spec grammar consumer running node with ⟨kept, outcome⟩
  refine ⟨⟨kept.start.trans keeps.start, kept.stack.trans keeps.stack,
    kept.lookahead.trans keeps.lookahead, kept.location.trans keeps.location,
    kept.entered.trans keeps.entered⟩, ?_⟩
  rcases outcome with performed | underflowed
  · refine .inl ⟨performed.running, ?_, ?_⟩
    · rw [← capture_eq]
      exact performed.depth
    · rw [← callbacks_eq]
      exact performed.callbacks
  · refine .inr ⟨?_, ?_⟩
    · rw [← capture_eq]
      exact underflowed.depth
    · rw [← callbacks_eq, ← location_eq]
      exact underflowed.failed

/-- A step that reads nothing is taken by entering the node that it leads to. -/
theorem enter_took_or_broke {moved : Engine} {step : Step} {node : Frame}
    (enabled : step.IsEnabled grammar.toGraph engine.stack)
    (reads : step.Reads grammar.toGraph [])
    (node_eq : (step.apply engine.stack).head? = some node) (running : moved.status = .running)
    (keeps : { engine with stack := step.apply engine.stack }.KeepsPlace moved)
    (capture_eq : moved.capture = engine.capture)
    (callbacks_eq : moved.callbacks = engine.callbacks) :
    engine.Took grammar.toGraph [step] [] (moved.enter grammar consumer node) ∨
      engine.Broke grammar.toGraph step (moved.enter grammar consumer node) := by
  rcases enter_moved running keeps capture_eq callbacks_eq with ⟨kept, performed | underflowed⟩
  · refine .inl ⟨.step enabled reads ?_, ?_, kept.start, ?_, kept.location, kept.entered⟩
    · rw [kept.stack]
      exact .refl _
    · simpa [Path.entered, node_eq] using performed
    · simp [kept.lookahead]
  · exact .inr ⟨enabled, ⟨[], reads, List.nil_prefix⟩, kept, node, node_eq, underflowed⟩

theorem moveTo_spec (grammar : Grammar) (consumer : Consumer)
    (running : engine.status = .running) {top : Frame} {below : List Frame}
    (stack_eq : engine.stack = top :: below) (node : NodeId) :
    { engine with stack := { top with node } :: below }.KeepsPlace
        (engine.moveTo grammar consumer node) ∧
      (engine.Performed grammar.toGraph [{ top with node }]
          (engine.moveTo grammar consumer node) ∨
        engine.Underflowed grammar.toGraph { top with node }
          (engine.moveTo grammar consumer node)) := by
  have keeps : { engine with stack := { top with node } :: below }.KeepsPlace
      { engine with stack := { top with node } :: below } := ⟨rfl, rfl, rfl, rfl, rfl⟩
  simp only [moveTo, stack_eq]
  apply enter_moved ?_ keeps
  · rfl
  · rfl
  · exact running

theorem commit_char {character : Char} {rest : List Symbol}
    (waiting : engine.lookahead.symbols = .char character :: rest) :
    engine.commit = { engine with
      lookahead := ⟨rest⟩
      location := engine.location.advance character
      capture := engine.capture.push character } := by
  simp [commit, Lookahead.front?, Lookahead.commit, waiting]

/-- A consuming step is taken by entering its target first, and then consuming what waits. -/
theorem takeConsume_took_or_broke (consumer : Consumer) (running : engine.status = .running)
    {matcher : MatcherId} {target : NodeId} {character : Char}
    (enabled : (Step.consume matcher target).IsEnabled grammar.toGraph engine.stack)
    (accepted : (Step.consume matcher target).Reads grammar.toGraph [character])
    (waits : [character].map .char <+: engine.lookahead.symbols) :
    engine.Took grammar.toGraph [.consume matcher target] [character]
        (engine.takeStep grammar consumer (.consume matcher target)) ∨
      engine.Broke grammar.toGraph (.consume matcher target)
        (engine.takeStep grammar consumer (.consume matcher target)) := by
  rcases List.exists_cons_of_ne_nil (Step.stack_ne_nil_of_isEnabled enabled) with
    ⟨top, below, stack_eq⟩
  rcases waits with ⟨others, waits_eq⟩
  have apply_eq : (Step.consume matcher target).apply engine.stack =
      { top with node := target } :: below := by
    simp [stack_eq, Step.apply]
  rcases moveTo_spec grammar consumer running stack_eq target with ⟨kept, performed | underflowed⟩
  · have waiting : (engine.moveTo grammar consumer target).lookahead.symbols =
        .char character :: others := by
      rw [kept.lookahead]
      exact waits_eq.symm
    simp only [takeStep, performed.running, Status.isRunning, if_true, commit_char waiting]
    rcases performed.callbacks with ⟨new, announced, new_eq⟩
    refine .inl ⟨.step enabled accepted ?_, ⟨rfl, ?_, new, ?_, new_eq⟩, kept.start, ?_, ?_,
      kept.entered⟩
    · rw [apply_eq, kept.stack]
      exact .refl _
    · rw [CaptureBuffer.depth_push]
      simpa [Path.entered, apply_eq] using performed.depth
    · simpa [Path.entered, apply_eq] using announced
    · exact waits_eq.symm
    · exact congrArg (·.advance character) kept.location
  · simp only [takeStep, underflowed.isRunning_eq_false, Bool.false_eq_true, if_false]
    refine .inr ⟨enabled, ⟨[character], accepted, others, waits_eq⟩, ?_, _, ?_, underflowed⟩
    · rw [apply_eq]
      exact kept
    · rw [apply_eq]
      rfl

/-- The engine takes a step that the graph allows, or fails at the node that it leads to. -/
theorem takeStep_spec (consumer : Consumer) (running : engine.status = .running) {step : Step}
    {read : List Char}
    (enabled : step.IsEnabled grammar.toGraph engine.stack)
    (reads : step.Reads grammar.toGraph read)
    (waits : read.map .char <+: engine.lookahead.symbols) :
    engine.Took grammar.toGraph [step] read (engine.takeStep grammar consumer step) ∨
      engine.Broke grammar.toGraph step (engine.takeStep grammar consumer step) := by
  rcases List.exists_cons_of_ne_nil (Step.stack_ne_nil_of_isEnabled enabled) with
    ⟨top, below, stack_eq⟩
  cases step with
  | call rule resume =>
      obtain rfl : read = [] := reads
      rw [takeStep, call]
      apply enter_took_or_broke enabled rfl
      · simp [stack_eq, Step.apply]
      · exact running
      · constructor <;> simp [stack_eq, Step.apply]
      · rfl
      · simp [Occurrence.callback?]
        rfl
  | goto node =>
      obtain rfl : read = [] := reads
      simp only [takeStep, moveTo, stack_eq]
      apply enter_took_or_broke enabled rfl
      · simp [stack_eq, Step.apply]
      · exact running
      · constructor <;> simp [stack_eq, Step.apply]
      · rfl
      · rfl
  | leave =>
      obtain rfl : read = [] := reads
      simp only [takeStep, leave, stack_eq]
      cases below with
      | nil =>
          refine .inl ⟨.step enabled rfl ?_, ⟨running, ?_, [], ?_, ?_⟩, rfl, rfl, rfl, rfl⟩
          · rw [stack_eq]
            exact .refl _
          · simp [Path.entered, stack_eq, Step.apply, Graph.captureDepth?]
          · simpa [Path.entered, stack_eq, Step.apply] using Action.Announced.nil
          · simp [Occurrence.callback?]
            rfl
      | cons caller rest =>
          apply enter_took_or_broke enabled rfl
          · simp [stack_eq, Step.apply]
          · exact running
          · constructor <;> simp [stack_eq, Step.apply]
          · rfl
          · simp [Occurrence.callback?]
            rfl
  | consume matcher target =>
      rcases Step.exists_of_reads_consume reads with ⟨character, rfl, _⟩
      exact takeConsume_took_or_broke consumer running enabled reads waits

theorem takePath_cons (running : engine.status = .running) (step : Step) (rest : Path) :
    engine.takePath grammar consumer (step :: rest) =
      (engine.takeStep grammar consumer step).takePath grammar consumer rest := by
  simp [takePath, running, Status.isRunning]

theorem leave_eq_takePath (running : engine.status = .running) :
    engine.leave grammar consumer = engine.takePath grammar consumer [.leave] := by
  rw [takePath_cons running]
  rfl

theorem takePath_of_ended (ended : engine.status.isRunning = false) (path : Path) :
    engine.takePath grammar consumer path = engine := by
  induction path with
  | nil => rfl
  | cons step rest ih =>
      simp only [takePath, List.foldl_cons, ended, Bool.false_eq_true, if_false] at ih ⊢
      exact ih

theorem Broke.ended {graph : Graph} {step : Step} {after : Engine}
    (broke : engine.Broke graph step after) : after.status.isRunning = false := by
  rcases broke.underflowed with ⟨_, _, underflowed⟩
  exact underflowed.isRunning_eq_false

/-- After a step that has been taken, the rest of a run can be taken from where the engine is. -/
theorem Took.rest {graph : Graph} {step : Step} {read further : List Char} {after : Engine}
    {rest : Path} {final : List Frame} (took : engine.Took graph [step] read after)
    (restRun : Run graph (step.apply engine.stack) rest further final)
    (waits : (read ++ further).map .char <+: engine.lookahead.symbols) :
    Run graph after.stack rest further final ∧
      further.map .char <+: after.lookahead.symbols := by
  have stack_eq : after.stack = step.apply engine.stack := took.run.final_eq
  rw [took.lookahead, List.map_append, List.prefix_append_right_inj] at waits
  rw [stack_eq]
  exact ⟨restRun, waits⟩

/-- The engine takes a path that is a run over the waiting symbols, or fails on the way. -/
theorem takePath_spec (consumer : Consumer) (running : engine.status = .running) {path : Path}
    {read : List Char} {final : List Frame} (run : Run grammar.toGraph engine.stack path read final)
    (waits : read.map .char <+: engine.lookahead.symbols) :
    engine.Took grammar.toGraph path read (engine.takePath grammar consumer path) ∨
      ∃ before step later firstRead middle, path = before ++ step :: later ∧
        engine.Took grammar.toGraph before firstRead middle ∧
          middle.Broke grammar.toGraph step (engine.takePath grammar consumer path) := by
  induction path generalizing engine read with
  | nil =>
      cases run
      exact .inl (.refl _ running)
  | cons step rest ih =>
      cases run with
      | @step _ _ _ _ first further enabled reads restRun =>
          have stepWaits : first.map .char <+: engine.lookahead.symbols := by
            rw [List.map_append] at waits
            exact (List.prefix_append _ _).trans waits
          rw [takePath_cons running]
          rcases takeStep_spec consumer running enabled reads stepWaits with took | broke
          · rcases took.rest restRun waits with ⟨afterRun, afterWaits⟩
            rcases ih took.performed.running afterRun afterWaits with
              restTook | ⟨before, other, later, read, middle, rfl, before_took, broke⟩
            · exact .inl (took.trans restTook)
            · exact .inr ⟨step :: before, other, later, first ++ read, middle, rfl,
                took.trans before_took, broke⟩
          · rw [takePath_of_ended broke.ended]
            exact .inr ⟨[], step, rest, [], engine, rfl, .refl _ running, broke⟩

end Engine

end StreamGrammar
