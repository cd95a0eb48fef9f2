import StreamGrammar.Proofs.CaptureBytes
import StreamGrammar.Proofs.CheckedDecisions
import StreamGrammar.Proofs.Renewal

/-!
# The engine with every lookup checked

A running engine looks up the rules being run and the nodes that they are at, what is
decided there, and whatever the decision refers to. Here it runs with all of this checked
and with its captured text kept in bytes. As long as every rule being run is at a node of
the grammar, no lookup misses and no slice of the captured text fails, and every step
that is taken keeps it so. An engine thus runs through any sequence of operations, begun
at any rules of a built grammar, exactly as it does unchecked.
-/

namespace StreamGrammar

/-- An engine whose captured text is kept in bytes. Its own buffer stays empty. -/
structure ByteEngine where
  engine : Engine
  bytes : ByteBuffer := {}

def Engine.inBytes (engine : Engine) : ByteEngine :=
  ⟨{ engine with capture := .empty }, engine.capture.toBytes⟩

namespace ByteEngine

/-- How the parse stands after one decision. -/
inductive Progress where
  | settled (state : ByteEngine)
  | ongoing (state : ByteEngine)

def progress (state : ByteEngine) : Progress :=
  if state.engine.status.isRunning then .ongoing state else .settled state

section Definitions

variable (grammar : Grammar) (consumer : Consumer)

def note (state : ByteEngine) (occurrence : Occurrence) : ByteEngine :=
  { state with engine := state.engine.note consumer occurrence }

def fail (state : ByteEngine) (cause : FailureCause) : ByteEngine :=
  { state with engine := state.engine.fail consumer cause }

def reject (state : ByteEngine) (expected : List String) : ByteEngine :=
  { state with engine := state.engine.reject consumer expected }

def withStack (state : ByteEngine) (stack : List Frame) : ByteEngine :=
  { state with engine := { state.engine with stack } }

def perform? (state : ByteEngine) : Action → Option ByteEngine
  | .none => some state
  | .beginCapture => some ({ state with bytes := state.bytes.begin }.note consumer .captureStarted)
  | .publish name trimStart trimEnd => do
      match ← state.bytes.finish? trimStart trimEnd with
      | some (text, bytes) => return { state with bytes }.note consumer (.published name text)
      | none => return state.fail consumer (.captureUnderflow name)
  | .event name => some (state.note consumer (.eventAnnounced name))

def enter? (state : ByteEngine) (frame : Frame) : Option ByteEngine := do
  let rule ← grammar.rules[frame.rule]?
  let node ← rule.nodes[frame.node]?
  (state.note consumer (.nodeEntered frame)).perform? consumer node.action

def moveTo? (state : ByteEngine) (node : NodeId) : Option ByteEngine :=
  match state.engine.stack with
  | [] => some state
  | top :: below =>
      let moved := { top with node }
      (state.withStack (moved :: below)).enter? grammar consumer moved

def call? (state : ByteEngine) (rule : RuleId) (resume : NodeId) : Option ByteEngine := do
  let _ ← (grammar.rules[rule]? : Option Rule)
  let entry : Frame := ⟨rule, Rule.entry⟩
  let stack := match state.engine.stack with
    | [] => [entry]
    | top :: below => entry :: { top with node := resume } :: below
  ((state.withStack stack).note consumer (.rulePushed rule)).enter? grammar consumer entry

def leave? (state : ByteEngine) : Option ByteEngine :=
  match state.engine.stack with
  | [] => some state
  | top :: below => do
      let _ ← (grammar.rules[top.rule]? : Option Rule)
      let left := (state.withStack below).note consumer (.rulePopped top.rule)
      match below with
      | [] => return left
      | caller :: _ => left.enter? grammar consumer caller

def commit (state : ByteEngine) : ByteEngine where
  engine := state.engine.commit
  bytes := match state.engine.lookahead.front? with
    | some (.char character) => state.bytes.push character
    | _ => state.bytes

def takeStep? (state : ByteEngine) : Step → Option ByteEngine
  | .call rule resume => state.call? grammar consumer rule resume
  | .goto node => state.moveTo? grammar consumer node
  | .leave => state.leave? grammar consumer
  | .consume _ target => do
      let moved ← state.moveTo? grammar consumer target
      return if moved.engine.status.isRunning then moved.commit else moved

def takePath? (state : ByteEngine) (path : Path) : Option ByteEngine :=
  path.foldlM (fun current step =>
    if current.engine.status.isRunning then current.takeStep? grammar consumer step
    else some current) state

def finish (state : ByteEngine) (symbol : Symbol) : ByteEngine :=
  match symbol with
  | .char _ => state.reject consumer [Symbol.endOfInput.text]
  | .endOfInput =>
      if state.bytes.starts.isEmpty then
        { state with
          engine := { state.engine with lookahead := .empty, status := .succeeded }.note consumer
            (.succeeded state.engine.location) }
      else state.fail consumer (.unterminatedCapture state.bytes.starts.length)

def advance? (state : ByteEngine) : Option Progress :=
  match state.engine.lookahead.front?, state.engine.stack with
  | none, _ => some (.settled state)
  | some symbol, [] => some (.settled (state.finish consumer symbol))
  | some _, top :: _ => do
      match ← grammar.tabledRoutes? top with
      | none => return (← state.leave? grammar consumer).progress
      | some routes =>
          match ← grammar.decide? state.engine.lookahead routes with
          | .needMore => return .settled state
          | .take path => return (← state.takePath? grammar consumer path).progress
          | .reject => return .settled (state.reject consumer routes.expected)

def settleWithin? (symbols rules : Nat) (state : ByteEngine) : Option ByteEngine :=
  match state.advance? grammar consumer with
  | none => none
  | some (.settled next) => some next
  | some (.ongoing next) =>
      let symbolsLeft := next.engine.lookahead.length
      let rulesLeft := next.engine.stack.length
      if symbolsLeft < symbols ∨ symbolsLeft = symbols ∧ rulesLeft < rules then
        settleWithin? symbolsLeft rulesLeft next
      else some next
termination_by (symbols, rules)
decreasing_by
  rename_i smaller
  rcases smaller with fewer | ⟨same, fewer⟩
  · exact Prod.Lex.left _ _ fewer
  · exact Prod.Lex.right' _ (Nat.le_of_eq same) fewer

def push (state : ByteEngine) (symbol : Symbol) : ByteEngine :=
  { state with
    engine := { state.engine with lookahead := state.engine.lookahead.push symbol } }

def enterStart? (state : ByteEngine) : Option ByteEngine :=
  if state.engine.entered then some state
  else
    let entered := { state with engine := { state.engine with entered := true } }
    match state.engine.stack with
    | [] => some entered
    | top :: _ => entered.enter? grammar consumer top

def feed? (state : ByteEngine) (symbol : Symbol) : Option ByteEngine := do
  let entered ← (state.push symbol).enterStart? grammar consumer
  if entered.engine.status.isRunning then
    entered.settleWithin? grammar consumer entered.engine.lookahead.length
      entered.engine.stack.length
  else return entered

def takeUnits? {Unit : Type} (encoding : Encoding Unit) (units : List Unit) (taken : Nat)
    (state : ByteEngine) : Option (Nat × ByteEngine) :=
  match _decoded : encoding.decode units with
  | .incomplete => some (taken, state)
  | .malformed malformation => some (taken, state.fail consumer (.decoding malformation))
  | .char character size =>
      match state.feed? grammar consumer (.char character) with
      | none => none
      | some fed =>
          if !fed.engine.status.isRunning then some (taken + size, fed)
          else if fed.engine.cancelled then
            some (taken + size, fed.note consumer (.cancelled (taken + size)))
          else takeUnits? encoding (units.drop size) (taken + size) fed
termination_by units.length
decreasing_by
  have := encoding.size_pos _decoded
  have := encoding.length_pos_of_decode _decoded
  rw [List.length_drop]
  omega

def uncancel (state : ByteEngine) : ByteEngine :=
  { state with engine := { state.engine with cancelled := false } }

def afterCall? (state : ByteEngine) : Call → Option ByteEngine
  | .consume consumer encoding units =>
      if state.engine.status.isRunning then do
        return (← state.uncancel.takeUnits? grammar consumer encoding units 0).2
      else some state
  | .endInput consumer =>
      if state.engine.status.isRunning then state.feed? grammar consumer .endOfInput
      else some state

def resetTo? (state : ByteEngine) (start : RuleId) : Option ByteEngine := do
  let _ ← (grammar.rules[start]? : Option Rule)
  return { engine := state.engine.resetTo start }

def afterOperation? (state : ByteEngine) : Operation → Option ByteEngine
  | .calls call => state.afterCall? grammar call
  | .cancel => some { state with engine := state.engine.cancel }
  | .reset => state.resetTo? grammar state.engine.start
  | .resetTo start => state.resetTo? grammar start

/-- Begins with a start rule and performs the operations. -/
def run? (start : RuleId) (operations : List Operation) : Option ByteEngine := do
  let _ ← (grammar.rules[start]? : Option Rule)
  operations.foldlM (afterOperation? grammar) { engine := Engine.ofRule start }

end Definitions

variable {grammar : Grammar} {consumer : Consumer} {state : ByteEngine}

theorem takePath?_cons (running : state.engine.status.isRunning = true) (step : Step)
    (rest : Path) : state.takePath? grammar consumer (step :: rest) =
      (state.takeStep? grammar consumer step).bind (·.takePath? grammar consumer rest) := by
  simp [takePath?, running, Option.bind_eq_bind]

theorem takePath?_of_ended (ended : state.engine.status.isRunning = false) (path : Path) :
    state.takePath? grammar consumer path = some state := by
  induction path with
  | nil => rfl
  | cons step rest ih =>
      rw [takePath?] at ih ⊢
      simp [ended, ih]

end ByteEngine

namespace Engine

/-- The rules being run are at nodes of the graph, the start rule is one of its rules, and captured
regions start inside the captured text. -/
structure IsPlaced (engine : Engine) (graph : Graph) : Prop where
  start : engine.start < graph.rules.size
  stack : graph.HasStack engine.stack
  capture : engine.capture.StartsInside

/-- The checked computation comes to the engine, which is at nodes of the graph. -/
structure IsReached (after : Engine) (graph : Graph) (check : Option ByteEngine) : Prop where
  check_eq : check = some after.inBytes
  placed : after.IsPlaced graph

variable {grammar : Grammar} {consumer : Consumer} {engine : Engine}

@[simp]
theorem status_inBytes (engine : Engine) : engine.inBytes.engine.status = engine.status := rfl

@[simp]
theorem stack_inBytes (engine : Engine) : engine.inBytes.engine.stack = engine.stack := rfl

@[simp]
theorem lookahead_inBytes (engine : Engine) :
    engine.inBytes.engine.lookahead = engine.lookahead := rfl

@[simp]
theorem entered_inBytes (engine : Engine) : engine.inBytes.engine.entered = engine.entered := rfl

@[simp]
theorem cancelled_inBytes (engine : Engine) :
    engine.inBytes.engine.cancelled = engine.cancelled := rfl

@[simp]
theorem inBytes_note (consumer : Consumer) (engine : Engine) (occurrence : Occurrence) :
    (engine.note consumer occurrence).inBytes = engine.inBytes.note consumer occurrence := rfl

theorem inBytes_commit (inside : engine.capture.StartsInside) :
    engine.commit.inBytes = engine.inBytes.commit := by
  cases front_eq : engine.lookahead.front? with
  | none => simp [Engine.commit, ByteEngine.commit, inBytes, front_eq]
  | some symbol =>
      cases symbol with
      | endOfInput => simp [Engine.commit, ByteEngine.commit, inBytes, front_eq]
      | char character =>
          simp only [Engine.commit, ByteEngine.commit, inBytes, front_eq,
            inside.toBytes_push character]
          rfl

theorem stack_enter (grammar : Grammar) (consumer : Consumer) (engine : Engine) (frame : Frame) :
    (engine.enter grammar consumer frame).stack = engine.stack := by
  rw [enter]
  cases grammar.action frame with
  | none | beginCapture | event => rfl
  | publish name trimStart trimEnd =>
      rw [perform]
      split <;> rfl

theorem stack_commit (engine : Engine) : engine.commit.stack = engine.stack := by
  rw [commit]
  split <;> rfl

theorem stack_moveTo {top : Frame} {below : List Frame} (stack_eq : engine.stack = top :: below)
    (node : NodeId) :
    (engine.moveTo grammar consumer node).stack = { top with node } :: below := by
  simp only [moveTo, stack_eq]
  exact stack_enter ..

/-- Wherever a step fails, the rules being run are what the step makes them. -/
theorem stack_takeStep {step : Step} (running : engine.stack ≠ []) :
    (engine.takeStep grammar consumer step).stack = step.apply engine.stack := by
  rcases List.exists_cons_of_ne_nil running with ⟨top, below, stack_eq⟩
  rw [stack_eq]
  cases step with
  | call rule resume =>
      simp only [takeStep, call, stack_eq]
      exact stack_enter ..
  | goto node => exact stack_moveTo stack_eq node
  | leave =>
      simp only [takeStep, leave, stack_eq]
      cases below with
      | nil => rfl
      | cons caller rest => exact stack_enter ..
  | consume matcher target =>
      simp only [takeStep]
      split
      next => rw [stack_commit, stack_moveTo stack_eq]; rfl
      next => rw [stack_moveTo stack_eq]; rfl

namespace IsPlaced

section Parts

variable {graph : Graph} (placed : engine.IsPlaced graph)

include placed

theorem note (consumer : Consumer) (occurrence : Occurrence) :
    (engine.note consumer occurrence).IsPlaced graph :=
  ⟨placed.start, placed.stack, placed.capture⟩

theorem withStack {stack : List Frame} (exist : graph.HasStack stack) :
    { engine with stack }.IsPlaced graph :=
  ⟨placed.start, exist, placed.capture⟩

theorem commit : engine.commit.IsPlaced graph := by
  rw [Engine.commit]
  split
  next => exact ⟨placed.start, placed.stack, placed.capture.push _⟩
  next => exact ⟨placed.start, placed.stack, placed.capture⟩

theorem perform (consumer : Consumer) (action : Action) :
    (engine.perform consumer action).IsReached graph
      (engine.inBytes.perform? consumer action) := by
  cases action with
  | none => exact ⟨rfl, placed⟩
  | event name => exact ⟨rfl, placed.note consumer (.eventAnnounced name)⟩
  | beginCapture =>
      refine ⟨?_, placed.start, placed.stack, placed.capture.begin⟩
      rw [ByteEngine.perform?, Engine.perform, inBytes_note]
      simp only [inBytes, CaptureBuffer.toBytes_begin]
  | publish name trimStart trimEnd =>
      have finish_eq := engine.capture.finish?_toBytes trimStart trimEnd
      simp only [ByteEngine.perform?, Engine.perform, inBytes, finish_eq, Option.bind_eq_bind,
        Option.bind_some]
      cases finished : engine.capture.finish? trimStart trimEnd with
      | none => exact ⟨rfl, placed.start, placed.stack, placed.capture⟩
      | some published =>
          rcases published with ⟨text, rest⟩
          exact ⟨rfl, placed.start, placed.stack, placed.capture.finish finished⟩

theorem finish (consumer : Consumer) (symbol : Symbol) :
    (engine.finish consumer symbol).inBytes = engine.inBytes.finish consumer symbol ∧
      (engine.finish consumer symbol).IsPlaced graph := by
  cases symbol with
  | char character => exact ⟨rfl, placed.start, placed.stack, placed.capture⟩
  | endOfInput =>
      have open_eq : engine.inBytes.bytes.starts.isEmpty = !engine.capture.isCapturing := by
        simp [inBytes, CaptureBuffer.toBytes, CaptureBuffer.isCapturing]
      have depth_eq : engine.inBytes.bytes.starts.length = engine.capture.depth := by
        simp [inBytes, CaptureBuffer.toBytes, CaptureBuffer.depth]
      simp only [Engine.finish, ByteEngine.finish, open_eq, depth_eq]
      cases engine.capture.isCapturing with
      | true => exact ⟨rfl, placed.start, placed.stack, placed.capture⟩
      | false => exact ⟨rfl, placed.start, placed.stack, placed.capture⟩

end Parts

section Steps

variable {limits : ResolutionLimits} (isSound : grammar.IsSound limits)
  (placed : engine.IsPlaced grammar.toGraph)

include placed

theorem enter (consumer : Consumer) {frame : Frame} (exist : grammar.HasNode frame) :
    (engine.enter grammar consumer frame).IsReached grammar.toGraph
      (engine.inBytes.enter? grammar consumer frame) := by
  rcases exist with ⟨rule, rule_eq, inside⟩
  have node_eq : rule.nodes[frame.node]? = some rule.nodes[frame.node] :=
    Array.getElem?_eq_getElem inside
  have action_eq : grammar.action frame = rule.nodes[frame.node].action := by
    simp [Graph.action, rule_eq, node_eq]
  simp only [ByteEngine.enter?, Engine.enter, rule_eq, node_eq, action_eq, Option.bind_eq_bind,
    Option.bind_some]
  exact (placed.note consumer (.nodeEntered frame)).perform consumer _

theorem moveTo (consumer : Consumer) {top : Frame} {below : List Frame} {node : NodeId}
    (stack_eq : engine.stack = top :: below)
    (exist : grammar.HasStack ({ top with node } :: below)) :
    (engine.moveTo grammar consumer node).IsReached grammar.toGraph
      (engine.inBytes.moveTo? grammar consumer node) := by
  simp only [ByteEngine.moveTo?, Engine.moveTo, stack_inBytes, stack_eq]
  exact (placed.withStack exist).enter consumer (exist _ List.mem_cons_self)

theorem enterStart (consumer : Consumer) :
    (engine.enterStart grammar consumer).IsReached grammar.toGraph
      (engine.inBytes.enterStart? grammar consumer) := by
  rw [ByteEngine.enterStart?, Engine.enterStart, entered_inBytes, stack_inBytes]
  split
  next => exact ⟨rfl, placed⟩
  next =>
    have begun : { engine with entered := true }.IsPlaced grammar.toGraph :=
      ⟨placed.start, placed.stack, placed.capture⟩
    rcases engine with ⟨start, stack, lookahead, capture, location, status⟩
    cases stack with
    | nil => exact ⟨rfl, begun⟩
    | cons top below => exact begun.enter consumer (placed.stack top List.mem_cons_self)

theorem leave (consumer : Consumer) : (engine.leave grammar consumer).IsReached grammar.toGraph
    (engine.inBytes.leave? grammar consumer) := by
  cases stack_eq : engine.stack with
  | nil =>
      simp only [ByteEngine.leave?, Engine.leave, stack_inBytes, stack_eq]
      exact ⟨rfl, placed⟩
  | cons top below =>
      have exist := placed.stack
      rw [stack_eq, Graph.HasStack, List.forall_mem_cons] at exist
      rcases exist with ⟨⟨rule, rule_eq, _⟩, belowExist⟩
      simp only [ByteEngine.leave?, Engine.leave, stack_inBytes, stack_eq, rule_eq,
        Option.bind_eq_bind, Option.bind_some]
      have left := (placed.withStack belowExist).note consumer (.rulePopped top.rule)
      cases below with
      | nil => exact ⟨rfl, left⟩
      | cons caller rest => exact left.enter consumer (belowExist caller List.mem_cons_self)

include isSound

/-- Every step that the graph allows is taken without a lookup of anything that is not there. -/
theorem takeStep (consumer : Consumer) {step : Step}
    (enabled : step.IsEnabled grammar.toGraph engine.stack) :
    (engine.takeStep grammar consumer step).IsReached grammar.toGraph
      (engine.inBytes.takeStep? grammar consumer step) := by
  have exist := isSound.sound.hasStack_apply enabled placed.stack
  rcases List.exists_cons_of_ne_nil (Step.stack_ne_nil_of_isEnabled enabled) with
    ⟨top, below, stack_eq⟩
  rw [stack_eq] at exist
  cases step with
  | goto node => exact placed.moveTo consumer stack_eq exist
  | leave => exact placed.leave consumer
  | call callee resume =>
      rcases exist _ List.mem_cons_self with ⟨rule, rule_eq, inside⟩
      simp only [ByteEngine.takeStep?, ByteEngine.call?, Engine.takeStep, Engine.call,
        stack_inBytes, stack_eq, rule_eq, Option.bind_eq_bind, Option.bind_some]
      exact ((placed.withStack exist).note consumer (.rulePushed callee)).enter consumer
        ⟨rule, rule_eq, inside⟩
  | consume matcher target =>
      have moved := placed.moveTo consumer stack_eq exist
      simp only [ByteEngine.takeStep?, Engine.takeStep, moved.check_eq, Option.bind_eq_bind,
        Option.bind_some]
      rw [status_inBytes]
      split
      next => exact ⟨congrArg some (inBytes_commit moved.placed.capture).symm, moved.placed.commit⟩
      next => exact ⟨rfl, moved.placed⟩

/-- Every walk from the rules being run is taken, as far as the parse goes on. -/
theorem takePath (consumer : Consumer) {path : Path} {final : List Frame}
    (walk : Walk grammar.toGraph engine.stack path final) :
    (engine.takePath grammar consumer path).IsReached grammar.toGraph
      (engine.inBytes.takePath? grammar consumer path) := by
  induction path generalizing engine with
  | nil => exact ⟨rfl, placed⟩
  | cons step rest ih =>
      rcases Walk.cons_iff.mp walk with ⟨enabled, restWalk⟩
      cases running : engine.status.isRunning with
      | true =>
          have taken := placed.takeStep isSound consumer enabled
          rw [← stack_takeStep (Step.stack_ne_nil_of_isEnabled enabled)] at restWalk
          rw [takePath_cons (status_of_isRunning running), ByteEngine.takePath?_cons running,
            taken.check_eq, Option.bind_some]
          exact ih taken.placed restWalk
      | false =>
          rw [takePath_of_ended running, ByteEngine.takePath?_of_ended running]
          exact ⟨rfl, placed⟩

end Steps

end IsPlaced

/-- How the parse stands after one decision, with captured text in bytes. -/
def Progress.inBytes : Progress → ByteEngine.Progress
  | .settled engine => .settled engine.inBytes
  | .ongoing engine => .ongoing engine.inBytes

theorem inBytes_progress (engine : Engine) : engine.progress.inBytes = engine.inBytes.progress := by
  rw [progress, ByteEngine.progress, status_inBytes]
  split <;> rfl

namespace IsPlaced

section Advancing

variable {limits : ResolutionLimits} (isSound : grammar.IsSound limits)
  (placed : engine.IsPlaced grammar.toGraph)

include isSound placed

/-- A decision is taken and carried out without a lookup of anything that is not there. -/
theorem advance (consumer : Consumer) : engine.inBytes.advance? grammar consumer =
    some (engine.advance grammar consumer).inBytes ∧
      (engine.advance grammar consumer).reached.IsPlaced grammar.toGraph := by
  rw [ByteEngine.advance?, Engine.advance, lookahead_inBytes, stack_inBytes]
  cases front_eq : engine.lookahead.front? with
  | none => exact ⟨rfl, placed⟩
  | some symbol =>
      cases stack_eq : engine.stack with
      | nil =>
          have finished := placed.finish consumer symbol
          dsimp only
          rw [← finished.1]
          exact ⟨rfl, finished.2⟩
      | cons top below =>
          have top_mem : top ∈ engine.stack := by
            rw [stack_eq]
            exact List.mem_cons_self
          have exist : grammar.HasNode top := placed.stack top top_mem
          dsimp only
          rw [bind_of_eq_some (isSound.tabled top exist)]
          cases routes_eq : grammar.routes? top with
          | none =>
              have left := placed.leave consumer
              dsimp only
              rw [left.check_eq, inBytes_progress, reached_progress]
              exact ⟨rfl, left.placed⟩
          | some routes =>
              rcases isSound.resolved.exists_settles routes_eq with ⟨ways, division, settles⟩
              have hasRoutes := settles.hasRoutes isSound.sound
              dsimp only
              rw [bind_of_eq_some (hasRoutes.decide?_eq engine.lookahead)]
              cases decided : grammar.decide engine.lookahead routes with
              | needMore => exact ⟨rfl, placed⟩
              | reject => exact ⟨rfl, placed.start, placed.stack, placed.capture⟩
              | take path =>
                  have path_mem := hasRoutes.mem_of_decide decided
                  rcases settles.exists_walk path_mem below with ⟨final, walk⟩
                  rw [← stack_eq] at walk
                  have taken := placed.takePath isSound consumer walk
                  dsimp only
                  rw [taken.check_eq, inBytes_progress, reached_progress]
                  exact ⟨rfl, taken.placed⟩

end Advancing

section Running

variable {limits : ResolutionLimits}

/-- Settling keeps the engine placed, decision by decision. -/
theorem settleWithin (isSound : grammar.IsSound limits) {engine : Engine}
    (placed : engine.IsPlaced grammar.toGraph) (consumer : Consumer) (symbols rules : Nat) :
    (engine.settleWithin grammar consumer symbols rules).IsReached grammar.toGraph
      (engine.inBytes.settleWithin? grammar consumer symbols rules) := by
  rcases placed.advance isSound consumer with ⟨advance_eq, advanced⟩
  rw [Engine.settleWithin, ByteEngine.settleWithin?, advance_eq]
  cases outcome : engine.advance grammar consumer with
  | settled next =>
      rw [outcome] at advanced
      exact ⟨rfl, advanced⟩
  | ongoing next =>
      rw [outcome] at advanced
      simp only [Progress.inBytes]
      rw [lookahead_inBytes, stack_inBytes]
      split
      next =>
        exact settleWithin isSound advanced consumer next.lookahead.length next.stack.length
      next => exact ⟨rfl, advanced⟩
termination_by (symbols, rules)
decreasing_by
  rename_i closer
  rcases closer with fewer | ⟨same, fewer⟩
  · exact Prod.Lex.left _ _ fewer
  · exact Prod.Lex.right' _ (Nat.le_of_eq same) fewer

variable (isSound : grammar.IsSound limits) (placed : engine.IsPlaced grammar.toGraph)

include isSound placed

theorem feed (consumer : Consumer) (symbol : Symbol) :
    (engine.feed grammar consumer symbol).IsReached grammar.toGraph
      (engine.inBytes.feed? grammar consumer symbol) := by
  have pushed : { engine with lookahead := engine.lookahead.push symbol }.IsPlaced
      grammar.toGraph := ⟨placed.start, placed.stack, placed.capture⟩
  have pushed_eq : engine.inBytes.push symbol =
      { engine with lookahead := engine.lookahead.push symbol }.inBytes := rfl
  have entered := pushed.enterStart consumer
  rw [ByteEngine.feed?, Engine.feed, pushed_eq, bind_of_eq_some entered.check_eq, status_inBytes]
  split
  next => exact entered.placed.settleWithin isSound consumer _ _
  next => exact ⟨rfl, entered.placed⟩

end Running

/-- Every code point that is read from the units is taken in without a lookup of anything that is
not there. -/
theorem takeUnits {limits : ResolutionLimits} (isSound : grammar.IsSound limits) {engine : Engine}
    (placed : engine.IsPlaced grammar.toGraph) (consumer : Consumer) {Unit : Type}
    (encoding : Encoding Unit) (units : List Unit) (taken : Nat) :
    engine.inBytes.takeUnits? grammar consumer encoding units taken =
      some ((engine.takeUnits grammar consumer encoding units taken).1,
        (engine.takeUnits grammar consumer encoding units taken).2.inBytes) ∧
      (engine.takeUnits grammar consumer encoding units taken).2.IsPlaced grammar.toGraph := by
  rw [ByteEngine.takeUnits?]
  split
  next decoded =>
    rw [takeUnits_of_incomplete decoded]
    exact ⟨rfl, placed⟩
  next malformation decoded =>
    rw [takeUnits_of_malformed decoded]
    exact ⟨rfl, placed.start, placed.stack, placed.capture⟩
  next character size decoded =>
    have shorter := encoding.length_drop_lt decoded
    have fed := placed.feed isSound consumer (.char character)
    rw [takeUnits_of_char decoded, fed.check_eq]
    generalize engine.feed grammar consumer (.char character) = after at fed
    dsimp only
    rw [status_inBytes, cancelled_inBytes]
    cases after.status.isRunning with
    | false => exact ⟨rfl, fed.placed⟩
    | true =>
        cases after.cancelled with
        | true => exact ⟨rfl, fed.placed.note consumer (.cancelled (taken + size))⟩
        | false => exact fed.placed.takeUnits isSound consumer encoding (units.drop size) _
termination_by units.length
decreasing_by exact shorter

end IsPlaced

section Operations

variable {limits : ResolutionLimits} (isSound : grammar.IsSound limits)

include isSound

theorem IsPlaced.afterCall (placed : engine.IsPlaced grammar.toGraph) (call : Call) :
    (engine.afterCall grammar call).IsReached grammar.toGraph
      (engine.inBytes.afterCall? grammar call) := by
  cases call with
  | consume consumer encoding units =>
      have uncancelled : { engine with cancelled := false }.IsPlaced grammar.toGraph :=
        ⟨placed.start, placed.stack, placed.capture⟩
      have uncancel_eq : engine.inBytes.uncancel = { engine with cancelled := false }.inBytes := rfl
      have taken := uncancelled.takeUnits isSound consumer encoding units 0
      simp only [ByteEngine.afterCall?, Engine.afterCall, Engine.consume]
      rw [status_inBytes]
      split
      next =>
        refine ⟨?_, taken.2⟩
        rw [uncancel_eq, taken.1]
        rfl
      next => exact ⟨rfl, placed⟩
  | endInput consumer =>
      simp only [ByteEngine.afterCall?, Engine.afterCall, Engine.endInput]
      rw [status_inBytes]
      split
      next => exact placed.feed isSound consumer .endOfInput
      next => exact ⟨rfl, placed⟩

theorem isPlaced_resetTo {start : RuleId} (known : start < grammar.rules.size) (engine : Engine) :
    (engine.resetTo start).IsPlaced grammar.toGraph :=
  ⟨known, List.forall_mem_singleton.mpr (isSound.sound.hasNode_entry known),
    CaptureBuffer.startsInside_empty⟩

theorem isReached_resetTo {start : RuleId} (known : start < grammar.rules.size)
    (engine : Engine) : (engine.resetTo start).IsReached grammar.toGraph
      (engine.inBytes.resetTo? grammar start) := by
  refine ⟨?_, isPlaced_resetTo isSound known engine⟩
  rw [ByteEngine.resetTo?, Array.getElem?_eq_getElem known]
  rfl

theorem IsPlaced.afterOperation (placed : engine.IsPlaced grammar.toGraph) {operation : Operation}
    (known : ∀ start, operation = .resetTo start → start < grammar.rules.size) :
    (engine.afterOperation grammar operation).IsReached grammar.toGraph
      (engine.inBytes.afterOperation? grammar operation) := by
  cases operation with
  | calls call => exact placed.afterCall isSound call
  | cancel => exact ⟨rfl, placed.start, placed.stack, placed.capture⟩
  | reset => exact isReached_resetTo isSound placed.start engine
  | resetTo start => exact isReached_resetTo isSound (known start rfl) engine

theorem IsPlaced.afterOperations {operations : List Operation}
    (known : ∀ operation ∈ operations, ∀ start, operation = .resetTo start →
      start < grammar.rules.size) (placed : engine.IsPlaced grammar.toGraph) :
    (engine.afterOperations grammar operations).IsReached grammar.toGraph
      (operations.foldlM (ByteEngine.afterOperation? grammar) engine.inBytes) := by
  induction operations generalizing engine with
  | nil => exact ⟨rfl, placed⟩
  | cons operation rest ih =>
      rcases List.forall_mem_cons.mp known with ⟨operation_known, rest_known⟩
      have reached := placed.afterOperation isSound operation_known
      rw [Engine.afterOperations, List.foldl_cons, List.foldlM_cons,
        bind_of_eq_some reached.check_eq]
      exact ih rest_known reached.placed

/-- Whatever is done with an engine, at whichever rules it begins, it looks up only what is there,
and slices captured text only at boundaries of code points inside it. -/
theorem run?_eq {start : RuleId} (start_lt : start < grammar.rules.size)
    {operations : List Operation}
    (known : ∀ operation ∈ operations, ∀ start, operation = .resetTo start →
      start < grammar.rules.size) :
    ByteEngine.run? grammar start operations =
      some ((ofRule start).afterOperations grammar operations).inBytes := by
  have begun := isPlaced_resetTo isSound start_lt (ofRule start)
  have reached := begun.afterOperations isSound known
  rw [ByteEngine.run?, Array.getElem?_eq_getElem start_lt]
  exact reached.check_eq

end Operations

end Engine

end StreamGrammar
