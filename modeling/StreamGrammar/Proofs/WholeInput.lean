import Mathlib.Logic.Relation
import StreamGrammar.Proofs.EncodingAgreement
import StreamGrammar.Proofs.StrictLanguage
import StreamGrammar.Proofs.Streaming

/-!
# Parses of a whole input

A parse goes as if its whole input waited from the beginning. Then what is decided at a
node is a matter of the text that is left: the first alternative that fits it is taken,
and if none does the rule is left. A `Point` of such a parse holds what the rest of it
depends on, and a decision that is carried out moves from one point to another. So what
a grammar does with the texts of some form can be found by moving along them, without
looking at the engine: a parse that reaches the end of its text with all rules left
succeeds, and one that reaches a point where nothing fits fails there.
-/

namespace StreamGrammar

/-- What can be decided at a node, in the order in which it is tried while the rest of the input
waits as a whole. -/
structure Choices where
  /-- The matchers that the text has to fit, and the path that is then taken. -/
  alternatives : List (List MatcherId × Path)
  /-- The path that is taken if no alternative fits. -/
  exit : Option Path
deriving DecidableEq, Repr

namespace Graph

variable {graph : Graph}

instance (graph : Graph) (lookahead : List MatcherId) (text : List Char) :
    Decidable (graph.Fits lookahead text) :=
  decidable_of_iff
    (Route.selects graph (Lookahead.holding text true).symbolAt ⟨0, lookahead, false, 0⟩ = true)
    Route.selects_holding_iff

end Graph

theorem Graph.fits_singleton {graph : Graph} {matcher : MatcherId} {text : List Char} :
    graph.Fits [matcher] text ↔
      ∃ character ∈ text.head?, graph.accepts matcher (.char character) = true := by
  cases text with
  | nil => simp
  | cons character rest => simp

theorem Route.selects_eq_fits (graph : Graph) (text : List Char) (ended : Bool) (route : Route) :
    route.selects graph (Lookahead.holding text ended).symbolAt =
      decide (graph.Fits route.lookahead text) := by
  rw [Bool.eq_iff_iff, Route.selects_holding_iff, decide_eq_true_iff]

/-- What is decided with a text waiting. -/
def Choices.path? (choices : Choices) (graph : Graph) (text : List Char) : Option Path :=
  ((choices.alternatives.find? fun alternative => graph.Fits alternative.1 text).map
    Prod.snd).or choices.exit

namespace Choices

variable (exit : Option Path) (graph : Graph) (text : List Char)

@[simp]
theorem path?_nil : path? ⟨[], exit⟩ graph text = exit := rfl

@[simp]
theorem path?_cons (lookahead : List MatcherId) (path : Path)
    (more : List (List MatcherId × Path)) :
    path? ⟨(lookahead, path) :: more, exit⟩ graph text =
      if graph.Fits lookahead text then some path else path? ⟨more, exit⟩ graph text := by
  by_cases fits : graph.Fits lookahead text <;> simp [path?, fits]

end Choices

/-- All routes in the order in which they are tested when no level has to wait. -/
def Routes.inOrder (routes : Routes) : List Route :=
  routes.levels.flatMap routes.atLevel ++ routes.indeterminate.toList

def Routes.choices (routes : Routes) : Choices where
  alternatives := routes.inOrder.map fun route => (route.lookahead, routes.path route)
  exit := routes.exit

/-- What can be decided at a node. Where nothing is, the rule ends. -/
def Grammar.choices (grammar : Grammar) (frame : Frame) : Choices :=
  match grammar.routes? frame with
  | some routes => routes.choices
  | none => ⟨[], some [.leave]⟩

namespace Graph

variable {graph : Graph} {routes : Routes} {text : List Char}

theorem path?_choices (graph : Graph) (routes : Routes) (text : List Char) :
    routes.choices.path? graph text =
      ((routes.inOrder.find? fun route => graph.Fits route.lookahead text).map routes.path).or
        routes.exit := by
  simp only [Choices.path?, Routes.choices, List.find?_map, Option.map_map]
  rfl

theorem mem_all_of_mem_inOrder {route : Route} (route_mem : route ∈ routes.inOrder) :
    route ∈ routes.all := by
  rcases List.mem_append.mp route_mem with leveled_mem | indeterminate_mem
  · rcases List.mem_flatMap.mp leveled_mem with ⟨depth, _, level_mem⟩
    exact List.mem_append_left _ (mem_atLevel.mp level_mem).1
  · exact List.mem_append_right _ indeterminate_mem

theorem decideLast_whole (graph : Graph) (routes : Routes) (text : List Char) :
    graph.decideLast (.holding text true) routes =
      (((routes.indeterminate.toList.find? fun route => graph.Fits route.lookahead text).map
        routes.path).or routes.exit).elim .reject .take := by
  simp only [decideLast, Route.selects_eq_fits]
  cases routes.indeterminate with
  | none => cases routes.exit <;> rfl
  | some route =>
      by_cases fits : graph.Fits route.lookahead text
      · simp [Option.filter, fits]
      · cases routes.exit <;> simp [Option.filter, fits]

/-- When the whole input waits, no level has to wait for more of it. -/
theorem decideLevels_whole (graph : Graph) (routes : Routes) (text : List Char)
    (levels : List Nat) :
    graph.decideLevels (.holding text true) routes levels =
      ((((levels.flatMap routes.atLevel ++ routes.indeterminate.toList).find? fun route =>
        graph.Fits route.lookahead text).map routes.path).or routes.exit).elim .reject .take := by
  induction levels with
  | nil => exact graph.decideLast_whole routes text
  | cons depth deeper ih =>
      simp only [decideLevels, Lookahead.satisfies_holding_true, if_true, Route.selects_eq_fits, ih,
        List.flatMap_cons, List.append_assoc]
      have searched (more : List Route) :
          ((routes.atLevel depth ++ more).find? fun route => graph.Fits route.lookahead text) =
            ((routes.atLevel depth).find? fun route => graph.Fits route.lookahead text).or
              (more.find? fun route => graph.Fits route.lookahead text) := List.find?_append
      rw [searched]
      cases (routes.atLevel depth).find? fun route => graph.Fits route.lookahead text with
      | none => rfl
      | some route => rfl

/-- With the whole input waiting, the first alternative that fits is taken, else the exit. -/
theorem Settles.decide_whole {limits : ResolutionLimits} {frame : Frame} {ways : List Way}
    {division : Division} (settles : graph.Settles limits frame ways division routes)
    (text : List Char) :
    graph.decide (.holding text true) routes =
      (routes.choices.path? graph text).elim .reject .take := by
  rw [path?_choices]
  cases text with
  | cons first rest => exact graph.decideLevels_whole routes (first :: rest) routes.levels
  | nil =>
      -- At the end of the input the exit comes first, but no alternative fits there anyway.
      have unfit : routes.inOrder.find? (fun route => graph.Fits route.lookahead []) = none := by
        apply List.find?_eq_none.mpr
        intro route route_mem fits
        rcases settles.route_begins (mem_all_of_mem_inOrder route_mem) with
          ⟨_, matcher, rest, _, _, lookahead_eq⟩
        rw [lookahead_eq, decide_eq_true_iff] at fits
        exact not_fits_cons_nil matcher rest fits
      cases exit_eq : routes.exit with
      | some exit =>
          simp only [decide, Lookahead.front?_holding_end, exit_eq, unfit]
          rfl
      | none =>
          simp only [decide, Lookahead.front?_holding_end, exit_eq]
          rw [decideLevels_whole, ← Routes.inOrder, exit_eq]

end Graph

namespace CaptureBuffer

/-- The buffer while a capture is open that holds the given text, or none is. -/
def ofOpen? : Option (List Char) → CaptureBuffer
  | none => .empty
  | some text => ⟨text.toArray, [0]⟩

theorem begin_ofOpen? : (ofOpen? none).begin = ofOpen? (some []) := rfl

theorem push_ofOpen? (captured : Option (List Char)) (character : Char) :
    (ofOpen? captured).push character = ofOpen? (captured.map (· ++ [character])) := by
  cases captured with
  | none => rfl
  | some text => simp [ofOpen?, push, isCapturing]

theorem finish?_ofOpen? (text : List Char) :
    (ofOpen? (some text)).finish? 0 0 = some (String.ofList text, ofOpen? none) := by
  simp [ofOpen?, finish?, trim, empty]

end CaptureBuffer

/-- A point of a parse whose input waits as a whole. At most one capture is open. -/
structure Point where
  /-- The rules being run, the innermost first. -/
  stack : List Frame
  /-- What is left of the input. -/
  text : List Char
  /-- The text of the open capture, if there is one. -/
  captured : Option (List Char) := none
  /-- What the consumer was told, besides where captures begin. -/
  told : List Callback := []

namespace Point

/-- Performs an action. A capture inside another one is not followed, and neither are trims. -/
def perform (point : Point) : Action → Option Point
  | .none => some point
  | .beginCapture =>
      match point.captured with
      | none => some { point with captured := some [] }
      | some _ => none
  | .publish name trimStart trimEnd =>
      match point.captured, trimStart, trimEnd with
      | some text, 0, 0 =>
          some { point with
            captured := none
            told := point.told ++ [.publish name (String.ofList text)] }
      | _, _, _ => none
  | .event name => some { point with told := point.told ++ [.event name] }

/-- Enters the node that the innermost rule is at. -/
def enter (graph : Graph) (point : Point) : Option Point :=
  match point.stack with
  | [] => some point
  | top :: _ => point.perform (graph.action top)

def consume (point : Point) : Option Point :=
  match point.text with
  | [] => none
  | character :: rest =>
      some { point with text := rest, captured := point.captured.map (· ++ [character]) }

def takeStep (graph : Graph) (point : Point) (step : Step) : Option Point :=
  let entered? := enter graph { point with stack := step.apply point.stack }
  match step with
  | .consume .. => entered?.bind consume
  | _ => entered?

def takePath (graph : Graph) (point : Point) : Path → Option Point
  | [] => some point
  | step :: rest => (point.takeStep graph step).bind fun next => next.takePath graph rest

/-- No failure has been told. -/
def IsUnfailed (point : Point) : Prop :=
  ∀ message, .fatalError message ∉ point.told

section Unfailed

variable {point next : Point}

theorem IsUnfailed.perform (unfailed : point.IsUnfailed) {action : Action}
    (performed : point.perform action = some next) : next.IsUnfailed := by
  intro message
  have untold := unfailed message
  cases action with
  | none =>
      obtain rfl := Option.some.inj performed
      exact untold
  | beginCapture =>
      simp only [Point.perform] at performed
      split at performed
      next =>
        obtain rfl := Option.some.inj performed
        exact untold
      next => cases performed
  | publish name trimStart trimEnd =>
      simp only [Point.perform] at performed
      split at performed
      next =>
        obtain rfl := Option.some.inj performed
        simpa using untold
      next => cases performed
  | event name =>
      obtain rfl := Option.some.inj performed
      simpa using untold

theorem IsUnfailed.enter {graph : Graph} (unfailed : point.IsUnfailed)
    (entered : point.enter graph = some next) : next.IsUnfailed := by
  simp only [Point.enter] at entered
  split at entered
  next =>
    obtain rfl := Option.some.inj entered
    exact unfailed
  next => exact unfailed.perform entered

theorem IsUnfailed.consume (unfailed : point.IsUnfailed) (consumed : point.consume = some next) :
    next.IsUnfailed := by
  simp only [Point.consume] at consumed
  split at consumed
  next => cases consumed
  next =>
    obtain rfl := Option.some.inj consumed
    exact unfailed

theorem IsUnfailed.takeStep {graph : Graph} (unfailed : point.IsUnfailed) {step : Step}
    (taken : point.takeStep graph step = some next) : next.IsUnfailed := by
  have moved : IsUnfailed { point with stack := step.apply point.stack } := unfailed
  cases step with
  | call | goto | leave => exact moved.enter taken
  | consume matcher target =>
      rcases Option.bind_eq_some_iff.mp taken with ⟨entered, entered_eq, consumed⟩
      exact (moved.enter entered_eq).consume consumed

theorem IsUnfailed.takePath {graph : Graph} (unfailed : point.IsUnfailed) {path : Path}
    (taken : point.takePath graph path = some next) : next.IsUnfailed := by
  induction path generalizing point with
  | nil =>
      obtain rfl := Option.some.inj taken
      exact unfailed
  | cons step rest ih =>
      rcases Option.bind_eq_some_iff.mp taken with ⟨middle, stepTaken, restTaken⟩
      exact ih (unfailed.takeStep stepTaken) restTaken

end Unfailed

/-- Where a parse of a text begins. -/
def atStart (grammar : Grammar) (text : List Char) : Point where
  stack := [⟨grammar.start, Rule.entry⟩]
  text

theorem isUnfailed_atStart (grammar : Grammar) (text : List Char) :
    (atStart grammar text).IsUnfailed := by
  simp [IsUnfailed, atStart]

end Point

/-- The decision that is taken at one point leads to another. -/
inductive Grammar.Moves (grammar : Grammar) (point next : Point) : Prop
  | intro {top : Frame} {below : List Frame} {path : Path} (stack_eq : point.stack = top :: below)
      (decided : (grammar.choices top).path? grammar.toGraph point.text = some path)
      (taken : point.takePath grammar.toGraph path = some next) : Moves grammar point next

/-- Decisions lead from one point to another. -/
abbrev Grammar.Reaches (grammar : Grammar) : Point → Point → Prop :=
  Relation.ReflTransGen grammar.Moves

/-- A node that consumes code points of some kind and stays where it is reads any run of them. -/
theorem Grammar.reaches_of_loop {grammar : Grammar} {frame : Frame} {below : List Frame}
    {told : List Callback} {kind : Char → Prop}
    (loops : ∀ character rest captured, kind character →
      grammar.Moves ⟨frame :: below, character :: rest, captured, told⟩
        ⟨frame :: below, rest, captured.map (· ++ [character]), told⟩)
    {run : List Char} (kinds : ∀ character ∈ run, kind character) (rest : List Char)
    (captured : Option (List Char)) :
    grammar.Reaches ⟨frame :: below, run ++ rest, captured, told⟩
      ⟨frame :: below, rest, captured.map (· ++ run), told⟩ := by
  induction run generalizing captured with
  | nil =>
      have same : captured.map (· ++ []) = captured := by cases captured <;> simp
      rw [same]
      exact .refl
  | cons character run ih =>
      rw [List.forall_mem_cons] at kinds
      have further := ih kinds.2 (captured.map (· ++ [character]))
      have whole : (captured.map (· ++ [character])).map (· ++ run) =
          captured.map (· ++ character :: run) := by cases captured <;> simp
      rw [whole] at further
      exact .head (loops character (run ++ rest) captured kinds.1) further

/-- The capture of a run begins with its first code point, and the others are read in a loop. -/
theorem Grammar.reaches_of_run {grammar : Grammar} {stack : List Frame} {frame : Frame}
    {below : List Frame} {told : List Callback} {kind : Char → Prop}
    (begins : ∀ character rest, kind character →
      grammar.Moves ⟨stack, character :: rest, none, told⟩
        ⟨frame :: below, rest, some [character], told⟩)
    (loops : ∀ character rest captured, kind character →
      grammar.Moves ⟨frame :: below, character :: rest, captured, told⟩
        ⟨frame :: below, rest, captured.map (· ++ [character]), told⟩)
    {run : List Char} (kinds : ∀ character ∈ run, kind character) (nonempty : run ≠ [])
    (rest : List Char) :
    grammar.Reaches ⟨stack, run ++ rest, none, told⟩ ⟨frame :: below, rest, some run, told⟩ := by
  rcases List.exists_cons_of_ne_nil nonempty with ⟨first, further, rfl⟩
  rw [List.forall_mem_cons] at kinds
  have reads := reaches_of_loop loops kinds.2 rest (some [first])
  exact reads.head (begins first (further ++ rest) kinds.1)

theorem Point.IsUnfailed.reaches {grammar : Grammar} {point next : Point}
    (unfailed : point.IsUnfailed) (reaches : grammar.Reaches point next) : next.IsUnfailed := by
  induction reaches with
  | refl => exact unfailed
  | tail _ moves ih =>
      rcases moves with ⟨_, _, taken⟩
      exact ih.takePath taken

/-- What is left of the input is none of what could come: nothing fits it, or all rules have been
left. -/
inductive Grammar.Refuses (grammar : Grammar) (point : Point) : Prop
  | unfit {top : Frame} {below : List Frame} (stack_eq : point.stack = top :: below)
      (decided : (grammar.choices top).path? grammar.toGraph point.text = none) :
      Refuses grammar point
  | beyond (left : point.stack = []) (more : point.text ≠ []) : Refuses grammar point

namespace Engine

/-- What the consumer was told, besides where captures begin. -/
def told (engine : Engine) : List Callback :=
  engine.callbacks.filter (· ≠ .captureStart)

/-- The engine is at a point of a parse of the input. -/
structure IsAt (engine : Engine) (input : List Char) (point : Point) : Prop where
  running : engine.status = .running
  entered : engine.entered = true
  stack : engine.stack = point.stack
  lookahead : engine.lookahead = .holding point.text true
  capture : engine.capture = .ofOpen? point.captured
  told : engine.told = point.told
  location : ∃ read, input = read ++ point.text ∧
    engine.location = Location.start.advanceAll read

variable {grammar : Grammar} {consumer : Consumer} {limits : ResolutionLimits} {engine : Engine}
  {input : List Char} {point next : Point}

theorem told_note (engine : Engine) (consumer : Consumer) (occurrence : Occurrence) :
    (engine.note consumer occurrence).told =
      engine.told ++ occurrence.callback?.toList.filter (· ≠ .captureStart) := by
  rw [told, callbacks_note, List.filter_append]
  rfl

namespace IsAt

theorem note (isAt : engine.IsAt input point) (consumer : Consumer) (occurrence : Occurrence)
    (untold : occurrence.callback? = none) :
    (engine.note consumer occurrence).IsAt input point :=
  { isAt with told := by simp [told_note, untold, isAt.told] }

theorem withStack (isAt : engine.IsAt input point) (stack : List Frame) :
    { engine with stack }.IsAt input { point with stack } :=
  { isAt with stack := rfl }

theorem perform (isAt : engine.IsAt input point) (consumer : Consumer) {action : Action}
    (performed : point.perform action = some next) :
    (engine.perform consumer action).IsAt input next := by
  cases action with
  | none =>
      obtain rfl := Option.some.inj performed
      exact isAt
  | event name =>
      obtain rfl := Option.some.inj performed
      exact { isAt with
        told := by simp [Engine.perform, told_note, isAt.told, Occurrence.callback?] }
  | beginCapture =>
      simp only [Point.perform] at performed
      split at performed
      next unopened =>
        obtain rfl := Option.some.inj performed
        have capture_eq : engine.capture.begin = .ofOpen? (some []) := by
          rw [isAt.capture, unopened, CaptureBuffer.begin_ofOpen?]
        have begun : { engine with capture := engine.capture.begin }.IsAt input
            { point with captured := some [] } := { isAt with capture := capture_eq }
        exact { begun with
          told := by simp [Engine.perform, told_note, begun.told, Occurrence.callback?] }
      next => cases performed
  | publish name trimStart trimEnd =>
      simp only [Point.perform] at performed
      split at performed
      next text captured_eq =>
        obtain rfl := Option.some.inj performed
        have capture_eq := isAt.capture
        rw [captured_eq] at capture_eq
        have finished : { engine with capture := .ofOpen? none }.IsAt input
            { point with captured := none } := { isAt with capture := rfl }
        simp only [Engine.perform, capture_eq, CaptureBuffer.finish?_ofOpen?]
        exact { finished with told := by simp [told_note, finished.told, Occurrence.callback?] }
      next => cases performed

theorem enter (isAt : engine.IsAt input point) (consumer : Consumer) {top : Frame}
    {below : List Frame} (stack_eq : point.stack = top :: below)
    (entered : point.enter grammar.toGraph = some next) :
    (engine.enter grammar consumer top).IsAt input next := by
  simp only [Point.enter, stack_eq] at entered
  exact (isAt.note consumer _ rfl).perform consumer entered

theorem commit (isAt : engine.IsAt input point) (consumed : point.consume = some next) :
    engine.commit.IsAt input next := by
  simp only [Point.consume] at consumed
  split at consumed
  next => cases consumed
  next character rest text_eq =>
    obtain rfl := Option.some.inj consumed
    have waiting : engine.lookahead.symbols =
        .char character :: (Lookahead.holding rest true).symbols := by
      rw [isAt.lookahead, text_eq]
      rfl
    rcases isAt.location with ⟨read, input_eq, location_eq⟩
    rw [commit_char waiting]
    refine { isAt with lookahead := rfl, capture := ?_, location := ⟨read ++ [character], ?_, ?_⟩ }
    · simp [isAt.capture, CaptureBuffer.push_ofOpen?]
    · simp [input_eq, text_eq]
    · simp [location_eq, Location.advanceAll_append]

theorem moveTo (isAt : engine.IsAt input point) (consumer : Consumer) (step : Step) {node : NodeId}
    (apply_eq : ∀ top below, step.apply (top :: below) = { top with node } :: below)
    (keeps : step.apply [] = [])
    (entered : Point.enter grammar.toGraph { point with stack := step.apply point.stack } =
      some next) :
    (engine.moveTo grammar consumer node).IsAt input next := by
  have moved := isAt.withStack (step.apply point.stack)
  cases stack_eq : point.stack with
  | nil =>
      rw [stack_eq, keeps] at entered
      obtain rfl := Option.some.inj entered
      simp only [Engine.moveTo, isAt.stack, stack_eq]
      exact { isAt with stack := isAt.stack.trans stack_eq }
  | cons top below =>
      rw [stack_eq, apply_eq] at entered moved
      simp only [Engine.moveTo, isAt.stack, stack_eq]
      exact moved.enter consumer rfl entered

/-- A step of a path takes the engine from one point to the next. -/
theorem takeStep (isAt : engine.IsAt input point) (consumer : Consumer) {step : Step}
    (taken : point.takeStep grammar.toGraph step = some next) :
    (engine.takeStep grammar consumer step).IsAt input next := by
  have moved := isAt.withStack (step.apply point.stack)
  cases step with
  | goto node => exact isAt.moveTo consumer (.goto node) (fun _ _ => rfl) rfl taken
  | consume matcher target =>
      rcases Option.bind_eq_some_iff.mp taken with ⟨entered, entered_eq, consumed⟩
      have arrived : (engine.moveTo grammar consumer target).IsAt input entered :=
        isAt.moveTo consumer (.consume matcher target) (fun _ _ => rfl) rfl entered_eq
      simp only [Engine.takeStep, arrived.running, Status.isRunning, if_true]
      exact arrived.commit consumed
  | call rule resume =>
      have pushed := moved.note consumer (.rulePushed rule) rfl
      simp only [Engine.takeStep, Engine.call, isAt.stack]
      simp only [Point.takeStep] at taken
      cases stack_eq : point.stack with
      | nil =>
          rw [stack_eq] at pushed taken
          exact pushed.enter consumer rfl taken
      | cons top below =>
          rw [stack_eq] at pushed taken
          exact pushed.enter consumer rfl taken
  | leave =>
      simp only [Engine.takeStep, Engine.leave, isAt.stack]
      simp only [Point.takeStep] at taken
      cases stack_eq : point.stack with
      | nil =>
          rw [stack_eq] at taken
          obtain rfl := Option.some.inj taken
          exact { isAt with stack := isAt.stack.trans stack_eq }
      | cons top below =>
          have popped := moved.note consumer (.rulePopped top.rule) rfl
          rw [stack_eq] at popped taken
          cases below with
          | nil =>
              obtain rfl := Option.some.inj taken
              exact popped
          | cons caller rest => exact popped.enter consumer rfl taken

theorem takePath (isAt : engine.IsAt input point) (consumer : Consumer) {path : Path}
    (taken : point.takePath grammar.toGraph path = some next) :
    (engine.takePath grammar consumer path).IsAt input next := by
  induction path generalizing engine point with
  | nil =>
      obtain rfl := Option.some.inj taken
      exact isAt
  | cons step rest ih =>
      rcases Option.bind_eq_some_iff.mp taken with ⟨middle, stepTaken, restTaken⟩
      rw [takePath_cons isAt.running]
      exact ih (isAt.takeStep consumer stepTaken) restTaken

theorem awaits (isAt : engine.IsAt input point) : engine.Awaits true :=
  ⟨isAt.running, isAt.entered, point.text, isAt.lookahead⟩

theorem exists_front (isAt : engine.IsAt input point) :
    ∃ symbol, engine.lookahead.front? = some symbol := by
  rw [isAt.lookahead]
  cases point.text with
  | nil => exact ⟨_, rfl⟩
  | cons character rest => exact ⟨_, rfl⟩

end IsAt

end Engine

/-- What the engine decides with the whole input waiting. -/
theorem Grammar.IsResolved.choices_cases {grammar : Grammar} {limits : ResolutionLimits}
    (resolved : grammar.IsResolved limits) (frame : Frame) :
    (grammar.routes? frame = none ∧ grammar.choices frame = ⟨[], some [.leave]⟩) ∨
      ∃ routes, grammar.routes? frame = some routes ∧ ∀ text,
        grammar.decide (.holding text true) routes =
          ((grammar.choices frame).path? grammar.toGraph text).elim .reject .take := by
  cases routes_eq : grammar.routes? frame with
  | none => exact .inl ⟨rfl, by simp [choices, routes_eq]⟩
  | some routes =>
      rcases resolved.exists_settles routes_eq with ⟨ways, division, settles⟩
      refine .inr ⟨routes, rfl, ?_⟩
      intro text
      simp only [choices, routes_eq]
      exact settles.decide_whole text

namespace Engine.IsAt

variable {grammar : Grammar} {consumer : Consumer} {limits : ResolutionLimits} {engine : Engine}
  {input : List Char} {point next : Point}

/-- A decision takes the engine from one point to the next. -/
theorem advance (isAt : engine.IsAt input point) (resolved : grammar.IsResolved limits)
    (consumer : Consumer) (moves : grammar.Moves point next) :
    ∃ after, engine.advance grammar consumer = .ongoing after ∧ after.IsAt input next := by
  rcases moves with @⟨top, below, path, stack_eq, decided, taken⟩
  rcases isAt.exists_front with ⟨symbol, front_eq⟩
  have arrived := isAt.takePath consumer taken
  have engineStack_eq := isAt.stack.trans stack_eq
  refine ⟨engine.takePath grammar consumer path, ?_, arrived⟩
  have goesOn : (engine.takePath grammar consumer path).progress =
      .ongoing (engine.takePath grammar consumer path) := by
    simp [progress, arrived.running, Status.isRunning]
  rcases resolved.choices_cases top with ⟨routes_eq, choices_eq⟩ | ⟨routes, routes_eq, decide_eq⟩
  · rw [choices_eq] at decided
    obtain rfl := Option.some.inj decided
    rw [advance_of_edgeless consumer isAt.running front_eq engineStack_eq routes_eq, goesOn]
  · have taken_eq : grammar.decide engine.lookahead routes = .take path := by
      rw [isAt.lookahead, decide_eq, decided]
      rfl
    rw [advance_of_take consumer front_eq engineStack_eq routes_eq taken_eq, goesOn]

/-- An engine at one point settles as it does at any point that can be reached from there. -/
theorem settle_of_reaches (isAt : engine.IsAt input point) (resolved : grammar.IsResolved limits)
    (consumer : Consumer) (reaches : grammar.Reaches point next) :
    ∃ after : Engine, after.IsAt input next ∧
      engine.settle grammar consumer = after.settle grammar consumer := by
  induction reaches with
  | refl => exact ⟨engine, isAt, rfl⟩
  | tail _ moves ih =>
      rcases ih with ⟨middle, middleAt, settle_eq⟩
      rcases middleAt.advance resolved consumer moves with ⟨after, advance_eq, afterAt⟩
      have closer := (middleAt.awaits.advance resolved advance_eq).2
      exact ⟨after, afterAt, settle_eq.trans (settle_of_ongoing advance_eq closer)⟩

/-- With nothing left of the input and all rules left, the parse succeeds. -/
theorem settle_succeeds {told : List Callback} (isAt : engine.IsAt input ⟨[], [], none, told⟩)
    (grammar : Grammar) (consumer : Consumer) :
    (engine.settle grammar consumer).status = .succeeded ∧
      (engine.settle grammar consumer).told = told ++ [.success] := by
  have front_eq : engine.lookahead.front? = some .endOfInput := by rw [isAt.lookahead]; rfl
  have closed : engine.capture.isCapturing = false := by rw [isAt.capture]; rfl
  have advance_eq : engine.advance grammar consumer =
      .settled (engine.finish consumer .endOfInput) := by
    simp only [Engine.advance, front_eq, isAt.stack]
  rw [settle_of_settled advance_eq]
  simp only [finish, closed, Bool.false_eq_true, if_false]
  refine ⟨rfl, ?_⟩
  rw [told_note]
  exact congrArg (· ++ _) isAt.told

/-- Where nothing fits what is left of the input, the parse fails. -/
theorem settle_refuses (isAt : engine.IsAt input point) (resolved : grammar.IsResolved limits)
    (consumer : Consumer) (refuses : grammar.Refuses point) :
    ∃ expected, engine.settle grammar consumer = engine.reject consumer expected := by
  rcases isAt.exists_front with ⟨symbol, front_eq⟩
  cases refuses with
  | @unfit top below stack_eq decided =>
      rcases resolved.choices_cases top with ⟨_, choices_eq⟩ | ⟨routes, routes_eq, decide_eq⟩
      · rw [choices_eq] at decided
        cases decided
      · have rejected : grammar.decide engine.lookahead routes = .reject := by
          rw [isAt.lookahead, decide_eq, decided]
          rfl
        have advance_eq := advance_of_reject consumer front_eq (isAt.stack.trans stack_eq)
          routes_eq rejected
        exact ⟨_, settle_of_settled advance_eq⟩
  | beyond left more =>
      rcases List.exists_cons_of_ne_nil more with ⟨character, rest, text_eq⟩
      have waiting : engine.lookahead.front? = some (.char character) := by
        rw [isAt.lookahead, text_eq]
        rfl
      have advance_eq : engine.advance grammar consumer =
          .settled (engine.finish consumer (.char character)) := by
        simp only [Engine.advance, waiting, isAt.stack, left]
      exact ⟨_, settle_of_settled advance_eq⟩

end Engine.IsAt

namespace Engine

variable {grammar : Grammar} {limits : ResolutionLimits} {engine other : Engine}

theorem feedEach_holding (running : engine.status = .running) (text : List Char) :
    engine.feedEach grammar .patient (Lookahead.holding text true).symbols =
      if (engine.feedText grammar text).status.isRunning then
        (engine.feedText grammar text).feed grammar .patient .endOfInput
      else engine.feedText grammar text := by
  induction text generalizing engine with
  | nil =>
      have last_eq : engine.feedEach grammar .patient (Lookahead.holding [] true).symbols =
          engine.feed grammar .patient .endOfInput := feedEach_cons running _ []
      rw [last_eq]
      simp [feedText, running, Status.isRunning]
  | cons character rest ih =>
      have symbols_eq : (Lookahead.holding (character :: rest) true).symbols =
          .char character :: (Lookahead.holding rest true).symbols := rfl
      rw [symbols_eq, feedEach_cons running, feedText_cons]
      cases goesOn : (engine.feed grammar .patient (.char character)).status.isRunning with
      | true =>
          rw [ih (status_of_isRunning goesOn)]
          rfl
      | false =>
          rw [feedEach_of_ended goesOn]
          simp [goesOn]

/-- A parse takes in the code points of the text, and then the end of the input. -/
theorem parse_ofGrammar (grammar : Grammar) (text : List Char) :
    (ofGrammar grammar).parse grammar text =
      (ofGrammar grammar).feedEach grammar .patient (Lookahead.holding text true).symbols := by
  rcases takeUnits_flatMap Encoding.decodes_chars grammar text (ofGrammar grammar) rfl rfl 0 with
    ⟨count, takeUnits_eq, _⟩
  rw [List.flatMap_singleton'] at takeUnits_eq
  have consumed_eq : ((ofGrammar grammar).consume grammar .patient .chars text).2 =
      (ofGrammar grammar).feedText grammar text := congrArg Prod.snd takeUnits_eq
  rw [parse, consumed_eq, endInput_snd, feedEach_holding rfl]

/-- With the whole input waiting, a parse begins where the start rule does, unless something happens
there. -/
theorem isAt_arrive (quiet : grammar.action ⟨grammar.start, Rule.entry⟩ = .none)
    (text : List Char) :
    ((ofGrammar grammar).arrive grammar .patient (Lookahead.holding text true).symbols).IsAt text
      (.atStart grammar text) := by
  have begun : { (ofGrammar grammar).withMore (Lookahead.holding text true).symbols with
      entered := true }.IsAt text (.atStart grammar text) :=
    ⟨rfl, rfl, rfl, rfl, rfl, rfl, [], rfl, rfl⟩
  apply begun.enter .patient rfl
  simp [Point.enter, Point.atStart, quiet, Point.perform]

theorem Concurs.told (concurs : engine.Concurs other) :
    engine.told.map Callback.withoutMessage = other.told.map Callback.withoutMessage := by
  have kept (callback : Callback) :
      callback.withoutMessage ≠ .captureStart ↔ callback ≠ .captureStart := by
    cases callback <;> simp [Callback.withoutMessage]
  have filtered := congrArg (List.filter (· ≠ .captureStart)) concurs.callbacks
  simpa only [Engine.told, List.filter_map, Function.comp_def, kept] using filtered

end Engine

theorem Callback.eq_of_withoutMessage {callback other : Callback}
    (same : callback.withoutMessage = other.withoutMessage)
    (noFailure : ∀ message, other ≠ .fatalError message) : callback = other := by
  have other_eq : other.withoutMessage = other := by
    cases other with
    | fatalError message => exact absurd rfl (noFailure message)
    | captureStart | publish | event | success => rfl
  cases callback with
  | fatalError message => exact absurd (same.trans other_eq).symm (noFailure "")
  | captureStart | publish | event | success => exact same.trans other_eq

/-- Callbacks that are the same but for messages of failures are the same where there are none. -/
theorem Callback.eq_of_map_withoutMessage {callbacks others : List Callback}
    (same : callbacks.map withoutMessage = others.map withoutMessage)
    (unfailed : ∀ message, .fatalError message ∉ others) : callbacks = others := by
  induction others generalizing callbacks with
  | nil => simpa using same
  | cons other rest ih =>
      rcases List.map_eq_cons_iff.mp same with ⟨callback, further, rfl, first_eq, rest_eq⟩
      have restUnfailed : ∀ message, .fatalError message ∉ rest :=
        fun message told => unfailed message (List.mem_cons_of_mem other told)
      have callback_eq : callback = other := by
        apply eq_of_withoutMessage first_eq
        rintro message rfl
        exact unfailed message List.mem_cons_self
      rw [callback_eq, ih rest_eq restUnfailed]

/-- Callbacks that end with a failure are the same up to its message. -/
theorem Callback.exists_of_map_withoutMessage {callbacks others : List Callback} {message : String}
    (same : callbacks.map withoutMessage = (others ++ [fatalError message]).map withoutMessage)
    (unfailed : ∀ message, fatalError message ∉ others) :
    ∃ message, callbacks = others ++ [fatalError message] := by
  rw [List.map_append] at same
  rcases List.map_eq_append_iff.mp same with ⟨front, last, rfl, front_eq, last_eq⟩
  rcases List.map_eq_singleton_iff.mp last_eq with ⟨callback, rfl, callback_eq⟩
  rw [eq_of_map_withoutMessage front_eq unfailed]
  cases callback with
  | fatalError message => exact ⟨message, rfl⟩
  | captureStart | publish | event | success => cases callback_eq

theorem Status.eq_succeeded_of_withoutFound {status : Status}
    (same : status.withoutFound = withoutFound .succeeded) : status = .succeeded := by
  cases status with
  | succeeded => rfl
  | running | failed => cases same

theorem Status.exists_of_withoutFound {status : Status} {found : String} {expected : List String}
    {location : Location}
    (same : status.withoutFound = withoutFound (.failed ⟨.syntaxError found expected, location⟩)) :
    ∃ found, status = .failed ⟨.syntaxError found expected, location⟩ := by
  cases status with
  | running | succeeded => cases same
  | failed failure =>
      rcases failure with ⟨cause, other⟩
      cases cause with
      | syntaxError otherFound otherExpected =>
          cases same
          exact ⟨otherFound, rfl⟩
      | decoding | unterminatedCapture | captureUnderflow => cases same

namespace Grammar

/-- A parse of the text succeeds, and this was told before. -/
def Reads (grammar : Grammar) (text : List Char) (told : List Callback) : Prop :=
  ((Engine.ofGrammar grammar).parse grammar text).status = .succeeded ∧
    ((Engine.ofGrammar grammar).parse grammar text).told = told ++ [.success]

/-- A parse reads the first part of a text and fails with a syntax error where the rest begins, and
this was told before. -/
def FailsAt (grammar : Grammar) (read rest : List Char) (told : List Callback) : Prop :=
  ∃ found expected message,
    ((Engine.ofGrammar grammar).parse grammar (read ++ rest)).status =
      .failed ⟨.syntaxError found expected, Location.start.advanceAll read⟩ ∧
    ((Engine.ofGrammar grammar).parse grammar (read ++ rest)).told =
      told ++ [.fatalError message]

theorem FailsAt.status_ne {grammar : Grammar} {read rest : List Char} {told : List Callback}
    (fails : grammar.FailsAt read rest told) :
    ((Engine.ofGrammar grammar).parse grammar (read ++ rest)).status ≠ .succeeded := by
  rcases fails with ⟨found, expected, message, status_eq, _⟩
  rw [status_eq]
  exact Status.noConfusion

end Grammar

namespace Grammar.IsResolved

open Engine

variable {grammar : Grammar} {limits : ResolutionLimits} {text : List Char} {point : Point}

/-- A parse goes as if its whole input waited. -/
theorem parse_concurs (resolved : grammar.IsResolved limits)
    (quiet : grammar.action ⟨grammar.start, Rule.entry⟩ = .none)
    (reaches : grammar.Reaches (.atStart grammar text) point) :
    ∃ after : Engine, after.IsAt text point ∧
      ((ofGrammar grammar).parse grammar text).Concurs (after.settle grammar .patient) := by
  have arrived := isAt_arrive quiet text
  rcases arrived.settle_of_reaches resolved .patient reaches with ⟨after, afterAt, settle_eq⟩
  refine ⟨after, afterAt, ?_⟩
  have begins : ((ofGrammar grammar).arrive grammar .patient
      (Lookahead.holding text true).symbols).status.isRunning = true := by
    rw [arrived.running]
    rfl
  rw [parse_ofGrammar, ← settle_eq, ← feedTogether_of_running begins]
  have unread : (ofGrammar grammar).lookahead = .holding [] false := rfl
  exact feedEach_concurs resolved .patient rfl unread text

/-- A parse that reaches the end of the text with all rules left succeeds. -/
theorem reads (resolved : grammar.IsResolved limits)
    (quiet : grammar.action ⟨grammar.start, Rule.entry⟩ = .none) {told : List Callback}
    (reaches : grammar.Reaches (.atStart grammar text) ⟨[], [], none, told⟩) :
    grammar.Reads text told := by
  rcases resolved.parse_concurs quiet reaches with ⟨after, afterAt, concurs⟩
  rcases afterAt.settle_succeeds grammar .patient with ⟨status_eq, told_eq⟩
  have unfailed := (Point.isUnfailed_atStart grammar text).reaches reaches
  have sameStatus := concurs.status
  have sameTold := concurs.told
  rw [status_eq] at sameStatus
  rw [told_eq] at sameTold
  refine ⟨Status.eq_succeeded_of_withoutFound sameStatus,
    Callback.eq_of_map_withoutMessage sameTold ?_⟩
  intro message
  simpa using unfailed message

/-- A parse that reaches a point where nothing fits fails there, with a syntax error. -/
theorem failsAt (resolved : grammar.IsResolved limits)
    (quiet : grammar.action ⟨grammar.start, Rule.entry⟩ = .none)
    (reaches : grammar.Reaches (.atStart grammar text) point) (refuses : grammar.Refuses point) :
    ∃ read, text = read ++ point.text ∧ grammar.FailsAt read point.text point.told := by
  rcases resolved.parse_concurs quiet reaches with ⟨after, afterAt, concurs⟩
  rcases afterAt.settle_refuses resolved .patient refuses with ⟨expected, settle_eq⟩
  rcases afterAt.location with ⟨read, text_eq, location_eq⟩
  have unfailed := (Point.isUnfailed_atStart grammar text).reaches reaches
  have sameStatus := concurs.status
  have sameTold := concurs.told
  have rejected_eq : (after.reject .patient expected).told = point.told ++ [.fatalError
      (Failure.message ⟨.syntaxError after.lookahead.text expected, after.location⟩)] := by
    rw [← afterAt.told]
    exact told_note _ _ _
  rw [settle_eq] at sameStatus sameTold
  rw [rejected_eq] at sameTold
  rcases Status.exists_of_withoutFound sameStatus with ⟨found, status_eq⟩
  rcases Callback.exists_of_map_withoutMessage sameTold unfailed with ⟨message, told_eq⟩
  rw [location_eq] at status_eq
  rw [text_eq] at status_eq told_eq
  exact ⟨read, text_eq, found, expected, message, status_eq, told_eq⟩

end Grammar.IsResolved

end StreamGrammar
