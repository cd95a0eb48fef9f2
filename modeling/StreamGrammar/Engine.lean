import StreamGrammar.Engine.Decision
import StreamGrammar.Engine.Journal
import StreamGrammar.Input.Capture

/-!
# The engine

An engine runs a grammar over input that arrives in pieces of any size. It keeps
the rules being run, the symbols that wait to be consumed, and the captured text.
Every symbol that arrives is put behind those that wait; then decisions are taken
and carried out until one of them needs more symbols.

A failure ends the parse at once, even in the middle of a path: whatever would
follow is not carried out.
-/

namespace StreamGrammar

/-- The state of a parse. -/
structure Engine where
  start : RuleId
  /-- The rules being run, the innermost first. -/
  stack : List Frame
  lookahead : Lookahead := .empty
  capture : CaptureBuffer := .empty
  location : Location := .start
  status : Status := .running
  /-- The entry of the start rule has been entered, which happens when the first symbol arrives. -/
  entered : Bool := false
  /-- The engine has been asked to stop. -/
  cancelled : Bool := false
  /-- Everything that happened since the engine was made. -/
  journal : Array Occurrence := #[]
deriving Repr

namespace Engine

/-- An engine at the beginning of a parse with the given start rule. -/
def ofRule (start : RuleId) : Engine where
  start
  stack := [⟨start, Rule.entry⟩]

def ofGrammar (grammar : Grammar) : Engine := ofRule grammar.start

/-- Begins a new parse with another start rule. What waits and what is captured is dropped. -/
def resetTo (engine : Engine) (start : RuleId) : Engine :=
  { ofRule start with cancelled := engine.cancelled, journal := engine.journal }

def reset (engine : Engine) : Engine := engine.resetTo engine.start

def cancel (engine : Engine) : Engine := { engine with cancelled := true }

section Running

variable (grammar : Grammar) (consumer : Consumer)

/-- Notes what happens, and lets the consumer ask for a stop. -/
def note (engine : Engine) (occurrence : Occurrence) : Engine :=
  let asked := match occurrence.callback? with
    | some callback => consumer.cancels engine.journal callback
    | none => false
  { engine with
    cancelled := engine.cancelled || asked
    journal := engine.journal.push occurrence }

/-- Ends the parse with a failure at the current location. -/
def fail (engine : Engine) (cause : FailureCause) : Engine :=
  let failure := ⟨cause, engine.location⟩
  { engine with status := .failed failure }.note consumer (.failed failure)

/-- Ends the parse because of the waiting symbols. -/
def reject (engine : Engine) (expected : List String) : Engine :=
  engine.fail consumer (.syntaxError engine.lookahead.text expected)

def perform (engine : Engine) : Action → Engine
  | .none => engine
  | .beginCapture =>
      { engine with capture := engine.capture.begin }.note consumer .captureStarted
  | .publish name trimStart trimEnd =>
      match engine.capture.finish? trimStart trimEnd with
      | some (text, capture) => { engine with capture }.note consumer (.published name text)
      | none => engine.fail consumer (.captureUnderflow name)
  | .event name => engine.note consumer (.eventAnnounced name)

def enter (engine : Engine) (frame : Frame) : Engine :=
  (engine.note consumer (.nodeEntered frame)).perform consumer (grammar.action frame)

/-- Moves the innermost rule to one of its nodes, and enters the node. -/
def moveTo (engine : Engine) (node : NodeId) : Engine :=
  match engine.stack with
  | [] => engine
  | top :: below =>
      let moved := { top with node }
      { engine with stack := moved :: below }.enter grammar consumer moved

/-- Runs a rule. The one that calls it continues at `resume`. -/
def call (engine : Engine) (rule : RuleId) (resume : NodeId) : Engine :=
  let entry : Frame := ⟨rule, Rule.entry⟩
  let stack := match engine.stack with
    | [] => [entry]
    | top :: below => entry :: { top with node := resume } :: below
  ({ engine with stack }.note consumer (.rulePushed rule)).enter grammar consumer entry

/-- Leaves the innermost rule. The one that called it continues. -/
def leave (engine : Engine) : Engine :=
  match engine.stack with
  | [] => engine
  | top :: below =>
      let left := { engine with stack := below }.note consumer (.rulePopped top.rule)
      match below with
      | [] => left
      | caller :: _ => left.enter grammar consumer caller

def commit (engine : Engine) : Engine :=
  let lookahead := engine.lookahead.commit
  match engine.lookahead.front? with
  | some (.char character) =>
      { engine with
        lookahead
        location := engine.location.advance character
        capture := engine.capture.push character }
  | _ => { engine with lookahead }

def takeStep (engine : Engine) (step : Step) : Engine :=
  match step with
  | .call rule resume => engine.call grammar consumer rule resume
  | .goto node => engine.moveTo grammar consumer node
  | .leave => engine.leave grammar consumer
  | .consume _ target =>
      let moved := engine.moveTo grammar consumer target
      if moved.status.isRunning then moved.commit else moved

/-- Takes the steps of a path, as long as the parse goes on. -/
def takePath (engine : Engine) (path : Path) : Engine :=
  path.foldl (fun current step =>
    if current.status.isRunning then current.takeStep grammar consumer step else current) engine

/-- What may follow the end of the start rule: only the end of the input, and that only if no
capture is open. -/
def finish (engine : Engine) (symbol : Symbol) : Engine :=
  match symbol with
  | .char _ => engine.reject consumer [Symbol.endOfInput.text]
  | .endOfInput =>
      if engine.capture.isCapturing then
        engine.fail consumer (.unterminatedCapture engine.capture.depth)
      else
        { engine with lookahead := .empty, status := .succeeded }.note consumer
          (.succeeded engine.location)

/-- How the parse stands after one decision. -/
inductive Progress where
  /-- The parse has ended, or waits for more symbols. -/
  | settled (engine : Engine)
  /-- There is more to decide. -/
  | ongoing (engine : Engine)

/-- The parse goes on unless it has ended. -/
def progress (engine : Engine) : Progress :=
  if engine.status.isRunning then .ongoing engine else .settled engine

/-- Takes and carries out one decision. -/
def advance (engine : Engine) : Progress :=
  match engine.lookahead.front?, engine.stack with
  | none, _ => .settled engine
  | some symbol, [] => .settled (engine.finish consumer symbol)
  | some _, top :: _ =>
      match grammar.routes? top with
      | none => (engine.leave grammar consumer).progress
      | some routes =>
          match grammar.decide engine.lookahead routes with
          | .needMore => .settled engine
          | .take path => (engine.takePath grammar consumer path).progress
          | .reject => .settled (engine.reject consumer routes.expected)

/-- Takes decisions until one needs more symbols or the parse ends. `symbols` symbols wait, and
`rules` rules are being run. Every decision of a built grammar consumes a symbol or, if it leaves
the symbols as they are, ends a rule, so the condition on the next state always holds there. -/
def settleWithin (symbols rules : Nat) (engine : Engine) : Engine :=
  match engine.advance grammar consumer with
  | .settled next => next
  | .ongoing next =>
      let symbolsLeft := next.lookahead.length
      let rulesLeft := next.stack.length
      if symbolsLeft < symbols ∨ symbolsLeft = symbols ∧ rulesLeft < rules then
        settleWithin symbolsLeft rulesLeft next
      else next
termination_by (symbols, rules)
decreasing_by
  rename_i smaller
  rcases smaller with fewer | ⟨same, fewer⟩
  · exact Prod.Lex.left _ _ fewer
  · exact Prod.Lex.right' _ (Nat.le_of_eq same) fewer

/-- Takes decisions until one needs more symbols or the parse ends. -/
def settle (engine : Engine) : Engine :=
  engine.settleWithin grammar consumer engine.lookahead.length engine.stack.length

/-- Enters the entry of the start rule, unless that has happened. -/
def enterStart (engine : Engine) : Engine :=
  if engine.entered then engine
  else
    let entered := { engine with entered := true }
    match engine.stack with
    | [] => entered
    | top :: _ => entered.enter grammar consumer top

/-- Takes in one more symbol. -/
def feed (engine : Engine) (symbol : Symbol) : Engine :=
  let pushed := { engine with lookahead := engine.lookahead.push symbol }
  let entered := pushed.enterStart grammar consumer
  if entered.status.isRunning then entered.settle grammar consumer else entered

/-- Takes in the code points of a sequence of units, `taken` counting the units before them, until
the sequence ends, perhaps in the middle of a code point, the parse ends, or the consumer asks for a
stop. Gives the number of all units taken. -/
def takeUnits {Unit : Type} (encoding : Encoding Unit) (units : List Unit) (taken : Nat)
    (engine : Engine) : Nat × Engine :=
  match _decoded : encoding.decode units with
  | .incomplete => (taken, engine)
  | .malformed malformation => (taken, engine.fail consumer (.decoding malformation))
  | .char character size =>
      let fed := engine.feed grammar consumer (.char character)
      if !fed.status.isRunning then (taken + size, fed)
      else if fed.cancelled then (taken + size, fed.note consumer (.cancelled (taken + size)))
      else takeUnits encoding (units.drop size) (taken + size) fed
termination_by units.length
decreasing_by
  have := encoding.size_pos _decoded
  have := encoding.length_pos_of_decode _decoded
  rw [List.length_drop]
  omega

/-- The answer to a call: its result unless the call made the parse fail. -/
def answer {Result : Type} (engine : Engine) (result : Result) : Except CallError Result :=
  match engine.status with
  | .failed failure => .error (.parseFailed failure)
  | _ => .ok result

/-- Takes in units of input. Gives the number of units taken, which may be less than all of them if
they end in the middle of a code point or if the consumer asked for a stop. -/
def consume {Unit : Type} (encoding : Encoding Unit) (engine : Engine) (units : List Unit) :
    Except CallError Nat × Engine :=
  if engine.status.isRunning then
    let (taken, after) :=
      takeUnits grammar consumer encoding units 0 { engine with cancelled := false }
    (after.answer taken, after)
  else (.error (.notRunning engine.status), engine)

def endInput (engine : Engine) : Except CallError PUnit × Engine :=
  if engine.status.isRunning then
    let after := engine.feed grammar consumer .endOfInput
    (after.answer (), after)
  else (.error (.notRunning engine.status), engine)

end Running

/-- Everything that the consumer was told, in order. -/
def callbacks (engine : Engine) : List Callback :=
  engine.journal.toList.filterMap Occurrence.callback?

end Engine

end StreamGrammar
