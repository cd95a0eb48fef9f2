import StreamGrammar.Proofs.DecisionLoop

/-!
# Moments of a parse

What an engine notes does not say when the input is consumed. The moments of a parse
do: they are what happens to the waiting symbols, which arrive and are consumed, and
what is noted in between, in the order in which it happens. A session is a parse with
all its moments, however the engine is used.
-/

namespace StreamGrammar

/-- Something that happens in the course of a parse. -/
inductive Moment where
  /-- A symbol comes behind those that wait. -/
  | arrived (waiting : Lookahead) (symbol : Symbol)
  /-- A consuming step removes the symbol that waits first, if one does. -/
  | consumed (front? : Option Symbol)
  | noted (occurrence : Occurrence)
deriving DecidableEq, Repr

/-- The code point that a symbol is, unless it is the end of the input. -/
def Symbol.character? : Symbol → Option Char
  | .char character => some character
  | .endOfInput => none

/-- The code points that wait. -/
def Lookahead.characters (lookahead : Lookahead) : List Char :=
  lookahead.symbols.filterMap Symbol.character?

namespace Moment

def arrival? : Moment → Option Symbol
  | .arrived _ symbol => some symbol
  | _ => none

def consumption? : Moment → Option Symbol
  | .consumed front? => front?
  | _ => none

def occurrence? : Moment → Option Occurrence
  | .noted occurrence => some occurrence
  | _ => none

/-- The symbols that arrive, in order. -/
def arrivals (moments : List Moment) : List Symbol :=
  moments.filterMap arrival?

/-- The code points that arrive, in order. -/
def textArrived (moments : List Moment) : List Char :=
  (arrivals moments).filterMap Symbol.character?

/-- The code points that are consumed, in order. -/
def textConsumed (moments : List Moment) : List Char :=
  (moments.filterMap consumption?).filterMap Symbol.character?

def occurrences (moments : List Moment) : List Occurrence :=
  moments.filterMap occurrence?

/-- What the consumer is told, in order. -/
def callbacks (moments : List Moment) : List Callback :=
  (occurrences moments).filterMap Occurrence.callback?

@[simp]
theorem arrivals_nil : arrivals [] = [] := rfl

@[simp]
theorem textArrived_nil : textArrived [] = [] := rfl

@[simp]
theorem textConsumed_nil : textConsumed [] = [] := rfl

@[simp]
theorem occurrences_nil : occurrences [] = [] := rfl

@[simp]
theorem callbacks_nil : callbacks [] = [] := rfl

section Append

variable (first second : List Moment)

@[simp]
theorem arrivals_append : arrivals (first ++ second) = arrivals first ++ arrivals second :=
  List.filterMap_append

@[simp]
theorem textArrived_append :
    textArrived (first ++ second) = textArrived first ++ textArrived second := by
  simp [textArrived]

@[simp]
theorem textConsumed_append :
    textConsumed (first ++ second) = textConsumed first ++ textConsumed second := by
  simp [textConsumed]

@[simp]
theorem occurrences_append :
    occurrences (first ++ second) = occurrences first ++ occurrences second :=
  List.filterMap_append

@[simp]
theorem callbacks_append : callbacks (first ++ second) = callbacks first ++ callbacks second := by
  simp [callbacks]

end Append

section Noted

variable (noted : List Occurrence)

@[simp]
theorem arrivals_noted : arrivals (noted.map .noted) = [] := by
  simp [arrivals, List.filterMap_map, Function.comp_def, arrival?]

@[simp]
theorem textArrived_noted : textArrived (noted.map .noted) = [] := by
  simp [textArrived]

@[simp]
theorem textConsumed_noted : textConsumed (noted.map .noted) = [] := by
  simp [textConsumed, List.filterMap_map, Function.comp_def, consumption?]

@[simp]
theorem occurrences_noted : occurrences (noted.map .noted) = noted := by
  simp [occurrences, List.filterMap_map, Function.comp_def, occurrence?]

@[simp]
theorem callbacks_noted : callbacks (noted.map .noted) = noted.filterMap Occurrence.callback? := by
  simp [callbacks]

end Noted

end Moment

namespace Engine

section Moments

variable (grammar : Grammar) (consumer : Consumer)

/-- What is noted until an engine has become another one. -/
def notedUntil (engine after : Engine) : List Moment :=
  (after.journal.toList.drop engine.journal.size).map .noted

def stepMoments (engine : Engine) (step : Step) : List Moment :=
  engine.notedUntil (engine.takeStep grammar consumer step) ++
    match step with
    | .consume _ target =>
        let moved := engine.moveTo grammar consumer target
        if moved.status.isRunning then [.consumed moved.lookahead.front?] else []
    | _ => []

def pathMoments : Engine → Path → List Moment
  | _, [] => []
  | engine, step :: rest =>
      if engine.status.isRunning then
        engine.stepMoments grammar consumer step ++
          pathMoments (engine.takeStep grammar consumer step) rest
      else []

/-- What happens while one decision is taken and carried out. -/
def roundMoments (engine : Engine) : List Moment :=
  match engine.lookahead.front?, engine.stack with
  | none, _ => []
  | some symbol, [] => engine.notedUntil (engine.finish consumer symbol)
  | some _, top :: _ =>
      match grammar.routes? top with
      | none => engine.notedUntil (engine.leave grammar consumer)
      | some routes =>
          match grammar.decide engine.lookahead routes with
          | .needMore => []
          | .take path => engine.pathMoments grammar consumer path
          | .reject => engine.notedUntil (engine.reject consumer routes.expected)

/-- What happens while the engine settles. The condition always holds where it is asked for. -/
def settleMoments (engine : Engine) : List Moment :=
  engine.roundMoments grammar consumer ++
    match engine.advance grammar consumer with
    | .settled _ => []
    | .ongoing next =>
        if _closer : next.lookahead.length < engine.lookahead.length ∨
            next.lookahead.length = engine.lookahead.length ∧
              next.stack.length < engine.stack.length then
          settleMoments next
        else []
termination_by (engine.lookahead.length, engine.stack.length)
decreasing_by
  rcases _closer with fewer | ⟨same, fewer⟩
  · exact Prod.Lex.left _ _ fewer
  · exact Prod.Lex.right' _ (Nat.le_of_eq same) fewer

/-- What happens while a symbol is fed. -/
def feedMoments (engine : Engine) (symbol : Symbol) : List Moment :=
  let begun := engine.arrive grammar consumer [symbol]
  .arrived engine.lookahead symbol :: engine.notedUntil begun ++
    if begun.status.isRunning then begun.settleMoments grammar consumer else []

/-- What happens while units are taken in. -/
def unitMoments {Unit : Type} (encoding : Encoding Unit) (units : List Unit) (taken : Nat)
    (engine : Engine) : List Moment :=
  match _decoded : encoding.decode units with
  | .incomplete => []
  | .malformed malformation =>
      engine.notedUntil (engine.fail consumer (.decoding malformation))
  | .char character size =>
      let fed := engine.feed grammar consumer (.char character)
      engine.feedMoments grammar consumer (.char character) ++
        if !fed.status.isRunning then []
        else if fed.cancelled then [.noted (.cancelled (taken + size))]
        else unitMoments encoding (units.drop size) (taken + size) fed
termination_by units.length
decreasing_by exact encoding.length_drop_lt _decoded

end Moments

/-- What happens during a call. -/
def callMoments (grammar : Grammar) (engine : Engine) (call : Call) : List Moment :=
  if engine.status.isRunning then
    match call with
    | .consume consumer encoding units =>
        { engine with cancelled := false }.unitMoments grammar consumer encoding units 0
    | .endInput consumer => engine.feedMoments grammar consumer .endOfInput
  else []

end Engine

/-- An engine that has been used in whatever way. `moments` is what has happened since its parse
began, and `told` are the callbacks before that. -/
inductive Session (grammar : Grammar) :
    (told : List Callback) → (moments : List Moment) → Engine → Prop
  | begins (start : RuleId) : Session grammar [] [] (.ofRule start)
  | resets {told : List Callback} {moments : List Moment} {engine : Engine}
      (session : Session grammar told moments engine) (start : RuleId) :
      Session grammar engine.callbacks [] (engine.resetTo start)
  | cancels {told : List Callback} {moments : List Moment} {engine : Engine}
      (session : Session grammar told moments engine) :
      Session grammar told moments engine.cancel
  | calls {told : List Callback} {moments : List Moment} {engine : Engine}
      (session : Session grammar told moments engine) (call : Call) :
      Session grammar told (moments ++ engine.callMoments grammar call)
        (engine.afterCall grammar call)

theorem Session.reachable {grammar : Grammar} {told : List Callback} {moments : List Moment}
    {engine : Engine} (session : Session grammar told moments engine) :
    engine.Reachable grammar := by
  induction session with
  | begins start => exact .ofRule start
  | resets _ start ih => exact ih.resetTo start
  | cancels _ ih => exact ih.cancel
  | calls _ call ih => exact ih.afterCall call

end StreamGrammar
