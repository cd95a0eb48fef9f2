import StreamGrammar.Proofs.Decisions
import StreamGrammar.Proofs.EngineSteps

/-!
# Settling the engine

After each symbol the engine takes decisions until it has to wait or the parse ends.
Every decision that it carries out either consumes a waiting symbol or, leaving the
symbols alone, ends a rule. So it always settles, and whatever one decision
preserves holds of the engine that settles.
-/

namespace StreamGrammar

namespace Lookahead

theorem symbols_holding (text : List Char) (ended : Bool) :
    (holding text ended).symbols = text.map .char ++ if ended then [.endOfInput] else [] := rfl

/-- Consuming code points from the front leaves the rest of what waits. -/
theorem exists_holding_of_symbols {text read : List Char} {ended : Bool} {rest : Lookahead}
    (symbols_eq : (holding text ended).symbols = read.map .char ++ rest.symbols) :
    ∃ waiting, text = read ++ waiting ∧ rest = holding waiting ended := by
  induction read generalizing text with
  | nil => exact ⟨text, rfl, by cases rest; simpa [holding] using symbols_eq.symm⟩
  | cons character read ih =>
      cases text with
      | nil => cases ended <;> simp [holding] at symbols_eq
      | cons other text =>
          simp only [symbols_holding, List.map_cons, List.cons_append, List.cons.injEq,
            Symbol.char.injEq] at symbols_eq ih
          rcases symbols_eq with ⟨rfl, symbols_eq⟩
          rcases ih symbols_eq with ⟨waiting, rfl, rest_eq⟩
          exact ⟨waiting, rfl, rest_eq⟩

end Lookahead

/-- An alternative whose matcher accepts a code point consumes it. -/
theorem Graph.Settles.run_path {graph : Graph} {limits : ResolutionLimits} {frame : Frame}
    {ways : List Way} {division : Division} {routes : Routes}
    (settles : graph.Settles limits frame ways division routes) {path : Path}
    (path_mem : path ∈ routes.paths) {matcher : MatcherId}
    (matchers_eq : Path.matchers path = [matcher])
    {character : Char} (accepted : graph.accepts matcher (.char character) = true) :
    ∃ next : Place, Run graph [frame] path [character] next.stack := by
  rcases settles.path_mem_iff.mp path_mem with ⟨_, next, taken⟩
  rcases Way.isTakenFrom_consuming_iff.mp taken with ⟨walk, _⟩
  refine ⟨next, Run.iff_walk.mpr ⟨walk, ?_⟩⟩
  rw [matchers_eq]
  exact .cons accepted .nil

namespace Engine

/-- Fewer symbols wait or, if equally many wait, fewer rules are being run. -/
def IsCloser (next engine : Engine) : Prop :=
  next.lookahead.length < engine.lookahead.length ∨
    next.lookahead.length = engine.lookahead.length ∧ next.stack.length < engine.stack.length

variable {grammar : Grammar} {consumer : Consumer} {limits : ResolutionLimits} {engine : Engine}

theorem settle_eq : engine.settle grammar consumer =
    match engine.advance grammar consumer with
    | .settled last => last
    | .ongoing next =>
        if next.lookahead.length < engine.lookahead.length ∨
          next.lookahead.length = engine.lookahead.length ∧
            next.stack.length < engine.stack.length then next.settle grammar consumer
        else next := by
  rw [settle, settleWithin]
  rfl

/-- What every decision preserves holds of some engine that the last decision settles, provided
that decisions bring the engine closer to its end. -/
theorem exists_settled {Holds : Engine → Prop} {engine : Engine} (holds : Holds engine)
    (goesOn : ∀ before next : Engine, Holds before →
      before.advance grammar consumer = .ongoing next → Holds next ∧ next.IsCloser before) :
    ∃ last, Holds last ∧
      last.advance grammar consumer = .settled (engine.settle grammar consumer) := by
  cases advance_eq : engine.advance grammar consumer with
  | settled last =>
      refine ⟨engine, holds, ?_⟩
      rw [advance_eq, settle_eq, advance_eq]
  | ongoing next =>
      rcases goesOn engine next holds advance_eq with ⟨nextHolds, closer⟩
      have settle_next : engine.settle grammar consumer = next.settle grammar consumer := by
        rw [settle_eq, advance_eq]
        exact if_pos closer
      rw [settle_next]
      have decreases : (next.lookahead.length < engine.lookahead.length ∨
        next.lookahead.length = engine.lookahead.length ∧
          next.stack.length < engine.stack.length) := closer
      exact exists_settled nextHolds goesOn
termination_by (engine.lookahead.length, engine.stack.length)
decreasing_by
  rcases decreases with fewer | ⟨same, fewer⟩
  · exact Prod.Lex.left _ _ fewer
  · exact Prod.Lex.right' _ (Nat.le_of_eq same) fewer

/-- How the engine stands after one decision. -/
inductive Outcome (graph : Graph) (consumer : Consumer) (engine : Engine) : Progress → Prop
  | waits (unended : engine.lookahead.hasEnd = false) :
      Outcome graph consumer engine (.settled engine)
  | moves {steps : Path} {read : List Char} {after : Engine}
      (took : engine.Took graph steps read after) (closer : after.IsCloser engine) :
      Outcome graph consumer engine (.ongoing after)
  | breaks {steps : Path} {step : Step} {read : List Char} {middle after : Engine}
      (took : engine.Took graph steps read middle) (broke : middle.Broke graph step after) :
      Outcome graph consumer engine (.settled after)
  | rejects (expected : List String) :
      Outcome graph consumer engine (.settled (engine.reject consumer expected))
  | unterminated (left : engine.stack = []) (opened : engine.capture.isCapturing = true) :
      Outcome graph consumer engine
        (.settled (engine.fail consumer (.unterminatedCapture engine.capture.depth)))
  | succeeds (left : engine.stack = []) (closed : engine.capture.isCapturing = false)
      (ended : engine.lookahead = .holding [] true) :
      Outcome graph consumer engine (.settled
        ({ engine with lookahead := .empty, status := .succeeded }.note consumer
          (.succeeded engine.location)))

/-- What may follow the end of the start rule. -/
theorem finish_outcome {text : List Char} {ended : Bool} {symbol : Symbol}
    (waiting : engine.lookahead = .holding text ended)
    (front_eq : engine.lookahead.front? = some symbol) (left : engine.stack = []) :
    Outcome grammar.toGraph consumer engine (.settled (engine.finish consumer symbol)) := by
  cases symbol with
  | char character => exact .rejects _
  | endOfInput =>
      simp only [finish]
      split
      next opened => exact .unterminated left opened
      next closed =>
        refine .succeeds left (by simpa using closed) ?_
        rw [waiting] at front_eq ⊢
        cases text with
        | nil => cases ended <;> simp_all
        | cons character rest => simp at front_eq

/-- What waits makes the engine take the path, which consumes the text and leads to the stack. Where
there are no edges it ends the rule. Elsewhere it takes the path that is decided, which is either
the exit or an alternative that begins with what waits. -/
inductive Proceeds (grammar : Grammar) (engine : Engine) : Path → List Char → List Frame → Prop
  | ends {top : Frame} {below : List Frame} (stack_eq : engine.stack = top :: below)
      (edgeless : grammar.outgoing top = []) (routes_eq : grammar.routes? top = none) :
      Proceeds grammar engine [.leave] [] below
  | leaves {top : Frame} {below : List Frame} {routes : Routes} {exit : Path}
      (stack_eq : engine.stack = top :: below) (routes_eq : grammar.routes? top = some routes)
      (decided : grammar.decide engine.lookahead routes = .take exit)
      (exit_eq : routes.exit = some exit) (walk : Walk grammar.toGraph [top] exit [])
      (silent : Path.matchers exit = []) : Proceeds grammar engine exit [] below
  | consumes {top : Frame} {below : List Frame} {routes : Routes} {path : Path} {next : Place}
      {character : Char} (stack_eq : engine.stack = top :: below)
      (routes_eq : grammar.routes? top = some routes)
      (decided : grammar.decide engine.lookahead routes = .take path)
      (path_mem : path ∈ routes.paths)
      (run : Run grammar.toGraph [top] path [character] next.stack)
      (waits : [character].map .char <+: engine.lookahead.symbols) :
      Proceeds grammar engine path [character] (next.stack ++ below)

namespace Proceeds

variable {path : Path} {read : List Char} {final : List Frame}

theorem run (proceeds : engine.Proceeds grammar path read final) :
    Run grammar.toGraph engine.stack path read final := by
  cases proceeds with
  | @ends top _ stack_eq edgeless =>
      rw [stack_eq]
      have enabled : Step.leave.IsEnabled grammar.toGraph (top :: final) := edgeless
      exact .step enabled rfl (.refl final)
  | leaves stack_eq _ _ _ walk silent =>
      have inside := Run.iff_walk.mpr ⟨walk, by rw [silent]; exact .nil⟩
      rw [stack_eq]
      exact inside.onTop final
  | consumes stack_eq _ _ _ inside =>
      rw [stack_eq]
      exact inside.onTop _

theorem waits (proceeds : engine.Proceeds grammar path read final) :
    read.map .char <+: engine.lookahead.symbols := by
  cases proceeds with
  | ends => exact List.nil_prefix
  | leaves => exact List.nil_prefix
  | consumes _ _ _ _ _ waits => exact waits

theorem closer (proceeds : engine.Proceeds grammar path read final) :
    0 < read.length ∨ final.length < engine.stack.length := by
  cases proceeds with
  | ends stack_eq => simp [stack_eq]
  | leaves stack_eq => simp [stack_eq]
  | consumes => simp

end Proceeds

theorem Proceeds.outcome {path : Path} {read : List Char} {final : List Frame}
    (proceeds : engine.Proceeds grammar path read final) (running : engine.status = .running) :
    Outcome grammar.toGraph consumer engine (engine.takePath grammar consumer path).progress := by
  rcases takePath_spec consumer running proceeds.run proceeds.waits with
    took | ⟨before, step, later, firstRead, middle, rfl, took, broke⟩
  · simp only [progress, took.performed.running, Status.isRunning, if_true]
    apply Outcome.moves took
    have length_eq := congrArg List.length took.lookahead
    have stack_eq := took.run.final_eq.trans proceeds.run.final_eq.symm
    have closer := proceeds.closer
    simp only [List.length_append, List.length_map] at length_eq
    simp only [IsCloser, Lookahead.length, stack_eq]
    omega
  · simp only [progress, broke.ended, Bool.false_eq_true, if_false]
    exact .breaks took broke

/-- What one decision makes the engine do. -/
inductive Decides (grammar : Grammar) (consumer : Consumer) (engine : Engine) : Progress → Prop
  | idles (nothing : engine.lookahead.front? = none) :
      Decides grammar consumer engine (.settled engine)
  | finishes {symbol : Symbol} (front_eq : engine.lookahead.front? = some symbol)
      (left : engine.stack = []) :
      Decides grammar consumer engine (.settled (engine.finish consumer symbol))
  | proceeds {symbol : Symbol} {path : Path} {read : List Char} {final : List Frame}
      (front_eq : engine.lookahead.front? = some symbol)
      (proceeds : engine.Proceeds grammar path read final) :
      Decides grammar consumer engine (engine.takePath grammar consumer path).progress
  | putsOff {symbol : Symbol} {top : Frame} {below : List Frame} {routes : Routes}
      (front_eq : engine.lookahead.front? = some symbol) (stack_eq : engine.stack = top :: below)
      (routes_eq : grammar.routes? top = some routes)
      (decided : grammar.decide engine.lookahead routes = .needMore) :
      Decides grammar consumer engine (.settled engine)
  | rejects {symbol : Symbol} {top : Frame} {below : List Frame} {routes : Routes}
      (front_eq : engine.lookahead.front? = some symbol) (stack_eq : engine.stack = top :: below)
      (routes_eq : grammar.routes? top = some routes)
      (decided : grammar.decide engine.lookahead routes = .reject) :
      Decides grammar consumer engine (.settled (engine.reject consumer routes.expected))

/-- A path that is decided on is the exit or an alternative that begins with what waits. -/
theorem Proceeds.of_decide (resolved : grammar.IsResolved limits) {text : List Char} {ended : Bool}
    (waiting : engine.lookahead = .holding text ended) {top : Frame} {below : List Frame}
    {routes : Routes} {path : Path} (stack_eq : engine.stack = top :: below)
    (routes_eq : grammar.routes? top = some routes)
    (decided : grammar.decide engine.lookahead routes = .take path) :
    ∃ read final, engine.Proceeds grammar path read final := by
  rcases resolved.exists_settles routes_eq with ⟨ways, division, settles⟩
  have taken := decided
  rw [waiting] at taken
  rcases settles.decide_take taken with
    exit_eq | ⟨character, rest, matcher, rfl, path_mem, matchers_eq, accepted⟩
  · rcases settles.isTakenFrom_exit exit_eq with ⟨walk, silent⟩
    exact ⟨_, _, .leaves stack_eq routes_eq decided exit_eq walk silent⟩
  · rcases settles.run_path path_mem matchers_eq accepted with ⟨next, run⟩
    refine ⟨_, _, .consumes stack_eq routes_eq decided path_mem run ?_⟩
    rw [waiting, Lookahead.symbols_holding]
    exact ⟨_, rfl⟩

theorem advance_decides (resolved : grammar.IsResolved limits) (running : engine.status = .running)
    {text : List Char} {ended : Bool} (waiting : engine.lookahead = .holding text ended) :
    Decides grammar consumer engine (engine.advance grammar consumer) := by
  simp only [advance]
  cases front_eq : engine.lookahead.front? with
  | none => exact .idles front_eq
  | some symbol =>
      cases stack_eq : engine.stack with
      | nil => exact .finishes front_eq stack_eq
      | cons top below =>
          cases routes_eq : grammar.routes? top with
          | none =>
              have edgeless : grammar.outgoing top = [] := by
                rcases resolved.decided top with ⟨none_eq, _⟩ | ⟨_, _, _, _, found_eq, _⟩
                · exact none_eq
                · rw [routes_eq] at found_eq
                  cases found_eq
              simp only [routes_eq, leave_eq_takePath running]
              exact .proceeds front_eq (.ends stack_eq edgeless routes_eq)
          | some routes =>
              simp only [routes_eq]
              cases decided : grammar.decide engine.lookahead routes with
              | needMore => exact .putsOff front_eq stack_eq routes_eq decided
              | reject => exact .rejects front_eq stack_eq routes_eq decided
              | take path =>
                  rcases Proceeds.of_decide resolved waiting stack_eq routes_eq decided with
                    ⟨read, final, proceeds⟩
                  exact .proceeds front_eq proceeds

/-- One decision of a grammar with sound routes moves along a run of the graph, or settles. -/
theorem advance_outcome (resolved : grammar.IsResolved limits) (running : engine.status = .running)
    {text : List Char} {ended : Bool} (waiting : engine.lookahead = .holding text ended) :
    Outcome grammar.toGraph consumer engine (engine.advance grammar consumer) := by
  have decides : Decides grammar consumer engine (engine.advance grammar consumer) :=
    advance_decides resolved running waiting
  generalize engine.advance grammar consumer = after at decides ⊢
  cases decides with
  | idles nothing =>
      apply Outcome.waits
      simp only [Lookahead.front?, List.head?_eq_none_iff] at nothing
      simp [Lookahead.hasEnd, nothing]
  | finishes front_eq left => exact finish_outcome waiting front_eq left
  | proceeds _ proceeds => exact proceeds.outcome running
  | @putsOff _ _ _ routes _ _ _ decided =>
      have justified := grammar.decide_justified engine.lookahead routes
      rw [decided] at justified
      cases justified with
      | putOff unended => exact .waits unended
  | rejects => exact .rejects _

end Engine

end StreamGrammar
