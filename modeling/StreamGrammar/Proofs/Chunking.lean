import Mathlib.Data.List.Infix
import StreamGrammar.Encoding.Utf8
import StreamGrammar.Proofs.Simulation

/-!
# Input in pieces

How the units of an input are cut into pieces, and when a consumer asks for a stop,
makes no difference to a parse. Each call goes on from where the call before it has
stopped, so that all of them together do what one call with all the units does,
provided that no consumer asks that one to stop. What is compared are the engines
with requests to stop left out, which nothing but the code points affects.
-/

namespace StreamGrammar

/-- A note that is not about a request to stop. -/
def Occurrence.isOfParse : Occurrence → Bool
  | .cancelled _ => false
  | _ => true

theorem Occurrence.keepsParse_isOfParse : KeepsParse isOfParse := by
  intro occurrence other
  cases occurrence with
  | cancelled units => exact absurd rfl (other units)
  | nodeEntered | rulePushed | rulePopped | captureStarted | published | eventAnnounced | failed
    | succeeded => rfl

namespace Engine

/-- The state of the parse, whatever the consumers have asked for. -/
def parseState (engine : Engine) : Engine := engine.erase Occurrence.isOfParse

section ParseState

variable {grammar : Grammar} {consumer : Consumer} {engine : Engine}

theorem parseState_feed (symbol : Symbol) : (engine.feed grammar consumer symbol).parseState =
    engine.parseState.feed grammar .patient symbol :=
  erase_feed Occurrence.keepsParse_isOfParse symbol

theorem parseState_fail (cause : FailureCause) : (engine.fail consumer cause).parseState =
    engine.parseState.fail .patient cause :=
  erase_fail Occurrence.keepsParse_isOfParse cause

theorem parseState_note_cancelled (total : Nat) :
    (engine.note consumer (.cancelled total)).parseState = engine.parseState := by
  simp [parseState, erase, note, Occurrence.isOfParse]

theorem callbacks_parseState : engine.parseState.callbacks = engine.callbacks := by
  simp only [parseState, erase, callbacks, Array.toList_filter, List.filterMap_filter]
  apply List.filterMap_congr
  intro occurrence _
  cases occurrence with
  | cancelled units => rfl
  | nodeEntered | rulePushed | rulePopped | captureStarted | published | eventAnnounced | failed
    | succeeded => rfl

end ParseState

/-- The engines are at the same point of the same parse, and have told their consumers the same. -/
structure Agrees (engine other : Engine) : Prop where
  callbacks : engine.callbacks = other.callbacks
  stack : engine.stack = other.stack
  lookahead : engine.lookahead = other.lookahead
  capture : engine.capture = other.capture
  location : engine.location = other.location
  status : engine.status = other.status

theorem agrees_of_parseState {engine other : Engine}
    (same : engine.parseState = other.parseState) : engine.Agrees other := by
  have callbacks_eq : engine.callbacks = other.callbacks := by
    rw [← callbacks_parseState, same, callbacks_parseState]
  simp only [parseState, erase, Engine.mk.injEq] at same
  rcases same with ⟨_, stack_eq, lookahead_eq, capture_eq, location_eq, status_eq, _⟩
  exact ⟨callbacks_eq, stack_eq, lookahead_eq, capture_eq, location_eq, status_eq⟩

/-- An engine that has been used in whatever way, with whatever consumers. -/
inductive Reachable (grammar : Grammar) : Engine → Prop
  | ofRule (start : RuleId) : Reachable grammar (.ofRule start)
  | resetTo {engine : Engine} (reachable : Reachable grammar engine) (start : RuleId) :
      Reachable grammar (engine.resetTo start)
  | cancel {engine : Engine} (reachable : Reachable grammar engine) :
      Reachable grammar engine.cancel
  | afterCall {engine : Engine} (reachable : Reachable grammar engine) (call : Call) :
      Reachable grammar (engine.afterCall grammar call)

theorem Reachable.tracks {grammar : Grammar} {limits : ResolutionLimits} {engine : Engine}
    (reachable : engine.Reachable grammar) (resolved : grammar.IsResolved limits) :
    ∃ start told fed, engine.Tracks grammar.toGraph start told fed := by
  induction reachable with
  | ofRule start => exact ⟨start, _, _, tracks_resetTo (.ofRule start) grammar.toGraph start⟩
  | @resetTo engine _ start _ => exact ⟨start, _, _, engine.tracks_resetTo grammar.toGraph start⟩
  | @cancel engine _ ih =>
      rcases ih with ⟨start, told, fed, tracks⟩
      exact ⟨start, told, fed, tracks.of_journal true engine.journal rfl⟩
  | afterCall _ call ih =>
      rcases ih with ⟨start, told, fed, tracks⟩
      exact ⟨start, told, _, tracks.afterCall resolved call⟩

variable {Unit : Type} {grammar : Grammar} {consumer : Consumer} {encoding : Encoding Unit}
  {units slice : List Unit} {engine after last : Engine} {count : Nat}

theorem takeUnits_parseState_of_char {character : Char} {size : Nat}
    (decoded : encoding.decode units = .char character size) (consumer : Consumer)
    (taken : Nat) :
    engine.parseState.takeUnits grammar .patient encoding units taken =
      if (engine.feed grammar consumer (.char character)).status.isRunning then
        (engine.feed grammar consumer (.char character)).parseState.takeUnits grammar .patient
          encoding (units.drop size) (taken + size)
      else (taken + size, (engine.feed grammar consumer (.char character)).parseState) := by
  have fed_eq : (engine.feed grammar consumer (.char character)).parseState =
      engine.parseState.feed grammar .patient (.char character) := parseState_feed _
  rw [takeUnits_of_char decoded, ← fed_eq]
  rfl

/-- What a call with a slice does to the parse is how a call with all the units begins. If the parse
goes on, the rest of the units remains for the latter. -/
theorem Takes.takeUnits_parseState
    (takes : Takes grammar consumer encoding engine slice count after)
    (running : engine.status = .running) (slice_le : slice <+: units) (taken : Nat) :
    engine.parseState.takeUnits grammar .patient encoding units taken =
      if after.status.isRunning then
        after.parseState.takeUnits grammar .patient encoding (units.drop count) (taken + count)
      else (taken + count, after.parseState) := by
  induction takes generalizing units taken with
  | exhausts decoded => simp [running, Status.isRunning]
  | malforms decoded =>
      have whole := Encoding.decode_of_slice slice_le decoded (by simp)
      rw [takeUnits_of_malformed whole, ← parseState_fail]
      rfl
  | ends decoded ended =>
      have whole := Encoding.decode_of_slice slice_le decoded (by simp)
      exact takeUnits_parseState_of_char whole consumer taken
  | cancels decoded isRunning cancelled total =>
      have whole := Encoding.decode_of_slice slice_le decoded (by simp)
      rw [takeUnits_parseState_of_char whole consumer taken, parseState_note_cancelled, status_note]
  | @continues engine after slice character size count decoded isRunning uncancelled rest ih =>
      have whole := Encoding.decode_of_slice slice_le decoded (by simp)
      have restSlice : slice.drop size <+: units.drop size := slice_le.drop size
      have further := ih isRunning restSlice (taken + size)
      rw [List.drop_drop, Nat.add_assoc] at further
      rw [← further, takeUnits_parseState_of_char whole consumer taken, isRunning]
      rfl

end Engine

def CallError.ofAnswer? {Result : Type} : Except CallError Result → Option CallError
  | .ok _ => none
  | .error error => some error

/-- Calls that hand over the units slice by slice. Each slice begins with the first unit that has
not been taken, and each call may come with a consumer of its own, who may ask for a stop in any
callback. The last call is answered by an error, or is given all the units that are left and is not
stopped. -/
inductive Delivery {Unit : Type} (grammar : Grammar) (encoding : Encoding Unit) :
    (engine : Engine) → List Unit → (last : Engine) → Option CallError → (taken : Nat) → Prop
  | refused {engine last : Engine} {units slice : List Unit} {error : CallError}
      (consumer : Consumer) (slice_le : slice <+: units)
      (answer : engine.consume grammar consumer encoding slice = (.error error, last)) :
      Delivery grammar encoding engine units last (some error)
        (engine.unitsTaken grammar consumer encoding slice)
  | completed {engine last : Engine} {units : List Unit} {count : Nat} (consumer : Consumer)
      (answer : engine.consume grammar consumer encoding units = (.ok count, last))
      (uncancelled : last.cancelled = false) :
      Delivery grammar encoding engine units last none count
  | continued {engine after last : Engine} {units slice : List Unit} {error? : Option CallError}
      {count taken : Nat} (consumer : Consumer) (slice_le : slice <+: units)
      (answer : engine.consume grammar consumer encoding slice = (.ok count, after))
      (rest : Delivery grammar encoding after (units.drop count) last error? taken) :
      Delivery grammar encoding engine units last error? (count + taken)

namespace Engine

variable {Unit : Type} {grammar : Grammar} {consumer : Consumer} {limits : ResolutionLimits}
  {encoding : Encoding Unit} {units slice : List Unit} {engine after last : Engine} {count : Nat}

theorem exists_takes_of_consume (running : engine.status = .running) (consumer : Consumer)
    (encoding : Encoding Unit) (units : List Unit) :
    ∃ count after,
      engine.consume grammar consumer encoding units = (after.answer count, after) ∧
      engine.unitsTaken grammar consumer encoding units = count ∧
      Takes grammar consumer encoding { engine with cancelled := false } units count after := by
  rcases takes_takeUnits grammar consumer encoding units 0 { engine with cancelled := false } with
    ⟨count, after, takeUnits_eq, takes⟩
  have isRunning : engine.status.isRunning = true := by
    rw [running]
    rfl
  rw [Nat.zero_add] at takeUnits_eq
  refine ⟨count, after, ?_, ?_, takes⟩
  · simp only [consume, isRunning, if_true, takeUnits_eq]
  · simp only [unitsTaken, isRunning, if_true, takeUnits_eq]

theorem Reachable.exists_takes (reachable : engine.Reachable grammar)
    (resolved : grammar.IsResolved limits) (running : engine.status = .running)
    (consumer : Consumer) (encoding : Encoding Unit) (units : List Unit) :
    ∃ count after,
      engine.consume grammar consumer encoding units = (after.answer count, after) ∧
      engine.unitsTaken grammar consumer encoding units = count ∧
      Takes grammar consumer encoding { engine with cancelled := false } units count after ∧
      after.Reachable grammar ∧ after.status ≠ .succeeded := by
  rcases exists_takes_of_consume running consumer encoding units with
    ⟨count, after, consume_eq, taken_eq, takes⟩
  refine ⟨count, after, consume_eq, taken_eq, takes, ?_, ?_⟩
  · have after_eq : engine.afterCall grammar (.consume consumer encoding units) = after := by
      simp only [Engine.afterCall, consume_eq]
    rw [← after_eq]
    exact reachable.afterCall _
  · rcases reachable.tracks resolved with ⟨start, told, fed, tracks⟩
    have uncancelled := tracks.of_journal false engine.journal rfl
    exact (takes.tracks resolved uncancelled running).2

/-- The error that a call is answered by which leaves the engine like this. -/
def refusal? (engine : Engine) : Option CallError :=
  match engine.status with
  | .failed failure => some (.parseFailed failure)
  | _ => none

theorem ofAnswer?_answer {Result : Type} (result : Result) :
    CallError.ofAnswer? (engine.answer result) = engine.refusal? := by
  simp only [answer, refusal?]
  cases engine.status with
  | running => rfl
  | succeeded => rfl
  | failed failure => rfl

theorem answer_cases {Result : Type} (notSucceeded : after.status ≠ .succeeded) (result : Result) :
    (after.status = .running ∧ after.answer result = .ok result) ∨
      ∃ failure, after.status = .failed failure ∧
        after.answer result = .error (.parseFailed failure) := by
  cases status_eq : after.status with
  | running => exact .inl ⟨rfl, by simp [answer, status_eq]⟩
  | succeeded => exact absurd status_eq notSucceeded
  | failed failure => exact .inr ⟨failure, rfl, by simp [answer, status_eq]⟩

/-- A call that makes the parse fail is answered by the failure. -/
theorem takes_of_parseFailed {failure : Failure}
    (answer : engine.consume grammar consumer encoding units =
      (.error (.parseFailed failure), after)) :
    engine.status = .running ∧
      Takes grammar consumer encoding { engine with cancelled := false } units
        (engine.unitsTaken grammar consumer encoding units) after ∧
      after.status = .failed failure := by
  cases ongoing : engine.status.isRunning with
  | false => simp [consume, ongoing] at answer
  | true =>
      have running := status_of_isRunning ongoing
      rcases exists_takes_of_consume running consumer encoding units with
        ⟨total, reached, consume_eq, taken_eq, takes⟩
      rw [consume_eq, Prod.mk.injEq] at answer
      rcases answer with ⟨answer_eq, rfl⟩
      rw [taken_eq]
      refine ⟨running, takes, ?_⟩
      cases status_eq : reached.status with
      | running | succeeded => simp [Engine.answer, status_eq] at answer_eq
      | failed other =>
          simp only [Engine.answer, status_eq, Except.error.injEq, CallError.parseFailed.injEq]
            at answer_eq
          rw [answer_eq]

/-- A call that is answered without an error leaves the parse going. -/
theorem Reachable.takes_of_ok (reachable : engine.Reachable grammar)
    (resolved : grammar.IsResolved limits)
    (answer : engine.consume grammar consumer encoding units = (.ok count, after)) :
    engine.status = .running ∧
      Takes grammar consumer encoding { engine with cancelled := false } units count after ∧
      after.Reachable grammar ∧ after.status = .running := by
  cases ongoing : engine.status.isRunning with
  | false => simp [consume, ongoing] at answer
  | true =>
      have running := status_of_isRunning ongoing
      rcases reachable.exists_takes resolved running consumer encoding units with
        ⟨total, reached, consume_eq, _, takes, reachedReachable, notSucceeded⟩
      rw [consume_eq, Prod.mk.injEq] at answer
      rcases answer with ⟨answer_eq, rfl⟩
      rcases answer_cases notSucceeded total with ⟨status_eq, ok_eq⟩ | ⟨failure, _, error_eq⟩
      · rw [ok_eq] at answer_eq
        cases answer_eq
        exact ⟨running, takes, reachedReachable, status_eq⟩
      · rw [error_eq] at answer_eq
        cases answer_eq

end Engine

namespace Delivery

variable {Unit : Type} {grammar : Grammar} {limits : ResolutionLimits} {encoding : Encoding Unit}
  {units : List Unit} {engine last : Engine} {error? : Option CallError} {taken : Nat}

/-- However the units are delivered, they do to the parse what they do as a whole. -/
theorem takeUnits_parseState (delivery : Delivery grammar encoding engine units last error? taken)
    (resolved : grammar.IsResolved limits) (reachable : engine.Reachable grammar)
    (running : engine.status = .running) (before : Nat) :
    engine.parseState.takeUnits grammar .patient encoding units before =
        (before + taken, last.parseState) ∧
      error? = last.refusal? := by
  induction delivery generalizing before with
  | @refused engine last units slice error consumer slice_le answer =>
      rcases reachable.exists_takes resolved running consumer encoding slice with
        ⟨count, after, consume_eq, taken_eq, takes, _, notSucceeded⟩
      rw [consume_eq, Prod.mk.injEq] at answer
      rcases answer with ⟨answer_eq, rfl⟩
      rcases Engine.answer_cases notSucceeded count with
        ⟨_, ok_eq⟩ | ⟨failure, status_eq, error_eq⟩
      · rw [ok_eq] at answer_eq
        cases answer_eq
      · have begins := takes.takeUnits_parseState running slice_le before
        rw [status_eq] at begins
        rw [taken_eq, ← Engine.ofAnswer?_answer count, answer_eq]
        exact ⟨begins, rfl⟩
  | @completed engine last units count consumer answer uncancelled =>
      rcases reachable.takes_of_ok resolved answer with ⟨_, takes, _, status_eq⟩
      have begins := takes.takeUnits_parseState running List.prefix_rfl before
      have error_eq : last.refusal? = none := by rw [Engine.refusal?, status_eq]
      rcases (takes.stops running).2 status_eq with cancelled | exhausted
      · rw [cancelled] at uncancelled
        cases uncancelled
      · rw [status_eq, Engine.takeUnits_of_incomplete exhausted] at begins
        exact ⟨begins, error_eq.symm⟩
  | @continued engine after last units slice error? count taken consumer slice_le answer rest ih =>
      rcases reachable.takes_of_ok resolved answer with ⟨_, takes, afterReachable, status_eq⟩
      have begins := takes.takeUnits_parseState running slice_le before
      rcases ih afterReachable status_eq (before + count) with ⟨goesOn, error_eq⟩
      rw [status_eq, Status.isRunning, if_pos rfl, goesOn, Nat.add_assoc] at begins
      exact ⟨begins, error_eq⟩

end Delivery

/-- One call with all the units, by a consumer who never asks for a stop, is a delivery. -/
theorem Engine.Reachable.delivery_whole {Unit : Type} {grammar : Grammar}
    {limits : ResolutionLimits}
    {engine : Engine} (reachable : engine.Reachable grammar) (resolved : grammar.IsResolved limits)
    (running : engine.status = .running) (encoding : Encoding Unit) (units : List Unit) :
    Delivery grammar encoding engine units (engine.consume grammar .patient encoding units).2
      (CallError.ofAnswer? (engine.consume grammar .patient encoding units).1)
      (engine.unitsTaken grammar .patient encoding units) := by
  rcases reachable.exists_takes resolved running .patient encoding units with
    ⟨count, after, consume_eq, taken_eq, takes, _, notSucceeded⟩
  rw [consume_eq]
  rcases Engine.answer_cases notSucceeded count with ⟨_, ok_eq⟩ | ⟨failure, _, error_eq⟩
  · rw [ok_eq, taken_eq]
    rw [ok_eq] at consume_eq
    exact .completed .patient consume_eq (takes.uncancelled_of_patient rfl)
  · rw [error_eq]
    rw [error_eq] at consume_eq
    exact .refused .patient List.prefix_rfl consume_eq

/-- However the units of an input are delivered, the parse comes to where one call with all of them
leads that is not asked to stop. Every call stops where the consumer asks for it, or before units
that begin a code point whose other units are still to come. -/
theorem Grammar.delivery_agrees_with_consume {graph : Graph} {config : GrammarConfig}
    {grammar : Grammar} (built : (graph.build config).result = .ok grammar) {engine : Engine}
    (reachable : engine.Reachable grammar) (running : engine.status = .running) {Unit : Type}
    (encoding : Encoding Unit) (units : List Unit) :
    (∀ last error? taken, Delivery grammar encoding engine units last error? taken →
      last.Agrees (engine.consume grammar .patient encoding units).2 ∧
        error? = CallError.ofAnswer? (engine.consume grammar .patient encoding units).1 ∧
        taken = engine.unitsTaken grammar .patient encoding units) ∧
    ∀ consumer slice count after,
      engine.consume grammar consumer encoding slice = (.ok count, after) →
        count ≤ slice.length ∧ (count < slice.length →
          after.cancelled = true ∨ encoding.decode (slice.drop count) = .incomplete) := by
  rcases Graph.build_ok built with ⟨rfl, resolved⟩
  refine ⟨?_, ?_⟩
  · intro last error? taken delivery
    have whole := reachable.delivery_whole resolved running encoding units
    rcases delivery.takeUnits_parseState resolved reachable running 0 with ⟨parts_eq, error_eq⟩
    rcases whole.takeUnits_parseState resolved reachable running 0 with ⟨whole_eq, whole_error_eq⟩
    rw [parts_eq, Prod.mk.injEq] at whole_eq
    rcases whole_eq with ⟨taken_eq, state_eq⟩
    have agrees := Engine.agrees_of_parseState state_eq
    refine ⟨agrees, ?_, by omega⟩
    rw [error_eq, whole_error_eq, Engine.refusal?, agrees.status]
    rfl
  · intro consumer slice count after answer
    rcases reachable.exists_takes resolved running consumer encoding slice with
      ⟨total, reached, consume_eq, _, takes, _, notSucceeded⟩
    rw [consume_eq, Prod.mk.injEq] at answer
    rcases answer with ⟨answer_eq, rfl⟩
    rcases Engine.answer_cases notSucceeded total with ⟨status_eq, ok_eq⟩ | ⟨failure, _, error_eq⟩
    · rw [ok_eq] at answer_eq
      cases answer_eq
      rcases takes.stops running with ⟨count_le, stops⟩
      exact ⟨count_le, fun _ => stops status_eq⟩
    · rw [error_eq] at answer_eq
      cases answer_eq

/-- A rule that announces an accented letter, and reads a plain one after it. -/
def Graph.accented : Graph :=
  (Assembly.assemble do
    let main ← Assembly.rule "main"
    let start ← Assembly.node main
    let seen ← Assembly.node main (.event "accent")
    let done ← Assembly.node main
    let _ ← Assembly.charEdge main start 'é' seen
    Assembly.charEdge main seen 'a' done).2

def Grammar.accented : Grammar := Graph.accented.builtGrammar ⟨"main", 1, false⟩

theorem Grammar.delivery_agrees_with_accented :
    (Graph.accented.build ⟨"main", 1, false⟩).result = .ok accented ∧
      ∃ last, Delivery accented .utf8 (.ofGrammar accented) [0xC3, 0xA9, 0x61] last none 3 ∧
        last.Agrees
          ((Engine.ofGrammar accented).consume accented .patient .utf8 [0xC3, 0xA9, 0x61]).2 := by
  have isOk : (Graph.accented.build ⟨"main", 1, false⟩).result.isOk = true := by decide +kernel
  have built : (Graph.accented.build ⟨"main", 1, false⟩).result = .ok accented :=
    Graph.build_eq_builtGrammar isOk
  -- The first slice ends inside the accented letter, and the second call is asked to stop.
  have cut_eq : (Engine.ofGrammar accented).consume accented .patient .utf8 [0xC3] =
      (.ok 0, Engine.ofGrammar accented) := by cbv
  have stopped_eq : ((Engine.ofGrammar accented).consume accented ⟨fun _ _ => true⟩ .utf8
      [0xC3, 0xA9, 0x61]).1 = .ok 2 := by cbv
  have last_eq : (((Engine.ofGrammar accented).consume accented ⟨fun _ _ => true⟩ .utf8
      [0xC3, 0xA9, 0x61]).2.consume accented .patient .utf8 [0x61]).1 = .ok 1 := by cbv
  have uncancelled : (((Engine.ofGrammar accented).consume accented ⟨fun _ _ => true⟩ .utf8
      [0xC3, 0xA9, 0x61]).2.consume accented .patient .utf8 [0x61]).2.cancelled = false := by cbv
  have completed : Delivery accented .utf8 ((Engine.ofGrammar accented).consume accented
      ⟨fun _ _ => true⟩ .utf8 [0xC3, 0xA9, 0x61]).2 [0x61] _ none 1 :=
    .completed .patient (Prod.ext last_eq rfl) uncancelled
  have stopped : Delivery accented .utf8 (.ofGrammar accented) [0xC3, 0xA9, 0x61] _ none (2 + 1) :=
    .continued ⟨fun _ _ => true⟩ List.prefix_rfl (Prod.ext stopped_eq rfl) completed
  have delivery : Delivery accented .utf8 (.ofGrammar accented) [0xC3, 0xA9, 0x61] _ none
      (0 + (2 + 1)) := .continued .patient ⟨[0xA9, 0x61], rfl⟩ cut_eq stopped
  have agrees := (Grammar.delivery_agrees_with_consume built (.ofRule _) rfl .utf8
    [0xC3, 0xA9, 0x61]).1 _ _ _ delivery
  exact ⟨built, _, delivery, agrees.1⟩

end StreamGrammar
