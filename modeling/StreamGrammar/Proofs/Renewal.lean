import StreamGrammar.Proofs.Simulation

/-!
# A reset begins anew

Nothing of an earlier parse has an influence on a later one. An engine that has been
reset differs from a new one only by what has been noted before and perhaps by a
request to stop that is still pending. The first is only added to, and the second is
dropped before it is asked for. So an engine and a new one, whatever is done with
both, give the same answers and come to the same state, as long as their consumers
do the same.
-/

namespace StreamGrammar

/-- The consumer who does what another one does who has been told of everything in `past` before. -/
def Consumer.after (consumer : Consumer) (past : Array Occurrence) : Consumer :=
  ⟨fun journal callback => consumer.cancels (past ++ journal) callback⟩

def Call.after (call : Call) (past : Array Occurrence) : Call :=
  match call with
  | .consume consumer encoding units => .consume (consumer.after past) encoding units
  | .endInput consumer => .endInput (consumer.after past)

/-- Something that is done with an engine. -/
inductive Operation : Type 1
  | calls (call : Call)
  | cancel
  | reset
  | resetTo (start : RuleId)

def Operation.after (operation : Operation) (past : Array Occurrence) : Operation :=
  match operation with
  | .calls call => .calls (call.after past)
  | other => other

namespace Engine

/-- The answer to a call, with the number of units taken if units have been handed over. -/
def answerTo (grammar : Grammar) (engine : Engine) : Call → Except CallError (Option Nat)
  | .consume consumer encoding units =>
      (engine.consume grammar consumer encoding units).1.map some
  | .endInput consumer => (engine.endInput grammar consumer).1.map fun _ => none

def answer? (grammar : Grammar) (engine : Engine) :
    Operation → Option (Except CallError (Option Nat))
  | .calls call => some (engine.answerTo grammar call)
  | _ => none

def afterOperation (grammar : Grammar) (engine : Engine) : Operation → Engine
  | .calls call => engine.afterCall grammar call
  | .cancel => engine.cancel
  | .reset => engine.reset
  | .resetTo start => engine.resetTo start

/-- The answers to operations that are performed one after the other. -/
def answers (grammar : Grammar) : Engine → List Operation →
    List (Option (Except CallError (Option Nat)))
  | _, [] => []
  | engine, operation :: rest =>
      engine.answer? grammar operation ::
        answers grammar (engine.afterOperation grammar operation) rest

def afterOperations (grammar : Grammar) (engine : Engine) (operations : List Operation) : Engine :=
  operations.foldl (afterOperation grammar) engine

/-- The engine if everything in `past` had been noted before and, where `asked`, a request to stop
were pending. -/
def withPast (engine : Engine) (past : Array Occurrence) (asked : Bool) : Engine :=
  engine.alter id (· || asked) (past ++ ·)

variable {grammar : Grammar} {engine fresh used : Engine} {past : Array Occurrence}
  {asked : Bool}

theorem withPast_note (consumer : Consumer) (occurrence : Occurrence) :
    (engine.note (consumer.after past) occurrence).withPast past asked =
      (engine.withPast past asked).note consumer occurrence := by
  simp only [withPast, note, alter, Consumer.after, Array.append_push, id]
  rw [Bool.or_right_comm]

theorem unnoticed_withPast (consumer : Consumer) (past : Array Occurrence) (asked : Bool) :
    Unnoticed id (· || asked) (past ++ ·) (consumer.after past) consumer :=
  fun _ occurrence _ => withPast_note consumer occurrence

theorem withPast_feed (consumer : Consumer) (symbol : Symbol) :
    (engine.feed grammar (consumer.after past) symbol).withPast past asked =
      (engine.withPast past asked).feed grammar consumer symbol :=
  alter_feed (unnoticed_withPast consumer past asked) symbol

/-- Units are taken in in the same way whatever has been noted before. -/
theorem withPast_takeUnits {Unit : Type} (past : Array Occurrence) (consumer : Consumer)
    (encoding : Encoding Unit) (units : List Unit) (taken : Nat) (engine : Engine) :
    (engine.withPast past false).takeUnits grammar consumer encoding units taken =
      ((engine.takeUnits grammar (consumer.after past) encoding units taken).1,
        (engine.takeUnits grammar (consumer.after past) encoding units taken).2.withPast past
          false) := by
  cases decoded : encoding.decode units with
  | incomplete => rw [takeUnits_of_incomplete decoded, takeUnits_of_incomplete decoded]
  | malformed malformation =>
      rw [takeUnits_of_malformed decoded, takeUnits_of_malformed decoded]
      exact congrArg _ (alter_fail (unnoticed_withPast consumer past false) _).symm
  | char character size =>
      have shorter := encoding.length_drop_lt decoded
      rw [takeUnits_of_char decoded, takeUnits_of_char decoded, ← withPast_feed]
      generalize engine.feed grammar (consumer.after past) (.char character) = fed
      have status_eq : (fed.withPast past false).status = fed.status := rfl
      have cancelled_eq : (fed.withPast past false).cancelled = fed.cancelled :=
        Bool.or_false _
      simp only [status_eq, cancelled_eq]
      split
      next =>
        split
        next => rw [withPast_note]
        next => exact withPast_takeUnits past consumer encoding (units.drop size) (taken + size) fed
      next => rfl
termination_by units.length
decreasing_by exact shorter

/-- One of the engines has a past that the other one does not have. -/
def Renews (past : Array Occurrence) (fresh used : Engine) : Prop :=
  ∃ asked, used = fresh.withPast past asked

namespace Renews

theorem calls (renews : Renews past fresh used) (grammar : Grammar) (call : Call) :
    used.answerTo grammar call = fresh.answerTo grammar (call.after past) ∧
      Renews past (fresh.afterCall grammar (call.after past)) (used.afterCall grammar call) := by
  rcases renews with ⟨asked, rfl⟩
  cases ongoing : fresh.status.isRunning with
  | false =>
      have usedEnded : (fresh.withPast past asked).status.isRunning = false := ongoing
      rw [(afterCall_of_ended grammar ongoing _).1, (afterCall_of_ended grammar usedEnded _).1]
      refine ⟨?_, asked, rfl⟩
      cases call with
      | consume =>
          simp only [answerTo, Call.after, consume, ongoing, usedEnded]
          rfl
      | endInput =>
          simp only [answerTo, Call.after, endInput, ongoing, usedEnded]
          rfl
  | true =>
      have usedRunning : (fresh.withPast past asked).status.isRunning = true := ongoing
      cases call with
      | consume consumer encoding units =>
          -- a request to stop that was pending is dropped
          have taken : { fresh.withPast past asked with cancelled := false }.takeUnits grammar
              consumer encoding units 0 = _ :=
            withPast_takeUnits past consumer encoding units 0 { fresh with cancelled := false }
          simp only [answerTo, Engine.afterCall, Call.after, consume, ongoing, usedRunning, if_true,
            taken]
          exact ⟨rfl, false, rfl⟩
      | endInput consumer =>
          simp only [answerTo, Engine.afterCall, Call.after, endInput, ongoing, usedRunning,
            if_true, ← withPast_feed]
          exact ⟨rfl, asked, rfl⟩

theorem afterOperation (renews : Renews past fresh used) (grammar : Grammar)
    (operation : Operation) :
    used.answer? grammar operation = fresh.answer? grammar (operation.after past) ∧
      Renews past (fresh.afterOperation grammar (operation.after past))
        (used.afterOperation grammar operation) := by
  cases operation with
  | calls call =>
      rcases renews.calls grammar call with ⟨answer_eq, after⟩
      exact ⟨congrArg some answer_eq, after⟩
  | cancel =>
      rcases renews with ⟨asked, rfl⟩
      exact ⟨rfl, asked, rfl⟩
  | reset =>
      rcases renews with ⟨asked, rfl⟩
      exact ⟨rfl, asked, rfl⟩
  | resetTo start =>
      rcases renews with ⟨asked, rfl⟩
      exact ⟨rfl, asked, rfl⟩

theorem afterOperations (renews : Renews past fresh used) (grammar : Grammar)
    (operations : List Operation) :
    used.answers grammar operations = fresh.answers grammar (operations.map (·.after past)) ∧
      Renews past (fresh.afterOperations grammar (operations.map (·.after past)))
        (used.afterOperations grammar operations) := by
  induction operations generalizing fresh used with
  | nil => exact ⟨rfl, renews⟩
  | cons operation rest ih =>
      rcases renews.afterOperation grammar operation with ⟨answer_eq, after⟩
      rcases ih after with ⟨answers_eq, final⟩
      refine ⟨?_, final⟩
      rw [answers, List.map_cons, answers, answer_eq, answers_eq]

theorem callbacks_eq (renews : Renews past fresh used) :
    used.callbacks = past.toList.filterMap Occurrence.callback? ++ fresh.callbacks := by
  rcases renews with ⟨asked, rfl⟩
  simp [callbacks, withPast, alter]

end Renews

end Engine

end StreamGrammar
