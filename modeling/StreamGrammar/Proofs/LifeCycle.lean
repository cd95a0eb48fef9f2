import StreamGrammar.Proofs.Histories
import StreamGrammar.Proofs.Renewal

/-!
# The life cycle of a parse

A parse goes on until it succeeds or fails, which its consumer is told once and last.
The call that makes it fail is answered by the error whose message the consumer is
told. From then on calls are refused, until a reset begins a new parse, in which
nothing is left of the old one.
-/

namespace StreamGrammar

theorem Occurrence.callback?_of_isMinor {occurrence : Occurrence}
    (minor : occurrence.isMinor = true) : occurrence.callback? = none := by
  cases occurrence with
  | rulePushed | rulePopped | cancelled => rfl
  | _ => cases minor

/-- The consumer is told that the parse has ended. -/
def Callback.endsParse : Callback → Bool
  | .fatalError _ | .success => true
  | _ => false

namespace Status

variable {status : Status}

theorem endsParse_of_callback? {callback : Callback} (last : status.callback? = some callback) :
    callback.endsParse = true := by
  cases status with
  | running => cases last
  | succeeded | failed =>
      cases last
      rfl

end Status

namespace Engine

variable {graph : Graph} {maxLookahead : Nat} {begun engine after : Engine}
  {moments further : List Moment}

/-- The consumer has been told of captures, publications and events, and then, if the parse has
ended, how. -/
def Tells (engine : Engine) (moments : List Moment) : Prop :=
  ∃ ordinary, (∀ callback ∈ ordinary, callback.endsParse = false) ∧
    Moment.callbacks moments = ordinary ++ engine.status.callback?.toList

namespace Tells

/-- While the parse goes on the consumer may be told more, and in the end that it has ended. -/
theorem append (tells : engine.Tells moments) (running : engine.status = .running)
    {more : List Callback} (ordinary : ∀ callback ∈ more, callback.endsParse = false)
    (further_eq : Moment.callbacks further = more ++ after.status.callback?.toList) :
    after.Tells (moments ++ further) := by
  rcases tells with ⟨earlier, earlierOrdinary, moments_eq⟩
  refine ⟨earlier ++ more, ?_, ?_⟩
  · intro callback told
    rcases List.mem_append.mp told with before | now
    · exact earlierOrdinary callback before
    · exact ordinary callback now
  · have goesOn : engine.status.callback? = none := by rw [running, Status.callback?]
    rw [Moment.callbacks_append, moments_eq, goesOn, further_eq, Option.toList_none,
      List.append_nil, List.append_assoc]

theorem goesOn (tells : engine.Tells moments) (running : engine.status = .running)
    (still : after.status = .running)
    (ordinary : ∀ callback ∈ Moment.callbacks further, callback.endsParse = false) :
    after.Tells (moments ++ further) := by
  refine tells.append running ordinary ?_
  rw [still, Status.callback?, Option.toList_none, List.append_nil]

theorem ends (tells : engine.Tells moments) (running : engine.status = .running)
    (further_eq : Moment.callbacks further = after.status.callback?.toList) :
    after.Tells (moments ++ further) := by
  have nothing : ∀ callback ∈ ([] : List Callback), callback.endsParse = false := by simp
  exact tells.append running nothing further_eq

theorem step (tells : engine.Tells moments)
    (effect : Effect graph maxLookahead engine further after) :
    after.Tells (moments ++ further) := by
  cases effect with
  | asks =>
      rw [List.append_nil]
      exact tells
  | begins running | moves running | arrives running =>
      exact tells.goesOn running running (List.forall_mem_nil _)
  | consumes running waits =>
      have still : engine.commit.status = .running := by
        rw [commit_char waits]
        exact running
      exact tells.goesOn running still (List.forall_mem_nil _)
  | @notes running occurrence minor =>
      have nothing : Moment.callbacks [.noted occurrence] = [] := by
        simp [Moment.callbacks, Moment.occurrences, Moment.occurrence?,
          Occurrence.callback?_of_isMinor minor]
      exact tells.goesOn running running (by simp [nothing])
  | enters running _ entry =>
      cases entry with
      | passes => exact tells.goesOn running running (List.forall_mem_nil _)
      | opens | publishes | announces =>
          refine tells.goesOn running running ?_
          intro callback told
          cases List.mem_singleton.mp told
          rfl
      | underflows => exact tells.ends running rfl
  | ends running ending => cases ending <;> exact tells.ends running rfl

/-- That the parse has ended is told exactly if it has, and as it has. -/
theorem mem_iff (tells : engine.Tells moments) {callback : Callback}
    (last : callback.endsParse = true) :
    callback ∈ Moment.callbacks moments ↔ engine.status.callback? = some callback := by
  rcases tells with ⟨earlier, ordinary, moments_eq⟩
  have unmentioned : callback ∉ earlier := by
    intro told
    rw [ordinary callback told] at last
    cases last
  rw [moments_eq, List.mem_append, Option.mem_toList]
  constructor
  · intro told
    rcases told with before | now
    · exact absurd before unmentioned
    · exact now
  · exact .inr

/-- The parse goes on exactly if no end of it is told. -/
theorem running_iff (tells : engine.Tells moments) :
    engine.status = .running ↔
      ∀ callback ∈ Moment.callbacks moments, callback.endsParse = false := by
  constructor
  · intro running callback told
    cases last : callback.endsParse with
    | false => rfl
    | true =>
        rw [tells.mem_iff last, running] at told
        cases told
  · intro ordinary
    cases callback_eq : engine.status.callback? with
    | none =>
        cases status_eq : engine.status with
        | running => rfl
        | succeeded | failed =>
            rw [status_eq] at callback_eq
            cases callback_eq
    | some callback =>
        have last := Status.endsParse_of_callback? callback_eq
        have told := (tells.mem_iff last).mpr callback_eq
        rw [ordinary callback told] at last
        cases last

end Tells

theorem History.tells (history : History graph maxLookahead begun moments engine)
    (begins : begun.status = .running) : engine.Tells moments := by
  induction history with
  | refl =>
      refine ⟨[], by simp, ?_⟩
      rw [begins]
      rfl
  | step _ effect ih => exact ih.step effect

end Engine

namespace Engine

variable {grammar : Grammar} {engine : Engine}

/-- A call that is not refused is answered by an error exactly if the parse fails. -/
theorem answerTo_eq_error_iff (running : engine.status.isRunning = true) (call : Call)
    (failure : Failure) :
    engine.answerTo grammar call = .error (.parseFailed failure) ↔
      (engine.afterCall grammar call).status = .failed failure := by
  cases call with
  | consume consumer encoding units =>
      simp only [answerTo, afterCall, consume, running, if_true]
      generalize takeUnits grammar consumer encoding units 0 { engine with cancelled := false } =
        taken
      cases status_eq : taken.2.status <;> simp [answer, status_eq, Except.map]
  | endInput consumer =>
      simp only [answerTo, afterCall, endInput, running, if_true]
      generalize engine.feed grammar consumer .endOfInput = fed
      cases status_eq : fed.status <;> simp [answer, status_eq, Except.map]

/-- Calls are refused once the parse has ended. -/
theorem refuses (ended : engine.status ≠ .running) (grammar : Grammar) (consumer : Consumer) :
    (∀ (Unit : Type) (encoding : Encoding Unit) (units : List Unit),
        engine.consume grammar consumer encoding units =
          (.error (.notRunning engine.status), engine)) ∧
      engine.endInput grammar consumer = (.error (.notRunning engine.status), engine) := by
  have notRunning : ¬ engine.status.isRunning = true := by
    intro isRunning
    exact ended (status_of_isRunning isRunning)
  constructor
  · intro Unit encoding units
    rw [consume, if_neg notRunning]
  · rw [endInput, if_neg notRunning]

theorem answerTo_of_ended (ended : engine.status ≠ .running) (grammar : Grammar) (call : Call) :
    engine.answerTo grammar call = .error (.notRunning engine.status) := by
  cases call with
  | consume consumer encoding units =>
      rw [answerTo, (refuses ended grammar consumer).1]
      rfl
  | endInput consumer =>
      rw [answerTo, (refuses ended grammar consumer).2]
      rfl

end Engine

section Session

variable {grammar : Grammar} {limits : ResolutionLimits} {told : List Callback}
  {moments : List Moment} {engine : Engine}

theorem Session.tells (session : Session grammar told moments engine)
    (resolved : grammar.IsResolved limits) : engine.Tells moments := by
  rcases session.history resolved with ⟨before, start, _, history⟩
  exact history.tells rfl

end Session

end StreamGrammar
