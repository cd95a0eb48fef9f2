import StreamGrammar.Engine

/-!
# What a consumer can change

A consumer can ask the engine to stop, and that is noted, but it changes nothing
else: with the requests and their notes left out, an engine does the same with every
consumer. The reason is that the steps of an engine look neither at requests to stop
nor at what has been noted. Nor do they look at what waits, except to consume it.
-/

namespace StreamGrammar

/-- The selection of occurrences drops at most the notes that a call ended early. -/
def Occurrence.KeepsParse (keep : Occurrence → Bool) : Prop :=
  ∀ occurrence, (∀ units, occurrence ≠ .cancelled units) → keep occurrence = true

namespace Engine

/-- The engine with a change to what waits, to whether it has been asked to stop, and to what has
been noted. -/
def alter (waits : Lookahead → Lookahead) (asked : Bool → Bool)
    (notes : Array Occurrence → Array Occurrence) (engine : Engine) : Engine :=
  { engine with
    lookahead := waits engine.lookahead
    cancelled := asked engine.cancelled
    journal := notes engine.journal }

/-- It makes no difference whether the change comes before a note or, with another consumer, after
it. -/
def Unnoticed (waits : Lookahead → Lookahead) (asked : Bool → Bool)
    (notes : Array Occurrence → Array Occurrence) (consumer other : Consumer) : Prop :=
  ∀ (engine : Engine) (occurrence : Occurrence), (∀ units, occurrence ≠ .cancelled units) →
    (engine.note consumer occurrence).alter waits asked notes =
      (engine.alter waits asked notes).note other occurrence

section Alter

variable {waits : Lookahead → Lookahead} {asked : Bool → Bool}
  {notes : Array Occurrence → Array Occurrence} {grammar : Grammar} {consumer other : Consumer}
  {engine : Engine}

theorem alter_fail (unnoticed : Unnoticed waits asked notes consumer other)
    (cause : FailureCause) : (engine.fail consumer cause).alter waits asked notes =
      (engine.alter waits asked notes).fail other cause :=
  unnoticed _ _ (by simp)

theorem alter_perform (unnoticed : Unnoticed waits asked notes consumer other) (action : Action) :
    (engine.perform consumer action).alter waits asked notes =
      (engine.alter waits asked notes).perform other action := by
  cases action with
  | none => rfl
  | beginCapture => exact unnoticed _ _ (by simp)
  | event name => exact unnoticed _ _ (by simp)
  | publish name trimStart trimEnd =>
      simp only [perform]
      have capture_eq : (engine.alter waits asked notes).capture = engine.capture := rfl
      rw [capture_eq]
      cases engine.capture.finish? trimStart trimEnd with
      | none => exact alter_fail unnoticed _
      | some published => exact unnoticed _ _ (by simp)

theorem alter_enter (unnoticed : Unnoticed waits asked notes consumer other) (node : Frame) :
    (engine.enter grammar consumer node).alter waits asked notes =
      (engine.alter waits asked notes).enter grammar other node := by
  rw [enter, alter_perform unnoticed, unnoticed _ _ (by simp)]
  rfl

theorem alter_moveTo (unnoticed : Unnoticed waits asked notes consumer other) (node : NodeId) :
    (engine.moveTo grammar consumer node).alter waits asked notes =
      (engine.alter waits asked notes).moveTo grammar other node := by
  have stack_eq : (engine.alter waits asked notes).stack = engine.stack := rfl
  simp only [moveTo, stack_eq]
  cases engine.stack with
  | nil => rfl
  | cons top below => exact alter_enter unnoticed _

theorem alter_call (unnoticed : Unnoticed waits asked notes consumer other) (rule : RuleId)
    (resume : NodeId) :
    (engine.call grammar consumer rule resume).alter waits asked notes =
      (engine.alter waits asked notes).call grammar other rule resume := by
  rw [call, alter_enter unnoticed, unnoticed _ _ (by simp)]
  rfl

theorem alter_leave (unnoticed : Unnoticed waits asked notes consumer other) :
    (engine.leave grammar consumer).alter waits asked notes =
      (engine.alter waits asked notes).leave grammar other := by
  have stack_eq : (engine.alter waits asked notes).stack = engine.stack := rfl
  simp only [leave, stack_eq]
  cases engine.stack with
  | nil => rfl
  | cons top below =>
      cases below with
      | nil => exact unnoticed _ _ (by simp)
      | cons caller rest =>
          simp only
          rw [alter_enter unnoticed, unnoticed _ _ (by simp)]
          rfl

/-- What waits matters only to a step that consumes, once it has moved. -/
theorem alter_takeStep (unnoticed : Unnoticed waits asked notes consumer other) {step : Step}
    (commits : ∀ matcher target, step = .consume matcher target →
      (engine.moveTo grammar consumer target).commit.alter waits asked notes =
        ((engine.moveTo grammar consumer target).alter waits asked notes).commit) :
    (engine.takeStep grammar consumer step).alter waits asked notes =
      (engine.alter waits asked notes).takeStep grammar other step := by
  cases step with
  | call rule resume => exact alter_call unnoticed rule resume
  | goto node => exact alter_moveTo unnoticed node
  | leave => exact alter_leave unnoticed
  | consume matcher target =>
      have status_eq : (engine.moveTo grammar consumer target).status =
          ((engine.alter waits asked notes).moveTo grammar other target).status := by
        rw [← alter_moveTo unnoticed]
        rfl
      simp only [takeStep, status_eq]
      split
      next => rw [commits matcher target rfl, alter_moveTo unnoticed]
      next => exact alter_moveTo unnoticed target

theorem alter_enterStart (unnoticed : Unnoticed waits asked notes consumer other) :
    (engine.enterStart grammar consumer).alter waits asked notes =
      (engine.alter waits asked notes).enterStart grammar other := by
  have entered_eq : (engine.alter waits asked notes).entered = engine.entered := rfl
  have stack_eq : (engine.alter waits asked notes).stack = engine.stack := rfl
  simp only [enterStart, entered_eq, stack_eq]
  split
  next => rfl
  next =>
    split
    next => rfl
    next top below _ => exact alter_enter unnoticed top

end Alter

section Keeping

variable {asked : Bool → Bool} {notes : Array Occurrence → Array Occurrence} {grammar : Grammar}
  {consumer other : Consumer} {engine : Engine}

theorem alter_commit : engine.commit.alter id asked notes =
    (engine.alter id asked notes).commit := by
  have lookahead_eq : (engine.alter id asked notes).lookahead = engine.lookahead := rfl
  simp only [commit, lookahead_eq]
  split <;> rfl

theorem alter_takePath (unnoticed : Unnoticed id asked notes consumer other) (path : Path) :
    (engine.takePath grammar consumer path).alter id asked notes =
      (engine.alter id asked notes).takePath grammar other path := by
  induction path generalizing engine with
  | nil => rfl
  | cons step rest ih =>
      have status_eq : (engine.alter id asked notes).status = engine.status := rfl
      simp only [takePath, List.foldl_cons, status_eq] at ih ⊢
      rw [ih]
      split
      next => rw [alter_takeStep unnoticed fun _ _ _ => alter_commit]
      next => rfl

theorem alter_finish (unnoticed : Unnoticed id asked notes consumer other) (symbol : Symbol) :
    (engine.finish consumer symbol).alter id asked notes =
      (engine.alter id asked notes).finish other symbol := by
  cases symbol with
  | char character => exact alter_fail unnoticed _
  | endOfInput =>
      have capture_eq : (engine.alter id asked notes).capture = engine.capture := rfl
      simp only [finish, capture_eq]
      split
      next => exact alter_fail unnoticed _
      next => exact unnoticed _ _ (by simp)

def Progress.alter (asked : Bool → Bool) (notes : Array Occurrence → Array Occurrence) :
    Progress → Progress
  | .settled engine => .settled (engine.alter id asked notes)
  | .ongoing engine => .ongoing (engine.alter id asked notes)

theorem alter_progress : engine.progress.alter asked notes =
    (engine.alter id asked notes).progress := by
  have status_eq : (engine.alter id asked notes).status = engine.status := rfl
  simp only [progress, status_eq]
  split <;> rfl

theorem alter_advance (unnoticed : Unnoticed id asked notes consumer other) (engine : Engine) :
    (engine.advance grammar consumer).alter asked notes =
      (engine.alter id asked notes).advance grammar other := by
  have lookahead_eq : (engine.alter id asked notes).lookahead = engine.lookahead := rfl
  have stack_eq : (engine.alter id asked notes).stack = engine.stack := rfl
  simp only [advance, lookahead_eq, stack_eq]
  split
  next => rfl
  next symbol _ _ => exact congrArg Progress.settled (alter_finish unnoticed symbol)
  next =>
    split
    next =>
      rw [alter_progress]
      exact congrArg progress (alter_leave unnoticed)
    next routes _ =>
      split
      next => rfl
      next path _ => rw [alter_progress, alter_takePath unnoticed]
      next => exact congrArg Progress.settled (alter_fail unnoticed _)

theorem alter_settleWithin (unnoticed : Unnoticed id asked notes consumer other)
    (symbols rules : Nat) (engine : Engine) :
    (engine.settleWithin grammar consumer symbols rules).alter id asked notes =
      (engine.alter id asked notes).settleWithin grammar other symbols rules := by
  rw [settleWithin, settleWithin, ← alter_advance unnoticed engine]
  cases engine.advance grammar consumer with
  | settled last => rfl
  | ongoing next =>
      have lookahead_eq : (next.alter id asked notes).lookahead = next.lookahead := rfl
      have stack_eq : (next.alter id asked notes).stack = next.stack := rfl
      simp only [Progress.alter, lookahead_eq, stack_eq]
      by_cases closer : next.lookahead.length < symbols ∨
          next.lookahead.length = symbols ∧ next.stack.length < rules
      · rw [if_pos closer, if_pos closer]
        exact alter_settleWithin unnoticed next.lookahead.length next.stack.length next
      · rw [if_neg closer, if_neg closer]
termination_by (symbols, rules)
decreasing_by
  rcases closer with fewer | ⟨same, fewer⟩
  · exact Prod.Lex.left _ _ fewer
  · exact Prod.Lex.right' _ (Nat.le_of_eq same) fewer

/-- An engine that settles once the start rule has been entered does so whatever it has been asked
for and has noted. -/
theorem alter_settle_enterStart (unnoticed : Unnoticed id asked notes consumer other)
    (grammar : Grammar) (engine : Engine) :
    (if (engine.enterStart grammar consumer).status.isRunning then
        (engine.enterStart grammar consumer).settle grammar consumer
      else engine.enterStart grammar consumer).alter id asked notes =
      if ((engine.alter id asked notes).enterStart grammar other).status.isRunning then
        ((engine.alter id asked notes).enterStart grammar other).settle grammar other
      else (engine.alter id asked notes).enterStart grammar other := by
  have settles (entered : Engine) : (entered.settle grammar consumer).alter id asked notes =
      (entered.alter id asked notes).settle grammar other :=
    alter_settleWithin unnoticed entered.lookahead.length entered.stack.length entered
  rw [← alter_enterStart unnoticed]
  split
  next running =>
    rw [settles]
    exact (if_pos running).symm
  next ended => exact (if_neg ended).symm

theorem alter_feed (unnoticed : Unnoticed id asked notes consumer other) (symbol : Symbol) :
    (engine.feed grammar consumer symbol).alter id asked notes =
      (engine.alter id asked notes).feed grammar other symbol :=
  alter_settle_enterStart unnoticed grammar
    { engine with lookahead := engine.lookahead.push symbol }

end Keeping

/-- The engine without requests to stop, and with only some of its notes. -/
def erase (keep : Occurrence → Bool) (engine : Engine) : Engine :=
  { engine with cancelled := false, journal := engine.journal.filter keep }

variable {keep : Occurrence → Bool} {grammar : Grammar} {consumer : Consumer} {engine : Engine}

theorem unnoticed_erase (keeps : Occurrence.KeepsParse keep) (consumer : Consumer) :
    Unnoticed id (fun _ => false) (·.filter keep) consumer .patient := by
  intro engine occurrence kept
  simp only [note, alter, Consumer.patient, Array.filter_push, keeps occurrence kept, if_true,
    Bool.false_or]
  split <;> rfl

theorem erase_fail (keeps : Occurrence.KeepsParse keep) (cause : FailureCause) :
    (engine.fail consumer cause).erase keep = (engine.erase keep).fail .patient cause :=
  alter_fail (unnoticed_erase keeps consumer) cause

/-- With requests to stop left out, every consumer makes the engine do the same with what waits. -/
theorem erase_settle_enterStart (grammar : Grammar) (consumer : Consumer) (engine : Engine)
    (keeps : Occurrence.KeepsParse keep) :
    (if (engine.enterStart grammar consumer).status.isRunning then
        (engine.enterStart grammar consumer).settle grammar consumer
      else engine.enterStart grammar consumer).erase keep =
      if ((engine.erase keep).enterStart grammar .patient).status.isRunning then
        ((engine.erase keep).enterStart grammar .patient).settle grammar .patient
      else (engine.erase keep).enterStart grammar .patient :=
  alter_settle_enterStart (unnoticed_erase keeps consumer) grammar engine

/-- With requests to stop left out, every consumer makes the engine do the same with a symbol. -/
theorem erase_feed (keeps : Occurrence.KeepsParse keep) (symbol : Symbol) :
    (engine.feed grammar consumer symbol).erase keep =
      (engine.erase keep).feed grammar .patient symbol :=
  alter_feed (unnoticed_erase keeps consumer) symbol

theorem cancelled_feed_patient (grammar : Grammar) (uncancelled : engine.cancelled = false)
    (symbol : Symbol) : (engine.feed grammar .patient symbol).cancelled = false := by
  have keeps : Occurrence.KeepsParse fun _ => true := by
    intro _ _
    rfl
  have same : engine.erase (fun _ => true) = engine := by
    have journal_eq : engine.journal.filter (fun _ => true) = engine.journal :=
      Array.filter_eq_self.mpr fun _ _ => rfl
    rw [erase, journal_eq, ← uncancelled]
  have erased : (engine.feed grammar .patient symbol).erase (fun _ => true) =
      (engine.erase fun _ => true).feed grammar .patient symbol := erase_feed keeps symbol
  rw [same] at erased
  rw [← erased]
  rfl

end Engine

end StreamGrammar
