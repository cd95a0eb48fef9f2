import StreamGrammar.Proofs.Moments
import StreamGrammar.Proofs.Waiting

/-!
# Histories

Whatever an engine is used for, it changes by a few effects only: symbols arrive and
are consumed, rules and nodes are moved to, nodes perform their actions, and the
parse ends. Every call is a history of such effects, with the moments that the call
has. So what each effect preserves holds of every engine in use.
-/

namespace StreamGrammar

/-- An occurrence that neither a node's action nor the end of the parse brings about. -/
def Occurrence.isMinor : Occurrence → Bool
  | .rulePushed _ | .rulePopped _ | .cancelled _ => true
  | _ => false

namespace Engine

/-- What entering a node does: the occurrences that are noted, and the captures and the status of
the parse after that. -/
inductive Entry (graph : Graph) (engine : Engine) (node : Frame) :
    List Occurrence → CaptureBuffer → Status → Prop
  | passes (action_eq : graph.action node = .none) :
      Entry graph engine node [.nodeEntered node] engine.capture engine.status
  | opens (action_eq : graph.action node = .beginCapture) :
      Entry graph engine node [.nodeEntered node, .captureStarted] engine.capture.begin
        engine.status
  | publishes {name text : String} {trimStart trimEnd : Nat} {rest : CaptureBuffer}
      (action_eq : graph.action node = .publish name trimStart trimEnd)
      (finished : engine.capture.finish? trimStart trimEnd = some (text, rest)) :
      Entry graph engine node [.nodeEntered node, .published name text] rest engine.status
  | announces {name : String} (action_eq : graph.action node = .event name) :
      Entry graph engine node [.nodeEntered node, .eventAnnounced name] engine.capture
        engine.status
  | underflows {name : String} {trimStart trimEnd : Nat}
      (action_eq : graph.action node = .publish name trimStart trimEnd)
      (unopened : engine.capture.starts = []) :
      Entry graph engine node
        [.nodeEntered node, .failed ⟨.captureUnderflow name, engine.location⟩] engine.capture
        (.failed ⟨.captureUnderflow name, engine.location⟩)

/-- How a parse ends other than at a node that publishes without an open capture: what is noted,
what still waits, and the status. -/
inductive Ending (engine : Engine) : Occurrence → Lookahead → Status → Prop
  | malformed (unended : engine.lookahead.hasEnd = false) (malformation : Malformation) :
      Ending engine (.failed ⟨.decoding malformation, engine.location⟩) engine.lookahead
        (.failed ⟨.decoding malformation, engine.location⟩)
  | rejected {symbol : Symbol} (front_eq : engine.lookahead.front? = some symbol)
      (goesOn : engine.stack = [] → symbol ≠ .endOfInput) (expected : List String) :
      Ending engine (.failed ⟨.syntaxError engine.lookahead.text expected, engine.location⟩)
        engine.lookahead (.failed ⟨.syntaxError engine.lookahead.text expected, engine.location⟩)
  | unterminated (left : engine.stack = []) (opened : engine.capture.isCapturing = true)
      (ended : engine.lookahead = .holding [] true) :
      Ending engine (.failed ⟨.unterminatedCapture engine.capture.depth, engine.location⟩)
        engine.lookahead (.failed ⟨.unterminatedCapture engine.capture.depth, engine.location⟩)
  | succeeds (left : engine.stack = []) (closed : engine.capture.isCapturing = false)
      (ended : engine.lookahead = .holding [] true) :
      Ending engine (.succeeded engine.location) .empty .succeeded

/-- One effect on an engine, with its moments. Requests to stop come and go at any time, everything
else happens only while the parse goes on. At most `maxLookahead` symbols ever wait. -/
inductive Effect (graph : Graph) (maxLookahead : Nat) (engine : Engine) :
    List Moment → Engine → Prop
  | asks (cancelled : Bool) : Effect graph maxLookahead engine [] { engine with cancelled }
  | begins (running : engine.status = .running) :
      Effect graph maxLookahead engine [] { engine with entered := true }
  | moves (running : engine.status = .running) (stack : List Frame) :
      Effect graph maxLookahead engine [] { engine with stack }
  | arrives (running : engine.status = .running) (unended : engine.lookahead.hasEnd = false)
      (short : engine.lookahead.length < maxLookahead) (symbol : Symbol) :
      Effect graph maxLookahead engine [.arrived engine.lookahead symbol]
        { engine with lookahead := engine.lookahead.push symbol }
  | consumes (running : engine.status = .running) {character : Char} {rest : List Symbol}
      (waits : engine.lookahead.symbols = .char character :: rest) :
      Effect graph maxLookahead engine [.consumed (some (.char character))] engine.commit
  | notes (running : engine.status = .running) {occurrence : Occurrence}
      (minor : occurrence.isMinor = true) (cancelled : Bool) :
      Effect graph maxLookahead engine [.noted occurrence]
        { engine with cancelled, journal := engine.journal.push occurrence }
  | enters (running : engine.status = .running) {node : Frame} {below : List Frame}
      (stack_eq : engine.stack = node :: below) {occurrences : List Occurrence}
      {capture : CaptureBuffer} {status : Status}
      (entry : Entry graph engine node occurrences capture status) (cancelled : Bool)
      {journal : Array Occurrence}
      (journal_eq : journal.toList = engine.journal.toList ++ occurrences) :
      Effect graph maxLookahead engine (occurrences.map .noted)
        { engine with capture, status, cancelled, journal }
  | ends (running : engine.status = .running) {occurrence : Occurrence} {lookahead : Lookahead}
      {status : Status} (ending : Ending engine occurrence lookahead status) (cancelled : Bool) :
      Effect graph maxLookahead engine [.noted occurrence]
        { engine with lookahead, status, cancelled, journal := engine.journal.push occurrence }

/-- The effects that have made an engine another one, with all their moments. -/
inductive History (graph : Graph) (maxLookahead : Nat) (begun : Engine) :
    List Moment → Engine → Prop
  | refl : History graph maxLookahead begun [] begun
  | step {moments further : List Moment} {engine after : Engine}
      (before : History graph maxLookahead begun moments engine)
      (effect : Effect graph maxLookahead engine further after) :
      History graph maxLookahead begun (moments ++ further) after

variable {graph : Graph} {grammar : Grammar} {consumer : Consumer} {limits : ResolutionLimits}
  {maxLookahead : Nat} {begun engine middle after : Engine} {moments further : List Moment}

namespace History

theorem single (effect : Effect graph maxLookahead engine moments after) :
    History graph maxLookahead engine moments after := by
  have history := History.refl.step effect
  rw [List.nil_append] at history
  exact history

theorem trans (first : History graph maxLookahead engine moments middle)
    (second : History graph maxLookahead middle further after) :
    History graph maxLookahead engine (moments ++ further) after := by
  induction second with
  | refl =>
      rw [List.append_nil]
      exact first
  | step _ effect ih =>
      rw [← List.append_assoc]
      exact ih.step effect

theorem journal_eq (history : History graph maxLookahead engine moments after) :
    after.journal.toList = engine.journal.toList ++ Moment.occurrences moments := by
  induction history with
  | refl => simp
  | step _ effect ih =>
      rw [Moment.occurrences_append, ← List.append_assoc, ← ih]
      cases effect with
      | asks | begins | moves | arrives => simp [Moment.occurrences, Moment.occurrence?]
      | consumes _ waits => simp [commit_char waits, Moment.occurrences, Moment.occurrence?]
      | notes | ends => simp [Moment.occurrences, Moment.occurrence?]
      | enters _ _ _ _ journal_eq => simpa using journal_eq

/-- Every moment comes with one effect, before and after which are the other moments. -/
theorem exists_effect (history : History graph maxLookahead begun moments engine)
    {before later : List Moment} {moment : Moment}
    (moments_eq : moments = before ++ moment :: later) :
    ∃ earlier front back rest last next,
      History graph maxLookahead begun earlier last ∧
      Effect graph maxLookahead last (front ++ moment :: back) next ∧
      History graph maxLookahead next rest engine ∧
      before = earlier ++ front ∧ later = back ++ rest := by
  induction history generalizing later with
  | refl => simp at moments_eq
  | @step moments further engine after history effect ih =>
      rcases List.append_eq_append_iff.mp moments_eq with
        ⟨front, rfl, rfl⟩ | ⟨others, rfl, split_eq⟩
      · exact ⟨moments, front, later, [], engine, after, history, effect, .refl, rfl,
          (List.append_nil later).symm⟩
      · cases others with
        | nil =>
            have further_eq : further = [] ++ moment :: later := split_eq.symm
            rw [further_eq] at effect
            rw [List.append_nil] at history
            exact ⟨before, [], later, [], engine, after, history, effect, .refl,
              (List.append_nil before).symm, (List.append_nil later).symm⟩
        | cons other others =>
            rw [List.cons_append, List.cons.injEq] at split_eq
            rcases split_eq with ⟨rfl, rfl⟩
            rcases ih rfl with ⟨earlier, front, back, rest, last, next, toLast, atLast, fromNext,
              before_eq, others_eq⟩
            refine ⟨earlier, front, back, rest ++ further, last, next, toLast, atLast,
              fromNext.step effect, before_eq, ?_⟩
            rw [others_eq, List.append_assoc]

theorem exists_effect_of_mem (history : History graph maxLookahead begun moments engine)
    {moment : Moment} (moment_mem : moment ∈ moments) :
    ∃ last further next, Effect graph maxLookahead last further next ∧ moment ∈ further := by
  rcases List.append_of_mem moment_mem with ⟨before, later, moments_eq⟩
  rcases history.exists_effect moments_eq with ⟨_, front, back, _, last, next, _, effect, _⟩
  exact ⟨last, _, next, effect, by simp⟩

/-- What is noted about a node comes with the entry of that node. -/
theorem exists_entry (history : History graph maxLookahead begun moments engine)
    {before later : List Moment} {occurrence : Occurrence}
    (moments_eq : moments = before ++ .noted occurrence :: later)
    (major : occurrence.isMinor = false)
    (unending : ∀ last lookahead status, ¬ Ending last occurrence lookahead status) :
    ∃ earlier front back rest last next node capture status,
      History graph maxLookahead begun earlier last ∧
      Entry graph last node (front ++ occurrence :: back) capture status ∧
      History graph maxLookahead next rest engine ∧ next.status = status ∧
      next.location = last.location ∧ before = earlier ++ front.map .noted ∧
      later = back.map .noted ++ rest := by
  rcases history.exists_effect moments_eq with
    ⟨earlier, front, back, rest, last, next, toLast, effect, fromNext, before_eq, later_eq⟩
  generalize further_eq : front ++ .noted occurrence :: back = further at effect
  have now : .noted occurrence ∈ further := by simp [← further_eq]
  cases effect with
  | asks | begins | moves | arrives | consumes => simp at now
  | notes _ minor =>
      cases List.mem_singleton.mp now
      rw [major] at minor
      cases minor
  | ends _ ending =>
      cases List.mem_singleton.mp now
      exact absurd ending (unending _ _ _)
  | enters _ _ entry =>
      rcases List.map_eq_append_iff.mp further_eq.symm with
        ⟨entered, performed, rfl, rfl, performed_eq⟩
      rcases List.map_eq_cons_iff.mp performed_eq with ⟨_, others, rfl, noted_eq, rfl⟩
      cases noted_eq
      exact ⟨earlier, entered, others, rest, last, _, _, _, _, toLast, entry, fromNext, rfl, rfl,
        before_eq, later_eq⟩

/-- Where nothing else has happened, the moments are those that have been noted. -/
theorem of_noted {occurrences : List Occurrence}
    (history : History graph maxLookahead engine (occurrences.map .noted) after) :
    History graph maxLookahead engine (engine.notedUntil after) after := by
  have noted_eq : engine.notedUntil after = occurrences.map .noted := by
    rw [notedUntil, history.journal_eq, Moment.occurrences_noted]
    simp
  rw [noted_eq]
  exact history

end History

theorem commit_journal : engine.commit.journal = engine.journal := by
  simp only [commit]
  split <;> rfl

theorem starts_of_finish?_eq_none {buffer : CaptureBuffer} {trimStart trimEnd : Nat}
    (missing : buffer.finish? trimStart trimEnd = none) : buffer.starts = [] :=
  List.length_eq_zero_iff.mp (CaptureBuffer.finish?_eq_none missing)

theorem Entry.effect {node : Frame} {below : List Frame} {occurrences : List Occurrence}
    {capture : CaptureBuffer} {status : Status}
    (entry : Entry graph engine node occurrences capture status)
    (running : engine.status = .running) (stack_eq : engine.stack = node :: below)
    (after_eq : after =
      { engine with capture, status, cancelled := after.cancelled, journal := after.journal })
    (journal_eq : after.journal.toList = engine.journal.toList ++ occurrences) :
    Effect graph maxLookahead engine (occurrences.map .noted) after := by
  rw [after_eq]
  exact .enters running stack_eq entry _ journal_eq

/-- Entering the innermost node performs its action. -/
theorem exists_enter_effect (grammar : Grammar) (maxLookahead : Nat) (consumer : Consumer)
    (running : engine.status = .running) {node : Frame} {below : List Frame}
    (stack_eq : engine.stack = node :: below) :
    ∃ occurrences : List Occurrence, Effect grammar.toGraph maxLookahead engine
      (occurrences.map .noted) (engine.enter grammar consumer node) := by
  simp only [enter]
  cases action_eq : grammar.action node with
  | none =>
      refine ⟨_, (Entry.passes action_eq).effect running stack_eq rfl ?_⟩
      simp [perform, note]
  | beginCapture =>
      refine ⟨_, (Entry.opens action_eq).effect running stack_eq rfl ?_⟩
      simp [perform, note]
  | event name =>
      refine ⟨_, (Entry.announces action_eq).effect running stack_eq rfl ?_⟩
      simp [perform, note]
  | publish name trimStart trimEnd =>
      simp only [perform, capture_note]
      cases finished : engine.capture.finish? trimStart trimEnd with
      | none =>
          have unopened := starts_of_finish?_eq_none finished
          refine ⟨_, (Entry.underflows action_eq unopened).effect running stack_eq rfl ?_⟩
          simp [fail, note]
      | some published =>
          refine ⟨_, (Entry.publishes action_eq finished).effect running stack_eq rfl ?_⟩
          simp [note]

namespace History

variable {noted : List Occurrence}

theorem enter (before : History grammar.toGraph maxLookahead engine (noted.map .noted) middle)
    (consumer : Consumer) (running : middle.status = .running) {node : Frame} {below : List Frame}
    (stack_eq : middle.stack = node :: below) :
    ∃ occurrences : List Occurrence, History grammar.toGraph maxLookahead engine
      (occurrences.map .noted) (middle.enter grammar consumer node) := by
  rcases exists_enter_effect grammar maxLookahead consumer running stack_eq with
    ⟨further, entered⟩
  refine ⟨noted ++ further, ?_⟩
  rw [List.map_append]
  exact before.step entered

theorem note (before : History graph maxLookahead engine (noted.map .noted) middle)
    (consumer : Consumer) (running : middle.status = .running) (occurrence : Occurrence)
    (minor : occurrence.isMinor = true) :
    History graph maxLookahead engine ((noted ++ [occurrence]).map .noted)
      (middle.note consumer occurrence) := by
  rw [List.map_append]
  exact before.step (.notes running minor _)

end History

theorem moves_history (graph : Graph) (maxLookahead : Nat) (running : engine.status = .running)
    (stack : List Frame) :
    History graph maxLookahead engine (([] : List Occurrence).map .noted)
      { engine with stack } :=
  .single (.moves running stack)

section Silent

variable (maxLookahead) (consumer : Consumer) (running : engine.status = .running) {top : Frame}
  {below : List Frame} (stack_eq : engine.stack = top :: below)

include running stack_eq

theorem moveTo_history (node : NodeId) :
    History grammar.toGraph maxLookahead engine
      (engine.notedUntil (engine.moveTo grammar consumer node))
      (engine.moveTo grammar consumer node) := by
  have moved := moves_history grammar.toGraph maxLookahead running ({ top with node } :: below)
  rcases moved.enter consumer running rfl with ⟨occurrences, entered⟩
  simp only [moveTo, stack_eq]
  exact entered.of_noted

theorem call_history (rule : RuleId) (resume : NodeId) :
    History grammar.toGraph maxLookahead engine
      (engine.notedUntil (engine.call grammar consumer rule resume))
      (engine.call grammar consumer rule resume) := by
  have moved := moves_history grammar.toGraph maxLookahead running
    (⟨rule, Rule.entry⟩ :: { top with node := resume } :: below)
  have pushed := moved.note consumer running (.rulePushed rule) rfl
  rcases pushed.enter consumer running rfl with ⟨occurrences, entered⟩
  simp only [call, stack_eq]
  exact entered.of_noted

theorem leave_history :
    History grammar.toGraph maxLookahead engine
      (engine.notedUntil (engine.leave grammar consumer)) (engine.leave grammar consumer) := by
  have moved := moves_history grammar.toGraph maxLookahead running below
  have popped := moved.note consumer running (.rulePopped top.rule) rfl
  simp only [leave, stack_eq]
  cases below with
  | nil => exact popped.of_noted
  | cons caller rest =>
      rcases popped.enter consumer running rfl with ⟨occurrences, entered⟩
      exact entered.of_noted

end Silent

theorem notedUntil_commit (engine middle : Engine) :
    engine.notedUntil middle.commit = engine.notedUntil middle := by
  simp [notedUntil, commit_journal]

/-- A step that the graph allows is taken by the effects that its moments tell. -/
theorem takeStep_history (maxLookahead : Nat) (consumer : Consumer)
    (running : engine.status = .running) {step : Step} {read : List Char}
    (enabled : step.IsEnabled grammar.toGraph engine.stack)
    (reads : step.Reads grammar.toGraph read)
    (waits : read.map .char <+: engine.lookahead.symbols) :
    History grammar.toGraph maxLookahead engine (engine.stepMoments grammar consumer step)
      (engine.takeStep grammar consumer step) := by
  rcases List.exists_cons_of_ne_nil (Step.stack_ne_nil_of_isEnabled enabled) with
    ⟨top, below, stack_eq⟩
  cases step with
  | call rule resume =>
      simp only [stepMoments, List.append_nil]
      exact call_history maxLookahead consumer running stack_eq rule resume
  | goto node =>
      simp only [stepMoments, List.append_nil]
      exact moveTo_history maxLookahead consumer running stack_eq node
  | leave =>
      simp only [stepMoments, List.append_nil]
      exact leave_history maxLookahead consumer running stack_eq
  | consume matcher target =>
      have moved : History grammar.toGraph maxLookahead engine _ _ :=
        moveTo_history maxLookahead consumer running stack_eq target
      have lookahead_eq : (engine.moveTo grammar consumer target).lookahead = engine.lookahead :=
        (moveTo_spec grammar consumer running stack_eq target).1.lookahead
      simp only [stepMoments, takeStep]
      split
      next isRunning =>
        rcases Step.exists_of_reads_consume reads with ⟨character, rfl, _⟩
        rcases waits with ⟨others, waits_eq⟩
        have waiting : (engine.moveTo grammar consumer target).lookahead.symbols =
            .char character :: others := by
          rw [lookahead_eq]
          exact waits_eq.symm
        have front_eq : (engine.moveTo grammar consumer target).lookahead.front? =
            some (.char character) := by
          simp [Lookahead.front?, waiting]
        rw [notedUntil_commit, front_eq]
        exact moved.step (.consumes (status_of_isRunning isRunning) waiting)
      next =>
        rw [List.append_nil]
        exact moved

theorem pathMoments_of_ended (ended : engine.status.isRunning = false) (path : Path) :
    engine.pathMoments grammar consumer path = [] := by
  cases path with
  | nil => rfl
  | cons step rest => simp [pathMoments, ended]

/-- A path that is a run over what waits is taken by the effects that its moments tell. -/
theorem takePath_history (maxLookahead : Nat) (consumer : Consumer)
    (running : engine.status = .running) {path : Path} {read : List Char} {final : List Frame}
    (run : Run grammar.toGraph engine.stack path read final)
    (waits : read.map .char <+: engine.lookahead.symbols) :
    History grammar.toGraph maxLookahead engine (engine.pathMoments grammar consumer path)
      (engine.takePath grammar consumer path) := by
  induction path generalizing engine read with
  | nil => exact .refl
  | cons step rest ih =>
      cases run with
      | @step _ _ _ _ first further enabled reads restRun =>
          have stepWaits : first.map .char <+: engine.lookahead.symbols := by
            rw [List.map_append] at waits
            exact (List.prefix_append _ _).trans waits
          have isRunning : engine.status.isRunning = true := congrArg Status.isRunning running
          have taken : History grammar.toGraph maxLookahead engine _ _ :=
            takeStep_history maxLookahead consumer running enabled reads stepWaits
          rw [takePath_cons running, pathMoments, if_pos isRunning]
          rcases takeStep_spec consumer running enabled reads stepWaits with took | broke
          · rcases took.rest restRun waits with ⟨afterRun, afterWaits⟩
            exact taken.trans (ih took.performed.running afterRun afterWaits)
          · rw [takePath_of_ended broke.ended, pathMoments_of_ended broke.ended, List.append_nil]
            exact taken

/-- The engine after one decision. -/
def Progress.reached : Progress → Engine
  | .settled engine => engine
  | .ongoing engine => engine

@[simp]
theorem reached_progress (engine : Engine) : engine.progress.reached = engine := by
  simp only [progress]
  split <;> rfl

theorem ends_history {occurrence : Occurrence} {lookahead : Lookahead} {status : Status}
    (ending : Ending engine occurrence lookahead status) (graph : Graph) (maxLookahead : Nat)
    (consumer : Consumer) (running : engine.status = .running) :
    History graph maxLookahead engine
      (engine.notedUntil ({ engine with lookahead, status }.note consumer occurrence))
      ({ engine with lookahead, status }.note consumer occurrence) := by
  have ended : History graph maxLookahead engine ([occurrence].map .noted)
      ({ engine with lookahead, status }.note consumer occurrence) :=
    .single (.ends running ending _)
  exact ended.of_noted

theorem finish_history (graph : Graph) (maxLookahead : Nat) (consumer : Consumer)
    (running : engine.status = .running) {text : List Char} {ended : Bool} {symbol : Symbol}
    (waiting : engine.lookahead = .holding text ended)
    (front_eq : engine.lookahead.front? = some symbol) (left : engine.stack = []) :
    History graph maxLookahead engine (engine.notedUntil (engine.finish consumer symbol))
      (engine.finish consumer symbol) := by
  cases symbol with
  | char character =>
      exact ends_history (.rejected front_eq (by simp) _) graph maxLookahead consumer running
  | endOfInput =>
      have atEnd : engine.lookahead = .holding [] true := by
        rw [waiting] at front_eq ⊢
        cases text with
        | nil => cases ended <;> simp_all
        | cons character rest => simp at front_eq
      simp only [finish]
      split
      next opened =>
        exact ends_history (.unterminated left opened atEnd) graph maxLookahead consumer running
      next closed =>
        have closed_eq : engine.capture.isCapturing = false := by simpa using closed
        exact ends_history (.succeeds left closed_eq atEnd) graph maxLookahead consumer running

/-- One decision of a grammar with sound routes has the effects that its moments tell. -/
theorem round_history (resolved : grammar.IsResolved limits) (maxLookahead : Nat)
    (consumer : Consumer) (running : engine.status = .running) {text : List Char} {ended : Bool}
    (waiting : engine.lookahead = .holding text ended) :
    History grammar.toGraph maxLookahead engine (engine.roundMoments grammar consumer)
      (engine.advance grammar consumer).reached := by
  simp only [roundMoments, advance]
  cases front_eq : engine.lookahead.front? with
  | none => exact .refl
  | some symbol =>
      cases stack_eq : engine.stack with
      | nil => exact finish_history _ maxLookahead consumer running waiting front_eq stack_eq
      | cons top below =>
          cases routes_eq : grammar.routes? top with
          | none =>
              simp only [routes_eq, reached_progress]
              exact leave_history maxLookahead consumer running stack_eq
          | some routes =>
              simp only [routes_eq]
              cases decided : grammar.decide engine.lookahead routes with
              | needMore => exact .refl
              | reject =>
                  have goesOn : engine.stack = [] → symbol ≠ .endOfInput := by simp [stack_eq]
                  exact ends_history (.rejected front_eq goesOn _) _ maxLookahead consumer running
              | take path =>
                  rcases Proceeds.of_decide resolved waiting stack_eq routes_eq decided with
                    ⟨read, final, proceeds⟩
                  simp only [reached_progress]
                  exact takePath_history maxLookahead consumer running proceeds.run proceeds.waits

/-- An engine that settles does so by the effects that its moments tell. -/
theorem Awaits.settle_history {engine : Engine} {ended : Bool} (awaits : engine.Awaits ended)
    (resolved : grammar.IsResolved limits) (maxLookahead : Nat) (consumer : Consumer) :
    History grammar.toGraph maxLookahead engine (engine.settleMoments grammar consumer)
      (engine.settle grammar consumer) := by
  rcases awaits.waits with ⟨text, waiting⟩
  have round : History grammar.toGraph maxLookahead engine _ _ :=
    round_history resolved maxLookahead consumer awaits.running waiting
  rw [settleMoments, settle_eq]
  cases advance_eq : engine.advance grammar consumer with
  | settled last =>
      rw [advance_eq] at round
      simp only [List.append_nil]
      exact round
  | ongoing next =>
      rcases awaits.advance resolved advance_eq with ⟨nextAwaits, closer⟩
      have decreases : (next.lookahead.length < engine.lookahead.length ∨
        next.lookahead.length = engine.lookahead.length ∧
          next.stack.length < engine.stack.length) := closer
      rw [advance_eq] at round
      simp only [decreases, if_true, dite_true]
      exact round.trans (nextAwaits.settle_history resolved maxLookahead consumer)
termination_by (engine.lookahead.length, engine.stack.length)
decreasing_by
  rcases decreases with fewer | ⟨same, fewer⟩
  · exact Prod.Lex.left _ _ fewer
  · exact Prod.Lex.right' _ (Nat.le_of_eq same) fewer

theorem enterStart_history (grammar : Grammar) (maxLookahead : Nat) (consumer : Consumer)
    (running : engine.status = .running) :
    History grammar.toGraph maxLookahead engine
      (engine.notedUntil (engine.enterStart grammar consumer))
      (engine.enterStart grammar consumer) := by
  simp only [enterStart]
  split
  next =>
    have unchanged : History grammar.toGraph maxLookahead engine
        (([] : List Occurrence).map .noted) engine := .refl
    exact unchanged.of_noted
  next =>
    have begun : History grammar.toGraph maxLookahead engine (([] : List Occurrence).map .noted)
        { engine with entered := true } := .single (.begins running)
    split
    next => exact begun.of_noted
    next top below stack_eq =>
      rcases begun.enter consumer running stack_eq with ⟨occurrences, entered⟩
      exact entered.of_noted

/-- A symbol that is fed to an engine at rest has the effects that its moments tell. -/
theorem feed_history (resolved : grammar.IsResolved limits) (consumer : Consumer)
    (running : engine.status = .running) {text : List Char}
    (waiting : engine.lookahead = .holding text false) (short : text.length < limits.maxLookahead)
    (symbol : Symbol) :
    History grammar.toGraph limits.maxLookahead engine
      (engine.feedMoments grammar consumer symbol) (engine.feed grammar consumer symbol) := by
  have unended : engine.lookahead.hasEnd = false := by
    rw [waiting, Lookahead.hasEnd_holding]
  have fits : engine.lookahead.length < limits.maxLookahead := by
    rw [waiting, Lookahead.length_holding_false]
    exact short
  have arrived : History grammar.toGraph limits.maxLookahead engine
      [.arrived engine.lookahead symbol] (engine.withMore [symbol]) :=
    .single (.arrives running unended fits symbol)
  have pushedRunning : (engine.withMore [symbol]).status = .running := running
  have begun : History grammar.toGraph limits.maxLookahead engine
      ([.arrived engine.lookahead symbol] ++
        engine.notedUntil (engine.arrive grammar consumer [symbol]))
      (engine.arrive grammar consumer [symbol]) :=
    arrived.trans (enterStart_history grammar limits.maxLookahead consumer pushedRunning)
  have feed_eq : engine.feed grammar consumer symbol =
      if (engine.arrive grammar consumer [symbol]).status.isRunning then
        (engine.arrive grammar consumer [symbol]).settle grammar consumer
      else engine.arrive grammar consumer [symbol] := rfl
  simp only [feedMoments, feed_eq]
  split
  next begins =>
    have awaits := awaits_arrive waiting symbol begins
    exact begun.trans (awaits.settle_history resolved limits.maxLookahead consumer)
  next =>
    rw [List.append_nil]
    exact begun

section Units

variable {Unit : Type} {encoding : Encoding Unit} {units : List Unit}

theorem unitMoments_of_incomplete (decoded : encoding.decode units = .incomplete) (taken : Nat) :
    engine.unitMoments grammar consumer encoding units taken = [] := by
  rw [unitMoments]
  split
  · rfl
  · simp_all
  · simp_all

theorem unitMoments_of_malformed {malformation : Malformation}
    (decoded : encoding.decode units = .malformed malformation) (taken : Nat) :
    engine.unitMoments grammar consumer encoding units taken =
      engine.notedUntil (engine.fail consumer (.decoding malformation)) := by
  rw [unitMoments]
  split
  · simp_all
  · simp_all
  · simp_all

theorem unitMoments_of_char {character : Char} {size : Nat}
    (decoded : encoding.decode units = .char character size) (taken : Nat) :
    engine.unitMoments grammar consumer encoding units taken =
      let fed := engine.feed grammar consumer (.char character)
      engine.feedMoments grammar consumer (.char character) ++
        if fed.status.isRunning then
          if fed.cancelled then [.noted (.cancelled (taken + size))]
          else fed.unitMoments grammar consumer encoding (units.drop size) (taken + size)
        else [] := by
  rw [unitMoments]
  split
  · simp_all
  · simp_all
  next other otherSize other_eq =>
    rw [decoded, Decoded.char.injEq] at other_eq
    rcases other_eq with ⟨rfl, rfl⟩
    simp only
    cases (engine.feed grammar consumer (.char character)).status.isRunning with
    | true => rfl
    | false => rfl

/-- Units are taken in by the effects that their moments tell. -/
theorem takeUnits_history (resolved : grammar.IsResolved limits) (consumer : Consumer)
    (encoding : Encoding Unit) (units : List Unit) (taken : Nat) (engine : Engine)
    (rests : engine.Rests limits.maxLookahead) (running : engine.status = .running) :
    History grammar.toGraph limits.maxLookahead engine
      (engine.unitMoments grammar consumer encoding units taken)
      (engine.takeUnits grammar consumer encoding units taken).2 := by
  rcases rests running with ⟨text, waiting, short⟩
  cases decoded : encoding.decode units with
  | incomplete =>
      rw [takeUnits_of_incomplete decoded, unitMoments_of_incomplete decoded]
      exact .refl
  | malformed malformation =>
      have unended : engine.lookahead.hasEnd = false := by
        rw [waiting, Lookahead.hasEnd_holding]
      rw [takeUnits_of_malformed decoded, unitMoments_of_malformed decoded]
      exact ends_history (.malformed unended malformation) _ _ consumer running
  | char character size =>
      have shorter := encoding.length_drop_lt decoded
      have fed := feed_history resolved consumer running waiting short (.char character)
      have fedRests := (rests_feed resolved consumer waiting (.char character)).1
      rw [takeUnits_of_char decoded, unitMoments_of_char decoded]
      simp only
      cases ongoing : (engine.feed grammar consumer (.char character)).status.isRunning with
      | false =>
          simp only [Bool.false_eq_true, if_false, List.append_nil]
          exact fed
      | true =>
          have fedRunning := status_of_isRunning ongoing
          cases (engine.feed grammar consumer (.char character)).cancelled with
          | true => exact fed.step (.notes fedRunning rfl _)
          | false => exact fed.trans (takeUnits_history resolved consumer encoding
              (units.drop size) (taken + size) _ fedRests fedRunning)
termination_by units.length
decreasing_by exact shorter

end Units

/-- A call to an engine at rest has the effects that its moments tell. -/
theorem Rests.afterCall_history (rests : engine.Rests limits.maxLookahead)
    (resolved : grammar.IsResolved limits) (call : Call) :
    History grammar.toGraph limits.maxLookahead engine (engine.callMoments grammar call)
      (engine.afterCall grammar call) := by
  cases ongoing : engine.status.isRunning with
  | false =>
      rw [(afterCall_of_ended grammar ongoing call).1]
      simp only [callMoments, ongoing, Bool.false_eq_true, if_false]
      exact .refl
  | true =>
      have running := status_of_isRunning ongoing
      simp only [callMoments, ongoing, if_true]
      cases call with
      | consume consumer encoding units =>
          have forgets : History grammar.toGraph limits.maxLookahead engine []
              { engine with cancelled := false } := .single (.asks false)
          have uncancelled : { engine with cancelled := false }.Rests limits.maxLookahead := rests
          simp only [Engine.afterCall, consume, ongoing, if_true]
          exact forgets.trans
            (takeUnits_history resolved consumer encoding units 0 _ uncancelled running)
      | endInput consumer =>
          rcases rests running with ⟨text, waiting, short⟩
          simp only [Engine.afterCall, endInput, ongoing, if_true]
          exact feed_history resolved consumer running waiting short .endOfInput

end Engine

/-- A session is a history since its parse began. -/
theorem Session.history {grammar : Grammar} {limits : ResolutionLimits} {told : List Callback}
    {moments : List Moment} {engine : Engine} (session : Session grammar told moments engine)
    (resolved : grammar.IsResolved limits) :
    ∃ before start, Engine.callbacks before = told ∧
      Engine.History grammar.toGraph limits.maxLookahead (before.resetTo start) moments engine := by
  induction session with
  | begins start => exact ⟨.ofRule start, start, rfl, .refl⟩
  | @resets _ _ engine _ start _ => exact ⟨engine, start, rfl, .refl⟩
  | cancels _ ih =>
      rcases ih with ⟨before, start, told_eq, history⟩
      have asked := history.step (.asks true)
      rw [List.append_nil] at asked
      exact ⟨before, start, told_eq, asked⟩
  | calls session call ih =>
      rcases ih with ⟨before, start, told_eq, history⟩
      have rests := session.reachable.rests resolved
      exact ⟨before, start, told_eq,
        history.trans (rests.afterCall_history resolved call)⟩

/-- What the consumer is told in a session is what its moments tell. -/
theorem Session.callbacks_eq {grammar : Grammar} {limits : ResolutionLimits}
    {told : List Callback} {moments : List Moment} {engine : Engine}
    (session : Session grammar told moments engine) (resolved : grammar.IsResolved limits) :
    engine.callbacks = told ++ Moment.callbacks moments := by
  rcases session.history resolved with ⟨before, start, rfl, history⟩
  rw [Engine.callbacks, history.journal_eq, List.filterMap_append]
  rfl

end StreamGrammar
