import StreamGrammar.Proofs.DecisionLoop

/-!
# Waiting for more

A decision is put off only while fewer symbols wait than some route looks at, and
never after the end of the input has arrived. So an engine whose parse goes on after
a call holds fewer code points than the maximal lookahead, and the end of the input
ends every parse.
-/

namespace StreamGrammar

namespace Graph

variable {graph : Graph} {limits : ResolutionLimits} {frame : Frame} {ways : List Way}
  {division : Division} {routes : Routes}

theorem decideLast_ne_needMore (graph : Graph) (lookahead : Lookahead) (routes : Routes) :
    graph.decideLast lookahead routes ≠ .needMore := by
  simp only [decideLast]
  split
  next => simp
  next =>
    split
    next => simp
    next => simp

theorem exists_level_of_needMore {lookahead : Lookahead} {levels : List Nat}
    (putOff : graph.decideLevels lookahead routes levels = .needMore) :
    ∃ depth ∈ levels, lookahead.length < depth := by
  induction levels with
  | nil => exact absurd putOff (decideLast_ne_needMore graph lookahead routes)
  | cons depth deeper ih =>
      simp only [decideLevels] at putOff
      split at putOff
      next =>
        split at putOff
        next => cases putOff
        next =>
          rcases ih putOff with ⟨level, level_mem, short⟩
          exact ⟨level, List.mem_cons_of_mem _ level_mem, short⟩
      next unsatisfied =>
        refine ⟨depth, List.mem_cons_self, ?_⟩
        simp only [Lookahead.satisfies, Bool.or_eq_true, decide_eq_true_eq, not_or] at unsatisfied
        omega

/-- A decision is put off only while fewer symbols wait than may be looked at. -/
theorem Settles.length_lt_of_needMore (settles : graph.Settles limits frame ways division routes)
    (positive : 1 ≤ limits.maxLookahead) {lookahead : Lookahead}
    (putOff : graph.decide lookahead routes = .needMore) :
    lookahead.length < limits.maxLookahead := by
  simp only [decide] at putOff
  split at putOff
  next => cases putOff
  next =>
    rcases exists_level_of_needMore putOff with ⟨depth, depth_mem, short⟩
    have depth_le := settles.depth_le positive depth_mem
    omega

end Graph

namespace Engine

variable {grammar : Grammar} {consumer : Consumer} {limits : ResolutionLimits}
  {engine after : Engine} {ended : Bool}

theorem progress_eq_settled (settled : engine.progress = .settled after) :
    after = engine ∧ after.status.isRunning = false := by
  simp only [progress] at settled
  split at settled
  next => cases settled
  next ended =>
    cases settled
    exact ⟨rfl, by simpa using ended⟩

theorem isRunning_finish_eq_false (engine : Engine) (consumer : Consumer) (symbol : Symbol) :
    (engine.finish consumer symbol).status.isRunning = false := by
  cases symbol with
  | char character => rfl
  | endOfInput =>
      simp only [finish]
      split <;> rfl

/-- The parse goes on after the last decision only if that was put off. -/
theorem Awaits.rests_of_settled (awaits : engine.Awaits ended)
    (resolved : grammar.IsResolved limits)
    (settled : engine.advance grammar consumer = .settled after)
    (running : after.status = .running) :
    after = engine ∧ ended = false ∧ engine.lookahead.length < limits.maxLookahead := by
  rcases awaits.waits with ⟨text, waiting⟩
  have isRunning : after.status.isRunning = true := congrArg Status.isRunning running
  have decides : Decides grammar consumer engine (engine.advance grammar consumer) :=
    advance_decides resolved awaits.running waiting
  rw [settled] at decides
  generalize progress_eq : Progress.settled after = progress at decides
  cases decides with
  | idles nothing =>
      cases progress_eq
      have symbols_eq : engine.lookahead.symbols = [] := by
        simpa [Lookahead.front?] using nothing
      have unended : engine.lookahead.hasEnd = false := by simp [Lookahead.hasEnd, symbols_eq]
      rw [waiting, Lookahead.hasEnd_holding] at unended
      refine ⟨rfl, unended, ?_⟩
      simp only [Lookahead.length, symbols_eq, List.length_nil]
      exact resolved.positive
  | finishes front_eq left =>
      cases progress_eq
      rw [isRunning_finish_eq_false] at isRunning
      cases isRunning
  | proceeds =>
      rcases progress_eq_settled progress_eq.symm with ⟨rfl, hasEnded⟩
      rw [hasEnded] at isRunning
      cases isRunning
  | @putsOff _ _ _ routes _ _ routes_eq decided =>
      cases progress_eq
      have justified := grammar.decide_justified engine.lookahead routes
      rw [decided, waiting] at justified
      rcases resolved.exists_settles routes_eq with ⟨ways, division, settles⟩
      cases justified with
      | putOff unended =>
          rw [Lookahead.hasEnd_holding] at unended
          exact ⟨rfl, unended, settles.length_lt_of_needMore resolved.positive decided⟩
  | rejects =>
      cases progress_eq
      cases running

/-- While its parse goes on, the engine holds only code points, and fewer than may be looked at. -/
def Rests (engine : Engine) (maxLookahead : Nat) : Prop :=
  engine.status = .running →
    ∃ text, engine.lookahead = .holding text false ∧ text.length < maxLookahead

/-- An engine that settles before the end of the input has arrived rests, and after that its parse
has ended. -/
theorem Awaits.rests_settle (awaits : engine.Awaits ended) (resolved : grammar.IsResolved limits)
    (consumer : Consumer) :
    (engine.settle grammar consumer).Rests limits.maxLookahead ∧
      ((engine.settle grammar consumer).status = .running → ended = false) := by
  rcases awaits.exists_last resolved consumer with ⟨count, last, inLoop, settled⟩
  have lastAwaits := awaits.inLoop resolved inLoop
  have stays := lastAwaits.rests_of_settled resolved settled
  refine ⟨?_, fun running => (stays running).2.1⟩
  intro running
  rcases stays running with ⟨after_eq, rfl, short⟩
  rcases lastAwaits.waits with ⟨text, waiting⟩
  rw [waiting, Lookahead.length_holding_false] at short
  exact ⟨text, after_eq ▸ waiting, short⟩

/-- A symbol that is fed leaves the engine at rest. The parse does not go on after the end of the
input. -/
theorem rests_feed (resolved : grammar.IsResolved limits) (consumer : Consumer)
    {text : List Char} (waiting : engine.lookahead = .holding text false) (symbol : Symbol) :
    (engine.feed grammar consumer symbol).Rests limits.maxLookahead ∧
      ((engine.feed grammar consumer symbol).status = .running → symbol ≠ .endOfInput) := by
  have feed_eq : engine.feed grammar consumer symbol =
      if (engine.arrive grammar consumer [symbol]).status.isRunning then
        (engine.arrive grammar consumer [symbol]).settle grammar consumer
      else engine.arrive grammar consumer [symbol] := rfl
  rw [feed_eq]
  split
  next begins =>
    rcases (awaits_arrive waiting symbol begins).rests_settle resolved consumer with
      ⟨rests, unended⟩
    refine ⟨rests, ?_⟩
    intro running
    simpa using unended running
  next failed =>
    have ended : (engine.arrive grammar consumer [symbol]).status ≠ .running := by
      intro running
      rw [running] at failed
      exact failed rfl
    exact ⟨fun running => absurd running ended, fun running => absurd running ended⟩

theorem Rests.note {maxLookahead : Nat} (rests : engine.Rests maxLookahead) (consumer : Consumer)
    (occurrence : Occurrence) : (engine.note consumer occurrence).Rests maxLookahead := rests

theorem Takes.rests {Unit : Type} {encoding : Encoding Unit} {units : List Unit} {count : Nat}
    (takes : Takes grammar consumer encoding engine units count after)
    (resolved : grammar.IsResolved limits) (rests : engine.Rests limits.maxLookahead)
    (running : engine.status = .running) : after.Rests limits.maxLookahead := by
  induction takes with
  | exhausts => exact rests
  | malforms =>
      intro still
      cases still
  | @ends engine _ character _ _ _ =>
      rcases rests running with ⟨text, waiting, _⟩
      exact (rests_feed resolved consumer waiting (.char character)).1
  | @cancels engine _ character _ _ _ _ total =>
      rcases rests running with ⟨text, waiting, _⟩
      exact (rests_feed resolved consumer waiting (.char character)).1.note consumer _
  | @continues engine _ _ character _ _ _ stillRunning _ _ ih =>
      rcases rests running with ⟨text, waiting, _⟩
      exact ih (rests_feed resolved consumer waiting (.char character)).1 stillRunning

theorem Rests.afterCall (rests : engine.Rests limits.maxLookahead)
    (resolved : grammar.IsResolved limits) (call : Call) :
    (engine.afterCall grammar call).Rests limits.maxLookahead := by
  cases ongoing : engine.status.isRunning with
  | false =>
      rw [(afterCall_of_ended grammar ongoing call).1]
      exact rests
  | true =>
      have running := status_of_isRunning ongoing
      cases call with
      | consume consumer encoding units =>
          rcases exists_takes_of_consume running consumer encoding units with
            ⟨count, after, consume_eq, _, takes⟩
          have uncancelled : { engine with cancelled := false }.Rests limits.maxLookahead := rests
          rw [Engine.afterCall, consume_eq]
          exact takes.rests resolved uncancelled running
      | endInput consumer =>
          rcases rests running with ⟨text, waiting, _⟩
          simp only [Engine.afterCall, endInput, ongoing, if_true]
          exact (rests_feed resolved consumer waiting .endOfInput).1

theorem Reachable.rests (reachable : engine.Reachable grammar)
    (resolved : grammar.IsResolved limits) : engine.Rests limits.maxLookahead := by
  induction reachable with
  | ofRule | resetTo =>
      intro _
      exact ⟨[], rfl, resolved.positive⟩
  | cancel _ ih => exact ih
  | afterCall _ call ih => exact ih.afterCall resolved call

end Engine

end StreamGrammar
