import StreamGrammar.Feeding
import StreamGrammar.Printer
import StreamGrammar.Proofs.Reading

/-!
# Pieces of any size

What a call leaves untaken is handed over again, in front of the next piece. So all
calls together take what one call with the whole input would take, and leave the same
rest. Whether the input is cut off in the middle of a code point, or its end is told
to the engine, is decided by that rest alone. The size of the pieces is seen in the
number of calls and in nothing else.
-/

namespace StreamGrammar

namespace Engine

variable {grammar : Grammar} {limits : ResolutionLimits} {engine other : Engine}

theorem parseState_endInput (grammar : Grammar) (consumer : Consumer) (engine : Engine) :
    engine.parseState.endInput grammar .patient =
      ((engine.endInput grammar consumer).1, (engine.endInput grammar consumer).2.parseState) := by
  have fed_eq : (engine.feed grammar consumer .endOfInput).parseState =
      engine.parseState.feed grammar .patient .endOfInput := parseState_feed _
  have status_eq : engine.parseState.status = engine.status := rfl
  simp only [endInput, status_eq, ← fed_eq]
  split
  next => rfl
  next => rfl

/-- How feeding ends after the calls that hand over all pieces, which leave a rest untaken unless
the last of them fails. -/
def conclude {Unit : Type} (grammar : Grammar) (engine : Engine) (rest : List Unit) (calls : Nat) :
    Feeding × Engine :=
  match engine.status with
  | .failed failure => (.refused (.parseFailed failure), engine)
  | _ =>
      if rest.isEmpty then
        match engine.endInput grammar .patient with
        | (.ok _, after) => (.finished calls, after)
        | (.error error, after) => (.refused error, after)
      else (.truncated engine.location, engine)

variable {Unit : Type} {rest : List Unit} {calls : Nat}

theorem conclude_of_failed {failure : Failure} (failed : engine.status = .failed failure)
    (rest : List Unit) (calls : Nat) :
    engine.conclude grammar rest calls = (.refused (.parseFailed failure), engine) := by
  simp only [conclude, failed]

theorem conclude_of_running (running : engine.status = .running) (rest : List Unit)
    (calls : Nat) :
    engine.conclude grammar rest calls =
      if rest.isEmpty then
        match engine.endInput grammar .patient with
        | (.ok _, after) => (.finished calls, after)
        | (.error error, after) => (.refused error, after)
      else (.truncated engine.location, engine) := by
  simp only [conclude, running]

theorem conclude_of_left (running : engine.status = .running) (left : rest ≠ []) (calls : Nat) :
    engine.conclude grammar rest calls = (.truncated engine.location, engine) := by
  simp [conclude_of_running running, left]

theorem parseState_conclude (grammar : Grammar) (engine : Engine) (rest : List Unit) (calls : Nat) :
    engine.parseState.conclude grammar rest calls =
      ((engine.conclude grammar rest calls).1,
        (engine.conclude grammar rest calls).2.parseState) := by
  have status_eq : engine.parseState.status = engine.status := rfl
  have location_eq : engine.parseState.location = engine.location := rfl
  have ended_eq := parseState_endInput grammar .patient engine
  simp only [conclude, status_eq, location_eq, ended_eq]
  cases engine.status with
  | failed failure => rfl
  | running | succeeded =>
      cases rest.isEmpty with
      | false => rfl
      | true =>
          rcases engine.endInput grammar .patient with ⟨answer, after⟩
          cases answer with
          | ok | error => rfl

theorem error?_conclude (grammar : Grammar) (engine : Engine) (rest : List Unit)
    (calls otherCalls : Nat) :
    (engine.conclude grammar rest calls).1.error? =
        (engine.conclude grammar rest otherCalls).1.error? ∧
      (engine.conclude grammar rest calls).2 = (engine.conclude grammar rest otherCalls).2 := by
  simp only [conclude]
  cases engine.status with
  | failed failure => exact ⟨rfl, rfl⟩
  | running | succeeded =>
      cases rest.isEmpty with
      | false => exact ⟨rfl, rfl⟩
      | true =>
          rcases engine.endInput grammar .patient with ⟨answer, after⟩
          cases answer with
          | ok | error => exact ⟨rfl, rfl⟩

theorem conclude_truncated_iff (unfinished : engine.status ≠ .succeeded) :
    (∃ location, (engine.conclude grammar rest calls).1 = .truncated location) ↔
      engine.status = .running ∧ rest ≠ [] := by
  cases status_eq : engine.status with
  | succeeded => exact absurd status_eq unfinished
  | failed failure => simp [conclude_of_failed status_eq]
  | running =>
      cases rest with
      | cons unit more => simp [conclude_of_left status_eq]
      | nil =>
          rw [conclude_of_running status_eq, List.isEmpty_nil, if_pos rfl]
          rcases engine.endInput grammar .patient with ⟨answer, after⟩
          cases answer with
          | ok | error => simp

theorem calls_of_conclude (unfinished : engine.status ≠ .succeeded) {total : Nat}
    (finished : (engine.conclude grammar rest calls).1 = .finished total) :
    engine.status = .running ∧ total = calls := by
  cases status_eq : engine.status with
  | succeeded => exact absurd status_eq unfinished
  | failed failure =>
      rw [conclude_of_failed status_eq] at finished
      cases finished
  | running =>
      refine ⟨rfl, ?_⟩
      cases rest with
      | cons unit more =>
          rw [conclude_of_left status_eq (by simp)] at finished
          cases finished
      | nil =>
          rw [conclude_of_running status_eq, List.isEmpty_nil, if_pos rfl] at finished
          split at finished
          next =>
            cases finished
            rfl
          next => cases finished

/-- Engines at the same point of the same parse, with the same rest, come to the same end. -/
theorem conclude_agrees (same : engine.parseState = other.parseState) (rest : List Unit)
    (calls otherCalls : Nat) :
    (engine.conclude grammar rest calls).1.error? =
        (other.conclude grammar rest otherCalls).1.error? ∧
      (engine.conclude grammar rest calls).2.Agrees (other.conclude grammar rest otherCalls).2 := by
  have mine := parseState_conclude grammar engine rest calls
  have theirs := parseState_conclude grammar other rest otherCalls
  rcases error?_conclude grammar engine.parseState rest calls otherCalls with
    ⟨error_eq, state_eq⟩
  rw [mine, same, theirs] at error_eq state_eq
  exact ⟨error_eq, agrees_of_parseState state_eq⟩

/-- Handing over one more piece leaves as many pieces less one. -/
theorem pieces_succ {length size : Nat} (positive : 0 < size) (left : length ≠ 0) :
    (length + size - 1) / size = (length - min size length + size - 1) / size + 1 := by
  rcases Nat.le_total size length with whole | short
  · have length_eq : length + size - 1 = length - min size length + size - 1 + size := by omega
    rw [length_eq, Nat.add_div_right _ positive]
  · have length_eq : length + size - 1 = length - 1 + size := by omega
    have nothing : (length - min size length + size - 1) / size = 0 :=
      Nat.div_eq_of_lt (by omega)
    have last : (length - 1) / size = 0 := Nat.div_eq_of_lt (by omega)
    rw [length_eq, Nat.add_div_right _ positive, nothing, last]

/-- The calls that hand over the pieces take what one call with all the units would take. What
follows depends on where that leads and on what it leaves. -/
theorem Reachable.feedFrom_eq {engine : Engine} (reachable : engine.Reachable grammar)
    (resolved : grammar.IsResolved limits) (running : engine.status = .running)
    {encoding : Encoding Unit} {size : Nat} (positive : 0 < size) {units : List Unit}
    {offered unoffered : Nat} (length_eq : offered + unoffered = units.length)
    (waits : encoding.decode (units.take offered) = .incomplete) (calls taken : Nat) :
    ∃ (count : Nat) (last : Engine) (total : Nat),
      engine.parseState.takeUnits grammar .patient encoding units taken =
        (taken + count, last.parseState) ∧
      engine.feedFrom grammar .patient encoding size positive units offered unoffered calls =
        last.conclude grammar (units.drop count) total ∧
      last.status ≠ .succeeded ∧
      (last.status = .running → total = calls + (unoffered + size - 1) / size) := by
  by_cases allOffered : unoffered = 0
  · rw [List.take_of_length_le (by omega)] at waits
    have none_left : (unoffered + size - 1) / size = 0 := Nat.div_eq_of_lt (by omega)
    refine ⟨0, engine, calls, takeUnits_of_incomplete waits taken, ?_, by simp [running], ?_⟩
    · rw [feedFrom, if_pos allOffered]
      exact (conclude_of_running running units calls).symm
    · intro _
      rw [none_left, Nat.add_zero]
  · have fewer : unoffered - min size unoffered < unoffered := by omega
    rcases reachable.exists_takes resolved running .patient encoding
        (units.take (offered + min size unoffered)) with
      ⟨count, after, consume_eq, _, takes, afterReachable, notSucceeded⟩
    have begins := takes.takeUnits_parseState running (List.take_prefix _ units) taken
    have uncancelled := takes.uncancelled_of_patient rfl
    rcases takes.stops running with ⟨count_le, stops⟩
    rw [List.length_take, Nat.min_eq_left (by omega)] at count_le
    rw [feedFrom, if_neg allOffered]
    simp only [consume_eq]
    rcases answer_cases notSucceeded count with ⟨status_eq, ok_eq⟩ | ⟨failure, status_eq, error_eq⟩
    · rw [ok_eq]
      have restWaits : encoding.decode
          ((units.drop count).take (offered + min size unoffered - count)) = .incomplete := by
        rw [← List.drop_take]
        rcases stops status_eq with cancelled | exhausted
        · rw [uncancelled] at cancelled
          cases cancelled
        · exact exhausted
      have restLength : offered + min size unoffered - count + (unoffered - min size unoffered) =
          (units.drop count).length := by
        rw [List.length_drop]
        omega
      rcases afterReachable.feedFrom_eq resolved status_eq positive restLength restWaits
        (calls + 1) (taken + count) with
        ⟨further, last, total, takeUnits_eq, feedFrom_eq, lastNotSucceeded, total_eq⟩
      rw [status_eq, Status.isRunning, if_pos rfl, takeUnits_eq, Nat.add_assoc] at begins
      rw [List.drop_drop] at feedFrom_eq
      refine ⟨count + further, last, total, begins, feedFrom_eq, lastNotSucceeded, ?_⟩
      intro still
      rw [total_eq still, pieces_succ positive allOffered]
      omega
    · rw [error_eq]
      rw [status_eq] at begins
      refine ⟨count, after, 0, begins, ?_, notSucceeded, ?_⟩
      · rw [conclude_of_failed status_eq]
      · simp [status_eq]
termination_by unoffered

variable {encoding : Encoding Unit} {units : List Unit} {size otherSize : Nat}

theorem Reachable.feedAll_agrees (reachable : engine.Reachable grammar)
    (resolved : grammar.IsResolved limits) (running : engine.status = .running)
    (positive : 0 < size) (otherPositive : 0 < otherSize) :
    (engine.feedAll grammar .patient encoding size positive units).1.error? =
        (engine.feedAll grammar .patient encoding otherSize otherPositive units).1.error? ∧
      (engine.feedAll grammar .patient encoding size positive units).2.Agrees
        (engine.feedAll grammar .patient encoding otherSize otherPositive units).2 := by
  rcases reachable.feedFrom_eq resolved running positive (Nat.zero_add units.length)
    encoding.decode_nil 0 0 with ⟨count, last, total, takeUnits_eq, fed_eq, _⟩
  rcases reachable.feedFrom_eq resolved running otherPositive (Nat.zero_add units.length)
    encoding.decode_nil 0 0 with ⟨otherCount, otherLast, otherTotal, otherTakes, otherFed_eq, _⟩
  rw [takeUnits_eq, Prod.mk.injEq] at otherTakes
  rcases otherTakes with ⟨count_eq, same⟩
  obtain rfl : count = otherCount := by omega
  rw [feedAll, feedAll, fed_eq, otherFed_eq]
  exact conclude_agrees same _ _ _

theorem Reachable.calls_of_feedAll (reachable : engine.Reachable grammar)
    (resolved : grammar.IsResolved limits) (running : engine.status = .running)
    (positive : 0 < size) {calls : Nat}
    (finished : (engine.feedAll grammar .patient encoding size positive units).1 =
      .finished calls) : calls = (units.length + size - 1) / size := by
  rcases reachable.feedFrom_eq resolved running positive (Nat.zero_add units.length)
    encoding.decode_nil 0 0 with ⟨count, last, total, _, fed_eq, unfinished, total_eq⟩
  rw [feedAll, fed_eq] at finished
  rcases calls_of_conclude unfinished finished with ⟨lastRunning, rfl⟩
  rw [total_eq lastRunning, Nat.zero_add]

/-- The input is cut off if all its code points were fed without an end of the parse, and the
beginning of another one is left. -/
theorem Reachable.feedAll_truncated_iff (reachable : engine.Reachable grammar)
    (resolved : grammar.IsResolved limits) (running : engine.status = .running)
    (positive : 0 < size) :
    (∃ location, (engine.feedAll grammar .patient encoding size positive units).1 =
        .truncated location) ↔
      (engine.feedText grammar (encoding.read units).1).status = .running ∧
        (encoding.read units).2 ≠ [] ∧
        encoding.decode (encoding.read units).2 = .incomplete := by
  rcases reachable.feedFrom_eq resolved running positive (Nat.zero_add units.length)
    encoding.decode_nil 0 0 with ⟨count, last, total, takeUnits_eq, fed_eq, unfinished, _⟩
  rcases takeUnits_read grammar encoding units engine.parseState running rfl 0 with
    ⟨readCount, _, read_eq, rest_eq⟩
  rw [takeUnits_eq, Prod.mk.injEq] at read_eq
  rcases read_eq with ⟨count_eq, last_eq⟩
  obtain rfl : count = readCount := by omega
  rw [← last_eq] at rest_eq
  have running_iff : last.status = .running ↔
      (engine.feedText grammar (encoding.read units).1).status = .running ∧
        encoding.decode (encoding.read units).2 = .incomplete := by
    have status_eq : last.parseState.status = last.status := rfl
    have fedStatus_eq : (engine.parseState.feedText grammar (encoding.read units).1).status =
        (engine.feedText grammar (encoding.read units).1).status := by
      rw [← parseState_feedText]
      rfl
    rw [← status_eq, last_eq, feedRead_running_iff, fedStatus_eq,
      Encoding.decode_read_eq_incomplete_iff]
  rw [feedAll, fed_eq, conclude_truncated_iff unfinished]
  constructor
  · rintro ⟨lastRunning, left⟩
    rw [rest_eq lastRunning] at left
    rcases running_iff.mp lastRunning with ⟨fedRunning, incomplete⟩
    exact ⟨fedRunning, left, incomplete⟩
  · rintro ⟨fedRunning, left, incomplete⟩
    have lastRunning := running_iff.mpr ⟨fedRunning, incomplete⟩
    refine ⟨lastRunning, ?_⟩
    rw [rest_eq lastRunning]
    exact left

end Engine

/-- The size of the pieces does not matter for what the engine and a printer come to, nor for the
error that is reported. Success takes as many calls as there are pieces. The input is called
truncated exactly if every code point before a tail was accepted and the tail, which is not empty,
begins another one. -/
theorem Grammar.feeding_ignores_piece_size {graph : Graph} {config : GrammarConfig}
    {grammar : Grammar} (built : (graph.build config).result = .ok grammar) {engine : Engine}
    (reachable : engine.Reachable grammar) (start : RuleId) {Unit : Type}
    (encoding : Encoding Unit) (units : List Unit) {size : Nat} (positive : 0 < size) :
    let begun := engine.resetTo start
    let fed := begun.feedAll grammar .patient encoding size positive units
    (∀ otherSize (otherPositive : 0 < otherSize),
      let otherFed := begun.feedAll grammar .patient encoding otherSize otherPositive units
      fed.1.error? = otherFed.1.error? ∧ fed.2.Agrees otherFed.2 ∧
        ∀ printer : Printer, printer.receiveAll fed.2.callbacks =
          printer.receiveAll otherFed.2.callbacks) ∧
      (∀ calls, fed.1 = .finished calls → calls = (units.length + size - 1) / size) ∧
      ((∃ location, fed.1 = .truncated location) ↔
        (begun.feedText grammar (encoding.read units).1).status = .running ∧
          (encoding.read units).2 ≠ [] ∧
          encoding.decode (encoding.read units).2 = .incomplete) := by
  intro begun fed
  have resolved := (Graph.build_ok built).2
  have begunReachable : begun.Reachable grammar := reachable.resetTo start
  refine ⟨?_, ?_, ?_⟩
  · intro otherSize otherPositive otherFed
    rcases begunReachable.feedAll_agrees resolved rfl positive otherPositive with
      ⟨error_eq, agrees⟩
    refine ⟨error_eq, agrees, ?_⟩
    intro printer
    rw [agrees.callbacks]
  · intro calls finished
    exact begunReachable.calls_of_feedAll resolved rfl positive finished
  · exact begunReachable.feedAll_truncated_iff resolved rfl positive

/-- Two bytes of an accented letter are cut apart by pieces of one byte and not by pieces of two.
Either way the first of three bytes is left behind it. -/
theorem Grammar.feeding_ignores_piece_size_accented :
    (Graph.accented.build ⟨"main", 1, false⟩).result = .ok accented ∧
      (((Engine.ofRule 0).resetTo 0).feedAll accented .patient .utf8 1 Nat.one_pos
          [0xC3, 0xA9, 0xE2]).1.error? =
        (((Engine.ofRule 0).resetTo 0).feedAll accented .patient .utf8 2 Nat.two_pos
          [0xC3, 0xA9, 0xE2]).1.error? ∧
      (∃ location, (((Engine.ofRule 0).resetTo 0).feedAll accented .patient .utf8 2 Nat.two_pos
        [0xC3, 0xA9, 0xE2]).1 = .truncated location) ∧
      (((Engine.ofRule 0).resetTo 0).feedAll accented .patient .utf8 2 Nat.two_pos
        [0xC3, 0xA9, 0x61]).1 = .finished ((3 + 2 - 1) / 2) := by
  have isOk : (Graph.accented.build ⟨"main", 1, false⟩).result.isOk = true := by decide +kernel
  have built : (Graph.accented.build ⟨"main", 1, false⟩).result = .ok accented :=
    Graph.build_eq_builtGrammar isOk
  have reachable : (Engine.ofRule 0).Reachable accented := .ofRule 0
  have read_eq : Encoding.utf8.read [0xC3, 0xA9, 0xE2] = (['é'], [0xE2]) := by cbv
  have accepted : (((Engine.ofRule 0).resetTo 0).feedText accented ['é']).status = .running := by
    cbv
  have incomplete : Encoding.utf8.decode [0xE2] = .incomplete := by cbv
  have finished : ∃ calls, (((Engine.ofRule 0).resetTo 0).feedAll accented .patient .utf8 2
      Nat.two_pos [0xC3, 0xA9, 0x61]).1 = .finished calls := ⟨2, by cbv⟩
  rcases feeding_ignores_piece_size built reachable 0 .utf8 [0xC3, 0xA9, 0xE2] Nat.two_pos with
    ⟨same, _, truncated_iff⟩
  rcases feeding_ignores_piece_size built reachable 0 .utf8 [0xC3, 0xA9, 0x61] Nat.two_pos with
    ⟨_, calls_eq, _⟩
  rw [read_eq] at truncated_iff
  refine ⟨built, (same 1 Nat.one_pos).1.symm, ?_, ?_⟩
  · exact truncated_iff.mpr ⟨accepted, by simp, incomplete⟩
  · rcases finished with ⟨calls, finished⟩
    rw [finished, calls_eq calls finished]
    rfl

end StreamGrammar
