import StreamGrammar.Proofs.Conservation

/-!
# Captures

Every capture begins at an offset of the input and lasts until something is published,
which is taken from the capture that began last. Captures may be nested, and share one
text, which is dropped when the outermost of them is published. Yet what is published
is always a slice of the consumed input: what has been consumed since its capture began,
without the code points that the action trims.
-/

namespace StreamGrammar

/-- The offset that a parse has reached, and the offsets at which those captures began from which
nothing has been published yet, the latest first. -/
structure Openings where
  offset : Nat := 0
  unmatched : List Nat := []

/-- What is published is taken from the capture that began last. -/
def Openings.after (openings : Openings) : Moment → Openings
  | .consumed (some (.char _)) => { openings with offset := openings.offset + 1 }
  | .noted .captureStarted => { openings with unmatched := openings.offset :: openings.unmatched }
  | .noted (.published ..) => { openings with unmatched := openings.unmatched.tail }
  | _ => openings

theorem Openings.after_minor (openings : Openings) {occurrence : Occurrence}
    (minor : occurrence.isMinor = true) : openings.after (.noted occurrence) = openings := by
  cases occurrence with
  | captureStarted | published => cases minor
  | _ => rfl

namespace Moment

def openings (moments : List Moment) : Openings :=
  moments.foldl Openings.after {}

/-- Where those captures began from which nothing has been published yet, the latest first. -/
def unmatched (moments : List Moment) : List Nat :=
  (openings moments).unmatched

theorem openings_append (first second : List Moment) :
    openings (first ++ second) = second.foldl Openings.after (openings first) :=
  List.foldl_append

theorem openings_concat (moments : List Moment) (moment : Moment) :
    openings (moments ++ [moment]) = (openings moments).after moment :=
  openings_append moments [moment]

theorem textConsumed_concat (moments : List Moment) (moment : Moment) :
    textConsumed (moments ++ [moment]) =
      textConsumed moments ++ (moment.consumption?.bind Symbol.character?).toList := by
  rw [textConsumed_append]
  congr 1
  rcases moment with _ | (_ | _ | _) | _
  all_goals rfl

/-- The offset is the number of the code points consumed. -/
theorem offset_openings (moments : List Moment) :
    (openings moments).offset = (textConsumed moments).length := by
  induction moments using List.reverseRecOn with
  | nil => rfl
  | append_singleton moments moment ih =>
      rw [openings_concat, textConsumed_concat, List.length_append, ← ih]
      rcases moment with _ | (_ | _ | _) | occurrence
      case noted => cases occurrence <;> rfl
      all_goals rfl

end Moment

namespace CaptureBuffer

/-- The text is the region without the given numbers of leading and trailing code points. -/
def IsTrimmed (region : List Char) (trimStart trimEnd : Nat) (text : String) : Prop :=
  (region.length ≤ trimStart + trimEnd → text = "") ∧
    (trimStart + trimEnd ≤ region.length → ∃ leading trailing, leading.length = trimStart ∧
      trailing.length = trimEnd ∧ region = leading ++ text.toList ++ trailing)

theorem isTrimmed_trim (region : List Char) (trimStart trimEnd : Nat) :
    IsTrimmed region trimStart trimEnd (String.ofList (trim trimStart trimEnd region)) := by
  constructor
  · intro tooMuch
    have nothing : trim trimStart trimEnd region = [] := by
      rw [trim, List.drop_eq_nil_iff, List.length_take]
      omega
    rw [nothing]
  · intro enough
    let kept := region.length - trimEnd
    refine ⟨(region.take kept).take trimStart, region.drop kept, ?_, ?_, ?_⟩
    · simp only [List.length_take, kept]
      omega
    · simp only [List.length_drop, kept]
      omega
    · rw [String.toList_ofList, trim, List.take_append_drop, List.take_append_drop]

theorem toList_extract_size (text : Array Char) (start : Nat) :
    (text.extract start text.size).toList = text.toList.drop start := by
  rw [Array.toList_extract, List.extract_eq_take_drop]
  exact List.take_of_length_le (by simp)

/-- The open captures share what has been consumed since some offset, and each of them keeps its
distance from there. -/
def Holds (buffer : CaptureBuffer) (consumed : List Char) (unmatched : List Nat) : Prop :=
  ∃ base ≤ consumed.length, buffer.text.toList = consumed.drop base ∧
    unmatched = buffer.starts.map (base + ·) ∧ (buffer.starts = [] → buffer.text = #[])

variable {buffer : CaptureBuffer} {consumed : List Char} {unmatched : List Nat}

theorem holds_empty : empty.Holds [] [] := by
  exact ⟨0, Nat.le_refl _, rfl, rfl, fun _ => rfl⟩

/-- Where nothing is captured, nothing is kept, wherever the input has got to. -/
theorem holds_nothing (consumed : List Char) : Holds ⟨#[], []⟩ consumed [] := by
  refine ⟨consumed.length, Nat.le_refl _, ?_, rfl, fun _ => rfl⟩
  rw [List.drop_length]

namespace Holds

theorem length_eq (holds : buffer.Holds consumed unmatched) :
    unmatched.length = buffer.depth := by
  rcases holds with ⟨base, _, _, rfl, _⟩
  rw [List.length_map, depth]

theorem unmatched_eq_nil_iff (holds : buffer.Holds consumed unmatched) :
    unmatched = [] ↔ buffer.starts = [] := by
  rcases holds with ⟨base, _, _, rfl, _⟩
  exact List.map_eq_nil_iff

theorem isCapturing_eq_false_iff (holds : buffer.Holds consumed unmatched) :
    buffer.isCapturing = false ↔ unmatched = [] := by
  rw [holds.unmatched_eq_nil_iff]
  simp [isCapturing]

theorem begin (holds : buffer.Holds consumed unmatched) :
    buffer.begin.Holds consumed (consumed.length :: unmatched) := by
  rcases holds with ⟨base, base_le, text_eq, rfl, _⟩
  refine ⟨base, base_le, text_eq, ?_, fun none => absurd none (List.cons_ne_nil _ _)⟩
  have size_eq : buffer.text.size = consumed.length - base := by
    rw [← Array.length_toList, text_eq, List.length_drop]
  rw [CaptureBuffer.begin, List.map_cons, size_eq, Nat.add_sub_cancel' base_le]

theorem push (holds : buffer.Holds consumed unmatched) (character : Char) :
    (buffer.push character).Holds (consumed ++ [character]) unmatched := by
  by_cases closed : buffer.starts = []
  · have unmatched_eq := holds.unmatched_eq_nil_iff.mpr closed
    rcases holds with ⟨_, _, _, _, unkept⟩
    have push_eq : buffer.push character = ⟨#[], []⟩ := by
      rcases buffer with ⟨text, starts⟩
      cases closed
      cases unkept rfl
      rfl
    rw [push_eq, unmatched_eq]
    exact holds_nothing _
  · rcases holds with ⟨base, base_le, text_eq, rfl, _⟩
    have opened : buffer.isCapturing = true := by simpa [isCapturing] using closed
    rw [CaptureBuffer.push, if_pos opened]
    refine ⟨base, ?_, ?_, rfl, fun none => absurd none closed⟩
    · rw [List.length_append]
      omega
    · rw [Array.toList_push, text_eq, List.drop_append_of_le_length base_le]

/-- What is published is what has been consumed since the latest open capture began. -/
theorem finish (holds : buffer.Holds consumed unmatched) {trimStart trimEnd : Nat} {text : String}
    {rest : CaptureBuffer} (finished : buffer.finish? trimStart trimEnd = some (text, rest)) :
    ∃ start outer, unmatched = start :: outer ∧
      IsTrimmed (consumed.drop start) trimStart trimEnd text ∧ rest.Holds consumed outer := by
  rcases buffer with ⟨kept, starts⟩
  cases starts with
  | nil => cases finished
  | cons start outer =>
      rcases holds with ⟨base, base_le, text_eq, rfl, _⟩
      simp only [finish?, Option.some.injEq, Prod.mk.injEq] at finished
      rcases finished with ⟨rfl, rfl⟩
      have region_eq : (kept.extract start kept.size).toList = consumed.drop (base + start) := by
        rw [toList_extract_size, text_eq, List.drop_drop]
      refine ⟨base + start, outer.map (base + ·), rfl, ?_, ?_⟩
      · rw [region_eq]
        exact isTrimmed_trim _ trimStart trimEnd
      · cases outer with
        | nil => exact holds_nothing consumed
        | cons next others =>
            exact ⟨base, base_le, text_eq, rfl, fun none => absurd none (List.cons_ne_nil _ _)⟩

end Holds

end CaptureBuffer

namespace Engine

variable {graph : Graph} {maxLookahead : Nat} {begun engine after : Engine}
  {moments further : List Moment}

/-- The engine keeps of the consumed input what its open captures need. -/
def Captures (moments : List Moment) (engine : Engine) : Prop :=
  engine.capture.Holds (Moment.textConsumed moments) (Moment.unmatched moments)

namespace Captures

/-- A moment is of no concern unless something is consumed, captured or published. -/
theorem concat (captures : engine.Captures moments) {moment : Moment}
    (capture_eq : after.capture = engine.capture) (nothing : moment.consumption? = none)
    (openings_eq : (Moment.openings moments).after moment = Moment.openings moments) :
    after.Captures (moments ++ [moment]) := by
  have unmatched_eq : Moment.unmatched (moments ++ [moment]) = Moment.unmatched moments := by
    rw [Moment.unmatched, Moment.openings_concat, openings_eq, Moment.unmatched]
  rw [Captures, capture_eq, Moment.textConsumed_concat, nothing, unmatched_eq]
  rw [Option.bind_none, Option.toList_none, List.append_nil]
  exact captures

theorem opens (captures : engine.Captures moments)
    (capture_eq : after.capture = engine.capture.begin) :
    after.Captures (moments ++ [.noted .captureStarted]) := by
  have unmatched_eq : Moment.unmatched (moments ++ [.noted .captureStarted]) =
      (Moment.textConsumed moments).length :: Moment.unmatched moments := by
    rw [Moment.unmatched, Moment.openings_concat, ← Moment.offset_openings]
    rfl
  rw [Captures, capture_eq, Moment.textConsumed_concat, unmatched_eq]
  simpa [Moment.consumption?] using CaptureBuffer.Holds.begin captures

theorem consumes (captures : engine.Captures moments) {character : Char} {rest : List Symbol}
    (waits : engine.lookahead.symbols = .char character :: rest) :
    engine.commit.Captures (moments ++ [.consumed (some (.char character))]) := by
  rw [Captures, commit_char waits, Moment.textConsumed_concat, Moment.unmatched,
    Moment.openings_concat]
  exact CaptureBuffer.Holds.push captures character

theorem publishes (captures : engine.Captures moments) {name text : String}
    {trimStart trimEnd : Nat}
    (finished : engine.capture.finish? trimStart trimEnd = some (text, after.capture)) :
    after.Captures (moments ++ [.noted (.published name text)]) := by
  rcases CaptureBuffer.Holds.finish captures finished with ⟨start, outer, unmatched_eq, _, holds⟩
  have outer_eq : Moment.unmatched (moments ++ [.noted (.published name text)]) = outer := by
    have tail_eq : Moment.unmatched (moments ++ [.noted (.published name text)]) =
        (Moment.unmatched moments).tail := by
      rw [Moment.unmatched, Moment.openings_concat]
      rfl
    rw [tail_eq, unmatched_eq]
    rfl
  rw [Captures, Moment.textConsumed_concat, outer_eq]
  simpa [Moment.consumption?] using holds

theorem enters (captures : engine.Captures moments) {node : Frame} {occurrences : List Occurrence}
    {capture : CaptureBuffer} {status : Status}
    (entry : Entry graph engine node occurrences capture status)
    (capture_eq : after.capture = capture) :
    after.Captures (moments ++ occurrences.map .noted) := by
  have entered : engine.Captures (moments ++ [.noted (.nodeEntered node)]) :=
    captures.concat rfl rfl rfl
  -- all but one of the entries note something else about the node that has been entered
  cases entry with
  | passes => exact captures.concat capture_eq rfl rfl
  | opens => simpa using entered.opens capture_eq
  | publishes _ finished =>
      rw [← capture_eq] at finished
      simpa using entered.publishes finished
  | announces => simpa using entered.concat capture_eq rfl rfl
  | underflows => simpa using entered.concat capture_eq rfl rfl

theorem step (captures : engine.Captures moments)
    (effect : Effect graph maxLookahead engine further after) :
    after.Captures (moments ++ further) := by
  cases effect with
  | asks | begins | moves =>
      rw [List.append_nil]
      exact captures
  | arrives => exact captures.concat rfl rfl rfl
  | consumes _ waits => exact captures.consumes waits
  | notes _ minor => exact captures.concat rfl rfl (Openings.after_minor _ minor)
  | enters _ _ entry => exact captures.enters entry rfl
  | ends _ ending => cases ending <;> exact captures.concat rfl rfl rfl

end Captures

namespace History

theorem captures (history : History graph maxLookahead begun moments engine)
    (unopened : begun.capture = .empty) : engine.Captures moments := by
  induction history with
  | refl =>
      rw [Captures, unopened]
      exact CaptureBuffer.holds_empty
  | step _ effect ih => exact ih.step effect

/-- What is published is a slice of the consumed input, cut by the action of the node just entered. -/
theorem published_cases (history : History graph maxLookahead begun moments engine)
    (unopened : begun.capture = .empty) {before later : List Moment} {name text : String}
    (moments_eq : moments = before ++ .noted (.published name text) :: later) :
    ∃ earlier node trimStart trimEnd start outer, before = earlier ++ [.noted (.nodeEntered node)] ∧
      graph.action node = .publish name trimStart trimEnd ∧
      Moment.unmatched before = start :: outer ∧
      CaptureBuffer.IsTrimmed ((Moment.textConsumed before).drop start) trimStart trimEnd text := by
  have unending : ∀ last lookahead status,
      ¬ Ending last (.published name text) lookahead status := by
    intro last lookahead status ending
    cases ending
  rcases history.exists_entry moments_eq rfl unending with
    ⟨earlier, front, back, _, last, _, node, _, _, toLast, entry, _, _, _, before_eq, _⟩
  generalize occurrences_eq : front ++ .published name text :: back = occurrences at entry
  have now : .published name text ∈ occurrences := by simp [← occurrences_eq]
  cases entry with
  | passes | opens | announces | underflows => simp at now
  | @publishes _ _ trimStart trimEnd _ action_eq finished =>
      -- the entry of the node has been noted, and then what is published
      rcases front with _ | ⟨first, _ | ⟨second, others⟩⟩
      · simp at occurrences_eq
      · simp only [List.cons_append, List.nil_append, List.cons.injEq,
          Occurrence.published.injEq] at occurrences_eq
        rcases occurrences_eq with ⟨rfl, ⟨rfl, rfl⟩, _⟩
        have entered : last.Captures before := by
          rw [before_eq]
          exact (toLast.captures unopened).concat rfl rfl rfl
        rcases CaptureBuffer.Holds.finish entered finished with
          ⟨start, outer, unmatched_eq, trimmed, _⟩
        exact ⟨earlier, node, trimStart, trimEnd, start, outer, before_eq, action_eq,
          unmatched_eq, trimmed⟩
      · simp at occurrences_eq

/-- Once a parse has ended, nothing happens. -/
theorem of_ended (history : History graph maxLookahead begun moments engine)
    (ended : begun.status ≠ .running) :
    moments = [] ∧ engine.status = begun.status ∧ engine.location = begun.location := by
  induction history with
  | refl => exact ⟨rfl, rfl, rfl⟩
  | step _ effect ih =>
      rcases ih with ⟨rfl, status_eq, location_eq⟩
      rw [← status_eq] at ended
      cases effect with
      | asks => exact ⟨rfl, status_eq, location_eq⟩
      | begins running | moves running | arrives running | consumes running | notes running
      | enters running | ends running => exact absurd running ended

/-- When a node is entered, its action is performed next. -/
theorem exists_performed (history : History graph maxLookahead begun moments engine)
    {before later : List Moment} {node : Frame}
    (moments_eq : moments = before ++ .noted (.nodeEntered node) :: later) :
    ∃ last next performed capture status rest, History graph maxLookahead begun before last ∧
      Entry graph last node (.nodeEntered node :: performed) capture status ∧
      History graph maxLookahead next rest engine ∧ next.status = status ∧
      next.location = last.location ∧ later = performed.map .noted ++ rest := by
  have unending : ∀ last lookahead status, ¬ Ending last (.nodeEntered node) lookahead status := by
    intro last lookahead status ending
    cases ending
  rcases history.exists_entry moments_eq rfl unending with
    ⟨earlier, front, back, rest, last, next, entered, capture, status, toLast, entry, fromNext,
      status_eq, location_eq, before_eq, later_eq⟩
  -- a node that is entered is noted first, and its action notes nothing like it
  have first : front = [] ∧ entered = node := by
    generalize occurrences_eq : front ++ .nodeEntered node :: back = occurrences at entry
    cases front with
    | nil => cases entry <;> cases occurrences_eq <;> exact ⟨rfl, rfl⟩
    | cons other between =>
        have again : .nodeEntered node ∈ occurrences.tail := by simp [← occurrences_eq]
        cases entry <;> simp at again
  rcases first with ⟨rfl, rfl⟩
  rw [List.map_nil, List.append_nil] at before_eq
  rw [before_eq]
  exact ⟨last, next, back, capture, status, rest, toLast, entry, fromNext, status_eq, location_eq,
    later_eq⟩

/-- A node that publishes is left with an open capture less, or ends the parse if none is open. -/
theorem publish_cases (history : History graph maxLookahead begun moments engine)
    (unopened : begun.capture = .empty) {before later : List Moment} {node : Frame}
    (moments_eq : moments = before ++ .noted (.nodeEntered node) :: later) {name : String}
    {trimStart trimEnd : Nat} (action_eq : graph.action node = .publish name trimStart trimEnd) :
    Moment.unmatched before ≠ [] ∧ (∃ text rest, later = .noted (.published name text) :: rest) ∨
      Moment.unmatched before = [] ∧
        later = [.noted (.failed ⟨.captureUnderflow name, engine.location⟩)] ∧
        engine.status = .failed ⟨.captureUnderflow name, engine.location⟩ := by
  rcases history.exists_performed moments_eq with
    ⟨last, next, performed, capture, status, rest, toLast, entry, fromNext, status_eq, location_eq,
      rfl⟩
  have captures := toLast.captures unopened
  cases entry with
  | passes other | opens other | announces other =>
      rw [action_eq] at other
      cases other
  | publishes same finished =>
      rw [action_eq, Action.publish.injEq] at same
      rcases same with ⟨rfl, rfl, rfl⟩
      rcases CaptureBuffer.Holds.finish captures finished with ⟨start, outer, unmatched_eq, _⟩
      refine .inl ⟨?_, _, rest, rfl⟩
      rw [unmatched_eq]
      exact List.cons_ne_nil _ _
  | underflows same nothing =>
      rw [action_eq, Action.publish.injEq] at same
      rcases same with ⟨rfl, _, _⟩
      have ended : next.status ≠ .running := by
        rw [status_eq]
        simp
      rcases fromNext.of_ended ended with ⟨rfl, finalStatus, finalLocation⟩
      have unmatched_eq := (CaptureBuffer.Holds.unmatched_eq_nil_iff captures).mpr nothing
      rw [finalStatus, finalLocation, status_eq, location_eq]
      exact .inr ⟨unmatched_eq, rfl, rfl⟩

/-- The end of the input waits until the parse has succeeded. -/
theorem hasEnd_of_arrived (history : History graph maxLookahead begun moments engine)
    (arrived : .endOfInput ∈ Moment.arrivals moments) :
    engine.lookahead.hasEnd = true ∨ engine.status = .succeeded := by
  induction history with
  | refl => simp at arrived
  | step _ effect ih =>
      rw [Moment.arrivals_append] at arrived
      rcases List.mem_append.mp arrived with earlier | now
      · rcases ih earlier with waiting | succeeded
        · cases effect with
          | asks | begins | moves | notes | enters => exact .inl waiting
          | arrives _ unended =>
              rw [waiting] at unended
              cases unended
          | @consumes _ _ rest waits =>
              rw [Lookahead.hasEnd, waits] at waiting
              rw [commit_char waits]
              cases rest with
              | nil => cases waiting
              | cons next others => exact .inl waiting
          | ends _ ending =>
              cases ending with
              | malformed | rejected | unterminated => exact .inl waiting
              | succeeds => exact .inr rfl
        · cases effect with
          | asks => exact .inr succeeded
          | begins running | moves running | arrives running | consumes running | notes running
          | enters running | ends running =>
              rw [running] at succeeded
              cases succeeded
      · cases effect with
        | asks | begins | moves | consumes | notes | ends =>
            simp [Moment.arrivals, Moment.arrival?] at now
        | enters => simp at now
        | arrives _ _ _ symbol =>
            cases List.mem_singleton.mp now
            left
            simp [Lookahead.hasEnd, Lookahead.push]

/-- Where the start rule has been left and nothing but the end of the input waits, the parse has
succeeded unless captures are open. -/
theorem status_at_end (history : History graph maxLookahead begun moments engine)
    (begins : begun.status = .running) (ended : engine.status ≠ .running)
    (left : engine.stack = []) (nothing : engine.lookahead.characters = [])
    (atEnd : engine.lookahead.hasEnd = true ∨ engine.status = .succeeded) :
    engine.status = if engine.capture.isCapturing then
      .failed ⟨.unterminatedCapture engine.capture.depth, engine.location⟩ else .succeeded := by
  induction history with
  | refl => exact absurd begins ended
  | step _ effect ih =>
      cases effect with
      | asks => exact ih ended left nothing atEnd
      | begins running | moves running | arrives running | notes running =>
          exact absurd running ended
      | consumes running waits =>
          rw [commit_char waits] at ended
          exact absurd running ended
      | enters running stack_eq entry =>
          cases entry with
          | passes | opens | publishes | announces => exact absurd running ended
          | underflows =>
              rw [stack_eq] at left
              cases left
      | ends _ ending =>
          cases ending with
          | malformed unended =>
              rcases atEnd with waiting | succeeded
              · rw [unended] at waiting
                cases waiting
              · cases succeeded
          | @rejected symbol front_eq goesOn =>
              cases symbol with
              | endOfInput => exact absurd rfl (goesOn left)
              | char character =>
                  have ignored := List.filterMap_eq_nil_iff.mp nothing _
                    (List.mem_of_mem_head? front_eq)
                  cases ignored
          | unterminated _ opened => simp [opened]
          | succeeds _ closed => simp [closed]

end History

end Engine

/-- When all of the input has been consumed, its end has arrived and the start rule has been left,
then the parse has succeeded unless a capture is unmatched. -/
theorem Session.status_at_end {grammar : Grammar} {limits : ResolutionLimits}
    {told : List Callback} {moments : List Moment} {engine : Engine}
    (session : Session grammar told moments engine) (resolved : grammar.IsResolved limits)
    (left : engine.stack = [])
    (consumed : Moment.textConsumed moments = Moment.textArrived moments)
    (arrived : .endOfInput ∈ Moment.arrivals moments) :
    engine.status = if Moment.unmatched moments = [] then .succeeded
      else .failed ⟨.unterminatedCapture (Moment.unmatched moments).length, engine.location⟩ := by
  rcases session.history resolved with ⟨before, start, _, history⟩
  have holds : engine.capture.Holds _ _ := history.captures rfl
  have atEnd := history.hasEnd_of_arrived arrived
  have nothing : engine.lookahead.characters = [] := by
    rcases session.conserves resolved with ⟨_, conserves⟩
    have text : [] ++ Moment.textArrived moments = _ := conserves.text
    rw [List.nil_append, ← consumed] at text
    exact List.self_eq_append_right.mp text
  have ended : engine.status ≠ .running := by
    intro running
    rcases session.reachable.rests resolved running with ⟨text, waiting, _⟩
    rw [waiting, Lookahead.hasEnd_holding, running] at atEnd
    simp at atEnd
  rw [history.status_at_end rfl ended left nothing atEnd, holds.length_eq]
  by_cases matched : Moment.unmatched moments = []
  · simp [holds.isCapturing_eq_false_iff.mpr matched, matched]
  · have opened : engine.capture.isCapturing = true := by
      rw [← Bool.not_eq_false, holds.isCapturing_eq_false_iff]
      exact matched
    simp [opened, matched]

/-- However an engine is used, each text that is published since its parse began is taken from the
latest capture from which nothing has been published yet, and there is one: it is what has been
consumed since that capture began, without as many code points at both ends as the action of the
node just entered says. A node that publishes while no capture is unmatched makes the parse fail,
and nothing is published. When the start rule has been left, all of the input has been consumed and
its end has arrived, then the parse has succeeded exactly if no capture is unmatched, and otherwise
has failed with the number of those that are. -/
theorem Grammar.published_text_is_slice {graph : Graph} {config : GrammarConfig} {grammar : Grammar}
    (built : (graph.build config).result = .ok grammar) {told : List Callback}
    {moments : List Moment} {engine : Engine} (session : Session grammar told moments engine) :
    engine.callbacks = told ++ Moment.callbacks moments ∧
      (∀ before later name text, moments = before ++ .noted (.published name text) :: later →
        ∃ earlier node trimStart trimEnd start outer,
          before = earlier ++ [.noted (.nodeEntered node)] ∧
          graph.action node = .publish name trimStart trimEnd ∧
          Moment.unmatched before = start :: outer ∧
          CaptureBuffer.IsTrimmed ((Moment.textConsumed before).drop start) trimStart trimEnd
            text) ∧
      (∀ before later node name trimStart trimEnd,
        moments = before ++ .noted (.nodeEntered node) :: later →
          graph.action node = .publish name trimStart trimEnd → Moment.unmatched before = [] →
            later = [.noted (.failed ⟨.captureUnderflow name, engine.location⟩)] ∧
              engine.status = .failed ⟨.captureUnderflow name, engine.location⟩) ∧
      (engine.stack = [] → Moment.textConsumed moments = Moment.textArrived moments →
        .endOfInput ∈ Moment.arrivals moments →
          engine.status = if Moment.unmatched moments = [] then .succeeded
            else .failed ⟨.unterminatedCapture (Moment.unmatched moments).length,
              engine.location⟩) := by
  rcases Graph.build_ok built with ⟨rfl, resolved⟩
  rcases session.history resolved with ⟨before, start, _, history⟩
  refine ⟨session.callbacks_eq resolved, ?_, ?_, ?_⟩
  · intro before later name text moments_eq
    exact history.published_cases rfl moments_eq
  · intro before later node name trimStart trimEnd moments_eq action_eq nothing
    rcases history.publish_cases rfl moments_eq action_eq with ⟨opened, _⟩ | ⟨_, failed⟩
    · exact absurd nothing opened
    · exact failed
  · intro left consumed arrived
    exact session.status_at_end resolved left consumed arrived

/-- A rule that publishes a word in parentheses when it gets to the closing one. -/
def Graph.parenthesized : Graph :=
  (Assembly.assemble do
    let main ← Assembly.rule "main"
    let opening ← Assembly.node main .beginCapture
    let word ← Assembly.node main
    let closed ← Assembly.node main (.publish "word" 1 0)
    let _ ← Assembly.charEdge main opening '(' word
    let _ ← Assembly.charEdge main word 'a' word
    Assembly.charEdge main word ')' closed).2

def Grammar.parenthesized : Grammar := Graph.parenthesized.builtGrammar ⟨"main", 1, false⟩

/-- The word is published without the parenthesis before it, and the one behind it has not been
consumed by then. -/
theorem Grammar.published_text_is_slice_parenthesized :
    (Graph.parenthesized.build ⟨"main", 1, false⟩).result = .ok parenthesized ∧
      ∃ moments engine before later, Session parenthesized [] moments engine ∧
        moments = before ++ .noted (.published "word" "aa") :: later ∧
        Moment.textConsumed before = ['(', 'a', 'a'] ∧ Moment.unmatched before = [0] ∧
        (∃ earlier node trimStart trimEnd start outer,
          before = earlier ++ [.noted (.nodeEntered node)] ∧
          Graph.parenthesized.action node = .publish "word" trimStart trimEnd ∧
          Moment.unmatched before = start :: outer ∧
          CaptureBuffer.IsTrimmed ((Moment.textConsumed before).drop start) trimStart trimEnd
            "aa") ∧
        engine.status = .succeeded := by
  have isOk : (Graph.parenthesized.build ⟨"main", 1, false⟩).result.isOk = true := by
    decide +kernel
  have built : (Graph.parenthesized.build ⟨"main", 1, false⟩).result = .ok parenthesized :=
    Graph.build_eq_builtGrammar isOk
  have session : Session parenthesized [] _ _ :=
    .calls (.calls (.begins 0) (.consume .patient .chars ['(', 'a', 'a', ')'])) (.endInput .patient)
  let before : List Moment :=
    [.arrived .empty (.char '('), .noted (.nodeEntered ⟨0, 0⟩), .noted .captureStarted,
      .noted (.nodeEntered ⟨0, 1⟩), .consumed (some (.char '(')), .arrived .empty (.char 'a'),
      .noted (.nodeEntered ⟨0, 1⟩), .consumed (some (.char 'a')), .arrived .empty (.char 'a'),
      .noted (.nodeEntered ⟨0, 1⟩), .consumed (some (.char 'a')), .arrived .empty (.char ')'),
      .noted (.nodeEntered ⟨0, 2⟩)]
  have word_eq : (Engine.ofRule 0).callMoments parenthesized
      (.consume .patient .chars ['(', 'a', 'a', ')']) =
        before ++ [.noted (.published "word" "aa"), .consumed (some (.char ')'))] := by cbv
  have end_eq : ((Engine.ofRule 0).afterCall parenthesized
      (.consume .patient .chars ['(', 'a', 'a', ')'])).callMoments parenthesized
        (.endInput .patient) =
        [.arrived .empty .endOfInput, .noted (.rulePopped 0),
          .noted (.succeeded (Location.start.advanceAll ['(', 'a', 'a', ')']))] := by cbv
  have left : (((Engine.ofRule 0).afterCall parenthesized
      (.consume .patient .chars ['(', 'a', 'a', ')'])).afterCall parenthesized
        (.endInput .patient)).stack = [] := by cbv
  rw [word_eq, end_eq] at session
  rcases Grammar.published_text_is_slice built session with ⟨_, published, _, atEnd⟩
  exact ⟨built, _, _, before, _, session, rfl, rfl, rfl, published before _ "word" "aa" rfl,
    atEnd left rfl (by decide)⟩

end StreamGrammar
