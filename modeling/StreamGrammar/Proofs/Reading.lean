import StreamGrammar.Proofs.Chunking

/-!
# What units hold

Units hold code points, one after the other, and behind them a rest in which no further
one can be read: nothing, the beginning of one, or something malformed. An engine that
nobody asks to stop is fed these code points as long as the parse goes on. If it still
does after the last of them, a malformed rest makes it fail.
-/

namespace StreamGrammar

namespace Encoding

variable {Unit : Type}

/-- The code points that units hold, and the rest behind them. -/
def read (encoding : Encoding Unit) (units : List Unit) : List Char × List Unit :=
  match _decoded : encoding.decode units with
  | .char character size =>
      let (text, rest) := read encoding (units.drop size)
      (character :: text, rest)
  | _ => ([], units)
termination_by units.length
decreasing_by exact encoding.length_drop_lt _decoded

variable {encoding : Encoding Unit} {units : List Unit}

theorem read_of_decode {character : Char} {size : Nat}
    (decoded : encoding.decode units = .char character size) :
    encoding.read units =
      (character :: (encoding.read (units.drop size)).1, (encoding.read (units.drop size)).2) := by
  rw [read]
  split
  next other otherSize other_eq =>
    rw [decoded, Decoded.char.injEq] at other_eq
    rcases other_eq with ⟨rfl, rfl⟩
    rfl
  next missing => exact (missing character size decoded).elim

theorem read_of_unread (unread : ∀ character size, encoding.decode units ≠ .char character size) :
    encoding.read units = ([], units) := by
  rw [read]
  split
  next character size decoded => exact absurd decoded (unread character size)
  next => rfl

/-- No further code point can be read from the rest. -/
theorem decode_read_ne_char (encoding : Encoding Unit) (units : List Unit) (character : Char)
    (size : Nat) : encoding.decode (encoding.read units).2 ≠ .char character size := by
  cases decoded : encoding.decode units with
  | char first firstSize =>
      have shorter := encoding.length_drop_lt decoded
      rw [read_of_decode decoded]
      exact decode_read_ne_char encoding (units.drop firstSize) character size
  | incomplete =>
      rw [read_of_unread (by simp [decoded]), decoded]
      simp
  | malformed cause =>
      rw [read_of_unread (by simp [decoded]), decoded]
      simp
termination_by units.length
decreasing_by exact shorter

/-- A rest that is not malformed is incomplete. -/
theorem decode_read_eq_incomplete_iff (encoding : Encoding Unit) (units : List Unit) :
    encoding.decode (encoding.read units).2 = .incomplete ↔
      ∀ cause, encoding.decode (encoding.read units).2 ≠ .malformed cause := by
  cases decoded : encoding.decode (encoding.read units).2 with
  | char character size => exact absurd decoded (decode_read_ne_char encoding units character size)
  | incomplete | malformed => simp

end Encoding

namespace Engine

variable {grammar : Grammar} {engine : Engine}

/-- The engine after it was fed the code points of a text one after the other, as long as the parse
goes on. -/
def feedText (grammar : Grammar) (engine : Engine) : List Char → Engine
  | [] => engine
  | character :: rest =>
      let fed := engine.feed grammar .patient (.char character)
      if fed.status.isRunning then fed.feedText grammar rest else fed

theorem feedText_cons (grammar : Grammar) (engine : Engine) (character : Char)
    (rest : List Char) :
    engine.feedText grammar (character :: rest) =
      if (engine.feed grammar .patient (.char character)).status.isRunning then
        (engine.feed grammar .patient (.char character)).feedText grammar rest
      else engine.feed grammar .patient (.char character) := rfl

theorem parseState_feedText (engine : Engine) (text : List Char) :
    (engine.feedText grammar text).parseState = engine.parseState.feedText grammar text := by
  induction text generalizing engine with
  | nil => rfl
  | cons character rest ih =>
      have fed_eq : (engine.feed grammar .patient (.char character)).parseState =
          engine.parseState.feed grammar .patient (.char character) := parseState_feed _
      rw [feedText_cons, feedText_cons, ← fed_eq, ← ih]
      change _ = if (engine.feed grammar .patient (.char character)).status.isRunning then _ else _
      split
      next => rfl
      next => rfl

/-- The engine after it was fed a text and was told what the units behind it begin with. -/
def feedRead (grammar : Grammar) (engine : Engine) (text : List Char) (rest : Decoded) : Engine :=
  let fed := engine.feedText grammar text
  match rest with
  | .malformed cause => if fed.status.isRunning then fed.fail .patient (.decoding cause) else fed
  | _ => fed

theorem feedRead_cons (grammar : Grammar) (engine : Engine) (character : Char)
    (text : List Char) (rest : Decoded) :
    engine.feedRead grammar (character :: text) rest =
      if (engine.feed grammar .patient (.char character)).status.isRunning then
        (engine.feed grammar .patient (.char character)).feedRead grammar text rest
      else engine.feed grammar .patient (.char character) := by
  cases rest with
  | char | incomplete => exact feedText_cons grammar engine character text
  | malformed cause =>
      simp only [feedRead, feedText_cons]
      split
      next => rfl
      next => rfl

/-- The parse goes on unless it ends within the text or the rest is malformed. -/
theorem feedRead_running_iff {text : List Char} {rest : Decoded} :
    (engine.feedRead grammar text rest).status = .running ↔
      (engine.feedText grammar text).status = .running ∧ ∀ cause, rest ≠ .malformed cause := by
  cases rest with
  | char | incomplete => simp [feedRead]
  | malformed cause =>
      have ended : (engine.feedRead grammar text (.malformed cause)).status ≠ .running := by
        intro running
        simp only [feedRead] at running
        split at running
        next => cases running
        next notRunning => simp [running, Status.isRunning] at notRunning
      simp [ended]

/-- Units are taken in code point by code point, up to their rest unless the parse ends. -/
theorem takeUnits_read {Unit : Type} (grammar : Grammar) (encoding : Encoding Unit)
    (units : List Unit) (engine : Engine) (running : engine.status = .running)
    (uncancelled : engine.cancelled = false) (taken : Nat) :
    ∃ count, count ≤ units.length ∧
      engine.takeUnits grammar .patient encoding units taken =
        (taken + count, engine.feedRead grammar (encoding.read units).1
          (encoding.decode (encoding.read units).2)) ∧
      ((engine.feedRead grammar (encoding.read units).1
          (encoding.decode (encoding.read units).2)).status = .running →
        units.drop count = (encoding.read units).2) := by
  cases decoded : encoding.decode units with
  | incomplete =>
      rw [Encoding.read_of_unread (by simp [decoded]), decoded, takeUnits_of_incomplete decoded]
      exact ⟨0, Nat.zero_le _, rfl, fun _ => rfl⟩
  | malformed cause =>
      rw [Encoding.read_of_unread (by simp [decoded]), decoded, takeUnits_of_malformed decoded]
      refine ⟨0, Nat.zero_le _, ?_, fun _ => rfl⟩
      simp [feedRead, feedText, running, Status.isRunning]
  | char character size =>
      have shorter := encoding.length_drop_lt decoded
      have size_le := encoding.size_le decoded
      have fedUncancelled := cancelled_feed_patient grammar uncancelled (.char character)
      rw [Encoding.read_of_decode decoded, takeUnits_of_char decoded, feedRead_cons]
      simp only [fedUncancelled, Bool.false_eq_true, if_false]
      split
      next goesOn =>
        rcases takeUnits_read grammar encoding (units.drop size) _ (status_of_isRunning goesOn)
          fedUncancelled (taken + size) with ⟨count, count_le, takeUnits_eq, rest_eq⟩
        rw [List.length_drop] at count_le
        refine ⟨size + count, by omega, ?_, ?_⟩
        · rw [takeUnits_eq, Nat.add_assoc]
        · rw [← List.drop_drop]
          exact rest_eq
      next ended =>
        refine ⟨size, size_le, rfl, ?_⟩
        intro still
        simp [still, Status.isRunning] at ended
termination_by units.length
decreasing_by exact shorter

end Engine

end StreamGrammar
