import StreamGrammar.Proofs.Erasure

/-!
# Taking in units

A call that takes in units decodes one code point after another and feeds each to
the engine. `Engine.Takes` tells such a call from its outcome: where the units end
or are malformed, where the parse ends, or where the consumer has asked for a stop.
Whatever is true of every call is proved by induction on it.
-/

namespace StreamGrammar

namespace Encoding

variable {Unit : Type} {units : List Unit}

theorem length_drop_lt (encoding : Encoding Unit) {character : Char} {size : Nat}
    (decoded : encoding.decode units = .char character size) :
    (units.drop size).length < units.length := by
  have := encoding.size_pos decoded
  have := encoding.length_pos_of_decode decoded
  rw [List.length_drop]
  omega

/-- The code points that the first `count` units encode. -/
def textOf (encoding : Encoding Unit) (units : List Unit) (count : Nat) : List Char :=
  match _decoded : encoding.decode units with
  | .char character size =>
      if size ≤ count then character :: textOf encoding (units.drop size) (count - size) else []
  | _ => []
termination_by units.length
decreasing_by exact encoding.length_drop_lt _decoded

variable {encoding : Encoding Unit}

theorem textOf_zero : encoding.textOf units 0 = [] := by
  rw [textOf]
  split
  next character size decoded =>
    have := encoding.size_pos decoded
    rw [if_neg (by omega)]
  next => rfl

theorem textOf_of_decode {character : Char} {size count : Nat}
    (decoded : encoding.decode units = .char character size) :
    encoding.textOf units (size + count) =
      character :: encoding.textOf (units.drop size) count := by
  rw [textOf]
  split
  next other otherSize other_eq =>
    rw [decoded, Decoded.char.injEq] at other_eq
    rcases other_eq with ⟨rfl, rfl⟩
    rw [if_pos (Nat.le_add_right _ _), Nat.add_sub_cancel_left]
  next missing => exact (missing character size decoded).elim

theorem textOf_size {character : Char} {size : Nat}
    (decoded : encoding.decode units = .char character size) :
    encoding.textOf units size = [character] := by
  have text_eq : encoding.textOf units (size + 0) =
      character :: encoding.textOf (units.drop size) 0 := textOf_of_decode decoded
  rw [textOf_zero] at text_eq
  exact text_eq

theorem eq_nil_of_decode_chars {text : List Char} (decoded : chars.decode text = .incomplete) :
    text = [] := by
  cases text with
  | nil => rfl
  | cons first rest => cases decoded

theorem eq_cons_of_decode_chars {text : List Char} {character : Char} {size : Nat}
    (decoded : chars.decode text = .char character size) : text = character :: text.drop size := by
  cases text with
  | nil => cases decoded
  | cons first rest =>
      cases decoded
      rfl

theorem textOf_chars (text : List Char) : chars.textOf text text.length = text := by
  induction text with
  | nil => exact textOf_zero
  | cons first rest ih =>
      have decoded : chars.decode (first :: rest) = .char first 1 := rfl
      rw [List.length_cons, Nat.add_comm, textOf_of_decode decoded, List.drop_one,
        List.tail_cons, ih]

/-- What has been decoded from a slice stays so when more units follow. -/
theorem decode_of_slice {slice : List Unit} {outcome : Decoded} (slice_le : slice <+: units)
    (decoded : encoding.decode slice = outcome) (complete : outcome ≠ .incomplete) :
    encoding.decode units = outcome := by
  rcases slice_le with ⟨more, rfl⟩
  rw [← decoded] at complete ⊢
  exact encoding.decode_append complete more

end Encoding

namespace Engine

section Equations

variable {Unit : Type} {grammar : Grammar} {consumer : Consumer} {encoding : Encoding Unit}
  {units : List Unit} {engine : Engine}

theorem takeUnits_of_incomplete (decoded : encoding.decode units = .incomplete) (taken : Nat) :
    engine.takeUnits grammar consumer encoding units taken = (taken, engine) := by
  rw [takeUnits]
  split
  · rfl
  · simp_all
  · simp_all

theorem takeUnits_of_malformed {malformation : Malformation}
    (decoded : encoding.decode units = .malformed malformation) (taken : Nat) :
    engine.takeUnits grammar consumer encoding units taken =
      (taken, engine.fail consumer (.decoding malformation)) := by
  rw [takeUnits]
  split
  · simp_all
  · simp_all
  · simp_all

theorem takeUnits_of_char {character : Char} {size : Nat}
    (decoded : encoding.decode units = .char character size) (taken : Nat) :
    engine.takeUnits grammar consumer encoding units taken =
      let fed := engine.feed grammar consumer (.char character)
      if fed.status.isRunning then
        if fed.cancelled then (taken + size, fed.note consumer (.cancelled (taken + size)))
        else fed.takeUnits grammar consumer encoding (units.drop size) (taken + size)
      else (taken + size, fed) := by
  rw [takeUnits]
  split
  · simp_all
  · simp_all
  next other otherSize other_eq =>
    rw [decoded, Decoded.char.injEq] at other_eq
    rcases other_eq with ⟨rfl, rfl⟩
    simp only
    cases (engine.feed grammar consumer (.char character)).status.isRunning with
    | true => rfl
    | false => rfl

end Equations

/-- The engine takes `count` of the units and comes to be `after`. -/
inductive Takes {Unit : Type} (grammar : Grammar) (consumer : Consumer) (encoding : Encoding Unit) :
    (engine : Engine) → List Unit → (count : Nat) → (after : Engine) → Prop
  | exhausts {engine : Engine} {units : List Unit}
      (decoded : encoding.decode units = .incomplete) :
      Takes grammar consumer encoding engine units 0 engine
  | malforms {engine : Engine} {units : List Unit} {malformation : Malformation}
      (decoded : encoding.decode units = .malformed malformation) :
      Takes grammar consumer encoding engine units 0
        (engine.fail consumer (.decoding malformation))
  | ends {engine : Engine} {units : List Unit} {character : Char} {size : Nat}
      (decoded : encoding.decode units = .char character size)
      (ended : (engine.feed grammar consumer (.char character)).status.isRunning = false) :
      Takes grammar consumer encoding engine units size
        (engine.feed grammar consumer (.char character))
  | cancels {engine : Engine} {units : List Unit} {character : Char} {size : Nat}
      (decoded : encoding.decode units = .char character size)
      (running : (engine.feed grammar consumer (.char character)).status = .running)
      (cancelled : (engine.feed grammar consumer (.char character)).cancelled = true)
      (total : Nat) :
      Takes grammar consumer encoding engine units size
        ((engine.feed grammar consumer (.char character)).note consumer (.cancelled total))
  | continues {engine after : Engine} {units : List Unit} {character : Char} {size count : Nat}
      (decoded : encoding.decode units = .char character size)
      (running : (engine.feed grammar consumer (.char character)).status = .running)
      (uncancelled : (engine.feed grammar consumer (.char character)).cancelled = false)
      (rest : Takes grammar consumer encoding (engine.feed grammar consumer (.char character))
        (units.drop size) count after) :
      Takes grammar consumer encoding engine units (size + count) after

theorem status_of_isRunning {status : Status} (running : status.isRunning = true) :
    status = .running := by
  cases status with
  | running => rfl
  | succeeded => cases running
  | failed failure => cases running

theorem takes_takeUnits {Unit : Type} (grammar : Grammar) (consumer : Consumer)
    (encoding : Encoding Unit) (units : List Unit) (taken : Nat) (engine : Engine) :
    ∃ count after, engine.takeUnits grammar consumer encoding units taken = (taken + count, after) ∧
      Takes grammar consumer encoding engine units count after := by
  cases decoded : encoding.decode units with
  | incomplete => exact ⟨0, _, takeUnits_of_incomplete decoded taken, .exhausts decoded⟩
  | malformed malformation =>
      exact ⟨0, _, takeUnits_of_malformed decoded taken, .malforms decoded⟩
  | char character size =>
      rw [takeUnits_of_char decoded]
      simp only
      cases running : (engine.feed grammar consumer (.char character)).status.isRunning with
      | false => exact ⟨size, _, rfl, .ends decoded running⟩
      | true =>
          have isRunning := status_of_isRunning running
          cases cancelled : (engine.feed grammar consumer (.char character)).cancelled with
          | true => exact ⟨size, _, rfl, .cancels decoded isRunning cancelled (taken + size)⟩
          | false =>
              have shorter := encoding.length_drop_lt decoded
              rcases takes_takeUnits grammar consumer encoding (units.drop size) (taken + size)
                  (engine.feed grammar consumer (.char character)) with
                ⟨count, after, after_eq, takes⟩
              refine ⟨size + count, after, ?_, .continues decoded isRunning cancelled takes⟩
              rw [← Nat.add_assoc]
              exact after_eq
termination_by units.length
decreasing_by exact shorter

variable {Unit : Type} {grammar : Grammar} {consumer : Consumer} {encoding : Encoding Unit}
  {units : List Unit} {engine after : Engine} {count : Nat}

/-- No more units are taken than there are. A call that leaves the parse going stops only where the
consumer has asked for it or where the units end. -/
theorem Takes.stops (takes : Takes grammar consumer encoding engine units count after)
    (running : engine.status = .running) :
    count ≤ units.length ∧ (after.status = .running →
      after.cancelled = true ∨ encoding.decode (units.drop count) = .incomplete) := by
  induction takes with
  | exhausts decoded => exact ⟨Nat.zero_le _, fun _ => .inr decoded⟩
  | malforms decoded =>
      refine ⟨Nat.zero_le _, ?_⟩
      intro still
      cases still
  | ends decoded ended =>
      refine ⟨encoding.size_le decoded, ?_⟩
      intro still
      rw [still] at ended
      cases ended
  | cancels decoded _ cancelled =>
      refine ⟨encoding.size_le decoded, ?_⟩
      intro _
      left
      simp [note, cancelled]
  | continues decoded isRunning _ _ ih =>
      rcases ih isRunning with ⟨count_le, stops⟩
      have size_le := encoding.size_le decoded
      rw [List.length_drop] at count_le
      refine ⟨by omega, ?_⟩
      rw [← List.drop_drop]
      exact stops

theorem Takes.uncancelled_of_patient
    (takes : Takes grammar .patient encoding engine units count after)
    (uncancelled : engine.cancelled = false) : after.cancelled = false := by
  induction takes with
  | exhausts => exact uncancelled
  | malforms => simp [fail, note, Consumer.patient, Occurrence.callback?, uncancelled]
  | ends => exact cancelled_feed_patient grammar uncancelled _
  | cancels _ _ cancelled =>
      rw [cancelled_feed_patient grammar uncancelled] at cancelled
      cases cancelled
  | continues _ _ fedUncancelled _ ih => exact ih fedUncancelled

end Engine

end StreamGrammar
