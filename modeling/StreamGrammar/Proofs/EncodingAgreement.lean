import Mathlib.Tactic.Common
import StreamGrammar.Proofs.Decoding
import StreamGrammar.Proofs.Reading

/-!
# Every encoding of a text does the same

A text can be handed to an engine as its code points, as the bytes of a string, or in
UTF-8 or UTF-16. Each of them encodes the code points one after the other, and every
decoder finds them again, so that the engine is fed the same symbols. It stops at the
same code point, or takes all units, however many they are.
-/

namespace StreamGrammar

/-- The code points of a text are read from the units that the function gives for each of them. -/
structure Encoding.Decodes {Unit : Type} (encoding : Encoding Unit) (encode : Char → List Unit) :
    Prop where
  decode_append : ∀ character more, encoding.decode (encode character ++ more) =
    .char character (encode character).length

namespace Encoding

theorem decodes_chars : chars.Decodes fun character => [character] :=
  ⟨fun _ _ => rfl⟩

theorem decodes_utf8 : utf8.Decodes String.utf8EncodeChar :=
  ⟨Utf8.decode_encodeChar_append⟩

theorem decodes_utf16 : utf16.Decodes Utf16.encodeChar :=
  ⟨Utf16.decode_encodeChar_append⟩

/-- An encoded text holds its code points and leaves nothing. -/
theorem Decodes.read_flatMap {Unit : Type} {encoding : Encoding Unit} {encode : Char → List Unit}
    (decodes : encoding.Decodes encode) (text : List Char) :
    encoding.read (text.flatMap encode) = (text, []) := by
  induction text with
  | nil =>
      apply read_of_unread
      intro character size decoded
      rw [List.flatMap_nil, encoding.decode_nil] at decoded
      cases decoded
  | cons character rest ih =>
      have decoded := decodes.decode_append character (rest.flatMap encode)
      rw [List.flatMap_cons, read_of_decode decoded, List.drop_left, ih]

end Encoding

/-- The bytes of a string are the encodings of its code points. -/
theorem toList_toUTF8 (text : List Char) :
    (String.ofList text).toUTF8.data.toList = text.flatMap String.utf8EncodeChar := by
  rw [String.toUTF8_eq_toByteArray, String.toByteArray_ofList]
  exact List.toList_data_toByteArray

theorem Consumer.eq_patient {consumer : Consumer}
    (patient : ∀ journal callback, consumer.cancels journal callback = false) :
    consumer = .patient := by
  rcases consumer with ⟨cancels⟩
  rw [Consumer.patient, Consumer.mk.injEq]
  funext journal callback
  exact patient journal callback

namespace Engine

variable {grammar : Grammar}

/-- An encoded text is taken in code point by code point, all of it unless the parse ends. -/
theorem takeUnits_flatMap {Unit : Type} {encoding : Encoding Unit} {encode : Char → List Unit}
    (decodes : encoding.Decodes encode) (grammar : Grammar) (text : List Char) (engine : Engine)
    (running : engine.status = .running) (uncancelled : engine.cancelled = false) (taken : Nat) :
    ∃ count, engine.takeUnits grammar .patient encoding (text.flatMap encode) taken =
        (taken + count, engine.feedText grammar text) ∧
      ((engine.feedText grammar text).status = .running →
        count = (text.flatMap encode).length) := by
  rcases takeUnits_read grammar encoding (text.flatMap encode) engine running uncancelled taken with
    ⟨count, count_le, takeUnits_eq, rest_eq⟩
  rw [decodes.read_flatMap, encoding.decode_nil] at takeUnits_eq rest_eq
  refine ⟨count, takeUnits_eq, ?_⟩
  intro goesOn
  exact Nat.le_antisymm count_le (List.drop_eq_nil_iff.mp (rest_eq goesOn))

/-- Taking in a text in any encoding either takes all its units or fails as in every other
encoding. -/
theorem Reachable.consume_flatMap {limits : ResolutionLimits} {engine : Engine}
    (reachable : engine.Reachable grammar) (resolved : grammar.IsResolved limits)
    (running : engine.status = .running) {Unit : Type} {encoding : Encoding Unit}
    {encode : Char → List Unit} (decodes : encoding.Decodes encode) (text : List Char) :
    engine.consume grammar .patient encoding (text.flatMap encode) =
        (({ engine with cancelled := false }.feedText grammar text).answer
          (text.flatMap encode).length, { engine with cancelled := false }.feedText grammar text) ∧
      ({ engine with cancelled := false }.feedText grammar text).status ≠ .succeeded := by
  rcases takeUnits_flatMap decodes grammar text { engine with cancelled := false } running rfl 0
    with ⟨count, takeUnits_eq, count_eq⟩
  rcases reachable.exists_takes resolved running .patient encoding (text.flatMap encode) with
    ⟨total, after, consume_eq, _, _, _, notSucceeded⟩
  have isRunning : engine.status.isRunning = true := by
    rw [running]
    rfl
  simp only [consume, isRunning, if_true, takeUnits_eq, Nat.zero_add, Prod.mk.injEq] at consume_eq ⊢
  rcases consume_eq with ⟨_, rfl⟩
  refine ⟨⟨?_, trivial⟩, notSucceeded⟩
  rcases answer_cases notSucceeded count with ⟨goesOn, _⟩ | ⟨failure, status_eq, _⟩
  · rw [count_eq goesOn]
  · simp only [answer, status_eq]

end Engine

/-- Handing over a text as code points, as a string, in UTF-8, or in UTF-16 leads to the same state,
and takes all units unless it fails, which it does in the same way. The reader stands for whatever
finds the first code point of some bytes. -/
theorem Grammar.encodings_agree {graph : Graph} {config : GrammarConfig} {grammar : Grammar}
    (built : (graph.build config).result = .ok grammar) {engine : Engine}
    (reachable : engine.Reachable grammar) (running : engine.status = .running)
    {consumer : Consumer}
    (patient : ∀ journal callback, consumer.cancels journal callback = false)
    {read : Utf8.Reader} (documented : Utf8.Reader.IsDocumented read) (text : List Char) :
    (∀ bytes, Utf8.decodeThrough read bytes = Encoding.utf8.decode bytes) ∧
    ∃ after : Engine, after.status ≠ .succeeded ∧
      engine.consume grammar consumer .chars text = (after.answer text.length, after) ∧
      engine.consume grammar consumer .utf8 (String.ofList text).toUTF8.data.toList =
        (after.answer (String.ofList text).utf8ByteSize, after) ∧
      engine.consume grammar consumer .utf8 (text.flatMap String.utf8EncodeChar) =
        (after.answer (text.flatMap String.utf8EncodeChar).length, after) ∧
      engine.consume grammar consumer .utf16 (Utf16.encode text) =
        (after.answer (Utf16.encode text).length, after) := by
  refine ⟨Utf8.decodeThrough_eq documented, ?_⟩
  obtain rfl := Consumer.eq_patient patient
  have resolved := (Graph.build_ok built).2
  have chars := reachable.consume_flatMap resolved running Encoding.decodes_chars text
  have bytes := reachable.consume_flatMap resolved running Encoding.decodes_utf8 text
  have units := reachable.consume_flatMap resolved running Encoding.decodes_utf16 text
  have size_eq : (text.flatMap String.utf8EncodeChar).length = (String.ofList text).utf8ByteSize := by
    rw [← toList_toUTF8, Array.length_toList]
    rfl
  rw [List.flatMap_singleton'] at chars
  refine ⟨_, chars.2, chars.1, ?_, bytes.1, units.1⟩
  rw [toList_toUTF8, ← size_eq]
  exact bytes.1

/-- A rule that reads any code points. -/
def Graph.anyText : Graph :=
  (Assembly.assemble do
    let main ← Assembly.rule "main"
    let start ← Assembly.node main
    let anything ← Assembly.matcher .any
    Assembly.consumeEdge main start anything start).2

def Grammar.anyText : Grammar := Graph.anyText.builtGrammar ⟨"main", 1, false⟩

/-- Two, three and four bytes are taken for the same text as one unit, one more, and a pair. -/
theorem Grammar.encodings_agree_anyText :
    ∃ after : Engine, (Graph.anyText.build ⟨"main", 1, false⟩).result = .ok anyText ∧
      after.status = .running ∧
      (Engine.ofGrammar anyText).consume anyText .patient .chars ['é', '€', '😀'] =
        (.ok 3, after) ∧
      (Engine.ofGrammar anyText).consume anyText .patient .utf8
        [0xC3, 0xA9, 0xE2, 0x82, 0xAC, 0xF0, 0x9F, 0x98, 0x80] = (.ok 9, after) ∧
      (Engine.ofGrammar anyText).consume anyText .patient .utf16
        [0xE9, 0x20AC, 0xD83D, 0xDE00] = (.ok 4, after) := by
  have isOk : (Graph.anyText.build ⟨"main", 1, false⟩).result.isOk = true := by decide +kernel
  have built : (Graph.anyText.build ⟨"main", 1, false⟩).result = .ok anyText :=
    Graph.build_eq_builtGrammar isOk
  have patient : ∀ journal callback, Consumer.patient.cancels journal callback = false :=
    fun _ _ => rfl
  have reachable : (Engine.ofGrammar anyText).Reachable anyText := .ofRule _
  rcases (encodings_agree built reachable rfl patient Utf8.Reader.isDocumented_trying
    ['é', '€', '😀']).2 with ⟨after, _, chars, _, bytes, units⟩
  have after_eq : ((Engine.ofGrammar anyText).consume anyText .patient .chars ['é', '€', '😀']).2 =
      after := congrArg Prod.snd chars
  have running : after.status = .running := by
    rw [← after_eq]
    cbv
  have answer_eq : ∀ count : Nat, after.answer count = .ok count := by
    intro count
    simp only [Engine.answer, running]
  rw [answer_eq] at chars bytes units
  exact ⟨after, built, running, chars, bytes, units⟩

end StreamGrammar
