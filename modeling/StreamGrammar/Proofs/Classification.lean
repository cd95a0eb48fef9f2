import StreamGrammar.Proofs.Decoding

/-!
# What units begin with

A decoder sorts all sequences of units into three kinds: those that begin with the
encoding of a code point, those that begin such an encoding without holding all of it,
and all others. It suffices to know what the decoder reads as a code point, and that
units it calls incomplete can be completed. Since nothing that follows can change the
first kind into another one, nor the third, units that come later change no answer but
that the units were incomplete.
-/

namespace StreamGrammar

namespace Encoding

/-- The decoder tells code points, unfinished code points and anything else apart. -/
structure Classifies {Unit : Type} (decode : List Unit → Decoded)
    (encode : Char → List Unit) : Prop where
  char_iff : ∀ units character size, decode units = .char character size ↔
    size ≤ units.length ∧ units.take size = encode character
  incomplete_iff : ∀ units, decode units = .incomplete ↔
    ∃ character, units <+: encode character ∧ units ≠ encode character
  malformed_iff : ∀ units, (∃ cause, decode units = .malformed cause) ↔
    (¬∃ character size, size ≤ units.length ∧ units.take size = encode character) ∧
      ¬∃ character, units <+: encode character ∧ units ≠ encode character
  append : ∀ units more, decode units ≠ .incomplete → decode (units ++ more) = decode units

variable {Unit : Type} {encoding : Encoding Unit} {encode : Char → List Unit}

theorem take_eq_iff_prefix {units part : List Unit} {size : Nat} :
    size ≤ units.length ∧ units.take size = part ↔ part <+: units ∧ size = part.length := by
  constructor
  · rintro ⟨size_le, rfl⟩
    refine ⟨List.take_prefix size units, ?_⟩
    rw [List.length_take, Nat.min_eq_left size_le]
  · rintro ⟨isPrefix, rfl⟩
    exact ⟨isPrefix.length_le, (List.prefix_iff_eq_take.mp isPrefix).symm⟩

theorem classifies
    (char_iff : ∀ {units character size}, encoding.decode units = .char character size ↔
      encode character <+: units ∧ size = (encode character).length)
    (incomplete_iff : ∀ {units}, encoding.decode units = .incomplete ↔
      ∃ character, units <+: encode character ∧ units ≠ encode character) :
    Classifies encoding.decode encode := by
  have char_iff_take : ∀ units character size, encoding.decode units = .char character size ↔
      size ≤ units.length ∧ units.take size = encode character := by
    intro units character size
    rw [char_iff, take_eq_iff_prefix]
  refine ⟨char_iff_take, fun units => incomplete_iff, ?_, fun _ more complete =>
    encoding.decode_append complete more⟩
  intro units
  rw [← incomplete_iff]
  simp only [← char_iff_take]
  cases encoding.decode units with
  | char character size => simp
  | incomplete => simp
  | malformed cause => simp

end Encoding

namespace Utf16

theorem encodeChar_of_unit {unit : UInt16} (notHigh : ¬IsHighSurrogate unit)
    (notLow : ¬IsLowSurrogate unit) : encodeChar (.ofNat unit.toNat) = [unit] := by
  have small : unit.toNat < 0x10000 := unit.toNat_lt
  have valid : unit.toNat.isValidChar := by
    simp only [IsHighSurrogate, IsLowSurrogate] at notHigh notLow
    simp only [Nat.isValidChar]
    omega
  simp only [encodeChar, toNat_ofNat_of_isValidChar valid, if_pos small, UInt16.ofNat_toNat]

theorem encodeChar_of_pair {high low : UInt16} (isHigh : IsHighSurrogate high)
    (isLow : IsLowSurrogate low) :
    encodeChar (.ofNat (pairNumber high low)) = [high, low] := by
  rcases isHigh with ⟨high_ge, high_le⟩
  rcases isLow with ⟨low_ge, low_le⟩
  have number_eq : pairNumber high low =
      0x10000 + (high.toNat - 0xD800) * 0x400 + (low.toNat - 0xDC00) := rfl
  have valid : (pairNumber high low).isValidChar := by
    rw [Nat.isValidChar]
    omega
  have large : ¬pairNumber high low < 0x10000 := by omega
  have high_eq : 0xD800 + (pairNumber high low - 0x10000) / 0x400 = high.toNat := by omega
  have low_eq : 0xDC00 + (pairNumber high low - 0x10000) % 0x400 = low.toNat := by omega
  simp only [encodeChar, toNat_ofNat_of_isValidChar valid, if_neg large, high_eq, low_eq,
    UInt16.ofNat_toNat]

/-- What is read as a code point is its encoding. -/
theorem encodeChar_prefix_of_decode {units : List UInt16} {character : Char} {size : Nat}
    (decoded : decode units = .char character size) :
    encodeChar character <+: units ∧ size = (encodeChar character).length := by
  cases units with
  | nil => cases decoded
  | cons first rest =>
      simp only [decode] at decoded
      split at decoded
      next isHigh =>
        cases rest with
        | nil => cases decoded
        | cons second further =>
            simp only at decoded
            split at decoded
            next isLow =>
              rw [Decoded.char.injEq] at decoded
              rcases decoded with ⟨rfl, rfl⟩
              rw [encodeChar_of_pair isHigh isLow]
              exact ⟨⟨further, rfl⟩, rfl⟩
            next => cases decoded
      next notHigh =>
        split at decoded
        next => cases decoded
        next notLow =>
          rw [Decoded.char.injEq] at decoded
          rcases decoded with ⟨rfl, rfl⟩
          rw [encodeChar_of_unit notHigh notLow]
          exact ⟨⟨rest, rfl⟩, rfl⟩

/-- A code point is read exactly where its encoding comes, all of it and nothing more. -/
theorem decode_eq_char_iff {units : List UInt16} {character : Char} {size : Nat} :
    decode units = .char character size ↔
      encodeChar character <+: units ∧ size = (encodeChar character).length := by
  refine ⟨encodeChar_prefix_of_decode, ?_⟩
  rintro ⟨⟨more, rfl⟩, rfl⟩
  exact decode_encodeChar_append character more

/-- Units that are called incomplete become a code point with some more. -/
theorem exists_decode_append {units : List UInt16} (incomplete : decode units = .incomplete) :
    ∃ more character size, decode (units ++ more) = .char character size := by
  cases units with
  | nil => exact ⟨_, _, _, decode_encodeChar_append 'a' []⟩
  | cons first rest =>
      simp only [decode] at incomplete
      split at incomplete
      next isHigh =>
        cases rest with
        | nil =>
            have isLow : IsLowSurrogate 0xDC00 := by decide
            exact ⟨[0xDC00], _, _, decode_pair isHigh isLow []⟩
        | cons second further =>
            simp only at incomplete
            split at incomplete <;> cases incomplete
      next =>
        split at incomplete <;> cases incomplete

theorem decode_eq_incomplete_iff {units : List UInt16} : decode units = .incomplete ↔
    ∃ character, units <+: encodeChar character ∧ units ≠ encodeChar character :=
  Encoding.decode_eq_incomplete_iff .utf16 encodeChar decode_eq_char_iff exists_decode_append

end Utf16

namespace Encoding

/-- UTF-8, read through any reader that keeps to its documentation, and UTF-16 are told apart from
everything else: a code point is read exactly where its encoding comes, units are incomplete exactly
if they begin an encoding without holding all of it, and all others are malformed. Units that follow
change neither a code point nor a malformed sequence. -/
theorem decoders_classify {read : Utf8.Reader} (documented : read.IsDocumented) :
    Utf8.decodeThrough read = utf8.decode ∧
      Classifies (Utf8.decodeThrough read) String.utf8EncodeChar ∧
      Classifies utf16.decode Utf16.encodeChar := by
  have through_eq : Utf8.decodeThrough read = utf8.decode := by
    funext bytes
    exact Utf8.decodeThrough_eq documented bytes
  refine ⟨through_eq, ?_, ?_⟩
  · rw [through_eq]
    apply classifies
    · exact Utf8.decode_eq_char_iff
    · exact Utf8.decode_eq_incomplete_iff
  · apply classifies
    · exact Utf16.decode_eq_char_iff
    · exact Utf16.decode_eq_incomplete_iff

/-- Three bytes of one code point are read, two of them are incomplete, and a high surrogate is
incomplete until a unit follows. -/
theorem decoders_classify_trying :
    Utf8.Reader.trying.IsDocumented ∧
      Utf8.decodeThrough .trying [0xE2, 0x82, 0xAC, 0x61] = .char '€' 3 ∧
      Utf8.decodeThrough .trying [0xE2, 0x82] = .incomplete ∧
      utf16.decode [0xD83D] = .incomplete ∧
      utf16.decode [0xD83D, 0xDE00] = .char '😀' 2 := by
  have documented := Utf8.Reader.isDocumented_trying
  rcases decoders_classify documented with ⟨_, bytes, units⟩
  refine ⟨documented, ?_, ?_, ?_, ?_⟩
  · exact (bytes.char_iff _ '€' 3).mpr (by decide)
  · exact (bytes.incomplete_iff _).mpr ⟨'€', by decide, by decide⟩
  · exact (units.incomplete_iff _).mpr ⟨'😀', by decide, by decide⟩
  · exact (units.char_iff _ '😀' 2).mpr (by decide)

end Encoding

end StreamGrammar
