import StreamGrammar.Encoding

/-!
# UTF-16

A code point below U+10000 is one unit of its own number; a larger one is a pair
of a high and a low surrogate, which carry ten bits each.
-/

namespace StreamGrammar

namespace Utf16

/-- Whether the unit begins a surrogate pair. -/
def IsHighSurrogate (unit : UInt16) : Prop := 0xD800 ≤ unit.toNat ∧ unit.toNat ≤ 0xDBFF

/-- Whether the unit ends a surrogate pair. -/
def IsLowSurrogate (unit : UInt16) : Prop := 0xDC00 ≤ unit.toNat ∧ unit.toNat ≤ 0xDFFF

instance (unit : UInt16) : Decidable (IsHighSurrogate unit) :=
  inferInstanceAs (Decidable (_ ∧ _))

instance (unit : UInt16) : Decidable (IsLowSurrogate unit) :=
  inferInstanceAs (Decidable (_ ∧ _))

def pairNumber (high low : UInt16) : Nat :=
  0x10000 + (high.toNat - 0xD800) * 0x400 + (low.toNat - 0xDC00)

/-- What a sequence of units begins with. -/
def decode : List UInt16 → Decoded
  | [] => .incomplete
  | first :: rest =>
      if IsHighSurrogate first then
        match rest with
        | [] => .incomplete
        | second :: _ =>
            if IsLowSurrogate second then .char (Char.ofNat (pairNumber first second)) 2
            else .malformed .badSurrogatePair
      else if IsLowSurrogate first then .malformed .unpairedLowSurrogate
      else .char (Char.ofNat first.toNat) 1

def encodeChar (character : Char) : List UInt16 :=
  let number := character.toNat
  if number < 0x10000 then [UInt16.ofNat number]
  else
    [UInt16.ofNat (0xD800 + (number - 0x10000) / 0x400),
      UInt16.ofNat (0xDC00 + (number - 0x10000) % 0x400)]

def encode (text : List Char) : List UInt16 :=
  text.flatMap encodeChar

theorem size_pos_of_decode {units : List UInt16} {character : Char} {size : Nat}
    (decoded : decode units = .char character size) : 0 < size := by
  match units with
  | [] => simp [decode] at decoded
  | [first] =>
      simp only [decode] at decoded
      split at decoded
      · simp at decoded
      · split at decoded
        · simp at decoded
        · simp only [Decoded.char.injEq] at decoded
          omega
  | first :: second :: rest =>
      simp only [decode] at decoded
      split at decoded
      · split at decoded
        · simp only [Decoded.char.injEq] at decoded
          omega
        · simp at decoded
      · split at decoded
        · simp at decoded
        · simp only [Decoded.char.injEq] at decoded
          omega

theorem size_le_of_decode {units : List UInt16} {character : Char} {size : Nat}
    (decoded : decode units = .char character size) : size ≤ units.length := by
  match units with
  | [] => simp [decode] at decoded
  | [first] =>
      simp only [decode] at decoded
      split at decoded
      · simp at decoded
      · split at decoded
        · simp at decoded
        · simp only [Decoded.char.injEq] at decoded
          simp [decoded]
  | first :: second :: rest =>
      simp only [decode] at decoded
      rw [List.length_cons, List.length_cons]
      split at decoded
      · split at decoded
        · simp only [Decoded.char.injEq] at decoded
          omega
        · simp at decoded
      · split at decoded
        · simp at decoded
        · simp only [Decoded.char.injEq] at decoded
          omega

theorem decode_append {units : List UInt16} (complete : decode units ≠ .incomplete)
    (more : List UInt16) : decode (units ++ more) = decode units := by
  match units with
  | [] => exact absurd rfl complete
  | [first] =>
      by_cases high : IsHighSurrogate first
      · simp [decode, high] at complete
      · simp [decode, high]
  | first :: second :: rest => rfl

end Utf16

def Encoding.utf16 : Encoding UInt16 where
  decode := Utf16.decode
  decode_nil := rfl
  size_pos := Utf16.size_pos_of_decode
  size_le := Utf16.size_le_of_decode
  decode_append := Utf16.decode_append

end StreamGrammar
