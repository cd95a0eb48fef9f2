/-!
# Encodings

Input arrives as units: bytes, 16-bit units, or whole code points. An `Encoding`
says how the first code point of a sequence of units is read. The sequence may
stop in the middle of a code point, whose other units are then still to come, or
may hold units that no text is encoded by. Units that come later never change what
the units before them have been read as.
-/

namespace StreamGrammar

/-- Why units are not the encoding of a text. -/
inductive Malformation where
  /-- A high surrogate that no low surrogate follows. -/
  | badSurrogatePair
  /-- A low surrogate that follows no high surrogate. -/
  | unpairedLowSurrogate
  /-- Bytes that begin no encoded code point. -/
  | malformedBytes
  /-- The input ends inside an encoded code point. -/
  | truncated
deriving DecidableEq, Repr

def Malformation.message : Malformation → String
  | .badSurrogatePair => "bad surrogate pair"
  | .unpairedLowSurrogate => "unpaired low surrogate"
  | .malformedBytes => "malformed input"
  | .truncated => "truncated input"

/-- What a sequence of units begins with. -/
inductive Decoded where
  /-- A code point, and the number of units that encode it. -/
  | char (character : Char) (size : Nat)
  /-- Nothing, or the first units of an encoded code point. -/
  | incomplete
  /-- Units that begin no encoded code point. -/
  | malformed (cause : Malformation)
deriving DecidableEq, Repr

/-- A way to read code points from units. -/
structure Encoding (Unit : Type) where
  decode : List Unit → Decoded
  decode_nil : decode [] = .incomplete
  size_pos : ∀ {units character size}, decode units = .char character size → 0 < size
  size_le : ∀ {units character size}, decode units = .char character size → size ≤ units.length
  decode_append : ∀ {units}, decode units ≠ .incomplete →
    ∀ more, decode (units ++ more) = decode units

namespace Encoding

/-- Every unit is a code point of its own. -/
def chars : Encoding Char where
  decode
    | [] => .incomplete
    | character :: _ => .char character 1
  decode_nil := rfl
  size_pos {units} _ size decoded := by
    cases units with
    | nil => simp at decoded
    | cons first rest =>
        simp only [Decoded.char.injEq] at decoded
        omega
  size_le {units} _ size decoded := by
    cases units with
    | nil => simp at decoded
    | cons first rest =>
        simp only [Decoded.char.injEq] at decoded
        rw [List.length_cons]
        omega
  decode_append {units} complete more := by
    cases units with
    | nil => exact absurd rfl complete
    | cons first rest => rfl

/-- A sequence that begins with a code point is not empty. -/
theorem length_pos_of_decode {Unit : Type} (encoding : Encoding Unit) {units : List Unit}
    {character : Char} {size : Nat} (decoded : encoding.decode units = .char character size) :
    0 < units.length := by
  cases units with
  | nil => simp [encoding.decode_nil] at decoded
  | cons first rest => simp

end Encoding

end StreamGrammar
