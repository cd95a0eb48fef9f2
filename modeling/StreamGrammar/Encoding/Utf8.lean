import StreamGrammar.Encoding

/-!
# UTF-8

A code point is encoded by a leading byte and up to three continuation bytes. The
leading byte fixes how many there are and, so that every code point has one
encoding and surrogate numbers have none, within which bounds the first of them
lies.
-/

namespace StreamGrammar

namespace Utf8

/-- What has to follow the bytes of a code point read so far. -/
structure Pending where
  /-- The bits collected so far. -/
  bits : Nat
  /-- The number of continuation bytes still to come, less one. -/
  further : Nat
  /-- The smallest byte that may come next. -/
  low : Nat
  /-- The largest byte that may come next. -/
  high : Nat
deriving DecidableEq, Repr

/-- What has to follow a leading byte of a code point of two or more bytes. -/
def pendingAfter? (leading : Nat) : Option Pending :=
  if leading < 0xC2 then none
  else if leading ≤ 0xDF then some ⟨leading - 0xC0, 0, 0x80, 0xBF⟩
  else if leading = 0xE0 then some ⟨0, 1, 0xA0, 0xBF⟩
  else if leading = 0xED then some ⟨0xD, 1, 0x80, 0x9F⟩
  else if leading ≤ 0xEF then some ⟨leading - 0xE0, 1, 0x80, 0xBF⟩
  else if leading = 0xF0 then some ⟨0, 2, 0x90, 0xBF⟩
  else if leading ≤ 0xF3 then some ⟨leading - 0xF0, 2, 0x80, 0xBF⟩
  else if leading = 0xF4 then some ⟨4, 2, 0x80, 0x8F⟩
  else none

/-- Reads the continuation bytes, `size` counting the bytes read before them. -/
def decodeRest (pending : Pending) (size : Nat) : List UInt8 → Decoded
  | [] => .incomplete
  | byte :: rest =>
      if pending.low ≤ byte.toNat ∧ byte.toNat ≤ pending.high then
        let bits := pending.bits * 64 + (byte.toNat - 0x80)
        match pending.further with
        | 0 => .char (Char.ofNat bits) (size + 1)
        | further + 1 => decodeRest ⟨bits, further, 0x80, 0xBF⟩ (size + 1) rest
      else .malformed .malformedBytes

/-- What a sequence of bytes begins with. -/
def decode : List UInt8 → Decoded
  | [] => .incomplete
  | leading :: rest =>
      if leading.toNat < 0x80 then .char (Char.ofNat leading.toNat) 1
      else
        match pendingAfter? leading.toNat with
        | none => .malformed .malformedBytes
        | some pending => decodeRest pending 1 rest

theorem lt_size_of_decodeRest {pending : Pending} {sizeBefore size : Nat} {bytes : List UInt8}
    {character : Char} (decoded : decodeRest pending sizeBefore bytes = .char character size) :
    sizeBefore < size := by
  induction bytes generalizing pending sizeBefore with
  | nil => simp [decodeRest] at decoded
  | cons byte rest ih =>
      simp only [decodeRest] at decoded
      split at decoded
      · split at decoded
        · simp only [Decoded.char.injEq] at decoded
          omega
        · have := ih decoded
          omega
      · simp at decoded

theorem size_pos_of_decode {bytes : List UInt8} {character : Char} {size : Nat}
    (decoded : decode bytes = .char character size) : 0 < size := by
  cases bytes with
  | nil => simp [decode] at decoded
  | cons leading rest =>
      simp only [decode] at decoded
      split at decoded
      · simp only [Decoded.char.injEq] at decoded
        omega
      · split at decoded
        · simp at decoded
        · have := lt_size_of_decodeRest decoded
          omega

theorem size_le_of_decodeRest {pending : Pending} {sizeBefore size : Nat} {bytes : List UInt8}
    {character : Char} (decoded : decodeRest pending sizeBefore bytes = .char character size) :
    size ≤ sizeBefore + bytes.length := by
  induction bytes generalizing pending sizeBefore with
  | nil => simp [decodeRest] at decoded
  | cons byte rest ih =>
      simp only [decodeRest] at decoded
      rw [List.length_cons]
      split at decoded
      · split at decoded
        · simp only [Decoded.char.injEq] at decoded
          omega
        · have := ih decoded
          omega
      · simp at decoded

theorem size_le_of_decode {bytes : List UInt8} {character : Char} {size : Nat}
    (decoded : decode bytes = .char character size) : size ≤ bytes.length := by
  cases bytes with
  | nil => simp [decode] at decoded
  | cons leading rest =>
      simp only [decode] at decoded
      rw [List.length_cons]
      split at decoded
      · simp only [Decoded.char.injEq] at decoded
        omega
      · split at decoded
        · simp at decoded
        · have := size_le_of_decodeRest decoded
          omega

theorem decodeRest_append {pending : Pending} {size : Nat} {bytes : List UInt8}
    (complete : decodeRest pending size bytes ≠ .incomplete) (more : List UInt8) :
    decodeRest pending size (bytes ++ more) = decodeRest pending size bytes := by
  induction bytes generalizing pending size with
  | nil => exact absurd rfl complete
  | cons byte rest ih =>
      simp only [List.cons_append, decodeRest] at complete ⊢
      split
      next within =>
        rw [if_pos within] at complete
        cases further_eq : pending.further with
        | zero => rfl
        | succ further =>
            simp only [further_eq] at complete
            exact ih complete
      next => rfl

theorem decode_append {bytes : List UInt8} (complete : decode bytes ≠ .incomplete)
    (more : List UInt8) : decode (bytes ++ more) = decode bytes := by
  cases bytes with
  | nil => exact absurd rfl complete
  | cons leading rest =>
      simp only [List.cons_append, decode] at complete ⊢
      split
      next => rfl
      next large =>
        rw [if_neg large] at complete
        cases pending_eq : pendingAfter? leading.toNat with
        | none => rfl
        | some pending =>
            simp only [pending_eq] at complete
            exact decodeRest_append complete more

/-- How many bytes at the front of a malformed sequence are at fault: those that could begin an
encoded code point if others followed, or the first one if none could. -/
def faultSize (bytes : List UInt8) : Nat :=
  max 1 (([1, 2, 3].filter fun size => decode (bytes.take size) = .incomplete).length)

/-- Why bytes are not the encoding of a text. -/
inductive Invalid where
  /-- Bytes at an offset that begin no encoded code point. -/
  | malformed (offset size : Nat)
  /-- The bytes end inside a code point that begins at an offset. -/
  | incomplete (offset : Nat)
deriving DecidableEq, Repr

def Invalid.message : Invalid → String
  | .malformed offset size => s!"invalid utf-8 sequence of {size} bytes from index {offset}"
  | .incomplete offset => s!"incomplete utf-8 byte sequence from index {offset}"

/-- The text that bytes encode, `offset` counting the bytes before them and `text` holding the code
points before them, the latest first. -/
def decodeAllFrom (bytes : List UInt8) (offset : Nat) (text : List Char) :
    Except Invalid (List Char) :=
  match _decoded : decode bytes with
  | .char character size => decodeAllFrom (bytes.drop size) (offset + size) (character :: text)
  | .malformed _ => .error (.malformed offset (faultSize bytes))
  | .incomplete =>
      if bytes.isEmpty then .ok text.reverse else .error (.incomplete offset)
termination_by bytes.length
decreasing_by
  have := size_pos_of_decode _decoded
  cases bytes with
  | nil => simp [decode] at _decoded
  | cons leading rest =>
      rw [List.length_drop, List.length_cons]
      omega

def decodeAll (bytes : List UInt8) : Except Invalid (List Char) :=
  decodeAllFrom bytes 0 []

end Utf8

def Encoding.utf8 : Encoding UInt8 where
  decode := Utf8.decode
  decode_nil := rfl
  size_pos := Utf8.size_pos_of_decode
  size_le := Utf8.size_le_of_decode
  decode_append := Utf8.decode_append

end StreamGrammar
