import Mathlib.Order.Bounds.Basic
import Mathlib.Order.Nat
import Mathlib.Tactic.IntervalCases
import StreamGrammar.Encoding.Utf16
import StreamGrammar.Encoding.Utf8

/-!
# Decoding what was encoded

What either decoder reads as a code point is the encoding of that code point, and the
encoding of a code point is read as that code point, whatever follows it. Units that
may still become a code point are those that begin the encoding of one.
-/

namespace StreamGrammar

theorem toNat_ofNat_of_isValidChar {number : Nat} (valid : number.isValidChar) :
    (Char.ofNat number).toNat = number := by
  rw [Char.ofNat, dif_pos valid]
  rfl

theorem toNat_lt_size (character : Char) : character.toNat < 0x110000 := by
  have valid := character.valid
  simp only [UInt32.isValidChar, Nat.isValidChar, Char.toNat] at valid ⊢
  omega

/-- Units are incomplete exactly if they begin the encoding of a code point without holding all of
it, provided that code points are read where their encodings come and that incomplete units can be
completed. -/
theorem Encoding.decode_eq_incomplete_iff {Unit : Type} (encoding : Encoding Unit)
    (encode : Char → List Unit)
    (char_iff : ∀ {units character size}, encoding.decode units = .char character size ↔
      encode character <+: units ∧ size = (encode character).length)
    (completes : ∀ {units}, encoding.decode units = .incomplete →
      ∃ more character size, encoding.decode (units ++ more) = .char character size)
    {units : List Unit} : encoding.decode units = .incomplete ↔
      ∃ character, units <+: encode character ∧ units ≠ encode character := by
  constructor
  · intro incomplete
    rcases completes incomplete with ⟨more, character, size, decoded⟩
    have unfinished : ¬encode character <+: units := by
      intro encoded
      rw [char_iff.mpr ⟨encoded, rfl⟩] at incomplete
      cases incomplete
    rcases List.prefix_or_prefix_of_prefix (char_iff.mp decoded).1
      (List.prefix_append units more) with encoded | begins
    · exact (unfinished encoded).elim
    · refine ⟨character, begins, ?_⟩
      rintro rfl
      exact unfinished List.prefix_rfl
  · rintro ⟨character, ⟨more, units_eq⟩, proper⟩
    by_contra complete
    have decoded := encoding.decode_append complete more
    have encoded : encoding.decode (encode character) =
        .char character (encode character).length := char_iff.mpr ⟨List.prefix_rfl, rfl⟩
    rw [units_eq, encoded] at decoded
    have finished := (char_iff.mp decoded.symm).1
    exact proper (List.IsPrefix.eq_of_length_le ⟨more, units_eq⟩ finished.length_le)

namespace Utf8

theorem div_pow_succ (number count : Nat) :
    number / 64 ^ (count + 1) = number / 64 ^ count / 64 := by
  rw [Nat.pow_succ, Nat.div_div_eq_div_mul]

/-- The last `count` bytes of an encoded number, which carry six bits each. -/
def continuation (number : Nat) : (count : Nat) → List UInt8
  | 0 => []
  | count + 1 => .ofNat (0x80 + number / 64 ^ count % 64) :: continuation number count

/-- The leading byte of an encoded code point tells how many bytes follow, and carries the bits that
they do not. -/
theorem utf8EncodeChar_eq (character : Char) : String.utf8EncodeChar character =
    if character.toNat ≤ 0x7F then [.ofNat character.toNat]
    else if character.toNat ≤ 0x7FF then
      .ofNat (0xC0 + character.toNat / 64 ^ 1) :: continuation character.toNat 1
    else if character.toNat ≤ 0xFFFF then
      .ofNat (0xE0 + character.toNat / 64 ^ 2) :: continuation character.toNat 2
    else .ofNat (0xF0 + character.toNat / 64 ^ 3) :: continuation character.toNat 3 := by
  have bound := toNat_lt_size character
  have toNat_eq : character.val.toNat = character.toNat := rfl
  simp only [String.utf8EncodeChar, toNat_eq, continuation, Nat.reducePow, Nat.pow_zero,
    Nat.div_one, Nat.add_comm]
  split_ifs
  next => rfl
  next => rw [Nat.mod_eq_of_lt (by omega : character.toNat / 64 < 32)]
  next => rw [Nat.mod_eq_of_lt (by omega : character.toNat / 4096 < 16)]
  next => rw [Nat.mod_eq_of_lt (by omega : character.toNat / 262144 < 8)]

theorem pendingAfter?_eq_some_iff {leading : Nat} {pending : Pending} :
    pendingAfter? leading = some pending ↔
      (∃ top, 2 ≤ top ∧ top < 32 ∧ leading = 0xC0 + top ∧ pending = ⟨top, 0, 0x80, 0xBF⟩) ∨
      (∃ top, top < 16 ∧ leading = 0xE0 + top ∧ pending =
        ⟨top, 1, if top = 0 then 0xA0 else 0x80, if top = 0xD then 0x9F else 0xBF⟩) ∨
      ∃ top, top < 5 ∧ leading = 0xF0 + top ∧ pending =
        ⟨top, 2, if top = 0 then 0x90 else 0x80, if top = 4 then 0x8F else 0xBF⟩ := by
  constructor
  · intro pending_eq
    unfold pendingAfter? at pending_eq
    split_ifs at pending_eq with _ _ atE0 atED _ atF0 _ atF4
    all_goals rw [← Option.some.inj pending_eq]
    · exact .inl ⟨leading - 0xC0, by omega, by omega, by omega, rfl⟩
    · exact .inr (.inl ⟨0, by omega, atE0, rfl⟩)
    · exact .inr (.inl ⟨0xD, by omega, atED, rfl⟩)
    · refine .inr (.inl ⟨leading - 0xE0, by omega, by omega, ?_⟩)
      rw [if_neg (by omega), if_neg (by omega)]
    · exact .inr (.inr ⟨0, by omega, atF0, rfl⟩)
    · refine .inr (.inr ⟨leading - 0xF0, by omega, by omega, ?_⟩)
      rw [if_neg (by omega), if_neg (by omega)]
    · exact .inr (.inr ⟨4, by omega, atF4, rfl⟩)
  · rintro (⟨top, two_le, top_lt, rfl, rfl⟩ | ⟨top, top_lt, rfl, rfl⟩ | ⟨top, top_lt, rfl, rfl⟩)
    · rw [pendingAfter?, if_neg (by omega), if_pos (by omega), Nat.add_sub_cancel_left]
    · interval_cases top <;> rfl
    · interval_cases top <;> rfl

theorem ofNat_eq_iff {value : Nat} {byte : UInt8} :
    UInt8.ofNat (0x80 + value % 64) = byte ↔ byte.toNat = 0x80 + value % 64 := by
  rw [← UInt8.toNat_inj, UInt8.toNat_ofNat_of_lt' (by simp only [UInt8.size]; omega)]
  exact eq_comm

/-- The number carries the bits of the leading byte, and its next six bits are within the bounds. -/
structure Pending.Begins (pending : Pending) (number : Nat) : Prop where
  bits_eq : number / 64 ^ (pending.further + 1) = pending.bits
  low_le : pending.low ≤ 0x80 + number / 64 ^ pending.further % 64
  le_high : 0x80 + number / 64 ^ pending.further % 64 ≤ pending.high

theorem Pending.begins_iff {bits further low high number : Nat} :
    (Pending.mk bits further low high).Begins number ↔ number / 64 ^ (further + 1) = bits ∧
      low ≤ 0x80 + number / 64 ^ further % 64 ∧ 0x80 + number / 64 ^ further % 64 ≤ high :=
  ⟨fun begins => ⟨begins.bits_eq, begins.low_le, begins.le_high⟩,
    fun ⟨bits_eq, low_le, le_high⟩ => ⟨bits_eq, low_le, le_high⟩⟩

/-- Reading continuation bytes puts their bits behind those of the leading byte. -/
theorem decodeRest_eq_char_iff {pending : Pending} {size total : Nat} {bytes : List UInt8}
    {character : Char} (low_le : 0x80 ≤ pending.low) (high_le : pending.high ≤ 0xBF) :
    decodeRest pending size bytes = .char character total ↔
      ∃ number, pending.Begins number ∧ continuation number (pending.further + 1) <+: bytes ∧
        character = Char.ofNat number ∧ total = size + pending.further + 1 := by
  rcases pending with ⟨bits, further, low, high⟩
  simp only [Pending.begins_iff] at low_le high_le ⊢
  induction further generalizing bits low high size bytes with
  | zero =>
      cases bytes with
      | nil => simp [decodeRest, continuation]
      | cons byte rest =>
          simp only [decodeRest, continuation, List.cons_prefix_cons, List.nil_prefix, and_true,
            Nat.zero_add, Nat.pow_one, Nat.pow_zero, Nat.div_one, ofNat_eq_iff]
          split
          next within =>
            rw [Decoded.char.injEq]
            constructor
            · rintro ⟨rfl, rfl⟩
              exact ⟨bits * 64 + (byte.toNat - 0x80), ⟨by omega, by omega, by omega⟩, by omega, rfl,
                rfl⟩
            · rintro ⟨number, ⟨bits_eq, _, _⟩, byte_eq, rfl, rfl⟩
              rw [show bits * 64 + (byte.toNat - 0x80) = number by omega]
              exact ⟨rfl, rfl⟩
          next outside =>
            simp only [reduceCtorEq, false_iff, not_exists, not_and]
            rintro number ⟨_, low_le, le_high⟩ byte_eq
            exact (outside (by omega)).elim
  | succ further ih =>
      cases bytes with
      | nil => simp [decodeRest, continuation]
      | cons byte rest =>
          have continuation_eq : ∀ number, continuation number (further + 1 + 1) =
              .ofNat (0x80 + number / 64 ^ (further + 1) % 64) :: continuation number (further + 1) :=
            fun _ => rfl
          simp only [decodeRest, continuation_eq, List.cons_prefix_cons, ofNat_eq_iff,
            div_pow_succ _ (further + 1)]
          split
          next within =>
            rw [ih _ _ _ (Nat.le_refl _) (Nat.le_refl _)]
            constructor
            · rintro ⟨number, ⟨bits_eq, _, _⟩, rest_prefix, rfl, rfl⟩
              exact ⟨number, ⟨by omega, by omega, by omega⟩, ⟨by omega, rest_prefix⟩, rfl, by omega⟩
            · rintro ⟨number, ⟨bits_eq, _, _⟩, ⟨byte_eq, rest_prefix⟩, rfl, rfl⟩
              exact ⟨number, ⟨by omega, by omega, by omega⟩, rest_prefix, rfl, by omega⟩
          next outside =>
            simp only [reduceCtorEq, false_iff, not_exists, not_and]
            rintro number ⟨_, low_le, le_high⟩ ⟨byte_eq, _⟩
            exact (outside (by omega)).elim

@[simp]
theorem length_continuation (number count : Nat) : (continuation number count).length = count := by
  induction count with
  | zero => rfl
  | succ count ih => rw [continuation, List.length_cons, ih]

theorem bounds_of_pendingAfter? {leading : Nat} {pending : Pending}
    (pending_eq : pendingAfter? leading = some pending) :
    0x80 ≤ pending.low ∧ pending.low ≤ pending.high ∧ pending.high ≤ 0xBF := by
  rcases pendingAfter?_eq_some_iff.mp pending_eq with
    ⟨top, _, _, rfl, rfl⟩ | ⟨top, _, rfl, rfl⟩ | ⟨top, _, rfl, rfl⟩
  · exact ⟨Nat.le_refl _, Nat.le_of_ble_eq_true rfl, Nat.le_refl _⟩
  · dsimp only
    split_ifs <;> omega
  · dsimp only
    split_ifs <;> omega

/-- The bounds of the first continuation byte keep a number to those that take up just as many bytes
and are code points. -/
theorem utf8EncodeChar_ofNat {leading number : Nat} {pending : Pending}
    (pending_eq : pendingAfter? leading = some pending) (begins : pending.Begins number) :
    String.utf8EncodeChar (Char.ofNat number) =
      .ofNat leading :: continuation number (pending.further + 1) := by
  rcases pendingAfter?_eq_some_iff.mp pending_eq with
    ⟨top, _, _, rfl, rfl⟩ | ⟨top, _, rfl, rfl⟩ | ⟨top, _, rfl, rfl⟩ <;>
    rcases Pending.begins_iff.mp begins with ⟨number_eq, low_le, le_high⟩
  · simp only [Nat.zero_add, Nat.pow_one] at number_eq
    rw [utf8EncodeChar_eq, toNat_ofNat_of_isValidChar (.inl (by omega)), if_neg (by omega),
      if_pos (by omega), Nat.pow_one, number_eq]
  · simp only [div_pow_succ number 1, Nat.pow_one] at number_eq low_le le_high
    have bounds : 0x800 ≤ number ∧ number ≤ 0xFFFF ∧ number.isValidChar := by
      rw [Nat.isValidChar]
      split_ifs at low_le le_high <;> omega
    rw [utf8EncodeChar_eq, toNat_ofNat_of_isValidChar bounds.2.2, if_neg (by omega),
      if_neg (by omega), if_pos (by omega), div_pow_succ number 1, Nat.pow_one, number_eq]
  · simp only [div_pow_succ number 2, div_pow_succ number 1, Nat.pow_one] at number_eq low_le le_high
    have bounds : 0x10000 ≤ number ∧ number.isValidChar := by
      rw [Nat.isValidChar]
      split_ifs at low_le le_high <;> omega
    rw [utf8EncodeChar_eq, toNat_ofNat_of_isValidChar bounds.2, if_neg (by omega),
      if_neg (by omega), if_neg (by omega), div_pow_succ number 2, div_pow_succ number 1, Nat.pow_one,
      number_eq]

/-- The encoding of a code point of two or more bytes begins with a byte that tells so. -/
theorem exists_pendingAfter? {character : Char} (large : 0x7F < character.toNat) :
    ∃ leading pending, leading < 256 ∧ pendingAfter? leading = some pending ∧
      pending.Begins character.toNat := by
  have valid : character.toNat.isValidChar := character.valid
  rw [Nat.isValidChar] at valid
  by_cases two : character.toNat ≤ 0x7FF
  · refine ⟨0xC0 + character.toNat / 64, ⟨character.toNat / 64, 0, 0x80, 0xBF⟩, by omega,
      pendingAfter?_eq_some_iff.mpr (.inl ⟨_, by omega, by omega, rfl, rfl⟩), ?_⟩
    rw [Pending.begins_iff, Nat.zero_add, Nat.pow_one, Nat.pow_zero, Nat.div_one]
    omega
  · by_cases three : character.toNat ≤ 0xFFFF
    · refine ⟨0xE0 + character.toNat / 64 / 64, ⟨character.toNat / 64 / 64, 1, _, _⟩, by omega,
        pendingAfter?_eq_some_iff.mpr (.inr (.inl ⟨_, by omega, rfl, rfl⟩)), ?_⟩
      simp only [Pending.begins_iff, div_pow_succ _ 1, Nat.pow_one, true_and]
      split_ifs <;> omega
    · refine ⟨0xF0 + character.toNat / 64 / 64 / 64, ⟨character.toNat / 64 / 64 / 64, 2, _, _⟩,
        by omega, pendingAfter?_eq_some_iff.mpr (.inr (.inr ⟨_, by omega, rfl, rfl⟩)), ?_⟩
      simp only [Pending.begins_iff, div_pow_succ _ 2, div_pow_succ _ 1, Nat.pow_one, true_and]
      split_ifs <;> omega

theorem decode_cons_eq_char_iff {leading : UInt8} {rest : List UInt8} {character : Char}
    {size : Nat} : decode (leading :: rest) = .char character size ↔
      (leading.toNat < 0x80 ∧ character = Char.ofNat leading.toNat ∧ size = 1) ∨
      ∃ pending, pendingAfter? leading.toNat = some pending ∧
        decodeRest pending 1 rest = .char character size := by
  simp only [decode]
  split
  next small =>
    have none_eq : pendingAfter? leading.toNat = none := if_pos (by omega)
    simp [small, none_eq, eq_comm]
  next large =>
    cases pendingAfter? leading.toNat with
    | none => simp [large]
    | some pending => simp [large]

/-- What is read as a code point is its encoding. -/
theorem encodeChar_prefix_of_decode {bytes : List UInt8} {character : Char} {size : Nat}
    (decoded : decode bytes = .char character size) :
    String.utf8EncodeChar character <+: bytes ∧
      size = (String.utf8EncodeChar character).length := by
  cases bytes with
  | nil => cases decoded
  | cons leading rest =>
      rcases decode_cons_eq_char_iff.mp decoded with
        ⟨small, rfl, rfl⟩ | ⟨pending, pending_eq, collected⟩
      · rw [utf8EncodeChar_eq, toNat_ofNat_of_isValidChar (.inl (by omega)), if_pos (by omega),
          UInt8.ofNat_toNat]
        exact ⟨⟨rest, rfl⟩, rfl⟩
      · rcases bounds_of_pendingAfter? pending_eq with ⟨low_le, _, high_le⟩
        rcases (decodeRest_eq_char_iff low_le high_le).mp collected with
          ⟨number, begins, rest_prefix, rfl, rfl⟩
        rw [utf8EncodeChar_ofNat pending_eq begins, UInt8.ofNat_toNat]
        refine ⟨List.cons_prefix_cons.mpr ⟨rfl, rest_prefix⟩, ?_⟩
        rw [List.length_cons, length_continuation]
        omega

/-- The encoding of a code point is read as that code point, whatever follows. -/
theorem decode_encodeChar_append (character : Char) (more : List UInt8) :
    decode (String.utf8EncodeChar character ++ more) =
      .char character (String.utf8EncodeChar character).length := by
  by_cases large : 0x7F < character.toNat
  · rcases exists_pendingAfter? large with ⟨leading, pending, leading_lt, pending_eq, begins⟩
    rcases bounds_of_pendingAfter? pending_eq with ⟨low_le, _, high_le⟩
    have encode_eq := utf8EncodeChar_ofNat pending_eq begins
    rw [Char.ofNat_toNat] at encode_eq
    have leading_eq : (UInt8.ofNat leading).toNat = leading := UInt8.toNat_ofNat_of_lt' leading_lt
    rw [encode_eq, List.cons_append, decode_cons_eq_char_iff, leading_eq]
    refine .inr ⟨pending, pending_eq, (decodeRest_eq_char_iff low_le high_le).mpr ?_⟩
    refine ⟨_, begins, List.prefix_append _ _, (Char.ofNat_toNat character).symm, ?_⟩
    rw [List.length_cons, length_continuation]
    omega
  · have byte_eq : (UInt8.ofNat character.toNat).toNat = character.toNat :=
      UInt8.toNat_ofNat_of_lt' (by simp only [UInt8.size]; omega)
    rw [utf8EncodeChar_eq, if_pos (by omega), List.singleton_append, decode_cons_eq_char_iff, byte_eq]
    exact .inl ⟨by omega, (Char.ofNat_toNat character).symm, rfl⟩

/-- A code point is read exactly where its encoding comes, all of it and nothing more. -/
theorem decode_eq_char_iff {bytes : List UInt8} {character : Char} {size : Nat} :
    decode bytes = .char character size ↔ String.utf8EncodeChar character <+: bytes ∧
      size = (String.utf8EncodeChar character).length := by
  refine ⟨encodeChar_prefix_of_decode, ?_⟩
  rintro ⟨⟨more, rfl⟩, rfl⟩
  exact decode_encodeChar_append character more

/-- Whatever continuation bytes are still to come, there are some that complete a code point. -/
theorem exists_decodeRest_char (pending : Pending) (bounds : pending.low ≤ pending.high ∧
    pending.high ≤ 0xBF) (size : Nat) :
    ∃ more character total, decodeRest pending size more = .char character total := by
  induction further_eq : pending.further generalizing pending size with
  | zero =>
      have byte_eq : (UInt8.ofNat pending.low).toNat = pending.low :=
        UInt8.toNat_ofNat_of_lt' (by simp only [UInt8.size]; omega)
      refine ⟨[.ofNat pending.low], .ofNat (pending.bits * 64 + (pending.low - 0x80)), size + 1, ?_⟩
      simp only [decodeRest, byte_eq, Nat.le_refl, bounds, and_self, if_true, further_eq]
  | succ further ih =>
      have byte_eq : (UInt8.ofNat pending.low).toNat = pending.low :=
        UInt8.toNat_ofNat_of_lt' (by simp only [UInt8.size]; omega)
      have nextBounds : (0x80 : Nat) ≤ 0xBF ∧ 0xBF ≤ 0xBF := by decide
      rcases ih ⟨pending.bits * 64 + (pending.low - 0x80), further, 0x80, 0xBF⟩ nextBounds
        (size + 1) rfl with ⟨more, character, total, more_eq⟩
      refine ⟨.ofNat pending.low :: more, character, total, ?_⟩
      simp only [decodeRest, byte_eq, Nat.le_refl, bounds, and_self, if_true, further_eq]
      exact more_eq

theorem exists_decodeRest_append {pending : Pending} (bounds : pending.low ≤ pending.high ∧
    pending.high ≤ 0xBF) {size : Nat} {bytes : List UInt8}
    (incomplete : decodeRest pending size bytes = .incomplete) :
    ∃ more character total, decodeRest pending size (bytes ++ more) = .char character total := by
  induction bytes generalizing pending size with
  | nil => exact exists_decodeRest_char pending bounds size
  | cons byte rest ih =>
      simp only [decodeRest] at incomplete
      split at incomplete
      next within =>
        split at incomplete
        next => cases incomplete
        next further further_eq =>
          rcases ih ⟨Nat.le_of_ble_eq_true rfl, Nat.le_refl _⟩ incomplete with
            ⟨more, character, total, more_eq⟩
          refine ⟨more, character, total, ?_⟩
          simp only [List.cons_append, decodeRest, if_pos within, further_eq]
          exact more_eq
      next => cases incomplete

/-- Bytes that are incomplete become a code point with some more. -/
theorem exists_decode_append {bytes : List UInt8} (incomplete : decode bytes = .incomplete) :
    ∃ more character total, decode (bytes ++ more) = .char character total := by
  cases bytes with
  | nil => exact ⟨_, _, _, decode_encodeChar_append 'a' []⟩
  | cons leading rest =>
      simp only [decode] at incomplete
      split at incomplete
      next => cases incomplete
      next large =>
        split at incomplete
        next => cases incomplete
        next pending pending_eq =>
          rcases bounds_of_pendingAfter? pending_eq with ⟨_, bounds⟩
          rcases exists_decodeRest_append bounds incomplete with ⟨more, character, total, more_eq⟩
          exact ⟨more, character, total,
            decode_cons_eq_char_iff.mpr (.inr ⟨pending, pending_eq, more_eq⟩)⟩

theorem decode_eq_incomplete_iff {bytes : List UInt8} : decode bytes = .incomplete ↔
    ∃ character, bytes <+: String.utf8EncodeChar character ∧
      bytes ≠ String.utf8EncodeChar character :=
  Encoding.decode_eq_incomplete_iff .utf8 String.utf8EncodeChar decode_eq_char_iff
    exists_decode_append

theorem cause_of_decodeRest_malformed {pending : Pending} {size : Nat} {bytes : List UInt8}
    {cause : Malformation} (malformed : decodeRest pending size bytes = .malformed cause) :
    cause = .malformedBytes := by
  induction bytes generalizing pending size with
  | nil => cases malformed
  | cons byte rest ih =>
      simp only [decodeRest] at malformed
      split at malformed
      next =>
        split at malformed
        next => cases malformed
        next => exact ih malformed
      next => exact (Decoded.malformed.inj malformed).symm

theorem cause_of_decode_malformed {bytes : List UInt8} {cause : Malformation}
    (malformed : decode bytes = .malformed cause) : cause = .malformedBytes := by
  cases bytes with
  | nil => cases malformed
  | cons leading rest =>
      simp only [decode] at malformed
      split at malformed
      next => cases malformed
      next =>
        split at malformed
        next => exact (Decoded.malformed.inj malformed).symm
        next => exact cause_of_decodeRest_malformed malformed

section Readers

/-- Reads the first code point of some bytes. The number is how many bytes it takes up or, where
there is none, how many bytes are at fault. -/
abbrev Reader := List UInt8 → Option Char × Nat

/-- The bytes begin the encoding of a code point, and may hold all of it. -/
def BeginsChar (bytes : List UInt8) : Prop :=
  ∃ character, bytes <+: String.utf8EncodeChar character

/-- What is documented of a reader: an encoded code point is read, and of other bytes those are at
fault that begin one, as many of them as possible, but at least one. -/
structure Reader.IsDocumented (read : Reader) : Prop where
  valid : ∀ character more, read (String.utf8EncodeChar character ++ more) =
    (some character, (String.utf8EncodeChar character).length)
  invalid : ∀ bytes, bytes ≠ [] → (∀ character, ¬String.utf8EncodeChar character <+: bytes) →
    ∃ longest, IsGreatest {size | size ≤ bytes.length ∧ BeginsChar (bytes.take size)} longest ∧
      read bytes = (none, max 1 longest)

/-- The number of bytes that a leading byte announces, itself included. -/
def sequenceLength (leading : UInt8) : Nat :=
  if 0xC2 ≤ leading.toNat ∧ leading.toNat ≤ 0xDF then 2
  else if 0xE0 ≤ leading.toNat ∧ leading.toNat ≤ 0xEF then 3
  else if 0xF0 ≤ leading.toNat ∧ leading.toNat ≤ 0xF4 then 4
  else 1

/-- What a sequence of bytes begins with, found out by a reader. If all bytes are at fault and more
are announced, the bytes are incomplete. -/
def decodeThrough (read : Reader) : List UInt8 → Decoded
  | [] => .incomplete
  | leading :: rest =>
      match read (leading :: rest) with
      | (some character, size) => .char character size
      | (none, size) =>
          if size = (leading :: rest).length ∧ size < sequenceLength leading then .incomplete
          else .malformed .malformedBytes

theorem sequenceLength_eq (leading : UInt8) : sequenceLength leading =
    match pendingAfter? leading.toNat with
    | some pending => pending.further + 2
    | none => 1 := by
  cases pending_eq : pendingAfter? leading.toNat with
  | some pending =>
      rcases pendingAfter?_eq_some_iff.mp pending_eq with
        ⟨top, _, _, top_eq, rfl⟩ | ⟨top, _, top_eq, rfl⟩ | ⟨top, _, top_eq, rfl⟩
      · rw [sequenceLength, if_pos (by omega)]
      · rw [sequenceLength, if_neg (by omega), if_pos (by omega)]
      · rw [sequenceLength, if_neg (by omega), if_neg (by omega), if_pos (by omega)]
  | none =>
      rw [Option.eq_none_iff_forall_ne_some] at pending_eq
      have notTwo : ¬(0xC2 ≤ leading.toNat ∧ leading.toNat ≤ 0xDF) := by
        intro within
        exact pending_eq _ (pendingAfter?_eq_some_iff.mpr
          (.inl ⟨leading.toNat - 0xC0, by omega, by omega, by omega, rfl⟩))
      have notThree : ¬(0xE0 ≤ leading.toNat ∧ leading.toNat ≤ 0xEF) := by
        intro within
        exact pending_eq _ (pendingAfter?_eq_some_iff.mpr
          (.inr (.inl ⟨leading.toNat - 0xE0, by omega, by omega, rfl⟩)))
      have notFour : ¬(0xF0 ≤ leading.toNat ∧ leading.toNat ≤ 0xF4) := by
        intro within
        exact pending_eq _ (pendingAfter?_eq_some_iff.mpr
          (.inr (.inr ⟨leading.toNat - 0xF0, by omega, by omega, rfl⟩)))
      rw [sequenceLength, if_neg notTwo, if_neg notThree, if_neg notFour]

theorem length_encodeChar {character : Char} {leading : UInt8} {rest : List UInt8}
    (begins : leading :: rest <+: String.utf8EncodeChar character) :
    (String.utf8EncodeChar character).length = sequenceLength leading := by
  rw [sequenceLength_eq]
  by_cases large : 0x7F < character.toNat
  · rcases exists_pendingAfter? large with ⟨byte, pending, byte_lt, pending_eq, beginsNumber⟩
    have encode_eq := utf8EncodeChar_ofNat pending_eq beginsNumber
    rw [Char.ofNat_toNat] at encode_eq
    rw [encode_eq, List.cons_prefix_cons] at begins
    rw [encode_eq, begins.1, UInt8.toNat_ofNat_of_lt' byte_lt, pending_eq, List.length_cons,
      length_continuation]
  · have byte_eq : (UInt8.ofNat character.toNat).toNat = character.toNat :=
      UInt8.toNat_ofNat_of_lt' (by simp only [UInt8.size]; omega)
    have none_eq : pendingAfter? character.toNat = none := if_pos (by omega)
    have encode_eq : String.utf8EncodeChar character = [.ofNat character.toNat] := by
      rw [utf8EncodeChar_eq, if_pos (by omega)]
    rw [encode_eq, List.cons_prefix_cons] at begins
    rw [encode_eq, begins.1, byte_eq, none_eq, List.length_singleton]

theorem decode_singleton {leading : UInt8} (more : 1 < sequenceLength leading) :
    decode [leading] = .incomplete := by
  rw [sequenceLength_eq] at more
  split at more
  next pending pending_eq =>
    have large : ¬leading.toNat < 0x80 := by
      intro small
      have none_eq : pendingAfter? leading.toNat = none := if_pos (by omega)
      simp [none_eq] at pending_eq
    simp [decode, large, pending_eq, decodeRest]
  next => omega

/-- Decoding through a documented reader gives the same as decoding byte by byte. -/
theorem decodeThrough_eq {read : Reader} (documented : Reader.IsDocumented read)
    (bytes : List UInt8) : decodeThrough read bytes = decode bytes := by
  cases bytes with
  | nil => rfl
  | cons leading rest =>
      by_cases encoded : ∃ character, String.utf8EncodeChar character <+: leading :: rest
      · rcases encoded with ⟨character, more, bytes_eq⟩
        have read_eq := documented.valid character more
        rw [bytes_eq] at read_eq
        have decoded := decode_encodeChar_append character more
        rw [bytes_eq] at decoded
        rw [decoded]
        simp only [decodeThrough, read_eq]
      · -- Only here does the reader report how many bytes begin a code point.
        simp only [not_exists] at encoded
        rcases documented.invalid _ (List.cons_ne_nil _ _) encoded with
          ⟨longest, ⟨⟨longest_le, longest_begins⟩, greatest⟩, read_eq⟩
        simp only [decodeThrough, read_eq]
        cases decoded : decode (leading :: rest) with
        | char character size => exact (encoded character (decode_eq_char_iff.mp decoded).1).elim
        | incomplete =>
            rcases decode_eq_incomplete_iff.mp decoded with ⟨character, begins, proper⟩
            have whole : (leading :: rest).length ≤ longest :=
              greatest ⟨Nat.le_refl _, character, by rw [List.take_length]; exact begins⟩
            have longest_eq := Nat.le_antisymm longest_le whole
            have shorter : (leading :: rest).length < sequenceLength leading := by
              rw [← length_encodeChar begins]
              by_contra full
              exact proper (begins.eq_of_length_le (by omega))
            rw [longest_eq, Nat.max_eq_right (by simp)]
            exact if_pos ⟨rfl, shorter⟩
        | malformed cause =>
            rw [cause_of_decode_malformed decoded]
            apply if_neg
            rintro ⟨size_eq, announced⟩
            have incomplete : decode (leading :: rest) = .incomplete := by
              by_cases longest_eq : longest = (leading :: rest).length
              · rw [longest_eq, List.take_length] at longest_begins
                rcases longest_begins with ⟨character, begins⟩
                refine decode_eq_incomplete_iff.mpr ⟨character, begins, ?_⟩
                rintro bytes_eq
                exact encoded character (bytes_eq ▸ List.prefix_rfl)
              · -- A byte that begins nothing counts as one all the same.
                have single : (leading :: rest).length = 1 := by omega
                obtain rfl : rest = [] := by simpa using single
                exact decode_singleton (by omega)
            rw [decoded] at incomplete
            cases incomplete

/-- The reader that tries how far the bytes go. -/
def Reader.trying : Reader := fun bytes =>
  match decode bytes with
  | .char character size => (some character, size)
  | _ => (none, max 1 (Nat.findGreatest (fun size => decode (bytes.take size) = .incomplete)
      bytes.length))

theorem Reader.isDocumented_trying : Reader.IsDocumented Reader.trying where
  valid character more := by
    simp only [trying, decode_encodeChar_append]
  invalid bytes _ unencoded := by
    have begins_iff : ∀ size, BeginsChar (bytes.take size) ↔
        decode (bytes.take size) = .incomplete := by
      intro size
      rw [decode_eq_incomplete_iff]
      refine exists_congr fun character => (and_iff_left_of_imp ?_).symm
      intro _ take_eq
      exact unencoded character (take_eq ▸ List.take_prefix size bytes)
    refine ⟨Nat.findGreatest (fun size => decode (bytes.take size) = .incomplete) bytes.length,
      ⟨⟨Nat.findGreatest_le _, ?_⟩, ?_⟩, ?_⟩
    · exact (begins_iff _).mpr (Nat.findGreatest_spec
        (P := fun size => decode (bytes.take size) = .incomplete) (Nat.zero_le _) rfl)
    · rintro size ⟨size_le, begins⟩
      exact Nat.le_findGreatest size_le ((begins_iff size).mp begins)
    · simp only [trying]
      split
      next character size decoded =>
        exact (unencoded character (decode_eq_char_iff.mp decoded).1).elim
      next => rfl

end Readers

end Utf8

namespace Utf16

theorem pairNumber_eq {high low : UInt16} {number : Nat}
    (high_eq : high.toNat = 0xD800 + (number - 0x10000) / 0x400)
    (low_eq : low.toNat = 0xDC00 + (number - 0x10000) % 0x400) (large : 0x10000 ≤ number) :
    pairNumber high low = number := by
  unfold pairNumber
  omega

theorem decode_pair {high low : UInt16} (isHigh : IsHighSurrogate high)
    (isLow : IsLowSurrogate low) (more : List UInt16) :
    decode (high :: low :: more) = .char (Char.ofNat (pairNumber high low)) 2 := by
  simp only [decode, if_pos isHigh, if_pos isLow]

/-- The encoding of a code point is read as that code point, whatever follows. -/
theorem decode_encodeChar_append (character : Char) (more : List UInt16) :
    decode (encodeChar character ++ more) = .char character (encodeChar character).length := by
  have valid : character.toNat.isValidChar := character.valid
  rw [Nat.isValidChar] at valid
  simp only [encodeChar]
  split
  next small =>
    have unit_eq : (UInt16.ofNat character.toNat).toNat = character.toNat :=
      UInt16.toNat_ofNat_of_lt' small
    have notHigh : ¬IsHighSurrogate (.ofNat character.toNat) := by
      rw [IsHighSurrogate, unit_eq]
      omega
    have notLow : ¬IsLowSurrogate (.ofNat character.toNat) := by
      rw [IsLowSurrogate, unit_eq]
      omega
    simp only [List.singleton_append, decode, if_neg notHigh, if_neg notLow, unit_eq,
      Char.ofNat_toNat, List.length_singleton]
  next large =>
    have high_eq : (UInt16.ofNat (0xD800 + (character.toNat - 0x10000) / 0x400)).toNat =
        0xD800 + (character.toNat - 0x10000) / 0x400 :=
      UInt16.toNat_ofNat_of_lt' (by simp only [UInt16.size]; omega)
    have low_eq : (UInt16.ofNat (0xDC00 + (character.toNat - 0x10000) % 0x400)).toNat =
        0xDC00 + (character.toNat - 0x10000) % 0x400 :=
      UInt16.toNat_ofNat_of_lt' (by simp only [UInt16.size]; omega)
    have isHigh : IsHighSurrogate (.ofNat (0xD800 + (character.toNat - 0x10000) / 0x400)) := by
      rw [IsHighSurrogate, high_eq]
      omega
    have isLow : IsLowSurrogate (.ofNat (0xDC00 + (character.toNat - 0x10000) % 0x400)) := by
      rw [IsLowSurrogate, low_eq]
      omega
    have pair_eq := pairNumber_eq high_eq low_eq (Nat.le_of_not_lt large)
    refine (decode_pair isHigh isLow more).trans ?_
    rw [pair_eq, Char.ofNat_toNat]
    rfl

end Utf16

end StreamGrammar
