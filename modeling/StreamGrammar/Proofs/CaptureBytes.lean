import Mathlib.Data.String.Basic
import StreamGrammar.Proofs.Captures

/-!
# Captured text in bytes

The shared text of the open regions is kept in UTF-8, and a region starts at an offset
that counts bytes. To publish a region the text is sliced three times: from its start,
and by two offsets that are found by counting code points from either end of the region.
Slicing is possible only at the boundaries of code points inside a text. Here the buffer
is modelled with its byte offsets and with slices that may fail, and shown to publish
what the buffer that counts code points publishes. No slice fails, because every offset
is the length in bytes of some of the leading code points.
-/

namespace StreamGrammar

namespace Bytes

/-- What is left of a text from a byte offset on, which must be at the boundary of a code point. -/
def drop? : List Char → (offset : Nat) → Option (List Char)
  | [], offset => if offset = 0 then some [] else none
  | character :: rest, offset =>
      if offset = 0 then some (character :: rest)
      else if character.utf8Size ≤ offset then drop? rest (offset - character.utf8Size)
      else none

/-- The part of a text up to a byte offset, which must be at the boundary of a code point. -/
def take? : List Char → (offset : Nat) → Option (List Char)
  | [], offset => if offset = 0 then some [] else none
  | character :: rest, offset =>
      if offset = 0 then some []
      else if character.utf8Size ≤ offset then
        (take? rest (offset - character.utf8Size)).map (character :: ·)
      else none

/-- The offsets of the code points of a text, of which the first has the given one. -/
def offsetsFrom : (offset : Nat) → List Char → List Nat
  | _, [] => []
  | offset, character :: rest => offset :: offsetsFrom (offset + character.utf8Size) rest

theorem drop?_utf8Len (leading trailing : List Char) :
    drop? (leading ++ trailing) (String.utf8Len leading) = some trailing := by
  induction leading with
  | nil => cases trailing <;> simp [drop?]
  | cons character rest ih =>
      have positive := character.utf8Size_pos
      simp [drop?, positive.ne', ih]

theorem take?_utf8Len (leading trailing : List Char) :
    take? (leading ++ trailing) (String.utf8Len leading) = some leading := by
  induction leading with
  | nil => cases trailing <;> simp [take?]
  | cons character rest ih =>
      have positive := character.utf8Size_pos
      simp [take?, positive.ne', ih]

theorem length_offsetsFrom (offset : Nat) (text : List Char) :
    (offsetsFrom offset text).length = text.length := by
  induction text generalizing offset with
  | nil => rfl
  | cons character rest ih => simp [offsetsFrom, ih]

theorem offsetsFrom_getElem? {text : List Char} {position : Nat} (inside : position < text.length)
    (offset : Nat) : (offsetsFrom offset text)[position]? =
      some (offset + String.utf8Len (text.take position)) := by
  induction text generalizing offset position with
  | nil => simp at inside
  | cons character rest ih =>
      cases position with
      | zero => simp [offsetsFrom]
      | succ position =>
          rw [List.length_cons, Nat.add_lt_add_iff_right] at inside
          rw [offsetsFrom, List.getElem?_cons_succ, ih inside, List.take_succ_cons,
            String.utf8Len_cons]
          congr 1
          omega

/-- The offset of a code point counted from the start, or the length of the text if there are not
as many. -/
theorem getD_offsetsFrom_zero (text : List Char) (position : Nat) :
    (offsetsFrom 0 text)[position]?.getD (String.utf8Len text) =
      String.utf8Len (text.take position) := by
  by_cases inside : position < text.length
  · rw [offsetsFrom_getElem? inside, Option.getD_some, Nat.zero_add]
  · have outside : text.length ≤ position := Nat.le_of_not_lt inside
    rw [List.getElem?_eq_none (by rw [length_offsetsFrom]; exact outside), Option.getD_none,
      List.take_of_length_le outside]

/-- The offset of a code point counted from the end, or zero if there are not as many. -/
theorem getD_reverse_offsetsFrom_zero (text : List Char) (count : Nat) :
    (offsetsFrom 0 text).reverse[count]?.getD 0 =
      String.utf8Len (text.take (text.length - (count + 1))) := by
  by_cases inside : count < text.length
  · rw [List.getElem?_reverse (by rw [length_offsetsFrom]; exact inside), length_offsetsFrom,
      offsetsFrom_getElem? (by omega), Option.getD_some, Nat.zero_add]
    congr 2
    omega
  · have outside : text.length ≤ count := Nat.le_of_not_lt inside
    rw [List.getElem?_eq_none (by rw [List.length_reverse, length_offsetsFrom]; exact outside),
      Nat.sub_eq_zero_of_le (by omega)]
    rfl

end Bytes

/-- The text of the open regions, and the byte offsets at which they start, the innermost first. -/
structure ByteBuffer where
  text : List Char := []
  starts : List Nat := []
deriving DecidableEq, Repr

namespace ByteBuffer

def begin (buffer : ByteBuffer) : ByteBuffer :=
  { buffer with starts := String.utf8Len buffer.text :: buffer.starts }

def push (buffer : ByteBuffer) (character : Char) : ByteBuffer :=
  if buffer.starts.isEmpty then buffer else { buffer with text := buffer.text ++ [character] }

/-- A region without `trimStart` leading and `trimEnd` trailing code points. -/
def trim? (trimStart trimEnd : Nat) (region : List Char) : Option (List Char) :=
  let offsets := Bytes.offsetsFrom 0 region
  let first := offsets[trimStart]?.getD (String.utf8Len region)
  let last := match trimEnd with
    | 0 => String.utf8Len region
    | count + 1 => offsets.reverse[count]?.getD 0
  if first < last then (Bytes.take? region last).bind (Bytes.drop? · first) else some []

/-- Closes the innermost region, if one is open. -/
def finish? (buffer : ByteBuffer) (trimStart trimEnd : Nat) :
    Option (Option (String × ByteBuffer)) :=
  match buffer.starts with
  | [] => some none
  | start :: outer => do
      let region ← Bytes.drop? buffer.text start
      let trimmed ← trim? trimStart trimEnd region
      let kept := if outer.isEmpty then [] else buffer.text
      return some (String.ofList trimmed, ⟨kept, outer⟩)

/-- Both offsets of a region that is trimmed are at boundaries of code points. -/
theorem trim?_eq (trimStart trimEnd : Nat) (region : List Char) :
    trim? trimStart trimEnd region = some (CaptureBuffer.trim trimStart trimEnd region) := by
  have first_eq := Bytes.getD_offsetsFrom_zero region trimStart
  have last_eq : (match trimEnd with
      | 0 => String.utf8Len region
      | count + 1 => (Bytes.offsetsFrom 0 region).reverse[count]?.getD 0) =
        String.utf8Len (region.take (region.length - trimEnd)) := by
    cases trimEnd with
    | zero => rw [Nat.sub_zero, List.take_length]
    | succ count => exact Bytes.getD_reverse_offsetsFrom_zero region count
  unfold trim?
  dsimp only
  rw [first_eq, last_eq, CaptureBuffer.trim]
  generalize kept_def : region.take (region.length - trimEnd) = kept
  have kept_eq : Bytes.take? region (String.utf8Len kept) = some kept := by
    have sliced := Bytes.take?_utf8Len kept (region.drop (region.length - trimEnd))
    rw [← kept_def, List.take_append_drop] at sliced
    rw [← kept_def]
    exact sliced
  -- The two cuts may cross, and then the offsets are in the wrong order or equal.
  by_cases enough : trimStart ≤ region.length - trimEnd
  · have leading_eq : region.take trimStart = kept.take trimStart := by
      rw [← kept_def, List.take_take, Nat.min_eq_left enough]
    have rest_eq := Bytes.drop?_utf8Len (kept.take trimStart) (kept.drop trimStart)
    have length_eq := String.utf8Len_append (kept.take trimStart) (kept.drop trimStart)
    rw [List.take_append_drop] at rest_eq length_eq
    rw [leading_eq]
    split
    next => rw [kept_eq, Option.bind_some, rest_eq]
    next notLess =>
      have nothing : String.utf8Len (kept.drop trimStart) = 0 := by omega
      rw [String.utf8Len_eq_zero.mp nothing]
  · have kept_le : String.utf8Len kept ≤ String.utf8Len (region.take trimStart) := by
      rw [← kept_def]
      exact String.utf8Len_le_of_prefix (List.take_prefix_take_left (by omega))
    have nothing : kept.drop trimStart = [] := by
      rw [← kept_def, List.drop_eq_nil_iff, List.length_take]
      omega
    rw [if_neg (Nat.not_lt.mpr kept_le), nothing]

end ByteBuffer

namespace CaptureBuffer

/-- The buffer with its offsets counted in bytes. -/
def toBytes (buffer : CaptureBuffer) : ByteBuffer where
  text := buffer.text.toList
  starts := buffer.starts.map fun start => String.utf8Len (buffer.text.toList.take start)

/-- Every open region starts inside the text or at its end. -/
def StartsInside (buffer : CaptureBuffer) : Prop :=
  ∀ start ∈ buffer.starts, start ≤ buffer.text.size

variable {buffer : CaptureBuffer}

theorem startsInside_empty : empty.StartsInside := by
  simp [StartsInside, empty]

theorem toBytes_begin (buffer : CaptureBuffer) : buffer.begin.toBytes = buffer.toBytes.begin := by
  simp [toBytes, begin, ByteBuffer.begin, ← Array.length_toList]

/-- A region is published from its bytes as it is from its code points, and no slice of the text
fails. -/
theorem finish?_toBytes (buffer : CaptureBuffer) (trimStart trimEnd : Nat) :
    buffer.toBytes.finish? trimStart trimEnd =
      some ((buffer.finish? trimStart trimEnd).map fun (text, rest) => (text, rest.toBytes)) := by
  cases starts_eq : buffer.starts with
  | nil => simp [ByteBuffer.finish?, toBytes, finish?, starts_eq]
  | cons start outer =>
      have region_eq := Bytes.drop?_utf8Len (buffer.text.toList.take start)
        (buffer.text.toList.drop start)
      rw [List.take_append_drop] at region_eq
      simp only [ByteBuffer.finish?, toBytes, finish?, starts_eq, List.map_cons, region_eq,
        Option.bind_eq_bind, Option.bind_some, ByteBuffer.trim?_eq, toList_extract_size]
      cases outer with
      | nil => rfl
      | cons next others => rfl

namespace StartsInside

variable (inside : buffer.StartsInside)

include inside

theorem begin : buffer.begin.StartsInside :=
  List.forall_mem_cons.mpr ⟨Nat.le_refl _, inside⟩

theorem push (character : Char) : (buffer.push character).StartsInside := by
  rw [CaptureBuffer.push]
  split
  next =>
    intro start start_mem
    rw [Array.size_push]
    exact Nat.le_succ_of_le (inside start start_mem)
  next => exact inside

theorem toBytes_push (character : Char) :
    (buffer.push character).toBytes = buffer.toBytes.push character := by
  by_cases closed : buffer.starts = []
  · simp [CaptureBuffer.push, isCapturing, ByteBuffer.push, toBytes, closed]
  · have opened : buffer.isCapturing = true := by simpa [isCapturing] using closed
    have kept : ∀ start ∈ buffer.starts, (buffer.text.toList ++ [character]).take start =
        buffer.text.toList.take start := fun start start_mem =>
      List.take_append_of_le_length (inside start start_mem)
    simp +contextual [CaptureBuffer.push, opened, toBytes, ByteBuffer.push, closed, kept]

theorem finish {trimStart trimEnd : Nat} {text : String} {rest : CaptureBuffer}
    (finished : buffer.finish? trimStart trimEnd = some (text, rest)) : rest.StartsInside := by
  cases starts_eq : buffer.starts with
  | nil => simp [finish?, starts_eq] at finished
  | cons start outer =>
      simp only [finish?, starts_eq, Option.some.injEq, Prod.mk.injEq] at finished
      rcases finished with ⟨_, rfl⟩
      rw [StartsInside, starts_eq, List.forall_mem_cons] at inside
      cases outer with
      | nil => simp [StartsInside]
      | cons next others => exact inside.2

end StartsInside

end CaptureBuffer

end StreamGrammar
