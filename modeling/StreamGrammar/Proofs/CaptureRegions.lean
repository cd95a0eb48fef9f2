import Mathlib.Data.List.DropRight
import StreamGrammar.Proofs.CaptureBytes

/-!
# Regions as independent texts

A buffer keeps one text for all open regions, and of each region only where it starts.
What it stands for is a stack of texts, one for each open region, to all of which every
code point is added. The two are compared here under whatever is done with them, in
whatever order: they have as many regions open, and closing a region publishes the same.
So what is published is what has been pushed since the region was opened, with the
regions that were opened and closed in between. The same holds of the buffer that counts
bytes, whose regions start one after the other and at boundaries of code points.
-/

namespace StreamGrammar

/-- Something that is done with the captured text. -/
inductive CaptureOperation where
  | begin
  | push (character : Char)
  | finish (trimStart trimEnd : Nat)
  | clear

namespace CaptureOperation

/-- The operations open as many regions as they close, close only regions that they have opened,
and push the text meanwhile. -/
inductive Balanced : List CaptureOperation → (pushed : List Char) → Prop
  | nil : Balanced [] []
  | push {operations : List CaptureOperation} {pushed : List Char} (character : Char)
      (rest : Balanced operations pushed) :
      Balanced (.push character :: operations) (character :: pushed)
  | nest {inner operations : List CaptureOperation} {innerPushed pushed : List Char}
      (nested : Balanced inner innerPushed) (trimStart trimEnd : Nat)
      (rest : Balanced operations pushed) :
      Balanced (.begin :: inner ++ .finish trimStart trimEnd :: operations)
        (innerPushed ++ pushed)

end CaptureOperation

/-- The texts of the open regions, the innermost first, each of them kept by itself. -/
structure RegionTexts where
  texts : List (List Char) := []

namespace RegionTexts

def after (regions : RegionTexts) : CaptureOperation → RegionTexts
  | .begin => ⟨[] :: regions.texts⟩
  | .push character => ⟨regions.texts.map (· ++ [character])⟩
  | .finish _ _ => ⟨regions.texts.tail⟩
  | .clear => {}

def afterAll (regions : RegionTexts) (operations : List CaptureOperation) : RegionTexts :=
  operations.foldl after regions

/-- What closing the innermost region publishes, if a region is open: its text without the first
and the last code points. -/
def published? (regions : RegionTexts) (trimStart trimEnd : Nat) : Option String :=
  regions.texts.head?.map fun text => String.ofList ((text.drop trimStart).rdrop trimEnd)

/-- What is done between the opening and the closing of a region adds the same to all texts. -/
theorem afterAll_balanced {operations : List CaptureOperation} {pushed : List Char}
    (balanced : CaptureOperation.Balanced operations pushed) (regions : RegionTexts) :
    regions.afterAll operations = ⟨regions.texts.map (· ++ pushed)⟩ := by
  induction balanced generalizing regions with
  | nil => simp [afterAll]
  | push character _ ih =>
      rw [afterAll, List.foldl_cons, ← afterAll, ih]
      simp [after, Function.comp_def]
  | nest _ _ _ _ ih restIh =>
      rw [afterAll, List.cons_append, List.foldl_cons, List.foldl_append, List.foldl_cons,
        ← afterAll, ← afterAll, ih, restIh]
      simp [after, Function.comp_def]

/-- The innermost text is what has been pushed since its region was opened. -/
theorem afterAll_append_begin {inner : List CaptureOperation} {pushed : List Char}
    (balanced : CaptureOperation.Balanced inner pushed) (regions : RegionTexts)
    (before : List CaptureOperation) :
    regions.afterAll (before ++ .begin :: inner) =
      ⟨pushed :: (regions.afterAll before).texts.map (· ++ pushed)⟩ := by
  rw [afterAll, List.foldl_append, List.foldl_cons, ← afterAll, ← afterAll,
    afterAll_balanced balanced]
  rfl

end RegionTexts

namespace CaptureBuffer

def after (buffer : CaptureBuffer) : CaptureOperation → CaptureBuffer
  | .begin => buffer.begin
  | .push character => buffer.push character
  | .finish trimStart trimEnd =>
      match buffer.finish? trimStart trimEnd with
      | some (_, rest) => rest
      | none => buffer
  | .clear => .empty

def afterAll (buffer : CaptureBuffer) (operations : List CaptureOperation) : CaptureBuffer :=
  operations.foldl after buffer

/-- The two cuts come to the same from either side. -/
theorem trim_eq (trimStart trimEnd : Nat) (region : List Char) :
    trim trimStart trimEnd region = (region.drop trimStart).rdrop trimEnd := by
  rw [trim, List.rdrop, List.drop_take, List.length_drop, Nat.sub_right_comm]

/-- The buffer has the same regions open as there are texts, each with the same text. The regions
start one after the other, and nothing is kept while none is open. -/
structure Keeps (buffer : CaptureBuffer) (regions : RegionTexts) : Prop where
  texts_eq : regions.texts = buffer.starts.map (buffer.text.toList.drop ·)
  inside : buffer.StartsInside
  ordered : buffer.starts.Pairwise (· ≥ ·)
  unkept : buffer.starts = [] → buffer.text = #[]

variable {buffer : CaptureBuffer} {regions : RegionTexts}

theorem keeps_empty : empty.Keeps {} := ⟨rfl, startsInside_empty, .nil, fun _ => rfl⟩

namespace Keeps

theorem depth_eq (keeps : buffer.Keeps regions) : buffer.depth = regions.texts.length := by
  rw [keeps.texts_eq, List.length_map, depth]

theorem published?_eq (keeps : buffer.Keeps regions) (trimStart trimEnd : Nat) :
    (buffer.finish? trimStart trimEnd).map Prod.fst = regions.published? trimStart trimEnd := by
  rw [RegionTexts.published?, keeps.texts_eq]
  cases starts_eq : buffer.starts with
  | nil => simp [finish?, starts_eq]
  | cons start outer =>
      simp only [finish?, starts_eq, toList_extract_size, trim_eq, Option.map_some, List.map_cons,
        List.head?_cons]

theorem begin (keeps : buffer.Keeps regions) :
    buffer.begin.Keeps (regions.after .begin) := by
  refine ⟨?_, keeps.inside.begin, ?_, fun none => absurd none (List.cons_ne_nil _ _)⟩
  · simp [RegionTexts.after, CaptureBuffer.begin, keeps.texts_eq, ← Array.length_toList]
  · exact List.pairwise_cons.mpr ⟨keeps.inside, keeps.ordered⟩

theorem push (keeps : buffer.Keeps regions) (character : Char) :
    (buffer.push character).Keeps (regions.after (.push character)) := by
  rw [RegionTexts.after, keeps.texts_eq]
  by_cases closed : buffer.starts = []
  · have push_eq : buffer.push character = buffer := by
      simp [CaptureBuffer.push, isCapturing, closed]
    rw [push_eq]
    exact ⟨by simp [closed], keeps.inside, keeps.ordered, keeps.unkept⟩
  · have inside := keeps.inside.push character
    have opened : buffer.isCapturing = true := by simpa [isCapturing] using closed
    rw [CaptureBuffer.push, if_pos opened] at inside ⊢
    refine ⟨?_, inside, keeps.ordered, fun none => absurd none closed⟩
    simp only [Array.toList_push, List.map_map]
    refine List.map_congr_left fun start start_mem => ?_
    exact (List.drop_append_of_le_length (keeps.inside start start_mem)).symm

theorem finish (keeps : buffer.Keeps regions) (trimStart trimEnd : Nat) :
    (buffer.after (.finish trimStart trimEnd)).Keeps
      (regions.after (.finish trimStart trimEnd)) := by
  rw [RegionTexts.after, keeps.texts_eq, CaptureBuffer.after]
  cases starts_eq : buffer.starts with
  | nil =>
      simp only [finish?, starts_eq]
      exact ⟨by simp [starts_eq], keeps.inside, keeps.ordered, keeps.unkept⟩
  | cons start outer =>
      have ordered := keeps.ordered
      rw [starts_eq] at ordered
      cases finished : buffer.finish? trimStart trimEnd with
      | none => simp [finish?, starts_eq] at finished
      | some closed =>
          have inside := keeps.inside.finish finished
          simp only [finish?, starts_eq, Option.some.injEq] at finished
          subst finished
          refine ⟨?_, inside, ordered.of_cons, ?_⟩
          · cases outer with
            | nil => rfl
            | cons next others => rfl
          · rintro rfl
            rfl

/-- Whatever is done, the buffer keeps what the texts are. -/
theorem after (keeps : buffer.Keeps regions) (operation : CaptureOperation) :
    (buffer.after operation).Keeps (regions.after operation) := by
  cases operation with
  | begin => exact keeps.begin
  | push character => exact keeps.push character
  | finish trimStart trimEnd => exact keeps.finish trimStart trimEnd
  | clear => exact keeps_empty

theorem afterAll (keeps : buffer.Keeps regions) (operations : List CaptureOperation) :
    (buffer.afterAll operations).Keeps (regions.afterAll operations) := by
  induction operations generalizing buffer regions with
  | nil => exact keeps
  | cons operation rest ih => exact ih (keeps.after operation)

end Keeps

end CaptureBuffer

namespace ByteBuffer

/-- The buffer after an operation, unless a slice of the text fails. -/
def after? (buffer : ByteBuffer) : CaptureOperation → Option ByteBuffer
  | .begin => some buffer.begin
  | .push character => some (buffer.push character)
  | .finish trimStart trimEnd =>
      (buffer.finish? trimStart trimEnd).map fun closed? =>
        match closed? with
        | some (_, rest) => rest
        | none => buffer
  | .clear => some {}

def afterAll? (buffer : ByteBuffer) (operations : List CaptureOperation) : Option ByteBuffer :=
  operations.foldlM after? buffer

/-- The offset is at the boundary of a code point of the text, or at its end. -/
def IsBoundary (text : List Char) (offset : Nat) : Prop :=
  ∃ leading trailing, text = leading ++ trailing ∧ String.utf8Len leading = offset

end ByteBuffer

namespace CaptureBuffer

variable {buffer : CaptureBuffer}

theorem toBytes_after (inside : buffer.StartsInside) (operation : CaptureOperation) :
    buffer.toBytes.after? operation = some (buffer.after operation).toBytes := by
  cases operation with
  | begin => rw [ByteBuffer.after?, after, toBytes_begin]
  | push character => rw [ByteBuffer.after?, after, inside.toBytes_push]
  | finish trimStart trimEnd =>
      rw [ByteBuffer.after?, after, finish?_toBytes]
      cases buffer.finish? trimStart trimEnd with
      | none => rfl
      | some finished => rfl
  | clear => rfl

/-- No slice fails, whatever is done with a buffer that counts bytes. -/
theorem Keeps.afterAll?_toBytes {regions : RegionTexts} (keeps : buffer.Keeps regions)
    (operations : List CaptureOperation) :
    buffer.toBytes.afterAll? operations = some (buffer.afterAll operations).toBytes := by
  induction operations generalizing buffer regions with
  | nil => rfl
  | cons operation rest ih =>
      rw [ByteBuffer.afterAll?, List.foldlM_cons, toBytes_after keeps.inside]
      exact ih (keeps.after operation)

/-- With offsets in bytes the same is published, and no slice fails. -/
theorem Keeps.published?_toBytes {regions : RegionTexts} (keeps : buffer.Keeps regions)
    (trimStart trimEnd : Nat) :
    (buffer.toBytes.finish? trimStart trimEnd).map (Option.map Prod.fst) =
      some (regions.published? trimStart trimEnd) := by
  rw [finish?_toBytes, ← keeps.published?_eq]
  cases buffer.finish? trimStart trimEnd with
  | none => rfl
  | some finished => rfl

theorem isBoundary_of_mem_starts {start : Nat} (start_mem : start ∈ buffer.toBytes.starts) :
    ByteBuffer.IsBoundary buffer.toBytes.text start := by
  rcases List.mem_map.mp start_mem with ⟨count, _, rfl⟩
  exact ⟨buffer.text.toList.take count, buffer.text.toList.drop count,
    (List.take_append_drop _ _).symm, rfl⟩

theorem Keeps.ordered_toBytes {regions : RegionTexts} (keeps : buffer.Keeps regions) :
    buffer.toBytes.starts.Pairwise (· ≥ ·) := by
  refine List.pairwise_map.mpr (keeps.ordered.imp fun later => ?_)
  exact String.utf8Len_le_of_prefix (List.take_prefix_take_left later)

/-- Whatever has been done with the captured text, as many regions are open as there are texts, and
closing one publishes what it does there. That is what has been pushed since the region was opened,
trimmed. With offsets in bytes the same is published; no slice of the text fails, and the regions
start one after the other at boundaries of code points. -/
theorem refines_region_texts (operations : List CaptureOperation) :
    let buffer := empty.afterAll operations
    let regions := RegionTexts.afterAll {} operations
    buffer.depth = regions.texts.length ∧
      (∀ trimStart trimEnd, (buffer.finish? trimStart trimEnd).map Prod.fst =
        regions.published? trimStart trimEnd) ∧
      (∀ before inner pushed, operations = before ++ .begin :: inner →
        CaptureOperation.Balanced inner pushed → ∀ trimStart trimEnd, ∃ text,
          regions.published? trimStart trimEnd = some text ∧
            IsTrimmed pushed trimStart trimEnd text) ∧
      ∃ bytes : ByteBuffer, ByteBuffer.afterAll? {} operations = some bytes ∧
        bytes.starts.length = regions.texts.length ∧
        (∀ trimStart trimEnd, (bytes.finish? trimStart trimEnd).map (Option.map Prod.fst) =
          some (regions.published? trimStart trimEnd)) ∧
        (∀ start ∈ bytes.starts, ByteBuffer.IsBoundary bytes.text start) ∧
        bytes.starts.Pairwise (· ≥ ·) := by
  intro buffer regions
  have keeps : buffer.Keeps regions := keeps_empty.afterAll operations
  refine ⟨keeps.depth_eq, keeps.published?_eq, ?_, buffer.toBytes, ?_, ?_, ?_, ?_, ?_⟩
  · intro before inner pushed operations_eq balanced trimStart trimEnd
    refine ⟨String.ofList (trim trimStart trimEnd pushed), ?_,
      isTrimmed_trim pushed trimStart trimEnd⟩
    simp only [regions, operations_eq, RegionTexts.afterAll_append_begin balanced, trim_eq]
    rfl
  · exact keeps_empty.afterAll?_toBytes operations
  · rw [← keeps.depth_eq]
    exact List.length_map _
  · exact keeps.published?_toBytes
  · intro start start_mem
    exact isBoundary_of_mem_starts start_mem
  · exact keeps.ordered_toBytes

/-- A region around a pair of quotes with a letter of two bytes between them has all three of them,
although the region inside of it has been closed. -/
theorem refines_region_texts_nested :
    let operations : List CaptureOperation :=
      [.push 'x', .begin, .push '"', .begin, .push 'ä', .finish 0 0, .push '"']
    CaptureOperation.Balanced [.push '"', .begin, .push 'ä', .finish 0 0, .push '"']
        ['"', 'ä', '"'] ∧
      RegionTexts.published? (.afterAll {} operations) 1 1 = some "ä" ∧
      (∃ text, RegionTexts.published? (.afterAll {} operations) 2 1 = some text ∧
        IsTrimmed ['"', 'ä', '"'] 2 1 text) ∧
      ∃ bytes : ByteBuffer, ByteBuffer.afterAll? {} operations = some bytes ∧
        (bytes.finish? 1 1).map (Option.map Prod.fst) = some (some "ä") := by
  intro operations
  have balanced : CaptureOperation.Balanced
      [.push '"', .begin, .push 'ä', .finish 0 0, .push '"'] ['"', 'ä', '"'] :=
    .push _ (.nest (.push _ .nil) 0 0 (.push _ .nil))
  rcases refines_region_texts operations with ⟨_, _, since, bytes, bytes_eq, _, published, _⟩
  have quoted : RegionTexts.published? (.afterAll {} operations) 1 1 = some "ä" := by rfl
  refine ⟨balanced, quoted, since [.push 'x'] _ _ rfl balanced 2 1, bytes, bytes_eq, ?_⟩
  rw [published, quoted]

end CaptureBuffer

end StreamGrammar
